/-
QuickTrace.Ring.Unwrapped — a level that has not wrapped yet.

A new file is full of zeros, and `bufIs` fills the trailer with ones. As long
as the writer has not wrapped, this is what stands behind its end mark
(`blank_reachable`).
-/
import QuickTrace.Ring.LevelTheorems

namespace QuickTrace

open QuickTrace.Lib RingBuf

namespace Level

/-- The bytes of a level in a new file. -/
def Zeroed (base size : Nat) (mem : Mem) : Prop := ∀ x, base ≤ x → x < base + size → mem x = 0

/-- The states of a level in a new file. -/
def FreshReachable (n base size : Nat) (ok : Level → Hit → Prop) (r : Level) : Prop :=
  ∃ cs mem, Zeroed base size mem
    ∧ Relation.ReflTransGen (Step n ok) (Level.init base size cs mem) r

theorem FreshReachable.reachable {n base size : Nat} {ok : Level → Hit → Prop} {r : Level}
    (h : FreshReachable n base size ok r) : Reachable n base size ok r := by
  obtain ⟨cs, mem, -, h⟩ := h
  exact ⟨cs, mem, h⟩

/-- There is one generation. -/
structure Unwrapped (r : Level) : Prop where
  lost : r.lost = []
  old : r.old = []

/-- Behind the end mark stand zeros up to the trailer, and ones in it. -/
def Blank (base size : Nat) (r : Level) : Prop :=
  ∀ x, r.rb.ptr + 8 ≤ x → x < base + size → r.mem x = if x < r.rb.bufEnd then 0 else 0xff

theorem blank_init {base size : Nat} (hg : Geometry size) {cs : MsgCounters} {mem : Mem}
    (hz : Zeroed base size mem) : Blank base size (Level.init base size cs mem) := by
  intro x hx hlt
  have hkib := hg.kib
  have hmem : (Level.init base size cs mem).mem
      = (((mem.store (base + size - TrailerSize) (List.replicate TrailerSize 0xff)).store base
          ones).store base (leBytes 4 (base - base))).store (base + headerSize) zeros := rfl
  have hptr : (Level.init base size cs mem).rb.ptr = base + headerSize := rfl
  have hend : (Level.init base size cs mem).rb.bufEnd = base + size - TrailerSize := rfl
  have hlen1 : ones.length = 8 := rfl
  have hlen2 : zeros.length = 8 := rfl
  rw [hptr] at hx
  simp only [headerSize] at hx
  rw [hmem, hend, Mem.store_ge (by rw [hlen2]; simp only [headerSize]; omega),
    Mem.store_ge (by rw [leBytes_length]; omega), Mem.store_ge (by rw [hlen1]; omega)]
  split
  · rename_i hbelow
    rw [Mem.store_lt hbelow]
    exact hz x (by omega) hlt
  · rename_i habove
    have hin : x - (base + size - TrailerSize) < TrailerSize := by
      simp only [TrailerSize] at habove ⊢
      omega
    rw [Mem.store_in (by omega) (by rw [List.length_replicate]; omega)]
    simp

theorem blank_trace {n base size : Nat} (hg : Geometry size) {r : Level} (hi : Inv n base size r)
    (hb : Unwrapped r → Blank base size r) {h : Hit} (hu : Unwrapped (r.trace n h)) :
    Blank base size (r.trace n h) := by
  rcases Nat.lt_or_ge r.rb.ptr r.rb.bufEnd with hlt | hle
  · have hw := wrap_of_lt hlt
    have hr : Unwrapped r := by
      have h1 : (r.trace n h).lost = r.wrap.lost := rfl
      have h2 : (r.trace n h).old = r.wrap.old := rfl
      rw [hw] at h1 h2
      exact ⟨h1 ▸ hu.lost, h2 ▸ hu.old⟩
    cases hoff : r.cs.off h.id with
    | true =>
      rw [trace_eq_wrap hoff, hw]
      exact hb hr
    | false =>
      rw [trace_eq_append (by rw [hw]; exact hlt) hoff, hw]
      intro x hx hlt'
      have hst : r.rb.startPos = r.rb.ptr := by rw [startPos, if_neg (by omega)]
      have hptr : (r.append n h).rb.ptr = r.rb.ptr + h.size n := by
        simp only [append, after, hst]
      have hlen : (h.record n ++ zeros).length = h.size n + 8 := by
        rw [List.length_append, Hit.record_length]; rfl
      rw [hptr] at hx
      have hmem : (r.append n h).mem x = r.mem x := Mem.store_ge (by rw [hlen]; omega)
      rw [hmem]
      exact hb hr x (by omega) hlt'
  · -- a wrap ends the first generation
    have hne : r.cur ≠ [] := Generation.ne_nil hg (by
      rw [← hi.ptr_eq, ← hi.pointers.bufEnd]
      exact hle)
    have hold : (r.trace n h).old = r.cur := by
      have : (r.trace n h).old = r.wrap.old := rfl
      rw [this, wrap, if_pos hle]
    exact absurd (hold ▸ hu.old) hne

/-- Behind the end mark of a level that has not wrapped nothing was ever
written. -/
theorem blank_reachable {n base size : Nat} (hg : Geometry size) {ok : Level → Hit → Prop}
    (hok : ∀ r h, ok r h → FitsTrailer n h) {r : Level}
    (hr : FreshReachable n base size ok r) (hu : Unwrapped r) : Blank base size r := by
  obtain ⟨cs, mem, hz, hr⟩ := hr
  have hboth : Inv n base size r ∧ (Unwrapped r → Blank base size r) := by
    clear hu
    induction hr with
    | refl => exact ⟨inv_init cs mem, fun _ => blank_init hg hz⟩
    | tail _ hstep ih =>
      cases hstep with
      | trace h hh =>
        exact ⟨inv_trace hg ih.1 fun hon => hok _ h (hh hon), blank_trace hg ih.1 ih.2⟩
      | ctl counter => exact ⟨{ ih.1 with }, fun hu => ih.2 ⟨hu.lost, hu.old⟩⟩
  exact hboth.2 hu

end Level

end QuickTrace
