/-
QuickTrace.Ring.LevelTheorems — the invariant of the writer.

`inv_reachable` is the run lemma: in every reachable state of a level whose
messages fit the trailer, `Inv` holds. A step is a wrap followed by either
nothing (the statement is disabled) or the record (`inv_append`); each half
has its own lemma. `log_order` does the same for the timestamps.
-/
import QuickTrace.Ring.Level

namespace QuickTrace

open QuickTrace.Lib RingBuf

namespace Level

/-- The size of a level: at least a KiB, and an `int`. -/
structure Geometry (size : Nat) : Prop where
  kib : 1024 ≤ size
  int : size < 2 ^ 31

/-- A message with its length byte and end mark fits the trailer. -/
def FitsTrailer (n : Nat) (h : Hit) : Prop := h.size n + 8 ≤ TrailerSize

instance (n : Nat) (h : Hit) : Decidable (FitsTrailer n h) := inferInstanceAs (Decidable (_ ≤ _))

/-- The records of one generation: contiguous from the first message on,
each short enough, each starting in front of the trailer. -/
structure Generation (n base size : Nat) (es : List Recorded) : Prop where
  laid : Laid (Recorded.bytes n) Recorded.start (base + headerSize) es
  fits : ∀ e ∈ es, FitsTrailer n e.hit
  start_lt : ∀ e ∈ es, e.start < base + size - TrailerSize

/-- The address behind a generation. -/
def genEnd (n base : Nat) (es : List Recorded) : Nat :=
  endOf (Recorded.bytes n) (base + headerSize) es

/-- From where on the previous generation is intact. -/
def intactFrom (base : Nat) (r : Level) : Nat :=
  if r.cur = [] then base + headerSize else r.rb.ptr + 8

/-- The invariant of a level between two statements. -/
structure Inv (n base size : Nat) (r : Level) : Prop where
  pointers : Pointers base size r.rb
  cur_gen : Generation n base size r.cur
  ptr_eq : r.rb.ptr = genEnd n base r.cur
  cur_bytes : r.mem.Holds (base + headerSize) (r.cur.flatMap (Recorded.bytes n))
  mark : r.cur ≠ [] ∨ r.old = [] → r.mem.Holds r.rb.ptr zeros
  fresh : r.old = [] → r.mem.load base 4 = 0
  old_gen : Generation n base size r.old
  old_full : r.old ≠ [] → base + size - TrailerSize ≤ genEnd n base r.old
  tail : r.old ≠ [] → r.mem.load base 4 = genEnd n base r.old - base
  old_bytes : r.old ≠ [] → r.mem.HoldsAbove (intactFrom base r) (base + headerSize)
    (r.old.flatMap (Recorded.bytes n) ++ ones)

/-- A generation and the mark behind it stay in the level. -/
theorem Generation.end_le {n base size : Nat} {es : List Recorded} (hg : Geometry size)
    (h : Generation n base size es) : genEnd n base es + 8 ≤ base + size := by
  have := hg.kib
  have hend := h.laid.end_lt (b := base + size - TrailerSize) (l := 248) h.start_lt
    (fun e he => by
      have := h.fits e he
      unfold FitsTrailer TrailerSize at this
      rw [Recorded.bytes_length]
      omega)
    (by simp only [headerSize, TrailerSize]; omega)
  unfold genEnd
  simp only [TrailerSize] at hend
  omega

/-- A generation that reaches the trailer is not empty. -/
theorem Generation.ne_nil {n base size : Nat} {es : List Recorded} (hg : Geometry size)
    (h : base + size - TrailerSize ≤ genEnd n base es) : es ≠ [] := by
  rintro rfl
  have := hg.kib
  simp only [genEnd, endOf_nil, headerSize, TrailerSize] at h
  omega

/-- One more message at the end of a generation. -/
theorem Generation.concat {n base size : Nat} {es : List Recorded}
    (h : Generation n base size es) {x : Hit} (hx : FitsTrailer n x)
    (hlt : genEnd n base es < base + size - TrailerSize) :
    Generation n base size (es ++ [⟨genEnd n base es, x⟩]) := by
  refine ⟨(laid_append _ _ _).mpr ⟨h.laid, rfl, trivial⟩, fun e he => ?_, fun e he => ?_⟩
  · rcases List.mem_append.mp he with he | he
    · exact h.fits e he
    · rw [List.mem_singleton.mp he]; exact hx
  · rcases List.mem_append.mp he with he | he
    · exact h.start_lt e he
    · rw [List.mem_singleton.mp he]; exact hlt

theorem genEnd_concat (n base : Nat) (es : List Recorded) (e : Recorded) :
    genEnd n base (es ++ [e]) = genEnd n base es + e.hit.size n := by
  rw [genEnd, endOf_append, endOf_cons, endOf_nil, Recorded.bytes_length]
  rfl

theorem generation_nil (n base size : Nat) : Generation n base size [] :=
  ⟨trivial, by simp, by simp⟩

/-! ## A fresh level -/

theorem inv_init {n base size : Nat} (cs : MsgCounters) (mem : Mem) :
    Inv n base size (Level.init base size cs mem) := by
  have hzeros : (Level.init base size cs mem).mem.Holds (base + headerSize) zeros := by
    have := Mem.holds_store (((mem.store (base + size - TrailerSize)
      (List.replicate TrailerSize 0xff)).store base ones).store base (leBytes 4 (base - base)))
      (base + headerSize) zeros
    exact this
  refine ⟨pointers_init base size cs mem, generation_nil n base size, rfl, trivial,
    fun _ => hzeros, fun _ => ?_, generation_nil n base size, fun h => absurd rfl h,
    fun h => absurd rfl h, fun h => absurd rfl h⟩
  have htail : (Level.init base size cs mem).mem.Holds base (leBytes 4 0) := by
    have := (Mem.holds_store ((mem.store (base + size - TrailerSize)
      (List.replicate TrailerSize 0xff)).store base ones) base (leBytes 4 (base - base))).store
      (show base + (leBytes 4 (base - base)).length ≤ base + headerSize
        ∨ base + headerSize + zeros.length ≤ base from Or.inl (by simp [headerSize]))
    rw [Nat.sub_self] at this
    simp only [Level.init, RingBuf.bufIs, RingBuf.doWrap, List.cons_append, List.nil_append,
      Mem.applyAll_cons, Mem.applyAll_nil, Nat.sub_self]
    exact this
  rw [Mem.load_leBytes htail, Nat.zero_mod]

/-! ## The wrap -/

theorem wrap_rb (r : Level) : r.wrap.rb = r.rb.maybeWrap.1 := by
  unfold wrap
  split
  · rfl
  · rename_i h
    rw [maybeWrap_stay (by omega)]

theorem wrap_mem (r : Level) : r.wrap.mem = r.mem.applyAll r.rb.maybeWrap.2 := by
  unfold wrap
  split
  · rfl
  · rename_i h
    rw [maybeWrap_stay (by omega)]
    rfl

theorem wrap_cs (r : Level) : r.wrap.cs = r.cs := by
  unfold wrap
  split <;> rfl

theorem wrap_log (r : Level) : r.wrap.log = r.log := by
  unfold wrap log
  split <;> simp

theorem wrap_of_lt {r : Level} (h : r.rb.ptr < r.rb.bufEnd) : r.wrap = r := by
  unfold wrap
  rw [if_neg (by omega)]

/-- The memory behind a wrap. -/
theorem wrap_mem_of_le {r : Level} (h : r.rb.bufEnd ≤ r.rb.ptr) :
    r.wrap.mem
      = (r.mem.store r.rb.ptr ones).store r.rb.buf (leBytes 4 (r.rb.ptr - r.rb.buf)) := by
  rw [wrap_mem, maybeWrap_wrap h]
  rfl

theorem inv_wrap {n base size : Nat} (hg : Geometry size) {r : Level} (hi : Inv n base size r) :
    Inv n base size r.wrap := by
  rcases Nat.lt_or_ge r.rb.ptr r.rb.bufEnd with hlt | hle
  · rw [wrap_of_lt hlt]; exact hi
  have hmem := wrap_mem_of_le hle
  have hend : base + size - TrailerSize ≤ genEnd n base r.cur := by
    rw [← hi.ptr_eq, ← hi.pointers.bufEnd]; exact hle
  have hcur : r.cur ≠ [] := Generation.ne_nil hg hend
  have hfit := hi.cur_gen.end_le hg
  have hint := hg.int
  have hold : r.wrap.old = r.cur := by unfold wrap; rw [if_pos hle]
  have hcur' : r.wrap.cur = [] := by unfold wrap; rw [if_pos hle]
  have hrb : r.wrap.rb = { r.rb with ptr := r.rb.buf + headerSize } := by
    rw [wrap_rb, maybeWrap_ring, startPos, if_pos hle]
  have hne : r.wrap.old ≠ [] := by rw [hold]; exact hcur
  have hlen4 : (leBytes 4 (r.rb.ptr - r.rb.buf)).length = 4 := leBytes_length 4 _
  refine ⟨⟨by rw [hrb]; exact hi.pointers.buf, by rw [hrb]; exact hi.pointers.bufEnd⟩,
    by rw [hcur']; exact generation_nil n base size, ?_, by rw [hcur']; trivial,
    fun h => ?_, fun h => absurd h hne, by rw [hold]; exact hi.cur_gen,
    fun _ => by rw [hold]; exact hend, fun _ => ?_, fun _ => ?_⟩
  · rw [hrb, hcur', hi.pointers.buf]; rfl
  · rcases h with h | h
    · exact absurd hcur' h
    · exact absurd h hne
  · rw [hold, hmem, hi.pointers.buf, Mem.load_leBytes (Mem.holds_store _ _ _), hi.ptr_eq]
    exact Nat.mod_eq_of_lt (by omega)
  · -- the wrap stores its marks behind and in front of the generation it ends
    have hbytes : (r.mem.store r.rb.ptr ones).Holds (base + headerSize)
        (r.cur.flatMap (Recorded.bytes n) ++ ones) := by
      rw [Mem.holds_append]
      refine ⟨hi.cur_bytes.store (Or.inl ?_), ?_⟩
      · rw [hi.ptr_eq]; exact Nat.le_refl _
      · rw [hi.ptr_eq]; exact Mem.holds_store _ _ _
    rw [hold, hmem]
    exact (hbytes.store (Or.inr (by rw [hlen4, hi.pointers.buf]; exact Nat.le_refl _))).above _

/-! ## The record -/

/-- An enabled message, once the wrap is done. -/
def append (n : Nat) (r : Level) (h : Hit) : Level :=
  { r with
    rb := r.rb.after n h
    cs := r.cs.hit h.id h.tsc
    mem := r.mem.store r.rb.ptr (h.record n ++ zeros)
    cur := r.cur ++ [⟨r.rb.ptr, h⟩] }

theorem startPos_lt {base size : Nat} (hg : Geometry size) {rb : RingBuf}
    (hp : Pointers base size rb) : rb.startPos < base + size - TrailerSize := by
  have := hg.kib
  have hb := hp.bufEnd
  unfold startPos
  split
  · rw [hp.buf]; simp only [headerSize, TrailerSize]; omega
  · omega

theorem trace_eq_append {n : Nat} {r : Level} {h : Hit} (hlt : r.wrap.rb.ptr < r.wrap.rb.bufEnd)
    (hon : r.cs.off h.id = false) : r.trace n h = r.wrap.append n h := by
  have hptr : r.wrap.rb.ptr = r.rb.startPos := by rw [wrap_rb, maybeWrap_ptr]
  have hst : r.wrap.rb.startPos = r.rb.startPos := by
    rw [startPos, if_neg (by omega), hptr]
  unfold trace append
  dsimp only
  rw [trace_ring hon, trace_counters, trace_mem hon, wrap_cs, wrap_mem, hptr]
  simp only [hon, Bool.false_eq_true, if_false]
  rw [after, after, hst, wrap_rb, maybeWrap_ring]

theorem trace_eq_wrap {n : Nat} {r : Level} {h : Hit} (hoff : r.cs.off h.id = true) :
    r.trace n h
      = { r.wrap with rb := { r.wrap.rb with msgStart := none }, cs := r.cs.hit h.id h.tsc } := by
  unfold trace
  rw [trace_off hoff, wrap_rb, maybeWrap_ring]
  simp only [hoff, if_true, wrap_mem]

theorem inv_append {n base size : Nat} {r : Level} (hi : Inv n base size r)
    (hlt : r.rb.ptr < r.rb.bufEnd) {h : Hit} (hh : FitsTrailer n h) :
    Inv n base size (r.append n h) := by
  have hst : r.rb.startPos = r.rb.ptr := by rw [startPos, if_neg (by omega)]
  have hge : base + headerSize ≤ r.rb.ptr := by rw [hi.ptr_eq]; exact le_endOf _ _
  have hlen : (h.record n ++ zeros).length = h.size n + 8 := by
    rw [List.length_append, Hit.record_length]; rfl
  have hptr : (r.append n h).rb.ptr = r.rb.ptr + h.size n := by
    simp only [append, after, hst]
  have hne : (r.append n h).cur ≠ [] := by simp [append]
  have hall := Mem.holds_store r.mem r.rb.ptr (h.record n ++ zeros)
  rw [Mem.holds_append, Hit.record_length] at hall
  have htail : (r.append n h).mem.load base 4 = r.mem.load base 4 := by
    refine Mem.load_congr fun x _ hx => Mem.store_lt ?_
    simp only [headerSize] at hge
    omega
  refine ⟨⟨hi.pointers.buf, hi.pointers.bufEnd⟩, ?_, ?_, ?_, fun _ => ?_, ?_, hi.old_gen,
    hi.old_full, fun ho => htail ▸ hi.tail ho, fun ho => ?_⟩
  · have hlt' : genEnd n base r.cur < base + size - TrailerSize := by
      rw [← hi.ptr_eq, ← hi.pointers.bufEnd]; exact hlt
    have := hi.cur_gen.concat hh hlt'
    rwa [← hi.ptr_eq] at this
  · rw [hptr, hi.ptr_eq]
    exact (genEnd_concat n base r.cur ⟨r.rb.ptr, h⟩).symm
  · simp only [append, List.flatMap_append, List.flatMap_cons, List.flatMap_nil, List.append_nil]
    rw [Mem.holds_append]
    refine ⟨hi.cur_bytes.store (Or.inl ?_), ?_⟩
    · rw [hi.ptr_eq]; exact Nat.le_refl _
    · have hend : base + headerSize + (r.cur.flatMap (Recorded.bytes n)).length = r.rb.ptr := by
        rw [hi.ptr_eq]; rfl
      rw [hend]
      exact hall.1
  · rw [hptr]; exact hall.2
  · intro ho; rw [htail]; exact hi.fresh ho
  · have habove := hi.old_bytes ho
    have hlim : intactFrom base (r.append n h) = r.rb.ptr + h.size n + 8 := by
      rw [intactFrom, if_neg hne, hptr]
    have hle : intactFrom base r ≤ r.rb.ptr + h.size n + 8 := by
      unfold intactFrom
      split
      · omega
      · omega
    rw [hlim]
    exact (habove.mono hle).store (by rw [hlen]; omega)

/-! ## Every run -/

/-- The step lemma. -/
theorem inv_trace {n base size : Nat} (hg : Geometry size) {r : Level} (hi : Inv n base size r)
    {h : Hit} (hh : r.cs.off h.id = false → FitsTrailer n h) :
    Inv n base size (r.trace n h) := by
  have hw := inv_wrap hg hi
  cases hoff : r.cs.off h.id with
  | true =>
    rw [trace_eq_wrap hoff]
    exact { hw with pointers := ⟨hw.pointers.buf, hw.pointers.bufEnd⟩ }
  | false =>
    have hlt : r.wrap.rb.ptr < r.wrap.rb.bufEnd := by
      rw [hw.pointers.bufEnd, wrap_rb, maybeWrap_ptr]
      exact startPos_lt hg hi.pointers
    rw [trace_eq_append hlt hoff]
    exact inv_append hw hlt (hh hoff)

/-- The run lemma. -/
theorem inv_reachable {n base size : Nat} (hg : Geometry size) {ok : Level → Hit → Prop}
    (hok : ∀ r h, ok r h → FitsTrailer n h) {r : Level} (hr : Reachable n base size ok r) :
    Inv n base size r := by
  refine hr.induction inv_init ?_
  intro r r' hi hs
  cases hs with
  | trace h hh => exact inv_trace hg hi fun hon => hok r h (hh hon)
  | ctl counter => exact { hi with }

end Level

end QuickTrace
