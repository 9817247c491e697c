/-
QuickTrace.Tail.EarlyClock — messages that are recorded after the clock was
read.

`tailMany` reads the time stamp counter before it looks at its files, so that
the message it chooses, or the one behind it, may be younger than `curTsc`.
`dump` then refuses the message (`refused`) and counts a corruption; the
next round has a later clock. `patience` bounds how often that can happen to
one message, which is far below `corruptionThreshold_`.

The last two sections are about the fast-forward: its fuel, and that its
readers have not failed yet.
-/
import QuickTrace.Tail.Follows
import QuickTrace.Tail.System

namespace QuickTrace

open QuickTrace.Lib RingBuf

namespace Level

variable {msgs : Messages} {n base size : Nat} {r : Level} {rb : RingBuffer}
  {e : Recorded} {consumed es : List Recorded}

/-! ## What follows a pending message -/

/-- The timestamp of the first message, zero if there is none. -/
def headTsc (es : List Recorded) : Nat := (es.head?.map fun x => x.hit.tsc.toNat).getD 0

/-- The message that stands at `q`. -/
theorem Standing.following (hi : Inv n base size r) (hl : LogOk (Described msgs) r.log)
    (hr : ReaderOf base size rb) {x : Recorded} (hx : Standing base r x) {q : Nat}
    (hq : x.start = q ∧ q < areaEnd base size) (tailing : Bool) :
    rb.followingTsc r.mem tailing q = some x.hit.tsc.toNat := by
  have hload := (hx.intact hi hl).load_tsc
  rw [hq.1] at hload
  unfold RingBuffer.followingTsc
  simp only [hload, hr.end_]
  rw [if_neg (by omega)]

/-- Behind a message of the current generation stands the next one or the zero
mark. -/
theorem following_cur (hi : Inv n base size r) (hl : LogOk (Described msgs) r.log)
    (hr : ReaderOf base size rb) {done : List Recorded} (hcur : r.cur = done ++ e :: es)
    (tailing : Bool) :
    rb.followingTsc r.mem tailing (e.start + e.hit.size n) = some (headTsc es) := by
  rcases es with _ | ⟨x, es⟩
  · have hz := load_mark hi (Or.inl (by rw [hcur]; simp))
    rw [hi.ptr_eq, last_end hi.cur_gen hcur] at hz
    simp [RingBuffer.followingTsc, hz, headTsc]
  · have hx : Standing base r x := Or.inl (by rw [hcur]; simp)
    exact hx.following hi hl hr (next_start hi.cur_gen hcur) tailing

/-- Behind the last message of the previous generation a tailing reader looks
at the start. -/
theorem following_old (hi : Inv n base size r) (hl : LogOk (Described msgs) r.log)
    (hstarted : r.cur = [] → r.log = []) (hr : ReaderOf base size rb) {done : List Recorded}
    (hold : r.old = done ++ e :: es) (hlim : intactFrom base r ≤ e.start) :
    rb.followingTsc r.mem true (e.start + e.hit.size n) = some (headTsc (es ++ r.cur)) := by
  rcases es with _ | ⟨x, es⟩
  · have hne : r.old ≠ [] := by rw [hold]; simp
    have hend := last_end hi.old_gen hold
    have hfull := hi.old_full hne
    have hones := load_ones hi hne (by omega)
    rw [hend] at hones hfull
    have hcur : r.cur ≠ [] := fun hnil => by
      have hmem : e ∈ r.log := (sublist_old r).subset (by rw [hold]; simp)
      rw [hstarted hnil] at hmem
      cases hmem
    obtain ⟨x, xs, hxs⟩ := List.exists_cons_of_ne_nil hcur
    unfold RingBuffer.followingTsc
    simp only [hones, hr.end_, hr.start, if_true, load_first hi hl hxs]
    rw [if_pos ⟨by decide, hfull⟩, hxs]
    rfl
  · have hstart := next_start hi.old_gen hold
    have hx : Standing base r x := Or.inr ⟨by rw [hold]; simp, by omega⟩
    exact hx.following hi hl hr hstart true

/-- What `next` finds behind the first pending message. -/
theorem Follows.following (hi : Inv n base size r) (hl : LogOk (Described msgs) r.log)
    (hstarted : r.cur = [] → r.log = []) (h : Follows n base size r rb consumed (e :: es)) :
    rb.followingTsc r.mem true (rb.cur + e.hit.size n) = some (headTsc es) := by
  cases h.cursor with
  | cur _ hcur hc =>
    obtain ⟨hstart, hlt⟩ := hi.cur_gen.start_eq hcur
    rw [← hstart, wrapPos_of_lt hlt] at hc
    rw [hc]
    exact following_cur hi hl h.reader hcur true
  | old done post hold hpost hpend hc hlim =>
    obtain ⟨x, post, rfl⟩ := List.exists_cons_of_ne_nil hpost
    rw [List.cons_append, List.cons.injEq] at hpend
    obtain ⟨rfl, rfl⟩ := hpend
    obtain ⟨hstart, -⟩ := hi.old_gen.start_eq hold
    rw [← hstart] at hc hlim
    rw [hc]
    exact following_old hi hl hstarted h.reader hold hlim

/-! ## A clock that is too early -/

/-- How many of the next two messages are older than `bound`. -/
def patience (bound : Nat) (pending : List Recorded) : Nat :=
  (pending.take 2).countP fun x => x.hit.tsc.toNat < bound

theorem patience_le_two (bound : Nat) (pending : List Recorded) : patience bound pending ≤ 2 :=
  Nat.le_trans List.countP_le_length (by rw [List.length_take]; exact Nat.min_le_left _ _)

/-- More may be older than a later bound, and more messages may come. -/
theorem patience_mono {bound bound' : Nat} (h : bound ≤ bound') (pending more : List Recorded) :
    patience bound pending ≤ patience bound' (pending ++ more) := by
  have hsub : List.Sublist (pending.take 2) ((pending ++ more).take 2) := by
    rw [List.take_append]
    exact List.sublist_append_left _ _
  refine Nat.le_trans (List.countP_mono_left (q := fun x => x.hit.tsc.toNat < bound') ?_)
    (hsub.countP_le)
  intro x _ hx
  simp only [decide_eq_true_eq] at hx ⊢
  omega

theorem patience_later {bound bound' : Nat} (h : bound ≤ bound') (pending : List Recorded) :
    patience bound pending ≤ patience bound' pending := by
  have hmono := patience_mono h pending []
  rwa [List.append_nil] at hmono

/-- A bound that all messages are older than counts no more of them. -/
theorem patience_of_lt {bound bound' : Nat} {pending : List Recorded}
    (h : ∀ x ∈ pending, x.hit.tsc.toNat < bound) :
    patience bound' pending ≤ patience bound pending := by
  refine List.countP_mono_left fun x hx _ => ?_
  simp only [decide_eq_true_eq]
  exact h x (List.mem_of_mem_take hx)

/-- If one of the two is not older, it was not counted. -/
theorem patience_lt {bound bound' : Nat} {pending : List Recorded} {x : Recorded}
    (hx : x ∈ pending.take 2) (hle : bound ≤ x.hit.tsc.toNat) (hlt : x.hit.tsc.toNat < bound') :
    patience bound pending + 1 ≤ patience bound' pending := by
  obtain ⟨pre, post, hsplit⟩ := List.append_of_mem hx
  have hcount : ∀ l : List Recorded, l.countP (fun x => x.hit.tsc.toNat < bound)
      ≤ l.countP (fun x => x.hit.tsc.toNat < bound') := fun l =>
    List.countP_mono_left fun y _ hy => by
      simp only [decide_eq_true_eq] at hy ⊢
      omega
  unfold patience
  rw [hsplit, List.countP_append, List.countP_append, List.countP_cons, List.countP_cons]
  have h1 := hcount pre
  have h2 := hcount post
  simp only [decide_eq_true_eq, if_neg (show ¬ x.hit.tsc.toNat < bound by omega), if_pos hlt]
  omega

/-- A reader that has not failed too often waits. -/
theorem dump_reject {m : Mem} {orderTsc curTsc : Nat} {out : Output} {err : CorruptionError}
    (hcor : rb.corruption < RingBuffer.corruptionThreshold)
    (h : rb.next m msgs true curTsc = rb.reject err) :
    rb.dump m msgs true orderTsc curTsc out
      = (.ok (false, { rb with corruption := rb.corruption + 1 }), out) := by
  unfold RingBuffer.dump
  rw [h, RingBuffer.reject, if_neg (by omega)]

/-- The first message is not older than the clock, or the one behind it is
younger. -/
def refused (curTsc : Nat) : List Recorded → Bool
  | [] => false
  | e :: es => decide (curTsc ≤ e.hit.tsc.toNat) || decide (curTsc < headTsc es)

theorem refused_cons {curTsc : Nat} :
    refused curTsc (e :: es) = true ↔ curTsc ≤ e.hit.tsc.toNat ∨ curTsc < headTsc es := by
  rw [refused, Bool.or_eq_true, decide_eq_true_eq, decide_eq_true_eq]

/-- One of the next two messages is then not older than the clock. -/
theorem exists_of_refused {curTsc : Nat} {pending : List Recorded}
    (h : refused curTsc pending = true) : ∃ x ∈ pending.take 2, curTsc ≤ x.hit.tsc.toNat := by
  rcases pending with _ | ⟨e, es⟩
  · cases h
  · rcases refused_cons.mp h with hle | hlt
    · exact ⟨e, by simp, hle⟩
    · rcases es with _ | ⟨x, es⟩
      · exact absurd hlt (Nat.not_lt_zero _)
      · exact ⟨x, by simp, Nat.le_of_lt hlt⟩

/-- `dump` of a message that is refused. -/
theorem Follows.dump_refused (hn : n ≤ 80) (hi : Inv n base size r)
    (hl : LogOk (Described msgs) r.log) (hstarted : r.cur = [] → r.log = [])
    (h : Follows n base size r rb consumed (e :: es))
    (hcor : rb.corruption < RingBuffer.corruptionThreshold) {curTsc : Nat}
    (href : refused curTsc (e :: es) = true) (out : Output) :
    rb.dump r.mem msgs true e.hit.tsc.toNat curTsc out
      = (.ok (false, { rb with corruption := rb.corruption + 1 }), out) := by
  have hmem : ∀ x ∈ e :: es, x ∈ r.log := fun x hx => by
    rw [h.log]; exact List.mem_append_right _ hx
  obtain ⟨hcur, hstand, -⟩ := h.head hi hl hstarted UINT64_MAX fun x hx =>
    Nat.le_of_lt (hl.small x (hmem x (by simp [hx])))
  have hfol := h.following hi hl hstarted
  have hintact := hstand.intact hi hl
  rw [← hcur] at hintact
  have hlast : rb.lastTsc ≤ e.hit.tsc.toNat := Nat.le_of_lt (h.last_lt hl (by simp))
  have hpos := hl.pos e (hmem e (by simp))
  by_cases hpast : e.hit.tsc.toNat < curTsc
  · have hbad : curTsc < headTsc es := (refused_cons.mp href).resolve_left (Nat.not_le.mpr hpast)
    have hnext : rb.next r.mem msgs true curTsc = _ :=
      RingBuffer.next_eq hn hintact ⟨hlast, hpos, hpast⟩
    rw [RingBuffer.checkFollowing, hfol] at hnext
    simp only at hnext
    rw [if_pos ⟨Nat.ne_of_gt (Nat.zero_lt_of_lt hbad), Or.inr hbad⟩] at hnext
    exact dump_reject hcor hnext
  · -- the message is younger than the clock
    have htsc := RingBuffer.nextTsc_intact hintact hlast
    have hvalid : rb.isValidTsc e.hit.tsc.toNat curTsc = false := by
      unfold RingBuffer.isValidTsc
      rw [decide_eq_false hpast, Bool.and_false]
    have hnext : rb.next r.mem msgs true curTsc = rb.reject ⟨0, .invalidTsc⟩ := by
      unfold RingBuffer.next
      simp only [htsc, hvalid, Bool.not_false, if_true]
      rw [if_neg (by omega)]
    exact dump_reject hcor hnext

/-- `dump` of a message that is not refused. -/
theorem Follows.dump_taken (hn : n ≤ 80) (hi : Inv n base size r)
    (hl : LogOk (Described msgs) r.log) (hstarted : r.cur = [] → r.log = [])
    (h : Follows n base size r rb consumed (e :: es)) {curTsc : Nat}
    (href : refused curTsc (e :: es) = false) (out : Output) :
    ∃ l out', rb.dump r.mem msgs true e.hit.tsc.toNat curTsc out
        = (.ok (true, rb.advance e.hit.tsc.toNat (encodeArgs n e.hit.args).length), out')
      ∧ out'.lines = out.lines ++ [l] ∧ Shows msgs n l e.hit ∧ l.level = rb.level := by
  have hmem : ∀ x ∈ e :: es, x ∈ r.log := fun x hx => by
    rw [h.log]; exact List.mem_append_right _ hx
  obtain ⟨hcur, hstand, -⟩ := h.head hi hl hstarted UINT64_MAX fun x hx =>
    Nat.le_of_lt (hl.small x (hmem x (by simp [hx])))
  have hintact := hstand.intact hi hl
  rw [← hcur] at hintact
  rw [← Bool.not_eq_true, refused_cons, not_or] at href
  have hexp : rb.Expects curTsc e.hit :=
    ⟨Nat.le_of_lt (h.last_lt hl (by simp)), hl.pos e (hmem e (by simp)), Nat.not_le.mp href.1⟩
  refine RingBuffer.dump_intact hn hintact hexp
    ⟨headTsc es, h.following hi hl hstarted, ?_⟩ out
  rcases es with _ | ⟨x, es⟩
  · exact Or.inl rfl
  · have hsorted := hl.sorted
    rw [h.log, List.pairwise_append, List.pairwise_cons] at hsorted
    have hlt := hsorted.2.1.1 x (by simp)
    have hx : headTsc (x :: es) = x.hit.tsc.toNat := rfl
    omega

/-- A failed attempt does not move the reader. -/
theorem Follows.retry {pending : List Recorded} (h : Follows n base size r rb consumed pending)
    (corruption : Nat) : Follows n base size r { rb with corruption } consumed pending :=
  ⟨⟨h.reader.start, h.reader.end_⟩, h.log, h.last, h.cursor⟩

/-! ## The fuel of the fast-forward -/

/-- Any fuel larger than the number of messages is enough. -/
theorem fastforward_fuel (hn : n ≤ 80) (hi : Inv n base size r)
    (hl : LogOk (Described msgs) r.log) (hstarted : r.cur = [] → r.log = []) (level : Nat)
    {fuel fuel' : Nat} (h : r.cur.length < fuel) (h' : r.cur.length < fuel') :
    (RingBuffer.create level base (base + size)).fastforward r.mem msgs true fuel
      = (RingBuffer.create level base (base + size)).fastforward r.mem msgs true fuel' := by
  have hmark : r.mem.load (genEnd n base r.cur) 8 = 0 := by
    rw [← hi.ptr_eq]
    exact load_mark hi
      ((Classical.em (r.cur = [])).elim (fun h => Or.inr (old_nil hstarted h)) Or.inl)
  have hstop : (⟨0, level, base + headerSize, areaEnd base size, genEnd n base r.cur,
      lastTscOf 0 r.cur⟩ : RingBuffer).nextTsc r.mem = 0 := by
    unfold RingBuffer.nextTsc
    simp only [hmark]
    split <;> rfl
  have hrun : ∀ k, (RingBuffer.create level base (base + size)).skipAll r.mem msgs true
      (k + 1 + r.cur.length) = _ := fun k =>
    (RingBuffer.skipAll_segment hn r.cur (RingBuffer.create level base (base + size))
      (cur_segment hi hl) (fun e _ => Nat.zero_le _) (cur_endOk hi) (k + 1)).trans
      (RingBuffer.skipAll_stop _ hstop k)
  obtain ⟨k, rfl⟩ := Nat.exists_eq_add_of_lt h
  obtain ⟨k', rfl⟩ := Nat.exists_eq_add_of_lt h'
  have h1 := hrun k
  have h2 := hrun k'
  unfold RingBuffer.fastforward
  rw [show r.cur.length + k + 1 = k + 1 + r.cur.length by omega,
    show r.cur.length + k' + 1 = k' + 1 + r.cur.length by omega, h1, h2]

end Level

/-! ## Readers that have not failed -/

namespace RingBuffer

variable {m : Mem} {msgs : Messages} {tail : Bool}

theorem skip_corruption {rb rb' : RingBuffer} (h : rb.skip m msgs tail = .ok (some rb')) :
    rb'.corruption = rb.corruption := by
  unfold skip at h
  cases hnext : rb.next m msgs tail UINT64_MAX with
  | error e => simp [hnext, bind, Except.bind] at h
  | ok r =>
    cases r with
    | none => simp [hnext, bind, Except.bind, pure, Except.pure] at h
    | some p =>
      simp only [hnext, bind, Except.bind] at h
      split at h
      · cases h
      · cases h
        rfl

theorem skipAll_corruption {fuel : Nat} {rb rb' : RingBuffer}
    (h : rb.skipAll m msgs tail fuel = .ok (some rb')) : rb'.corruption = rb.corruption := by
  induction fuel generalizing rb with
  | zero => cases h
  | succ fuel ih =>
    rw [skipAll] at h
    cases hskip : rb.skip m msgs tail with
    | error e => simp [hskip, bind, Except.bind] at h
    | ok r =>
      simp only [hskip, bind, Except.bind] at h
      cases r with
      | none =>
        cases h
        rfl
      | some rb'' => exact (ih h).trans (skip_corruption hskip)

/-- The fast-forward leaves the counter at zero. -/
theorem fastforward_corruption {fuel : Nat} {rb rb' : RingBuffer}
    (h : rb.fastforward m msgs tail fuel = .ok (some rb')) : rb'.corruption = rb.corruption := by
  unfold fastforward at h
  cases hall : rb.skipAll m msgs tail fuel with
  | error e => simp [hall, Except.map] at h
  | ok r =>
    cases r with
    | none => simp [hall, Except.map] at h
    | some rb'' =>
      simp only [hall, Except.map, Option.map_some, Except.ok.injEq, Option.some.injEq] at h
      have hcor := skipAll_corruption hall
      split at h
      · subst h; exact hcor
      · subst h; exact hcor

end RingBuffer

end QuickTrace
