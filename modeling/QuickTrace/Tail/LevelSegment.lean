/-
QuickTrace.Tail.LevelSegment — what a reader finds in a level.

The writer's invariant, in the terms of the reader: the current generation is
a run of intact messages with a zero mark behind it (`cur_segment`,
`cur_endOk`), and so is what is left of the previous generation, with a mark
of ones (`old_segment`, `old_endOk`).
-/
import QuickTrace.Tail.Segment

namespace QuickTrace

open QuickTrace.Lib RingBuf

namespace Level

variable {msgs : Messages} {n base size : Nat} {r : Level}

/-- The end of the usable area. -/
def areaEnd (base size : Nat) : Nat := base + size - TrailerSize

/-! ## What stands in the level -/

/-- Every record has at least thirteen bytes. -/
theorem length_le_bytes (es : List Recorded) :
    13 * es.length ≤ (es.flatMap (Recorded.bytes n)).length := by
  induction es with
  | nil => simp
  | cons e es ih =>
    rw [List.flatMap_cons, List.length_append, Recorded.bytes_length, List.length_cons]
    simp only [Hit.size]
    omega

theorem sublist_cur (r : Level) : r.cur.Sublist r.log := List.sublist_append_right _ _

theorem sublist_old (r : Level) : r.old.Sublist r.log := by
  unfold log
  rw [List.append_assoc]
  exact (List.sublist_append_left r.old r.cur).trans (List.sublist_append_right _ _)

theorem cur_segment (hi : Inv n base size r) (hl : LogOk (Described msgs) r.log) :
    Segment msgs n r.mem (base + headerSize) (areaEnd base size) r.cur where
  laid := hi.cur_gen.laid
  intact := fun e he => ⟨hi.cur_gen.laid.holds hi.cur_bytes he, hi.cur_gen.fits e he,
    hl.each e ((sublist_cur r).subset he)⟩
  start_lt := hi.cur_gen.start_lt
  log := hl.sublist (sublist_cur r)

/-- The part of the previous generation that starts where everything still
stands. -/
theorem old_segment (hi : Inv n base size r) (hl : LogOk (Described msgs) r.log)
    {pre post : List Recorded} (hold : r.old = pre ++ post) (hne : r.old ≠ [])
    (hlim : intactFrom base r ≤ genEnd n base pre) :
    Segment msgs n r.mem (genEnd n base pre) (areaEnd base size) post := by
  have hlaid := hi.old_gen.laid
  rw [hold, laid_append] at hlaid
  have hmem : ∀ e ∈ post, e ∈ r.old := fun e he => by rw [hold]; simp [he]
  refine ⟨hlaid.2, fun e he => ⟨?_, hi.old_gen.fits e (hmem e he),
    hl.each e ((sublist_old r).subset (hmem e he))⟩,
    fun e he => hi.old_gen.start_lt e (hmem e he),
    hl.sublist (List.Sublist.trans (by rw [hold]; exact List.sublist_append_right _ _)
      (sublist_old r))⟩
  exact hi.old_gen.laid.holds_above (hi.old_bytes hne).left (hmem e he)
    (Nat.le_trans hlim (hlaid.2.start_ge he))

/-- The zero mark reads as no timestamp. -/
theorem load_mark (hi : Inv n base size r) (h : r.cur ≠ [] ∨ r.old = []) :
    r.mem.load r.rb.ptr 8 = 0 :=
  Mem.load_zero_of_holds (hi.mark h)

/-- The mark of ones behind the previous generation. -/
theorem load_ones (hi : Inv n base size r) (hne : r.old ≠ [])
    (hlim : intactFrom base r ≤ genEnd n base r.old) :
    r.mem.load (genEnd n base r.old) 8 = UINT64_MAX :=
  Mem.load_ones_of_holds ((hi.old_bytes hne).right.holds hlim)

theorem cur_endOk (hi : Inv n base size r) {rb : RingBuffer} {tailing : Bool} {curTsc : Nat} :
    rb.EndOk r.mem n tailing curTsc (base + headerSize) r.cur := by
  intro e he
  have hne : r.cur ≠ [] := by rintro h; rw [h] at he; cases he
  have hz : r.mem.load (endOf (Recorded.bytes n) (base + headerSize) r.cur) 8 = 0 := by
    have := load_mark hi (Or.inl hne)
    rwa [hi.ptr_eq] at this
  exact ⟨0, by simp [RingBuffer.followingTsc, hz], Or.inl rfl⟩

theorem old_endOk (hi : Inv n base size r) {rb : RingBuffer} (hend : rb.end_ = areaEnd base size)
    {curTsc : Nat} {pre post : List Recorded} (hold : r.old = pre ++ post) (hne : r.old ≠ [])
    (hlim : intactFrom base r ≤ genEnd n base r.old) :
    rb.EndOk r.mem n false curTsc (genEnd n base pre) post := by
  intro e he
  have hq : endOf (Recorded.bytes n) (genEnd n base pre) post = genEnd n base r.old := by
    rw [hold]; exact (endOf_append _ _ _).symm
  have hload := load_ones hi hne hlim
  have hfull := hi.old_full hne
  refine ⟨0, ?_, Or.inl rfl⟩
  unfold RingBuffer.followingTsc
  rw [hq]
  simp only [hload, hend]
  rw [if_pos ⟨by decide, hfull⟩]
  simp

end Level

end QuickTrace
