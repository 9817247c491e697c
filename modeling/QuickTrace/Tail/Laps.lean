/-
QuickTrace.Tail.Laps — reading one level of an unchanging file.

Each message moves the cursor on, but behind the end of the usable area it
goes back to the start, where only an earlier timestamp stops the reader. So
a level can be read for ever exactly if the messages of a whole lap bear the
same timestamp (`circles_iff`). `Stops` is the other way a level can end than
by its last message.
-/
import QuickTrace.Lib.Loop
import QuickTrace.Format.LengthAgreement
import QuickTrace.Tail.SilentStop

namespace QuickTrace.RingBuffer

open QuickTrace.Lib

variable {m : Mem} {msgs : Messages} {rb rb' : RingBuffer} {T : Nat}

/-! ## One message -/

/-- The message at the cursor is read. -/
def Reads (m : Mem) (msgs : Messages) (rb rb' : RingBuffer) : Prop :=
  ∃ p, rb.Readable m msgs p rb'

namespace Reads

theorem unique {rb₁ rb₂ : RingBuffer} (h₁ : Reads m msgs rb rb₁) (h₂ : Reads m msgs rb rb₂) :
    rb₁ = rb₂ := by
  obtain ⟨p, hp⟩ := h₁
  obtain ⟨q, hq⟩ := h₂
  exact hp.unique hq

theorem tsc_spec (h : Reads m msgs rb rb') :
    rb'.lastTsc = rb.nextTsc m ∧ rb.nextTsc m ≠ 0 ∧ rb.lastTsc ≤ rb.nextTsc m
      ∧ rb.nextTsc m < UINT64_MAX := by
  obtain ⟨p, hp⟩ := h
  obtain ⟨htsc, hpos, hlast, hlt⟩ := hp.tsc_spec
  rw [htsc]
  exact ⟨hp.lastTsc_eq, hpos, hlast, hlt⟩

/-- Only the cursor, the timestamp and the counter change. -/
theorem eq (h : Reads m msgs rb rb') :
    rb' = { rb with cur := rb'.cur, lastTsc := rb'.lastTsc, corruption := 0 } := by
  obtain ⟨p, hp⟩ := h
  obtain ⟨mf, n, -, -, -, rfl⟩ := hp.decodes
  rfl

theorem start_eq (h : Reads m msgs rb rb') : rb'.start = rb.start := by rw [h.eq]

theorem end_eq (h : Reads m msgs rb rb') : rb'.end_ = rb.end_ := by rw [h.eq]

theorem corruption_eq (h : Reads m msgs rb rb') : rb'.corruption = 0 := by rw [h.eq]

/-- The cursor goes back to the start, or on and stays in front of the
end. -/
theorem cur_cases (h : Reads m msgs rb rb') :
    rb'.cur = rb'.start ∨ rb.cur < rb'.cur ∧ rb'.cur < rb.end_ := by
  obtain ⟨p, hp⟩ := h
  obtain ⟨mf, n, -, -, -, rfl⟩ := hp.decodes
  unfold advance
  dsimp only
  split
  · exact .inl rfl
  · exact .inr ⟨by omega, by omega⟩

end Reads

/-- A shown timestamp is the one that stands there. -/
theorem nextTsc_eq_load (h : rb.nextTsc m ≠ 0) : rb.nextTsc m = m.load rb.cur 8 := by
  unfold nextTsc at h ⊢
  dsimp only at h ⊢
  split at h
  · exact absurd rfl h
  · rw [if_neg ‹_›]

theorem nextTsc_relax {t c : Nat} (hpos : rb.nextTsc m ≠ 0) (ht : t ≤ rb.nextTsc m) :
    ({ rb with lastTsc := t, corruption := c } : RingBuffer).nextTsc m = rb.nextTsc m := by
  rw [nextTsc_eq_load hpos] at ht ⊢
  unfold nextTsc
  dsimp only
  rw [if_neg (by omega)]

/-- Whatever was read before, a message is read if its timestamp is late
enough. -/
theorem Reads.relax {t c : Nat} (h : Reads m msgs rb rb') (ht : t ≤ rb.nextTsc m) :
    Reads m msgs { rb with lastTsc := t, corruption := c } rb' := by
  obtain ⟨p, hp⟩ := h
  obtain ⟨htsc, hpos, -, hlt⟩ := hp.tsc_spec
  have hsame := nextTsc_relax (c := c) (by rw [htsc]; exact hpos) ht
  rcases next_cases rb m msgs false UINT64_MAX with (hnone | ⟨-, e, herr⟩) | ⟨mf, length, nt, ha⟩
  · cases hnone.symm.trans hp.next
  · cases herr.symm.trans hp.next
  · have ha' : ({ rb with lastTsc := t, corruption := c } : RingBuffer).Accepts m msgs false
        UINT64_MAX mf length nt := by
      refine ⟨by rw [hsame]; exact ha.pos, ?_, ha.get, ha.measured, ha.byte, ha.following,
        by rw [hsame]; exact ha.range⟩
      rw [hsame]
      simp only [isValidTsc, Bool.and_eq_true, decide_eq_true_eq]
      exact ⟨⟨by omega, ht⟩, by omega⟩
    refine ⟨p, ⟨?_, hp.level, ?_⟩⟩
    · rw [ha'.next_eq, hsame, ← ha.next_eq]
      exact hp.next
    · obtain ⟨mf, n, hget, hread, hbyte, rfl⟩ := hp.decodes
      exact ⟨mf, n, hget, hread, hbyte, rfl⟩

/-! ## A run of messages -/

/-- Messages are read up to here. -/
abbrev Comes (m : Mem) (msgs : Messages) : RingBuffer → RingBuffer → Prop :=
  Relation.ReflTransGen (Reads m msgs)

namespace Comes

theorem lastTsc_le (h : Comes m msgs rb rb') : rb.lastTsc ≤ rb'.lastTsc := by
  induction h with
  | refl => exact Nat.le_refl _
  | tail _ hstep ih =>
    have hspec := hstep.tsc_spec
    omega

/-- There is only one way to go on. -/
theorem last {rb₁ : RingBuffer} (h : Comes m msgs rb rb') (h₁ : Comes m msgs rb rb₁)
    (hstuck : ∀ rb₂, ¬ Reads m msgs rb₁ rb₂) : Comes m msgs rb' rb₁ := by
  have hdet : Relator.RightUnique (Reads m msgs) := fun _ _ _ hb hc => hb.unique hc
  rcases Relation.ReflTransGen.total_of_right_unique hdet h h₁ with hto | hfrom
  · exact hto
  · rcases Relation.ReflTransGen.cases_head hfrom with rfl | ⟨rb₂, hstep, -⟩
    · exact .refl
    · exact absurd hstep (hstuck rb₂)

end Comes

/-! ## Laps -/

/-- From the cursor on, up to where it goes back to the start, stand messages
that can be read and bear the timestamp `T`. -/
inductive Lap (m : Mem) (msgs : Messages) (T : Nat) : RingBuffer → Prop where
  | last {rb rb' : RingBuffer} (h : Reads m msgs rb rb') (ht : rb.nextTsc m = T)
    (hwrap : rb'.cur = rb'.start) : Lap m msgs T rb
  | message {rb rb' : RingBuffer} (h : Reads m msgs rb rb') (ht : rb.nextTsc m = T)
    (hs : Lap m msgs T rb') : Lap m msgs T rb

/-- Read on its own, the level comes to a whole lap with one timestamp. -/
def Circles (m : Mem) (msgs : Messages) (rb : RingBuffer) (T : Nat) : Prop :=
  ∃ rb₁, Comes m msgs rb rb₁ ∧ rb₁.cur = rb₁.start ∧ Lap m msgs T rb₁

/-- Read on its own, the level comes to a timestamp whose message `next`
rejects; `T` is this timestamp or that of the message before, whichever is
later. -/
def Stops (m : Mem) (msgs : Messages) (rb : RingBuffer) (T : Nat) : Prop :=
  ∃ rb₁, Comes m msgs rb rb₁ ∧ ¬ AtEnd m rb₁ ∧ rb₁.next m msgs false UINT64_MAX = .ok none
    ∧ T = max rb₁.lastTsc (rb₁.nextTsc m)

theorem Lap.nextTsc_eq (h : Lap m msgs T rb) : rb.nextTsc m = T := by
  cases h with
  | last _ ht _ => exact ht
  | message _ ht _ => exact ht

theorem Lap.lastTsc_le (h : Lap m msgs T rb) : rb.lastTsc ≤ T := by
  rw [← h.nextTsc_eq]
  cases h with
  | last h _ _ => exact h.tsc_spec.2.2.1
  | message h _ _ => exact h.tsc_spec.2.2.1

theorem Lap.relax {t c : Nat} (h : Lap m msgs T rb) (ht : t ≤ T) :
    Lap m msgs T { rb with lastTsc := t, corruption := c } := by
  have htsc := h.nextTsc_eq
  cases h with
  | last h h' hwrap =>
    refine .last (h.relax (by omega)) ?_ hwrap
    rw [nextTsc_relax h.tsc_spec.2.1 (by omega), htsc]
  | message h h' hs =>
    refine .message (h.relax (by omega)) ?_ hs
    rw [nextTsc_relax h.tsc_spec.2.1 (by omega), htsc]

/-- The first message of a lap, and where the lap ends. -/
theorem Lap.comes (h : Lap m msgs T rb) : ∃ rb', Reads m msgs rb rb' ∧ rb'.lastTsc = T
    ∧ Comes m msgs rb' { rb with cur := rb.start, lastTsc := T, corruption := 0 } := by
  induction h with
  | @last rb rb' h ht hwrap =>
    have hlast : rb'.lastTsc = T := h.tsc_spec.1.trans ht
    refine ⟨rb', h, hlast, ?_⟩
    have heq : rb' = { rb with cur := rb.start, lastTsc := T, corruption := 0 } := by
      rw [h.eq, hwrap, h.start_eq, hlast]
    rw [heq]
  | @message rb rb' h ht hs ih =>
    obtain ⟨rb₂, hstep, -, hrest⟩ := ih
    refine ⟨rb', h, h.tsc_spec.1.trans ht, .head hstep ?_⟩
    have heq : ({ rb' with cur := rb'.start, lastTsc := T, corruption := 0 } : RingBuffer)
        = { rb with cur := rb.start, lastTsc := T, corruption := 0 } := by
      rw [h.eq]
    rwa [← heq]

/-- A level that circles is read on, and circles still. -/
theorem Circles.step (h : Circles m msgs rb T) :
    ∃ rb', Reads m msgs rb rb' ∧ rb.nextTsc m ≤ T ∧ Circles m msgs rb' T := by
  obtain ⟨rb₁, hcomes, hstart, hlap⟩ := h
  rcases Relation.ReflTransGen.cases_head hcomes with rfl | ⟨rb', hstep, hrest⟩
  · obtain ⟨rb', hstep, -, hwrap⟩ := hlap.comes
    refine ⟨rb', hstep, Nat.le_of_eq hlap.nextTsc_eq, _, hwrap, rfl, ?_⟩
    -- the lap starts where it started before
    have hagain := hlap.relax (c := 0) (Nat.le_refl T)
    rw [hstart] at hagain
    exact hagain
  · refine ⟨rb', hstep, ?_, rb₁, hrest, hstart, hlap⟩
    have h1 := hstep.tsc_spec.1
    have h2 := Comes.lastTsc_le hrest
    have h3 := hlap.lastTsc_le
    omega

/-! ## Levels that can be read for ever -/

/-- Such a level comes back to the start. -/
theorem exists_start (h : ¬ Acc (fun b a => Reads m msgs a b) rb) :
    ∃ rb₁, Comes m msgs rb rb₁ ∧ rb₁.cur = rb₁.start
      ∧ ¬ Acc (fun b a => Reads m msgs a b) rb₁ := by
  generalize hn : rb.end_ - rb.cur = n
  induction n using Nat.strong_induction_on generalizing rb with
  | _ n ih =>
    obtain ⟨rb', hacc, hstep⟩ := exists_not_acc_lt_of_not_acc h
    have hend := hstep.end_eq
    rcases hstep.cur_cases with hstart | ⟨hlt, hle⟩
    · exact ⟨rb', .single hstep, hstart, hacc⟩
    · obtain ⟨rb₁, hcomes, hrest⟩ := ih (rb'.end_ - rb'.cur) (by omega) hacc rfl
      exact ⟨rb₁, .head hstep hcomes, hrest⟩

/-- What follows a timestamp that is as late as the one at the start is a
lap. -/
theorem lap_of_not_acc (h : ¬ Acc (fun b a => Reads m msgs a b) rb)
    (hT : m.load rb.start 8 ≤ rb.nextTsc m) : Lap m msgs (m.load rb.start 8) rb := by
  generalize hn : rb.end_ - rb.cur = n
  induction n using Nat.strong_induction_on generalizing rb with
  | _ n ih =>
    obtain ⟨rb', hacc, hstep⟩ := exists_not_acc_lt_of_not_acc h
    obtain ⟨rb₂, -, hstep₂⟩ := exists_not_acc_lt_of_not_acc hacc
    have hspec := hstep.tsc_spec
    have hspec₂ := hstep₂.tsc_spec
    have hstart := hstep.start_eq
    have hend := hstep.end_eq
    rcases hstep.cur_cases with hwrap | ⟨hlt, hle⟩
    · have hload := nextTsc_eq_load hspec₂.2.1
      rw [hwrap, hstart] at hload
      exact .last hstep (by omega) hwrap
    · have hlap := ih (rb'.end_ - rb'.cur) (by omega) hacc (by rw [hstart]; omega) rfl
      rw [hstart] at hlap
      have hlast := hlap.lastTsc_le
      exact .message hstep (by omega) hlap

/-- A level can be read for ever exactly if it comes to a lap with one
timestamp. -/
theorem circles_iff : (∃ T, Circles m msgs rb T) ↔ ¬ Acc (fun b a => Reads m msgs a b) rb := by
  constructor
  · rintro ⟨T, h⟩
    refine Loop.not_acc_of_invariant (P := fun rb => Circles m msgs rb T) (fun rb h => ?_) h
    obtain ⟨rb', hstep, -, h'⟩ := h.step
    exact ⟨rb', hstep, h'⟩
  · intro h
    obtain ⟨rb₁, hcomes, hstart, hacc⟩ := exists_start h
    obtain ⟨rb₂, -, hstep⟩ := exists_not_acc_lt_of_not_acc hacc
    have hload := nextTsc_eq_load hstep.tsc_spec.2.1
    rw [hstart] at hload
    exact ⟨_, rb₁, hcomes, hstart, lap_of_not_acc hacc (Nat.le_of_eq hload.symm)⟩

/-! ## Levels that stop -/

/-- On the way to where a level stops it always shows a timestamp, and none
that is later. -/
theorem Stops.shows (h : Stops m msgs rb T) (hcomes : Comes m msgs rb rb') :
    rb'.nextTsc m ≠ 0 ∧ rb'.nextTsc m ≤ T := by
  obtain ⟨rb₁, hcomes₁, hshown, hnext, rfl⟩ := h
  have hstuck : ∀ rb₂, ¬ Reads m msgs rb₁ rb₂ := by
    rintro rb₂ ⟨p, hp⟩
    cases hnext.symm.trans hp.next
  have hahead := hcomes.last hcomes₁ hstuck
  rcases Relation.ReflTransGen.cases_head hahead with rfl | ⟨rb₂, hstep, hrest⟩
  · unfold AtEnd at hshown
    exact ⟨fun h0 => hshown (.inl h0), Nat.le_max_right _ _⟩
  · have hspec := hstep.tsc_spec
    have hle := Comes.lastTsc_le hrest
    exact ⟨hspec.2.1, by omega⟩

end QuickTrace.RingBuffer
