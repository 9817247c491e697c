/-
QuickTrace.Tail.RewindInside — where `rewind` reads.

The search for the oldest message follows the messages from the start of the
level up to the split point, and then the length bytes from the tail pointer
back to it. `Contained` says of the bytes of the level what keeps these two
walks inside: the messages that follow each other end in front of the end of
the buffer, the tail pointer does not point behind it, and neither does the
timestamp of the message that was found (`rewind_inside_iff`).
-/
import QuickTrace.Tail.RewindReads

namespace QuickTrace.RingBuffer

open QuickTrace.Lib

variable {w : Window} {m : Mem} {msgs : Messages} {tail : Bool} {rb rb' : RingBuffer}

/-! ## The messages from the start -/

/-- A message stands at the cursor of `rb`, and `rb'` is behind it. -/
def Behind (m : Mem) (msgs : Messages) (tail : Bool) (rb rb' : RingBuffer) : Prop :=
  rb.cur < rb.end_ ∧ ∃ mf length nt, rb.Accepts m msgs tail UINT64_MAX mf length nt
    ∧ rb' = { rb with cur := rb.cur + 13 + length, lastTsc := rb.nextTsc m }

/-- The usable area ends at the cursor, or no message stands there yet. -/
def Leaves (m : Mem) (rb : RingBuffer) : Prop := rb.end_ ≤ rb.cur ∨ rb.nextTsc m = 0

theorem forwardRound_end (h : ¬ rb.cur < rb.end_) : forwardRound m msgs tail rb = none :=
  if_neg h

theorem forwardRound_notTaken (h : rb.NotTaken (rb.next m msgs tail UINT64_MAX)) :
    forwardRound m msgs tail rb = none := by
  unfold forwardRound
  split
  · rcases h with h | ⟨-, e, h⟩
    · rw [h]
    · rw [h]
  · rfl

theorem Behind.forwardRound (h : Behind m msgs tail rb rb') :
    forwardRound m msgs tail rb = some rb' := by
  obtain ⟨hlt, mf, n, nt, hacc, rfl⟩ := h
  unfold RingBuffer.forwardRound
  rw [if_pos hlt, hacc.next_eq]
  dsimp only
  rw [hacc.get, Option.bind_some, hacc.measured, Option.map_some]

/-- The forward loop goes from message to message. -/
theorem forwardRound_eq_some_iff : forwardRound m msgs tail rb = some rb'
    ↔ Behind m msgs tail rb rb' := by
  refine ⟨fun h => ?_, Behind.forwardRound⟩
  have hlt := (forwardRound_spec h).2.1
  rcases rb.next_cases m msgs tail UINT64_MAX with hnot | ⟨mf, n, nt, hacc⟩
  · rw [forwardRound_notTaken hnot] at h
    cases h
  · have hbehind : Behind m msgs tail rb _ := ⟨hlt, mf, n, nt, hacc, rfl⟩
    rw [hbehind.forwardRound] at h
    cases h
    exact hbehind

theorem reaches_iff : Loop.Reaches (forwardRound m msgs tail) rb rb'
    ↔ Relation.ReflTransGen (Behind m msgs tail) rb rb' := by
  unfold Loop.Reaches
  simp only [forwardRound_eq_some_iff]

theorem Covers.behind (hc : Covers w rb) (h : Behind m msgs tail rb rb') : Covers w rb' := by
  have hcur := hc.cur
  obtain ⟨-, mf, n, nt, -, rfl⟩ := h
  exact ⟨hc.lo, hc.first, by dsimp only; omega, hc.end_⟩

theorem forall_reaches_end {P : RingBuffer → Prop} (h : ¬ rb.cur < rb.end_) :
    ∀ rb', Loop.Reaches (forwardRound m msgs tail) rb rb' → rb'.cur < rb'.end_ → P rb' := by
  refine Loop.forall_reaches_iff.mpr ⟨fun hlt => absurd hlt h, fun t ht => ?_⟩
  rw [forwardRound_end h] at ht
  cases ht

/-- The loop needs what its rounds need. -/
theorem forwardIn_needs (fuel : Nat) (hc : Covers w rb) (hfuel : rb.end_ - rb.cur ≤ fuel) :
    Needs (∀ rb', Loop.Reaches (forwardRound m msgs tail) rb rb' → rb'.cur < rb'.end_ →
        MessageInside m msgs w.hi rb')
      (rb.forward m msgs tail fuel) (rb.forwardIn w m msgs tail fuel) := by
  induction fuel generalizing rb with
  | zero => exact .ok (forall_reaches_end (by omega))
  | succ fuel ih =>
    rw [forward, forwardIn]
    by_cases hlt : rb.cur < rb.end_
    · rw [if_pos hlt, if_pos hlt]
      refine ((nextIn_needs hc hlt).bind (Q := ∀ t, forwardRound m msgs tail rb = some t →
        ∀ rb', Loop.Reaches (forwardRound m msgs tail) t rb' → rb'.cur < rb'.end_ →
          MessageInside m msgs w.hi rb') fun hinside => ?_).congr ?_
      · rcases rb.next_cases m msgs tail UINT64_MAX with hnot | ⟨mf, n, nt, hacc⟩
        · -- no message is accepted here, and the loop is left
          rw [forwardRound_notTaken hnot]
          have hnone : ∀ t, none = some t → ∀ rb',
              Loop.Reaches (forwardRound m msgs tail) t rb' → rb'.cur < rb'.end_ →
                MessageInside m msgs w.hi rb' := by
            intro t ht
            cases ht
          rcases hnot with hnot | ⟨-, e, hnot⟩
          · rw [hnot]
            exact .ok hnone
          · rw [hnot]
            exact .ok hnone
        · have hbehind : Behind m msgs tail rb _ := ⟨hlt, mf, n, nt, hacc, rfl⟩
          have hhi := (hinside mf n hacc.valid hacc.get hacc.measured).1
          have hlo := hc.lo
          have hcur := hc.cur
          have hlen := (MessageFormatter.lengthIn_enough
            (show w.lo ≤ rb.cur + 12 by omega) hacc.measured).eq_ok (by omega)
          rw [hacc.next_eq]
          dsimp only
          rw [hacc.get, Option.bind_some, hacc.measured]
          dsimp only
          rw [hlen, ok_bind]
          refine (ih (hc.behind hbehind) (by dsimp only; omega)).congr ?_
          rw [hbehind.forwardRound]
          exact ⟨fun h t ht => Option.some.inj ht ▸ h, fun h => h _ rfl⟩
      · rw [Loop.forall_reaches_iff]
        exact and_congr_left fun _ => ⟨fun h _ => h, fun h => h hlt⟩
    · rw [if_neg hlt, if_neg hlt]
      exact .ok (forall_reaches_end hlt)

/-- A reader that gives up at once finds no message only where the timestamp
is zero. -/
theorem next_eq_none_iff (hcor : corruptionThreshold ≤ rb.corruption) :
    rb.next m msgs tail UINT64_MAX = .ok none ↔ rb.nextTsc m = 0 := by
  have hreject : ∀ e, (rb.reject e : Except CorruptionError (Option (Nat × Nat))) = .error e :=
    fun e => if_pos hcor
  constructor
  · intro h
    by_contra h0
    unfold next checkFollowing at h
    simp only [if_neg h0, hreject] at h
    repeat' split at h
    all_goals cases h
  · intro h
    unfold next
    simp only [h, if_true]

/-- The forward loop is left where there is no message, unless it has found
corruption. -/
theorem forward_last (hcor : corruptionThreshold ≤ rb.corruption)
    (h : forwardRound m msgs tail rb = none) (fuel : Nat) :
    rb.forward m msgs tail (fuel + 1) = some rb' ↔ rb' = rb ∧ Leaves m rb := by
  rw [forward]
  by_cases hlt : rb.cur < rb.end_
  · rw [if_pos hlt]
    have hleaves : Leaves m rb ↔ rb.next m msgs tail UINT64_MAX = .ok none := by
      rw [next_eq_none_iff hcor]
      exact ⟨fun h => h.resolve_left (Nat.not_le.mpr hlt), .inr⟩
    rw [hleaves]
    rcases rb.next_cases m msgs tail UINT64_MAX with hnot | ⟨mf, n, nt, hacc⟩
    · rcases hnot with hnot | ⟨-, e, hnot⟩
      · simp [hnot, eq_comm]
      · simp [hnot]
    · have hbehind : Behind m msgs tail rb _ := ⟨hlt, mf, n, nt, hacc, rfl⟩
      rw [hbehind.forwardRound] at h
      cases h
  · rw [if_neg hlt, Option.some.injEq, eq_comm]
    exact (and_iff_left (.inl (Nat.le_of_not_lt hlt))).symm

/-- Where the forward loop is left. -/
theorem forward_eq_some_iff (fuel : Nat) (hfuel : rb.end_ - rb.cur < fuel)
    (hcor : corruptionThreshold ≤ rb.corruption) : rb.forward m msgs tail fuel = some rb'
      ↔ Loop.Reaches (forwardRound m msgs tail) rb rb' ∧ Leaves m rb' := by
  induction fuel generalizing rb with
  | zero => omega
  | succ fuel ih =>
    cases hround : forwardRound m msgs tail rb with
    | none =>
      rw [forward_last hcor hround]
      constructor
      · rintro ⟨rfl, hleaves⟩
        exact ⟨.refl, hleaves⟩
      · rintro ⟨hreach, hleaves⟩
        rcases Relation.ReflTransGen.cases_head hreach with rfl | ⟨t, ht, -⟩
        · exact ⟨rfl, hleaves⟩
        · rw [hround] at ht
          cases ht
    | some t =>
      have hbehind := forwardRound_eq_some_iff.mp hround
      obtain ⟨hend, hlt, hcur⟩ := forwardRound_spec hround
      have hcor' : t.corruption = rb.corruption := by
        obtain ⟨-, mf, n, nt, -, rfl⟩ := hbehind
        rfl
      rw [forward_of_round hround, ih (by omega) (by omega)]
      constructor
      · exact fun h => ⟨.head hround h.1, h.2⟩
      · rintro ⟨hreach, hleaves⟩
        rcases Relation.ReflTransGen.cases_head hreach with rfl | ⟨t', ht', hreach⟩
        · obtain ⟨-, mf, n, nt, hacc, -⟩ := hbehind
          exact absurd hleaves (not_or.mpr ⟨Nat.not_le.mpr hlt, hacc.pos⟩)
        · rw [hround] at ht'
          cases ht'
          exact ⟨hreach, hleaves⟩

theorem forward_end_iff (hcor : corruptionThreshold ≤ rb.corruption) :
    rb.forward m msgs tail rb.end_ = some rb'
      ↔ Relation.ReflTransGen (Behind m msgs tail) rb rb' ∧ Leaves m rb' := by
  rw [← forward_fuel rb.end_ (Nat.sub_le _ _), ← reaches_iff]
  exact forward_eq_some_iff _ (Nat.lt_succ_of_le (Nat.sub_le _ _)) hcor

/-! ## The length bytes from the tail pointer -/

/-- From a position behind the split point over the message in front of it,
if that ends behind the split point too. -/
def stepBack (m : Mem) (splitPoint p : Nat) : Option Nat :=
  let p' := p - (1 + (m (p - 1)).toNat)
  if splitPoint < p' then some p' else none

/-- The backward loop stays at the last position behind the split point. -/
theorem walkBack_last {splitPoint : Nat} (fuel : Nat) {k : Walk} (hp : splitPoint < k.p)
    (hfuel : k.p ≤ fuel) : ∃ q, Loop.Reaches (stepBack m splitPoint) k.p q
      ∧ stepBack m splitPoint q = none
      ∧ (walkBack m splitPoint fuel k).cur = q
      ∧ (walkBack m splitPoint fuel k).p = q - (1 + (m (q - 1)).toNat)
      ∧ (q = k.p ∧ (walkBack m splitPoint fuel k).movedBackNumMsgs = k.movedBackNumMsgs + 1
        ∨ q < k.p
          ∧ k.movedBackNumMsgs + 1 < (walkBack m splitPoint fuel k).movedBackNumMsgs) := by
  induction fuel generalizing k with
  | zero => omega
  | succ fuel ih =>
    rw [walkBack, if_pos hp]
    by_cases hstep : splitPoint < k.p - (1 + (m (k.p - 1)).toNat)
    · have hround : stepBack m splitPoint k.p = some (k.p - (1 + (m (k.p - 1)).toNat)) :=
        if_pos hstep
      obtain ⟨q, hq, hlast, hcur, hpos, hmoved⟩ := ih
        (k := { p := k.p - (1 + (m (k.p - 1)).toNat), cur := k.p,
                movedBackNumMsgs := k.movedBackNumMsgs + 1 }) hstep (by dsimp only; omega)
      refine ⟨q, .head hround hq, hlast, hcur, hpos, .inr ?_⟩
      dsimp only at hmoved
      omega
    · have hdone : ∀ k' : Walk, ¬ splitPoint < k'.p → walkBack m splitPoint fuel k' = k' := by
        intro k' hk'
        cases fuel with
        | zero => rfl
        | succ fuel => rw [walkBack, if_neg hk']
      rw [hdone _ hstep]
      exact ⟨k.p, .refl, if_neg hstep, rfl, rfl, .inl ⟨rfl, rfl⟩⟩

/-- Of the length bytes the first is the last in the buffer. -/
theorem walkBackIn_needs {splitPoint : Nat} (hlo : w.lo ≤ splitPoint) (fuel : Nat) {k : Walk}
    (hfuel : k.p ≤ fuel) :
    Needs (splitPoint < k.p → k.p ≤ w.hi) (walkBack m splitPoint fuel k)
      (walkBackIn w m splitPoint fuel k) := by
  induction fuel generalizing k with
  | zero => exact .ok fun h => by omega
  | succ fuel ih =>
    rw [walkBack, walkBackIn]
    by_cases hp : splitPoint < k.p
    · rw [if_pos hp, if_pos hp]
      refine ((w.byte_needs m (k.p - 1)).bind fun _ => ih (by dsimp only; omega)).congr ?_
      unfold Window.Has
      dsimp only
      omega
    · rw [if_neg hp, if_neg hp]
      exact .ok fun h => absurd h hp

theorem seek_eq (e : Nat) (hp : rb.cur + 8 < rb.start - 4 + e) : rb.seek m e
    = rb.land (rb.cur + 8) (walkBack m (rb.cur + 8) (rb.start - 4 + e)
        { p := rb.start - 4 + e, cur := rb.cur, movedBackNumMsgs := 0 }) := by
  unfold seek land
  exact if_neg (Nat.not_le.mpr hp)

theorem seekIn_needs (hlo : w.lo ≤ rb.cur + 8) (e : Nat) :
    Needs (rb.start - 4 + e ≤ rb.cur + 8 ∨ rb.start - 4 + e ≤ w.hi) (rb.seek m e)
      (rb.seekIn w m e) := by
  unfold seekIn
  dsimp only
  by_cases hp : rb.start - 4 + e ≤ rb.cur + 8
  · rw [if_pos hp, seek, if_pos hp]
    exact .ok (.inl hp)
  · rw [if_neg hp, seek_eq e (Nat.lt_of_not_le hp)]
    have hwalk := walkBackIn_needs (w := w) (m := m) hlo (rb.start - 4 + e)
      (k := { p := rb.start - 4 + e, cur := rb.cur, movedBackNumMsgs := 0 }) (Nat.le_refl _)
    refine (hwalk.map _).congr ?_
    dsimp only
    omega

/-- The last position behind the split point is the oldest message, unless it
is the first one and the message in front of it begins before the split
point. -/
theorem seek_cur {e : Nat} (hp : rb.cur + 8 < rb.start - 4 + e) {q : Nat}
    (hq : Loop.Reaches (stepBack m (rb.cur + 8)) (rb.start - 4 + e) q)
    (hlast : stepBack m (rb.cur + 8) q = none) :
    (rb.seek m e).cur = if q = rb.start - 4 + e ∧ q - (1 + (m (q - 1)).toNat) < rb.cur + 8
      then rb.start else q := by
  obtain ⟨q', hq', hlast', hcur, hpos, hmoved⟩ := walkBack_last (m := m) (rb.start - 4 + e)
    (k := { p := rb.start - 4 + e, cur := rb.cur, movedBackNumMsgs := 0 }) hp (Nat.le_refl _)
  cases hq'.last_unique hlast' hq hlast
  rw [seek_eq e hp, land, hcur, hpos]
  dsimp only at hmoved
  split
  · rw [if_pos (by omega)]
  · rw [if_neg (by omega)]

/-- The tail pointer does not point behind `hi`, and of the message that the
length bytes lead to the timestamp is in front of `hi`. -/
def OldestInside (m : Mem) (hi e : Nat) (rb : RingBuffer) : Prop :=
  rb.start - 4 + e ≤ rb.cur + 8
    ∨ rb.start - 4 + e ≤ hi
      ∧ ∀ q, Loop.Reaches (stepBack m (rb.cur + 8)) (rb.start - 4 + e) q →
        stepBack m (rb.cur + 8) q = none →
        q = rb.start - 4 + e ∧ q - (1 + (m (q - 1)).toNat) < rb.cur + 8 ∨ q + 8 ≤ hi

/-- A step stays behind the split point. -/
theorem stepBack_gt {splitPoint p p' : Nat} (h : stepBack m splitPoint p = some p') :
    splitPoint < p' := by
  unfold stepBack at h
  dsimp only at h
  split at h
  · cases h
    assumption
  · cases h

/-- What the search for the oldest message and the last timestamp need. -/
theorem oldestInside_iff (hc : Covers w rb) {e : Nat} :
    (rb.start - 4 + e ≤ rb.cur + 8 ∨ rb.start - 4 + e ≤ w.hi) ∧ w.Has (rb.seek m e).cur 8
      ↔ OldestInside m w.hi e rb := by
  have hlo := hc.lo
  have hcur := hc.cur
  have hstart : w.Has rb.start 8 := ⟨hc.lo, hc.first⟩
  unfold OldestInside
  by_cases hp : rb.start - 4 + e ≤ rb.cur + 8
  · have hseek : (rb.seek m e).cur = rb.start := by rw [seek, if_pos hp]
    rw [hseek]
    exact iff_of_true ⟨.inl hp, hstart⟩ (.inl hp)
  · have hlt := Nat.lt_of_not_le hp
    rw [or_iff_right hp, or_iff_right hp]
    refine and_congr_right fun _ => ⟨fun h q hq hlast => ?_, fun h => ?_⟩
    · rw [seek_cur hlt hq hlast] at h
      split at h
      · exact .inl ‹_›
      · exact .inr h.2
    · obtain ⟨q, hq, hlast, -⟩ := walkBack_last (m := m) (rb.start - 4 + e)
        (k := { p := rb.start - 4 + e, cur := rb.cur, movedBackNumMsgs := 0 }) hlt (Nat.le_refl _)
      have hgt : rb.cur + 8 < q := hq.invariant (fun h _ => stepBack_gt h) hlt
      rw [seek_cur hlt hq hlast]
      split
      · exact hstart
      · exact ⟨by omega, (h q hq hlast).resolve_left ‹_›⟩

/-! ## The whole function -/

/-- The messages that follow each other from the cursor of `rb` on end in
front of `hi`, and where they end the search for the oldest one stays in
front of `hi` too; `e` is the tail pointer. -/
structure Contained (m : Mem) (msgs : Messages) (tail : Bool) (hi e : Nat) (rb : RingBuffer) :
    Prop where
  messages : ∀ rb', Relation.ReflTransGen (Behind m msgs tail) rb rb' → rb'.cur < rb'.end_ →
    MessageInside m msgs hi rb'
  oldest : ∀ rb', Relation.ReflTransGen (Behind m msgs tail) rb rb' → Leaves m rb' →
    OldestInside m hi e rb'

theorem contained_iff {hi e : Nat} : Contained m msgs tail hi e rb
    ↔ (∀ rb', Relation.ReflTransGen (Behind m msgs tail) rb rb' → rb'.cur < rb'.end_ →
        MessageInside m msgs hi rb')
      ∧ ∀ rb', Relation.ReflTransGen (Behind m msgs tail) rb rb' → Leaves m rb' →
        OldestInside m hi e rb' :=
  ⟨fun h => ⟨h.messages, h.oldest⟩, fun h => ⟨h.1, h.2⟩⟩

theorem Covers.reaches (hc : Covers w rb)
    (h : Relation.ReflTransGen (Behind m msgs tail) rb rb') : Covers w rb' := by
  induction h with
  | refl => exact hc
  | tail _ hb ih => exact ih.behind hb

/-- The branch of a level that has wrapped. -/
theorem findIn_needs (hc : Covers w rb) (hcor : corruptionThreshold ≤ rb.corruption) {e : Nat}
    (he : e ≠ 0) :
    Needs ((∀ rb', Relation.ReflTransGen (Behind m msgs tail) rb rb' → rb'.cur < rb'.end_ →
          MessageInside m msgs w.hi rb')
        ∧ ∀ rb', Relation.ReflTransGen (Behind m msgs tail) rb rb' → Leaves m rb' →
          rb'.start - 4 + e ≤ rb'.cur + 8 ∨ rb'.start - 4 + e ≤ w.hi)
      ((rb.forward m msgs tail rb.end_).map (seek m · e)) (rb.findIn w m msgs tail e) := by
  have hforward : Needs _ (rb.forward m msgs tail rb.end_)
      (rb.forwardIn w m msgs tail rb.end_) :=
    forwardIn_needs rb.end_ hc (Nat.sub_le _ _)
  simp only [reaches_iff] at hforward
  unfold findIn
  rw [if_neg he]
  refine hforward.bind fun _ => ?_
  cases hf : rb.forward m msgs tail rb.end_ with
  | none =>
    refine .ok fun rb' hreach hleaves => ?_
    rw [(forward_end_iff hcor).mpr ⟨hreach, hleaves⟩] at hf
    cases hf
  | some rb' =>
    obtain ⟨hreach, hleaves⟩ := (forward_end_iff hcor).mp hf
    have hc' := hc.reaches hreach
    have hlo : w.lo ≤ rb'.cur + 8 := by
      have h1 := hc'.lo
      have h2 := hc'.cur
      omega
    refine ((seekIn_needs hlo e).map some).congr ⟨fun h t ht hl => ?_, fun h => h _ hreach hleaves⟩
    have ht := (forward_end_iff hcor).mpr ⟨ht, hl⟩
    rw [hf] at ht
    cases ht
    exact h

theorem finishIn_needs (found : Option RingBuffer) :
    Needs (∀ rb, found = some rb → w.Has rb.cur 8)
      (found.map fun rb => { rb with lastTsc := m.load rb.cur 8, corruption := 0 })
      (finishIn w m found) := by
  cases found with
  | none =>
    refine .ok fun rb h => ?_
    cases h
  | some rb =>
    have hload := (w.load_needs m rb.cur (k := 8) (by decide)).map fun lastTsc =>
      some { rb with lastTsc := lastTsc, corruption := 0 }
    refine hload.congr ⟨fun h t ht => ?_, fun h => h _ rfl⟩
    cases ht
    exact h

/-- What a level that has wrapped needs. -/
theorem wrapped_needs (hc : Covers w rb) (hcor : corruptionThreshold ≤ rb.corruption) {e : Nat}
    (he : e ≠ 0) :
    Needs (Contained m msgs tail w.hi e rb)
      (((rb.forward m msgs tail rb.end_).map (seek m · e)).map
        fun rb => { rb with lastTsc := m.load rb.cur 8, corruption := 0 })
      (rb.findIn w m msgs tail e >>= finishIn w m) := by
  refine ((findIn_needs hc hcor he).bind fun _ => finishIn_needs _).congr ?_
  rw [contained_iff, and_assoc]
  refine and_congr_right fun _ => ⟨?_, fun h => ⟨fun rb' hreach hleaves => ?_, fun rb' hf => ?_⟩⟩
  · rintro ⟨hsearch, hlast⟩ rb' hreach hleaves
    refine (oldestInside_iff (hc.reaches hreach)).mp ⟨hsearch rb' hreach hleaves, hlast _ ?_⟩
    rw [(forward_end_iff hcor).mpr ⟨hreach, hleaves⟩, Option.map_some]
  · exact ((oldestInside_iff (hc.reaches hreach)).mpr (h rb' hreach hleaves)).1
  · obtain ⟨t, ht, rfl⟩ := Option.map_eq_some_iff.mp hf
    obtain ⟨hreach, hleaves⟩ := (forward_end_iff hcor).mp ht
    exact ((oldestInside_iff (hc.reaches hreach)).mpr (h t hreach hleaves)).2

/-- What `rewind` needs of a reader at the start. -/
theorem rewindIn_needs (hc : w.Has (rb.start - 4) 4 → Covers w rb ∧ rb.cur = rb.start) :
    Needs (w.Has (rb.start - 4) 4
        ∧ (m.load (rb.start - 4) 4 = 0
          ∨ Contained m msgs tail w.hi (m.load (rb.start - 4) 4)
            { rb with corruption := corruptionThreshold }))
      (rb.rewind m msgs tail) (rb.rewindIn w m msgs tail) := by
  unfold rewindIn rewind
  dsimp only
  refine (w.load_needs m (rb.start - 4) (by decide)).bind fun htail => ?_
  obtain ⟨hc, hcur⟩ := hc htail
  generalize m.load (rb.start - 4) 4 = e
  by_cases he : e = 0
  · have hfirst : w.Has rb.cur 8 := by
      rw [hcur]
      exact ⟨hc.lo, hc.first⟩
    unfold findIn
    rw [if_pos he, if_pos he, ok_bind]
    refine (finishIn_needs _).congr (iff_of_true (fun rb' h => ?_) (.inl he))
    cases h
    exact hfirst
  · rw [if_neg he, or_iff_right he]
    have hc' : Covers w { rb with corruption := corruptionThreshold } :=
      ⟨hc.lo, hc.first, hc.cur, hc.end_⟩
    exact wrapped_needs hc' (Nat.le_refl _) he

/-- What `rewindIn` returns is the result of `rewind`. -/
theorem rewindIn_ok (hc : w.Has (rb.start - 4) 4 → Covers w rb ∧ rb.cur = rb.start)
    {r : Option RingBuffer} (h : rb.rewindIn w m msgs tail = .ok r) :
    r = rb.rewind m msgs tail :=
  (rewindIn_needs hc).eq_of_ok h

/-! ## The buffer of a level -/

/-- The buffer of a level that begins at `base` and has `kib` kilobytes: for a
level that is not empty `[start_ - 4, end_ + 256)`. -/
def buffer (base kib : Nat) : Window := ⟨base, base + kib * 1024⟩

/-- The reader of the level. -/
def ofLevel (level base kib : Nat) : RingBuffer := create level base (base + kib * 1024)

theorem covers_ofLevel (level base : Nat) {kib : Nat} (h : kib ≠ 0) :
    Covers (buffer base kib) (ofLevel level base kib) := by
  unfold buffer ofLevel create
  constructor <;> dsimp only <;> omega

theorem buffer_has_iff (level base kib : Nat) :
    (buffer base kib).Has ((ofLevel level base kib).start - 4) 4 ↔ kib ≠ 0 := by
  unfold buffer ofLevel create Window.Has
  dsimp only
  omega

/-- `rewind` reads inside the buffer of the level exactly if this is not empty
and, if it has wrapped, the messages and the tail pointer lead nowhere
else. -/
theorem rewind_inside_iff (m : Mem) (msgs : Messages) (tail : Bool) (level base kib : Nat) :
    (∃ r, (ofLevel level base kib).rewindIn (buffer base kib) m msgs tail = .ok r)
      ↔ kib ≠ 0 ∧ (m.load base 4 = 0 ∨ Contained m msgs tail (base + kib * 1024) (m.load base 4)
          { ofLevel level base kib with corruption := corruptionThreshold }) := by
  have hneeds : Needs _ ((ofLevel level base kib).rewind m msgs tail)
      ((ofLevel level base kib).rewindIn (buffer base kib) m msgs tail) :=
    rewindIn_needs fun h => ⟨covers_ofLevel level base ((buffer_has_iff level base kib).mp h), rfl⟩
  rw [buffer_has_iff] at hneeds
  exact hneeds.ok_iff

/-- A level of one kilobyte whose tail pointer is 2048. -/
def farTailMem : Mem := Mem.store (fun _ => 0) 0 (leBytes 4 2048)

/-- The first length byte is looked for behind the buffer. -/
theorem tail_pointer_leads_outside :
    ¬ ∃ r, (ofLevel 0 0 1).rewindIn (buffer 0 1) farTailMem textTable false = .ok r := by
  have h : (ofLevel 0 0 1).rewindIn (buffer 0 1) farTailMem textTable false = .error ⟨2047⟩ := by
    rfl
  rintro ⟨r, hr⟩
  rw [h] at hr
  cases hr

end QuickTrace.RingBuffer
