/-
QuickTrace.Tail.CatTermination — the loops of `qttail -c` and their end.

`forwardRound`, `backRound` and `settleRound` are the bodies of the loops of
`rewind` and of `nextTsc`; each has a measure, and the fuel of the functions
in `RingBuffer.lean` is enough for them. `catOne` is the loop that need not
end: its exact condition is `StopsFirst` of the levels that were rewound.
-/
import QuickTrace.Tail.CatEnds

namespace QuickTrace

open QuickTrace.Lib RingBuffer

namespace RingBuffer

variable {m : Mem} {msgs : Messages} {tail : Bool}

/-! ## The loops of rewind -/

/-- The body of the loop that goes forward; `none` when the loop is left. -/
def forwardRound (m : Mem) (msgs : Messages) (tail : Bool) (rb : RingBuffer) :
    Option RingBuffer :=
  if rb.cur < rb.end_ then
    match rb.next m msgs tail UINT64_MAX with
    | .ok (some (tsc, msgId)) =>
      ((msgs.get msgId).bind fun f => f.length m (rb.cur + 12)).map fun n =>
        { rb with cur := rb.cur + 13 + n, lastTsc := tsc }
    | _ => none
  else none

/-- A round moves the cursor towards the end. -/
theorem forwardRound_spec {rb rb' : RingBuffer} (h : forwardRound m msgs tail rb = some rb') :
    rb'.end_ = rb.end_ ∧ rb.cur < rb.end_ ∧ rb.cur < rb'.cur := by
  unfold forwardRound at h
  split at h
  · rename_i hlt
    split at h
    · obtain ⟨n, -, rfl⟩ := Option.map_eq_some_iff.mp h
      exact ⟨rfl, hlt, by dsimp only; omega⟩
    · cases h
  · cases h

theorem forward_ends (rb : RingBuffer) : Loop.Ends (forwardRound m msgs tail) rb := by
  refine Loop.ends_of_measure (μ := fun rb => rb.end_ - rb.cur) (fun {s s'} h => ?_) rb
  obtain ⟨hend, hlt, hcur⟩ := forwardRound_spec h
  omega

theorem forward_of_round {rb rb' : RingBuffer} (h : forwardRound m msgs tail rb = some rb')
    (fuel : Nat) : rb.forward m msgs tail (fuel + 1) = rb'.forward m msgs tail fuel := by
  unfold forwardRound at h
  rw [forward]
  split at h
  · rename_i hlt
    rw [if_pos hlt]
    split at h
    · rename_i hnext
      obtain ⟨n, hn, rfl⟩ := Option.map_eq_some_iff.mp h
      simp only [hnext, hn]
    · cases h
  · cases h

theorem forward_of_none {rb : RingBuffer} (h : forwardRound m msgs tail rb = none)
    (fuel fuel' : Nat) :
    rb.forward m msgs tail (fuel + 1) = rb.forward m msgs tail (fuel' + 1) := by
  unfold forwardRound at h
  rw [forward, forward]
  by_cases hlt : rb.cur < rb.end_
  · rw [if_pos hlt, if_pos hlt]
    rw [if_pos hlt] at h
    rcases hnext : rb.next m msgs tail UINT64_MAX with e | _ | ⟨tsc, msgId⟩
    · rfl
    · rfl
    · simp only [hnext, Option.map_eq_none_iff] at h
      simp only [h]
  · rw [if_neg hlt, if_neg hlt]

/-- More fuel than there is room makes no difference. -/
theorem forward_fuel (fuel : Nat) {rb : RingBuffer} (h : rb.end_ - rb.cur ≤ fuel) :
    rb.forward m msgs tail (fuel + 1) = rb.forward m msgs tail fuel := by
  induction fuel generalizing rb with
  | zero => rw [forward, forward, if_neg (by omega)]
  | succ fuel ih =>
    cases hround : forwardRound m msgs tail rb with
    | none => exact forward_of_none hround _ _
    | some rb' =>
      obtain ⟨hend, hlt, hcur⟩ := forwardRound_spec hround
      rw [forward_of_round hround, forward_of_round hround]
      exact ih (by omega)

/-- The body of the loop that goes backwards. -/
def backRound (m : Mem) (splitPoint : Nat) (w : Walk) : Option Walk :=
  if splitPoint < w.p then
    some { p := w.p - (1 + (m (w.p - 1)).toNat), cur := w.p,
           movedBackNumMsgs := w.movedBackNumMsgs + 1 }
  else none

theorem backRound_lt {splitPoint : Nat} {w w' : Walk} (h : backRound m splitPoint w = some w') :
    w'.p < w.p := by
  unfold backRound at h
  split at h
  · cases h
    dsimp only
    omega
  · cases h

theorem back_ends (splitPoint : Nat) (w : Walk) : Loop.Ends (backRound m splitPoint) w :=
  Loop.ends_of_measure (μ := Walk.p) backRound_lt w

theorem walkBack_succ (splitPoint fuel : Nat) (w : Walk) :
    walkBack m splitPoint (fuel + 1) w = match backRound m splitPoint w with
      | some w' => walkBack m splitPoint fuel w'
      | none => w := by
  rw [walkBack, backRound]
  split <;> rfl

/-- The fuel is enough here too. -/
theorem walkBack_fuel {splitPoint : Nat} (fuel : Nat) {w : Walk} (h : w.p ≤ fuel) :
    walkBack m splitPoint (fuel + 1) w = walkBack m splitPoint fuel w := by
  induction fuel generalizing w with
  | zero => rw [walkBack, walkBack, if_neg (by omega)]
  | succ fuel ih =>
    rw [walkBack_succ splitPoint (fuel + 1), walkBack_succ splitPoint fuel]
    cases hround : backRound m splitPoint w with
    | none => rfl
    | some w' =>
      have hlt := backRound_lt hround
      exact ih (by omega)

/-- What `rewind` leaves behind. -/
theorem rewind_rewound {rb rb' : RingBuffer} (h : rb.rewind m msgs tail = some rb') :
    Tail.Rewound m rb' := by
  unfold rewind at h
  obtain ⟨found, -, rfl⟩ := Option.map_eq_some_iff.mp h
  exact ⟨rfl, rfl⟩

end RingBuffer

theorem mem_of_mapM {α β : Type} {f : α → Option β} {xs : List α} {ys : List β}
    (h : xs.mapM f = some ys) {y : β} (hy : y ∈ ys) : ∃ x ∈ xs, f x = some y := by
  induction xs generalizing ys with
  | nil =>
    cases h
    cases hy
  | cons x xs ih =>
    rw [List.mapM_cons] at h
    obtain ⟨z, hz, h⟩ := Option.bind_eq_some_iff.mp h
    obtain ⟨zs, hzs, h⟩ := Option.bind_eq_some_iff.mp h
    cases h
    rcases List.mem_cons.mp hy with rfl | hy
    · exact ⟨x, List.mem_cons_self, hz⟩
    · obtain ⟨x', hx', hf⟩ := ih hzs hy
      exact ⟨x', List.mem_cons_of_mem _ hx', hf⟩

namespace Tail

variable {m : Mem} {msgs : Messages}

/-! ## The loops of catOne -/

/-- The body of the loop of `nextTsc`, on `prevMinTsc`. -/
def settleRound (m : Mem) (rbs : List RingBuffer) (prevMinTsc : Nat) : Option Nat :=
  let next := minLevel m rbs 0 (UINT64_MAX, none)
  if next.1 = prevMinTsc then none else some next.1

/-- The second round finds what the first has found. -/
theorem settle_ends (rbs : List RingBuffer) (prevMinTsc : Nat) :
    Loop.Ends (settleRound m rbs) prevMinTsc := by
  have hagain : settleRound m rbs (minLevel m rbs 0 (UINT64_MAX, none)).1 = none := by
    unfold settleRound
    exact if_pos rfl
  cases h : settleRound m rbs prevMinTsc with
  | none => exact Loop.ends_of_none h
  | some tsc =>
    refine Loop.Ends.back h (Loop.ends_of_none ?_)
    unfold settleRound at h
    dsimp only at h
    split at h
    · cases h
    · cases h
      exact hagain

/-- The loops of `rewind` and of `catOne` end. -/
structure CatTerminates (m : Mem) (msgs : Messages) (rbs : List RingBuffer) : Prop where
  forward : ∀ rb ∈ rbs,
    Loop.Ends (forwardRound m msgs false) { rb with corruption := corruptionThreshold }
  back : ∀ splitPoint w, Loop.Ends (backRound m splitPoint) w
  settle : ∀ (rbs' : List RingBuffer) (prevMinTsc : Nat),
    Loop.Ends (settleRound m rbs') prevMinTsc
  catOne : ∀ rbs', rbs.mapM (rewind m msgs false) = some rbs' →
    ∃ fuel, Tail.catOne m msgs fuel (startCat rbs') ≠ .outOfFuel

/-- With a dictionary of supported codes, cat mode ends exactly if each level
that circles is preceded by a level that stops. -/
theorem cat_terminates_iff (m : Mem) (msgs : Messages) (hmsgs : WellFormed msgs)
    (rbs : List RingBuffer) :
    CatTerminates m msgs rbs
      ↔ ∀ rbs', rbs.mapM (rewind m msgs false) = some rbs' → StopsFirst m msgs rbs' := by
  have hiff : ∀ rbs', rbs.mapM (rewind m msgs false) = some rbs' →
      ((∃ fuel, catOne m msgs fuel (startCat rbs') ≠ .outOfFuel) ↔ StopsFirst m msgs rbs') := by
    intro rbs' hrew
    have hall : ∀ rb ∈ rbs', Rewound m rb := by
      intro rb hrb
      obtain ⟨x, -, hx⟩ := mem_of_mapM hrew hrb
      exact rewind_rewound hx
    exact (catOne_ends_iff rfl).trans (acc_round_iff hmsgs hall)
  constructor
  · intro h rbs' hrew
    exact (hiff rbs' hrew).mp (h.catOne rbs' hrew)
  · intro h
    exact
      { forward := fun rb _ => forward_ends _
        back := back_ends
        settle := settle_ends
        catOne := fun rbs' hrew => (hiff rbs' hrew).mpr (h rbs' hrew) }

theorem wellFormed_textTable : WellFormed textTable := by
  intro id mf h
  unfold textTable at h
  split at h
  · cases h
    exact ⟨Registry.initial, _, 7, ascii ['%', 's'], [.base .string], .initial, rfl⟩
  · cases h

/-! ## A level with one timestamp -/

/-- A level of one kilobyte, full of messages with the same timestamp. -/
def sameTscMem : Mem :=
  Mem.store (fun _ => 0) 4 (List.replicate 55 ((emptyHit 1).record 80)).flatten

theorem holds_flatten {m : Mem} {bs : List UInt8} {n k a : Nat}
    (h : m.Holds a (List.replicate n bs).flatten) (hk : k < n) :
    m.Holds (a + k * bs.length) bs := by
  induction n generalizing k a with
  | zero => exact absurd hk (Nat.not_lt_zero _)
  | succ n ih =>
    rw [List.replicate_succ, List.flatten_cons, Mem.holds_append] at h
    cases k with
    | zero =>
      rw [Nat.zero_mul, Nat.add_zero]
      exact h.1
    | succ k =>
      have hrest := ih h.2 (Nat.lt_of_succ_lt_succ hk)
      rwa [Nat.succ_mul, Nat.add_comm (k * bs.length), ← Nat.add_assoc]

theorem emptyHit_size : (emptyHit 1).size 80 = 14 := rfl

theorem intact_sameTsc {k : Nat} (hk : k < 55) :
    Intact textTable 80 sameTscMem (4 + k * 14) (emptyHit 1) := by
  have hlen : ((emptyHit 1).record 80).length = 14 := by rw [Hit.record_length, emptyHit_size]
  have hbytes : sameTscMem.Holds (4 + k * ((emptyHit 1).record 80).length) ((emptyHit 1).record 80) :=
    holds_flatten (Mem.holds_store _ 4 _) hk
  rw [hlen] at hbytes
  exact ⟨hbytes, by decide, described_text 1 rfl⟩

/-- The level holds messages. -/
theorem cat_terminates_iff_messages :
    (∀ k < 55, Intact textTable 80 sameTscMem (4 + k * 14) (emptyHit 1))
      ∧ (CatTerminates sameTscMem textTable [RingBuffer.create 0 0 1024]
        ↔ ∀ rbs', [RingBuffer.create 0 0 1024].mapM (rewind sameTscMem textTable false) = some rbs' →
          StopsFirst sameTscMem textTable rbs') :=
  ⟨fun _ hk => intact_sameTsc hk, cat_terminates_iff _ _ wellFormed_textTable _⟩

/-- The reader in front of message `k`. -/
def sameTscReader (k lastTsc : Nat) : RingBuffer := ⟨0, 0, 4, 768, 4 + k * 14, lastTsc⟩

theorem reads_sameTsc {k lastTsc : Nat} (hk : k < 55) (hlast : lastTsc ≤ 1) :
    (sameTscReader k lastTsc).nextTsc sameTscMem = 1
      ∧ Reads sameTscMem textTable (sameTscReader k lastTsc)
        ((sameTscReader k lastTsc).advance 1 1) := by
  have hi : Intact textTable 80 sameTscMem (sameTscReader k lastTsc).cur (emptyHit 1) :=
    intact_sameTsc hk
  have htsc : (sameTscReader k lastTsc).nextTsc sameTscMem = (emptyHit 1).tsc.toNat :=
    nextTsc_intact hi hlast
  have he : (sameTscReader k lastTsc).Expects UINT64_MAX (emptyHit 1) :=
    ⟨hlast, by decide, by decide⟩
  have hp : (sameTscReader k lastTsc).Plausible sameTscMem false UINT64_MAX 1
      (4 + k * 14 + 14) := by
    unfold RingBuffer.Plausible followingTsc
    by_cases hlast : k + 1 < 55
    · have hnext := (intact_sameTsc hlast).load_tsc
      rw [Nat.succ_mul, ← Nat.add_assoc] at hnext
      rw [hnext]
      refine ⟨1, if_neg ?_, .inr ⟨Nat.le_refl 1, by decide⟩⟩
      show ¬ (_ ∧ 768 ≤ 4 + k * 14 + 14)
      omega
    · have hzero : sameTscMem.load (4 + k * 14 + 14) 8 = 0 := by
        refine Mem.load_zero_of_holds (Mem.holds_replicate.mpr fun x hx _ => ?_)
        refine Mem.store_ge ?_
        simp only [List.length_flatten, List.map_replicate, List.sum_replicate_nat,
          Hit.record_length, emptyHit_size]
        omega
      rw [hzero]
      exact ⟨0, if_neg fun h => h.1 rfl, .inl rfl⟩
  obtain ⟨p, hread, -⟩ := Readable.of_intact (by decide) hi he hp
  exact ⟨htsc, p, hread⟩

theorem lap_sameTsc (d : Nat) : ∀ {k lastTsc : Nat}, k + d = 54 → lastTsc ≤ 1 →
    Lap sameTscMem textTable 1 (sameTscReader k lastTsc) := by
  induction d with
  | zero =>
    intro k lastTsc hk hlast
    obtain ⟨htsc, hread⟩ := reads_sameTsc (k := k) (by omega) hlast
    refine .last hread htsc ?_
    show (if 768 ≤ 4 + k * 14 + 13 + 1 then 4 else 4 + k * 14 + 13 + 1) = 4
    exact if_pos (by omega)
  | succ d ih =>
    intro k lastTsc hk hlast
    obtain ⟨htsc, hread⟩ := reads_sameTsc (k := k) (by omega) hlast
    refine .message hread htsc ?_
    have hnext : (sameTscReader k lastTsc).advance 1 1 = sameTscReader (k + 1) 1 := by
      have hcur : 4 + k * 14 + 13 + 1 = 4 + (k + 1) * 14 := by omega
      unfold advance sameTscReader
      dsimp only
      rw [if_neg (by omega), hcur]
    rw [hnext]
    exact ih (by omega) (Nat.le_refl 1)

/-- The whole level is printed again and again. -/
theorem same_timestamp_never_ends : WellFormed textTable
    ∧ ¬ CatTerminates sameTscMem textTable [RingBuffer.create 0 0 1024] := by
  refine ⟨wellFormed_textTable, fun h => ?_⟩
  have hzero : sameTscMem.load 0 4 = 0 :=
    Mem.load_zero_of_holds (Mem.holds_replicate.mpr fun x _ hx => Mem.store_lt (by omega))
  have hfirst : sameTscMem.load 4 8 = 1 := (intact_sameTsc (k := 0) (by decide)).load_tsc
  have hrew : [RingBuffer.create 0 0 1024].mapM (rewind sameTscMem textTable false)
      = some [sameTscReader 0 1] := by
    rw [List.mapM_cons, rewind]
    simp [RingBuffer.create, hzero, hfirst, sameTscReader]
  have hcircles : Circles sameTscMem textTable (sameTscReader 0 1) 1 :=
    ⟨_, .refl, rfl, lap_sameTsc 54 rfl (Nat.le_refl 1)⟩
  have hends := (catOne_ends_iff rfl).mp (h.catOne _ hrew)
  have hrewound : ∀ rb ∈ (startCat [sameTscReader 0 1]).rbs, Rewound sameTscMem rb := by
    intro rb hrb
    cases List.mem_singleton.mp hrb
    exact ⟨rfl, hfirst.symm⟩
  obtain ⟨j, rb, T, hj, hstops, hbefore⟩ :=
    (acc_round_iff wellFormed_textTable hrewound).mp hends 0 _ 1 rfl hcircles
  have hrb : rb = sameTscReader 0 1 :=
    List.mem_singleton.mp (List.mem_of_getElem? hj)
  have hshows := (hrb ▸ hstops).shows .refl
  rw [(reads_sameTsc (k := 0) (by decide) (Nat.le_refl 1)).1] at hshows
  omega

end Tail

end QuickTrace
