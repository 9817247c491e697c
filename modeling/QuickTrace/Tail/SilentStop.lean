/-
QuickTrace.Tail.SilentStop — when `qttail -c` of one file stops early.

`catOne` calls `tail` until it returns `false`, which it does at the end of
all levels and also when `next` rejects the message of the chosen level. A
rejection only counts up `corruption_`, and there is no second attempt, so
the threshold behind which a `CorruptionError` is thrown is never reached.
The other case is a level whose cursor shows a timestamp of ones, which
`nextTsc` never chooses. `GivesUp` is the state in front of such a call, and
`cat_loses_nothing_iff` says that a reading that ends with success has come
to the end of every level exactly if its loop meets no such state.
-/
import QuickTrace.Tail.CatMany

namespace QuickTrace

open QuickTrace.Lib RingBuffer

namespace Tail

variable {m : Mem} {msgs : Messages} {t t' c : Tail}

/-! ## The calls of `tail` -/

/-- A call of `tail` that has printed a message. -/
def Continues (m : Mem) (msgs : Messages) (t t' : Tail) : Prop :=
  t.tailOnce m msgs false UINT64_MAX = some (true, t')

/-- The states in front of the calls of the loop. -/
def Comes (m : Mem) (msgs : Messages) : Tail → Tail → Prop :=
  Relation.ReflTransGen (Continues m msgs)

/-- The next call of `tail` returns `false` before the end: the message of
the chosen level is rejected, or no level is chosen although one shows a
timestamp. -/
def GivesUp (m : Mem) (msgs : Messages) (t : Tail) : Prop :=
  match (t.nextTsc m).next with
  | some (_, k) => ∃ rb, t.rbs[k]? = some rb ∧ rb.next m msgs false UINT64_MAX = .ok none
  | none => ∃ rb ∈ t.rbs, rb.nextTsc m = UINT64_MAX

/-- Every level is at its end. -/
def Consumed (m : Mem) (t : Tail) : Prop := ∀ rb ∈ t.rbs, rb.nextTsc m = 0

/-- The loop ends where `tail` returns `false`. -/
theorem catOne_done_iff {t t' : Tail} : (∃ fuel, catOne m msgs fuel t = .done t')
    ↔ ∃ c, Comes m msgs t c ∧ c.tailOnce m msgs false UINT64_MAX = some (false, t') := by
  constructor
  · rintro ⟨fuel, h⟩
    induction fuel generalizing t with
    | zero => cases h
    | succ fuel ih =>
      rw [catOne] at h
      rcases hcall : t.tailOnce m msgs false UINT64_MAX with _ | ⟨_ | _, t₁⟩
      · simp only [hcall] at h
        cases h
      · simp only [hcall] at h
        cases h
        exact ⟨t, .refl, hcall⟩
      · simp only [hcall] at h
        obtain ⟨c, hc, hlast⟩ := ih h
        exact ⟨c, .head hcall hc, hlast⟩
  · rintro ⟨c, hc, hlast⟩
    induction hc using Relation.ReflTransGen.head_induction_on with
    | refl => exact ⟨1, by rw [catOne]; simp only [hlast]⟩
    | head hcall _ ih =>
      obtain ⟨fuel, hrun⟩ := ih
      refine ⟨fuel + 1, ?_⟩
      rw [catOne]
      unfold Continues at hcall
      simp only [hcall]
      exact hrun

theorem nextTsc_le (m : Mem) (rb : RingBuffer) : rb.nextTsc m ≤ UINT64_MAX := by
  have hlt := m.load_lt rb.cur 8
  unfold RingBuffer.nextTsc UINT64_MAX
  simp only
  split
  · exact Nat.zero_le _
  · omega

/-- `dump` returns `false` exactly when `next` has no message. -/
theorem dump_false {rb rb' : RingBuffer} {orderTsc curTsc : Nat} {out out' : Output} {tail : Bool}
    (h : rb.dump m msgs tail orderTsc curTsc out = (.ok (false, rb'), out')) :
    rb.next m msgs tail curTsc = .ok none ∧ rb' = { rb with corruption := rb.corruption + 1 } := by
  unfold dump at h
  split at h
  · cases h
  · rename_i hnext
    cases h
    exact ⟨hnext, rfl⟩
  · split at h
    · cases h
    · split at h
      · cases h
      · dsimp only at h
        split at h
        · cases h
        · split at h <;> cases h

/-- What the last call says about the levels. -/
theorem consumed_iff (hnext : c.next = none)
    (h : c.tailOnce m msgs false UINT64_MAX = some (false, t')) :
    Consumed m t' ↔ ¬ GivesUp m msgs c := by
  unfold tailOnce at h
  unfold GivesUp
  rw [nextTsc_eq hnext] at h ⊢
  have hc := choice_chosen m c.rbs
  generalize hchosen : chosen m c.rbs = next at h hc ⊢
  cases hc with
  | nothing hall =>
    cases h
    unfold Consumed
    simp only
    constructor
    · rintro hzero ⟨rb, hrb, hmax⟩
      rw [hzero rb hrb] at hmax
      cases hmax
    · intro hnot rb hrb
      obtain ⟨k, hk⟩ := List.getElem?_of_mem hrb
      refine (hall k rb hk).resolve_right fun hmax => hnot ⟨rb, hrb, ?_⟩
      exact Nat.le_antisymm (nextTsc_le m rb) hmax
  | level k rb hk hpos hmin =>
    simp only [tailBuffer, hk] at h
    split at h
    · rename_i ok rb' out' hdump
      cases h
      obtain ⟨hreject, rfl⟩ := dump_false hdump
      simp only
      constructor
      · intro hall
        obtain ⟨hlt, -⟩ := List.getElem?_eq_some_iff.mp hk
        exact absurd (hall _ (List.mem_of_getElem? (List.getElem?_set_self hlt))) hpos
      · exact fun hnot => absurd ⟨rb, hk, hreject⟩ hnot
    · cases h

/-- The last call leaves the levels alone, unless it gives up. -/
theorem last_rbs (hnext : c.next = none)
    (h : c.tailOnce m msgs false UINT64_MAX = some (false, t')) (hnot : ¬ GivesUp m msgs c) :
    t'.rbs = c.rbs := by
  unfold tailOnce at h
  unfold GivesUp at hnot
  rw [nextTsc_eq hnext] at h hnot
  have hc := choice_chosen m c.rbs
  generalize hchosen : chosen m c.rbs = next at h hc hnot
  cases hc with
  | nothing _ =>
    cases h
    rfl
  | level k rb hk hpos hmin =>
    simp only [tailBuffer, hk] at h
    split at h
    · rename_i ok rb' out' hdump
      simp only [Option.some.injEq, Prod.mk.injEq] at h
      obtain ⟨rfl, rfl⟩ := h
      exact absurd ⟨rb, hk, (dump_false hdump).1⟩ hnot
    · cases h

/-- A call that gives up is the last one. -/
theorem GivesUp.last (h : GivesUp m msgs c) (hnext : c.next = none) :
    ∃ t', c.tailOnce m msgs false UINT64_MAX = some (false, t') := by
  unfold GivesUp at h
  unfold tailOnce
  rw [nextTsc_eq hnext] at h ⊢
  simp only at h ⊢
  split at h
  · rename_i tsc k hchosen
    obtain ⟨rb, hk, hreject⟩ := h
    simp only [hchosen, tailBuffer, hk, dump, hreject]
    exact ⟨_, rfl⟩
  · rename_i hchosen
    simp only [hchosen]
    exact ⟨_, rfl⟩

/-- A printed message drops the choice. -/
theorem Continues.next (h : Continues m msgs t t') : t'.next = none := by
  unfold Continues tailOnce at h
  simp only at h
  split at h
  · unfold tailBuffer at h
    split at h
    · cases h
    · split at h
      · cases h
        rfl
      · cases h
  · cases h

theorem Comes.next (h : Comes m msgs t c) (hnext : t.next = none) : c.next = none := by
  induction h with
  | refl => exact hnext
  | tail _ hcall _ => exact hcall.next

/-- `dump` of a fresh choice returns `true` when it has printed a readable
message. -/
theorem dump_true {rb rb' : RingBuffer} {out out' : Output}
    (h : rb.dump m msgs false (rb.nextTsc m) UINT64_MAX out = (.ok (true, rb'), out')) :
    ∃ p, rb.Readable m msgs p rb' := by
  rcases next_cases rb m msgs false UINT64_MAX with (hnone | ⟨-, e, herr⟩) | ⟨mf, length, nt, ha⟩
  · simp only [dump, hnone] at h
    cases h
  · simp only [dump, herr] at h
    cases h
  · have hfmt := mf.format_reading m (rb.cur + 12) ⟨{ out.flags with width := 0 }, []⟩
    simp only [dump, ha.next_eq, ne_eq, not_true_eq_false, if_false, ha.get] at h
    split at h
    · cases h
    · rename_i n hn
      split at h
      · cases h
      · rename_i hbyte
        cases h
        refine ⟨⟨_, rb.level, _, (mf.reading m (rb.cur + 12)).2⟩, ha.next_eq, rfl, mf, n, ha.get,
          Prod.ext (hfmt.1.symm.trans hn) rfl, ?_, rfl⟩
        exact not_not.mp hbyte

/-- What a call has printed is the message of one level. -/
theorem Continues.readable (h : Continues m msgs t t') (hnext : t.next = none) :
    ∃ k rb rb' p, t.rbs[k]? = some rb ∧ rb.Readable m msgs p rb' ∧ t'.rbs = t.rbs.set k rb' := by
  unfold Continues tailOnce at h
  rw [nextTsc_eq hnext] at h
  have hc := choice_chosen m t.rbs
  generalize hchosen : chosen m t.rbs = next at h hc
  cases hc with
  | nothing _ => cases h
  | level k rb hk hpos hmin =>
    simp only [tailBuffer, hk] at h
    split at h
    · rename_i ok rb' out' hdump
      simp only [Option.some.injEq, Prod.mk.injEq] at h
      obtain ⟨rfl, rfl⟩ := h
      obtain ⟨p, hp⟩ := dump_true hdump
      exact ⟨k, rb, rb', p, hk, hp, rfl⟩
    · cases h

end Tail

/-! ## Whole levels -/

/-- From the cursor on, readable messages stand one behind the other up to
a timestamp of zero. -/
inductive RingBuffer.Drains (m : Mem) (msgs : Messages) : RingBuffer → Prop where
  | done {rb : RingBuffer} (h : rb.nextTsc m = 0) : Drains m msgs rb
  | message {rb rb' : RingBuffer} {p : Printed} (h : rb.Readable m msgs p rb')
      (hs : Drains m msgs rb') : Drains m msgs rb

/-- There is only one way to read the message at the cursor. -/
theorem RingBuffer.Readable.unique {m : Mem} {msgs : Messages} {rb rb₁ rb₂ : RingBuffer}
    {p q : Printed} (h : rb.Readable m msgs p rb₁) (h' : rb.Readable m msgs q rb₂) :
    rb₁ = rb₂ := by
  have hnext := h.next.symm.trans h'.next
  simp only [Except.ok.injEq, Option.some.injEq, Prod.mk.injEq] at hnext
  obtain ⟨mf, n, hget, hread, -, rfl⟩ := h.decodes
  obtain ⟨mf', n', hget', hread', -, rfl⟩ := h'.decodes
  rw [hnext.2, hget'] at hget
  cases hget
  have hn : n' = n := Option.some.inj (congrArg Prod.fst (hread'.symm.trans hread))
  rw [hnext.1, hn]

namespace RingBuffer.Drains

variable {m : Mem} {msgs : Messages} {rb rb' : RingBuffer} {p : Printed}

theorem yields (h : Drains m msgs rb) : ∃ ps, rb.Yields m msgs ps := by
  induction h with
  | done h => exact ⟨[], .nil (Or.inl h)⟩
  | message h _ ih =>
    obtain ⟨ps, hps⟩ := ih
    exact ⟨_, .cons h hps⟩

theorem behind (h : Drains m msgs rb) (hp : rb.Readable m msgs p rb') : Drains m msgs rb' := by
  cases h with
  | done h => exact absurd (Or.inl h) hp.not_atEnd
  | message h hs => exact h.unique hp ▸ hs

/-- Such a level is neither rejected nor at a timestamp of ones. -/
theorem not_rejected (h : Drains m msgs rb) :
    rb.nextTsc m ≠ UINT64_MAX
      ∧ (rb.nextTsc m ≠ 0 → rb.next m msgs false UINT64_MAX ≠ .ok none) := by
  cases h with
  | done h => exact ⟨by rw [h]; decide, fun hne => absurd h hne⟩
  | message h _ =>
    have hspec := h.tsc_spec
    refine ⟨by omega, fun _ hnone => ?_⟩
    rw [h.next] at hnone
    cases hnone

end RingBuffer.Drains

namespace Tail

variable {m : Mem} {msgs : Messages} {t t' c : Tail}

/-- All levels are whole. -/
def Whole (m : Mem) (msgs : Messages) (t : Tail) : Prop := ∀ rb ∈ t.rbs, rb.Drains m msgs

theorem Continues.whole_iff (h : Continues m msgs t t') (hnext : t.next = none) :
    Whole m msgs t ↔ Whole m msgs t' := by
  obtain ⟨k, rb, rb', p, hk, hp, hset⟩ := h.readable hnext
  unfold Whole
  rw [hset]
  constructor
  · intro hall x hx
    rcases List.mem_or_eq_of_mem_set hx with hx | rfl
    · exact hall x hx
    · exact (hall rb (List.mem_of_getElem? hk)).behind hp
  · intro hall x hx
    obtain ⟨j, hj⟩ := List.getElem?_of_mem hx
    by_cases hjk : j = k
    · subst hjk
      cases hj.symm.trans hk
      obtain ⟨hlt, -⟩ := List.getElem?_eq_some_iff.mp hk
      exact .message hp (hall rb' (List.mem_of_getElem? (List.getElem?_set_self hlt)))
    · exact hall x (List.mem_of_getElem? ((List.getElem?_set_ne (Ne.symm hjk)).trans hj))

theorem Comes.whole_iff (h : Comes m msgs t c) (hnext : t.next = none) :
    Whole m msgs t ↔ Whole m msgs c := by
  induction h with
  | refl => exact Iff.rfl
  | tail hc hcall ih => exact ih.trans (hcall.whole_iff (Comes.next hc hnext))

theorem Whole.not_givesUp (h : Whole m msgs c) (hnext : c.next = none) : ¬ GivesUp m msgs c := by
  unfold GivesUp
  rw [nextTsc_eq hnext]
  have hc := choice_chosen m c.rbs
  generalize chosen m c.rbs = next at hc
  cases hc with
  | nothing _ =>
    rintro ⟨rb, hrb, hmax⟩
    exact (h rb hrb).not_rejected.1 hmax
  | level k rb hk hpos _ =>
    rintro ⟨rb', hk', hreject⟩
    cases hk'.symm.trans hk
    exact (h rb (List.mem_of_getElem? hk)).not_rejected.2 hpos hreject

end Tail

/-! ## One file -/

/-- The file is read with these readers. -/
def startCat (rbs : List RingBuffer) : Tail :=
  { rbs, next := none, out := Output.empty, corruptions := [] }

/-- A reading that ends with success has come to the end of every level. -/
def LosesNothing (m : Mem) (msgs : Messages) (rbs : List RingBuffer) : Prop :=
  ∀ fuel t, cat m msgs rbs fuel = some (.done t) → Tail.Consumed m t

/-- A reading is the loop on the readers that were rewound. -/
theorem cat_eq_done {m : Mem} {msgs : Messages} {rbs : List RingBuffer} {fuel : Nat} {t : Tail} :
    cat m msgs rbs fuel = some (.done t)
      ↔ ∃ rbs', rbs.mapM (RingBuffer.rewind m msgs false) = some rbs'
        ∧ Tail.catOne m msgs fuel (startCat rbs') = .done t := by
  unfold cat
  exact Option.map_eq_some_iff

/-- The loop comes to the end of every level exactly if all levels are
whole. -/
theorem consumed_iff_whole {m : Mem} {msgs : Messages} (rbs : List RingBuffer) :
    (∃ fuel t, Tail.catOne m msgs fuel (startCat rbs) = .done t ∧ Tail.Consumed m t)
      ↔ ∀ rb ∈ rbs, rb.Drains m msgs := by
  constructor
  · rintro ⟨fuel, t, hrun, hconsumed⟩
    obtain ⟨c, hc, hlast⟩ := Tail.catOne_done_iff.mp ⟨fuel, hrun⟩
    have hnext : c.next = none := hc.next rfl
    have hlevels := Tail.last_rbs hnext hlast ((Tail.consumed_iff hnext hlast).mp hconsumed)
    exact (hc.whole_iff rfl).mpr fun rb hrb => .done (hconsumed rb (hlevels ▸ hrb))
  · intro hall
    obtain ⟨ys, hys⟩ := Tail.YieldsAll.of_forall fun rb hrb => (hall rb hrb).yields
    obtain ⟨zs, hemits, -⟩ := Tail.exists_emits hys
    obtain ⟨t, ls, hrun, -, -⟩ := Tail.catOne_emits hemits (startCat rbs) rfl rfl
    obtain ⟨c, hc, hlast⟩ := Tail.catOne_done_iff.mp ⟨_, hrun⟩
    have hwhole : Tail.Whole m msgs c := (hc.whole_iff rfl).mp hall
    exact ⟨_, t, hrun, (Tail.consumed_iff (hc.next rfl) hlast).mpr
      (hwhole.not_givesUp (hc.next rfl))⟩

/-- A reading that never gives up loses nothing, and one that gives up has
lost something. -/
theorem losesNothing_iff (m : Mem) (msgs : Messages) (rbs : List RingBuffer) :
    LosesNothing m msgs rbs
      ↔ ∀ rbs', rbs.mapM (RingBuffer.rewind m msgs false) = some rbs' →
          ∀ c, Tail.Comes m msgs (startCat rbs') c → ¬ c.GivesUp m msgs := by
  constructor
  · intro hall rbs' hrew c hc hgives
    have hnext : c.next = none := hc.next rfl
    obtain ⟨t, hlast⟩ := hgives.last hnext
    obtain ⟨fuel, hrun⟩ := Tail.catOne_done_iff.mpr ⟨c, hc, hlast⟩
    exact (Tail.consumed_iff hnext hlast).mp
      (hall fuel t (cat_eq_done.mpr ⟨rbs', hrew, hrun⟩)) hgives
  · intro hall fuel t hrun
    obtain ⟨rbs', hrew, hrun⟩ := cat_eq_done.mp hrun
    obtain ⟨c, hc, hlast⟩ := Tail.catOne_done_iff.mp ⟨fuel, hrun⟩
    exact (Tail.consumed_iff (hc.next rfl) hlast).mpr (hall rbs' hrew c hc)

/-- A reading loses nothing exactly if its loop never meets a state in which
the level it chooses is rejected, or in which it chooses none although one
shows a timestamp; and it succeeds and loses nothing exactly if all levels
are whole. -/
theorem cat_loses_nothing_iff (m : Mem) (msgs : Messages) (rbs : List RingBuffer) :
    (LosesNothing m msgs rbs
      ↔ ∀ rbs', rbs.mapM (RingBuffer.rewind m msgs false) = some rbs' →
          ∀ c, Tail.Comes m msgs (startCat rbs') c → ¬ c.GivesUp m msgs)
    ∧ ((∃ fuel t, cat m msgs rbs fuel = some (.done t) ∧ Tail.Consumed m t)
      ↔ ∃ rbs', rbs.mapM (RingBuffer.rewind m msgs false) = some rbs'
          ∧ ∀ rb ∈ rbs', rb.Drains m msgs) := by
  refine ⟨losesNothing_iff m msgs rbs, ?_⟩
  simp only [cat_eq_done, ← consumed_iff_whole]
  constructor
  · rintro ⟨fuel, t, ⟨rbs', hrew, hrun⟩, hconsumed⟩
    exact ⟨rbs', hrew, fuel, t, hrun, hconsumed⟩
  · rintro ⟨rbs', hrew, fuel, t, hrun, hconsumed⟩
    exact ⟨fuel, t, ⟨rbs', hrew, hrun⟩, hconsumed⟩

/-- A file whose first message on level 0 has a wrong length byte; behind it
stands a good message, and another one on level 1. -/
def damagedMem : Mem := Mem.applyAll (fun _ => 0)
  [⟨4, leBytes 8 5 ++ leBytes 4 1 ++ [1, 97, 15] ++ charRecord 7⟩, ⟨1028, charRecord 6⟩]

/-- The readers of the first two levels. -/
def damagedReaders : List RingBuffer := [RingBuffer.create 0 0 1024, RingBuffer.create 1 1024 2048]

/-- After a successful reading: the number of lines and of reports, and what
the levels show. -/
def afterCat (m : Mem) : Option Tail.CatResult → Option (Nat × Nat × List Nat)
  | some (.done t) =>
    some (t.out.lines.length, t.corruptions.length, t.rbs.map fun rb => rb.nextTsc m)
  | _ => none

/-- The reading succeeds, has printed nothing and reported nothing, and both
levels still show a timestamp. -/
theorem damaged_hides_the_rest : ¬ LosesNothing damagedMem textTable damagedReaders := by
  intro hall
  have hval : afterCat damagedMem (cat damagedMem textTable damagedReaders 1)
      = some (0, 0, [5, 6]) := by
    decide +kernel
  rcases hcat : cat damagedMem textTable damagedReaders 1 with _ | (t | _ | _)
  · rw [hcat] at hval
    cases hval
  · rw [hcat] at hval
    have hmem : 5 ∈ t.rbs.map fun rb => rb.nextTsc damagedMem := by
      rw [show (t.rbs.map fun rb => rb.nextTsc damagedMem) = [5, 6] from
        congrArg (fun r => r.2.2) (Option.some.inj hval)]
      exact List.mem_cons_self
    obtain ⟨rb, hrb, hfive⟩ := List.mem_map.mp hmem
    rw [hall 1 t hcat rb hrb] at hfive
    cases hfive
  · rw [hcat] at hval
    cases hval
  · rw [hcat] at hval
    cases hval

end QuickTrace
