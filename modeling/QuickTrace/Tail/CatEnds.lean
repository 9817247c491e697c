/-
QuickTrace.Tail.CatEnds — when `qttail -c` of one file ends.

A round of `catOne` reads one message of the first level that shows the
smallest timestamp (`Round`); the loop ends where there is no infinite
sequence of rounds (`catOne_ends_iff`). In such a sequence one level is read
for ever, so it circles; and a level that circles keeps the loop going unless
another level stops before it comes to the lap (`StopsFirst`,
`acc_round_iff`). The loops of `rewind` always end.
-/
import QuickTrace.Tail.Laps

namespace QuickTrace

open QuickTrace.Lib RingBuffer

namespace Tail

variable {m : Mem} {msgs : Messages} {rbs rbs' : List RingBuffer} {t t' : Tail}

/-! ## The chosen level -/

/-- Of the levels that show the smallest timestamp the first. -/
structure First (m : Mem) (rbs : List RingBuffer) (k : Nat) (rb : RingBuffer) : Prop where
  level : rbs[k]? = some rb
  shown : ¬ AtEnd m rb
  least : ∀ j rb', rbs[j]? = some rb' → rb'.nextTsc m ≠ 0 →
    rb.nextTsc m < rb'.nextTsc m ∨ rb.nextTsc m = rb'.nextTsc m ∧ k ≤ j

/-- The round over the levels takes the first that shows the smallest
timestamp. -/
theorem minLevel_first (m : Mem) : ∀ (rbs : List RingBuffer) (i : Nat) (best : Nat × Option Nat),
    minLevel m rbs i best = best ∨ ∃ k, (minLevel m rbs i best).2 = some (i + k)
      ∧ ∀ j rb, j < k → rbs[j]? = some rb → rb.nextTsc m ≠ 0 →
        (minLevel m rbs i best).1 < rb.nextTsc m
  | [], _, _ => .inl rfl
  | rb :: rbs, i, best => by
      rw [minLevel]
      by_cases hbetter : rb.nextTsc m ≠ 0 ∧ rb.nextTsc m < best.1
      · rw [if_pos hbetter]
        rcases minLevel_first m rbs (i + 1) (rb.nextTsc m, some i) with heq | ⟨k, hk, hfirst⟩
        · exact .inr ⟨0, by rw [heq]; rfl, fun j _ hj => absurd hj (Nat.not_lt_zero j)⟩
        · refine .inr ⟨k + 1, by rw [hk, Nat.add_assoc, Nat.add_comm 1 k],
            fun j rb' hj hj' h0 => ?_⟩
          cases j with
          | zero =>
            cases hj'
            rcases minLevel_lt m rbs (i + 1) (rb.nextTsc m, some i) with heq | hlt
            · rw [heq] at hk
              simp only [Option.some.injEq] at hk
              omega
            · exact hlt
          | succ j => exact hfirst j rb' (by omega) hj' h0
      · rw [if_neg hbetter]
        rcases minLevel_first m rbs (i + 1) best with heq | ⟨k, hk, hfirst⟩
        · exact .inl heq
        · rcases minLevel_lt m rbs (i + 1) best with heq | hlt
          · exact .inl heq
          · refine .inr ⟨k + 1, by rw [hk, Nat.add_assoc, Nat.add_comm 1 k],
              fun j rb' hj hj' h0 => ?_⟩
            cases j with
            | zero =>
              cases hj'
              omega
            | succ j => exact hfirst j rb' (by omega) hj' h0

theorem first_of_chosen {tsc k : Nat} (h : chosen m rbs = some (tsc, k)) :
    ∃ rb, First m rbs k rb ∧ tsc = rb.nextTsc m := by
  have hlt := chosen_lt h
  have hc := choice_chosen m rbs
  have hfirst := minLevel_first m rbs 0 (UINT64_MAX, none)
  rw [h] at hc
  cases hc with
  | level k rb hk hpos hmin =>
    rw [chosen, settle_eq] at h
    obtain ⟨i, hi, heq⟩ := Option.map_eq_some_iff.mp h
    simp only [Prod.mk.injEq] at heq
    obtain ⟨htsc, rfl⟩ := heq
    refine ⟨rb, ⟨hk, fun hend => ?_, fun j rb' hj h0 => ?_⟩, rfl⟩
    · rcases hend with h0 | hmax
      · exact hpos h0
      · omega
    · rcases hfirst with hbest | ⟨k', hk', hless⟩
      · rw [hbest] at hi
        cases hi
      · have hik : i = k' := by
          rw [hi] at hk'
          simpa using hk'
        subst hik
        have hle := hmin j rb' hj h0
        by_cases hji : j < i
        · have hlt' := hless j rb' hji hj h0
          exact .inl (by omega)
        · omega

theorem First.unique {k k' : Nat} {rb rb' : RingBuffer} (h : First m rbs k rb)
    (h' : First m rbs k' rb') : k = k' := by
  have h1 := h.least k' rb' h'.level fun h0 => h'.shown (.inl h0)
  have h2 := h'.least k rb h.level fun h0 => h.shown (.inl h0)
  omega

/-- A level that shows a timestamp makes `nextTsc` choose. -/
theorem exists_first {k : Nat} {rb : RingBuffer} (hk : rbs[k]? = some rb) (h : ¬ AtEnd m rb) :
    ∃ j rb', First m rbs j rb' := by
  cases hc : chosen m rbs with
  | none => exact absurd (chosen_eq_none_iff.mp hc rb (List.mem_of_getElem? hk)) h
  | some c =>
    obtain ⟨rb', hfirst, -⟩ := first_of_chosen hc
    exact ⟨_, rb', hfirst⟩

theorem First.chosen_eq {k : Nat} {rb : RingBuffer} (h : First m rbs k rb) :
    chosen m rbs = some (rb.nextTsc m, k) := by
  cases hc : chosen m rbs with
  | none => exact absurd (chosen_eq_none_iff.mp hc rb (List.mem_of_getElem? h.level)) h.shown
  | some c =>
    obtain ⟨rb', hfirst, htsc⟩ := first_of_chosen hc
    have hk := hfirst.unique h
    have hlevel := hfirst.level
    rw [hk, h.level] at hlevel
    cases hlevel
    rw [← htsc, ← hk]

/-! ## Rounds -/

/-- One message is read. -/
def Round (m : Mem) (msgs : Messages) (rbs rbs' : List RingBuffer) : Prop :=
  ∃ k rb rb', First m rbs k rb ∧ rb.Reads m msgs rb' ∧ rbs' = rbs.set k rb'

/-- The body of the loop of `catOne`; `none` when the loop is left. -/
def catRound (m : Mem) (msgs : Messages) (t : Tail) : Option Tail :=
  match t.tailOnce m msgs false UINT64_MAX with
  | some (true, t') => some t'
  | _ => none

theorem catRound_eq_some : catRound m msgs t = some t' ↔ Continues m msgs t t' := by
  unfold catRound Continues
  split
  · rename_i h
    rw [h]
    simp
  · rename_i hne
    exact ⟨fun h => (by cases h), fun h => absurd h (hne t')⟩

/-- The fuel is enough if the loop has been left by then. -/
theorem catOne_fuel (fuel : Nat) {t : Tail} :
    catOne m msgs fuel t ≠ .outOfFuel ↔ Loop.rounds (catRound m msgs) fuel t = none := by
  induction fuel generalizing t with
  | zero => exact ⟨fun h => absurd rfl h, fun h => by cases h⟩
  | succ fuel ih =>
    rw [catOne, Loop.rounds, catRound]
    rcases t.tailOnce m msgs false UINT64_MAX with _ | ⟨_ | _, t'⟩
    · exact ⟨fun _ => rfl, fun _ h => by cases h⟩
    · exact ⟨fun _ => rfl, fun _ h => by cases h⟩
    · exact ih

theorem Continues.round (h : Continues m msgs t t') (hnext : t.next = none) :
    Round m msgs t.rbs t'.rbs := by
  unfold Continues tailOnce at h
  rw [nextTsc_eq hnext] at h
  cases hc : chosen m t.rbs with
  | none =>
    simp only [hc] at h
    cases h
  | some c =>
    obtain ⟨rb, hfirst, htsc⟩ := first_of_chosen hc
    simp only [hc, tailBuffer, hfirst.level, htsc] at h
    split at h
    · rename_i ok rb' out' hdump
      simp only [Option.some.injEq, Prod.mk.injEq] at h
      obtain ⟨rfl, rfl⟩ := h
      exact ⟨_, rb, rb', hfirst, dump_true hdump, rfl⟩
    · cases h

theorem Round.continues (h : Round m msgs t.rbs rbs') (hnext : t.next = none) :
    ∃ t', Continues m msgs t t' ∧ t'.rbs = rbs' := by
  obtain ⟨k, rb, rb', hfirst, ⟨p, hp⟩, rfl⟩ := h
  obtain ⟨l, out', hdump, -, -⟩ := hp.dump_eq t.out
  rw [← hp.tsc_spec.1] at hdump
  unfold Continues tailOnce
  rw [nextTsc_eq hnext, hfirst.chosen_eq]
  simp only [tailBuffer, hfirst.level, hdump]
  exact ⟨_, rfl, rfl⟩

/-- The loop ends where there is no infinite sequence of rounds. -/
theorem catOne_ends_iff (hnext : t.next = none) :
    (∃ fuel, catOne m msgs fuel t ≠ .outOfFuel) ↔ Acc (fun b a => Round m msgs a b) t.rbs := by
  simp only [catOne_fuel]
  refine Iff.trans Loop.ends_iff_acc ⟨fun h => ?_, fun h => ?_⟩
  · induction h with
    | intro t _ ih =>
      refine ⟨_, fun rbs' hround => ?_⟩
      obtain ⟨t', hcont, rfl⟩ := hround.continues hnext
      exact ih t' (catRound_eq_some.mpr hcont) hcont.next
  · generalize hrbs : t.rbs = rbs at h
    induction h generalizing t with
    | intro rbs _ ih =>
      subst hrbs
      refine ⟨t, fun t' hstep => ?_⟩
      have hcont := catRound_eq_some.mp hstep
      exact ih t'.rbs (hcont.round hnext) hcont.next rfl

/-! ## Which level ends the loop -/

/-- Each level that circles is preceded by a level that stops: at an earlier
timestamp, or at the same one and in front of it. -/
def StopsFirst (m : Mem) (msgs : Messages) (rbs : List RingBuffer) : Prop :=
  ∀ (k : Nat) (rb : RingBuffer) (T : Nat), rbs[k]? = some rb → rb.Circles m msgs T →
    ∃ (j : Nat) (rb' : RingBuffer) (T' : Nat),
      rbs[j]? = some rb' ∧ rb'.Stops m msgs T' ∧ (T' < T ∨ T' = T ∧ j < k)

theorem Round.level (h : Round m msgs rbs rbs') {j : Nat} {rb : RingBuffer}
    (hj : rbs[j]? = some rb) :
    ∃ rb', rbs'[j]? = some rb' ∧ rb.Comes m msgs rb' := by
  obtain ⟨k, x, x', hfirst, hreads, rfl⟩ := h
  by_cases hjk : j = k
  · subst hjk
    cases hj.symm.trans hfirst.level
    obtain ⟨hlt, -⟩ := List.getElem?_eq_some_iff.mp hj
    exact ⟨x', List.getElem?_set_self hlt, .single hreads⟩
  · exact ⟨rb, by rwa [List.getElem?_set_ne (Ne.symm hjk)], .refl⟩

/-- In an infinite sequence of rounds some level is read for ever. -/
theorem exists_component {f : Nat → List RingBuffer} (hf : ∀ n, Round m msgs (f n) (f (n + 1))) :
    ∃ k S c, (∀ i, (f i)[k]? = some (c i)) ∧ Loop.Component (Reads m msgs) S c
      ∧ ∀ i, S i → First m (f i) k (c i) := by
  choose ks rb rb' hfirst hreads hset using hf
  have hlen : ∀ i, (f i).length = (f 0).length := by
    intro i
    induction i with
    | zero => rfl
    | succ i ih => rw [hset i, List.length_set, ih]
  have hlt : ∀ i, ks i < (f 0).length := by
    intro i
    obtain ⟨h, -⟩ := List.getElem?_eq_some_iff.mp (hfirst i).level
    rwa [hlen i] at h
  obtain ⟨k, hk, hagain⟩ := Loop.exists_frequent hlt
  have hlevel : ∀ i, ∃ x, (f i)[k]? = some x := fun i =>
    ⟨_, List.getElem?_eq_getElem (by rw [hlen i]; exact hk)⟩
  choose c hc using hlevel
  have hself : ∀ i, ks i = k → rb i = c i ∧ c (i + 1) = rb' i := by
    intro i hi
    have hl := (hfirst i).level
    rw [hi] at hl
    have hnext := hc (i + 1)
    rw [hset i, hi, List.getElem?_set_self (by rw [hlen i]; exact hk)] at hnext
    exact ⟨Option.some.inj (hl.symm.trans (hc i)), (Option.some.inj hnext).symm⟩
  refine ⟨k, fun i => ks i = k, c, hc, ⟨hagain, fun i hi => ?_, fun i hi => ?_⟩, fun i hi => ?_⟩
  · obtain ⟨h1, h2⟩ := hself i hi
    rw [← h1, h2]
    exact hreads i
  · have hnext := hc (i + 1)
    rw [hset i, List.getElem?_set_ne hi, hc i] at hnext
    exact (Option.some.inj hnext).symm
  · have hl := hfirst i
    rwa [hi, (hself i hi).1] at hl

theorem acc_of_stopsFirst (h : StopsFirst m msgs rbs) : Acc (fun b a => Round m msgs a b) rbs := by
  by_contra hacc
  obtain ⟨f, h0, hf⟩ := not_acc_iff_exists_descending_chain.mp hacc
  obtain ⟨k, S, c, hc, hcomp, hfirst⟩ := exists_component hf
  obtain ⟨T, hcircles⟩ := circles_iff.mpr (hcomp.not_acc 0)
  obtain ⟨j, x, T', hx, hstops, hbefore⟩ := h k (c 0) T (h0 ▸ hc 0) hcircles
  obtain ⟨rb₁, hcomes, -, hlap⟩ := hcircles
  -- at some time the level is chosen at the beginning of the lap
  obtain ⟨i, hS, hi⟩ := hcomp.passes Reads.unique hcomes
  have htsc : (c i).nextTsc m = T := by
    rw [hi]
    exact hlap.nextTsc_eq
  have hother : ∀ i, ∃ x', (f i)[j]? = some x' ∧ x.Comes m msgs x' := by
    intro i
    induction i with
    | zero => exact ⟨x, by rw [h0]; exact hx, .refl⟩
    | succ i ih =>
      obtain ⟨x', hx', hcome⟩ := ih
      obtain ⟨x'', hx'', hcome'⟩ := (hf i).level hx'
      exact ⟨x'', hx'', hcome.trans hcome'⟩
  obtain ⟨x', hx', hcome⟩ := hother i
  obtain ⟨hshown, hle⟩ := hstops.shows hcome
  have hleast := (hfirst i hS).least j x' hx' hshown
  omega

/-! ## Levels that keep it going -/

/-- Every descriptor has a key of supported codes. -/
def WellFormed (msgs : Messages) : Prop :=
  ∀ id mf, msgs id = some mf → ∃ reg reg' lineno text cs, Registry.Reachable reg
    ∧ MessageFormatter.init reg lineno text (joinCodes cs) = .ok (mf, reg')

theorem WellFormed.get (h : WellFormed msgs) {id : Nat} {mf : MessageFormatter}
    (hmf : msgs.get id = some mf) : ∃ cs, Consume mf.formatters mf.lengths cs := by
  obtain ⟨hmsgs, -⟩ := Option.filter_eq_some_iff.mp hmf
  obtain ⟨reg, reg', lineno, text, cs, hreg, hinit⟩ := h id mf hmsgs
  exact ⟨cs, init_consumes hreg.exact hinit⟩

/-- What `next` accepts can be printed. -/
theorem WellFormed.reads (h : WellFormed msgs) {rb : RingBuffer} {mf : MessageFormatter}
    {length nt : Nat} (ha : rb.Accepts m msgs false UINT64_MAX mf length nt) :
    ∃ rb', rb.Reads m msgs rb' := by
  obtain ⟨cs, hcons⟩ := h.get ha.get
  have hlength := hcons.length m (rb.cur + 12) 0
  have hformat := hcons.format m (rb.cur + 12) 0 OStream.fresh
  have hmeasured : MessageFormatter.lengthLoop m (rb.cur + 12) mf.lengths 0 = some length :=
    ha.measured
  rw [hmeasured] at hlength
  have hread : mf.reading m (rb.cur + 12)
      = (some length, (mf.reading m (rb.cur + 12)).2) :=
    Prod.ext (hformat.trans hlength.symm) rfl
  have hbyte := ha.byte
  rw [Nat.add_right_comm] at hbyte
  exact ⟨_, ⟨_, rb.level, _, _⟩, ha.next_eq, rfl, mf, length, ha.get, hread, hbyte, rfl⟩

/-- A reader as `rewind` leaves it. -/
structure Rewound (m : Mem) (rb : RingBuffer) : Prop where
  corruption : rb.corruption = 0
  lastTsc : rb.lastTsc = m.load rb.cur 8

/-- While level `k` circles at `T`, the other levels are not read beyond
this. -/
structure Going (m : Mem) (msgs : Messages) (T k : Nat) (rbs₀ rbs : List RingBuffer) : Prop where
  circles : ∃ rb, rbs[k]? = some rb ∧ rb.Circles m msgs T
  levels : ∀ j rb, rbs[j]? = some rb → rb.corruption = 0
    ∧ ∃ rb₀, rbs₀[j]? = some rb₀ ∧ rb₀.Comes m msgs rb
      ∧ (rb.lastTsc < T ∨ rb.lastTsc = T ∧ j ≤ k ∨ rb.lastTsc = m.load rb.cur 8)

variable {T k : Nat} {rbs₀ : List RingBuffer}

theorem Going.start (hrbs : ∀ rb ∈ rbs, Rewound m rb) {rb : RingBuffer} (hk : rbs[k]? = some rb)
    (hcircles : rb.Circles m msgs T) : Going m msgs T k rbs rbs := by
  refine ⟨⟨rb, hk, hcircles⟩, fun j x hx => ?_⟩
  have hrew := hrbs x (List.mem_of_getElem? hx)
  exact ⟨hrew.corruption, x, hx, .refl, .inr (.inr hrew.lastTsc)⟩

/-- A level that is chosen before the one that circles can be read. -/
theorem Going.reads (hmsgs : WellFormed msgs) (h : Going m msgs T k rbs₀ rbs)
    (hno : ∀ j rb₀ T', rbs₀[j]? = some rb₀ → rb₀.Stops m msgs T' → ¬ (T' < T ∨ T' = T ∧ j < k))
    {j : Nat} {rb : RingBuffer} (hj : rbs[j]? = some rb) (hjk : j ≠ k) (hshown : ¬ AtEnd m rb)
    (hle : rb.nextTsc m < T ∨ rb.nextTsc m = T ∧ j ≤ k) : ∃ rb', rb.Reads m msgs rb' := by
  obtain ⟨hcorr, rb₀, hrb₀, hcomes, hlast⟩ := h.levels j rb hj
  rcases next_cases rb m msgs false UINT64_MAX with (hnone | ⟨hthr, -⟩) | ⟨mf, length, nt, ha⟩
  · have hload := nextTsc_eq_load fun h0 => hshown (.inl h0)
    refine absurd ?_ (hno j rb₀ _ hrb₀ ⟨rb, hcomes, hshown, hnone, rfl⟩)
    omega
  · rw [hcorr] at hthr
    exact absurd hthr (by decide)
  · exact hmsgs.reads ha

/-- There is always another round. -/
theorem Going.step (hmsgs : WellFormed msgs)
    (hno : ∀ j rb₀ T', rbs₀[j]? = some rb₀ → rb₀.Stops m msgs T' → ¬ (T' < T ∨ T' = T ∧ j < k))
    (h : Going m msgs T k rbs₀ rbs) :
    ∃ rbs', Round m msgs rbs rbs' ∧ Going m msgs T k rbs₀ rbs' := by
  obtain ⟨rb, hk, hcircles⟩ := h.circles
  obtain ⟨rb', hread, htsc, hcircles'⟩ := hcircles.step
  have hspec := hread.tsc_spec
  have hshown : ¬ AtEnd m rb := by
    unfold AtEnd
    omega
  obtain ⟨j, x, hfirst⟩ := exists_first hk hshown
  have hleast := hfirst.least k rb hk hspec.2.1
  have hle : x.nextTsc m < T ∨ x.nextTsc m = T ∧ j ≤ k := by omega
  have hx : ∃ x', x.Reads m msgs x' ∧ (j = k → x' = rb') := by
    by_cases hjk : j = k
    · subst hjk
      cases hk.symm.trans hfirst.level
      exact ⟨rb', hread, fun _ => rfl⟩
    · obtain ⟨x', hx'⟩ := h.reads hmsgs hno hfirst.level hjk hfirst.shown hle
      exact ⟨x', hx', fun h => absurd h hjk⟩
  obtain ⟨x', hx', hsame⟩ := hx
  obtain ⟨hlt, -⟩ := List.getElem?_eq_some_iff.mp hfirst.level
  refine ⟨_, ⟨j, x, x', hfirst, hx', rfl⟩, ?_, fun i y hy => ?_⟩
  · by_cases hjk : j = k
    · subst hjk
      exact ⟨x', List.getElem?_set_self hlt, hsame rfl ▸ hcircles'⟩
    · exact ⟨rb, by rwa [List.getElem?_set_ne hjk], hcircles⟩
  · by_cases hij : i = j
    · subst hij
      rw [List.getElem?_set_self hlt] at hy
      cases hy
      obtain ⟨-, rb₀, hrb₀, hcomes, -⟩ := h.levels i x hfirst.level
      refine ⟨hx'.corruption_eq, rb₀, hrb₀, hcomes.tail hx', ?_⟩
      rw [hx'.tsc_spec.1]
      omega
    · rw [List.getElem?_set_ne (Ne.symm hij)] at hy
      exact h.levels i y hy

/-- From readers that were rewound there is no infinite sequence of rounds
exactly if each level that circles is preceded by one that stops. -/
theorem acc_round_iff (hmsgs : WellFormed msgs) (hrbs : ∀ rb ∈ rbs, Rewound m rb) :
    Acc (fun b a => Round m msgs a b) rbs ↔ StopsFirst m msgs rbs := by
  refine ⟨fun hacc k rb T hk hcircles => ?_, acc_of_stopsFirst⟩
  by_contra hnot
  have hno : ∀ j rb₀ T', rbs[j]? = some rb₀ → rb₀.Stops m msgs T' →
      ¬ (T' < T ∨ T' = T ∧ j < k) :=
    fun j rb₀ T' hj hstops hbefore => hnot ⟨j, rb₀, T', hj, hstops, hbefore⟩
  exact Loop.not_acc_of_invariant (fun _ h => h.step hmsgs hno)
    (Going.start hrbs hk hcircles) hacc

end Tail

end QuickTrace
