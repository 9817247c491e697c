/-
QuickTrace.Tail.CatOne — the levels of a file in one sequence.

`nextTsc` chooses a level with the smallest timestamp (`choice`), and
`tailBuffer` prints its message. `Emits` is the sequence of messages that
come out in this way, each with the level it was read from. If every level
yields a sequence of messages, the file emits a merge of them
(`Emits.merges`, `exists_emits`), and this is what `catOne` prints
(`catOne_emits`).
-/
import QuickTrace.Tail.Tail
import QuickTrace.Tail.Yields

namespace QuickTrace

open QuickTrace.Lib RingBuffer

namespace Tail

variable {m : Mem} {msgs : Messages}

/-! ## The choice -/

/-- One round over the levels. -/
theorem minLevel_spec (m : Mem) : ∀ (rbs : List RingBuffer) (i : Nat) (best : Nat × Option Nat),
    (minLevel m rbs i best).1 ≤ best.1
      ∧ (∀ (k : Nat) (rb : RingBuffer), rbs[k]? = some rb → rb.nextTsc m ≠ 0 →
          (minLevel m rbs i best).1 ≤ rb.nextTsc m)
      ∧ (minLevel m rbs i best = best
        ∨ ∃ (k : Nat) (rb : RingBuffer), rbs[k]? = some rb ∧ rb.nextTsc m ≠ 0
          ∧ minLevel m rbs i best = (rb.nextTsc m, some (i + k)))
  | [], i, best => by simp [minLevel]
  | rb :: rbs, i, best => by
      rw [minLevel]
      obtain ⟨h1, h2, h3⟩ := minLevel_spec m rbs (i + 1)
        (if rb.nextTsc m ≠ 0 ∧ rb.nextTsc m < best.1 then (rb.nextTsc m, some i) else best)
      generalize minLevel m rbs (i + 1)
        (if rb.nextTsc m ≠ 0 ∧ rb.nextTsc m < best.1 then (rb.nextTsc m, some i) else best)
        = res at h1 h2 h3 ⊢
      refine ⟨?_, ?_, ?_⟩
      · split at h1
        · simp only at h1; omega
        · exact h1
      · intro k rb' hk hpos
        rcases k with _ | k
        · rw [List.getElem?_cons_zero, Option.some.injEq] at hk
          subst hk
          split at h1
          · exact h1
          · omega
        · exact h2 k rb' (by simpa using hk) hpos
      · rcases h3 with h3 | ⟨k, rb', hk, hpos, h3⟩
        · rw [h3]
          split
          · rename_i hbetter
            exact Or.inr ⟨0, rb, rfl, hbetter.1, rfl⟩
          · exact Or.inl rfl
        · refine Or.inr ⟨k + 1, rb', by simpa using hk, hpos, ?_⟩
          rw [h3, Nat.add_assoc, Nat.add_comm 1 k]

/-- The second round confirms the first. -/
theorem settle_eq (m : Mem) (rbs : List RingBuffer) :
    settle m rbs 1 UINT64_MAX = minLevel m rbs 0 (UINT64_MAX, none) := by
  unfold settle
  dsimp only
  split <;> rfl

/-- What a new choice comes to: no level shows a timestamp, or one of those
with the smallest is chosen. -/
inductive Choice (m : Mem) (rbs : List RingBuffer) : Option (Nat × Nat) → Prop where
  | nothing (h : ∀ (k : Nat) (rb : RingBuffer), rbs[k]? = some rb →
        rb.nextTsc m = 0 ∨ UINT64_MAX ≤ rb.nextTsc m) :
      Choice m rbs none
  | level (k : Nat) (rb : RingBuffer) (hk : rbs[k]? = some rb) (hpos : rb.nextTsc m ≠ 0)
      (hmin : ∀ (j : Nat) (rb' : RingBuffer), rbs[j]? = some rb' → rb'.nextTsc m ≠ 0 →
        rb.nextTsc m ≤ rb'.nextTsc m) :
      Choice m rbs (some (rb.nextTsc m, k))

theorem choice {t : Tail} (h : t.next = none) : Choice m t.rbs (t.nextTsc m).next := by
  have hnext : (t.nextTsc m).next
      = (minLevel m t.rbs 0 (UINT64_MAX, none)).2.map
          fun i => ((minLevel m t.rbs 0 (UINT64_MAX, none)).1, i) := by
    simp only [nextTsc, h, settle_eq]
  obtain ⟨-, hmin, hcases⟩ := minLevel_spec m t.rbs 0 (UINT64_MAX, none)
  rw [hnext]
  rcases hcases with heq | ⟨k, rb, hk, hpos, heq⟩
  · rw [heq] at hmin ⊢
    refine .nothing fun k rb hk => ?_
    by_cases hz : rb.nextTsc m = 0
    · exact Or.inl hz
    · exact Or.inr (hmin k rb hk hz)
  · rw [heq] at hmin ⊢
    rw [Nat.zero_add]
    exact .level k rb hk hpos hmin

/-- `nextTsc` changes nothing but the choice. -/
theorem nextTsc_rest (t : Tail) (m : Mem) :
    t.nextTsc m = { t with next := (t.nextTsc m).next } := by
  unfold nextTsc
  split <;> rfl

/-- What `nextTsc` chooses when it has no choice yet. -/
def chosen (m : Mem) (rbs : List RingBuffer) : Option (Nat × Nat) :=
  (settle m rbs 1 UINT64_MAX).2.map fun i => ((settle m rbs 1 UINT64_MAX).1, i)

theorem nextTsc_eq {t : Tail} (h : t.next = none) (m : Mem) :
    t.nextTsc m = { t with next := chosen m t.rbs } := by
  simp only [nextTsc, h]
  rfl

theorem nextTsc_cached {t : Tail} {c : Nat × Nat} (h : t.next = some c) (m : Mem) :
    t.nextTsc m = t := by
  simp only [nextTsc, h]

theorem choice_chosen (m : Mem) (rbs : List RingBuffer) : Choice m rbs (chosen m rbs) :=
  choice (t := { rbs, next := none, out := Output.empty, corruptions := [] }) rfl

/-- A chosen timestamp is smaller than the largest word. -/
theorem minLevel_lt (m : Mem) : ∀ (rbs : List RingBuffer) (i : Nat) (best : Nat × Option Nat),
    minLevel m rbs i best = best ∨ (minLevel m rbs i best).1 < best.1
  | [], _, _ => Or.inl rfl
  | rb :: rbs, i, best => by
      rw [minLevel]
      by_cases hlt : rb.nextTsc m ≠ 0 ∧ rb.nextTsc m < best.1
      · simp only [if_pos hlt]
        refine Or.inr ?_
        rcases minLevel_lt m rbs (i + 1) (rb.nextTsc m, some i) with h | h
        · rw [h]
          exact hlt.2
        · exact Nat.lt_trans h hlt.2
      · simp only [if_neg hlt]
        exact minLevel_lt m rbs (i + 1) best

theorem chosen_lt {rbs : List RingBuffer} {tsc k : Nat} (h : chosen m rbs = some (tsc, k)) :
    tsc < UINT64_MAX := by
  unfold chosen at h
  rw [settle_eq] at h
  rcases minLevel_lt m rbs 0 (UINT64_MAX, none) with hbest | hlt
  · rw [hbest] at h
    cases h
  · obtain ⟨i, -, hi⟩ := Option.map_eq_some_iff.mp h
    cases hi
    exact hlt

/-- There is no choice exactly if all levels are at their end. -/
theorem chosen_eq_none_iff {rbs : List RingBuffer} :
    chosen m rbs = none ↔ ∀ rb ∈ rbs, AtEnd m rb := by
  have hc := choice_chosen m rbs
  generalize hres : chosen m rbs = res at hc
  constructor
  · rintro rfl rb hrb
    obtain ⟨k, hk⟩ := List.getElem?_of_mem hrb
    cases hc with
    | nothing h => exact h k rb hk
  · intro hall
    cases hc with
    | nothing _ => rfl
    | level k rb hk hpos _ =>
      have hlt := chosen_lt hres
      rcases hall rb (List.mem_of_getElem? hk) with hz | hmax
      · exact absurd hz hpos
      · omega

/-! ## What a file emits -/

/-- The messages of a file in the order of the choices, with the levels. -/
inductive Emits (m : Mem) (msgs : Messages) : List RingBuffer → List (Nat × Printed) → Prop where
  | nil {rbs : List RingBuffer} (h : chosen m rbs = none) : Emits m msgs rbs []
  | cons {rbs : List RingBuffer} {rb rb' : RingBuffer} {k : Nat} {p : Printed}
      {zs : List (Nat × Printed)} (hk : rbs[k]? = some rb) (hp : rb.Readable m msgs p rb')
      (hc : chosen m rbs = some (p.tsc, k)) (hs : Emits m msgs (rbs.set k rb') zs) :
      Emits m msgs rbs ((k, p) :: zs)

theorem Emits.chosen_nil {m : Mem} {msgs : Messages} {rbs : List RingBuffer}
    (h : Emits m msgs rbs []) : chosen m rbs = none := by
  cases h with
  | nil hc => exact hc

theorem Emits.chosen_cons {m : Mem} {msgs : Messages} {rbs : List RingBuffer} {z : Nat × Printed}
    {zs : List (Nat × Printed)} (h : Emits m msgs rbs (z :: zs)) :
    chosen m rbs = some (z.2.tsc, z.1) := by
  cases h with
  | cons _ _ hc _ => exact hc

/-- The sequence of level `k`. -/
def sequence (ys : List (List Printed)) (k : Nat) : List Printed := ys.getD k []

theorem sequence_eq {ys : List (List Printed)} {k : Nat} {y : List Printed}
    (h : ys[k]? = some y) : sequence ys k = y := by
  rw [sequence, List.getD_eq_getElem?_getD, h, Option.getD_some]

theorem sequence_set {ys : List (List Printed)} {k : Nat} {y : List Printed}
    (hk : ys[k]? = some y) (z : List Printed) :
    sequence (ys.set k z) = Function.update (sequence ys) k z := by
  obtain ⟨hlt, -⟩ := List.getElem?_eq_some_iff.mp hk
  funext j
  by_cases hj : j = k
  · subst hj
    rw [Function.update_self]
    exact sequence_eq (List.getElem?_set_self hlt)
  · rw [Function.update_of_ne hj]
    simp only [sequence, List.getD_eq_getElem?_getD, List.getElem?_set_ne (Ne.symm hj)]

/-- The levels of a file and the sequences they yield. -/
abbrev YieldsAll (m : Mem) (msgs : Messages) : List RingBuffer → List (List Printed) → Prop :=
  List.Forall₂ (Yields m msgs)

namespace YieldsAll

variable {rbs : List RingBuffer} {ys : List (List Printed)}

theorem get (h : YieldsAll m msgs rbs ys) {k : Nat} {rb : RingBuffer} (hk : rbs[k]? = some rb) :
    ∃ y, ys[k]? = some y ∧ Yields m msgs rb y := by
  obtain ⟨hlt, rfl⟩ := List.getElem?_eq_some_iff.mp hk
  have hlt' : k < ys.length := h.length_eq ▸ hlt
  exact ⟨ys[k], List.getElem?_eq_getElem hlt', List.Forall₂.get h hlt hlt'⟩

/-- Every sequence belongs to a level, or is empty because there is none. -/
theorem level_of (h : YieldsAll m msgs rbs ys) (k : Nat) :
    (rbs[k]? = none ∧ sequence ys k = [])
      ∨ ∃ rb, rbs[k]? = some rb ∧ Yields m msgs rb (sequence ys k) := by
  rcases hk : rbs[k]? with _ | rb
  · have hlen : ys[k]? = none := by
      rw [List.getElem?_eq_none_iff, ← h.length_eq, ← List.getElem?_eq_none_iff]
      exact hk
    refine Or.inl ⟨rfl, ?_⟩
    rw [sequence, List.getD_eq_getElem?_getD, hlen]
    rfl
  · obtain ⟨y, hy, hyields⟩ := h.get hk
    exact Or.inr ⟨rb, rfl, sequence_eq hy ▸ hyields⟩

theorem sorted (h : YieldsAll m msgs rbs ys) (k : Nat) : SortedBy Printed.tsc (sequence ys k) := by
  rcases h.level_of k with ⟨-, hnil⟩ | ⟨rb, -, hyields⟩
  · rw [hnil]
    exact List.Pairwise.nil
  · exact hyields.sorted

/-- Levels at their end yield nothing. -/
theorem eq_nil (h : YieldsAll m msgs rbs ys) (hend : ∀ rb ∈ rbs, AtEnd m rb) (k : Nat) :
    sequence ys k = [] := by
  rcases h.level_of k with ⟨-, hnil⟩ | ⟨rb, hk, hyields⟩
  · exact hnil
  · exact hyields.atEnd_iff.mp (hend rb (List.mem_of_getElem? hk))

theorem of_forall : ∀ {rbs : List RingBuffer}, (∀ rb ∈ rbs, ∃ ps, Yields m msgs rb ps) →
    ∃ ys, YieldsAll m msgs rbs ys
  | [], _ => ⟨[], .nil⟩
  | rb :: rbs, h => by
      obtain ⟨⟨ps, hps⟩, hrest⟩ := List.forall_mem_cons.mp h
      obtain ⟨ys, hys⟩ := of_forall hrest
      exact ⟨ps :: ys, .cons hps hys⟩

/-- One level moves. -/
theorem set (h : YieldsAll m msgs rbs ys) {rb' : RingBuffer} {y' : List Printed}
    (hy : Yields m msgs rb' y') : ∀ k : Nat, YieldsAll m msgs (rbs.set k rb') (ys.set k y') := by
  induction h with
  | nil => exact fun _ => .nil
  | cons hhead htail ih =>
    intro k
    cases k with
    | zero => exact .cons hy htail
    | succ k => exact .cons hhead (ih k)

end YieldsAll

/-- The number of messages left. -/
def remaining (ys : List (List Printed)) : Nat := (ys.map List.length).sum

theorem remaining_set : ∀ {ys : List (List Printed)} {k : Nat} {p : Printed} {y : List Printed},
    ys[k]? = some (p :: y) → remaining (ys.set k y) + 1 = remaining ys
  | [], k, p, y, h => by cases h
  | x :: ys, 0, p, y, h => by
      cases h
      simp only [remaining, List.set_cons_zero, List.map_cons, List.sum_cons, List.length_cons]
      omega
  | x :: ys, k + 1, p, y, h => by
      have ih := remaining_set (show ys[k]? = some (p :: y) from h)
      simp only [remaining, List.set_cons_succ, List.map_cons, List.sum_cons] at ih ⊢
      omega

/-- The choice falls on the head of one of the sequences, and on the smallest
of the heads. -/
theorem YieldsAll.chosen {rbs : List RingBuffer} {ys : List (List Printed)}
    (h : YieldsAll m msgs rbs ys) {tsc k : Nat} (hc : chosen m rbs = some (tsc, k)) :
    ∃ rb rb' p y, rbs[k]? = some rb ∧ rb.Readable m msgs p rb' ∧ p.tsc = tsc
      ∧ ys[k]? = some (p :: y) ∧ Yields m msgs rb' y
      ∧ ∀ j q, (sequence ys j).head? = some q → tsc ≤ q.tsc := by
  have hchoice := choice_chosen m rbs
  rw [hc] at hchoice
  have hlt := chosen_lt hc
  cases hchoice with
  | level _ rb hk hpos hmin =>
    obtain ⟨y, hy, hyields⟩ := h.get hk
    cases hyields with
    | nil hend =>
      unfold AtEnd at hend
      omega
    | cons hp hs =>
      refine ⟨rb, _, _, _, hk, hp, hp.tsc_spec.1.symm, hy, hs, fun j q hq => ?_⟩
      rcases h.level_of j with ⟨-, hnil⟩ | ⟨rb', hj, hyields⟩
      · rw [hnil] at hq
        cases hq
      · obtain ⟨qs, hqs⟩ := List.head?_eq_some_iff.mp hq
        rw [hqs] at hyields
        cases hyields with
        | cons hq _ =>
          have htsc := hq.tsc_spec
          rw [← htsc.1]
          exact hmin j rb' hj (by rw [htsc.1]; exact htsc.2.1)

/-- Levels that yield sequences emit a merge of them. -/
theorem exists_emits {rbs : List RingBuffer} {ys : List (List Printed)}
    (h : YieldsAll m msgs rbs ys) :
    ∃ zs, Emits m msgs rbs zs ∧ Merges Printed.tsc (sequence ys) zs := by
  induction hn : remaining ys using Nat.strong_induction_on generalizing rbs ys with
  | _ n ih =>
    rcases hc : Tail.chosen m rbs with _ | ⟨tsc, k⟩
    · exact ⟨[], .nil hc, .nil (h.eq_nil (chosen_eq_none_iff.mp hc))⟩
    · obtain ⟨rb, rb', p, y, hk, hp, rfl, hy, hs, hmin⟩ := h.chosen hc
      have hrem := remaining_set hy
      obtain ⟨zs, hemits, hmerges⟩ := ih _ (by omega) (h.set hs k) rfl
      rw [sequence_set hy] at hmerges
      exact ⟨(k, p) :: zs, .cons hk hp hc hemits, .cons (sequence_eq hy) h.sorted hmin hmerges⟩

/-! ## What is printed -/

/-- `tailBuffer` prints a readable message and drops the choice. -/
theorem tailBuffer_readable {t : Tail} {rb rb' : RingBuffer} {k : Nat} {p : Printed}
    (hk : t.rbs[k]? = some rb) (hp : rb.Readable m msgs p rb') :
    ∃ l out', t.tailBuffer m msgs false p.tsc UINT64_MAX k
        = some (true, { t with rbs := t.rbs.set k rb', out := out', next := none })
      ∧ out'.lines = t.out.lines ++ [l] ∧ l.printed = p := by
  obtain ⟨l, out', hdump, hl, hprinted⟩ := hp.dump_eq t.out
  refine ⟨l, out', ?_, hl, hprinted⟩
  unfold tailBuffer
  simp only [hk, hdump, if_true]

/-- `catOne` prints what the file emits. -/
theorem catOne_emits {rbs : List RingBuffer} {zs : List (Nat × Printed)}
    (h : Emits m msgs rbs zs) : ∀ (t : Tail), t.rbs = rbs → t.next = none →
    ∃ t' ls, catOne m msgs (zs.length + 1) t = .done t' ∧ t'.out.lines = t.out.lines ++ ls
      ∧ ls.map Line.printed = zs.map Prod.snd := by
  induction h with
  | nil hc =>
    intro t ht hnext
    subst ht
    refine ⟨{ t with next := none }, [], ?_, (List.append_nil _).symm, rfl⟩
    rw [List.length_nil, catOne, tailOnce, nextTsc_eq hnext, hc]
  | @cons rbs rb rb' k p zs hk hp hc _ ih =>
    intro t ht hnext
    subst ht
    obtain ⟨l, out', hbuf, hl, hprinted⟩ := tailBuffer_readable
      (t := { t with next := chosen m t.rbs }) hk hp
    obtain ⟨t', ls, hrun, hls, hmap⟩ := ih _ rfl (show (Tail.mk _ none out' _).next = none from rfl)
    refine ⟨t', l :: ls, ?_, ?_, ?_⟩
    · rw [List.length_cons, catOne, tailOnce, nextTsc_eq hnext, hc]
      rw [hc] at hbuf
      simp only [hbuf]
      exact hrun
    · rw [hls, hl, List.append_assoc]
      rfl
    · rw [List.map_cons, hmap, hprinted, List.map_cons]

/-- Fuel only bounds the rounds. -/
theorem catOne_done_unique : ∀ {fuel fuel' : Nat} {t a b : Tail},
    catOne m msgs fuel t = .done a → catOne m msgs fuel' t = .done b → a = b
  | 0, _, _, _, _, h, _ => by cases h
  | _ + 1, 0, _, _, _, _, h => by cases h
  | fuel + 1, fuel' + 1, t, a, b, h, h' => by
      rw [catOne] at h h'
      rcases hres : t.tailOnce m msgs false UINT64_MAX with _ | ⟨_ | _, t'⟩
      · simp only [hres] at h
        cases h
      · simp only [hres] at h h'
        cases h
        cases h'
        rfl
      · simp only [hres] at h h'
        exact catOne_done_unique h h'

/-- A file of which one level is read. -/
def single (rb : RingBuffer) (out : Output) : Tail :=
  { rbs := [rb], next := none, out, corruptions := [] }

/-- On one level `catOne` prints what the level yields. -/
theorem catOne_yields {rb : RingBuffer} {ps : List Printed} (h : Yields m msgs rb ps)
    (out : Output) : ∃ fuel t ls, catOne m msgs fuel (single rb out) = .done t
      ∧ t.out.lines = out.lines ++ ls ∧ ls.map Line.printed = ps := by
  have hall : YieldsAll m msgs [rb] [ps] := List.Forall₂.cons h .nil
  obtain ⟨zs, hemits, hmerges⟩ := exists_emits hall
  obtain ⟨t, ls, hrun, hls, hmap⟩ := catOne_emits hemits (single rb out) rfl rfl
  have hzero : ∀ z ∈ zs, decide (z.1 = 0) = true := by
    intro z hz
    have hmem := hmerges.mem hz
    rcases hz1 : z.1 with _ | j
    · rfl
    · rw [hz1] at hmem
      cases hmem
  have hproj := hmerges.each 0
  rw [proj, List.filter_eq_self.mpr hzero] at hproj
  exact ⟨_, t, ls, hrun, hls, hmap.trans hproj⟩

end Tail

end QuickTrace
