/-
QuickTrace.Lib.Loop — loops that may not end.

A loop is a function that gives the state after one more round, `none` when
the loop is left. `Ends` is that it is left after finitely many rounds; a
measure that every round makes smaller shows it (`ends_of_measure`), and it
is accessibility (`ends_iff_acc`). `Reaches` are the states in between, of
which one at most is the last (`Reaches.last_unique`). A run that goes on for
ever and moves one of finitely many components in each round moves one of
them for ever (`exists_frequent`, `Component`).
-/
import Mathlib.Order.WellFounded
import Mathlib.Data.Fintype.Pigeonhole
import Mathlib.Order.Interval.Finset.Nat
import Mathlib.Logic.Relation

namespace QuickTrace.Lib.Loop

variable {σ : Type}

/-! ## Rounds -/

/-- The state after `n` rounds; `none` when the loop has been left. -/
def rounds (step : σ → Option σ) : Nat → σ → Option σ
  | 0, s => some s
  | n + 1, s => (step s).bind (rounds step n)

/-- The loop is left after finitely many rounds. -/
def Ends (step : σ → Option σ) (s : σ) : Prop := ∃ n, rounds step n s = none

variable {step : σ → Option σ}

theorem ends_of_none {s : σ} (h : step s = none) : Ends step s := ⟨1, by rw [rounds, h]; rfl⟩

theorem Ends.back {s s' : σ} (h : step s = some s') (hs : Ends step s') : Ends step s := by
  obtain ⟨n, hn⟩ := hs
  exact ⟨n + 1, by rw [rounds, h, Option.bind_some, hn]⟩

/-- A measure bounds the number of rounds. -/
theorem rounds_of_measure {μ : σ → Nat} (h : ∀ {s s'}, step s = some s' → μ s' < μ s) :
    ∀ (n : Nat) (s : σ), μ s < n → rounds step n s = none
  | 0, _, hs => absurd hs (Nat.not_lt_zero _)
  | n + 1, s, hs => by
      rw [rounds]
      cases hstep : step s with
      | none => rfl
      | some s' =>
        have hlt := h hstep
        exact rounds_of_measure h n s' (by omega)

theorem ends_of_measure {μ : σ → Nat} (h : ∀ {s s'}, step s = some s' → μ s' < μ s) (s : σ) :
    Ends step s :=
  ⟨μ s + 1, rounds_of_measure h _ s (Nat.lt_succ_self _)⟩

/-- A loop ends where there is no infinite run. -/
theorem ends_iff_acc {s : σ} : Ends step s ↔ Acc (fun b a => step a = some b) s := by
  constructor
  · rintro ⟨n, hn⟩
    induction n generalizing s with
    | zero => cases hn
    | succ n ih =>
      refine ⟨s, fun s' hs' => ih ?_⟩
      rwa [rounds, hs', Option.bind_some] at hn
  · intro h
    induction h with
    | intro s _ ih =>
      cases hstep : step s with
      | none => exact ends_of_none hstep
      | some s' => exact (ih s' hstep).back hstep

/-! ## Where a loop comes to -/

/-- The states that the loop comes to. -/
def Reaches (step : σ → Option σ) : σ → σ → Prop :=
  Relation.ReflTransGen fun a b => step a = some b

/-- What holds wherever the loop comes to. -/
theorem forall_reaches_iff {P : σ → Prop} {s : σ} : (∀ s', Reaches step s s' → P s')
    ↔ P s ∧ ∀ t, step s = some t → ∀ s', Reaches step t s' → P s' := by
  constructor
  · exact fun h => ⟨h s .refl, fun t ht s' hs' => h s' (.head ht hs')⟩
  · rintro ⟨hs, h⟩ s' hs'
    rcases Relation.ReflTransGen.cases_head hs' with rfl | ⟨t, ht, hs'⟩
    · exact hs
    · exact h t ht s' hs'

/-- Every round keeps it. -/
theorem Reaches.invariant {P : σ → Prop} (hstep : ∀ {a b}, step a = some b → P a → P b)
    {s s' : σ} (h : Reaches step s s') (hs : P s) : P s' := by
  induction h with
  | refl => exact hs
  | tail _ hab ih => exact hstep hab ih

/-- The loop is left in one state only. -/
theorem Reaches.last_unique {s a b : σ} (ha : Reaches step s a) (hna : step a = none)
    (hb : Reaches step s b) (hnb : step b = none) : a = b := by
  induction ha using Relation.ReflTransGen.head_induction_on with
  | refl =>
    rcases Relation.ReflTransGen.cases_head hb with hb | ⟨t, ht, -⟩
    · exact hb
    · rw [hna] at ht
      cases ht
  | head hst _ ih =>
    rcases Relation.ReflTransGen.cases_head hb with rfl | ⟨t, ht, hb⟩
    · rw [hnb] at hst
      cases hst
    · rw [hst] at ht
      cases ht
      exact ih hb

/-! ## Runs that go on for ever -/

/-- A property that always has a next state with the property. -/
theorem not_acc_of_invariant {R : σ → σ → Prop} {P : σ → Prop}
    (h : ∀ s, P s → ∃ s', R s s' ∧ P s') {s : σ} (hs : P s) : ¬ Acc (fun b a => R a b) s := by
  intro hacc
  induction hacc with
  | intro s _ ih =>
    obtain ⟨s', hR, hs'⟩ := h s hs
    exact ih s' hR hs'

/-- Of finitely many things to do one is done again and again. -/
theorem exists_frequent {n : Nat} {ks : Nat → Nat} (h : ∀ i, ks i < n) :
    ∃ k < n, ∀ N, ∃ i ≥ N, ks i = k := by
  obtain ⟨k, hk⟩ := Finite.exists_infinite_fiber fun i => (⟨ks i, h i⟩ : Fin n)
  refine ⟨k, k.isLt, fun N => ?_⟩
  obtain ⟨i, hi, hN⟩ := Set.Infinite.exists_gt (Set.infinite_coe_iff.mp hk) N
  exact ⟨i, Nat.le_of_lt hN, congrArg Fin.val hi⟩

/-- The states of one component of a run: it moves by `R` in the rounds of
`S`, of which there is always another, and else stays. -/
structure Component (R : σ → σ → Prop) (S : Nat → Prop) (c : Nat → σ) : Prop where
  again : ∀ N, ∃ i ≥ N, S i
  moves : ∀ i, S i → R (c i) (c (i + 1))
  stays : ∀ i, ¬ S i → c (i + 1) = c i

namespace Component

variable {R : σ → σ → Prop} {S : Nat → Prop} {c : Nat → σ}

/-- The state stays the same up to the next move. -/
theorem next_move (h : Component R S c) (N : Nat) : ∃ i ≥ N, S i ∧ c i = c N := by
  classical
  have hex := h.again N
  refine ⟨Nat.find hex, (Nat.find_spec hex).1, (Nat.find_spec hex).2, ?_⟩
  have hstay : ∀ d, N + d ≤ Nat.find hex → c (N + d) = c N := by
    intro d
    induction d with
    | zero => exact fun _ => rfl
    | succ d ih =>
      intro hd
      have hnot : ¬ S (N + d) := fun hS =>
        Nat.find_min hex (m := N + d) (by omega) ⟨by omega, hS⟩
      rw [← Nat.add_assoc, h.stays _ hnot]
      exact ih (by omega)
  have hle := (Nat.find_spec hex).1
  have hd := hstay (Nat.find hex - N) (by omega)
  rwa [Nat.add_sub_cancel' hle] at hd

/-- The component has no end of its own. -/
theorem not_acc (h : Component R S c) (N : Nat) : ¬ Acc (fun b a => R a b) (c N) := by
  intro hacc
  generalize hs : c N = s at hacc
  induction hacc generalizing N with
  | intro s _ ih =>
    obtain ⟨i, -, hS, hi⟩ := h.next_move N
    exact ih (c (i + 1)) (hs ▸ hi ▸ h.moves i hS) (i + 1) rfl

/-- Where moves are determined, the component moves from every state that it
can come to. -/
theorem passes (h : Component R S c) (hdet : ∀ {a b b'}, R a b → R a b' → b = b') {y : σ}
    (hy : Relation.ReflTransGen R (c 0) y) : ∃ i, S i ∧ c i = y := by
  induction hy with
  | refl =>
    obtain ⟨i, -, hS, hi⟩ := h.next_move 0
    exact ⟨i, hS, hi⟩
  | tail _ hstep ih =>
    obtain ⟨i, hS, hi⟩ := ih
    have hmove := h.moves i hS
    rw [hi] at hmove
    obtain ⟨i', -, hS', hi'⟩ := h.next_move (i + 1)
    exact ⟨i', hS', hi'.trans (hdet hmove hstep)⟩

end Component

end QuickTrace.Lib.Loop
