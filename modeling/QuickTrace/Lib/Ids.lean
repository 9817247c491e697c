/-
QuickTrace.Lib.Ids — numbers that are given out once.

Every client asks one of several counters for a number, and keeps it; zero
means that it has none yet. The counters are signed words. `Apart` is the
invariant: a counter is one ahead of the clients it has served, so that with
fewer clients than positive words it does not become negative, and its clients
have different numbers.
-/
import Mathlib.Algebra.Group.Nat.Defs
import Mathlib.Data.Finset.Card
import Mathlib.Logic.Function.Basic

namespace QuickTrace.Lib

variable {α ι : Type} [DecidableEq ι]

/-- The clients in `S` that a counter has served. -/
def served (S : Finset α) (id : α → UInt32) (source : α → ι) (c : ι) : Finset α :=
  S.filter fun a => id a ≠ 0 ∧ source a = c

/-- `id` is the number of each client, `source` the counter it is from, and
`next` what each counter gives out next. -/
structure Apart (S : Finset α) (id : α → UInt32) (source : α → ι) (next : ι → UInt32) : Prop where
  count : ∀ c, (next c).toNat = (served S id source c).card + 1
  below : ∀ a, id a ≠ 0 → a ∈ S ∧ (id a).toNat < (next (source a)).toNat
  inj : ∀ a b, source a = source b → id a = id b → id a ≠ 0 → a = b

variable {S : Finset α} {id : α → UInt32} {source : α → ι} {next : ι → UInt32}

theorem not_served {a : α} (hnew : id a = 0) (c : ι) : a ∉ served S id source c := by
  simp [served, hnew]

namespace Apart

/-- Nobody has a number, and every counter starts with one. -/
theorem start (S : Finset α) (source : α → ι) : Apart S (fun _ => 0) source fun _ => 1 where
  count := fun c => by simp [served]
  below := fun a h => absurd rfl h
  inj := fun a b _ _ h => absurd rfl h

theorem next_congr (h : Apart S id source next) {next' : ι → UInt32}
    (hnext : ∀ c, next' c = next c) : Apart S id source next' :=
  funext hnext ▸ h

theorem next_ne_zero (h : Apart S id source next) (c : ι) : next c ≠ 0 := by
  intro hz
  have hcount := h.count c
  rw [hz] at hcount
  exact Nat.succ_ne_zero _ hcount.symm

/-- No client of the counter has the number it gives out next. -/
theorem fresh (h : Apart S id source next) {b : α} {c : ι} (hb : source b = c) :
    id b ≠ next c := by
  intro heq
  have hlt := (h.below b (heq ▸ h.next_ne_zero c)).2
  rw [hb, heq] at hlt
  exact Nat.lt_irrefl _ hlt

/-- No number is negative. -/
theorem lt (h : Apart S id source next) (hS : S.card < 2 ^ 31 - 1) (a : α) :
    (id a).toNat < 2 ^ 31 := by
  by_cases hz : id a = 0
  · rw [hz]
    decide
  · have hlt := (h.below a hz).2
    have hcount := h.count (source a)
    have hle := Finset.card_le_card (Finset.filter_subset (fun b => id b ≠ 0 ∧ source b = source a) S)
    rw [served] at hcount
    omega

end Apart

/-! ## One more client -/

variable [DecidableEq α]

/-- A client that has no number yet is one more. -/
theorem served_update {a : α} (ha : a ∈ S) (hnew : id a = 0) {x : UInt32} (hx : x ≠ 0) (c e : ι) :
    served S (Function.update id a x) (Function.update source a c) e
      = if e = c then insert a (served S id source e) else served S id source e := by
  ext b
  by_cases hb : b = a
  · subst hb
    by_cases he : e = c
    · simp [served, ha, hx, he]
    · simp [served, hnew, he, Ne.symm he]
  · by_cases he : e = c
    · simp [served, hb, he]
    · simp [served, hb, he]

namespace Apart

/-- There is a client left, so the counter is not at the last positive word. -/
theorem next_lt (h : Apart S id source next) (hS : S.card < 2 ^ 31 - 1) {a : α} (ha : a ∈ S)
    (hnew : id a = 0) (c : ι) : (next c).toNat + 1 < 2 ^ 31 := by
  have hsub : insert a (served S id source c) ⊆ S := by
    intro b hb
    rcases Finset.mem_insert.mp hb with rfl | hb
    · exact ha
    · exact Finset.mem_of_mem_filter b hb
  have hle := Finset.card_le_card hsub
  rw [Finset.card_insert_of_notMem (not_served hnew c)] at hle
  have hcount := h.count c
  omega

/-- A client gets its number. -/
theorem alloc (h : Apart S id source next) (hS : S.card < 2 ^ 31 - 1) {a : α} (ha : a ∈ S)
    (hnew : id a = 0) (c : ι) :
    Apart S (Function.update id a (next c)) (Function.update source a c)
      (Function.update next c (next c + 1)) := by
  have hne := h.next_ne_zero c
  have hsucc : (next c + 1).toNat = (next c).toNat + 1 := by
    rw [UInt32.toNat_add]
    exact Nat.mod_eq_of_lt (Nat.lt_trans (h.next_lt hS ha hnew c) (by decide))
  constructor
  · intro e
    rw [served_update ha hnew hne]
    by_cases he : e = c
    · subst he
      rw [Function.update_self, if_pos rfl, Finset.card_insert_of_notMem (not_served hnew e),
        hsucc, h.count e]
    · rw [Function.update_of_ne he, if_neg he, h.count e]
  · intro b hb
    by_cases hba : b = a
    · subst hba
      rw [Function.update_self, Function.update_self, Function.update_self, hsucc]
      exact ⟨ha, Nat.lt_succ_self _⟩
    · rw [Function.update_of_ne hba] at hb ⊢
      rw [Function.update_of_ne hba]
      obtain ⟨hmem, hlt⟩ := h.below b hb
      refine ⟨hmem, ?_⟩
      by_cases hc : source b = c
      · rw [hc, Function.update_self, hsucc]
        rw [hc] at hlt
        exact Nat.lt_succ_of_lt hlt
      · rw [Function.update_of_ne hc]
        exact hlt
  · intro b d hsource hid hne'
    by_cases hba : b = a
    · by_cases hda : d = a
      · rw [hba, hda]
      · subst hba
        rw [Function.update_self, Function.update_of_ne hda] at hsource hid
        exact absurd hid.symm (h.fresh hsource.symm)
    · by_cases hda : d = a
      · subst hda
        rw [Function.update_self, Function.update_of_ne hba] at hsource hid
        exact absurd hid (h.fresh hsource)
      · rw [Function.update_of_ne hba, Function.update_of_ne hda] at hsource hid
        rw [Function.update_of_ne hba] at hne'
        exact h.inj b d hsource hid hne'

end Apart

end QuickTrace.Lib
