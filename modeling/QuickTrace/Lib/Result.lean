/-
QuickTrace.Lib.Result — computations that may fail.

`bind_eq_ok` and `map_eq_ok` take apart a computation that ended well. `Safe`
is about all of them: what is known of the value if there is one, and which
errors there may be. Its rules follow the computation; `Safe.foldlM` is the
rule for a loop with an invariant. `Alike` is simulation: two computations
fail alike or return related values.
-/
import Mathlib.Tactic.Common

namespace QuickTrace.Lib

@[simp] theorem ok_bind {ε α β : Type} (a : α) (f : α → Except ε β) :
    (Except.ok a >>= f) = f a := rfl

/-- A sequence ends well when its parts do. -/
theorem bind_eq_ok {ε α β : Type} {x : Except ε α} {f : α → Except ε β} {b : β} :
    (x >>= f) = .ok b ↔ ∃ a, x = .ok a ∧ f a = .ok b := by
  cases x with
  | error e => exact ⟨nofun, fun ⟨_, h, _⟩ => nomatch h⟩
  | ok a => exact ⟨fun h => ⟨a, rfl, h⟩, fun ⟨_, h, h'⟩ => by cases h; exact h'⟩

theorem map_eq_ok {ε α β : Type} {x : Except ε α} {f : α → β} {b : β} :
    x.map f = .ok b ↔ ∃ a, x = .ok a ∧ f a = b := by
  cases x with
  | error e => exact ⟨nofun, fun ⟨_, h, _⟩ => nomatch h⟩
  | ok a =>
    refine ⟨fun h => ⟨a, rfl, Except.ok.inj h⟩, ?_⟩
    rintro ⟨_, h, rfl⟩
    cases h
    rfl

/-! ## Errors that do not happen -/

section

variable {ε α β : Type} {E : ε → Prop} {P Q : α → Prop} {R : β → Prop}

/-- The computation returns a value with `P`, or fails with an error in
`E`. -/
def Safe (E : ε → Prop) (P : α → Prop) : Except ε α → Prop
  | .ok a => P a
  | .error e => E e

@[simp] theorem safe_ok (a : α) : Safe E P (.ok a) ↔ P a := Iff.rfl

@[simp] theorem safe_error (e : ε) : Safe E P (.error e) ↔ E e := Iff.rfl

theorem Safe.imp {x : Except ε α} (h : Safe E P x) (hpq : ∀ a, P a → Q a) : Safe E Q x := by
  cases x with
  | ok a => exact hpq a h
  | error e => exact h

/-- What else is known of a value. -/
theorem Safe.and_of_ok {x : Except ε α} (h : Safe E P x) (hq : ∀ a, x = .ok a → Q a) :
    Safe E (fun a => P a ∧ Q a) x := by
  cases x with
  | ok a => exact ⟨h, hq a rfl⟩
  | error e => exact h

theorem Safe.mapError {δ : Type} {F : δ → Prop} {x : Except ε α} {g : ε → δ} (h : Safe E P x)
    (hg : ∀ e, E e → F (g e)) : Safe F P (x.mapError g) := by
  cases x with
  | ok a => exact h
  | error e => exact hg e h

theorem Safe.bind {x : Except ε α} {f : α → Except ε β} (h : Safe E P x)
    (hf : ∀ a, P a → Safe E R (f a)) : Safe E R (x >>= f) := by
  cases x with
  | ok a => exact hf a h
  | error e => exact h

theorem Safe.map {x : Except ε α} {f : α → β} (h : Safe E P x) (hf : ∀ a, P a → R (f a)) :
    Safe E R (x.map f) := by
  cases x with
  | ok a => exact hf a h
  | error e => exact h

/-- What one round keeps, the loop keeps. -/
theorem Safe.foldlM {f : α → β → Except ε α} (hf : ∀ a b, P a → Safe E P (f a b)) :
    ∀ (bs : List β) {a : α}, P a → Safe E P (bs.foldlM f a)
  | [], _, h => h
  | b :: bs, a, h => by
      rw [List.foldlM_cons]
      exact (hf a b h).bind fun a' h' => Safe.foldlM hf bs h'

end

/-! ## Simulation -/

section

variable {ε α β γ δ : Type} {R : α → β → Prop} {S : γ → δ → Prop}

/-- Two computations end alike: with the same error, or with related values. -/
inductive Alike (R : α → β → Prop) : Except ε α → Except ε β → Prop where
  | error (e : ε) : Alike R (.error e) (.error e)
  | ok {a : α} {b : β} (h : R a b) : Alike R (.ok a) (.ok b)

theorem Alike.bind {x : Except ε α} {y : Except ε β} {f : α → Except ε γ} {g : β → Except ε δ}
    (h : Alike R x y) (hfg : ∀ a b, R a b → Alike S (f a) (g b)) :
    Alike S (x >>= f) (y >>= g) := by
  cases h with
  | error e => exact .error e
  | ok hr => exact hfg _ _ hr

theorem Alike.map_right {R' : α → δ → Prop} {x : Except ε α} {y : Except ε β} {g : β → δ}
    (h : Alike R x y) (hg : ∀ a b, R a b → R' a (g b)) : Alike R' x (y.map g) := by
  cases h with
  | error e => exact .error e
  | ok hr => exact .ok (hg _ _ hr)

/-- Two computations that return equal values are equal. -/
theorem alike_eq {x y : Except ε α} : Alike Eq x y ↔ x = y := by
  constructor
  · intro h
    cases h with
    | error e => rfl
    | ok hr => rw [hr]
  · rintro rfl
    cases x with
    | error e => exact .error e
    | ok a => exact .ok rfl

/-- What is known of the values of one side. -/
theorem Alike.and_left {P : α → Prop} {x : Except ε α} {y : Except ε β} (h : Alike R x y)
    (hp : ∀ a, x = .ok a → P a) : Alike (fun a b => P a ∧ R a b) x y := by
  cases h with
  | error e => exact .error e
  | ok hr => exact .ok ⟨hp _ rfl, hr⟩

/-- A value of the one side has one on the other. -/
theorem Alike.of_ok {x : Except ε α} {y : Except ε β} (h : Alike R x y) {b : β}
    (hy : y = .ok b) : ∃ a, x = .ok a ∧ R a b := by
  cases h with
  | error e => cases hy
  | ok hr =>
    cases hy
    exact ⟨_, rfl, hr⟩

/-- And the other way round. -/
theorem Alike.ok_of {x : Except ε α} {y : Except ε β} (h : Alike R x y) {a : α}
    (hx : x = .ok a) : ∃ b, y = .ok b ∧ R a b := by
  cases h with
  | error e => cases hx
  | ok hr =>
    cases hx
    exact ⟨_, rfl, hr⟩

end

end QuickTrace.Lib
