/-
QuickTrace.Lib.Window — reads that stay in a part of a memory.

A `Window` is an interval of addresses. `byte` and `load` read through it and
fail at an address outside, so that a program made of them stops at its first
read outside. `Needs P a x` says of such a program that it returns `a` if
`P` and else fails; `Enough P a x` says that `P` suffices. The rules follow
the program: a sequence needs what its parts need, and a second part that
needs enough for the first decides for both (`Enough.bind_needs`).
-/
import QuickTrace.Lib.Mem
import QuickTrace.Lib.Result

namespace QuickTrace.Lib

/-! ## What a computation needs -/

section

variable {ε α β : Type} {P Q : Prop} {a : α} {b : β}

/-- The computation returns `a` if `P`, and fails else. -/
inductive Needs (P : Prop) (a : α) : Except ε α → Prop where
  | ok (h : P) : Needs P a (.ok a)
  | error (h : ¬ P) (e : ε) : Needs P a (.error e)

/-- The computation returns `a` if `P`, and may fail else. -/
inductive Enough (P : Prop) (a : α) : Except ε α → Prop where
  | ok : Enough P a (.ok a)
  | error (h : ¬ P) (e : ε) : Enough P a (.error e)

theorem Needs.congr {x : Except ε α} (h : Needs P a x) (hpq : P ↔ Q) : Needs Q a x := by
  cases h with
  | ok hp => exact .ok (hpq.mp hp)
  | error hp e => exact .error (fun hq => hp (hpq.mpr hq)) e

/-- A sequence needs what its parts need. -/
theorem Needs.bind {x : Except ε α} {f : α → Except ε β} (h : Needs P a x)
    (hf : P → Needs Q b (f a)) : Needs (P ∧ Q) b (x >>= f) := by
  cases h with
  | ok hp => exact (hf hp).congr ⟨fun hq => ⟨hp, hq⟩, And.right⟩
  | error hp e => exact .error (fun h => hp h.1) e

theorem Needs.map {x : Except ε α} (h : Needs P a x) (f : α → β) : Needs P (f a) (x.map f) := by
  cases h with
  | ok hp => exact .ok hp
  | error hp e => exact .error hp e

/-- It returns a value exactly under its condition. -/
theorem Needs.ok_iff {x : Except ε α} (h : Needs P a x) : (∃ c, x = .ok c) ↔ P := by
  cases h with
  | ok hp => exact ⟨fun _ => hp, fun _ => ⟨a, rfl⟩⟩
  | error hp e =>
    refine ⟨?_, fun h => absurd h hp⟩
    rintro ⟨c, hc⟩
    cases hc

theorem Needs.eq_ok {x : Except ε α} (h : Needs P a x) (hp : P) : x = .ok a := by
  cases h with
  | ok _ => rfl
  | error hn e => exact absurd hp hn

/-- It returns no other value. -/
theorem Needs.eq_of_ok {x : Except ε α} (h : Needs P a x) {c : α} (hc : x = .ok c) : c = a := by
  cases h with
  | ok _ => exact (Except.ok.inj hc).symm
  | error _ e => cases hc

theorem Needs.enough {x : Except ε α} (h : Needs Q a x) (hpq : P → Q) : Enough P a x := by
  cases h with
  | ok _ => exact .ok
  | error hq e => exact .error (fun hp => hq (hpq hp)) e

theorem Enough.mono {x : Except ε α} (h : Enough P a x) (hqp : Q → P) : Enough Q a x := by
  cases h with
  | ok => exact .ok
  | error hp e => exact .error (fun hq => hp (hqp hq)) e

theorem Enough.eq_ok {x : Except ε α} (h : Enough P a x) (hp : P) : x = .ok a := by
  cases h with
  | ok => rfl
  | error hn e => exact absurd hp hn

theorem Enough.map {x : Except ε α} (h : Enough P a x) (f : α → β) :
    Enough P (f a) (x.map f) := by
  cases h with
  | ok => exact .ok
  | error hp e => exact .error hp e

theorem Enough.bind {x : Except ε α} {f : α → Except ε β} (h : Enough P a x)
    (hf : Enough P b (f a)) : Enough P b (x >>= f) := by
  cases h with
  | ok => exact hf
  | error hp e => exact .error hp e

/-- If the second part needs enough for the first, the sequence needs what
the second part needs. -/
theorem Enough.bind_needs {x : Except ε α} {f : α → Except ε β} (h : Enough P a x)
    (hf : Needs Q b (f a)) (hqp : Q → P) : Needs Q b (x >>= f) := by
  cases h with
  | ok => exact hf
  | error hp e => exact .error (fun hq => hp (hqp hq)) e

end

/-! ## Reading through a window -/

/-- The addresses `[lo, hi)`. -/
structure Window where
  lo : Nat
  hi : Nat
  deriving DecidableEq, Repr

/-- An address outside the window was read. -/
structure Outside where
  addr : Nat
  deriving DecidableEq, Repr

namespace Window

variable {w : Window} {m : Mem}

/-- The `k` bytes at `a` are in the window. -/
def Has (w : Window) (a k : Nat) : Prop := w.lo ≤ a ∧ a + k ≤ w.hi

instance (w : Window) (a k : Nat) : Decidable (w.Has a k) := inferInstanceAs (Decidable (_ ∧ _))

/-- The byte at `a`. -/
def byte (w : Window) (m : Mem) (a : Nat) : Except Outside UInt8 :=
  if w.Has a 1 then .ok (m a) else .error ⟨a⟩

/-- The little-endian word of `k` bytes at `a`. -/
def load (w : Window) (m : Mem) (a : Nat) : Nat → Except Outside Nat
  | 0 => .ok 0
  | k + 1 => do
    let b ← w.byte m a
    let rest ← load w m (a + 1) k
    return b.toNat + 256 * rest

theorem byte_needs (w : Window) (m : Mem) (a : Nat) : Needs (w.Has a 1) (m a) (w.byte m a) := by
  unfold byte
  split
  · exact .ok ‹_›
  · exact .error ‹_› _

/-- A word needs all its bytes. -/
theorem load_needs (w : Window) (m : Mem) : ∀ {k : Nat} (a : Nat), 0 < k →
    Needs (w.Has a k) (m.load a k) (w.load m a k)
  | 0, _, hk => absurd hk (Nat.lt_irrefl 0)
  | 1, a, _ => by
      have hlast : Needs True (m.load a 1)
          (w.load m (a + 1) 0 >>= fun rest => .ok ((m a).toNat + 256 * rest)) := .ok trivial
      exact ((w.byte_needs m a).bind fun _ => hlast).congr (iff_of_eq (and_true _))
  | k + 2, a, _ => by
      have hrest := load_needs w m (k := k + 1) (a + 1) (Nat.succ_pos k)
      refine ((w.byte_needs m a).bind fun _ =>
        hrest.map fun rest => (m a).toNat + 256 * rest).congr ?_
      unfold Has
      omega

end Window

end QuickTrace.Lib
