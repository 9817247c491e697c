/-
QuickTrace.Lib.Layout — records laid out one behind the other.

A record has a byte string and remembers where it starts. `Laid a es` says
that the records `es` lie contiguously from `a` on, `endOf a es` is the
address behind the last one, and `Mem.Holds a (es.flatMap bytes)` that the
memory holds them. The lemmas take a layout apart at any record: where it
starts, that its bytes stand there, and how far the end can lie.
-/
import QuickTrace.Lib.Mem

namespace QuickTrace.Lib

section Layout

variable {α : Type} (bytes : α → List UInt8) (start : α → Nat)

/-- The address behind the last record. -/
def endOf (a : Nat) (es : List α) : Nat := a + (es.flatMap bytes).length

/-- The records lie contiguously from `a` on. -/
def Laid : Nat → List α → Prop
  | _, [] => True
  | a, e :: es => start e = a ∧ Laid (a + (bytes e).length) es

variable {bytes start}

@[simp] theorem endOf_nil (a : Nat) : endOf bytes a [] = a := rfl

@[simp] theorem endOf_cons (a : Nat) (e : α) (es : List α) :
    endOf bytes a (e :: es) = endOf bytes (a + (bytes e).length) es := by
  simp only [endOf, List.flatMap_cons, List.length_append]
  omega

theorem endOf_append (a : Nat) (xs ys : List α) :
    endOf bytes a (xs ++ ys) = endOf bytes (endOf bytes a xs) ys := by
  simp only [endOf, List.flatMap_append, List.length_append]
  omega

theorem le_endOf (a : Nat) (es : List α) : a ≤ endOf bytes a es := Nat.le_add_right _ _

theorem laid_append (xs ys : List α) : ∀ a : Nat,
    Laid bytes start a (xs ++ ys)
      ↔ Laid bytes start a xs ∧ Laid bytes start (endOf bytes a xs) ys := by
  induction xs with
  | nil => intro a; simp [Laid]
  | cons x xs ih => intro a; simp only [List.cons_append, Laid, ih, endOf_cons, and_assoc]

/-- A record in the middle starts where the ones before it end. -/
theorem Laid.start_eq {a : Nat} {pre post : List α} {e : α}
    (h : Laid bytes start a (pre ++ e :: post)) : start e = endOf bytes a pre :=
  ((laid_append pre (e :: post) a).mp h).2.1

theorem Laid.start_ge {a : Nat} {es : List α} (h : Laid bytes start a es) {e : α}
    (he : e ∈ es) : a ≤ start e := by
  obtain ⟨pre, post, rfl⟩ := List.append_of_mem he
  rw [h.start_eq]
  exact le_endOf a pre

theorem Laid.end_le {a : Nat} {es : List α} (h : Laid bytes start a es) {e : α}
    (he : e ∈ es) : start e + (bytes e).length ≤ endOf bytes a es := by
  obtain ⟨pre, post, rfl⟩ := List.append_of_mem he
  rw [h.start_eq, endOf_append, endOf_cons]
  exact le_endOf _ post

/-- The bytes of one record of a layout. -/
theorem Laid.holds {m : Mem} {a : Nat} {es : List α} (h : Laid bytes start a es)
    (hm : m.Holds a (es.flatMap bytes)) {e : α} (he : e ∈ es) : m.Holds (start e) (bytes e) := by
  obtain ⟨pre, post, rfl⟩ := List.append_of_mem he
  rw [h.start_eq]
  rw [List.flatMap_append, Mem.holds_append, List.flatMap_cons, Mem.holds_append] at hm
  exact hm.2.1

/-- The bytes of a record in the part of a layout that still stands. -/
theorem Laid.holds_above {m : Mem} {lim a : Nat} {es : List α} (h : Laid bytes start a es)
    (hm : m.HoldsAbove lim a (es.flatMap bytes)) {e : α} (he : e ∈ es) (hl : lim ≤ start e) :
    m.Holds (start e) (bytes e) := by
  obtain ⟨pre, post, rfl⟩ := List.append_of_mem he
  rw [h.start_eq] at hl ⊢
  rw [List.flatMap_append, List.flatMap_cons] at hm
  exact hm.right.left.holds hl

/-- If every record starts before `b` and has at most `l` bytes, the layout
ends before `b + l`. -/
theorem Laid.end_lt {a b l : Nat} {es : List α} (h : Laid bytes start a es)
    (hb : ∀ e ∈ es, start e < b) (hl : ∀ e ∈ es, (bytes e).length ≤ l) (ha : a < b + l) :
    endOf bytes a es < b + l := by
  rcases List.eq_nil_or_concat es with rfl | ⟨pre, e, rfl⟩
  · exact ha
  · rw [List.concat_eq_append] at h hb hl ⊢
    have hs := h.start_eq
    have h1 := hb e (by simp)
    have h2 := hl e (by simp)
    rw [endOf_append, ← hs]
    simp only [endOf_cons, endOf_nil]
    omega

end Layout

end QuickTrace.Lib
