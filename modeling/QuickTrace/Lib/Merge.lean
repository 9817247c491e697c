/-
QuickTrace.Lib.Merge — merging a family of sorted sequences.

A merge is a sequence of elements, each with the index of the sequence it
comes from: it contains every sequence in its own order and is sorted by the
key. A procedure that always takes the head of a sequence with the smallest
key produces one (`Merges.cons`), element by element, until all sequences are
empty (`Merges.nil`).
-/
import Mathlib.Order.Defs.PartialOrder
import Mathlib.Logic.Function.Basic
import Mathlib.Data.List.Basic

namespace QuickTrace.Lib

variable {ι α β : Type} [DecidableEq ι]

/-- The elements that come from the sequence `i`. -/
def proj (i : ι) (zs : List (ι × α)) : List α :=
  (zs.filter fun z => decide (z.1 = i)).map Prod.snd

@[simp] theorem proj_nil (i : ι) : proj i ([] : List (ι × α)) = [] := rfl

theorem proj_cons_self (i : ι) (a : α) (zs : List (ι × α)) :
    proj i ((i, a) :: zs) = a :: proj i zs := by
  simp [proj]

theorem proj_cons_ne {i j : ι} (h : j ≠ i) (a : α) (zs : List (ι × α)) :
    proj i ((j, a) :: zs) = proj i zs := by
  simp [proj, h]

theorem mem_proj {zs : List (ι × α)} {z : ι × α} (h : z ∈ zs) : z.2 ∈ proj z.1 zs :=
  List.mem_map_of_mem (List.mem_filter.mpr ⟨h, by simp⟩)

/-- Replacing the elements replaces those of each sequence. -/
theorem proj_map {γ : Type} (i : ι) (f : α → γ) (zs : List (ι × α)) :
    proj i (zs.map fun z => (z.1, f z.2)) = (proj i zs).map f := by
  simp only [proj, List.filter_map, List.map_map]
  rfl

/-- Sorted by a key. -/
def SortedBy [LE β] (key : α → β) (xs : List α) : Prop := xs.Pairwise fun a b => key a ≤ key b

theorem sortedBy_map [LE β] {γ : Type} {key : α → β} {f : γ → α} {xs : List γ} :
    SortedBy key (xs.map f) ↔ SortedBy (key ∘ f) xs := List.pairwise_map

theorem SortedBy.head_le [Preorder β] {key : α → β} {xs : List α} (h : SortedBy key xs) {a : α}
    (ha : xs.head? = some a) {b : α} (hb : b ∈ xs) : key a ≤ key b := by
  obtain ⟨ys, rfl⟩ := List.head?_eq_some_iff.mp ha
  rcases List.mem_cons.mp hb with rfl | hb
  · exact le_refl _
  · exact (List.pairwise_cons.mp h).1 b hb

/-- Every sequence in its order, and all of it sorted. -/
structure Merges [LE β] (key : α → β) (xs : ι → List α) (zs : List (ι × α)) : Prop where
  each : ∀ i, proj i zs = xs i
  sorted : SortedBy key (zs.map Prod.snd)

namespace Merges

variable {xs : ι → List α} {zs : List (ι × α)}

theorem nil [LE β] {key : α → β} (h : ∀ i, xs i = []) : Merges key xs [] :=
  ⟨fun i => (h i).symm, List.Pairwise.nil⟩

/-- Every element comes from one of the sequences. -/
theorem mem [LE β] {key : α → β} (h : Merges key xs zs) {z : ι × α} (hz : z ∈ zs) : z.2 ∈ xs z.1 := by
  rw [← h.each]
  exact mem_proj hz

/-- The smallest head comes first. -/
theorem cons [Preorder β] {key : α → β} {i : ι} {a : α} {as : List α} (hi : xs i = a :: as)
    (hs : ∀ j, SortedBy key (xs j)) (hmin : ∀ j b, (xs j).head? = some b → key a ≤ key b)
    (h : Merges key (Function.update xs i as) zs) : Merges key xs ((i, a) :: zs) := by
  constructor
  · intro j
    by_cases hj : j = i
    · subst hj
      rw [proj_cons_self, h.each, Function.update_self, hi]
    · rw [proj_cons_ne (Ne.symm hj), h.each, Function.update_of_ne hj]
  · refine List.pairwise_cons.mpr ⟨fun b hb => ?_, h.sorted⟩
    obtain ⟨z, hz, rfl⟩ := List.mem_map.mp hb
    have hmem : z.2 ∈ xs z.1 := by
      have hz := h.mem hz
      by_cases hj : z.1 = i
      · rw [hj, Function.update_self] at hz
        rw [hj, hi]
        exact List.mem_cons_of_mem a hz
      · rwa [Function.update_of_ne hj] at hz
    obtain ⟨c, hc⟩ : ∃ c, (xs z.1).head? = some c := by
      obtain ⟨c, cs, hcs⟩ := List.exists_cons_of_ne_nil (List.ne_nil_of_mem hmem)
      exact ⟨c, by rw [hcs, List.head?_cons]⟩
    exact le_trans (hmin z.1 c hc) ((hs z.1).head_le hc hmem)

end Merges

end QuickTrace.Lib
