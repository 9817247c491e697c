/-
QuickTrace.Lib.Mem — byte-addressed memory, little-endian words and lists
of stores.

A memory is a function from addresses to bytes. `Holds m a bs` says that
the bytes `bs` stand at address `a`; `store` overwrites a block; `load`
reads a little-endian word and `leBytes` is its inverse direction, with
`load_leBytes` as the round trip. A program that only writes is described
by the list of its stores in program order: `applyAll` runs the list, and
`applyAll_of_untouched` is the frame rule every caller uses.
-/
import Mathlib.Algebra.GroupWithZero.Nat
import Mathlib.Tactic.Common

namespace QuickTrace.Lib

/-- Byte-addressed memory. -/
abbrev Mem := Nat → UInt8

namespace Mem

/-! ## Blocks of bytes -/

/-- The bytes `bs` stand at address `a`. -/
def Holds (m : Mem) : Nat → List UInt8 → Prop
  | _, [] => True
  | a, b :: bs => m a = b ∧ Holds m (a + 1) bs

/-- Overwrite the block that starts at `a`. -/
def store (m : Mem) (a : Nat) (bs : List UInt8) : Mem :=
  fun x => if a ≤ x then (bs[x - a]?).getD (m x) else m x

@[simp] theorem holds_nil (m : Mem) (a : Nat) : m.Holds a [] := trivial

@[simp] theorem holds_cons (m : Mem) (a : Nat) (b : UInt8) (bs : List UInt8) :
    m.Holds a (b :: bs) ↔ m a = b ∧ m.Holds (a + 1) bs := Iff.rfl

theorem holds_append (m : Mem) (xs ys : List UInt8) (a : Nat) :
    m.Holds a (xs ++ ys) ↔ m.Holds a xs ∧ m.Holds (a + xs.length) ys := by
  induction xs generalizing a with
  | nil => simp
  | cons x xs ih =>
    have hlen : a + 1 + xs.length = a + (x :: xs).length := by
      simp only [List.length_cons]; omega
    rw [List.cons_append, holds_cons, holds_cons, ih, hlen, and_assoc]

/-- `Holds`, read byte by byte. -/
theorem Holds.getElem? {m : Mem} {a : Nat} {bs : List UInt8} (h : m.Holds a bs)
    {i : Nat} {b : UInt8} (hb : bs[i]? = some b) : m (a + i) = b := by
  induction bs generalizing a i with
  | nil => simp at hb
  | cons c bs ih =>
    cases i with
    | zero => simpa [h.1] using hb
    | succ i =>
      have := ih h.2 (i := i) (by simpa using hb)
      rw [← this]
      congr 1
      omega

theorem holds_of_getElem? {m : Mem} {bs : List UInt8} : ∀ {a : Nat},
    (∀ i b, bs[i]? = some b → m (a + i) = b) → m.Holds a bs := by
  induction bs with
  | nil => intros; trivial
  | cons c bs ih =>
    intro a h
    refine ⟨by simpa using h 0 c (by simp), ih fun i b hb => ?_⟩
    rw [← h (i + 1) b (by simpa using hb)]
    congr 1
    omega

/-- Memories that agree on the block hold the same block. -/
theorem Holds.congr {m m' : Mem} {bs : List UInt8} : ∀ {a : Nat}, m.Holds a bs →
    (∀ x, a ≤ x → x < a + bs.length → m' x = m x) → m'.Holds a bs := by
  induction bs with
  | nil => intros; trivial
  | cons c bs ih =>
    intro a h hm
    refine ⟨by rw [hm a (by omega) (by simp), h.1], ih h.2 fun x h1 h2 => ?_⟩
    exact hm x (by omega) (by simp only [List.length_cons]; omega)

theorem holds_replicate {m : Mem} {b : UInt8} : ∀ {a k : Nat},
    m.Holds a (List.replicate k b) ↔ ∀ x, a ≤ x → x < a + k → m x = b := by
  intro a k
  induction k generalizing a with
  | zero => simp only [List.replicate_zero, holds_nil, true_iff]; intro x h1 h2; omega
  | succ k ih =>
    rw [List.replicate_succ, holds_cons, ih]
    constructor
    · rintro ⟨h0, h⟩ x h1 h2
      rcases Nat.eq_or_lt_of_le h1 with rfl | h1
      · exact h0
      · exact h x h1 (by omega)
    · intro h
      exact ⟨h a (by omega) (by omega), fun x h1 h2 => h x (by omega) (by omega)⟩

theorem store_lt {m : Mem} {a x : Nat} {bs : List UInt8} (h : x < a) :
    m.store a bs x = m x := by
  simp only [store, if_neg (show ¬ a ≤ x by omega)]

theorem store_ge {m : Mem} {a x : Nat} {bs : List UInt8} (h : a + bs.length ≤ x) :
    m.store a bs x = m x := by
  unfold store
  rw [List.getElem?_eq_none (by omega)]
  simp

theorem store_in {m : Mem} {a x : Nat} {bs : List UInt8} (h1 : a ≤ x)
    (h2 : x - a < bs.length) : m.store a bs x = bs[x - a] := by
  unfold store
  rw [if_pos h1, List.getElem?_eq_getElem (by omega)]
  rfl

@[simp] theorem store_nil (m : Mem) (a : Nat) : m.store a [] = m := by
  funext x; simp [store]

theorem holds_store (m : Mem) (a : Nat) (bs : List UInt8) : (m.store a bs).Holds a bs := by
  refine holds_of_getElem? fun i b hb => ?_
  obtain ⟨hi, rfl⟩ := List.getElem?_eq_some_iff.mp hb
  rw [store_in (by omega) (by omega)]
  simp

/-- A store leaves a block alone that lies before or behind it. -/
theorem Holds.store {m : Mem} {a c : Nat} {bs cs : List UInt8} (h : m.Holds a bs)
    (hd : a + bs.length ≤ c ∨ c + cs.length ≤ a) : (m.store c cs).Holds a bs := by
  refine h.congr fun x h1 h2 => ?_
  rcases hd with hd | hd
  · exact store_lt (by omega)
  · exact store_ge (by omega)

/-- Two stores of adjacent blocks are one store. -/
theorem store_append (m : Mem) (a : Nat) (xs ys : List UInt8) :
    (m.store a xs).store (a + xs.length) ys = m.store a (xs ++ ys) := by
  funext x
  by_cases h1 : x < a
  · rw [store_lt (by omega), store_lt h1, store_lt h1]
  · by_cases h2 : x < a + xs.length
    · rw [store_lt h2, store_in (by omega) (by omega),
        store_in (by omega) (by simp only [List.length_append]; omega),
        List.getElem_append_left (by omega)]
    · by_cases h3 : x < a + xs.length + ys.length
      · rw [store_in (by omega) (by omega),
          store_in (by omega) (by simp only [List.length_append]; omega),
          List.getElem_append_right (by omega)]
        congr 1
        omega
      · rw [store_ge (by omega), store_ge (by omega),
          store_ge (by simp only [List.length_append]; omega)]

/-- Stores of disjoint blocks commute. -/
theorem store_comm (m : Mem) {a c : Nat} {xs ys : List UInt8}
    (h : a + xs.length ≤ c ∨ c + ys.length ≤ a) :
    (m.store a xs).store c ys = (m.store c ys).store a xs := by
  funext x
  by_cases hx : a ≤ x ∧ x < a + xs.length
  · have hy : (m.store a xs).store c ys x = m.store a xs x := by
      rcases h with h | h
      · exact store_lt (by omega)
      · exact store_ge (by omega)
    rw [hy, store_in hx.1 (by omega), store_in hx.1 (by omega)]
  · have hy : (m.store c ys).store a xs x = m.store c ys x := by
      rcases Nat.lt_or_ge x a with h1 | h1
      · exact store_lt h1
      · exact store_ge (by omega)
    have hm : m.store a xs x = m x := by
      rcases Nat.lt_or_ge x a with h1 | h1
      · exact store_lt h1
      · exact store_ge (by omega)
    rw [hy]
    unfold store at hm ⊢
    rw [hm]

/-! ## Blocks that are partly overwritten -/

/-- Of the block `bs` at `a`, the bytes at addresses from `lim` on still
stand. -/
def HoldsAbove (m : Mem) (lim a : Nat) (bs : List UInt8) : Prop :=
  ∀ i b, bs[i]? = some b → lim ≤ a + i → m (a + i) = b

theorem Holds.above {m : Mem} {a : Nat} {bs : List UInt8} (h : m.Holds a bs) (lim : Nat) :
    m.HoldsAbove lim a bs :=
  fun _ _ hb _ => h.getElem? hb

theorem HoldsAbove.holds {m : Mem} {lim a : Nat} {bs : List UInt8}
    (h : m.HoldsAbove lim a bs) (hl : lim ≤ a) : m.Holds a bs :=
  holds_of_getElem? fun i b hb => h i b hb (by omega)

theorem HoldsAbove.mono {m : Mem} {lim lim' a : Nat} {bs : List UInt8}
    (h : m.HoldsAbove lim a bs) (hl : lim ≤ lim') : m.HoldsAbove lim' a bs :=
  fun i b hb hi => h i b hb (by omega)

theorem HoldsAbove.left {m : Mem} {lim a : Nat} {xs ys : List UInt8}
    (h : m.HoldsAbove lim a (xs ++ ys)) : m.HoldsAbove lim a xs := by
  intro i b hb hi
  refine h i b ?_ hi
  obtain ⟨hlt, -⟩ := List.getElem?_eq_some_iff.mp hb
  rw [List.getElem?_append_left hlt, hb]

theorem HoldsAbove.right {m : Mem} {lim a : Nat} {xs ys : List UInt8}
    (h : m.HoldsAbove lim a (xs ++ ys)) : m.HoldsAbove lim (a + xs.length) ys := by
  intro i b hb hi
  rw [Nat.add_assoc] at hi ⊢
  refine h _ b ?_ hi
  rw [List.getElem?_append_right (by omega), Nat.add_sub_cancel_left, hb]

theorem HoldsAbove.congr {m m' : Mem} {lim a : Nat} {bs : List UInt8}
    (h : m.HoldsAbove lim a bs)
    (hm : ∀ x, lim ≤ x → a ≤ x → x < a + bs.length → m' x = m x) :
    m'.HoldsAbove lim a bs := by
  intro i b hb hi
  obtain ⟨hlt, -⟩ := List.getElem?_eq_some_iff.mp hb
  rw [hm _ hi (by omega) (by omega), h i b hb hi]

/-- A store below the limit does not matter. -/
theorem HoldsAbove.store {m : Mem} {lim a c : Nat} {bs cs : List UInt8}
    (h : m.HoldsAbove lim a bs) (hc : c + cs.length ≤ lim) :
    (m.store c cs).HoldsAbove lim a bs :=
  h.congr fun _ hx _ _ => store_ge (by omega)

/-! ## Little-endian words -/

/-- The little-endian word of `k` bytes at address `a`. -/
def load (m : Mem) (a : Nat) : Nat → Nat
  | 0 => 0
  | k + 1 => (m a).toNat + 256 * load m (a + 1) k

end Mem

/-- The `k` little-endian bytes of `v`. -/
def leBytes : Nat → Nat → List UInt8
  | 0, _ => []
  | k + 1, v => UInt8.ofNat v :: leBytes k (v / 256)

@[simp] theorem leBytes_length (k v : Nat) : (leBytes k v).length = k := by
  induction k generalizing v with
  | zero => rfl
  | succ k ih => simp [leBytes, ih]

namespace Mem

theorem load_lt (m : Mem) (a k : Nat) : m.load a k < 256 ^ k := by
  induction k generalizing a with
  | zero => simp [load]
  | succ k ih =>
    have hb : (m a).toNat < 256 := (m a).toNat_lt
    have := ih (a + 1)
    rw [load, Nat.pow_succ]
    omega

/-- The same bytes at another place. -/
theorem load_shift {m m' : Mem} {k : Nat} : ∀ {a a' : Nat},
    (∀ i, i < k → m' (a' + i) = m (a + i)) → m'.load a' k = m.load a k := by
  induction k with
  | zero => intros; rfl
  | succ k ih =>
    intro a a' h
    have htail : m'.load (a' + 1) k = m.load (a + 1) k := ih fun i hi => by
      rw [Nat.add_assoc, Nat.add_assoc, Nat.add_comm 1 i]
      exact h (i + 1) (by omega)
    rw [load, load, htail, show m' a' = m a from h 0 (Nat.succ_pos k)]

theorem load_congr {m m' : Mem} {k a : Nat} (h : ∀ x, a ≤ x → x < a + k → m' x = m x) :
    m'.load a k = m.load a k :=
  load_shift fun i hi => h (a + i) (by omega) (by omega)

/-- Reading back the bytes of `v` gives `v` modulo the word size. -/
theorem load_leBytes {m : Mem} : ∀ {k a v : Nat}, m.Holds a (leBytes k v) →
    m.load a k = v % 256 ^ k := by
  intro k
  induction k with
  | zero => intro a v _; simp [load, Nat.mod_one]
  | succ k ih =>
    intro a v h
    rw [leBytes, holds_cons] at h
    rw [load, h.1, ih h.2, Nat.pow_succ, Nat.mul_comm (256 ^ k) 256, Nat.mod_mul,
      UInt8.toNat_ofNat']

theorem load_zero_of_holds {m : Mem} {k : Nat} : ∀ {a : Nat},
    m.Holds a (List.replicate k 0) → m.load a k = 0 := by
  induction k with
  | zero => intros; rfl
  | succ k ih =>
    intro a h
    rw [List.replicate_succ, holds_cons] at h
    rw [load, h.1, ih h.2]
    rfl

/-- A word is zero only when all its bytes are. -/
theorem load_ne_zero {m : Mem} {k : Nat} : ∀ {a x : Nat}, a ≤ x → x < a + k →
    m x ≠ 0 → m.load a k ≠ 0 := by
  induction k with
  | zero => intro a x h1 h2 _; omega
  | succ k ih =>
    intro a x h1 h2 hx hl
    rw [load] at hl
    rcases Nat.eq_or_lt_of_le h1 with rfl | h1
    · exact hx (UInt8.toNat_inj.mp (by rw [UInt8.toNat_zero]; omega))
    · exact ih (a := a + 1) (by omega) (by omega) hx (by omega)

/-- All-one bytes read as the largest word. -/
theorem load_ones_of_holds {m : Mem} {k : Nat} : ∀ {a : Nat},
    m.Holds a (List.replicate k 0xff) → m.load a k = 256 ^ k - 1 := by
  induction k with
  | zero => intros; rfl
  | succ k ih =>
    intro a h
    rw [List.replicate_succ, holds_cons] at h
    have hpos : 0 < 256 ^ k := Nat.pow_pos (by omega)
    rw [load, h.1, ih h.2, Nat.pow_succ, show UInt8.toNat 0xff = 255 from rfl]
    omega

end Mem

/-! ## Stores in program order -/

/-- One store of a program: a block of bytes and where it goes. -/
structure Store where
  addr : Nat
  bytes : List UInt8
  deriving DecidableEq, Repr

namespace Store

/-- The store writes the byte at address `x`. -/
def Touches (s : Store) (x : Nat) : Prop := s.addr ≤ x ∧ x < s.addr + s.bytes.length

instance (s : Store) (x : Nat) : Decidable (s.Touches x) := inferInstanceAs (Decidable (_ ∧ _))

/-- Every byte the store writes lies in `[lo, hi)`. -/
def Within (s : Store) (lo hi : Nat) : Prop := lo ≤ s.addr ∧ s.addr + s.bytes.length ≤ hi

instance (s : Store) (lo hi : Nat) : Decidable (s.Within lo hi) :=
  inferInstanceAs (Decidable (_ ∧ _))

end Store

/-- Run stores in program order. -/
def Mem.applyAll (m : Mem) (ss : List Store) : Mem :=
  ss.foldl (fun m s => m.store s.addr s.bytes) m

namespace Mem

@[simp] theorem applyAll_nil (m : Mem) : m.applyAll [] = m := rfl

@[simp] theorem applyAll_cons (m : Mem) (s : Store) (ss : List Store) :
    m.applyAll (s :: ss) = (m.store s.addr s.bytes).applyAll ss := rfl

theorem applyAll_append (m : Mem) (ss ts : List Store) :
    m.applyAll (ss ++ ts) = (m.applyAll ss).applyAll ts := by
  simp [applyAll, List.foldl_append]

/-- An address no store touches keeps its byte. -/
theorem applyAll_of_untouched {ss : List Store} : ∀ {m : Mem} {x : Nat},
    (∀ s ∈ ss, ¬ s.Touches x) → m.applyAll ss x = m x := by
  induction ss with
  | nil => intros; rfl
  | cons s ss ih =>
    intro m x h
    rw [applyAll_cons, ih fun t ht => h t (by simp [ht])]
    have hs := h s (by simp)
    unfold Store.Touches at hs
    rcases Nat.lt_or_ge x s.addr with hx | hx
    · exact store_lt hx
    · exact store_ge (by omega)

/-- Stores within `[lo, hi)` leave everything outside it alone. -/
theorem applyAll_of_within {ss : List Store} {m : Mem} {lo hi x : Nat}
    (h : ∀ s ∈ ss, s.Within lo hi) (hx : x < lo ∨ hi ≤ x) : m.applyAll ss x = m x := by
  refine applyAll_of_untouched fun s hs ht => ?_
  have := h s hs
  unfold Store.Within at this
  unfold Store.Touches at ht
  omega

end Mem

end QuickTrace.Lib
