/-
QuickTrace.Lib.Ascii — character classes of the C locale, numerals, and
the number scanner of the C library.

Characters are bytes. `numeral b n` is the usual representation of `n` in
base `b` (`%u`, `%x`), `decimal` adds a minus sign (`%d`). `strtoul` is the
base-0 scanner: leading white space, a sign, a base prefix and as many
digits as there are; it saturates at `2 ^ 64 - 1` and negates modulo
`2 ^ 64`. `strtoul_decimal` is the round trip: scanning the decimal text of
an integer gives it back modulo `2 ^ 64` and stops right behind it.
-/
import Mathlib.Data.Nat.Digits.Lemmas
import Mathlib.Tactic.Common

namespace QuickTrace.Lib

/-! ## Character classes -/

def isdigit (c : UInt8) : Bool := 48 ≤ c && c ≤ 57

def isupper (c : UInt8) : Bool := 65 ≤ c && c ≤ 90

def islower (c : UInt8) : Bool := 97 ≤ c && c ≤ 122

def isalpha (c : UInt8) : Bool := isupper c || islower c

/-- Space, tab, newline, vertical tab, form feed, carriage return. -/
def isspace (c : UInt8) : Bool := c == 32 || (9 ≤ c && c ≤ 13)

def isprint (c : UInt8) : Bool := 32 ≤ c && c ≤ 126

/-! ## Numerals -/

/-- The character of one digit, lower case above nine. -/
def digitChar (d : Nat) : UInt8 := if d < 10 then UInt8.ofNat (48 + d) else UInt8.ofNat (87 + d)

/-- The numeral of `n` in base `b`. -/
def numeral (b n : Nat) : List UInt8 :=
  if n = 0 then [48] else (Nat.digits b n).reverse.map digitChar

/-- `%d` of an integer. -/
def decimal (z : Int) : List UInt8 :=
  if z < 0 then 45 :: numeral 10 z.natAbs else numeral 10 z.natAbs

/-- The value of a digit character, if it is one in base `b`. -/
def digitVal (b : Nat) (c : UInt8) : Option Nat :=
  let d :=
    if isdigit c then c.toNat - 48
    else if islower c then c.toNat - 87
    else if isupper c then c.toNat - 55
    else b
  if d < b then some d else none

/-! ## The scanner -/

/-- Accumulate digits; the text behind the last one, the value, and whether
there was any digit. -/
def scanDigits (b : Nat) : List UInt8 → Nat → Bool → Nat × Bool × List UInt8
  | [], acc, any => (acc, any, [])
  | c :: cs, acc, any =>
    match digitVal b c with
    | some d => scanDigits b cs (acc * b + d) true
    | none => (acc, any, c :: cs)

/-- The base a base-0 scan uses, and the text behind the prefix. A `0x`
counts as a prefix only in front of a hexadecimal digit. -/
def scanBase : List UInt8 → Nat × List UInt8
  | 48 :: x :: d :: t =>
    if (x = 120 ∨ x = 88) ∧ (digitVal 16 d).isSome then (16, d :: t)
    else (8, 48 :: x :: d :: t)
  | 48 :: t => (8, 48 :: t)
  | t => (10, t)

/-- The optional sign, and the text behind it. -/
def scanSign : List UInt8 → Bool × List UInt8
  | 45 :: u => (true, u)
  | 43 :: u => (false, u)
  | u => (false, u)

/-- `strtoul( p, &end, 0 )` and `strtouq`: the value and the text at `end`.
Without any digit `end` is `p` itself. -/
def strtoul (t : List UInt8) : Nat × List UInt8 :=
  let s := scanSign (t.dropWhile isspace)
  let b := scanBase s.2
  let d := scanDigits b.1 b.2 0 false
  if d.2.1 then
    (if 2 ^ 64 ≤ d.1 then 2 ^ 64 - 1
     else if s.1 then (2 ^ 64 - d.1) % 2 ^ 64 else d.1, d.2.2)
  else (0, t)

/-! ## The length of a numeral -/

theorem numeral_length_le {n k : Nat} (hk : 0 < k) (h : n < 10 ^ k) :
    (numeral 10 n).length ≤ k := by
  unfold numeral
  split
  · exact hk
  · rw [List.length_map, List.length_reverse]
    exact (Nat.digits_length_le_iff (by decide) n).mpr h

/-- One more for the sign. -/
theorem decimal_length_le {z : Int} {k : Nat} (hk : 0 < k) (h : z.natAbs < 10 ^ k) :
    (decimal z).length ≤ k + 1 := by
  have hn := numeral_length_le hk h
  unfold decimal
  split
  · exact Nat.succ_le_succ hn
  · exact Nat.le_succ_of_le hn

/-! ## Scanning a numeral -/

theorem digitVal_digitChar : ∀ d < 10, digitVal 10 (digitChar d) = some d := by
  decide

theorem digitChar_ne_zero : ∀ d < 10, d ≠ 0 → digitChar d ≠ 48 := by
  decide

/-- What may follow a number without being taken for a part of it. -/
def NumberEnd (t : List UInt8) : Prop := ∀ c ∈ t.head?, digitVal 10 c = none

theorem scanDigits_digits {rest : List UInt8} (hr : NumberEnd rest) :
    ∀ (ds : List Nat) (acc : Nat) (any : Bool), (∀ d ∈ ds, d < 10) →
      scanDigits 10 (ds.map digitChar ++ rest) acc any
        = (ds.foldl (fun a d => a * 10 + d) acc, any || !ds.isEmpty, rest)
  | [], acc, any, _ => by
      cases hrest : rest with
      | nil => simp [scanDigits]
      | cons c r =>
        have hc : digitVal 10 c = none := hr c (by simp [hrest])
        simp [scanDigits, hc]
  | d :: ds, acc, any, h => by
      rw [List.map_cons, List.cons_append, scanDigits, digitVal_digitChar d (h d (by simp))]
      simp only
      rw [scanDigits_digits hr ds _ _ fun e he => h e (by simp [he])]
      simp

/-- The digits of a number, most significant first, evaluate to it. -/
theorem foldl_digits (b : Nat) (ds : List Nat) :
    ds.reverse.foldl (fun a d => a * b + d) 0 = Nat.ofDigits b ds := by
  induction ds with
  | nil => rfl
  | cons d ds ih =>
    rw [List.reverse_cons, List.foldl_append, ih, Nat.ofDigits_cons]
    simp only [List.foldl_cons, List.foldl_nil]
    rw [Nat.mul_comm]
    simp [Nat.add_comm]

/-- A positive numeral starts with a digit other than zero. -/
theorem numeral_head {n : Nat} (hn : n ≠ 0) :
    ∃ d ds, numeral 10 n = digitChar d :: ds ∧ d < 10 ∧ d ≠ 0 := by
  have hne : Nat.digits 10 n ≠ [] := Nat.digits_ne_nil_iff_ne_zero.mpr hn
  have hlast := Nat.getLast_digit_ne_zero 10 hn
  unfold numeral
  rw [if_neg hn]
  rcases hr : (Nat.digits 10 n).reverse with _ | ⟨d, ds⟩
  · simp at hr; exact absurd hr hne
  · have hd : (Nat.digits 10 n).getLast hne = d := by
      have := congrArg List.reverse hr
      rw [List.reverse_reverse] at this
      simp [this]
    refine ⟨d, ds.map digitChar, by simp, ?_, hd ▸ hlast⟩
    exact Nat.digits_lt_base (by omega) (hd ▸ List.getLast_mem hne)

theorem scanDigits_numeral {rest : List UInt8} (hr : NumberEnd rest) {n : Nat} (hn : n ≠ 0) :
    scanDigits 10 (numeral 10 n ++ rest) 0 false = (n, true, rest) := by
  unfold numeral
  rw [if_neg hn, scanDigits_digits hr _ _ _ fun d hd =>
    Nat.digits_lt_base (by omega) (List.mem_reverse.mp hd), foldl_digits, Nat.ofDigits_digits]
  have : Nat.digits 10 n ≠ [] := Nat.digits_ne_nil_iff_ne_zero.mpr hn
  simp [this]

/-- A decimal digit other than zero selects base ten. -/
theorem scanBase_nonzero {d : Nat} (h1 : d < 10) (h0 : d ≠ 0) (t : List UInt8) :
    scanBase (digitChar d :: t) = (10, digitChar d :: t) := by
  have hne := digitChar_ne_zero d h1 h0
  unfold scanBase
  split
  · rename_i h; simp only [List.cons.injEq] at h; exact absurd h.1 hne
  · rename_i h; simp only [List.cons.injEq] at h; exact absurd h.1 hne
  · rfl

/-- A lone zero is octal, with the same value. -/
theorem scan_zero {rest : List UInt8} (hr : NumberEnd rest)
    (hx : ∀ c ∈ rest.head?, c ≠ 120 ∧ c ≠ 88) :
    scanDigits (scanBase (48 :: rest)).1 (scanBase (48 :: rest)).2 0 false
      = (0, true, rest) := by
  have hb : scanBase (48 :: rest) = (8, 48 :: rest) := by
    rcases rest with _ | ⟨c, _ | ⟨e, r⟩⟩
    · rfl
    · rfl
    · have := hx c (by simp)
      simp [scanBase, this.1, this.2]
  rw [hb]
  cases rest with
  | nil => rfl
  | cons c r =>
    have hc : digitVal 8 c = none := by
      have h10 : digitVal 10 c = none := hr c (by simp)
      revert h10
      unfold digitVal
      dsimp only
      split
      · intro h; split at h <;> simp_all; omega
      · split
        · intro h; split at h <;> simp_all; omega
        · split
          · intro h; split at h <;> simp_all; omega
          · intro _; simp
    have h0 : digitVal 8 48 = some 0 := by decide
    simp [scanDigits, h0, hc]

/-- What follows a printed number in a text that is scanned again: not a
digit, and not the `x` that would make a zero a prefix. -/
structure NumberStop (t : List UInt8) : Prop where
  digit : NumberEnd t
  hex : ∀ c ∈ t.head?, c ≠ 120 ∧ c ≠ 88

theorem isspace_digitChar : ∀ d < 10, isspace (digitChar d) = false := by
  decide

theorem digitChar_not_sign : ∀ d < 10, digitChar d ≠ 45 ∧ digitChar d ≠ 43 := by
  decide

/-- The first character of a numeral is a digit. -/
theorem numeral_cons (n : Nat) : ∃ d ds, d < 10 ∧ numeral 10 n = digitChar d :: ds := by
  by_cases hn : n = 0
  · subst hn; exact ⟨0, [], by omega, rfl⟩
  · obtain ⟨d, ds, h, hd, -⟩ := numeral_head hn
    exact ⟨d, ds, hd, h⟩

theorem scan_numeral {rest : List UInt8} (hs : NumberStop rest) (n : Nat) :
    scanDigits (scanBase (numeral 10 n ++ rest)).1 (scanBase (numeral 10 n ++ rest)).2 0 false
      = (n, true, rest) := by
  by_cases hn : n = 0
  · subst hn
    simpa [numeral] using scan_zero hs.digit hs.hex
  · obtain ⟨d, ds, h, hd, h0⟩ := numeral_head hn
    have hb : scanBase (numeral 10 n ++ rest) = (10, numeral 10 n ++ rest) := by
      rw [h, List.cons_append, scanBase_nonzero hd h0]
    rw [hb]
    exact scanDigits_numeral hs.digit hn

/-- A digit is no sign. -/
theorem scanSign_digit {d : Nat} (hd : d < 10) (t : List UInt8) :
    scanSign (digitChar d :: t) = (false, digitChar d :: t) := by
  have hsg := digitChar_not_sign d hd
  unfold scanSign
  split
  · rename_i h; simp only [List.cons.injEq] at h; exact absurd h.1 hsg.1
  · rename_i h; simp only [List.cons.injEq] at h; exact absurd h.1 hsg.2
  · rfl

/-- Scanning a printed natural number. -/
theorem strtoul_numeral {rest : List UInt8} (hs : NumberStop rest) {n : Nat}
    (hn : n < 2 ^ 64) : strtoul (numeral 10 n ++ rest) = (n, rest) := by
  obtain ⟨d, ds, hd, h⟩ := numeral_cons n
  have hsp := isspace_digitChar d hd
  have hdrop : (numeral 10 n ++ rest).dropWhile isspace = numeral 10 n ++ rest := by
    rw [h, List.cons_append, List.dropWhile_cons_of_neg (by simp [hsp])]
  have hsign : scanSign (numeral 10 n ++ rest) = (false, numeral 10 n ++ rest) := by
    rw [h, List.cons_append, scanSign_digit hd]
  unfold strtoul
  simp only [hdrop, hsign, scan_numeral hs n, if_true, if_neg (show ¬ 2 ^ 64 ≤ n by omega),
    Bool.false_eq_true, if_false]

/-- Scanning a printed integer that fits a signed 64-bit word. -/
theorem strtoul_decimal {rest : List UInt8} (hs : NumberStop rest) {z : Int}
    (h1 : -(2 ^ 63) ≤ z) (h2 : z < 2 ^ 63) :
    strtoul (decimal z ++ rest) = ((z % 2 ^ 64).toNat, rest) := by
  unfold decimal
  by_cases hz : z < 0
  · have hdrop : (45 :: numeral 10 z.natAbs ++ rest).dropWhile isspace
        = 45 :: (numeral 10 z.natAbs ++ rest) :=
      List.dropWhile_cons_of_neg (by decide)
    have hsign : scanSign (45 :: (numeral 10 z.natAbs ++ rest))
        = (true, numeral 10 z.natAbs ++ rest) := rfl
    rw [if_pos hz]
    unfold strtoul
    simp only [hdrop, hsign, scan_numeral hs z.natAbs, if_true,
      if_neg (show ¬ 2 ^ 64 ≤ z.natAbs by omega)]
    congr 1
    omega
  · rw [if_neg hz, strtoul_numeral hs (by omega)]
    congr 1
    omega

end QuickTrace.Lib
