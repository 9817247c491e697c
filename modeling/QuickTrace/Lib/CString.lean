/-
QuickTrace.Lib.CString — the scanners and searches of the C and C++
libraries that take a string apart.

`scanInt` is `strtol` in base 10: leading white space, a sign, and as many
digits as there are; what follows is not looked at. `stoi` fails without a
digit and outside of an `int`, `atoi` never fails. `find` and `substr` are
the members of `std::string`, and `strtok` is one call of `strtok_r`; the
words it hands out one after the other are `words` (`strtok_eq_none`,
`strtok_eq_some`).
-/
import QuickTrace.Lib.Ascii

namespace QuickTrace.Lib.CString

/-! ## Numbers -/

/-- `strtol( s, &end, 10 )` before it is cut to a `long`; `none` if there is
no digit. -/
def scanInt (s : List UInt8) : Option Int :=
  let sign := scanSign (s.dropWhile isspace)
  let d := scanDigits 10 sign.2 0 false
  if d.2.1 then some (if sign.1 then -(d.1 : Int) else d.1) else none

/-- `std::stoi`; `none` where it throws. -/
def stoi (s : List UInt8) : Option Int :=
  match scanInt s with
  | none => none
  | some z => if -2147483648 ≤ z ∧ z ≤ 2147483647 then some z else none

/-- A `long` from an integer, at the limits of its range if it is outside. -/
def clampLong (z : Int) : Int :=
  max (-9223372036854775808) (min z 9223372036854775807)

/-- `atoi`, the `long` of `strtol` cut to an `int`; without a digit it is
`0`. -/
def atoi (s : List UInt8) : Int :=
  match scanInt s with
  | none => 0
  | some z => (clampLong z).bmod 4294967296

/-- The value of a digit, in front of a text that does not go on with
another one. -/
theorem scanInt_digit {d : Nat} (hd : d < 10) {rest : List UInt8} (hr : NumberEnd rest) :
    scanInt (digitChar d :: rest) = some (d : Int) := by
  have hscan := scanDigits_digits hr [d] 0 false fun e he => by simp_all
  unfold scanInt
  rw [List.dropWhile_cons_of_neg (by simp [isspace_digitChar d hd]), scanSign_digit hd]
  simp only [List.map_cons, List.map_nil, List.cons_append, List.nil_append] at hscan
  simp [hscan]

theorem stoi_digit {d : Nat} (hd : d < 10) {rest : List UInt8} (hr : NumberEnd rest) :
    stoi (digitChar d :: rest) = some (d : Int) := by
  unfold stoi
  rw [scanInt_digit hd hr]
  simp only
  rw [if_pos (by omega)]

/-! ## Searching -/

/-- `s.find( c, pos )`; `none` is `npos`. -/
def find (s : List UInt8) (c : UInt8) (pos : Nat) : Option Nat :=
  ((s.drop pos).idxOf? c).map (pos + ·)

/-- `s.substr( pos, count )`; `none` where it throws. -/
def substr (s : List UInt8) (pos count : Nat) : Option (List UInt8) :=
  if pos ≤ s.length then some ((s.drop pos).take count) else none

/-- The difference of two positions, as the 64-bit word it is. -/
def sizeSub (a b : Nat) : Nat := (a + 18446744073709551616 - b) % 18446744073709551616

theorem sizeSub_of_le {a b : Nat} (h : b ≤ a) (ha : a < 18446744073709551616) :
    sizeSub a b = a - b := by
  unfold sizeSub
  omega

theorem find_eq_none {s : List UInt8} {c : UInt8} (h : c ∉ s) (pos : Nat) :
    find s c pos = none := by
  unfold find
  rw [List.idxOf?_eq_none_iff.mpr fun hc => h (List.mem_of_mem_drop hc)]
  rfl

theorem find_append {s t : List UInt8} {c : UInt8} (h : c ∉ s) :
    find (s ++ c :: t) c 0 = some s.length := by
  unfold find
  rw [List.drop_zero]
  have : (s ++ c :: t).idxOf? c = some s.length := by
    induction s with
    | nil => simp [List.idxOf?_cons]
    | cons b s ih =>
      rw [List.mem_cons, not_or] at h
      rw [List.cons_append, List.idxOf?_cons, ih h.2]
      simp [Ne.symm h.1]
  rw [this]
  simp

theorem substr_append (s t : List UInt8) : substr (s ++ t) 0 s.length = some s := by
  simp [substr]

/-! ## Words -/

/-- One call of `strtok_r`: the next word and the text behind the delimiter
that ends it. -/
def strtok (delim : UInt8 → Bool) (s : List UInt8) : Option (List UInt8 × List UInt8) :=
  match s.dropWhile delim with
  | [] => none
  | c :: t =>
    some ((c :: t).takeWhile (!delim ·), ((c :: t).dropWhile (!delim ·)).drop 1)

/-- The words between the delimiters. -/
def words (delim : UInt8 → Bool) (s : List UInt8) : List (List UInt8) :=
  (s.splitOnP delim).filter (· ≠ [])

section

variable {delim : UInt8 → Bool}

/-- A delimiter in front starts no word. -/
theorem words_cons {c : UInt8} (hc : delim c = true) (s : List UInt8) :
    words delim (c :: s) = words delim s := by
  unfold words
  rw [List.splitOnP_cons_eq_if_modifyHead, if_pos hc]
  simp

theorem words_dropWhile : ∀ s : List UInt8, words delim (s.dropWhile delim) = words delim s
  | [] => rfl
  | c :: s => by
      by_cases hc : delim c = true
      · rw [List.dropWhile_cons_of_pos hc, words_cons hc]
        exact words_dropWhile s
      · rw [List.dropWhile_cons_of_neg hc]

/-- A word is handed out with its delimiter, if there is one. -/
theorem words_append {w : List UInt8} (hne : w ≠ []) (hw : ∀ c ∈ w, delim c = false)
    (rest : List UInt8) (hrest : ∀ c ∈ rest.head?, delim c = true) :
    words delim (w ++ rest) = w :: words delim (rest.drop 1) := by
  unfold words
  cases rest with
  | nil =>
    rw [List.append_nil, List.splitOnP_eq_singleton hw]
    simp [hne]
  | cons sep rest =>
    rw [List.splitOnP_append_cons_of_forall_mem hw sep (hrest sep rfl)]
    simp [hne]

theorem strtok_eq_none {s : List UInt8} (h : strtok delim s = none) : words delim s = [] := by
  rw [← words_dropWhile]
  unfold strtok at h
  split at h
  · next hs => rw [hs]; rfl
  · cases h

theorem strtok_eq_some {s w rest : List UInt8} (h : strtok delim s = some (w, rest)) :
    words delim s = w :: words delim rest := by
  rw [← words_dropWhile]
  unfold strtok at h
  split at h
  · cases h
  · next c t hs =>
    obtain ⟨rfl, rfl⟩ := Prod.mk.inj (Option.some.inj h)
    have hc : (!delim c) = true := by
      have := List.head?_dropWhile_not delim s
      rw [hs] at this
      simpa using this
    have hne : (c :: t).takeWhile (!delim ·) ≠ [] := by
      simp [hc]
    have hw : ∀ b ∈ (c :: t).takeWhile (!delim ·), delim b = false := by
      intro b hb
      simpa using List.all_eq_true.mp List.all_takeWhile b hb
    rw [hs]
    conv => lhs; rw [← List.takeWhile_append_dropWhile (p := (!delim ·)) (l := c :: t)]
    refine words_append hne hw _ ?_
    intro b hb
    have := List.head?_dropWhile_not (!delim ·) (c :: t)
    rw [Option.mem_def.mp hb] at this
    simpa using this

end

end QuickTrace.Lib.CString
