/-
QuickTrace.Ctl.Levels — the level list of qttail (`-l`).

`parseLevels` cuts its argument at the commas and hands each piece to
`parseLevel`, which takes a level or a range of levels. The first comma is
searched with `arg.find( ',' )`, every later one with
`arg.find( spos, ',' )`: the arguments are exchanged, so this is the first
character with the code `spos` from position 44 on, and there is none. From
the second item on the rest of the list is therefore one piece
(`parseLevels_join`), of which `parseLevel` reads the lower level of the
first item and the upper level of the first range (`parseLevel_join`).
`parseLevels_all_iff` says for which lists that is enough.
-/
import QuickTrace.Format.Value
import QuickTrace.Lib.CString

namespace QuickTrace.Levels

open QuickTrace.Lib QuickTrace.Lib.CString

/-! ## The parser -/

/-- What ends qttail early. -/
inductive Stop where
  /-- "invalid log level, must be 0..9" and `exit`. -/
  | invalidLevel
  /-- "start log level must be less than end log level" and `exit`. -/
  | emptyRange
  /-- `std::string::substr` throws. -/
  | outOfRange
  deriving DecidableEq

/-- The `parse` of `parseLevel`; an exception of `std::stoi` is level `-1`. -/
def parse (s : Text) : Except Stop Nat :=
  let level := (stoi s).getD (-1)
  if level < 0 ∨ 9 < level then .error .invalidLevel else .ok level.toNat

/-- `while( startLevel <= endLevel )` for `n` levels from `startLevel` on. -/
def setLevels (ret startLevel : Nat) : Nat → Nat
  | 0 => ret
  | n + 1 => setLevels (ret ||| 1 <<< startLevel) (startLevel + 1) n

def parseLevel (arg : Text) : Except Stop Nat :=
  match find arg 45 0 with
  | none => do
    let level ← parse arg
    return 1 <<< level
  | some pos => do
    let startLevel ← parse (arg.take pos)
    let endLevel ← parse (arg.drop (pos + 1))
    if endLevel < startLevel then throw .emptyRange
    return setLevels 0 startLevel (endLevel + 1 - startLevel)

/-- `arg.substr( spos, count )`. -/
def piece (arg : Text) (spos count : Nat) : Except Stop Text :=
  match substr arg spos count with
  | none => .error .outOfRange
  | some s => .ok s

/-- The loop of `parseLevels` in front of a piece that starts at `spos`;
`none` if the fuel is used up. -/
def loop (arg : Text) : Nat → Nat → Nat → Option Nat → Option (Except Stop Nat)
  | 0, _, _, _ => none
  | _ + 1, levels, spos, none =>
    some (((piece arg spos arg.length).bind parseLevel).map (levels ||| ·))
  | fuel + 1, levels, spos, some epos =>
    match (piece arg spos (sizeSub epos spos)).bind parseLevel with
    | .error e => some (.error e)
    | .ok l =>
      let spos := epos + 1
      -- the character searched for is the position, and the search starts at ','
      loop arg fuel (levels ||| l) spos (find arg (UInt8.ofNat spos) 44)

/-- `parseLevels( arg )`. -/
def parseLevels (arg : Text) (fuel : Nat) : Option (Except Stop Nat) :=
  loop arg fuel 0 0 (find arg 44 0)

/-! ## Level lists -/

/-- A level, or a range of levels. -/
structure Item where
  lo : Nat
  hi : Nat
  /-- The item is written as a range. -/
  range : Bool
  le : lo ≤ hi
  lt : hi < 10
  single : range = false → hi = lo

namespace Item

/-- A single level. -/
def level (d : Nat) (h : d < 10) : Item := ⟨d, d, false, Nat.le_refl d, h, fun _ => rfl⟩

/-- The text of an item. -/
def text (i : Item) : Text :=
  if i.range then [digitChar i.lo, 45, digitChar i.hi] else [digitChar i.lo]

/-- The item names the level. -/
def Names (i : Item) (l : Nat) : Prop := i.lo ≤ l ∧ l ≤ i.hi

end Item

/-- The items joined by commas. -/
def join : List Item → Text
  | [] => []
  | [i] => i.text
  | i :: is => i.text ++ 44 :: join is

/-- `v` has exactly the bits of the levels that the items name. -/
def IsUnion (items : List Item) (v : Nat) : Prop :=
  ∀ l, v.testBit l = true ↔ ∃ i ∈ items, i.Names l

/-! ## Setting levels -/

theorem setLevels_testBit (l : Nat) : ∀ (n ret startLevel : Nat),
    (setLevels ret startLevel n).testBit l = true ↔
      ret.testBit l = true ∨ (startLevel ≤ l ∧ l < startLevel + n)
  | 0, ret, startLevel => by
      rw [setLevels]
      constructor
      · exact Or.inl
      · rintro (h | h)
        · exact h
        · omega
  | n + 1, ret, startLevel => by
      rw [setLevels, setLevels_testBit l n, Nat.testBit_or, Nat.one_shiftLeft,
        Nat.testBit_two_pow, Bool.or_eq_true, decide_eq_true_eq]
      constructor
      · rintro ((h | h) | h)
        · exact Or.inl h
        · omega
        · omega
      · rintro (h | h)
        · exact Or.inl (Or.inl h)
        · by_cases hl : startLevel = l
          · exact Or.inl (Or.inr hl)
          · exact Or.inr (by omega)

/-- The levels from `lo` to `hi`. -/
def levels (lo hi : Nat) : Except Stop Nat :=
  if hi < lo then .error .emptyRange else .ok (setLevels 0 lo (hi + 1 - lo))

theorem levels_testBit {lo hi v : Nat} (h : levels lo hi = .ok v) (l : Nat) :
    v.testBit l = true ↔ lo ≤ l ∧ l ≤ hi := by
  unfold levels at h
  split at h
  · cases h
  · cases h
    rw [setLevels_testBit, Nat.zero_testBit]
    constructor
    · rintro (h | h)
      · cases h
      · omega
    · intro h
      exact Or.inr (by omega)

/-! ## The text of a list -/

/-- The characters of a list of levels. -/
def IsListChar (c : UInt8) : Prop := c = 44 ∨ c = 45 ∨ isdigit c = true

theorem isdigit_digitChar : ∀ d < 10, isdigit (digitChar d) = true := by
  decide

theorem digitChar_ne_dash : ∀ d < 10, digitChar d ≠ 45 := by
  decide

theorem numberEnd_dash (t : Text) : NumberEnd (45 :: t) := by
  intro c hc
  cases hc
  decide

theorem numberEnd_comma (t : Text) : NumberEnd (44 :: t) := by
  intro c hc
  cases hc
  decide

theorem numberEnd_nil : NumberEnd [] := by
  intro c hc
  cases hc

namespace Item

theorem lo_lt (i : Item) : i.lo < 10 := Nat.lt_of_le_of_lt i.le i.lt

theorem text_chars (i : Item) : ∀ c ∈ i.text, c = 45 ∨ isdigit c = true := by
  unfold text
  intro c hc
  split at hc
  · simp only [List.mem_cons, List.not_mem_nil, or_false] at hc
    rcases hc with rfl | rfl | rfl
    · exact Or.inr (isdigit_digitChar _ i.lo_lt)
    · exact Or.inl rfl
    · exact Or.inr (isdigit_digitChar _ i.lt)
  · rw [List.mem_singleton] at hc
    exact Or.inr (hc ▸ isdigit_digitChar _ i.lo_lt)

theorem comma_notMem (i : Item) : 44 ∉ i.text := by
  intro h
  rcases i.text_chars 44 h with h | h
  · exact absurd h (by decide)
  · exact absurd h (by decide)

end Item

theorem join_chars : ∀ (is : List Item), ∀ c ∈ join is, IsListChar c
  | [], c, hc => by cases hc
  | [i], c, hc => Or.inr (i.text_chars c hc)
  | i :: j :: is, c, hc => by
      rw [join, List.mem_append, List.mem_cons] at hc
      rcases hc with hc | rfl | hc
      · exact Or.inr (i.text_chars c hc)
      · exact Or.inl rfl
      · exact join_chars (j :: is) c hc
      · simp

theorem join_cons_cons (i j : Item) (is : List Item) :
    join (i :: j :: is) = i.text ++ 44 :: join (j :: is) := by
  rw [join]
  simp

/-- What follows an item in a list. -/
def tail (is : List Item) : Text := if is = [] then [] else 44 :: join is

theorem join_cons (i : Item) (is : List Item) : join (i :: is) = i.text ++ tail is := by
  cases is with
  | nil => simp [join, tail]
  | cons j is => simp [join, tail]

theorem numberEnd_tail (is : List Item) : NumberEnd (tail is) := by
  unfold tail
  split
  · exact numberEnd_nil
  · exact numberEnd_comma _

/-- A list starts with the lower level of its first item. -/
theorem join_head (i : Item) (is : List Item) :
    ∃ rest, join (i :: is) = digitChar i.lo :: rest ∧ NumberEnd rest := by
  rw [join_cons, Item.text]
  by_cases hr : i.range = true
  · rw [if_pos hr]
    exact ⟨_, rfl, numberEnd_dash _⟩
  · rw [if_neg hr]
    exact ⟨_, rfl, numberEnd_tail is⟩

/-- Without a range there is no dash. -/
theorem dash_notMem : ∀ (is : List Item), (∀ i ∈ is, i.range = false) → 45 ∉ join is
  | [], _ => by simp [join]
  | i :: is, h => by
      have ht : i.text = [digitChar i.lo] := by simp [Item.text, h i (by simp)]
      have hi : (45 : UInt8) ≠ digitChar i.lo := (digitChar_ne_dash _ i.lo_lt).symm
      have his := dash_notMem is fun j hj => h j (by simp [hj])
      rw [join_cons, ht, tail]
      split
      · simpa using hi
      · simpa using ⟨hi, his⟩

/-- The first dash is the one of the first range. -/
theorem join_dash : ∀ (i : Item) (is : List Item) {r : Item},
    (i :: is).find? (·.range) = some r →
    ∃ pre post, join (i :: is) = digitChar i.lo :: pre ++ 45 :: digitChar r.hi :: post ∧
      NumberEnd pre ∧ NumberEnd post ∧ 45 ∉ digitChar i.lo :: pre
  | i, is, r, h => by
      have hi : (45 : UInt8) ≠ digitChar i.lo := (digitChar_ne_dash _ i.lo_lt).symm
      by_cases hr : i.range = true
      · rw [List.find?_cons_of_pos hr] at h
        cases h
        refine ⟨[], tail is, ?_, numberEnd_nil, numberEnd_tail is, by simpa using hi⟩
        rw [join_cons, Item.text, if_pos hr]
        rfl
      · rw [List.find?_cons_of_neg hr] at h
        cases is with
        | nil => cases h
        | cons j is =>
          obtain ⟨pre, post, hj, -, hpost, hdash⟩ := join_dash j is h
          refine ⟨44 :: digitChar j.lo :: pre, post, ?_, numberEnd_comma _, hpost, ?_⟩
          · rw [join_cons, Item.text, if_neg hr, tail, if_neg (by simp), hj]
            rfl
          · rw [List.mem_cons, List.mem_cons, not_or, not_or]
            exact ⟨hi, by decide, hdash⟩

/-! ## What is read -/

theorem parse_digit {d : Nat} (hd : d < 10) {rest : Text} (hr : NumberEnd rest) :
    parse (digitChar d :: rest) = .ok d := by
  unfold parse
  rw [stoi_digit hd hr]
  simp only [Option.getD_some]
  rw [if_neg (by omega)]
  rfl

/-- Text without a dash is one level. -/
theorem parseLevel_single {d : Nat} (hd : d < 10) {rest : Text} (hr : NumberEnd rest)
    (hdash : 45 ∉ digitChar d :: rest) : parseLevel (digitChar d :: rest) = levels d d := by
  have hone : levels d d = .ok (1 <<< d) := by
    unfold levels
    rw [if_neg (Nat.lt_irrefl d), Nat.add_sub_cancel_left, setLevels, setLevels, Nat.zero_or]
  unfold parseLevel
  rw [find_eq_none hdash, parse_digit hd hr, hone]
  rfl

/-- Text with a dash is a range, whatever stands between the level in front
and the dash. -/
theorem parseLevel_range {d e : Nat} (hd : d < 10) (he : e < 10) {pre post : Text}
    (hpre : NumberEnd pre) (hpost : NumberEnd post) (hdash : 45 ∉ digitChar d :: pre) :
    parseLevel (digitChar d :: pre ++ 45 :: digitChar e :: post) = levels d e := by
  have htake : (digitChar d :: pre ++ 45 :: digitChar e :: post).take (digitChar d :: pre).length
      = digitChar d :: pre := List.take_left
  have hdrop : (digitChar d :: pre ++ 45 :: digitChar e :: post).drop
      ((digitChar d :: pre).length + 1) = digitChar e :: post := by
    rw [← List.drop_drop, List.drop_left]
    rfl
  unfold parseLevel levels
  rw [find_append hdash]
  simp only [htake, hdrop, parse_digit hd hpre, parse_digit he hpost]
  by_cases h : e < d
  · rw [if_pos h]
    simp only [bind, Except.bind, if_pos h]
    rfl
  · rw [if_neg h]
    simp only [bind, Except.bind, if_neg h]
    rfl

/-- The upper level that is read in a list whose first item is `i`: the one of
the first range, and without a range the level of `i`. -/
def readTo (i : Item) (is : List Item) : Nat :=
  (((i :: is).find? (·.range)).map (·.hi)).getD i.lo

/-- `parseLevel` takes a whole list for one range. -/
theorem parseLevel_join (i : Item) (is : List Item) :
    parseLevel (join (i :: is)) = levels i.lo (readTo i is) := by
  rcases hr : (i :: is).find? (·.range) with _ | r
  · rw [readTo, hr, Option.map_none, Option.getD_none]
    rw [List.find?_eq_none] at hr
    have hdash := dash_notMem (i :: is) fun j hj => by simpa using hr j hj
    obtain ⟨rest, hjoin, hrest⟩ := join_head i is
    rw [hjoin] at hdash ⊢
    exact parseLevel_single i.lo_lt hrest hdash
  · obtain ⟨pre, post, hjoin, hpre, hpost, hdash⟩ := join_dash i is hr
    rw [readTo, hr, Option.map_some, Option.getD_some, hjoin]
    exact parseLevel_range i.lo_lt r.lt hpre hpost hdash

/-- An item on its own is read up to its upper level. -/
theorem readTo_nil (i : Item) : readTo i [] = i.hi := by
  unfold readTo
  by_cases hr : i.range = true
  · rw [List.find?_cons_of_pos hr, Option.map_some, Option.getD_some]
  · rw [List.find?_cons_of_neg hr]
    exact (i.single (by simpa using hr)).symm

theorem parseLevel_text (i : Item) : parseLevel i.text = levels i.lo i.hi := by
  have h := parseLevel_join i []
  rw [readTo_nil] at h
  exact h

theorem levels_ok (i : Item) :
    levels i.lo i.hi = .ok (setLevels 0 i.lo (i.hi + 1 - i.lo)) := by
  unfold levels
  rw [if_neg (Nat.not_lt.mpr i.le)]

/-! ## The loop -/

theorem piece_zero (arg : Text) : piece arg 0 arg.length = .ok arg := by
  simp [piece, substr]

theorem piece_prefix (s t : Text) : piece (s ++ t) 0 s.length = .ok s := by
  unfold piece
  rw [substr_append]

theorem piece_suffix (s t : Text) : piece (s ++ t) s.length (s ++ t).length = .ok t := by
  unfold piece substr
  rw [if_pos (by simp), List.drop_left, List.take_of_length_le (by simp)]

theorem loop_none (arg : Text) (fuel levels spos : Nat) :
    loop arg (fuel + 1) levels spos none
      = some (((piece arg spos arg.length).bind parseLevel).map (levels ||| ·)) := by
  rw [loop]

theorem loop_some {arg : Text} {fuel levels spos epos l : Nat}
    (h : (piece arg spos (sizeSub epos spos)).bind parseLevel = .ok l) :
    loop arg (fuel + 1) levels spos (some epos)
      = loop arg fuel (levels ||| l) (epos + 1) (find arg (UInt8.ofNat (epos + 1)) 44) := by
  rw [loop, h]

/-- Nothing is not a list of levels. -/
theorem parseLevels_nil (fuel v : Nat) : parseLevels (join []) fuel ≠ some (.ok v) := by
  intro h
  cases fuel with
  | zero => cases h
  | succ fuel =>
    have hinvalid : parseLevels (join []) (fuel + 1) = some (.error .invalidLevel) := rfl
    rw [hinvalid] at h
    cases h

/-- A list of one item is one piece. -/
theorem parseLevels_singleton (i : Item) (fuel : Nat) :
    parseLevels (join [i]) (fuel + 1) = some (levels i.lo i.hi) := by
  unfold parseLevels
  rw [join, find_eq_none i.comma_notMem, loop, piece_zero, Except.bind, parseLevel_text, levels_ok]
  simp only [Except.map, Nat.zero_or]

/-- The position behind the first comma is not the code of a character of the
list. -/
theorem position_notMem (i : Item) (is : List Item) :
    UInt8.ofNat (i.text.length + 1) ∉ join is := by
  intro h
  have hlen : i.text.length = 1 ∨ i.text.length = 3 := by
    unfold Item.text
    split
    · exact Or.inr rfl
    · exact Or.inl rfl
  have hc := join_chars is _ h
  rcases hlen with hl | hl
  · rw [hl] at hc
    revert hc
    unfold IsListChar
    decide
  · rw [hl] at hc
    revert hc
    unfold IsListChar
    decide

/-- The first round sets the levels of the first item. -/
theorem parseLevels_first (i j : Item) (is : List Item) (fuel : Nat) :
    parseLevels (join (i :: j :: is)) (fuel + 1)
      = loop (join (i :: j :: is)) fuel (setLevels 0 i.lo (i.hi + 1 - i.lo)) (i.text.length + 1)
        none := by
  have hlen : i.text.length ≤ 3 := by
    unfold Item.text
    split
    · simp
    · simp
  have hcomma : find (join (i :: j :: is)) 44 0 = some i.text.length :=
    find_append i.comma_notMem
  have hfirst : (piece (join (i :: j :: is)) 0 (sizeSub i.text.length 0)).bind parseLevel
      = .ok (setLevels 0 i.lo (i.hi + 1 - i.lo)) := by
    rw [sizeSub_of_le (Nat.zero_le _) (by omega), Nat.sub_zero, join_cons_cons, piece_prefix,
      ← levels_ok, ← parseLevel_text]
    rfl
  have hnone := find_eq_none (position_notMem i (i :: j :: is)) 44
  rw [parseLevels, hcomma, loop_some hfirst, hnone, Nat.zero_or]

/-- Everything behind the first comma is one piece. -/
theorem parseLevels_join (i j : Item) (is : List Item) (fuel : Nat) :
    parseLevels (join (i :: j :: is)) (fuel + 2)
      = some ((levels j.lo (readTo j is)).map (setLevels 0 i.lo (i.hi + 1 - i.lo) ||| ·)) := by
  have happ : join (i :: j :: is) = i.text ++ [44] ++ join (j :: is) := by
    rw [join_cons_cons, List.append_assoc, List.singleton_append]
  have hsuffix := piece_suffix (i.text ++ [44]) (join (j :: is))
  rw [← happ, List.length_append, List.length_singleton] at hsuffix
  rw [parseLevels_first, loop_none, hsuffix, ← parseLevel_join]
  rfl

/-- Two rounds, and no more. -/
theorem parseLevels_eq {i j : Item} {is : List Item} {fuel : Nat} {r : Except Stop Nat}
    (h : parseLevels (join (i :: j :: is)) fuel = some r) :
    r = (levels j.lo (readTo j is)).map (setLevels 0 i.lo (i.hi + 1 - i.lo) ||| ·) := by
  match fuel with
  | 0 => cases h
  | 1 =>
    rw [parseLevels_first, loop] at h
    cases h
  | fuel + 2 =>
    rw [parseLevels_join] at h
    exact (Option.some.inj h).symm

/-! ## Complete lists -/

/-- `parseLevels` returns exactly the levels that the items name. -/
def ParsedCompletely (items : List Item) : Prop :=
  ∃ fuel v, parseLevels (join items) fuel = some (.ok v) ∧ IsUnion items v

/-- The lists of one item, and those whose items name the levels of the first
one and the levels from the lower level of the second item to the upper level
of the first range from there on. -/
def ReadsAll : List Item → Prop
  | [] => False
  | [_] => True
  | i :: j :: is =>
    j.lo ≤ readTo j is ∧
      ∀ l, (∃ k ∈ i :: j :: is, k.Names l) ↔ i.Names l ∨ (j.lo ≤ l ∧ l ≤ readTo j is)

theorem isUnion_unique {items : List Item} {v : Nat} {p : Nat → Prop}
    (hv : ∀ l, v.testBit l = true ↔ p l) :
    IsUnion items v ↔ ∀ l, (∃ k ∈ items, k.Names l) ↔ p l := by
  unfold IsUnion
  constructor
  · intro h l
    rw [← h l, hv l]
  · intro h l
    rw [h l, hv l]

/-- The levels of the first item together with those of a range. -/
theorem or_testBit {i : Item} {lo hi w : Nat} (hw : levels lo hi = .ok w) (l : Nat) :
    (setLevels 0 i.lo (i.hi + 1 - i.lo) ||| w).testBit l = true
      ↔ i.Names l ∨ (lo ≤ l ∧ l ≤ hi) := by
  rw [Nat.testBit_or, Bool.or_eq_true, levels_testBit (levels_ok i), levels_testBit hw]
  rfl

theorem parsedCompletely_singleton (i : Item) : ParsedCompletely [i] := by
  refine ⟨1, _, (parseLevels_singleton i 0).trans (congrArg some (levels_ok i)), ?_⟩
  intro l
  rw [levels_testBit (levels_ok i)]
  simp [Item.Names]

/-- Which lists `parseLevels` reads completely. -/
theorem parseLevels_all_iff (items : List Item) : ParsedCompletely items ↔ ReadsAll items := by
  match items with
  | [] =>
    constructor
    · rintro ⟨fuel, v, h, -⟩
      exact absurd h (parseLevels_nil fuel v)
    · exact False.elim
  | [i] => exact ⟨fun _ => trivial, fun _ => parsedCompletely_singleton i⟩
  | i :: j :: is =>
    by_cases hle : j.lo ≤ readTo j is
    · have hw : levels j.lo (readTo j is) = .ok (setLevels 0 j.lo (readTo j is + 1 - j.lo)) := by
        rw [levels, if_neg (Nat.not_lt.mpr hle)]
      constructor
      · rintro ⟨fuel, v, h, hv⟩
        have := parseLevels_eq h
        rw [hw] at this
        cases this
        exact ⟨hle, (isUnion_unique (or_testBit hw)).mp hv⟩
      · rintro ⟨-, h⟩
        refine ⟨2, _, (parseLevels_join i j is 0).trans ?_, (isUnion_unique (or_testBit hw)).mpr h⟩
        rw [hw]
        rfl
    · constructor
      · rintro ⟨fuel, v, h, -⟩
        have := parseLevels_eq h
        rw [levels, if_pos (Nat.not_le.mp hle)] at this
        cases this
      · rintro ⟨h, -⟩
        exact absurd h hle

/-- In `1,2,3` level 3 is lost. -/
theorem parseLevels_third_dropped :
    ¬ ∀ items : List Item, items ≠ [] → ParsedCompletely items := by
  intro h
  obtain ⟨fuel, v, hrun, hv⟩ := h [.level 1 (by decide), .level 2 (by decide),
    .level 3 (by decide)] (by simp)
  have hr := parseLevels_eq hrun
  have hv3 : v.testBit 3 = true := by
    rw [hv 3]
    exact ⟨.level 3 (by decide), by simp, Nat.le_refl 3, Nat.le_refl 3⟩
  cases hr
  revert hv3
  decide

end QuickTrace.Levels
