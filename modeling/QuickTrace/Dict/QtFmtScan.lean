/-
QuickTrace.Dict.QtFmtScan — `msgDesc` with the positions of the source.

The function keeps three positions in the format string, `pos` behind what
was copied, `startPos` at the opening brace and `endPos` at the closing one,
and looks at the characters behind them. Here every read looks at the bound:
behind the terminating NUL it is a `Fault.overread`. The loops are total,
since each round moves a position forward and none leaves the string.

`QtFmt.msgDesc` works on the lists of characters between the positions.
`msgDesc_eq` says that the two are the same on a C string, so no read is
behind its end.
-/
import QuickTrace.Dict.QtFmtGeneric
import QuickTrace.Lib.Result

namespace QuickTrace.QtFmt

open QuickTrace.Lib

namespace Scan

/-! ## The scanner -/

/-- What may go wrong. -/
inductive Fault where
  /-- A read behind the NUL. -/
  | overread
  /-- A failed assertion or a write behind the buffer of the descriptor. -/
  | descriptor
  deriving DecidableEq

/-- A step of the descriptor. -/
def lift {α : Type} : Option α → Except Fault α
  | some a => .ok a
  | none => .error .descriptor

/-- `fmtString[ i ]`. -/
def read (fmtString : Text) (i : Nat) : Except Fault UInt8 :=
  match fmtString[i]? with
  | some c => .ok c
  | none => .error .overread

/-- `string_view( fmtString + pos, stop - pos )`. -/
def between (fmtString : Text) (pos stop : Nat) : Text := (fmtString.take stop).drop pos

/-- How the search for an opening brace ends. -/
inductive Opening where
  | returned (qtmd : MsgDesc)
  | found (qtmd : MsgDesc) (pos startPos : Nat)
  deriving DecidableEq

/-- "Find the opening '{'". -/
def opening (fmtString : Text) (qtmd : MsgDesc) (pos startPos : Nat) : Except Fault Opening :=
  match h : fmtString[startPos]? with
  | none => .error .overread
  | some c =>
    if c = 0 then .ok (.found qtmd pos startPos)
    else if c = 123 then do
      let d ← read fmtString (startPos + 1)
      if d = 123 then
        let qtmd ← lift (qtmd.insertView (between fmtString pos (startPos + 1)))
        opening fmtString qtmd (startPos + 2) (startPos + 2)
      else return .found qtmd pos startPos
    else if c = 125 then do
      let d ← read fmtString (startPos + 1)
      if d = 125 then
        let qtmd ← lift (qtmd.insertView (between fmtString pos (startPos + 1)))
        opening fmtString qtmd (startPos + 2) (startPos + 2)
      else
        -- unbalanced closing '}'
        let qtmd ← lift (qtmd.insertView (cstring (fmtString.drop pos)))
        return .returned qtmd
    else opening fmtString qtmd pos (startPos + 1)
termination_by fmtString.length - startPos
decreasing_by
  all_goals
    have hlt := (List.getElem?_eq_some_iff.mp h).1
    omega

/-- "Now find our closing '}'": `endPos` and the two flags; `none` where the
rest is copied. -/
def closing (fmtString : Text) (endPos : Nat) (isHex isAlternate : Bool) :
    Except Fault (Option (Nat × Bool × Bool)) :=
  match h : fmtString[endPos]? with
  | none => .error .overread
  | some c =>
    if c = 0 then .ok none
    else if c = 123 then .ok none
    else if c = 125 then .ok (some (endPos, isHex, isAlternate))
    else if c = 58 ∧ isHex = false then do
      let d ← read fmtString (endPos + 1)
      if d = 35 then
        let e ← read fmtString (endPos + 2)
        if e = 120 then closing fmtString (endPos + 3) true true
        else return none
      else if d = 120 then closing fmtString (endPos + 2) true isAlternate
      else return none
    else .ok none
termination_by fmtString.length - endPos
decreasing_by
  all_goals
    have hlt := (List.getElem?_eq_some_iff.mp h).1
    omega

/-- The search moves forward. -/
theorem opening_le {fmtString : Text} (startPos : Nat) {qtmd q : MsgDesc} {pos p sp : Nat}
    (h : opening fmtString qtmd pos startPos = .ok (.found q p sp)) : startPos ≤ sp := by
  rw [opening] at h
  split at h
  · cases h
  · next c hc =>
    have hlt := (List.getElem?_eq_some_iff.mp hc).1
    split at h
    · cases h
      exact Nat.le_refl _
    · split at h
      · obtain ⟨d, -, h⟩ := bind_eq_ok.mp h
        split at h
        · obtain ⟨q', -, h⟩ := bind_eq_ok.mp h
          have := opening_le (startPos + 2) h
          omega
        · cases h
          exact Nat.le_refl _
      · split at h
        · obtain ⟨d, -, h⟩ := bind_eq_ok.mp h
          split at h
          · obtain ⟨q', -, h⟩ := bind_eq_ok.mp h
            have := opening_le (startPos + 2) h
            omega
          · obtain ⟨q', -, h⟩ := bind_eq_ok.mp h
            cases h
        · have := opening_le (startPos + 1) h
          omega
termination_by fmtString.length - startPos

/-- The closing brace is a character of the string, not in front of where the
search started. -/
theorem closing_lt {fmtString : Text} (endPos : Nat) {isHex isAlternate : Bool}
    {r : Nat × Bool × Bool} (h : closing fmtString endPos isHex isAlternate = .ok (some r)) :
    endPos ≤ r.1 ∧ r.1 < fmtString.length := by
  rw [closing] at h
  split at h
  · cases h
  · next c hc =>
    have hlt := (List.getElem?_eq_some_iff.mp hc).1
    split at h
    · cases h
    split at h
    · cases h
    split at h
    · cases h
      exact ⟨Nat.le_refl _, hlt⟩
    split at h
    · obtain ⟨d, -, h⟩ := bind_eq_ok.mp h
      split at h
      · obtain ⟨e, -, h⟩ := bind_eq_ok.mp h
        split at h
        · have := closing_lt (endPos + 3) h
          omega
        · cases h
      · split at h
        · have := closing_lt (endPos + 2) h
          omega
        · cases h
    · cases h
termination_by fmtString.length - endPos

/-- The loop over the fields, in front of the character at `pos`. -/
def loop (fmtString : Text) (qtmd : MsgDesc) (pos : Nat) : Except Fault MsgDesc :=
  match read fmtString pos with
  | .error e => .error e
  | .ok 0 => .ok qtmd
  | .ok _ =>
    match _hopen : opening fmtString qtmd pos pos with
    | .error e => .error e
    | .ok (.returned qtmd) => .ok qtmd
    | .ok (.found qtmd before startPos) =>
      match lift (qtmd.insertView (between fmtString before startPos)) with
      | .error e => .error e
      | .ok qtmd =>
        match read fmtString startPos with
        | .error e => .error e
        | .ok 0 => .ok qtmd
        | .ok _ =>
          match _hclose : closing fmtString (startPos + 1) false false with
          | .error e => .error e
          -- an unexpected character, or no matching '}'
          | .ok none => lift (qtmd.insertView (cstring (fmtString.drop startPos)))
          | .ok (some (endPos, isHex, isAlternate)) =>
            match lift (if isHex then qtmd.insertHexVarg isAlternate else qtmd.insertVarg) with
            | .error e => .error e
            | .ok qtmd => loop fmtString qtmd (endPos + 1)
termination_by fmtString.length - pos
decreasing_by
  have h1 := opening_le pos _hopen
  have h2 := closing_lt (startPos + 1) _hclose
  omega

/-- `msgDesc` on a buffer that holds the format string. -/
def msgDesc (qtmd : MsgDesc) (className : Option Text) (funcName fmtString : Text) :
    Except Fault MsgDesc := do
  let qtmd ← lift (qtmd.insertAll (qualifier className funcName))
  loop fmtString qtmd 0

/-! ## Positions and lists -/

theorem lift_bind {α β : Type} (x : Option α) (f : α → Option β) :
    lift (x.bind f) = lift x >>= fun a => lift (f a) := by
  cases x with
  | none => rfl
  | some a => rfl

theorem lift_map {α β : Type} (x : Option α) (f : α → β) :
    lift (x.map f) = lift x >>= fun a => .ok (f a) := by
  cases x with
  | none => rfl
  | some a => rfl

section

variable {s : Text} {i : Nat}

/-- The character at a position is the first one behind it. -/
theorem at_cons {c : UInt8} {cs : Text} (h : s.drop i = c :: cs) :
    (s ++ [0])[i]? = some c ∧ i < s.length ∧ s.drop (i + 1) = cs := by
  have hlt : i < s.length := by
    by_contra hge
    rw [List.drop_eq_nil_of_le (by omega)] at h
    cases h
  have hget : s[i]? = some c := by rw [← List.head?_drop, h]; rfl
  refine ⟨?_, hlt, ?_⟩
  · rw [List.getElem?_append_left hlt, hget]
  · rw [← List.drop_drop, h]
    rfl

/-- Behind the last character is the NUL. -/
theorem at_nil (h : s.drop i = []) (hi : i ≤ s.length) : (s ++ [0])[i]? = some 0 := by
  have : s.length ≤ i := List.drop_eq_nil_iff.mp h
  have hlen : i = s.length := by omega
  rw [hlen, List.getElem?_append_right (Nat.le_refl _), Nat.sub_self]
  rfl

theorem read_cons {c : UInt8} {cs : Text} (h : s.drop i = c :: cs) : read (s ++ [0]) i = .ok c := by
  rw [read, (at_cons h).1]

theorem read_nil (h : s.drop i = []) (hi : i ≤ s.length) : read (s ++ [0]) i = .ok 0 := by
  rw [read, at_nil h hi]

/-- Behind a character the next one is read, or the NUL. -/
theorem read_next {c : UInt8} {cs : Text} (h : s.drop i = c :: cs) :
    read (s ++ [0]) (i + 1) = .ok (cs.head?.getD 0) := by
  obtain ⟨-, hlt, hnext⟩ := at_cons h
  cases cs with
  | nil => exact read_nil hnext hlt
  | cons d cs => exact read_cons hnext

theorem head?_of_getD {cs : Text} {b : UInt8} (hb : b ≠ 0) (h : cs.head?.getD 0 = b) :
    ∃ cs', cs = b :: cs' := by
  cases cs with
  | nil => exact absurd h.symm hb
  | cons d cs => exact ⟨cs, by rw [← h]; rfl⟩

theorem head?_ne {cs : Text} {b : UInt8} (h : cs.head?.getD 0 ≠ b) : cs.head? ≠ some b := by
  intro hb
  rw [hb] at h
  exact h rfl

theorem between_self (s : Text) (i : Nat) : between s i i = [] := by
  unfold between
  rw [List.drop_eq_nil_of_le]
  rw [List.length_take]
  exact Nat.min_le_left i _

theorem between_succ {pos : Nat} {c : UInt8} {cs : Text} (hpos : pos ≤ i)
    (h : s.drop i = c :: cs) : between s pos (i + 1) = between s pos i ++ [c] := by
  have hget : s[i]? = some c := by rw [← List.head?_drop, h]; rfl
  have hlt := (at_cons h).2.1
  unfold between
  rw [List.take_add_one, hget, Option.toList_some, List.drop_append_of_le_length]
  rw [List.length_take]
  omega

theorem between_nul {pos : Nat} (hi : i ≤ s.length) :
    between (s ++ [0]) pos i = between s pos i := by
  unfold between
  rw [List.take_append_of_le_length hi]

theorem between_append_drop {pos : Nat} (hpos : pos ≤ i) (hi : i ≤ s.length) :
    between s pos i ++ s.drop i = s.drop pos := by
  unfold between
  rw [← List.drop_append_of_le_length, List.take_append_drop]
  rw [List.length_take]
  omega

theorem cstring_drop (hs : ∀ c ∈ s, c ≠ 0) (hi : i ≤ s.length) :
    cstring ((s ++ [0]).drop i) = s.drop i := by
  rw [List.drop_append_of_le_length hi, cstring, List.takeWhile_append_of_pos]
  · simp
  · intro c hc
    simpa using hs c (List.mem_of_mem_drop hc)

end

/-! ## The shapes of the rest -/

end Scan

section

variable (qtmd : MsgDesc) (before cs : Text)

theorem opening_nil : opening qtmd before [] = some (.found qtmd before []) := rfl

theorem opening_openBrace : opening qtmd before (123 :: 123 :: cs)
    = (qtmd.insertView (before ++ [123])).bind fun qtmd => opening qtmd [] cs := rfl

theorem opening_closeBrace : opening qtmd before (125 :: 125 :: cs)
    = (qtmd.insertView (before ++ [125])).bind fun qtmd => opening qtmd [] cs := rfl

variable {cs}

/-- A brace that opens a field. -/
theorem opening_field (h : cs.head? ≠ some 123) :
    opening qtmd before (123 :: cs) = some (.found qtmd before (123 :: cs)) := by
  rw [opening.eq_def]
  simp only [if_true]
  split
  · exact absurd rfl h
  · rfl

theorem opening_unbalanced (h : cs.head? ≠ some 125) :
    opening qtmd before (125 :: cs) = (qtmd.insertView (before ++ 125 :: cs)).map .returned := by
  rw [opening.eq_def]
  simp only [if_neg (show (125 : UInt8) ≠ 123 by decide), if_true]
  split
  · exact absurd rfl h
  · rfl

/-- No brace and no specification. -/
theorem closing_none {t : Text} {isHex : Bool} (isAlternate : Bool) (h1 : t.head? ≠ some 125)
    (h2 : isHex = true ∨ ∀ cs, t ≠ 58 :: 120 :: cs ∧ t ≠ 58 :: 35 :: 120 :: cs) :
    closing t isHex isAlternate = none := by
  rw [closing.eq_def]
  split
  · exact absurd rfl h1
  · next cs => rcases h2 with h | h
               · cases h
               · exact absurd rfl (h cs).2
  · next cs => rcases h2 with h | h
               · cases h
               · exact absurd rfl (h cs).1
  · rfl

theorem opening_char {c : UInt8} (h1 : c ≠ 123) (h2 : c ≠ 125) :
    opening qtmd before (c :: cs) = opening qtmd (before ++ [c]) cs := by
  rw [opening.eq_def]
  simp only [if_neg h1, if_neg h2]

end

namespace Scan

/-! ## The search for the opening brace -/

/-- The positions lie where the lists are cut. -/
def Agrees (s : Text) : Opening → QtFmt.Opening → Prop
  | .returned q, .returned q' => q = q'
  | .found q pos startPos, .found q' before rest =>
    q = q' ∧ pos ≤ startPos ∧ startPos ≤ s.length ∧ before = between s pos startPos
      ∧ rest = s.drop startPos
  | _, _ => False

theorem opening_at {fmtString : Text} {startPos : Nat} {c : UInt8}
    (h : fmtString[startPos]? = some c) (qtmd : MsgDesc) (pos : Nat) :
    opening fmtString qtmd pos startPos
      = if c = 0 then .ok (.found qtmd pos startPos)
        else if c = 123 then do
          let d ← read fmtString (startPos + 1)
          if d = 123 then
            let qtmd ← lift (qtmd.insertView (between fmtString pos (startPos + 1)))
            opening fmtString qtmd (startPos + 2) (startPos + 2)
          else return .found qtmd pos startPos
        else if c = 125 then do
          let d ← read fmtString (startPos + 1)
          if d = 125 then
            let qtmd ← lift (qtmd.insertView (between fmtString pos (startPos + 1)))
            opening fmtString qtmd (startPos + 2) (startPos + 2)
          else
            let qtmd ← lift (qtmd.insertView (cstring (fmtString.drop pos)))
            return .returned qtmd
        else opening fmtString qtmd pos (startPos + 1) := by
  rw [opening]
  split
  · next h' => rw [h] at h'; cases h'
  · next c' h' =>
    rw [h] at h'
    cases h'
    rfl

/-- A brace that is followed by another one. -/
theorem brace_alike {s : Text} {startPos pos : Nat} {b : UInt8} {cs : Text}
    (hpos : pos ≤ startPos) (hd : s.drop startPos = b :: b :: cs) (qtmd : MsgDesc)
    (ih : ∀ q : MsgDesc, Alike (Agrees s) (opening (s ++ [0]) q (startPos + 2) (startPos + 2))
      (lift (QtFmt.opening q [] cs))) :
    Alike (Agrees s)
      (lift (qtmd.insertView (between (s ++ [0]) pos (startPos + 1))) >>= fun qtmd =>
        opening (s ++ [0]) qtmd (startPos + 2) (startPos + 2))
      (lift ((qtmd.insertView (between s pos startPos ++ [b])).bind fun qtmd =>
        QtFmt.opening qtmd [] cs)) := by
  have hlt := (at_cons hd).2.1
  rw [between_nul (by omega), between_succ hpos hd, lift_bind]
  rcases lift (qtmd.insertView (between s pos startPos ++ [b])) with e | q
  · exact .error e
  · exact ih q

/-- The search finds the same brace. -/
theorem opening_alike {s : Text} (hs : ∀ c ∈ s, c ≠ 0) (startPos : Nat) {pos : Nat}
    (hpos : pos ≤ startPos) (hle : startPos ≤ s.length) (qtmd : MsgDesc) :
    Alike (Agrees s) (opening (s ++ [0]) qtmd pos startPos)
      (lift (QtFmt.opening qtmd (between s pos startPos) (s.drop startPos))) := by
  have hfound : Agrees s (.found qtmd pos startPos)
      (.found qtmd (between s pos startPos) (s.drop startPos)) := ⟨rfl, hpos, hle, rfl, rfl⟩
  rcases hd : s.drop startPos with _ | ⟨c, cs⟩
  · rw [hd] at hfound
    rw [opening_at (at_nil hd hle), if_pos rfl, opening_nil]
    exact .ok hfound
  · obtain ⟨hget, hlt, hnext⟩ := at_cons hd
    have hc : c ≠ 0 := hs c (List.mem_of_mem_drop (hd ▸ List.mem_cons_self))
    rw [opening_at hget, if_neg hc]
    by_cases h1 : c = 123
    · subst h1
      rw [if_pos rfl, read_next hd, ok_bind]
      by_cases hbrace : cs.head?.getD 0 = 123
      · obtain ⟨cs', rfl⟩ := head?_of_getD (by decide) hbrace
        have hnext2 := (at_cons hnext).2
        rw [if_pos hbrace, opening_openBrace]
        refine brace_alike hpos hd qtmd fun q => ?_
        have ih := opening_alike hs (startPos + 2) (Nat.le_refl _) (by omega) q
        rwa [between_self, hnext2.2] at ih
      · rw [if_neg hbrace, opening_field _ _ (head?_ne hbrace), ← hd]
        exact .ok hfound
    · rw [if_neg h1]
      by_cases h2 : c = 125
      · subst h2
        rw [if_pos rfl, read_next hd, ok_bind]
        by_cases hbrace : cs.head?.getD 0 = 125
        · obtain ⟨cs', rfl⟩ := head?_of_getD (by decide) hbrace
          have hnext2 := (at_cons hnext).2
          rw [if_pos hbrace, opening_closeBrace]
          refine brace_alike hpos hd qtmd fun q => ?_
          have ih := opening_alike hs (startPos + 2) (Nat.le_refl _) (by omega) q
          rwa [between_self, hnext2.2] at ih
        · rw [if_neg hbrace, opening_unbalanced _ _ (head?_ne hbrace), ← hd,
            between_append_drop hpos hle, cstring_drop hs (by omega), lift_map]
          rcases lift (qtmd.insertView (s.drop pos)) with e | q
          · exact .error e
          · exact .ok rfl
      · rw [if_neg h2, opening_char _ _ h1 h2, ← between_succ hpos hd, ← hnext]
        exact opening_alike hs (startPos + 1) (by omega) (by omega) qtmd
termination_by s.length - startPos

/-! ## The search for the closing brace -/

theorem closing_at {fmtString : Text} {endPos : Nat} {c : UInt8}
    (h : fmtString[endPos]? = some c) (isHex isAlternate : Bool) :
    closing fmtString endPos isHex isAlternate
      = if c = 0 then .ok none
        else if c = 123 then .ok none
        else if c = 125 then .ok (some (endPos, isHex, isAlternate))
        else if c = 58 ∧ isHex = false then do
          let d ← read fmtString (endPos + 1)
          if d = 35 then
            let e ← read fmtString (endPos + 2)
            if e = 120 then closing fmtString (endPos + 3) true true
            else return none
          else if d = 120 then closing fmtString (endPos + 2) true isAlternate
          else return none
        else .ok none := by
  rw [closing]
  split
  · next h' => rw [h] at h'; cases h'
  · next c' h' =>
    rw [h] at h'
    cases h'
    rfl

/-- The same brace and flags, or none. -/
def closedAt (s : Text) : Option (Nat × Bool × Bool) → Option (Bool × Bool × Text) → Prop
  | none, none => True
  | some (endPos, isHex, isAlternate), some (isHex', isAlternate', rest) =>
    isHex = isHex' ∧ isAlternate = isAlternate' ∧ endPos < s.length ∧ rest = s.drop (endPos + 1)
  | _, _ => False

/-- The search for the closing brace reads no character behind the NUL. -/
theorem closing_eq {s : Text} (hs : ∀ c ∈ s, c ≠ 0) (endPos : Nat) (hle : endPos ≤ s.length)
    (isHex isAlternate : Bool) :
    ∃ r, closing (s ++ [0]) endPos isHex isAlternate = .ok r
      ∧ closedAt s r (QtFmt.closing (s.drop endPos) isHex isAlternate) := by
  rcases hd : s.drop endPos with _ | ⟨c, cs⟩
  · rw [closing_at (at_nil hd hle), if_pos rfl,
      closing_none isAlternate (by simp) (Or.inr (by simp))]
    exact ⟨none, rfl, trivial⟩
  · obtain ⟨hget, hlt, hnext⟩ := at_cons hd
    have hc : c ≠ 0 := hs c (List.mem_of_mem_drop (hd ▸ List.mem_cons_self))
    rw [closing_at hget, if_neg hc]
    by_cases h2 : c = 125
    · subst h2
      exact ⟨some (endPos, isHex, isAlternate), rfl, rfl, rfl, hlt, hnext.symm⟩
    · have hhead : (c :: cs).head? ≠ some 125 := by simpa using h2
      by_cases h3 : c = 58 ∧ isHex = false
      · obtain ⟨rfl, rfl⟩ := h3
        rw [if_neg (by decide), if_neg h2, if_pos ⟨rfl, rfl⟩, read_next hd, ok_bind]
        by_cases h35 : cs.head?.getD 0 = 35
        · obtain ⟨cs₁, rfl⟩ := head?_of_getD (by decide) h35
          rw [if_pos h35, read_next hnext, ok_bind]
          by_cases hx : cs₁.head?.getD 0 = 120
          · obtain ⟨cs₂, rfl⟩ := head?_of_getD (by decide) hx
            obtain ⟨-, hlt₁, hnext₁⟩ := at_cons hnext
            obtain ⟨-, hlt₂, hnext₂⟩ := at_cons hnext₁
            rw [if_pos hx]
            have ih := closing_eq hs (endPos + 3) (by omega) true true
            rwa [hnext₂] at ih
          · rw [if_neg hx, closing_none isAlternate hhead]
            · exact ⟨none, rfl, trivial⟩
            · refine Or.inr fun cs' => ⟨by simp, ?_⟩
              intro h
              cases h
              exact hx rfl
        · rw [if_neg h35]
          by_cases hx : cs.head?.getD 0 = 120
          · obtain ⟨cs₁, rfl⟩ := head?_of_getD (by decide) hx
            obtain ⟨-, hlt₁, hnext₁⟩ := at_cons hnext
            rw [if_pos hx]
            have ih := closing_eq hs (endPos + 2) (by omega) true isAlternate
            rwa [hnext₁] at ih
          · rw [if_neg hx, closing_none isAlternate hhead]
            · exact ⟨none, rfl, trivial⟩
            · refine Or.inr fun cs' => ⟨?_, ?_⟩
              · intro h
                cases h
                exact hx rfl
              · intro h
                cases h
                exact h35 rfl
      · rw [if_neg h2, if_neg h3, closing_none isAlternate hhead]
        · refine ⟨none, ?_, trivial⟩
          split
          · rfl
          · rfl
        · rw [not_and_or, Bool.not_eq_false] at h3
          rcases h3 with h3 | h3
          · refine Or.inr fun cs' => ⟨?_, ?_⟩
            · intro h
              cases h
              exact h3 rfl
            · intro h
              cases h
              exact h3 rfl
          · exact Or.inl h3
termination_by s.length - endPos

/-! ## The loop -/

/-- A round, as a sequence of steps. -/
theorem loop_eq (fmtString : Text) (qtmd : MsgDesc) (pos : Nat) :
    loop fmtString qtmd pos = (do
      if (← read fmtString pos) = 0 then return qtmd
      match ← opening fmtString qtmd pos pos with
      | .returned qtmd => return qtmd
      | .found qtmd before startPos =>
        let qtmd ← lift (qtmd.insertView (between fmtString before startPos))
        if (← read fmtString startPos) = 0 then return qtmd
        match ← closing fmtString (startPos + 1) false false with
        | none => lift (qtmd.insertView (cstring (fmtString.drop startPos)))
        | some (endPos, isHex, isAlternate) =>
          let qtmd ← lift (if isHex then qtmd.insertHexVarg isAlternate else qtmd.insertVarg)
          loop fmtString qtmd (endPos + 1)) := by
  rw [loop]
  rcases read fmtString pos with e | c
  · rfl
  by_cases hc : c = 0
  · subst hc
    rfl
  rw [ok_bind, if_neg hc]
  split
  · next h => cases h
  · next h => exact absurd (Except.ok.inj h) hc
  split
  · next e h => rw [h]; rfl
  · next q h => rw [h]; rfl
  next q before startPos h =>
  rw [h]
  simp only [ok_bind]
  rcases lift (q.insertView (between fmtString before startPos)) with e | q
  · rfl
  rw [ok_bind]
  rcases read fmtString startPos with e | c
  · rfl
  by_cases hc : c = 0
  · subst hc
    rfl
  rw [ok_bind, if_neg hc]
  simp only
  split
  · next e h => rw [h]; rfl
  · next h => rw [h]; rfl
  next endPos isHex isAlternate h =>
  rw [h, ok_bind]
  simp only
  rcases lift (if isHex = true then q.insertHexVarg isAlternate else q.insertVarg) with e | q
  · rfl
  · rfl

/-- What follows the opening brace, on lists. -/
def restOf (fuel : Nat) (qtmd : MsgDesc) (rest : Text) : Option MsgDesc :=
  match rest with
  | [] => some qtmd
  | _ :: cs =>
    match QtFmt.closing cs false false with
    | none => qtmd.insertView rest
    | some (isHex, isAlternate, cs) =>
      (if isHex then qtmd.insertHexVarg isAlternate else qtmd.insertVarg).bind fun qtmd =>
        QtFmt.loop fuel qtmd cs

theorem loop_succ (fuel : Nat) (qtmd : MsgDesc) (c : UInt8) (cs : Text) :
    QtFmt.loop (fuel + 1) qtmd (c :: cs)
      = (QtFmt.opening qtmd [] (c :: cs)).bind fun
        | .returned qtmd => some qtmd
        | .found qtmd before rest =>
          (qtmd.insertView before).bind fun qtmd => restOf fuel qtmd rest := by
  rw [QtFmt.loop, if_neg (by simp)]
  rfl

/-- The part of a round behind the opening brace. -/
theorem restOf_lift {s : Text} (hs : ∀ c ∈ s, c ≠ 0) {fuel startPos : Nat}
    (hsp : startPos ≤ s.length)
    (ih : ∀ pos, startPos < pos → pos ≤ s.length → ∀ qtmd,
      loop (s ++ [0]) qtmd pos = lift (QtFmt.loop fuel qtmd (s.drop pos)))
    (qtmd : MsgDesc) :
    (do
      if (← read (s ++ [0]) startPos) = 0 then return qtmd
      match ← closing (s ++ [0]) (startPos + 1) false false with
      | none => lift (qtmd.insertView (cstring ((s ++ [0]).drop startPos)))
      | some (endPos, isHex, isAlternate) =>
        let qtmd ← lift (if isHex then qtmd.insertHexVarg isAlternate else qtmd.insertVarg)
        loop (s ++ [0]) qtmd (endPos + 1))
      = lift (restOf fuel qtmd (s.drop startPos)) := by
  rcases hr : s.drop startPos with _ | ⟨b, bs⟩
  · rw [read_nil hr hsp]
    rfl
  obtain ⟨-, hlt, hnext⟩ := at_cons hr
  have hb : b ≠ 0 := hs b (List.mem_of_mem_drop (hr ▸ List.mem_cons_self))
  obtain ⟨r, hclose, hclosed⟩ := closing_eq hs (startPos + 1) hlt false false
  rw [hnext] at hclosed
  rw [read_cons hr, ok_bind, if_neg hb, hclose, ok_bind, restOf]
  rcases r with _ | ⟨endPos, isHex, isAlternate⟩
  · rcases hC : QtFmt.closing bs false false with _ | r'
    · simp only [cstring_drop hs hsp, hr]
    · rw [hC] at hclosed
      cases hclosed
  · rcases hC : QtFmt.closing bs false false with _ | ⟨isHex', isAlternate', cs⟩
    · rw [hC] at hclosed
      cases hclosed
    · rw [hC] at hclosed
      obtain ⟨rfl, rfl, hend, rfl⟩ := hclosed
      have hge : startPos + 1 ≤ endPos := (closing_lt (startPos + 1) hclose).1
      simp only [lift_bind, ih (endPos + 1) (by omega) hend]

/-- Both loops do the same, round by round. -/
theorem loop_lift {s : Text} (hs : ∀ c ∈ s, c ≠ 0) : ∀ (fuel pos : Nat), pos ≤ s.length →
    (s.drop pos).length ≤ fuel → ∀ qtmd : MsgDesc,
    loop (s ++ [0]) qtmd pos = lift (QtFmt.loop fuel qtmd (s.drop pos)) := by
  intro fuel
  induction fuel with
  | zero =>
    intro pos hle hfuel qtmd
    have hd : s.drop pos = [] := List.eq_nil_of_length_eq_zero (by omega)
    rw [loop_eq, read_nil hd hle]
    rfl
  | succ fuel ih =>
    intro pos hle hfuel qtmd
    rcases hd : s.drop pos with _ | ⟨c, cs⟩
    · rw [loop_eq, read_nil hd hle]
      rfl
    have hc : c ≠ 0 := hs c (List.mem_of_mem_drop (hd ▸ List.mem_cons_self))
    have hopen := opening_alike hs pos (Nat.le_refl _) hle qtmd
    rw [between_self, hd] at hopen
    rw [loop_eq, read_cons hd, ok_bind, if_neg hc, loop_succ, lift_bind]
    refine alike_eq.mp ((hopen.and_left fun o ho => ho).bind ?_)
    rintro (q | ⟨q, before, startPos⟩) (q' | ⟨q', before', rest⟩) ⟨ho, hagrees⟩
    · cases hagrees
      exact .ok rfl
    · cases hagrees
    · cases hagrees
    obtain ⟨rfl, hpos, hsp, rfl, rfl⟩ := hagrees
    have hge : pos ≤ startPos := opening_le pos ho
    simp only [alike_eq, between_nul hsp, lift_bind]
    rcases lift (q.insertView (between s before startPos)) with e | q
    · rfl
    · refine restOf_lift hs hsp (fun pos' hlt hle' => ih pos' hle' ?_) q
      rw [List.length_drop] at hfuel ⊢
      omega

end Scan

/-- On a C string the positions are those of the lists, and no read is behind
its end. -/
theorem msgDesc_eq {fmtString : Text} (h : ∀ c ∈ fmtString, c ≠ 0) (qtmd : MsgDesc)
    (className : Option Text) (funcName : Text) :
    Scan.msgDesc qtmd className funcName (fmtString ++ [0])
      = Scan.lift (msgDesc qtmd className funcName fmtString) := by
  unfold Scan.msgDesc msgDesc
  rw [Scan.lift_bind, cstring_of_ne h]
  rcases Scan.lift (qtmd.insertAll (qualifier className funcName)) with e | q
  · rfl
  · exact Scan.loop_lift h _ 0 (Nat.zero_le _) (Nat.le_refl _) q

end QuickTrace.QtFmt
