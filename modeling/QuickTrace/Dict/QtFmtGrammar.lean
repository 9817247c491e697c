/-
QuickTrace.Dict.QtFmtGrammar — the translation that `msgDesc` makes.

`translate` goes through a format string from the left: `{{` and `}}` are
braces, `{}`, `{:x}` and `{:#x}` are conversions, and from the first other
brace on the rest stays as it is. `opening_translate` and `closing_translate`
are the two searches of a round, `loop_translate` the loop, and
`msgDesc_grammar` the function of the source with its positions.
-/
import QuickTrace.Dict.QtFmtScan

namespace QuickTrace

open QuickTrace.Lib

namespace MsgDesc

/-! ## Insertions that fit -/

/-- The descriptor with `t` behind its text. -/
def extend (d : MsgDesc) (t : Text) : MsgDesc := { d with text := d.text ++ t }

@[simp] theorem extend_nil (d : MsgDesc) : d.extend [] = d := by
  simp [extend]

@[simp] theorem extend_extend (d : MsgDesc) (t u : Text) :
    (d.extend t).extend u = d.extend (t ++ u) := by
  simp [extend]

theorem room_extend (d : MsgDesc) (t : Text) : (d.extend t).room = d.room - t.length := by
  simp only [extend, room, List.length_append]
  omega

theorem insertView_fits {d : MsgDesc} {x : Text} (h : x.length < d.room) :
    d.insertView x = some (d.extend x) := if_pos h

theorem insert_fits {d : MsgDesc} {x : Insertion} (h : x.text.length < d.room) :
    d.insert x = some (d.extend x.text) := by
  cases x with
  | view x => exact insertView_fits h
  | cstr x => exact if_pos h
  | varg => exact if_pos (Nat.le_of_lt h)
  | hexVarg alternate => exact if_pos (Nat.le_of_lt h)

theorem insertAll_fits : ∀ (xs : List Insertion) {d : MsgDesc},
    (xs.flatMap Insertion.text).length < d.room →
    d.insertAll xs = some (d.extend (xs.flatMap Insertion.text))
  | [], d, _ => by rw [insertAll, List.flatMap_nil, extend_nil]
  | x :: xs, d, h => by
      rw [List.flatMap_cons, List.length_append] at h
      have hx : x.text.length < d.room := by omega
      have hxs : (xs.flatMap Insertion.text).length < (d.extend x.text).room := by
        rw [room_extend]
        omega
      rw [insertAll, insert_fits hx, Option.bind_some, insertAll_fits xs hxs, extend_extend,
        List.flatMap_cons]

end MsgDesc

namespace QtFmt

/-! ## The translation -/

def translate : Text → Text
  | 123 :: 123 :: cs => 123 :: translate cs
  | 125 :: 125 :: cs => 125 :: translate cs
  | 123 :: 125 :: cs => 37 :: 115 :: translate cs
  | 123 :: 58 :: 120 :: 125 :: cs => 37 :: 120 :: translate cs
  | 123 :: 58 :: 35 :: 120 :: 125 :: cs => 37 :: 35 :: 120 :: translate cs
  | 123 :: cs => 123 :: cs
  | 125 :: cs => 125 :: cs
  | c :: cs => c :: translate cs
  | [] => []

/-- `a{}}` and `{{}}{:#x}{:e}`. -/
example : translate (ascii ['a', '{', '}', '}']) = ascii ['a', '%', 's', '}']
    ∧ translate (ascii ['{', '{', '}', '}', '{', ':', '#', 'x', '}', '{', ':', 'e', '}'])
      = ascii ['{', '}', '%', '#', 'x', '{', ':', 'e', '}'] := by
  decide

section

variable {cs : Text}

theorem translate_char {c : UInt8} (h1 : c ≠ 123) (h2 : c ≠ 125) :
    translate (c :: cs) = c :: translate cs := by
  rw [translate.eq_def]
  split <;> simp_all

theorem translate_unbalanced (h : cs.head? ≠ some 125) : translate (125 :: cs) = 125 :: cs := by
  rw [translate.eq_def]
  split <;> simp_all

/-- The conversion of a field. -/
def conversion (isHex isAlternate : Bool) : Text :=
  if isHex then if isAlternate then [37, 35, 120] else [37, 120] else [37, 115]

/-- What becomes of the field whose opening brace is in front of `cs`. -/
def Closes (cs : Text) (r : Option (Bool × Bool × Text)) : Prop :=
  match r with
  | none => translate (123 :: cs) = 123 :: cs
  | some (isHex, isAlternate, rest) =>
    translate (123 :: cs) = conversion isHex isAlternate ++ translate rest
      ∧ rest.length < cs.length

/-- Only the brace may follow a specification. -/
theorem closing_hex (cs : Text) (isAlternate : Bool) :
    (∃ rest, cs = 125 :: rest ∧ closing cs true isAlternate = some (true, isAlternate, rest))
      ∨ cs.head? ≠ some 125 ∧ closing cs true isAlternate = none := by
  by_cases h : cs.head? = some 125
  · cases cs with
    | nil => cases h
    | cons c cs =>
      cases h
      exact Or.inl ⟨cs, rfl, rfl⟩
  · exact Or.inr ⟨h, closing_none isAlternate h (Or.inl rfl)⟩

/-- A field that is none of the three stays as it is. -/
theorem translate_field (h1 : cs.head? ≠ some 123) (h2 : cs.head? ≠ some 125)
    (h3 : ∀ t, cs = 58 :: 120 :: t → t.head? ≠ some 125)
    (h4 : ∀ t, cs = 58 :: 35 :: 120 :: t → t.head? ≠ some 125) :
    translate (123 :: cs) = 123 :: cs := by
  rw [translate.eq_def]
  split <;> simp_all

/-- The search for the closing brace decides what becomes of a field. -/
theorem closing_translate (h : cs.head? ≠ some 123) : Closes cs (closing cs false false) := by
  by_cases h1 : cs.head? = some 125
  · obtain ⟨t, rfl⟩ := List.head?_eq_some_iff.mp h1
    exact ⟨rfl, by simp⟩
  by_cases h2 : ∃ t, cs = 58 :: 120 :: t
  · obtain ⟨t, rfl⟩ := h2
    rw [show closing (58 :: 120 :: t) false false = closing t true false from rfl]
    rcases closing_hex t false with ⟨rest, rfl, hr⟩ | ⟨ht, hr⟩
    · rw [hr]
      exact ⟨rfl, by simp only [List.length_cons]; omega⟩
    · rw [hr]
      exact translate_field (by simp) (by simp) (by simpa using ht) (by simp)
  by_cases h3 : ∃ t, cs = 58 :: 35 :: 120 :: t
  · obtain ⟨t, rfl⟩ := h3
    rw [show closing (58 :: 35 :: 120 :: t) false false = closing t true true from rfl]
    rcases closing_hex t true with ⟨rest, rfl, hr⟩ | ⟨ht, hr⟩
    · rw [hr]
      exact ⟨rfl, by simp only [List.length_cons]; omega⟩
    · rw [hr]
      exact translate_field (by simp) (by simp) (by simp) (by simpa using ht)
  · rw [closing_none false h1 (Or.inr fun t => ⟨fun e => h2 ⟨t, e⟩, fun e => h3 ⟨t, e⟩⟩)]
    exact translate_field h h1 (fun t e => absurd ⟨t, e⟩ h2) (fun t e => absurd ⟨t, e⟩ h3)

/-! ## The search for the opening brace -/

/-- How the search ends on `cs`: everything that is not copied yet is to be
translated. -/
def Opens (qtmd : MsgDesc) (before cs : Text) : Opening → Prop
  | .returned q => q = qtmd.extend (before ++ translate cs)
  | .found q before' rest =>
    ∃ copied, q = qtmd.extend copied ∧ copied ++ before' ++ translate rest = before ++ translate cs
      ∧ rest.length ≤ cs.length
      ∧ (rest = [] ∨ ∃ t, rest = 123 :: t ∧ t.head? ≠ some 123)

/-- Copying a piece and going on. -/
theorem Opens.step {qtmd : MsgDesc} {before before' piece cs cs' : Text} {o : Opening}
    (h : Opens (qtmd.extend piece) before' cs' o)
    (htext : piece ++ (before' ++ translate cs') = before ++ translate cs)
    (hlen : cs'.length ≤ cs.length) : Opens qtmd before cs o := by
  cases o with
  | returned q =>
    rw [Opens, MsgDesc.extend_extend, htext] at h
    exact h
  | found q rest' rest =>
    obtain ⟨copied, rfl, heq, hle, hrest⟩ := h
    refine ⟨piece ++ copied, MsgDesc.extend_extend .., ?_, by omega, hrest⟩
    rw [List.append_assoc, List.append_assoc, ← List.append_assoc copied, heq, htext]

end

/-- Two braces are copied as one. -/
theorem opening_pair {b : UInt8} {cs before : Text} {qtmd : MsgDesc}
    (hopen : opening qtmd before (b :: b :: cs)
      = (qtmd.insertView (before ++ [b])).bind fun qtmd => opening qtmd [] cs)
    (htext : translate (b :: b :: cs) = b :: translate cs)
    (hfits : (before ++ translate (b :: b :: cs)).length < qtmd.room)
    (ih : ∀ q : MsgDesc, (translate cs).length < q.room →
      ∃ o, opening q [] cs = some o ∧ Opens q [] cs o) :
    ∃ o, opening qtmd before (b :: b :: cs) = some o ∧ Opens qtmd before (b :: b :: cs) o := by
  rw [htext, List.length_append, List.length_cons] at hfits
  have hview : (before ++ [b]).length < qtmd.room := by
    rw [List.length_append, List.length_singleton]
    omega
  have hroom : (translate cs).length < (qtmd.extend (before ++ [b])).room := by
    rw [MsgDesc.room_extend, List.length_append, List.length_singleton]
    omega
  obtain ⟨o, ho, hopens⟩ := ih _ hroom
  refine ⟨o, ?_, hopens.step ?_ (by simp only [List.length_cons]; omega)⟩
  · rw [hopen, MsgDesc.insertView_fits hview, Option.bind_some, ho]
  · rw [htext, List.nil_append, List.append_assoc, List.singleton_append]

/-- The search on a text whose translation fits. -/
theorem opening_translate : ∀ (cs : Text) (qtmd : MsgDesc) (before : Text),
    (before ++ translate cs).length < qtmd.room →
    ∃ o, opening qtmd before cs = some o ∧ Opens qtmd before cs o
  | [], qtmd, before, h => by
      refine ⟨_, opening_nil qtmd before, [], ?_⟩
      simp [translate]
  | c :: cs, qtmd, before, h => by
      by_cases h1 : c = 123
      · subst h1
        by_cases hbrace : cs.head? = some 123
        · obtain ⟨cs, rfl⟩ := List.head?_eq_some_iff.mp hbrace
          exact opening_pair (opening_openBrace qtmd before cs) rfl h
            fun q hq => opening_translate cs q [] hq
        · refine ⟨_, opening_field qtmd before hbrace, [], ?_⟩
          exact ⟨by simp, by simp, Nat.le_refl _, Or.inr ⟨cs, rfl, hbrace⟩⟩
      by_cases h2 : c = 125
      · subst h2
        by_cases hbrace : cs.head? = some 125
        · obtain ⟨cs, rfl⟩ := List.head?_eq_some_iff.mp hbrace
          exact opening_pair (opening_closeBrace qtmd before cs) rfl h
            fun q hq => opening_translate cs q [] hq
        · rw [translate_unbalanced hbrace] at h
          refine ⟨.returned (qtmd.extend (before ++ 125 :: cs)), ?_, ?_⟩
          · rw [opening_unbalanced _ _ hbrace, MsgDesc.insertView_fits h]
            rfl
          · rw [Opens, translate_unbalanced hbrace]
      · have htext : before ++ [c] ++ translate cs = before ++ translate (c :: cs) := by
          rw [translate_char h1 h2, List.append_assoc, List.singleton_append]
        obtain ⟨o, ho, hopens⟩ := opening_translate cs qtmd (before ++ [c]) (htext ▸ h)
        rw [opening_char _ _ h1 h2]
        rw [← qtmd.extend_nil] at hopens
        exact ⟨o, ho, hopens.step (by rw [List.nil_append, htext]) (Nat.le_succ _)⟩
termination_by cs => cs.length

/-! ## The loop -/

theorem insert_conversion {isHex isAlternate : Bool} {d : MsgDesc}
    (h : (conversion isHex isAlternate).length < d.room) :
    (if isHex then d.insertHexVarg isAlternate else d.insertVarg)
      = some (d.extend (conversion isHex isAlternate)) := by
  cases isHex with
  | false => exact MsgDesc.insert_fits (x := .varg) h
  | true =>
    cases isAlternate with
    | false => exact MsgDesc.insert_fits (x := .hexVarg false) h
    | true => exact MsgDesc.insert_fits (x := .hexVarg true) h

/-- The part of a round behind the opening brace. -/
theorem restOf_translate {fuel : Nat}
    (ih : ∀ (cs : Text) (qtmd : MsgDesc), cs.length ≤ fuel → (translate cs).length < qtmd.room →
      loop fuel qtmd cs = some (qtmd.extend (translate cs)))
    {rest : Text} (hrest : rest = [] ∨ ∃ t, rest = 123 :: t ∧ t.head? ≠ some 123)
    (hlen : rest.length ≤ fuel + 1) {qtmd : MsgDesc} (hfits : (translate rest).length < qtmd.room) :
    Scan.restOf fuel qtmd rest = some (qtmd.extend (translate rest)) := by
  rcases hrest with rfl | ⟨t, rfl, ht⟩
  · exact congrArg some qtmd.extend_nil.symm
  have hcloses := closing_translate ht
  rw [Scan.restOf]
  rcases hclose : closing t false false with _ | ⟨isHex, isAlternate, r⟩
  · rw [hclose] at hcloses
    have htext : translate (123 :: t) = 123 :: t := hcloses
    rw [htext] at hfits ⊢
    exact MsgDesc.insertView_fits hfits
  · rw [hclose] at hcloses
    obtain ⟨htext, hlt⟩ := hcloses
    rw [htext, List.length_append] at hfits
    rw [List.length_cons] at hlen
    have hroom : (translate r).length < (qtmd.extend (conversion isHex isAlternate)).room := by
      rw [MsgDesc.room_extend]
      omega
    simp only
    rw [insert_conversion (by omega), Option.bind_some, ih r _ (by omega) hroom,
      MsgDesc.extend_extend, htext]

/-- The loop adds the translation. -/
theorem loop_translate : ∀ (fuel : Nat) (cs : Text) (qtmd : MsgDesc), cs.length ≤ fuel →
    (translate cs).length < qtmd.room → loop fuel qtmd cs = some (qtmd.extend (translate cs)) := by
  intro fuel
  induction fuel with
  | zero =>
    intro cs qtmd hfuel _
    rw [List.eq_nil_of_length_eq_zero (Nat.le_zero.mp hfuel)]
    exact congrArg some qtmd.extend_nil.symm
  | succ fuel ih =>
    intro cs qtmd hfuel hfits
    rcases hcs : cs with _ | ⟨c, t⟩
    · exact congrArg some qtmd.extend_nil.symm
    rw [← hcs]
    obtain ⟨o, ho, hopens⟩ := opening_translate cs qtmd [] hfits
    rw [hcs, Scan.loop_succ, ← hcs, ho, Option.bind_some]
    cases o with
    | returned q =>
      exact congrArg some hopens
    | found q before rest =>
      obtain ⟨copied, rfl, heq, hle, hrest⟩ := hopens
      have hlen := congrArg List.length heq
      simp only [List.nil_append, List.length_append] at hlen
      have hbefore : before.length < (qtmd.extend copied).room := by
        rw [MsgDesc.room_extend]
        omega
      have hfits' : (translate rest).length < (qtmd.extend (copied ++ before)).room := by
        rw [MsgDesc.room_extend, List.length_append]
        omega
      simp only
      rw [MsgDesc.insertView_fits hbefore, Option.bind_some, MsgDesc.extend_extend,
        restOf_translate ih hrest (by omega) hfits', MsgDesc.extend_extend, heq, List.nil_append]

/-! ## The function -/

/-- Class, function and format string fit the descriptor with a NUL behind
them. -/
def Fits (qtmd : MsgDesc) (className : Option Text) (funcName fmtString : Text) : Prop :=
  (qualifierText className funcName ++ translate fmtString).length < qtmd.room

theorem msgDesc_translate {qtmd : MsgDesc} {className : Option Text} {funcName fmtString : Text}
    (h : ∀ c ∈ fmtString, c ≠ 0) (hfits : Fits qtmd className funcName fmtString) :
    msgDesc qtmd className funcName fmtString
      = some (qtmd.extend (qualifierText className funcName ++ translate fmtString)) := by
  rw [Fits, List.length_append] at hfits
  have hq : (qualifierText className funcName).length < qtmd.room := by omega
  have ht : (translate fmtString).length
      < (qtmd.extend (qualifierText className funcName)).room := by
    rw [MsgDesc.room_extend]
    omega
  have hloop := loop_translate _ fmtString _ (Nat.le_refl _) ht
  rw [MsgDesc.extend_extend] at hloop
  rw [msgDesc, MsgDesc.insertAll_fits _ hq, Option.bind_some, cstring_of_ne h]
  exact hloop

/-- On every C string `msgDesc` ends without having read behind it, and it
appends the translation if that fits. -/
theorem msgDesc_grammar (qtmd : MsgDesc) (className : Option Text) (funcName : Text)
    (fmtString : Text) (h : ∀ c ∈ fmtString, c ≠ 0) :
    Scan.msgDesc qtmd className funcName (fmtString ++ [0]) ≠ .error .overread ∧
      (Fits qtmd className funcName fmtString →
        Scan.msgDesc qtmd className funcName (fmtString ++ [0])
          = .ok { qtmd with
              text := qtmd.text ++ (qualifierText className funcName ++ translate fmtString) }) := by
  rw [msgDesc_eq h]
  constructor
  · rcases msgDesc qtmd className funcName fmtString with _ | q
    · exact fun e => by cases e
    · exact fun e => by cases e
  · intro hfits
    rw [msgDesc_translate h hfits]
    rfl

/-- `a{}}` in a method. -/
theorem msgDesc_grammar_method :
    Scan.msgDesc (.start 1 (ascii ['f']) 1 1) (some (ascii ['C'])) (ascii ['m'])
        (ascii ['a', '{', '}', '}'] ++ [0])
      = .ok { MsgDesc.start 1 (ascii ['f']) 1 1 with
          text := ascii ['C', ':', ':', 'm', '(', ')', ' ', 'a', '%', 's', '}'] } :=
  (msgDesc_grammar (.start 1 (ascii ['f']) 1 1) (some (ascii ['C'])) (ascii ['m'])
    (ascii ['a', '{', '}', '}']) (forall_mem_text (by decide))).2 (by unfold Fits; decide)

end QtFmt

end QuickTrace
