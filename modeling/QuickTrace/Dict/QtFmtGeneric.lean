/-
QuickTrace.Dict.QtFmtGeneric — the descriptor of a `QTFMT` statement.

`msgDesc` turns a format string with brace fields into the text of a
descriptor with percent conversions (`QtFmtGeneric.cpp`). Its positions in
the format string are the lists of characters between and behind them.

A `Part` is a piece of a format string of the documented form, with its
spelling there (`source`) and in the descriptor (`text`). On a format string
made of parts `msgDesc` adds the text of the parts (`msgDesc_parts`).
-/
import QuickTrace.Dict.MsgDesc

namespace QuickTrace

open QuickTrace.Lib

namespace QtFmt

/-! ## `msgDesc` -/

/-- How the search for an opening brace ends: with everything copied, or at a
brace or the end of the format string, with characters still to be copied. -/
inductive Opening where
  | returned (qtmd : MsgDesc)
  | found (qtmd : MsgDesc) (before rest : Text)
  deriving DecidableEq

/-- "Find the opening '{'": `before` lies between `pos` and `startPos`. -/
def opening (qtmd : MsgDesc) (before : Text) : Text → Option Opening
  | [] => some (.found qtmd before [])
  | c :: cs =>
    if c = 123 then
      match cs with
      | 123 :: cs => (qtmd.insertView (before ++ [123])).bind fun qtmd => opening qtmd [] cs
      | cs => some (.found qtmd before (123 :: cs))
    else if c = 125 then
      match cs with
      | 125 :: cs => (qtmd.insertView (before ++ [125])).bind fun qtmd => opening qtmd [] cs
      -- unbalanced closing brace
      | cs => (qtmd.insertView (before ++ 125 :: cs)).map .returned
    else opening qtmd (before ++ [c]) cs

/-- "Now find our closing '}'": `isHex`, `isAlternate` and what follows the
brace; `none` where the source finds an unexpected character or the end. -/
def closing : Text → Bool → Bool → Option (Bool × Bool × Text)
  | 125 :: cs, isHex, isAlternate => some (isHex, isAlternate, cs)
  | 58 :: 35 :: 120 :: cs, false, _ => closing cs true true
  | 58 :: 120 :: cs, false, isAlternate => closing cs true isAlternate
  | _, _, _ => none

/-- The loop over the fields; every round consumes an opening brace, so the
length of the format string is fuel enough. -/
def loop : Nat → MsgDesc → Text → Option MsgDesc
  | 0, qtmd, _ => some qtmd
  | fuel + 1, qtmd, fmtString =>
    if fmtString.isEmpty then some qtmd
    else do
      match ← opening qtmd [] fmtString with
      | .returned qtmd => return qtmd
      | .found qtmd before rest =>
        let qtmd ← qtmd.insertView before
        match rest with
        | [] => return qtmd
        | _ :: cs =>
          match closing cs false false with
          | none => qtmd.insertView rest
          | some (isHex, isAlternate, cs) =>
            (if isHex then qtmd.insertHexVarg isAlternate else qtmd.insertVarg).bind fun qtmd =>
              loop fuel qtmd cs

/-- What `msgDesc` streams in front of the format string. A null class name
is `none`. -/
def qualifier (className : Option Text) (funcName : Text) : List MsgDesc.Insertion :=
  match className with
  | none => []
  | some c =>
    (if (cstring c).isEmpty then [] else [.cstr c, .cstr (ascii [':', ':'])])
      ++ [.cstr funcName, .cstr (ascii ['(', ')', ' '])]

/-- `msgDesc`. -/
def msgDesc (qtmd : MsgDesc) (className : Option Text) (funcName fmtString : Text) :
    Option MsgDesc :=
  (qtmd.insertAll (qualifier className funcName)).bind fun qtmd =>
    loop (cstring fmtString).length qtmd (cstring fmtString)

/-! ## Format strings of the documented form -/

/-- `{}`, `{:x}` and `{:#x}`. -/
inductive Field where
  | default
  | hex
  | alternateHex
  deriving DecidableEq, Repr

/-- A character, `{{`, `}}` or a field. -/
inductive Part where
  | char (c : UInt8)
  | openBrace
  | closeBrace
  | field (f : Field)
  deriving DecidableEq, Repr

/-- A field in the format string. -/
def Field.source : Field → Text
  | .default => ascii ['{', '}']
  | .hex => ascii ['{', ':', 'x', '}']
  | .alternateHex => ascii ['{', ':', '#', 'x', '}']

/-- A field in the descriptor. -/
def Field.text : Field → Text
  | .default => ascii ['%', 's']
  | .hex => ascii ['%', 'x']
  | .alternateHex => ascii ['%', '#', 'x']

/-- A part in the format string. -/
def Part.source : Part → Text
  | .char c => [c]
  | .openBrace => ascii ['{', '{']
  | .closeBrace => ascii ['}', '}']
  | .field f => f.source

/-- A part in the descriptor. -/
def Part.text : Part → Text
  | .char c => [c]
  | .openBrace => ascii ['{']
  | .closeBrace => ascii ['}']
  | .field f => f.text

/-- The part stands for itself: no field. -/
def Part.isField : Part → Bool
  | .field _ => true
  | _ => false

/-- A character of a format string is no brace, and does not end it. -/
def Part.Literal : Part → Prop
  | .char c => c ≠ 123 ∧ c ≠ 125 ∧ c ≠ 0
  | _ => True

instance (p : Part) : Decidable p.Literal := by
  cases p <;> unfold Part.Literal <;> infer_instance

/-- The format string. -/
def source (ps : List Part) : Text := ps.flatMap Part.source

/-- The text of the descriptor. -/
def text (ps : List Part) : Text := ps.flatMap Part.text

@[simp] theorem source_nil : source [] = [] := rfl

@[simp] theorem source_cons (p : Part) (ps : List Part) :
    source (p :: ps) = p.source ++ source ps := List.flatMap_cons

@[simp] theorem text_nil : text [] = [] := rfl

@[simp] theorem text_cons (p : Part) (ps : List Part) :
    text (p :: ps) = p.text ++ text ps := List.flatMap_cons

theorem text_append (ps qs : List Part) : text (ps ++ qs) = text ps ++ text qs :=
  List.flatMap_append

/-- Format strings have no NUL. -/
theorem source_ne_zero {ps : List Part} (h : ∀ p ∈ ps, p.Literal) : ∀ c ∈ source ps, c ≠ 0 := by
  intro c hc
  obtain ⟨p, hp, hc⟩ := List.mem_flatMap.mp hc
  have hl := h p hp
  have hbrace : ∀ c ∈ ascii ['{', '{'] ++ ascii ['}', '}'], c ≠ 0 :=
    forall_mem_text (by decide)
  cases p with
  | char d =>
    rw [Part.source, List.mem_singleton] at hc
    exact hc ▸ hl.2.2
  | field f =>
    have hall : ∀ c ∈ f.source, c ≠ 0 := forall_mem_text (by cases f <;> decide)
    exact hall c hc
  | openBrace => exact hbrace c (List.mem_append_left _ hc)
  | closeBrace => exact hbrace c (List.mem_append_right _ hc)

/-- Up to the first field, or the end. -/
theorem parts_cases : ∀ ps : List Part, ∃ qs rest, ps = qs ++ rest
    ∧ (∀ q ∈ qs, q.isField = false) ∧ (rest = [] ∨ ∃ f rs, rest = .field f :: rs)
  | [] => ⟨[], [], rfl, by simp, Or.inl rfl⟩
  | .field f :: ps => ⟨[], .field f :: ps, rfl, by simp, Or.inr ⟨f, ps, rfl⟩⟩
  | .char c :: ps => by
      obtain ⟨qs, rest, rfl, h1, h2⟩ := parts_cases ps
      exact ⟨.char c :: qs, rest, rfl, List.forall_mem_cons.mpr ⟨rfl, h1⟩, h2⟩
  | .openBrace :: ps => by
      obtain ⟨qs, rest, rfl, h1, h2⟩ := parts_cases ps
      exact ⟨.openBrace :: qs, rest, rfl, List.forall_mem_cons.mpr ⟨rfl, h1⟩, h2⟩
  | .closeBrace :: ps => by
      obtain ⟨qs, rest, rfl, h1, h2⟩ := parts_cases ps
      exact ⟨.closeBrace :: qs, rest, rfl, List.forall_mem_cons.mpr ⟨rfl, h1⟩, h2⟩

/-! ## What `msgDesc` makes of them -/

/-- At the end and at a field the search stops. -/
theorem opening_stop {rest : List Part} (h : rest = [] ∨ ∃ f rs, rest = .field f :: rs)
    (qtmd : MsgDesc) (before : Text) :
    opening qtmd before (source rest) = some (.found qtmd before (source rest)) := by
  rcases h with rfl | ⟨f, rs, rfl⟩
  · rfl
  · cases f <;> rfl

/-- Up to there it copies some of the characters and remembers the others. -/
theorem opening_parts {rest : List Part} (hrest : rest = [] ∨ ∃ f rs, rest = .field f :: rs) :
    ∀ (qs : List Part) {qtmd : MsgDesc} {before : Text} {o : Opening},
      (∀ q ∈ qs, q.isField = false) → (∀ q ∈ qs, q.Literal) →
      opening qtmd before (source (qs ++ rest)) = some o →
      ∃ copied before', o = .found { qtmd with text := qtmd.text ++ copied } before' (source rest)
        ∧ copied ++ before' = before ++ text qs
  | [], qtmd, before, o, _, _, h => by
      rw [List.nil_append, opening_stop hrest] at h
      exact ⟨[], before, by rw [List.append_nil]; exact (Option.some.inj h).symm, by simp⟩
  | q :: qs, qtmd, before, o, hf, hl, h => by
      obtain ⟨hfq, hfs⟩ := List.forall_mem_cons.mp hf
      obtain ⟨hlq, hls⟩ := List.forall_mem_cons.mp hl
      have hbrace : ∀ {d : MsgDesc} {b : Text}, qtmd.insertView (before ++ b) = some d →
          opening d [] (source (qs ++ rest)) = some o →
          ∃ copied before', o = .found { qtmd with text := qtmd.text ++ copied } before'
              (source rest) ∧ copied ++ before' = before ++ (b ++ text qs) := by
        intro d b hd ho
        have hd' := MsgDesc.insert_eq (x := .view (before ++ b)) hd
        obtain ⟨copied, before', rfl, heq⟩ := opening_parts hrest qs hfs hls ho
        refine ⟨before ++ b ++ copied, before', ?_, ?_⟩
        · rw [hd', MsgDesc.Insertion.text, List.append_assoc]
        · rw [List.append_assoc, heq, List.nil_append, List.append_assoc]
      cases q with
      | char c =>
        have hstep : opening qtmd before (c :: source (qs ++ rest))
            = opening qtmd (before ++ [c]) (source (qs ++ rest)) := by
          rw [opening.eq_def]
          simp only [if_neg hlq.1, if_neg hlq.2.1]
        rw [List.cons_append, source_cons, Part.source, List.singleton_append, hstep] at h
        obtain ⟨copied, before', ho, heq⟩ := opening_parts hrest qs hfs hls h
        exact ⟨copied, before', ho, by rw [heq, text_cons, Part.text, List.append_assoc]⟩
      | openBrace =>
        obtain ⟨d, hd, ho⟩ := Option.bind_eq_some_iff.mp h
        exact hbrace hd ho
      | closeBrace =>
        obtain ⟨d, hd, ho⟩ := Option.bind_eq_some_iff.mp h
        exact hbrace hd ho
      | field f => cases hfq

/-- The part of a field behind its brace. -/
theorem closing_field (f : Field) (rest : Text) :
    closing (f.source.tail ++ rest) false false
      = some (f != .default, f == .alternateHex, rest) := by
  cases f <;> rfl

theorem insert_field {f : Field} {qtmd qtmd' : MsgDesc}
    (h : (if (f != .default) = true then qtmd.insertHexVarg (f == .alternateHex)
      else qtmd.insertVarg) = some qtmd') :
    qtmd' = { qtmd with text := qtmd.text ++ f.text } := by
  cases f with
  | default => exact MsgDesc.insert_eq (x := .varg) h
  | hex => exact MsgDesc.insert_eq (x := .hexVarg false) h
  | alternateHex => exact MsgDesc.insert_eq (x := .hexVarg true) h

theorem Part.source_pos (p : Part) : 0 < p.source.length := by
  cases p with
  | field f => cases f <;> decide
  | _ => exact Nat.succ_pos _

theorem source_eq_nil {ps : List Part} (h : source ps = []) : ps = [] := by
  cases ps with
  | nil => rfl
  | cons p ps =>
    have hpos := p.source_pos
    have hlen := congrArg List.length h
    rw [source_cons, List.length_append, List.length_nil] at hlen
    omega

theorem loop_parts : ∀ (fuel : Nat) (ps : List Part) {qtmd qtmd' : MsgDesc},
    (source ps).length ≤ fuel → (∀ p ∈ ps, p.Literal) → loop fuel qtmd (source ps) = some qtmd' →
    qtmd' = { qtmd with text := qtmd.text ++ text ps }
  | 0, ps, qtmd, qtmd', hf, _, h => by
      have hps : ps = [] := source_eq_nil (List.eq_nil_of_length_eq_zero (by omega))
      cases h
      rw [hps, text_nil, List.append_nil]
  | fuel + 1, ps, qtmd, qtmd', hf, hl, h => by
      rw [loop] at h
      split at h
      · rename_i hnil
        have hps : ps = [] := source_eq_nil (List.isEmpty_iff.mp hnil)
        cases h
        rw [hps, text_nil, List.append_nil]
      obtain ⟨qs, rest, rfl, hqs, hrest⟩ := parts_cases ps
      obtain ⟨o, ho, h⟩ := Option.bind_eq_some_iff.mp h
      obtain ⟨copied, before, rfl, heq⟩ := opening_parts hrest qs hqs
        (fun q hq => hl q (List.mem_append_left _ hq)) ho
      rw [List.nil_append] at heq
      obtain ⟨d, hd, h⟩ := Option.bind_eq_some_iff.mp h
      have hd' := MsgDesc.insert_eq (x := .view before) hd
      simp only [MsgDesc.Insertion.text, List.append_assoc, heq] at hd'
      rcases hrest with rfl | ⟨f, rs, rfl⟩
      · cases h
        rw [hd', List.append_nil]
      · obtain ⟨c, hc⟩ : ∃ c, f.source = c :: f.source.tail := by cases f <;> exact ⟨_, rfl⟩
        rw [source_cons, Part.source, hc, List.cons_append] at h
        simp only [closing_field] at h
        obtain ⟨e, he, h⟩ := Option.bind_eq_some_iff.mp h
        have he' := insert_field he
        have hlen : (source rs).length ≤ fuel := by
          have := Part.source_pos (.field f)
          simp only [source, List.flatMap_append, List.flatMap_cons, List.length_append] at hf
          unfold source
          omega
        rw [loop_parts fuel rs hlen (fun p hp => hl p (by simp [hp])) h, he', hd']
        simp only [List.append_assoc, text_append, text_cons, Part.text]

/-- What stands in front of the format string. -/
def qualifierText (className : Option Text) (funcName : Text) : Text :=
  (qualifier className funcName).flatMap MsgDesc.Insertion.text

/-- On a format string of the documented form `msgDesc` adds the text of its
parts. -/
theorem msgDesc_parts {qtmd qtmd' : MsgDesc} {className : Option Text} {funcName : Text}
    {ps : List Part} (hl : ∀ p ∈ ps, p.Literal)
    (h : msgDesc qtmd className funcName (source ps) = some qtmd') :
    qtmd' = { qtmd with text := qtmd.text ++ (qualifierText className funcName ++ text ps) } := by
  unfold msgDesc at h
  rw [cstring_of_ne (source_ne_zero hl)] at h
  obtain ⟨d, hd, h⟩ := Option.bind_eq_some_iff.mp h
  rw [loop_parts _ ps (Nat.le_refl _) hl h, MsgDesc.insertAll_eq hd, qualifierText,
    List.append_assoc]

/-- Braces, two fields, and a percent sign that means nothing. -/
example : (msgDesc (.start 1 (ascii ['f']) 1 1) none [] (ascii ['{', '{', '{', ':', '#', 'x', '}',
    '}', '}', ' ', '{', '}', '%', '.'])).map MsgDesc.text
      = some (ascii ['{', '%', '#', 'x', '}', ' ', '%', 's', '%', '.']) := by
  decide

end QtFmt

end QuickTrace
