/-
QuickTrace.Dict.StrangeName — a file name that is not one word.

The name of the source file is the only text of a descriptor that stands
there without a length; for the parser it ends at white space. A name with
white space inside, or without anything else, moves all fields behind it: what
is taken for the length of the text are then bytes of the line number, the id
or the text itself, and these make a length of at least 64 KiB
(`window_large`), and the program ends when it reads behind the mapping. White
space around a name does not matter.

`returns_iff` says what comes of the other descriptors.
-/
import QuickTrace.Dict.Mapping

namespace QuickTrace

open QuickTrace.Lib

/-- A descriptor with any name. The macros, Python's `messageIs` and
`GoQuickTrace_create_msg_id` all write it with a `MsgDesc`. -/
structure StrangeDescriptor where
  tsc : UInt64
  filename : Text
  lineno : Int32
  msgId : UInt32
  insertions : List MsgDesc.Insertion
  key : Text
  bytes : List UInt8
  filename_ne : ∀ c ∈ filename, c ≠ 0
  key_ne : ∀ c ∈ key, c ≠ 0
  written : MsgDesc.write tsc filename lineno msgId key insertions = some bytes

namespace StrangeDescriptor

/-- The text of the message. -/
def text (d : StrangeDescriptor) : Text := d.insertions.flatMap MsgDesc.Insertion.text

theorem bytes_eq (d : StrangeDescriptor) : d.bytes
    = MessageParser.descBytes d.tsc d.filename d.lineno d.msgId d.text d.key ++ [0] := by
  have h := (MsgDesc.write_eq d.written).1
  rw [cstring_of_ne d.key_ne] at h
  rw [h]
  simp only [MsgDesc.start, cstring_of_ne d.filename_ne, MessageParser.descBytes, pstringL,
    List.append_assoc, List.cons_append, List.nil_append, text]

theorem text_length (d : StrangeDescriptor) : d.text.length < MsgDesc.bufSize :=
  (MsgDesc.write_eq d.written).2.1

theorem key_length (d : StrangeDescriptor) : d.key.length < MsgDesc.bufSize := by
  have h := (MsgDesc.write_eq d.written).2.2
  rwa [cstring_of_ne d.key_ne] at h

end StrangeDescriptor

namespace StrangeName

/-- One word, perhaps with white space around it. -/
def Harmless (name : Text) : Prop :=
  ∃ pre word post, name = pre ++ (word ++ post) ∧ (∀ c ∈ pre, isspace c = true) ∧ word ≠ []
    ∧ (∀ c ∈ word, isspace c = false) ∧ ∀ c ∈ post, isspace c = true

/-- The loop of the parser comes to its end, and has returned the messages of
`before` and `after`, with anything in between. -/
def ReturnsOthers (mem : List UInt8) (ps : MessageParser) (before after : List Descriptor) : Prop :=
  ∃ n found ps', MessageParser.rounds mem Mapping.keep n [] ps
    = .ended (before.map Descriptor.message ++ found ++ after.map Descriptor.message) ps'

/-! ## Where a number ends -/

/-- The character is no part of a number. -/
structure Stop (c : UInt8) : Prop where
  digit : ∀ b ∈ [8, 10, 16], digitVal b c = none
  other : c ≠ 43 ∧ c ≠ 45 ∧ c ≠ 48 ∧ c ≠ 88 ∧ c ≠ 120

theorem stop_blank : Stop 32 := ⟨by decide, by decide⟩

section

variable {c : UInt8}

theorem scanDigits_within {b : Nat} (hc : digitVal b c = none) (v : Text) :
    ∀ (u : Text) (acc : Nat) (any : Bool),
      ∃ u', u' <:+ u ∧ (scanDigits b (u ++ c :: v) acc any).2.2 = u' ++ c :: v
  | [], acc, any => ⟨[], List.suffix_rfl, by rw [List.nil_append, scanDigits, hc]⟩
  | d :: u, acc, any => by
      rw [List.cons_append, scanDigits]
      split
      · obtain ⟨u', hu', h⟩ := scanDigits_within hc v u _ true
        exact ⟨u', hu'.trans (List.suffix_cons d u), h⟩
      · exact ⟨d :: u, List.suffix_rfl, rfl⟩

theorem scanBase_within (hc : Stop c) (u v : Text) :
    (scanBase (u ++ c :: v)).1 ∈ [8, 10, 16]
      ∧ ∃ u', u' <:+ u ∧ (scanBase (u ++ c :: v)).2 = u' ++ c :: v := by
  unfold scanBase
  split
  · rename_i x d t heq
    split
    · rename_i hx
      refine ⟨by simp, ?_⟩
      match u, heq with
      | [], heq =>
        cases heq
        exact absurd rfl hc.other.2.2.1
      | [e], heq =>
        cases heq
        rcases hx.1 with rfl | rfl
        · exact absurd rfl hc.other.2.2.2.2
        · exact absurd rfl hc.other.2.2.2.1
      | [e, f], heq =>
        cases heq
        rw [hc.digit 16 (by decide)] at hx
        cases hx.2
      | e :: f :: g :: u, heq =>
        cases heq
        exact ⟨d :: u, (List.suffix_cons _ _).trans (List.suffix_cons _ _), rfl⟩
    · exact ⟨by simp, u, List.suffix_rfl, heq.symm⟩
  · rename_i t _ heq
    exact ⟨by simp, u, List.suffix_rfl, heq.symm⟩
  · exact ⟨by simp, u, List.suffix_rfl, rfl⟩

theorem scanSign_within (hc : Stop c) (u v : Text) :
    ∃ u', u' <:+ u ∧ (scanSign (u ++ c :: v)).2 = u' ++ c :: v := by
  unfold scanSign
  split
  · rename_i t heq
    cases u with
    | nil =>
      cases heq
      exact absurd rfl hc.other.2.1
    | cons d u =>
      cases heq
      exact ⟨u, List.suffix_cons _ _, rfl⟩
  · rename_i t heq
    cases u with
    | nil =>
      cases heq
      exact absurd rfl hc.other.1
    | cons d u =>
      cases heq
      exact ⟨u, List.suffix_cons _ _, rfl⟩
  · exact ⟨u, List.suffix_rfl, rfl⟩

/-- A number that starts in front of such a character ends there at the
latest. -/
theorem strtoul_within (hc : Stop c) {d : UInt8} {u : Text} (hd : isspace d = false) (v : Text) :
    ∃ u', u' <:+ d :: u ∧ (strtoul (d :: u ++ c :: v)).2 = u' ++ c :: v := by
  have hdrop : (d :: u ++ c :: v).dropWhile isspace = d :: u ++ c :: v := by
    rw [List.cons_append, List.dropWhile_cons_of_neg (by simp [hd])]
  obtain ⟨u₁, hu₁, h₁⟩ := scanSign_within hc (d :: u) v
  obtain ⟨hbase, u₂, hu₂, h₂⟩ := scanBase_within hc u₁ v
  obtain ⟨u₃, hu₃, h₃⟩ := scanDigits_within (hc.digit _ hbase) v u₂ 0 false
  unfold strtoul
  rw [hdrop]
  dsimp only
  rw [h₁, h₂]
  split
  · exact ⟨u₃, hu₃.trans (hu₂.trans hu₁), h₃⟩
  · exact ⟨d :: u, List.suffix_rfl, rfl⟩

/-- Without a number nothing is scanned. -/
theorem strtoul_stop (hc : Stop c) (hs : isspace c = false) (v : Text) :
    (strtoul (c :: v)).2 = c :: v := by
  have hdrop : (c :: v).dropWhile isspace = c :: v := by
    rw [List.dropWhile_cons_of_neg (by simp [hs])]
  obtain ⟨u₁, hu₁, h₁⟩ := scanSign_within hc [] v
  obtain ⟨hbase, u₂, hu₂, h₂⟩ := scanBase_within hc [] v
  rw [List.suffix_nil.mp hu₁] at h₁
  rw [List.suffix_nil.mp hu₂] at h₂
  rw [List.nil_append] at h₁ h₂ hbase
  unfold strtoul
  rw [hdrop]
  dsimp only
  rw [h₁, h₂, scanDigits, hc.digit _ hbase]
  rfl

end

/-- White space is skipped up to the next other character. -/
theorem skip_within (rest : Text) : ∀ u : Text,
    ((∀ c ∈ u, isspace c = true) ∧ skipWhiteSpace (u ++ rest) = skipWhiteSpace rest)
      ∨ ∃ d v, d :: v <:+ u ∧ isspace d = false ∧ skipWhiteSpace (u ++ rest) = d :: v ++ rest
  | [] => .inl ⟨by simp, rfl⟩
  | c :: u => by
      by_cases hc : isspace c = true
      · have hskip : skipWhiteSpace (c :: u ++ rest) = skipWhiteSpace (u ++ rest) :=
          List.dropWhile_cons_of_pos hc
        rcases skip_within rest u with ⟨hall, h⟩ | ⟨d, v, hsuffix, hd, h⟩
        · refine .inl ⟨fun d hd => ?_, hskip.trans h⟩
          rcases List.mem_cons.mp hd with rfl | hd
          · exact hc
          · exact hall d hd
        · exact .inr ⟨d, v, hsuffix.trans (List.suffix_cons c u), hd, hskip.trans h⟩
      · exact .inr ⟨c, u, List.suffix_rfl, by simpa using hc, List.dropWhile_cons_of_neg hc⟩

/-! ## What is taken for the length of the text -/

theorem word_large {a b c d : UInt8} (h : c ≠ 0 ∨ d ≠ 0) (t : Text) :
    2 ^ 16 ≤ wordOf ((a :: b :: c :: d :: t).take 4) := by
  have hpos : 0 < c.toNat ∨ 0 < d.toNat := by
    simpa only [Nat.pos_iff_ne_zero, ne_eq, ← UInt8.toNat_inj, UInt8.toNat_zero] using h
  simp only [List.take_succ_cons, List.take_zero, wordOf]
  omega

/-- Two bytes that are no NUL in front of a word that is not zero. -/
theorem window_filled : ∀ {w : Text}, (∀ c ∈ w, c ≠ 0) → 2 ≤ w.length → ∀ {a b : UInt8},
    (a ≠ 0 ∨ b ≠ 0) → ∀ t : Text, 2 ^ 16 ≤ wordOf ((w ++ a :: b :: t).take 4)
  | [c, d], hw, hlen, a, b, h, t => word_large h t
  | [c, d, e], hw, hlen, a, b, h, t => word_large (.inl (hw e (by simp))) (b :: t)
  | c :: d :: e :: f :: w, hw, hlen, a, b, h, t =>
      word_large (.inl (hw e (by simp))) (w ++ a :: b :: t)

/-- The two low bytes of the length of a text that fits. -/
theorem length_bytes {n : Nat} (hn : n < MsgDesc.bufSize) :
    ∃ a b : UInt8, leBytes 4 (n + 1) = [a, b, 0, 0] ∧ a.toNat + 256 * b.toNat = n + 1
      ∧ b.toNat ≤ 4 := by
  unfold MsgDesc.bufSize at hn
  have ha : (UInt8.ofNat (n + 1)).toNat = (n + 1) % 256 := UInt8.toNat_ofNat'
  have hb : (UInt8.ofNat ((n + 1) / 256)).toNat = (n + 1) / 256 % 256 := UInt8.toNat_ofNat'
  have hhigh : (n + 1) / 256 / 256 = 0 := by omega
  refine ⟨UInt8.ofNat (n + 1), UInt8.ofNat ((n + 1) / 256), ?_, by omega, by omega⟩
  simp only [leBytes, hhigh, Nat.zero_div]
  rfl

theorem stop_small : ∀ {b : UInt8}, b.toNat ≤ 4 → Stop b ∧ isspace b = false := by
  intro b hb
  have hcases : b = 0 ∨ b = 1 ∨ b = 2 ∨ b = 3 ∨ b = 4 := by
    simp only [← UInt8.toNat_inj]
    have : b.toNat = 0 ∨ b.toNat = 1 ∨ b.toNat = 2 ∨ b.toNat = 3 ∨ b.toNat = 4 := by omega
    exact this
  rcases hcases with rfl | rfl | rfl | rfl | rfl <;> exact ⟨⟨by decide, by decide⟩, by decide⟩

/-- What is left of a descriptor when the parser has read what it takes for
the id. -/
def idRest (t : Text) : Text :=
  (readU32 (skipWhiteSpace (readU32 (skipWhiteSpace (readStringUntilWhitespace
    (skipWhiteSpace (readU64 t).2)).2)).2)).2

theorem decimal_graph (z : Int) : ∀ c ∈ decimal z, isspace c = false ∧ c ≠ 0 := by
  have hdigit : ∀ d < 10, isspace (digitChar d) = false ∧ digitChar d ≠ 0 := by decide
  have hnumeral : ∀ c ∈ numeral 10 z.natAbs, isspace c = false ∧ c ≠ 0 := by
    intro c hc
    unfold numeral at hc
    split at hc
    · rw [List.mem_singleton.mp hc]
      decide
    · obtain ⟨d, hd, rfl⟩ := List.mem_map.mp hc
      exact hdigit d (Nat.digits_lt_base (by omega) (List.mem_reverse.mp hd))
  intro c hc
  unfold decimal at hc
  split at hc
  · rcases List.mem_cons.mp hc with rfl | hc
    · decide
    · exact hnumeral c hc
  · exact hnumeral c hc

theorem skip_blank (t : Text) : skipWhiteSpace (32 :: t) = skipWhiteSpace t :=
  List.dropWhile_cons_of_pos rfl

/-- One word with nothing but white space behind it. -/
theorem harmless_iff (name : Text) : Harmless name ↔ skipWhiteSpace name ≠ []
    ∧ ∀ c ∈ (readStringUntilWhitespace (skipWhiteSpace name)).2, isspace c = true := by
  constructor
  · rintro ⟨pre, word, post, rfl, hpre, hne, hword, hpost⟩
    obtain ⟨c, cs, rfl⟩ := List.exists_cons_of_ne_nil hne
    have hskip : skipWhiteSpace (pre ++ (c :: cs ++ post)) = c :: cs ++ post := by
      rw [skipWhiteSpace, List.dropWhile_append_of_pos hpre, List.cons_append,
        List.dropWhile_cons_of_neg (by simp [hword c])]
    have hall : ∀ d ∈ c :: cs, (!isspace d) = true := fun d hd => by simp [hword d hd]
    rw [hskip]
    refine ⟨List.cons_ne_nil _ _, fun d hd => hpost d ?_⟩
    rw [readStringUntilWhitespace, List.dropWhile_append_of_pos hall] at hd
    exact (List.dropWhile_suffix _).subset hd
  · rintro ⟨hne, hpost⟩
    obtain ⟨d, v, hd⟩ := List.exists_cons_of_ne_nil hne
    have hdspace : isspace d = false := by
      have hhead := List.head?_dropWhile_not isspace name
      have hdrop : name.dropWhile isspace = d :: v := hd
      rw [hdrop] at hhead
      simpa using hhead
    refine ⟨name.takeWhile isspace, (readStringUntilWhitespace (skipWhiteSpace name)).1, _, ?_,
      fun c hc => List.mem_takeWhile_imp hc, ?_, fun c hc => ?_, hpost⟩
    · unfold readStringUntilWhitespace skipWhiteSpace
      rw [List.takeWhile_append_dropWhile, List.takeWhile_append_dropWhile]
    · rw [hd, readStringUntilWhitespace,
        List.takeWhile_cons_of_pos (p := fun c => !isspace c) (by simp [hdspace])]
      exact List.cons_ne_nil _ _
    · simpa using List.mem_takeWhile_imp (p := fun c => !isspace c) hc

section

variable {name : Text} {lineno : Int32} {msgId : UInt32} {text key : Text}

/-- A name of white space: the line number is the name, the id is the line
number, and the id is looked for in the length of the text. -/
theorem idRest_spaces (tsc : UInt64) (hname : ∀ c ∈ name, isspace c = true) (z : Text) :
    idRest (MessageParser.descBytes tsc name lineno msgId text key ++ z)
      = (readU32 (skipWhiteSpace (leBytes 4 (text.length + 1) ++ (text ++ 0 ::
          (leBytes 4 (key.length + 1) ++ (key ++ z)))))).2 := by
  have hskip : ∀ t, skipWhiteSpace (32 :: (name ++ 32 :: (decimal lineno.toInt ++ t)))
      = decimal lineno.toInt ++ t := by
    intro t
    rw [skip_blank, skipWhiteSpace, List.dropWhile_append_of_pos hname]
    exact skipWhiteSpace_decimal _ _
  have hline : ∀ t, readStringUntilWhitespace (decimal lineno.toInt ++ 32 :: t)
      = (decimal lineno.toInt, 32 :: t) :=
    readStringUntilWhitespace_append fun c hc => (decimal_graph _ c hc).1
  unfold idRest MessageParser.descBytes pstringL
  simp only [List.append_assoc, List.cons_append, List.nil_append, readU64_decimal, hskip, hline]
  rw [skipWhiteSpace_decimal, readU32_decimal, skip_blank]

variable (lineno msgId text key) in
/-- A name with white space inside: the id ends inside the name or behind the
line number, but not in the length of the text. -/
theorem idRest_word (tsc : UInt64) (hname : ∀ c ∈ name, c ≠ 0)
    (hspace : ¬ ∀ c ∈ name, isspace c = true) (h : ¬ Harmless name) (z : Text) :
    ∃ y, (∀ c ∈ y, c ≠ 0)
      ∧ idRest (MessageParser.descBytes tsc name lineno msgId text key ++ z)
        = y ++ 32 :: (decimal msgId.toInt32.toInt ++ 32 :: (leBytes 4 (text.length + 1) ++ (text ++
          0 :: (leBytes 4 (key.length + 1) ++ (key ++ z))))) := by
  -- the first word, and what stands behind it
  have hne : skipWhiteSpace name ≠ [] := by
    intro hnil
    exact hspace (by simpa [skipWhiteSpace] using hnil)
  have hpost := fun hall => h ((harmless_iff name).mpr ⟨hne, hall⟩)
  have hsuffix : (readStringUntilWhitespace (skipWhiteSpace name)).2 <:+ name :=
    (List.dropWhile_suffix _).trans (List.dropWhile_suffix _)
  have hread : ∀ t, (readStringUntilWhitespace (skipWhiteSpace (32 :: (name ++ 32 :: t)))).2
      = (readStringUntilWhitespace (skipWhiteSpace name)).2 ++ 32 :: t := by
    intro t
    have hskip : skipWhiteSpace (name ++ 32 :: t) = skipWhiteSpace name ++ 32 :: t := by
      have hempty : ¬ (name.dropWhile isspace).isEmpty = true := by
        rw [List.isEmpty_iff]
        exact hne
      rw [skipWhiteSpace, List.dropWhile_append, if_neg hempty]
      rfl
    rw [skip_blank, hskip]
    unfold readStringUntilWhitespace
    dsimp only
    rw [List.dropWhile_append]
    split
    · rename_i hnil
      rw [List.isEmpty_iff.mp hnil]
      rfl
    · rfl
  generalize (readStringUntilWhitespace (skipWhiteSpace name)).2 = post at hpost hsuffix hread
  unfold idRest MessageParser.descBytes pstringL
  simp only [List.append_assoc, List.cons_append, List.nil_append, readU64_decimal, hread]
  generalize leBytes 4 (text.length + 1) ++ (text ++ 0 :: (leBytes 4 (key.length + 1) ++
    (key ++ z))) = rest
  -- what is read as the line number starts inside the name
  rcases skip_within (32 :: (decimal lineno.toInt ++ 32 :: (decimal msgId.toInt32.toInt ++
    32 :: rest))) post with ⟨hall, -⟩ | ⟨d, v, hdv, hd, h₁⟩
  · exact absurd hall hpost
  obtain ⟨u, hu, h₂⟩ := strtoul_within stop_blank (u := v) hd (decimal lineno.toInt ++
    32 :: (decimal msgId.toInt32.toInt ++ 32 :: rest))
  have h₂' : (readU32 (d :: v ++ 32 :: (decimal lineno.toInt ++
      32 :: (decimal msgId.toInt32.toInt ++ 32 :: rest)))).2
    = u ++ 32 :: (decimal lineno.toInt ++ 32 :: (decimal msgId.toInt32.toInt ++ 32 :: rest)) := h₂
  have hune : ∀ c ∈ u, c ≠ 0 := fun c hc =>
    hname c (hsuffix.subset (hdv.subset (hu.subset hc)))
  rw [h₁, h₂']
  -- the id is the line number, or it starts inside the name, too
  rcases skip_within (32 :: (decimal lineno.toInt ++ 32 :: (decimal msgId.toInt32.toInt ++
    32 :: rest))) u with ⟨-, h₃⟩ | ⟨e, w, hew, he, h₃⟩
  · refine ⟨[], by simp, ?_⟩
    rw [h₃, skipWhiteSpace_decimal, readU32_decimal, List.nil_append]
  · obtain ⟨x, hx, h₄⟩ := strtoul_within stop_blank (u := w) he (decimal lineno.toInt ++
      32 :: (decimal msgId.toInt32.toInt ++ 32 :: rest))
    refine ⟨x ++ 32 :: decimal lineno.toInt, ?_, ?_⟩
    · intro c hc
      rcases List.mem_append.mp hc with hc | hc
      · exact hune c (hew.subset (hx.subset hc))
      · rcases List.mem_cons.mp hc with rfl | hc
        · decide
        · exact (decimal_graph _ c hc).2
    · rw [h₃, List.append_assoc]
      exact h₄

/-- What is read behind a name of white space if there is a text: the low
bytes of its length may be white space or digits, the others are zero. -/
theorem word_behind_length {a b t : UInt8} (hstop : Stop b) (hbspace : isspace b = false)
    (ht : t ≠ 0) (e : UInt8) (es : List UInt8) :
    2 ^ 16 ≤ wordOf (((readU32 (skipWhiteSpace (a :: b :: 0 :: 0 :: t :: e :: es))).2.drop 1).take
      4) := by
  by_cases ha : isspace a = true
  · have hskip : skipWhiteSpace (a :: b :: 0 :: 0 :: t :: e :: es) = b :: 0 :: 0 :: t :: e :: es := by
      rw [skipWhiteSpace, List.dropWhile_cons_of_pos ha,
        List.dropWhile_cons_of_neg (by simp [hbspace])]
    have hread : (readU32 (b :: 0 :: 0 :: t :: e :: es)).2 = b :: 0 :: 0 :: t :: e :: es :=
      strtoul_stop hstop hbspace _
    rw [hskip, hread]
    exact word_large (.inl ht) es
  · have hskip : skipWhiteSpace (a :: b :: 0 :: 0 :: t :: e :: es)
        = a :: b :: 0 :: 0 :: t :: e :: es := List.dropWhile_cons_of_neg ha
    obtain ⟨u, hu, hread⟩ := strtoul_within hstop (u := []) (by simpa using ha)
      (0 :: 0 :: t :: e :: es)
    have hread' : (readU32 (a :: b :: 0 :: 0 :: t :: e :: es)).2
        = u ++ b :: 0 :: 0 :: t :: e :: es := hread
    rw [hskip, hread']
    rcases List.suffix_cons_iff.mp hu with rfl | hu
    · exact word_large (.inr ht) (e :: es)
    · rw [List.suffix_nil.mp hu]
      exact word_large (.inl ht) es

/-- A name of white space: the length is read from the true length and the
bytes behind it. -/
theorem window_spaces (tsc : UInt64) (hspace : ∀ c ∈ name, isspace c = true)
    (htext : text.length < MsgDesc.bufSize) (hhead : text.head? ≠ some 0) (z : Text) :
    wordOf (((idRest (MessageParser.descBytes tsc name lineno msgId text key ++ z)).drop 1).take 4)
        = 0
      ∨ 2 ^ 16 ≤ wordOf (((idRest (MessageParser.descBytes tsc name lineno msgId text key
        ++ z)).drop 1).take 4) := by
  obtain ⟨a, b, hlen, hab, hb⟩ := length_bytes htext
  obtain ⟨hstop, hbspace⟩ := stop_small hb
  rw [idRest_spaces tsc hspace, hlen]
  cases text with
  | nil =>
    rw [List.length_nil] at hab
    obtain ⟨hastop, haspace⟩ := stop_small (b := a) (by omega)
    have hb0 : b.toNat = 0 := by omega
    simp only [List.cons_append, List.nil_append]
    rw [skipWhiteSpace, List.dropWhile_cons_of_neg (by simp [haspace])]
    have hread : (readU32 (a :: b :: 0 :: 0 :: 0 :: (leBytes 4 (key.length + 1) ++ (key ++ z)))).2
        = a :: b :: 0 :: 0 :: 0 :: (leBytes 4 (key.length + 1) ++ (key ++ z)) :=
      strtoul_stop hastop haspace _
    rw [hread]
    left
    simp [wordOf, hb0]
  | cons t ts =>
    obtain ⟨e, es, he⟩ : ∃ e es, ts ++ 0 :: (leBytes 4 (key.length + 1) ++ (key ++ z)) = e :: es :=
      List.exists_cons_of_ne_nil (by simp)
    simp only [List.cons_append, List.nil_append, he]
    exact .inr (word_behind_length hstop hbspace (by simpa using hhead) e es)

/-- A name with white space inside: the length is read from the bytes in front
of the true one. -/
theorem window_word (tsc : UInt64) (hname : ∀ c ∈ name, c ≠ 0)
    (hspace : ¬ ∀ c ∈ name, isspace c = true) (h : ¬ Harmless name)
    (htext : text.length < MsgDesc.bufSize) (z : Text) :
    2 ^ 16 ≤ wordOf (((idRest (MessageParser.descBytes tsc name lineno msgId text key
      ++ z)).drop 1).take 4) := by
  obtain ⟨a, b, hlen, hab, -⟩ := length_bytes htext
  obtain ⟨y, hy, hrest⟩ := idRest_word lineno msgId text key tsc hname hspace h z
  obtain ⟨c, cs, hc, -, hc0⟩ := decimal_head msgId.toInt32.toInt []
  rw [List.append_nil] at hc
  have hnz : a ≠ 0 ∨ b ≠ 0 := by
    simp only [ne_eq, ← UInt8.toNat_inj, UInt8.toNat_zero]
    omega
  -- everything in front of the length of the text
  have hsplit : y ++ 32 :: (decimal msgId.toInt32.toInt ++ 32 :: ([a, b, 0, 0] ++ (text ++
        0 :: (leBytes 4 (key.length + 1) ++ (key ++ z)))))
      = (y ++ 32 :: (decimal msgId.toInt32.toInt ++ [32])) ++ a :: b :: (0 :: 0 :: (text ++
        0 :: (leBytes 4 (key.length + 1) ++ (key ++ z)))) := by
    simp
  have hne : ∀ e ∈ y ++ 32 :: (decimal msgId.toInt32.toInt ++ [32]), e ≠ 0 := by
    intro e he
    simp only [List.mem_append, List.mem_cons, List.not_mem_nil, or_false] at he
    rcases he with he | rfl | he | rfl
    · exact hy e he
    · decide
    · exact (decimal_graph _ e he).2
    · decide
  have hlong : 1 ≤ (y ++ 32 :: (decimal msgId.toInt32.toInt ++ [32])).length := by
    simp only [List.length_append, List.length_cons]
    omega
  rw [hrest, hlen, hsplit, List.drop_append_of_le_length hlong]
  refine window_filled (fun e he => hne e (List.mem_of_mem_drop he)) ?_ hnz _
  rw [List.length_drop, hc]
  simp only [List.length_append, List.length_cons]
  omega

/-- The length that is read for the text is none, or 64 KiB and more. -/
theorem window_large (tsc : UInt64) (hname : ∀ c ∈ name, c ≠ 0) (h : ¬ Harmless name)
    (htext : text.length < MsgDesc.bufSize) (hhead : text.head? ≠ some 0) (z : Text) :
    wordOf (((idRest (MessageParser.descBytes tsc name lineno msgId text key ++ z)).drop 1).take 4)
        = 0
      ∨ 2 ^ 16 ≤ wordOf (((idRest (MessageParser.descBytes tsc name lineno msgId text key
        ++ z)).drop 1).take 4) := by
  by_cases hspace : ∀ c ∈ name, isspace c = true
  · exact window_spaces tsc hspace htext hhead z
  · exact .inr (window_word tsc hname hspace h htext z)

end

/-! ## The parser -/

/-- A message that is read has a length that fits what can be read. -/
theorem readMessageAt_window {mem : List UInt8} {version : UInt32} (hv : 3 ≤ version)
    {index : UInt32} {p : Nat} {r : Message × Nat}
    (h : MessageParser.readMessageAt mem version index p = some r)
    (hmem : (mem.drop p).length ≤ 2 ^ 16) :
    wordOf (((idRest (mem.drop p)).drop 1).take 4) ≠ 0
      ∧ wordOf (((idRest (mem.drop p)).drop 1).take 4) < 2 ^ 16 := by
  simp only [MessageParser.readMessageAt, Option.bind_eq_bind, Option.bind_eq_some_iff] at h
  obtain ⟨tsc, h₁, p₁, h₂, filename, h₃, p₃, h₄, lineNo, h₅, msgId, h₆, text, h₇, -⟩ := h
  obtain ⟨l₁, e₁⟩ := MessageParser.readU64At_eq h₁
  obtain ⟨l₂, e₂⟩ := MessageParser.skipWhiteSpaceAt_eq h₂
  obtain ⟨l₃, e₃⟩ := MessageParser.readStringUntilWhitespaceAt_eq h₃
  obtain ⟨l₄, e₄⟩ := MessageParser.skipWhiteSpaceAt_eq h₄
  obtain ⟨l₅, e₅⟩ := MessageParser.readU32At_eq h₅
  obtain ⟨l₆, e₆⟩ := MessageParser.readMsgIdAt_eq h₆
  rw [if_pos hv] at e₆
  have hrest : (idRest (mem.drop p)).drop 1 = mem.drop (msgId.2 + 1) := by
    unfold idRest
    rw [e₁, e₂, e₃, e₄, e₅, e₆, List.drop_drop]
  rw [hrest]
  unfold MessageParser.readPStringAt at h₇
  dsimp only at h₇
  rw [Option.ite_none_right_eq_some] at h₇
  obtain ⟨hle, -⟩ := h₇
  have hword := MessageParser.wordOf_lt ((mem.drop (msgId.2 + 1)).take 4)
  have hpow : 256 ^ ((mem.drop (msgId.2 + 1)).take 4).length ≤ 256 ^ 4 :=
    Nat.pow_le_pow_right (by omega) (List.length_take_le _ _)
  rw [List.length_drop] at hle hmem
  omega

/-- At a descriptor `parse` reads a message. -/
theorem parseAt_strange {mem rest : List UInt8} (ps : MessageParser) (d : StrangeDescriptor)
    (hmore : ps.more = true) (h : mem.drop ps.p = d.bytes ++ rest) :
    MessageParser.parseAt mem ps
      = (MessageParser.readMessageAt mem ps.version (ps.index + 1) ps.p).map fun r =>
        (r.1, { ps with index := ps.index + 1, p := r.2 }) := by
  rw [d.bytes_eq, List.append_assoc] at h
  exact MessageParser.parseAt_descBytes hmore h

/-- The bytes that can be read: the file and what stands behind its end. -/
def memOf (mapped : List UInt8) (before : List Descriptor) (d : StrangeDescriptor)
    (after : List Descriptor) (tail : List UInt8) : List UInt8 :=
  mapped ++ (Mapping.bytesOf before ++ (d.bytes ++ (Mapping.bytesOf after ++ tail)))

section

variable {mapped tail : List UInt8} {before after : List Descriptor} {d : StrangeDescriptor}
  {ps : MessageParser}

variable (tail) in
/-- The loop reads what stands in front of the strange descriptor. -/
theorem rounds_before (hv : 3 ≤ ps.version) (hp : ps.p = mapped.length)
    (hend : ps.end_ = (memOf mapped before d after []).length) (n : Nat) :
    ∃ index, MessageParser.rounds (memOf mapped before d after tail) Mapping.keep
        (before.length + n) [] ps
      = MessageParser.rounds (memOf mapped before d after tail) Mapping.keep n
        (before.map Descriptor.message)
        { ps with index, p := mapped.length + (Mapping.bytesOf before).length } := by
  have hdrop : (memOf mapped before d after tail).drop ps.p
      = Mapping.bytesOf before ++ (d.bytes ++ (Mapping.bytesOf after ++ tail)) := by
    rw [hp, memOf, List.drop_left]
  have hle : ps.p + (Mapping.bytesOf before).length ≤ ps.end_ := by
    rw [hp, hend, memOf, List.length_append, List.length_append]
    omega
  obtain ⟨index, h⟩ := MessageParser.rounds_descriptors n before ps hv (Shown.of_append hdrop) hle
    (Mapping.useAll_keep _ [])
  rw [hp, List.nil_append] at h
  exact ⟨index, h⟩

variable (mapped tail before after d) in
/-- Where the strange descriptor stands. -/
theorem drop_before : (memOf mapped before d after tail).drop
      (mapped.length + (Mapping.bytesOf before).length)
    = d.bytes ++ (Mapping.bytesOf after ++ tail) := by
  rw [memOf, ← List.length_append, ← List.append_assoc, List.drop_left]

theorem more_before {index : UInt32} (hend : ps.end_ = (memOf mapped before d after []).length) :
    ({ ps with index, p := mapped.length + (Mapping.bytesOf before).length } :
      MessageParser).more = true := by
  unfold MessageParser.more
  rw [decide_eq_true_eq]
  dsimp only
  rw [hend, memOf, d.bytes_eq]
  simp only [List.length_append, List.length_cons]
  omega

/-- One word, perhaps with white space around it, is read as it is. -/
theorem returns_harmless (hv : 3 ≤ ps.version) (hp : ps.p = mapped.length)
    (hend : ps.end_ = (memOf mapped before d after []).length) (h : Harmless d.filename) :
    ReturnsOthers (memOf mapped before d after tail) ps before after := by
  obtain ⟨pre, word, post, hname, hpre, hne, hword, hpost⟩ := h
  obtain ⟨index, hbefore⟩ := rounds_before tail hv hp hend (after.length + 1 + 1)
  have hlength : d.bytes.length = (MessageParser.descBytes d.tsc (pre ++ (word ++ post)) d.lineno
      d.msgId d.text d.key).length + 1 := by
    rw [d.bytes_eq, hname, List.length_append, List.length_singleton]
  -- the strange descriptor
  have hat := drop_before mapped tail before after d
  have hfrom : (memOf mapped before d after tail).drop
        (mapped.length + (Mapping.bytesOf before).length)
      = MessageParser.descBytes d.tsc (pre ++ (word ++ post)) d.lineno d.msgId d.text d.key
        ++ (0 :: (Mapping.bytesOf after ++ tail)) := by
    rw [hat, d.bytes_eq, hname, List.append_assoc, List.singleton_append]
  have hread := MessageParser.readMessageAt_descBytes hv (index + 1) hpre hne hword hpost
    d.text_length d.key_length hfrom
  rw [Nat.add_assoc, ← hlength] at hread
  have hparse := parseAt_strange { ps with
    index, p := mapped.length + (Mapping.bytesOf before).length } d (more_before hend) hat
  dsimp only at hparse
  rw [hread, Option.map_some] at hparse
  -- what stands behind it
  have hdrop := drop_append hat
  have hstop : mapped.length + (Mapping.bytesOf before).length + d.bytes.length
      + (Mapping.bytesOf after).length = ps.end_ := by
    rw [hend, memOf, List.append_nil]
    simp only [List.length_append]
    omega
  obtain ⟨index', hafter⟩ := MessageParser.rounds_ended after { ps with
    index := index + 1, p := mapped.length + (Mapping.bytesOf before).length + d.bytes.length } hv
    (Shown.of_append hdrop) hstop (Mapping.useAll_keep _ _)
  refine ⟨before.length + (after.length + 1 + 1),
    [⟨d.tsc, d.msgId, d.lineno.toUInt32, word, d.text, d.key⟩],
    { ps with index := index', p := ps.end_ }, ?_⟩
  rw [hbefore, MessageParser.rounds, if_pos (more_before hend), hparse]
  dsimp only [Mapping.keep]
  exact hafter

/-- Otherwise the program ends at the strange descriptor. -/
theorem parseAt_none (hv : 3 ≤ ps.version)
    (hend : ps.end_ = (memOf mapped before d after []).length) (h : ¬ Harmless d.filename)
    (hhead : d.text.head? ≠ some 0)
    (hlen : (d.bytes ++ (Mapping.bytesOf after ++ tail)).length ≤ 2 ^ 16) (index : UInt32) :
    MessageParser.parseAt (memOf mapped before d after tail)
      { ps with index, p := mapped.length + (Mapping.bytesOf before).length } = none := by
  have hat := drop_before mapped tail before after d
  rw [parseAt_strange _ d (more_before hend) hat, Option.map_eq_none_iff]
  rw [← Option.not_isSome_iff_eq_none, Option.isSome_iff_exists]
  rintro ⟨r, hr⟩
  have hwindow := readMessageAt_window hv hr (by rw [hat]; exact hlen)
  rw [hat, d.bytes_eq, List.append_assoc] at hwindow
  rcases window_large d.tsc d.filename_ne h d.text_length hhead
    ([0] ++ (Mapping.bytesOf after ++ tail)) with hzero | hlarge
  · exact hwindow.1 hzero
  · exact Nat.lt_irrefl _ (Nat.lt_of_lt_of_le hwindow.2 hlarge)

/-- Then the loop does not come to its end. -/
theorem not_returns (hv : 3 ≤ ps.version) (hp : ps.p = mapped.length)
    (hend : ps.end_ = (memOf mapped before d after []).length) (h : ¬ Harmless d.filename)
    (hhead : d.text.head? ≠ some 0)
    (hlen : (d.bytes ++ (Mapping.bytesOf after ++ tail)).length ≤ 2 ^ 16) :
    ¬ ReturnsOthers (memOf mapped before d after tail) ps before after := by
  rintro ⟨n, found, ps', hended⟩
  obtain ⟨index, hrounds⟩ := rounds_before tail hv hp hend 1
  have hstop : MessageParser.rounds (memOf mapped before d after tail) Mapping.keep 1
      (before.map Descriptor.message)
      { ps with index, p := mapped.length + (Mapping.bytesOf before).length }
      = .stopped (before.map Descriptor.message) := by
    rw [MessageParser.rounds, if_pos (more_before hend), parseAt_none hv hend h hhead hlen]
  exact MessageParser.not_ended_of_stopped (hrounds.trans hstop) n _ _ hended

end

/-- For every list of descriptors with a strange one among them, in every
trace file: the parser comes to the end of the file and returns the others if
the name of the strange one is one word, perhaps with white space around it. If
no more than 64 KiB stand from there on and its text does not start with a NUL,
it does so only then. -/
theorem returns_iff {mappedSize : Nat} {mapped : List UInt8}
    (hm : mapped.length = mappedSize + FileTrailerSize) (before : List Descriptor)
    (d : StrangeDescriptor) (after : List Descriptor) (tail : List UInt8) :
    (Harmless d.filename → ReturnsOthers (memOf mapped before d after tail)
        (.initialized (.ofSize mappedSize) (memOf mapped before d after [])) before after)
      ∧ (d.text.head? ≠ some 0 → (d.bytes ++ (Mapping.bytesOf after ++ tail)).length ≤ 2 ^ 16 →
        (ReturnsOthers (memOf mapped before d after tail)
          (.initialized (.ofSize mappedSize) (memOf mapped before d after [])) before after
        ↔ Harmless d.filename)) := by
  have hv : 3 ≤ (MessageParser.initialized (.ofSize mappedSize)
      (memOf mapped before d after [])).version := show 3 ≤ (5 : UInt32) by decide
  have hp : (MessageParser.initialized (.ofSize mappedSize) (memOf mapped before d after [])).p
      = mapped.length := hm.symm
  refine ⟨returns_harmless hv hp rfl, fun hhead hlen => ⟨fun h => ?_, returns_harmless hv hp rfl⟩⟩
  by_contra hname
  exact not_returns hv hp rfl hname hhead hlen h

/-- A descriptor of a source file with a blank in its name. -/
def blankName : StrangeDescriptor where
  tsc := 7
  filename := ascii ['a', ' ', 'b']
  lineno := 5
  msgId := 1
  insertions := [.view (ascii ['x'])]
  key := ascii ['i']
  bytes := (MsgDesc.write 7 (ascii ['a', ' ', 'b']) 5 1 (ascii ['i']) [.view (ascii ['x'])]).getD []
  filename_ne := forall_mem_text (by decide)
  key_ne := forall_mem_text (by decide)
  written := by decide +kernel

/-- The file with it between two others, and zeros up to the end of the
page. -/
def blankFile (tail : List UInt8) : List UInt8 :=
  memOf (List.replicate 1024 0) [MessageParser.negativeDescriptor] blankName
    [MessageParser.smallDescriptor] tail

theorem returns_iff_blank :
    (Harmless blankName.filename → ReturnsOthers (blankFile (List.replicate 2993 0))
        (.initialized (.ofSize 0) (blankFile [])) [MessageParser.negativeDescriptor]
        [MessageParser.smallDescriptor])
      ∧ (blankName.text.head? ≠ some 0 → (blankName.bytes ++ (Mapping.bytesOf
          [MessageParser.smallDescriptor] ++ List.replicate 2993 0)).length ≤ 2 ^ 16 →
        (ReturnsOthers (blankFile (List.replicate 2993 0)) (.initialized (.ofSize 0) (blankFile []))
          [MessageParser.negativeDescriptor] [MessageParser.smallDescriptor]
        ↔ Harmless blankName.filename)) :=
  returns_iff (by rw [List.length_replicate]; rfl) _ _ _ _

/-- The program ends before it comes to the descriptor behind the strange
one. -/
theorem blank_loses : ¬ ReturnsOthers (blankFile (List.replicate 2993 0))
    (.initialized (.ofSize 0) (blankFile [])) [MessageParser.negativeDescriptor]
    [MessageParser.smallDescriptor] :=
  not_returns (show 3 ≤ (5 : UInt32) by decide) (by rw [List.length_replicate]; rfl) rfl
    (fun h => absurd ((harmless_iff _).mp h).2 (by decide +kernel)) (by decide)
    (by decide +kernel)

end StrangeName

end QuickTrace
