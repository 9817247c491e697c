/-
QuickTrace.Format.Printf — the meaning of a message format.

A text without flags, widths and precisions is a sequence of tokens: a
character, a `%%` or a conversion. `printed` says what it means for a list of
arguments, in the terms of `printf`; `mismatched` is what is shown when the
numbers differ. Both speak of decoded arguments only (`Base.decode`).

`format_tokens` says that the formatter `init` builds prints that. The loop
of `init` takes a run of characters and one token a round; `Prints` is what
the entries of a round do, and it composes.
-/
import QuickTrace.Format.Tokenizable

namespace QuickTrace.Printf

open QuickTrace.Lib

/-! ## Tokens -/

/-- One token of a text. The letter of a conversion is no length modifier
and not the flag `I`. -/
inductive Token where
  | char (c : UInt8) (hc : c ≠ 37) (h0 : c ≠ 0)
  | percent
  | conversion (modifiers : Text) (letter : UInt8)
    (hmods : ∀ c ∈ modifiers, isLengthModifier c = true) (halpha : isalpha letter = true)
    (hmod : isLengthModifier letter = false) (hI : letter ≠ 73)

/-- The spelling of a token. -/
def Token.text : Token → Text
  | .char c _ _ => [c]
  | .percent => [37, 37]
  | .conversion modifiers letter _ _ _ _ => 37 :: (modifiers ++ [letter])

/-- The text that the tokens spell. -/
def spell (ts : List Token) : Text := ts.flatMap Token.text

/-- `%%` is no conversion. -/
def Token.isConversion : Token → Bool
  | .conversion .. => true
  | _ => false

/-- How many arguments the text asks for. -/
def conversions (ts : List Token) : Nat := (ts.filter Token.isConversion).length

/-! ## Arguments -/

/-- The argument that the bytes at `a` are. The fields of a wall-clock
message are none. -/
def decode (m : Mem) (a : Nat) : Base → Option Piece
  | .u8 => some (.num (m a).toNat)
  | .u16 => some (.num (m.load a 2))
  | .u32 => some (.num (m.load a 4))
  | .u64 => some (.num (m.load a 8))
  | .char => some (.char (m a))
  | .string => some (.str (readBytes m (a + 1) (m a).toNat))
  | .bool => some (.bool (m a != 0))
  | .float => some (.float (UInt32.ofNat (m.load a 4)))
  | .double => some (.double (UInt64.ofNat (m.load a 8)))
  | .wallClock => none

/-- The arguments that the bytes from `a` on are. -/
def decodeAll (m : Mem) (a : Nat) : List Base → List (Option Piece)
  | [] => []
  | b :: bs => decode m a b :: decodeAll m (a + b.length.run m a) bs

/-- How many bytes these are. -/
def extent (m : Mem) (a : Nat) : List Base → Nat
  | [] => 0
  | b :: bs => b.length.run m a + extent m (a + b.length.run m a) bs

/-- An argument in its default form. -/
def defaultForm (ft : FloatText) : Option Piece → Text
  | some p => p.string ft Flags.initial
  | none => []

/-- An argument in hexadecimal, if it is a number. -/
def hexForm (ft : FloatText) : Option Piece → Text
  | some (.num n) => numeral 16 n
  | p => defaultForm ft p

/-- What a conversion shows: hexadecimal for `x` and `p`, with `0x` in front
for `p`. -/
def converted (ft : FloatText) (letter : UInt8) (p : Option Piece) : Text :=
  (if letter = 112 then ascii ['0', 'x'] else [])
    ++ if letter = 112 ∨ letter = 120 then hexForm ft p else defaultForm ft p

/-- What a text means for its arguments. -/
def printed (ft : FloatText) : List Token → List (Option Piece) → Text
  | .char c _ _ :: ts, ps => c :: printed ft ts ps
  | .percent :: ts, ps => 37 :: printed ft ts ps
  | .conversion _ letter _ _ _ _ :: ts, p :: ps => converted ft letter p ++ printed ft ts ps
  | _, _ => []

/-- What is shown when the numbers differ. -/
def mismatched (ft : FloatText) (msg : Text) (ps : List (Option Piece)) : Text :=
  msg ++ ascii [' ', '%', ' ', '('] ++ List.intercalate [44] (ps.map (defaultForm ft))
    ++ ascii [')', ' ']

/-! ## What entries print -/

/-- No manipulator is in force. -/
structure Neutral (fl : Flags) : Prop where
  hex : fl.hex = false
  showbase : fl.showbase = false
  showpos : fl.showpos = false
  fixed : fl.fixed = false
  width : fl.width = 0

section

variable {ft : FloatText} {fl : Flags} {os : OStream} {m : Mem} {a buf : Nat}

/-- Without manipulators a piece is shown in its default form. -/
theorem rendered_neutral (h : Neutral fl) (p : Piece) :
    p.rendered ft fl = p.string ft Flags.initial := by
  unfold Piece.rendered
  cases p with
  | str t => rfl
  | _ => simp [Piece.string, numString, h.width, h.hex, h.fixed, Flags.initial]

variable (ft) in
theorem neutral_insert (h : Neutral os.flags) (p : Piece) :
    (os.insert p).text ft = os.text ft ++ p.string ft Flags.initial
      ∧ Neutral (os.insert p).flags := by
  rw [OStream.text_insert, rendered_neutral h]
  exact ⟨rfl, h.hex, h.showbase, h.showpos, h.fixed, rfl⟩

theorem neutral_insertHex (h : Neutral os.flags) (n : Nat) :
    (insertHex os n).text ft = os.text ft ++ numeral 16 n ∧ Neutral (insertHex os n).flags := by
  refine ⟨?_, rfl, h.showbase, h.showpos, h.fixed, rfl⟩
  unfold insertHex
  rw [OStream.text_setHex, OStream.text_insert, OStream.text_setHex]
  simp [OStream.setHex, Piece.rendered, Piece.string, numString, h.width, h.showbase]

/-- Only numbers have a hex form. -/
def formOf (ft : FloatText) (isHex : Bool) (p : Option Piece) : Text :=
  if isHex then hexForm ft p else defaultForm ft p

variable (ft m a) in
/-- The formatter of a code shows the decoded argument. -/
theorem run_formatter (h : Neutral os.flags) (b : Base) (isHex : Bool) :
    ∃ os', (b.formatter isHex).run m a os = (b.length.run m a, os')
      ∧ os'.text ft = os.text ft ++ formOf ft isHex (decode m a b) ∧ Neutral os'.flags := by
  have hnum : ∀ n : Nat, ∃ os', (if isHex then insertHex os n else os.insert (.num n)) = os'
      ∧ os'.text ft = os.text ft ++ formOf ft isHex (some (.num n)) ∧ Neutral os'.flags := by
    intro n
    cases isHex with
    | true => exact ⟨_, rfl, neutral_insertHex h n⟩
    | false => exact ⟨_, rfl, neutral_insert ft h (.num n)⟩
  cases b with
  | u8 | u16 | u64 =>
    obtain ⟨os', hos, hout⟩ := hnum _
    refine ⟨os', ?_, hout⟩
    rw [← hos]
    cases isHex with
    | _ => rfl
  | u32 =>
    obtain ⟨os', hos, hout⟩ := hnum _
    refine ⟨os', ?_, hout⟩
    rw [← hos]
    cases isHex with
    | true => rfl
    | false =>
      show Formatter.run .u32 m a os = _
      rw [Formatter.run, if_neg (by rw [h.showpos]; exact Bool.false_ne_true)]
      rfl
  | string =>
    refine ⟨_, rfl, ?_, h⟩
    rw [OStream.text_write]
    cases isHex with
    | _ => rfl
  | wallClock =>
    refine ⟨os, rfl, ?_, h⟩
    cases isHex with
    | _ => exact (List.append_nil _).symm
  | char | bool | float | double =>
    cases isHex with
    | _ => exact ⟨_, rfl, neutral_insert ft h _⟩

end

/-- On a stream without manipulators the entries show `out` of the arguments,
which are the bytes of these codes, and leave it so. -/
def Prints (ft : FloatText) (es : List Entry) (bs : List Base)
    (out : List (Option Piece) → Text) : Prop :=
  ∀ (m : Mem) (buf n : Nat) (os : OStream), Neutral os.flags →
    ∃ os', MessageFormatter.formatLoop m buf es n os = (some (n + extent m (buf + n) bs), os')
      ∧ os'.text ft = os.text ft ++ out (decodeAll m (buf + n) bs) ∧ Neutral os'.flags

theorem formatLoop_append (m : Mem) (buf : Nat) : ∀ (es fs : List Entry) {n k : Nat}
    {os os' : OStream}, MessageFormatter.formatLoop m buf es n os = (some k, os') →
    MessageFormatter.formatLoop m buf (es ++ fs) n os
      = MessageFormatter.formatLoop m buf fs k os'
  | [], fs, n, k, os, os', h => by cases h; rfl
  | .formatStatic t :: es, fs, n, k, os, os', h => formatLoop_append m buf es fs h
  | .applyCFormatSpec spec :: es, fs, n, k, os, os', h => formatLoop_append m buf es fs h
  | .resetCFormatSpec :: es, fs, n, k, os, os', h => formatLoop_append m buf es fs h
  | .param f :: es, fs, n, k, os, os', h => by
      rw [MessageFormatter.formatLoop] at h
      rw [List.cons_append, MessageFormatter.formatLoop]
      split at h
      · cases h
      · rename_i hne
        rw [if_neg hne]
        exact formatLoop_append m buf es fs h

theorem extent_append (m : Mem) : ∀ (bs cs : List Base) (a : Nat),
    extent m a (bs ++ cs) = extent m a bs + extent m (a + extent m a bs) cs
  | [], cs, a => by rw [List.nil_append, extent, Nat.zero_add, Nat.add_zero]
  | b :: bs, cs, a => by
      rw [List.cons_append, extent, extent, extent_append m bs cs, ← Nat.add_assoc, Nat.add_assoc a]

theorem decodeAll_append (m : Mem) : ∀ (bs cs : List Base) (a : Nat),
    decodeAll m a (bs ++ cs) = decodeAll m a bs ++ decodeAll m (a + extent m a bs) cs
  | [], cs, a => rfl
  | b :: bs, cs, a => by
      rw [List.cons_append, decodeAll, decodeAll, decodeAll_append m bs cs, extent,
        ← Nat.add_assoc, List.cons_append]

theorem length_decodeAll (m : Mem) : ∀ (bs : List Base) (a : Nat),
    (decodeAll m a bs).length = bs.length
  | [], a => rfl
  | b :: bs, a => by
      rw [decodeAll, List.length_cons, List.length_cons, length_decodeAll m bs]

section

variable {ft : FloatText} {es fs : List Entry} {bs cs : List Base}
  {out out' : List (Option Piece) → Text}

/-- Entries one behind the other. -/
theorem Prints.append (h : Prints ft es bs out) (h' : Prints ft fs cs out') :
    Prints ft (es ++ fs) (bs ++ cs)
      (fun ps => out (ps.take bs.length) ++ out' (ps.drop bs.length)) := by
  intro m buf n os hos
  obtain ⟨os₁, h₁, htext₁, hn₁⟩ := h m buf n os hos
  obtain ⟨os₂, h₂, htext₂, hn₂⟩ := h' m buf (n + extent m (buf + n) bs) os₁ hn₁
  refine ⟨os₂, ?_, ?_, hn₂⟩
  · rw [formatLoop_append m buf es fs h₁, h₂, extent_append, Nat.add_assoc, ← Nat.add_assoc buf]
  · have hlen := length_decodeAll m bs (buf + n)
    rw [htext₂, htext₁, decodeAll_append, ← Nat.add_assoc buf, List.append_assoc]
    congr 2
    · rw [← hlen, List.take_left]
    · rw [← hlen, List.drop_left]

/-- Only the arguments there are count. -/
theorem Prints.congr (h : Prints ft es bs out)
    (hout : ∀ ps : List (Option Piece), ps.length = bs.length → out ps = out' ps) :
    Prints ft es bs out' := by
  intro m buf n os hos
  obtain ⟨os', h₁, htext, hn⟩ := h m buf n os hos
  exact ⟨os', h₁, by rw [htext, hout _ (length_decodeAll m bs _)], hn⟩

theorem prints_nil : Prints ft [] [] fun _ => [] := by
  intro m buf n os hos
  exact ⟨os, rfl, (List.append_nil _).symm, hos⟩

variable (ft) in
theorem prints_static (t : Text) : Prints ft [.formatStatic t] [] fun _ => t := by
  intro m buf n os hos
  obtain ⟨htext, hn⟩ := neutral_insert ft hos (.text t)
  exact ⟨os.insert (.text t), rfl, htext, hn⟩

variable (ft) in
/-- A parameter shows its argument. -/
theorem prints_param (b : Base) (isHex : Bool) :
    Prints ft [.param (b.formatter isHex)] [b] fun ps => formOf ft isHex (ps.headD none) := by
  intro m buf n os hos
  obtain ⟨os', hrun, htext, hn⟩ := run_formatter ft m (buf + n) hos b isHex
  have hpos : b.length.run m (buf + n) ≠ 0 := by
    cases b with
    | _ => simp [Base.length, Length.run]
  refine ⟨os', ?_, htext, hn⟩
  rw [MessageFormatter.formatLoop, hrun]
  dsimp only
  rw [if_neg hpos]
  rfl

end

/-! ## Reading tokens -/

theorem spell_cons (t : Token) (ts : List Token) : spell (t :: ts) = t.text ++ spell ts := by
  simp [spell]

/-- A letter or a length modifier is neither a flag nor a digit nor a
period nor a percent sign. -/
theorem starts_conversion {c : UInt8} (h : isLengthModifier c = true ∨ isalpha c = true ∧ c ≠ 73) :
    isFlagChar c = false ∧ isdigit c = false ∧ c ≠ 46 ∧ c ≠ 37 := by
  rcases h with h | ⟨halpha, hI⟩
  · have hmem : c ∈ ([104, 108, 113, 76, 106, 122, 90, 116] : List UInt8) := by
      simpa [isLengthModifier] using h
    exact forall_mem_text (p := fun c => isFlagChar c = false ∧ isdigit c = false ∧ c ≠ 46 ∧ c ≠ 37)
      (by decide) c hmem
  · have hrange : (65 ≤ c.toNat ∧ c.toNat ≤ 90) ∨ (97 ≤ c.toNat ∧ c.toNat ≤ 122) := by
      simpa [isalpha, isupper, islower, UInt8.le_iff_toNat_le] using halpha
    have hne : ∀ d : UInt8, d.toNat < 65 → c ≠ d := by
      rintro d hd rfl
      omega
    refine ⟨?_, ?_, hne 46 (by decide), hne 37 (by decide)⟩
    · simp [isFlagChar, hne 35 (by decide), hne 48 (by decide), hne 45 (by decide),
        hne 32 (by decide), hne 43 (by decide), hne 39 (by decide), hI]
    · have h57 : ¬ c.toNat ≤ 57 := by omega
      simp [isdigit, UInt8.le_iff_toNat_le, h57]

theorem dropWhile_modifiers : ∀ (mods : Text) {c : UInt8} {rest : Text},
    (∀ x ∈ mods, isLengthModifier x = true) → isLengthModifier c = false →
    (mods ++ c :: rest).dropWhile isLengthModifier = c :: rest
  | [], c, rest, _, hc => List.dropWhile_cons_of_neg (by simp [hc])
  | x :: mods, c, rest, hmods, hc => by
      obtain ⟨hx, hmods⟩ := List.forall_mem_cons.mp hmods
      rw [List.cons_append, List.dropWhile_cons_of_pos hx]
      exact dropWhile_modifiers mods hmods hc

/-- A conversion is found with its letter and without manipulators. -/
theorem getFormatParamSpec_conversion {mods : Text} {letter : UInt8} (rest : Text)
    (hmods : ∀ c ∈ mods, isLengthModifier c = true) (halpha : isalpha letter = true)
    (hmod : isLengthModifier letter = false) (hI : letter ≠ 73) :
    getFormatParamSpec (mods ++ letter :: rest)
      = .ok (some ⟨letter, CFormatSpec.zero, rest⟩) := by
  obtain ⟨c, t, ht, hc⟩ : ∃ c t, mods ++ letter :: rest = c :: t
      ∧ (isLengthModifier c = true ∨ isalpha c = true ∧ c ≠ 73) := by
    cases mods with
    | nil => exact ⟨letter, rest, rfl, .inr ⟨halpha, hI⟩⟩
    | cons x mods => exact ⟨x, mods ++ letter :: rest, rfl, .inl (hmods x List.mem_cons_self)⟩
  obtain ⟨hflag, hdigit, hperiod, hpercent⟩ := starts_conversion hc
  have hdrop : (mods ++ letter :: rest).dropWhile isLengthModifier = letter :: rest :=
    dropWhile_modifiers mods hmods hmod
  have hscan : scanLengthModifiers (mods ++ letter :: rest) = .ok (letter :: rest) := by
    rcases Tokenizer.scanLengthModifiers_cases (mods ++ letter :: rest) with ⟨hnil, -⟩ | ⟨-, h⟩
    · rw [hdrop] at hnil
      cases hnil
    · rw [h, hdrop]
  rw [Tokenizer.getFormatParamSpec_ne (by rw [ht]; simpa using hpercent)]
  rw [ht] at hscan ⊢
  have hflags : scanFlags (c :: t) CFormatSpec.zero = .ok (CFormatSpec.zero, c :: t) := by
    rw [scanFlags, hflag, if_neg Bool.false_ne_true]
  have hwidth : scanWidth CFormatSpec.zero (c :: t) = .ok (CFormatSpec.zero, c :: t) := by
    unfold scanWidth
    rw [List.takeWhile_cons_of_neg (by simp [hdigit])]
    rfl
  have hprecision := Tokenizer.scanPrecision_ne CFormatSpec.zero
    (t := c :: t) (by simpa using hperiod)
  rw [hflags, ok_bind]
  dsimp only
  rw [hwidth, ok_bind]
  dsimp only
  rw [hprecision, ok_bind]
  dsimp only
  rw [hscan, ok_bind]
  dsimp only
  rw [halpha, if_pos rfl]
  rfl

/-- The first token that is no character, with what stands in front of it. -/
def next : List Token → Option (Text × ParamSpec)
  | [] => none
  | .char c _ _ :: ts => (next ts).map fun q => (c :: q.1, q.2)
  | .percent :: ts => some ([], ⟨37, CFormatSpec.zero, spell ts⟩)
  | .conversion _ letter _ _ _ _ :: ts => some ([], ⟨letter, CFormatSpec.zero, spell ts⟩)

theorem nextParam_spell : ∀ ts : List Token, nextParam (spell ts) = .ok (next ts)
  | [] => rfl
  | .char c hc h0 :: ts => by
      rw [spell_cons, Token.text, List.singleton_append, nextParam, if_neg hc, nextParam_spell ts]
      rfl
  | .percent :: ts => by
      rw [spell_cons]
      rfl
  | .conversion mods letter hmods halpha hmod hI :: ts => by
      rw [spell_cons, Token.text, List.cons_append, List.append_assoc, List.singleton_append,
        nextParam, if_pos rfl, getFormatParamSpec_conversion _ hmods halpha hmod hI]
      rfl

/-- Either only characters are left, or there is a token behind some. -/
inductive Splits (ts : List Token) : Prop where
  | chars (hnext : next ts = none) (hconv : conversions ts = 0)
    (hprint : ∀ ft ps, printed ft ts ps = spell ts)
  | percent (before : Text) (us : List Token)
    (hnext : next ts = some (before, ⟨37, CFormatSpec.zero, spell us⟩))
    (hconv : conversions ts = conversions us)
    (hprint : ∀ ft ps, printed ft ts ps = before ++ [37] ++ printed ft us ps)
  | conversion (before : Text) (letter : UInt8) (us : List Token) (hl : letter ≠ 37)
    (hnext : next ts = some (before, ⟨letter, CFormatSpec.zero, spell us⟩))
    (hconv : conversions ts = conversions us + 1)
    (hprint : ∀ ft p ps, printed ft ts (p :: ps)
      = before ++ converted ft letter p ++ printed ft us ps)

theorem splits : ∀ ts : List Token, Splits ts
  | [] => .chars rfl rfl fun _ _ => rfl
  | .char c hc h0 :: ts => by
      cases splits ts with
      | chars hnext hconv hprint =>
        refine .chars (by rw [next, hnext]; rfl) hconv fun ft ps => ?_
        rw [printed, hprint, spell_cons]
        rfl
      | percent before us hnext hconv hprint =>
        refine .percent (c :: before) us (by rw [next, hnext]; rfl) hconv fun ft ps => ?_
        rw [printed, hprint]
        rfl
      | conversion before letter us hl hnext hconv hprint =>
        refine .conversion (c :: before) letter us hl (by rw [next, hnext]; rfl) hconv
          fun ft p ps => ?_
        rw [printed, hprint]
        rfl
  | .percent :: ts => .percent [] ts rfl rfl fun _ _ => rfl
  | .conversion mods letter hmods halpha hmod hI :: ts =>
      .conversion [] letter ts (Tokenizer.isalpha_ne_percent halpha) rfl rfl fun _ _ _ => rfl

theorem spell_ne_zero (ts : List Token) : ∀ c ∈ spell ts, c ≠ 0 := by
  intro c hc
  obtain ⟨t, -, hc⟩ := List.mem_flatMap.mp hc
  cases t with
  | char d hd h0 =>
    rw [List.mem_singleton.mp hc]
    exact h0
  | percent =>
    have h37 : c = 37 := by simpa [Token.text] using hc
    rw [h37]
    decide
  | conversion mods letter hmods halpha hmod hI =>
    rcases List.mem_cons.mp hc with rfl | hc
    · decide
    · rintro rfl
      rcases List.mem_append.mp hc with hc | hc
      · exact absurd (hmods 0 hc) (by decide)
      · rw [← List.mem_singleton.mp hc] at halpha
        exact absurd halpha (by decide)

/-! ## The loop over the text -/

/-- The entries of one conversion show the text in front and the argument. -/
theorem prints_paramEntries (ft : FloatText) (before : Text) (letter : UInt8) (rest : Text)
    (b : Base) :
    Prints ft (Builder.paramEntries before ⟨letter, CFormatSpec.zero, rest⟩ (.base b)) [b]
      fun ps => before ++ converted ft letter (ps.headD none) := by
  have hbefore : Prints ft (if !before.isEmpty then [.formatStatic before] else []) []
      fun _ => before := by
    cases before with
    | nil => exact prints_nil
    | cons c before => exact prints_static ft (c :: before)
  have hprefix : Prints ft (if letter == 112 then [.formatStatic (ascii ['0', 'x'])] else []) []
      fun _ => if letter = 112 then ascii ['0', 'x'] else [] := by
    by_cases h : letter = 112
    · rw [if_pos (by simpa using h)]
      simp only [if_pos h]
      exact prints_static ft _
    · rw [if_neg (by simpa using h)]
      simp only [if_neg h]
      exact prints_nil
  have hparam := prints_param ft b (Builder.isHexConversion letter)
  have hall := ((hbefore.append hprefix).append hparam)
  unfold Builder.paramEntries
  simp only [bne_self_eq_false, Bool.false_eq_true, if_false, List.append_nil]
  refine hall.congr fun ps _ => ?_
  have hform : formOf ft (Builder.isHexConversion letter) (ps.headD none)
      = if letter = 112 ∨ letter = 120 then hexForm ft (ps.headD none)
        else defaultForm ft (ps.headD none) := by
    by_cases h : letter = 112 ∨ letter = 120
    · rw [if_pos h, formOf, Builder.isHexConversion, if_pos (by simpa using h)]
    · rw [if_neg h, formOf, Builder.isHexConversion, if_neg (by simpa using h)]
  rw [converted, ← hform, ← List.append_assoc]
  rfl

theorem spell_eq_nil {ts : List Token} (h : spell ts = []) : ts = [] := by
  cases ts with
  | nil => rfl
  | cons t ts =>
    rw [spell_cons] at h
    cases t with
    | _ => cases h

/-- A loop over a text with enough codes prints it; with too few it stops in
front of the first conversion without one. -/
inductive Scans (ft : FloatText) (ts : List Token) (bs : List Base) (b : Builder) :
    Except FormatError (Text × Builder) → Prop where
  | enough (es : List Entry) (b' : Builder) (hle : conversions ts ≤ bs.length)
    (hreg : b'.reg.Exact) (hes : b'.formatters = b.formatters ++ es)
    (hptr : b'.fmtPtr = joinCodes ((bs.drop (conversions ts)).map .base))
    (hprint : Prints ft es (bs.take (conversions ts)) (printed ft ts)) :
    Scans ft ts bs b (.ok ([], b'))
  | few (c : UInt8) (rest : Text) (b' : Builder) (hlt : bs.length < conversions ts)
    (hreg : b'.reg.Exact) : Scans ft ts bs b (.ok (c :: rest, b'))

theorem scans_nil (ft : FloatText) (bs : List Base) {b : Builder} (hr : b.reg.Exact)
    (hb : b.fmtPtr = joinCodes (bs.map .base)) : Scans ft [] bs b (.ok ([], b)) :=
  .enough [] b (Nat.zero_le _) hr (List.append_nil _).symm hb prints_nil

section

variable {ft : FloatText} {ts us : List Token} {bs : List Base} {b b₁ : Builder}
  {x : Except FormatError (Text × Builder)}

/-- A percent sign that stands for itself, and then the rest. -/
theorem Scans.percent {before : Text} (hconv : conversions ts = conversions us)
    (hprint : ∀ ft ps, printed ft ts ps = before ++ [37] ++ printed ft us ps)
    (h : Scans ft us bs (b.push (.formatStatic (before ++ [37]))) x) : Scans ft ts bs b x := by
  cases h with
  | enough es b' hle hreg hes hptr hp =>
    refine .enough (.formatStatic (before ++ [37]) :: es) b' (by omega) hreg ?_
      (by rw [hconv]; exact hptr) ?_
    · rw [hes]
      simp [Builder.push]
    · rw [hconv]
      refine ((prints_static ft _).append hp).congr fun ps _ => ?_
      rw [hprint]
      rfl
  | few c rest b' hlt hreg => exact .few c rest b' (by omega) hreg

/-- A conversion with its code, and then the rest. -/
theorem Scans.conversion {before : Text} {letter : UInt8} {c : Base}
    (hconv : conversions ts = conversions us + 1)
    (hprint : ∀ ft p ps, printed ft ts (p :: ps)
      = before ++ converted ft letter p ++ printed ft us ps)
    (hadded : b₁.formatters = b.formatters
      ++ Builder.paramEntries before ⟨letter, CFormatSpec.zero, spell us⟩ (.base c))
    (h : Scans ft us bs b₁ x) : Scans ft ts (c :: bs) b x := by
  cases h with
  | enough es b' hle hreg hes hptr hp =>
    refine .enough (Builder.paramEntries before ⟨letter, CFormatSpec.zero, spell us⟩
      (.base c) ++ es) b' (by rw [hconv, List.length_cons]; omega) hreg ?_ ?_ ?_
    · rw [hes, hadded, List.append_assoc]
    · rw [hconv, List.drop_succ_cons]
      exact hptr
    · rw [hconv, List.take_succ_cons]
      refine ((prints_paramEntries ft before letter (spell us) c).append hp).congr
        fun ps hps => ?_
      cases ps with
      | nil => cases hps
      | cons p ps =>
        rw [hprint]
        rfl
  | few c rest b' hlt hreg =>
    exact .few c rest b' (by rw [hconv, List.length_cons]; omega) hreg

end

theorem scan_tokens (ft : FloatText) : ∀ (fuel : Nat) (ts : List Token) {b : Builder}
    (bs : List Base), (spell ts).length ≤ fuel → b.reg.Exact →
    b.fmtPtr = joinCodes (bs.map .base) → Scans ft ts bs b (b.scan fuel (spell ts))
  | 0, ts, b, bs, hf, hr, hb => by
      have hts : ts = [] := spell_eq_nil (List.eq_nil_of_length_eq_zero (by omega))
      subst hts
      exact scans_nil ft bs hr hb
  | fuel + 1, ts, b, bs, hf, hr, hb => by
      have hnext := nextParam_spell ts
      have hlen := @Tokenizer.nextParam_length (spell ts)
      rw [hnext] at hlen
      rw [Builder.scan]
      cases hspell : spell ts with
      | nil =>
        rw [spell_eq_nil hspell]
        exact scans_nil ft bs hr hb
      | cons c t =>
        rw [List.isEmpty_cons, if_neg Bool.false_ne_true, ← hspell, hnext, ok_bind]
        cases splits ts with
        | chars hn hconv hprint =>
          rw [hn]
          refine .enough [.formatStatic (spell ts)] _ (by omega) hr rfl (by rw [hconv]; exact hb) ?_
          rw [hconv]
          exact (prints_static ft _).congr fun ps _ => (hprint ft ps).symm
        | percent before us hn hconv hprint =>
          have hshort := hlen (by rw [hn])
          rw [hn]
          dsimp only at hshort ⊢
          rw [if_pos rfl]
          exact .percent hconv hprint (scan_tokens ft fuel us bs (by omega) hr hb)
        | conversion before letter us hl hn hconv hprint =>
          have hshort := hlen (by rw [hn])
          rw [hn]
          dsimp only at hshort ⊢
          rw [if_neg hl, hb, joinCodes_isEmpty]
          cases bs with
          | nil =>
            rw [List.map_nil, List.isEmpty_nil, if_pos rfl, hspell]
            exact .few c t b (by rw [hconv]; exact Nat.succ_pos _) hr
          | cons x bs =>
            obtain ⟨reg', hreg', hadd⟩ := Builder.addParam_joinCodes hr hb before
              ⟨letter, CFormatSpec.zero, spell us⟩
            rw [List.map_cons, List.isEmpty_cons, if_neg Bool.false_ne_true, hadd, ok_bind]
            exact .conversion hconv hprint rfl (scan_tokens ft fuel us bs (by omega) hreg' rfl)

/-! ## The fallback -/

/-- The arguments in their default forms, separated by commas. -/
theorem prints_emitEntries (ft : FloatText) : ∀ (first : Bool) (bs : List Base),
    Prints ft (Builder.emitEntries first (bs.map .base)) bs fun ps =>
      (if first || ps.isEmpty then [] else [44])
        ++ List.intercalate [44] (ps.map (defaultForm ft))
  | first, [] => by
      refine prints_nil.congr fun ps hps => ?_
      have hps : ps = [] := List.eq_nil_of_length_eq_zero hps
      subst hps
      cases first with
      | _ => rfl
  | first, b :: bs => by
      have hcomma : Prints ft (if !first then [.formatStatic (ascii [','])] else []) []
          fun _ => if first then [] else [44] := by
        cases first with
        | true => exact prints_nil
        | false => exact prints_static ft _
      have hparam := prints_param ft b false
      have hrest := prints_emitEntries ft false bs
      rw [List.map_cons, Builder.emitEntries]
      refine (hcomma.append (hparam.append hrest)).congr fun ps hps => ?_
      cases ps with
      | nil => cases hps
      | cons p ps =>
        cases ps with
        | nil => simp [formOf]
        | cons q ps => simp [formOf, List.intercalate]

/-- The fallback shows the text and behind it the arguments. -/
theorem prints_fallback (ft : FloatText) (msg : Text) (bs : List Base) :
    Prints ft (MessageFormatter.fallbackEntries msg (bs.map .base)) bs (mismatched ft msg) := by
  have hend := (prints_emitEntries ft true bs).append
    (prints_static ft (ascii [')', ' ']))
  have hopen := (prints_static ft (ascii [' ', '%', ' ', '('])).append hend
  have hall := (prints_static ft msg).append hopen
  rw [List.nil_append, List.nil_append, List.append_nil] at hall
  unfold MessageFormatter.fallbackEntries
  rw [List.append_assoc]
  refine hall.congr fun ps hps => ?_
  simp only [List.length_nil, List.drop_zero, Bool.true_or, if_true, List.nil_append, mismatched,
    List.append_assoc, ← hps, List.take_length]

/-! ## The formatter -/

/-- For every text of tokens, every key of codes of the tables and every
argument bytes: `init` builds a formatter, in the buffer and as a value, and
`format` shows what the text means, or the text and the arguments if the
numbers differ. -/
theorem format_tokens {reg : Registry} (hreg : reg.Reachable) {lineno : Nat} (hline : lineno ≠ 0)
    (ft : FloatText) (ts : List Token) (bs : List Base) :
    ∃ s mf reg', Tokenizer.init reg lineno (spell ts) (joinCodes (bs.map .base)) = .ok s
      ∧ MessageFormatter.init reg lineno (spell ts) (joinCodes (bs.map .base)) = .ok (mf, reg')
      ∧ Tokenizer.Records (spell ts) s mf reg'
      ∧ ∀ (m : Mem) (buf : Nat) (os : OStream), Neutral os.flags →
          (mf.format m buf os).1 = some (extent m buf bs)
          ∧ (mf.format m buf os).2.text ft = os.text ft
            ++ if conversions ts = bs.length then printed ft ts (decodeAll m buf bs)
               else mismatched ft (spell ts) (decodeAll m buf bs) := by
  have hmsg := spell_ne_zero ts
  have hkey := joinCodes_ne_zero (bs.map Code.base)
  have hview := Tokenizer.init_view reg lineno hmsg hkey
  have hplain : MessageFormatter.isWallClock lineno (joinCodes (bs.map .base)) = false := by
    simp [MessageFormatter.isWallClock, hline]
  have hstart : MessageFormatter.start reg lineno (joinCodes (bs.map .base))
      = { fmtPtr := joinCodes (bs.map .base), formatters := [], lengths := [], reg } := by
    rw [MessageFormatter.start, hplain, if_neg Bool.false_ne_true]
  have hscan := scan_tokens ft (spell ts).length ts (b :=
    { fmtPtr := joinCodes (bs.map .base), formatters := [], lengths := [], reg }) bs
    (Nat.le_refl _) hreg.exact rfl
  have hfinal : ∃ mf reg' out,
      MessageFormatter.init reg lineno (spell ts) (joinCodes (bs.map .base)) = .ok (mf, reg')
      ∧ Prints ft mf.formatters bs out
      ∧ ∀ ps : List (Option Piece), ps.length = bs.length → out ps
          = if conversions ts = bs.length then printed ft ts ps else mismatched ft (spell ts) ps := by
    unfold MessageFormatter.init
    rw [Tokenizer.c_str_eq hmsg, Tokenizer.c_str_eq hkey]
    dsimp only
    rw [hstart]
    revert hscan
    generalize Builder.scan (spell ts).length (spell ts) _ = x
    intro hscan
    cases hscan with
    | enough es b' hle hr hes hptr hprint =>
      rw [ok_bind, MessageFormatter.finish]
      dsimp only
      by_cases heq : conversions ts = bs.length
      · have hempty : b'.fmtPtr.isEmpty = true := by
          rw [hptr, heq, List.drop_length]
          rfl
        rw [if_neg (by simp [hempty])]
        rw [heq, List.take_length] at hprint
        refine ⟨_, _, _, rfl, ?_, fun ps _ => (if_pos heq).symm⟩
        rw [hes]
        exact hprint
      · have hne : b'.fmtPtr.isEmpty = false := by
          rw [hptr, joinCodes_isEmpty, List.isEmpty_eq_false_iff]
          intro hnil
          have hlen := congrArg List.length hnil
          rw [List.length_map, List.length_drop, List.length_nil] at hlen
          omega
        obtain ⟨reg', -, hfall⟩ := MessageFormatter.fallback_joinCodes hr (spell ts)
          (bs.map .base)
        rw [if_pos (by simp [hne]), hfall]
        exact ⟨_, _, _, rfl, prints_fallback ft (spell ts) bs, fun ps _ => (if_neg heq).symm⟩
    | few c rest b' hlt hr =>
      obtain ⟨reg', -, hfall⟩ := MessageFormatter.fallback_joinCodes hr (spell ts) (bs.map .base)
      rw [ok_bind, MessageFormatter.finish]
      dsimp only
      rw [List.isEmpty_cons, if_pos (by simp), hfall]
      exact ⟨_, _, _, rfl, prints_fallback ft (spell ts) bs,
        fun ps _ => (if_neg (by omega)).symm⟩
  obtain ⟨mf, reg', out, hinit, hprints, hout⟩ := hfinal
  obtain ⟨s, hs, hrec⟩ := hview.of_ok hinit
  refine ⟨s, mf, reg', hs, hinit, hrec, fun m buf os hos => ?_⟩
  obtain ⟨os', hrun, htext, -⟩ := hprints m buf 0 os hos
  rw [MessageFormatter.format, hrun, Nat.zero_add]
  exact ⟨rfl, by rw [htext, hout _ (length_decodeAll m bs _), Nat.add_zero]⟩

/-- A number in hexadecimal and a string, behind a `%%`. -/
theorem format_tokens_two : ∃ s mf reg',
    Tokenizer.init Registry.initial 7 (ascii ['%', '%', '%', 'l', 'x', ' ', '%', 's'])
        (joinCodes ([Base.u16, Base.string].map .base)) = .ok s
      ∧ MessageFormatter.init Registry.initial 7 (ascii ['%', '%', '%', 'l', 'x', ' ', '%', 's'])
        (joinCodes ([Base.u16, Base.string].map .base)) = .ok (mf, reg')
      ∧ Tokenizer.Records (ascii ['%', '%', '%', 'l', 'x', ' ', '%', 's']) s mf reg'
      ∧ ∀ (m : Mem) (buf : Nat) (os : OStream), Neutral os.flags →
          (mf.format m buf os).1 = some (extent m buf [.u16, .string])
          ∧ (mf.format m buf os).2.text ⟨fun _ => [], fun _ => [], fun _ _ => [], fun _ _ => []⟩
            = os.text ⟨fun _ => [], fun _ => [], fun _ _ => [], fun _ _ => []⟩
              ++ (37 :: (numeral 16 (m.load buf 2)
                ++ 32 :: (readBytes m (buf + 2 + 1) (m (buf + 2)).toNat ++ []))) :=
  format_tokens .initial (by decide) _
    [.percent, .conversion [108] 120 (forall_mem_text (by decide)) rfl rfl (by decide),
      .char 32 (by decide) (by decide),
      .conversion [] 115 (forall_mem_text (by decide)) rfl rfl (by decide)]
    [.u16, .string]

end QuickTrace.Printf
