/-
QuickTrace.Dict.QtFmtTheorems — what a `QTFMT` statement shows.

`rendered` is the meaning of a format string: its characters, and every
field replaced by a form of its argument. `msgDesc` turns the fields into
percent conversions and `init` cuts the text at percent conversions again,
so the two agree as long as no percent sign among the characters starts a
conversion (`Inert`). `scan_parts` follows the loop of `init` over the parts;
`renders` is the result for the whole way from the statement to the line.
-/
import QuickTrace.Dict.QtFmtGeneric
import QuickTrace.Format.RoundTrip

namespace QuickTrace

open QuickTrace.Lib RingBuf

/-! ## The meaning of a format string -/

/-- The integer types. -/
def Ty.isInteger : Ty → Bool
  | .u8 | .i8 | .u16 | .i16 | .u32 | .i32 | .u64 | .i64 => true
  | _ => false

namespace QtFmt

/-- A field takes an integer; the default one takes a string, too. -/
def Field.accepts : Field → Ty → Bool
  | .default, .str => true
  | _, t => t.isInteger

/-- The form of a value that was recorded. -/
def Field.form : Field → Piece → Text
  | .default, .num k => numeral 10 k
  | .hex, .num k => numeral 16 k
  | .alternateHex, .num k => (if k = 0 then [] else ascii ['0', 'x']) ++ numeral 16 k
  | _, .str x => x
  | _, _ => []

/-- The fields of a format string. -/
def fields (ps : List Part) : List Field :=
  ps.filterMap fun
    | .field f => some f
    | _ => none

/-- One argument for each field. -/
def Accepts (ps : List Part) (args : List Arg) : Prop :=
  List.Forall₂ (fun f a => Field.accepts f (Arg.ty a) = true) (fields ps) args

/-- The format string with its fields replaced. -/
def rendered (n : Nat) : List Part → List Arg → Text
  | [], _ => []
  | .field f :: ps, a :: as => f.form (a.recovered n) ++ rendered n ps as
  | .field _ :: _, [] => []
  | p :: ps, as => p.text ++ rendered n ps as

/-- No percent sign among the characters starts a conversion. -/
def Inert : List Part → Prop
  | [] => True
  | p :: ps => (p = .char 37 → getFormatParamSpec (text ps) = .ok none) ∧ Inert ps

instance : DecidablePred Inert := by
  intro ps
  induction ps with
  | nil => exact .isTrue trivial
  | cons p ps ih => unfold Inert; infer_instance

theorem Inert.append_right {ps : List Part} : ∀ (qs : List Part), Inert (qs ++ ps) → Inert ps
  | [], h => h
  | _ :: qs, h => Inert.append_right qs h.2

theorem fields_append (ps qs : List Part) : fields (ps ++ qs) = fields ps ++ fields qs :=
  List.filterMap_append ..

theorem fields_literals {qs : List Part} (h : ∀ q ∈ qs, q.isField = false) : fields qs = [] := by
  rw [fields, List.filterMap_eq_nil_iff]
  intro q hq
  cases q with
  | field f => exact absurd (h _ hq) (by simp [Part.isField])
  | _ => rfl

theorem rendered_literals (n : Nat) (rest : List Part) (args : List Arg) : ∀ {qs : List Part},
    (∀ q ∈ qs, q.isField = false) →
    rendered n (qs ++ rest) args = text qs ++ rendered n rest args
  | [], _ => rfl
  | q :: qs, h => by
      obtain ⟨hq, hqs⟩ := List.forall_mem_cons.mp h
      have ih := rendered_literals n rest args hqs
      cases q with
      | field f => cases hq
      | _ => rw [List.cons_append, rendered, ih, text_cons, List.append_assoc] <;> simp

/-! ## Finding the conversions -/

/-- The conversion of a field. -/
def Field.param (f : Field) (rest : Text) : ParamSpec where
  conversionSpecifier := if f = .default then 115 else 120
  cFormatSpec := { CFormatSpec.zero with alternate := f == .alternateHex }
  rest := rest

theorem Field.param_ne_percent (f : Field) (rest : Text) :
    (f.param rest).conversionSpecifier ≠ 37 := by
  have hne : (if f = .default then (115 : UInt8) else 120) ≠ 37 := by split <;> decide
  exact hne

theorem nextParam_field (f : Field) (rest : Text) :
    nextParam (f.text ++ rest) = .ok (some ([], f.param rest)) := by
  cases f <;> rfl

/-- A character that starts no conversion is passed over. -/
theorem nextParam_skip {c : UInt8} {cs : Text} (h : c = 37 → getFormatParamSpec cs = .ok none) :
    nextParam (c :: cs) = (nextParam cs).map (Option.map fun q => (c :: q.1, q.2)) := by
  rw [nextParam]
  by_cases hc : c = 37
  · simp only [if_pos hc, h hc]
    rcases nextParam cs with e | _ | q <;> rfl
  · simp only [if_neg hc]
    rcases nextParam cs with e | _ | q <;> rfl

/-- Characters in front of a conversion are passed over. -/
theorem nextParam_literals {rest : List Part} : ∀ {qs : List Part},
    (∀ q ∈ qs, q.isField = false) → Inert (qs ++ rest) →
    nextParam (text (qs ++ rest))
      = (nextParam (text rest)).map (Option.map fun q => (text qs ++ q.1, q.2))
  | [], _, _ => by
      rcases h : nextParam (text rest) with e | _ | q
      · rw [List.nil_append, h]; rfl
      · rw [List.nil_append, h]; rfl
      · rw [List.nil_append, h]; rfl
  | q :: qs, hq, hi => by
      obtain ⟨hq, hqs⟩ := List.forall_mem_cons.mp hq
      obtain ⟨h37, hi⟩ := hi
      have ih := nextParam_literals hqs hi
      obtain ⟨c, hc⟩ : ∃ c, q.text = [c] := by
        cases q with
        | field f => cases hq
        | _ => exact ⟨_, rfl⟩
      have hskip : c = 37 → getFormatParamSpec (text (qs ++ rest)) = .ok none := by
        intro h
        refine h37 ?_
        cases q with
        | char d =>
          cases hc
          rw [h]
        | field f => cases hq
        | openBrace => cases hc; exact absurd h (by decide)
        | closeBrace => cases hc; exact absurd h (by decide)
      rw [List.cons_append, text_cons, hc, List.singleton_append, nextParam_skip hskip, ih,
        text_cons, hc]
      rcases nextParam (text rest) with e | _ | p <;> rfl

/-! ## Showing one value -/

/-- No manipulator is in force. -/
structure Plain (os : OStream) : Prop where
  hex : os.flags.hex = false
  showbase : os.flags.showbase = false
  showpos : os.flags.showpos = false
  width : os.flags.width = 0

/-- A scalar or a string of an initial table is selected in any. -/
theorem selectFormatter_initial {reg : Registry} (hr : reg.Ok) {c : UInt8} {isHex : Bool}
    {f : Formatter} (h : (if isHex then Registry.initial.hexFormattersById
      else Registry.initial.formattersById).lookup [c] = some f) :
    (selectFormatter reg [c] isHex).1 = some f := by
  have hlook : (if isHex then reg.hexFormattersById else reg.formattersById).lookup [c]
      = some f := by
    rw [← h]
    cases isHex with
    | false => exact hr.plain.char c
    | true => exact hr.hex.char c
  unfold selectFormatter
  rw [hlook]

/-- The field's argument is selected a formatter that shows its form. -/
def Field.Shows (n : Nat) (f : Field) (a : Arg) (fm : Formatter) : Prop :=
  ∀ {m : Mem} {x : Nat} (ft : FloatText) {os : OStream}, m.Holds x (a.encode n) →
    os.flags.hex = false → os.flags.showbase = (f == .alternateHex) → os.flags.showpos = false →
    os.flags.width = 0 →
    ∃ os', fm.run m x os = ((a.encode n).length, os') ∧ os'.flags = os.flags
      ∧ os'.text ft = os.text ft ++ f.form (a.recovered n)

theorem shows_string {n : Nat} (hn : n ≤ 255) {a : Arg} (ha : a.ty = .str) :
    Field.default.Shows n a .string := by
  intro m x ft os h _ _ _ _
  cases a with
  | longStr y =>
    exact ⟨_, string_run (n := LONGSTRING_LIMIT) (by decide) h os, rfl, OStream.text_write ft os _⟩
  | val v =>
    cases v with
    | str y => exact ⟨_, string_run hn h os, rfl, OStream.text_write ft os _⟩
    | _ => cases ha

theorem rendered_num (ft : FloatText) {fl : Flags} (h : fl.width = 0) (k : Nat) :
    (Piece.num k).rendered ft fl = numString fl k := by
  simp [Piece.rendered, Piece.string, h]

theorem insert_decimal (ft : FloatText) {os : OStream} (hhex : os.flags.hex = false)
    (hw : os.flags.width = 0) (k : Nat) :
    (os.insert (.num k)).flags = os.flags
      ∧ (os.insert (.num k)).text ft = os.text ft ++ numeral 10 k := by
  refine ⟨?_, ?_⟩
  · simp only [OStream.insert, ← hw]
  · rw [OStream.text_insert, rendered_num ft hw, numString, hhex]
    rfl

theorem insert_hex (ft : FloatText) {os : OStream} (hhex : os.flags.hex = false)
    (hw : os.flags.width = 0) (k : Nat) :
    (insertHex os k).flags = os.flags
      ∧ (insertHex os k).text ft = os.text ft
          ++ ((if os.flags.showbase = true ∧ k ≠ 0 then ascii ['0', 'x'] else []) ++ numeral 16 k) := by
  refine ⟨?_, ?_⟩
  · simp only [insertHex, OStream.insert, OStream.setHex, ← hw, ← hhex]
  · rw [insertHex, OStream.text_setHex, OStream.text_insert, OStream.text_setHex,
      rendered_num ft (by exact hw), numString]
    simp [OStream.setHex]

/-- The decimal and the hex formatter of an integer insert its bits. -/
theorem integer_formatters (n : Nat) {v : Value} (hv : v.ty.isInteger = true) :
    ∃ c dec hex k, formatString v.ty = [c] ∧ v.recovered n = .num k
      ∧ Registry.initial.formattersById.lookup [c] = some dec
      ∧ Registry.initial.hexFormattersById.lookup [c] = some hex
      ∧ ∀ {m : Mem} {x : Nat} {os : OStream}, m.Holds x (v.encode n) →
          (os.flags.showpos = false →
            dec.run m x os = ((v.encode n).length, os.insert (.num k)))
          ∧ hex.run m x os = ((v.encode n).length, insertHex os k) := by
  cases v with
  | u8 y | i8 y =>
    refine ⟨_, .u8, .u8Hex, _, rfl, rfl, rfl, rfl, fun h => ⟨fun _ => ?_, ?_⟩⟩
    · rw [Formatter.run, h.1]; rfl
    · rw [Formatter.run, h.1]; rfl
  | u16 y | i16 y =>
    refine ⟨_, .u16, .u16Hex, _, rfl, rfl, rfl, rfl, fun h => ⟨fun _ => ?_, ?_⟩⟩
    · rw [Formatter.run, load_word h (UInt16.toNat_lt _)]; rfl
    · rw [Formatter.run, load_word h (UInt16.toNat_lt _)]; rfl
  | u32 y | i32 y =>
    refine ⟨_, .u32, .u32Hex, _, rfl, rfl, rfl, rfl, fun h => ⟨fun hpos => ?_, ?_⟩⟩
    · rw [Formatter.run, hpos, load_word h (UInt32.toNat_lt _)]; rfl
    · rw [Formatter.run, load_word h (UInt32.toNat_lt _)]; rfl
  | u64 y | i64 y =>
    refine ⟨_, .u64, .u64Hex, _, rfl, rfl, rfl, rfl, fun h => ⟨fun _ => ?_, ?_⟩⟩
    · rw [Formatter.run, load_word h (UInt64.toNat_lt _)]; rfl
    · rw [Formatter.run, load_word h (UInt64.toNat_lt _)]; rfl
  | _ => cases hv

/-- An integer is shown by any field. -/
theorem field_integer {reg : Registry} (hr : reg.Ok) (n : Nat) (f : Field) {v : Value}
    (hv : v.ty.isInteger = true) :
    ∃ fm, (selectFormatter reg (formatString v.ty) (f != .default)).1 = some fm
      ∧ f.Shows n (.val v) fm := by
  obtain ⟨c, dec, hex, k, hc, hrec, hdec, hhex, hrun⟩ := integer_formatters n hv
  have hrec' : (Arg.val v).recovered n = .num k := hrec
  rw [hc]
  cases f with
  | default =>
    refine ⟨dec, selectFormatter_initial hr hdec, fun ft os h h1 _ h3 h4 => ⟨_, (hrun h).1 h3, ?_⟩⟩
    rw [hrec']
    exact insert_decimal ft h1 h4 k
  | hex | alternateHex =>
    refine ⟨hex, selectFormatter_initial hr hhex, fun ft os h h1 h2 h3 h4 => ⟨_, (hrun h).2, ?_⟩⟩
    obtain ⟨hfl, htext⟩ := insert_hex ft h1 h4 k
    rw [h2] at htext
    rw [hrec', hfl, htext]
    exact ⟨rfl, by simp [Field.form]⟩

/-- Every argument a field accepts is shown. -/
theorem field_formatter {reg : Registry} (hr : reg.Ok) {n : Nat} (hn : n ≤ 255) {f : Field}
    {a : Arg} (h : f.accepts a.ty = true) :
    a.ty.Shallow ∧ ∃ fm, (selectFormatter reg (formatString a.ty) (f != .default)).1 = some fm
      ∧ f.Shows n a fm := by
  by_cases hstr : a.ty = .str
  · have hf : f = .default := by
      cases f with
      | default => rfl
      | _ => rw [hstr] at h; cases h
    subst hf
    refine ⟨by rw [hstr]; decide, .string, ?_, shows_string hn hstr⟩
    rw [hstr]
    exact selectFormatter_initial hr
      (show (if false then Registry.initial.hexFormattersById
        else Registry.initial.formattersById).lookup [112] = some .string from rfl)
  · have hint : a.ty.isInteger = true := by
      rw [← h]
      unfold Field.accepts
      split
      · rename_i heq
        exact absurd heq hstr
      · rfl
    cases a with
    | longStr x => exact absurd rfl hstr
    | val v =>
      refine ⟨?_, field_integer hr n f hint⟩
      have hv : v.ty.isInteger = true := hint
      change v.ty.Shallow
      revert hv
      cases v.ty with
      | opt t => exact fun hv => by cases hv
      | _ => exact fun _ => by decide

/-! ## Showing a line -/

/-- The entries show the parts. -/
def Prints (n : Nat) (es : List Entry) (ps : List Part) (args : List Arg) : Prop :=
  ∀ (ft : FloatText) {m : Mem} {buf k : Nat} {os : OStream}, Plain os →
    m.Holds (buf + k) (encodeArgs n args) →
    ∃ os', MessageFormatter.formatLoop m buf es k os
        = (some (k + (encodeArgs n args).length), os') ∧ Plain os'
      ∧ os'.text ft = os.text ft ++ rendered n ps args

/-- The entries of a field. -/
def Field.entries (f : Field) (fm : Formatter) : List Entry :=
  if f = .alternateHex then
    [.applyCFormatSpec { CFormatSpec.zero with alternate := true }, .param fm, .resetCFormatSpec]
  else [.param fm]

theorem prints_nil (n : Nat) : Prints n [] [] [] := fun ft {_ _ _ os} ho _ =>
  ⟨os, rfl, ho, by rw [rendered, List.append_nil]⟩

theorem Plain.text {os : OStream} (h : Plain os) (ft : FloatText) (t : Text) :
    Plain (os.insert (.text t)) ∧ (os.insert (.text t)).text ft = os.text ft ++ t := by
  refine ⟨⟨h.hex, h.showbase, h.showpos, rfl⟩, ?_⟩
  rw [OStream.text_insert]
  simp [Piece.rendered, Piece.string, h.width]

theorem Prints.static {n : Nat} {es : List Entry} {qs rest : List Part} {args : List Arg}
    (h : Prints n es rest args) (hqs : ∀ q ∈ qs, q.isField = false) :
    Prints n (.formatStatic (text qs) :: es) (qs ++ rest) args := by
  intro ft m buf k os ho hm
  obtain ⟨ho', htext⟩ := ho.text ft (text qs)
  obtain ⟨os', h1, h2, h3⟩ := h ft ho' hm
  refine ⟨os', h1, h2, ?_⟩
  rw [h3, htext, rendered_literals n _ _ hqs, List.append_assoc]

/-- One argument, under the manipulators of its field. -/
theorem Field.Shows.param {n : Nat} {f : Field} {a : Arg} {fm : Formatter} (h : f.Shows n a fm)
    (ft : FloatText) {m : Mem} {buf k : Nat} (os : OStream) (es : List Entry)
    (hm : m.Holds (buf + k) (a.encode n)) (h1 : os.flags.hex = false)
    (h2 : os.flags.showbase = (f == .alternateHex)) (h3 : os.flags.showpos = false)
    (h4 : os.flags.width = 0) :
    ∃ os', MessageFormatter.formatLoop m buf (.param fm :: es) k os
        = MessageFormatter.formatLoop m buf es (k + (a.encode n).length) os'
      ∧ os'.flags = os.flags ∧ os'.text ft = os.text ft ++ f.form (a.recovered n) := by
  obtain ⟨os', hrun, hfl, htext⟩ := h ft hm h1 h2 h3 h4
  have hpos := Arg.encode_pos n a
  refine ⟨os', ?_, hfl, htext⟩
  rw [MessageFormatter.formatLoop, hrun]
  simp only
  rw [if_neg (by omega)]

theorem Prints.field {n : Nat} {es : List Entry} {f : Field} {fm : Formatter} {ps : List Part}
    {a : Arg} {args : List Arg} (h : Prints n es ps args) (hf : f.Shows n a fm) :
    Prints n (f.entries fm ++ es) (.field f :: ps) (a :: args) := by
  intro ft m buf k os ho hm
  rw [encodeArgs_cons, Mem.holds_append, Nat.add_assoc] at hm
  obtain ⟨hm1, hm2⟩ := hm
  have hlen : k + (encodeArgs n (a :: args)).length
      = k + (a.encode n).length + (encodeArgs n args).length := by
    rw [encodeArgs_cons, List.length_append, Nat.add_assoc]
  rw [hlen]
  by_cases halt : f = .alternateHex
  · subst halt
    obtain ⟨os₁, hloop, hfl, htext⟩ := hf.param ft
      (MessageFormatter.applyCFormatSpec { CFormatSpec.zero with alternate := true } os)
      (.resetCFormatSpec :: es) hm1 ho.hex rfl ho.showpos ho.width
    have hplain : Plain (MessageFormatter.resetCFormatSpec os₁) := by
      refine ⟨?_, rfl, rfl, ?_⟩
      · exact (congrArg Flags.hex hfl).trans ho.hex
      · exact (congrArg Flags.width hfl).trans ho.width
    obtain ⟨os', h1, h2, h3⟩ := h ft hplain hm2
    refine ⟨os', ?_, h2, ?_⟩
    · rw [Field.entries, if_pos rfl]
      exact hloop.trans h1
    · have htext' : (MessageFormatter.resetCFormatSpec os₁).text ft = os₁.text ft := rfl
      rw [h3, htext', htext, rendered, List.append_assoc]
      rfl
  · obtain ⟨os₁, hloop, hfl, htext⟩ := hf.param ft os es hm1 ho.hex
      (by rw [ho.showbase]; exact (beq_eq_false_iff_ne.mpr halt).symm) ho.showpos ho.width
    have hplain : Plain os₁ := by
      constructor <;> rw [hfl]
      exacts [ho.hex, ho.showbase, ho.showpos, ho.width]
    obtain ⟨os', h1, h2, h3⟩ := h ft hplain hm2
    refine ⟨os', ?_, h2, by rw [h3, htext, rendered, List.append_assoc]⟩
    rw [Field.entries, if_neg halt, List.singleton_append, hloop, h1]

/-! ## Building the formatter -/

theorem pushIf_formatters (b : Builder) (c : Bool) (e : Entry) :
    (b.pushIf c e).formatters = b.formatters ++ (if c then [e] else [])
      ∧ (b.pushIf c e).fmtPtr = b.fmtPtr ∧ (b.pushIf c e).reg = b.reg := by
  cases c with
  | false => exact ⟨(List.append_nil _).symm, rfl, rfl⟩
  | true => exact ⟨rfl, rfl, rfl⟩

theorem addFormatter_eq {b : Builder} {t : Ty} {ts : List Ty} {fm : Formatter} (conv : UInt8)
    (hptr : b.fmtPtr = joinKeys (t :: ts)) (hr : b.reg.Ok) (ht : t.Shallow)
    (hsel : (selectFormatter b.reg (formatString t) (Builder.isHexConversion conv)).1 = some fm) :
    ∃ b', b.addFormatter conv = .ok b' ∧ b'.fmtPtr = joinKeys ts ∧ b'.reg.Ok
      ∧ b'.formatters = b.formatters ++ [.param fm] := by
  obtain ⟨l, hl, -⟩ := selectLength_shallow ht
  have hreg := selectFormatter_ok hr (formatString t) (Builder.isHexConversion conv)
  unfold Builder.addFormatter
  rw [Builder.fmt_joinKeys hptr, hl]
  rcases hs : selectFormatter b.reg (formatString t) (Builder.isHexConversion conv) with ⟨fm', reg'⟩
  rw [hs] at hsel hreg
  cases hsel
  exact ⟨_, rfl, Builder.afterFmt_joinKeys hptr, hreg, rfl⟩

/-- The conversion of a field adds its entries. -/
theorem addParam_field {n : Nat} (hn : n ≤ 255) {b : Builder} {f : Field} {a : Arg}
    {ts : List Ty} (hacc : f.accepts a.ty = true) (hptr : b.fmtPtr = joinKeys (a.ty :: ts))
    (hr : b.reg.Ok) (before rest : Text) :
    ∃ b' fm, b.addParam before (f.param rest) = .ok b' ∧ b'.fmtPtr = joinKeys ts ∧ b'.reg.Ok
      ∧ f.Shows n a fm
      ∧ b'.formatters = b.formatters ++ ((if before.isEmpty then [] else [.formatStatic before])
          ++ f.entries fm) := by
  obtain ⟨hshallow, fm, hsel, hshows⟩ := field_formatter hr hn hacc
  have hconv : Builder.isHexConversion (f.param rest).conversionSpecifier = (f != .default) := by
    cases f <;> rfl
  have h112 : ((f.param rest).conversionSpecifier == 112) = false := by cases f <;> rfl
  have hcustom : ((f.param rest).cFormatSpec != CFormatSpec.zero) = (f == .alternateHex) := by
    cases f <;> rfl
  -- what is pushed in front of the formatter
  obtain ⟨hb₁, hptr₁, hreg₁⟩ := pushIf_formatters b (!before.isEmpty) (.formatStatic before)
  generalize hdef₁ : b.pushIf (!before.isEmpty) (.formatStatic before) = b₁ at hb₁ hptr₁ hreg₁
  obtain ⟨hb₂, hptr₂, hreg₂⟩ := pushIf_formatters b₁ (f == .alternateHex)
    (.applyCFormatSpec (f.param rest).cFormatSpec)
  generalize hdef₂ : b₁.pushIf (f == .alternateHex)
    (.applyCFormatSpec (f.param rest).cFormatSpec) = b₂ at hb₂ hptr₂ hreg₂
  have hr₂ : b₂.reg.Ok := by rw [hreg₂, hreg₁]; exact hr
  obtain ⟨b₃, hadd, hptr₃, hr₃, hb₃⟩ := addFormatter_eq
    (f.param rest).conversionSpecifier ((hptr₂.trans hptr₁).trans hptr) hr₂ hshallow
    (by rw [hconv, hreg₂, hreg₁]; exact hsel)
  obtain ⟨hb₄, hptr₄, hreg₄⟩ := pushIf_formatters b₃ (f == .alternateHex) .resetCFormatSpec
  refine ⟨b₃.pushIf (f == .alternateHex) .resetCFormatSpec, fm, ?_, ?_, ?_, hshows, ?_⟩
  · have hskip : b₁.pushIf false (.formatStatic (ascii ['0', 'x'])) = b₁ := rfl
    unfold Builder.addParam
    simp only [hdef₁, h112, hskip, hcustom, hdef₂, hadd]
    rfl
  · rw [hptr₄, hptr₃]
  · rw [hreg₄]; exact hr₃
  · rw [hb₄, hb₃, hb₂, hb₁]
    cases before with
    | nil => cases f <;> simp [Field.entries, Field.param]
    | cons c cs => cases f <;> simp [Field.entries, Field.param]

theorem text_isEmpty : ∀ {qs : List Part}, (text qs).isEmpty = qs.isEmpty
  | [] => rfl
  | q :: qs => by
      have hne : q.text ≠ [] := by
        cases q with
        | field f => cases f <;> decide
        | _ => exact List.cons_ne_nil _ _
      rw [text_cons, List.isEmpty_cons, List.isEmpty_eq_false_iff]
      exact List.append_ne_nil_of_left_ne_nil hne _

/-- The loop over the text of parts uses up text and key, and its entries
show the parts. -/
theorem scan_parts {n : Nat} (hn : n ≤ 255) : ∀ (fuel : Nat) (ps : List Part) (args : List Arg)
    (b : Builder), (text ps).length ≤ fuel → Inert ps → Accepts ps args →
    b.fmtPtr = joinKeys (args.map Arg.ty) → b.reg.Ok →
    ∃ b' es, b.scan fuel (text ps) = .ok ([], b') ∧ b'.fmtPtr = []
      ∧ b'.formatters = b.formatters ++ es ∧ Prints n es ps args := by
  intro fuel
  induction fuel with
  | zero =>
    intro ps args b hf _ hacc hptr _
    have hps : ps = [] := by
      rw [← List.isEmpty_iff, ← text_isEmpty, List.isEmpty_iff]
      exact List.eq_nil_of_length_eq_zero (by omega)
    subst hps
    cases hacc
    exact ⟨b, [], rfl, hptr, (List.append_nil _).symm, prints_nil n⟩
  | succ fuel ih =>
    intro ps args b hf hi hacc hptr hr
    obtain ⟨qs, rest, rfl, hqs, hrest⟩ := parts_cases ps
    have hnext := nextParam_literals hqs hi
    unfold Accepts at hacc
    rw [fields_append, fields_literals hqs, List.nil_append] at hacc
    rcases hrest with rfl | ⟨f, rs, rfl⟩
    · -- no field is left
      cases hacc
      rw [List.append_nil] at hnext ⊢
      rw [Builder.scan]
      by_cases hemp : (text qs).isEmpty = true
      · rw [text_isEmpty, List.isEmpty_iff] at hemp
        subst hemp
        exact ⟨b, [], rfl, hptr, (List.append_nil _).symm, prints_nil n⟩
      · have hprints := (prints_nil n).static hqs
        rw [List.append_nil] at hprints
        refine ⟨b.push (.formatStatic (text qs)), _, ?_, hptr, rfl, hprints⟩
        rw [if_neg hemp, hnext]
        rfl
    · -- the conversion of the first field
      rw [show fields (.field f :: rs) = f :: fields rs from rfl] at hacc
      rcases args with _ | ⟨a, as⟩
      · cases hacc
      obtain ⟨hfa, has⟩ := List.forall₂_cons.mp hacc
      have hfound : nextParam (text (qs ++ .field f :: rs))
          = .ok (some (text qs, f.param (text rs))) := by
        rw [hnext, text_cons, Part.text, nextParam_field]
        simp [Except.map]
      have hne : (text (qs ++ .field f :: rs)).isEmpty = false := by
        rw [text_isEmpty]
        simp
      have hkey : b.fmtPtr.isEmpty = false := by
        rw [hptr, List.isEmpty_eq_false_iff]
        intro h
        cases joinKeys_eq_nil.mp h
      have hlen : (text rs).length ≤ fuel := by
        have hpos : 0 < f.text.length := by cases f <;> decide
        rw [text_append, text_cons, List.length_append, List.length_append, Part.text] at hf
        omega
      obtain ⟨b₁, fm, hadd, hptr₁, hr₁, hshows, hb₁⟩ :=
        addParam_field hn hfa hptr hr (text qs) (text rs)
      obtain ⟨b', es, hscan, hptr', hb', hprints⟩ :=
        ih rs as b₁ hlen (Inert.append_right qs hi).2 has hptr₁ hr₁
      refine ⟨b', _, ?_, hptr', by rw [hb', hb₁, List.append_assoc], ?_⟩
      · have hconv := f.param_ne_percent (text rs)
        rw [Builder.scan, if_neg (by rw [hne]; decide), hfound]
        simp only [bind, Except.bind, if_neg hconv, hkey, Bool.false_eq_true, if_false, hadd]
        exact hscan
      · have hfield := hprints.field hshows
        rw [text_isEmpty]
        cases qs with
        | nil => exact hfield
        | cons q qs => exact hfield.static hqs

/-! ## The whole way -/

/-- The parts of what stands in front of the format string. -/
def qualifierParts (className : Option Text) (funcName : Text) : List Part :=
  (qualifierText className funcName).map .char

theorem text_qualifierParts (className : Option Text) (funcName : Text) :
    text (qualifierParts className funcName) = qualifierText className funcName := by
  unfold text qualifierParts
  induction qualifierText className funcName with
  | nil => rfl
  | cons c cs ih => rw [List.map_cons, List.flatMap_cons, ih]; rfl

theorem qualifierParts_literals (className : Option Text) (funcName : Text) :
    ∀ q ∈ qualifierParts className funcName, q.isField = false := by
  intro q hq
  obtain ⟨c, -, rfl⟩ := List.mem_map.mp hq
  rfl

theorem qualifierText_ne_zero (className : Option Text) (funcName : Text) :
    ∀ c ∈ qualifierText className funcName, c ≠ 0 := by
  intro c hc
  obtain ⟨x, hx, hc⟩ := List.mem_flatMap.mp hc
  have hcstr : ∀ y, c ∈ cstring y → c ≠ 0 := fun y hy => by
    simpa using List.mem_takeWhile_imp hy
  have hx' : ∃ y, x = .cstr y := by
    unfold qualifier at hx
    split at hx
    · cases hx
    · split at hx <;> simp at hx <;> grind
  obtain ⟨y, rfl⟩ := hx'
  exact hcstr y hc

theorem text_ne_zero {ps : List Part} (h : ∀ p ∈ ps, p.Literal) : ∀ c ∈ text ps, c ≠ 0 := by
  intro c hc
  obtain ⟨p, hp, hc⟩ := List.mem_flatMap.mp hc
  have hl := h p hp
  have hbrace : ∀ c ∈ ascii ['{', '}'], c ≠ 0 := forall_mem_text (by decide)
  cases p with
  | char d =>
    rw [Part.text, List.mem_singleton] at hc
    exact hc ▸ hl.2.2
  | field f =>
    have hall : ∀ c ∈ f.text, c ≠ 0 := forall_mem_text (by cases f <;> decide)
    exact hall c hc
  | openBrace => exact hbrace c (List.mem_append_left _ hc)
  | closeBrace => exact hbrace c (List.mem_append_right (ascii ['{']) hc)

/-- The formatter built from the text and the key of a statement shows, of
its message, the name of the function and the format string with its fields
replaced, and consumes what was recorded. -/
def Renders (reg : Registry) (lineno n : Nat) (qtmd : MsgDesc) (shown : Text)
    (args : List Arg) : Prop :=
  ∃ mf reg', MessageFormatter.init reg lineno qtmd.text qtmd.formatString = .ok (mf, reg')
    ∧ ∀ (ft : FloatText) (rb : RingBuf) (m : Mem) (os : OStream), rb.enabled = true → Plain os →
        let w := rb.putArgs n args
        let r := mf.format (m.applyAll w.2) rb.ptr os
        r.1 = some (w.1.ptr - rb.ptr) ∧ r.2.text ft = os.text ft ++ shown

/-- A `QTFMT` statement shows what its format string says. -/
theorem renders {reg : Registry} (hreg : reg.Reachable) {lineno n : Nat} (hline : lineno ≠ 0)
    (hn : n ≤ 80) (qtmd : MsgDesc) (htext : qtmd.text = []) (className : Option Text)
    (funcName : Text) (ps : List Part) {args : List Arg} {qtmd' : MsgDesc} (hl : ∀ p ∈ ps, p.Literal)
    (hi : Inert (qualifierParts className funcName ++ ps)) (hacc : Accepts ps args)
    (hkey : MsgFormatString.ofTypes (args.map Arg.ty) = some qtmd.formatString)
    (hdesc : msgDesc qtmd className funcName (source ps) = some qtmd') :
    Renders reg lineno n qtmd' (qualifierText className funcName ++ rendered n ps args) args := by
  have hqs := qualifierParts_literals className funcName
  have hall : text (qualifierParts className funcName ++ ps)
      = qualifierText className funcName ++ text ps := by
    rw [text_append, text_qualifierParts]
  have hqtmd' := msgDesc_parts hl hdesc
  rw [htext, List.nil_append, ← hall] at hqtmd'
  subst hqtmd'
  have hcstr : MessageFormatter.c_str (text (qualifierParts className funcName ++ ps))
      = text (qualifierParts className funcName ++ ps) := by
    refine cstring_of_ne fun c hc => ?_
    rw [hall] at hc
    rcases List.mem_append.mp hc with hc | hc
    · exact qualifierText_ne_zero className funcName c hc
    · exact text_ne_zero hl c hc
  have hacc' : Accepts (qualifierParts className funcName ++ ps) args := by
    unfold Accepts
    rw [fields_append, fields_literals hqs, List.nil_append]
    exact hacc
  have hstart : MessageFormatter.start reg lineno (joinKeys (args.map Arg.ty))
      = ⟨joinKeys (args.map Arg.ty), [], [], reg⟩ := by
    unfold MessageFormatter.start MessageFormatter.isWallClock
    rw [beq_eq_false_iff_ne.mpr hline]
    rfl
  obtain ⟨b, es, hscan, hptr, hb, hprints⟩ := scan_parts (n := n) (by omega)
    (text (qualifierParts className funcName ++ ps)).length _ args
    (MessageFormatter.start reg lineno (joinKeys (args.map Arg.ty))) (Nat.le_refl _) hi hacc'
    (by rw [hstart]) (by rw [hstart]; exact hreg.ok)
  have hfinish : MessageFormatter.finish (text (qualifierParts className funcName ++ ps))
      (joinKeys (args.map Arg.ty)) ([], b) = .ok b := by
    simp [MessageFormatter.finish, hptr]
  have hk := ofTypes_eq hkey
  have hinit : MessageFormatter.init reg lineno (text (qualifierParts className funcName ++ ps))
      (joinKeys (args.map Arg.ty)) = .ok (⟨lineno, _, _, b.formatters, b.lengths⟩, b.reg) :=
    MessageFormatter.init_of_finish (by rw [hcstr]; exact hscan) (by rw [hcstr]; exact hfinish)
  refine ⟨_, _, by rw [hk]; exact hinit, fun ft rb m os he ho => ?_⟩
  have hw := Writes.putArgs n args he
  have hm : (m.applyAll (rb.putArgs n args).2).Holds (rb.ptr + 0) (encodeArgs n args) := by
    rw [hw.mem]
    exact Mem.holds_store _ _ _
  obtain ⟨os', hloop, -, htext'⟩ := hprints ft ho hm
  rw [hstart, List.nil_append] at hb
  have hformat : ∀ x, MessageFormatter.format
      ⟨lineno, x, joinKeys (args.map Arg.ty), b.formatters, b.lengths⟩
      (m.applyAll (rb.putArgs n args).2) rb.ptr os = (some (encodeArgs n args).length, os') := by
    intro x
    rw [MessageFormatter.format, hb, hloop, Nat.zero_add]
  simp only [hformat, hw.ptr, Nat.add_sub_cancel_left, true_and]
  rw [htext', rendered_literals n _ _ hqs, text_qualifierParts]

/-- A descriptor of line 7 that is still empty. -/
def emptyDesc (key : Text) : MsgDesc :=
  { MsgDesc.start 1 (ascii ['f']) 7 1 with formatString := key }

/-- Braces around a hexadecimal number, a string, and a percent sign that
starts no conversion. -/
theorem renders_braces :
    Renders Registry.initial 7 80
      { emptyDesc (ascii ['i', ',', 'p']) with
        text := ascii ['{', '%', '#', 'x', '}', ' ', '%', 's', '%', ','] }
      (ascii ['{', '0', 'x', 'f', 'f', '}', ' ', 'a', 'b', '%', ','])
      [.val (.u32 255), .val (.str (ascii ['a', 'b']))] :=
  renders .initial (by decide) (by decide) (emptyDesc (ascii ['i', ',', 'p'])) rfl none []
    [.openBrace, .field .alternateHex, .closeBrace, .char 32, .field .default, .char 37, .char 44]
    (by decide) (by decide) (.cons rfl (.cons rfl .nil)) (by decide) (by decide)

/-- `{}` of the number -1, and a percent sign in front of a blank and a
letter: neither shows what it says. -/
theorem renders_fails :
    (msgDesc (emptyDesc (ascii ['i'])) none [] (source [.field .default])
        = some { emptyDesc (ascii ['i']) with text := ascii ['%', 's'] }
      ∧ ¬ Renders Registry.initial 7 80 { emptyDesc (ascii ['i']) with text := ascii ['%', 's'] }
          (decimal (-1)) [.val (.i32 (-1))])
    ∧ msgDesc (emptyDesc (ascii ['i'])) none []
          (source [.char 37, .char 32, .char 100, .field .default])
        = some { emptyDesc (ascii ['i']) with text := ascii ['%', ' ', 'd', '%', 's'] }
      ∧ ¬ Renders Registry.initial 7 80
          { emptyDesc (ascii ['i']) with text := ascii ['%', ' ', 'd', '%', 's'] }
          (ascii ['%', ' ', 'd', '1']) [.val (.u32 1)] := by
  refine ⟨⟨by decide, ?_⟩, by decide, ?_⟩
  · rintro ⟨mf, reg', hinit, h⟩
    cases hinit
    exact absurd (h ⟨fun _ => [], fun _ => [], fun _ _ => [], fun _ _ => []⟩ ⟨0, some 0, 0, 0⟩
      (fun _ => 0) .fresh rfl ⟨rfl, rfl, rfl, rfl⟩).2 (by decide)
  · rintro ⟨mf, reg', hinit, h⟩
    cases hinit
    exact absurd (h ⟨fun _ => [], fun _ => [], fun _ _ => [], fun _ _ => []⟩ ⟨0, some 0, 0, 0⟩
      (fun _ => 0) .fresh rfl ⟨rfl, rfl, rfl, rfl⟩).2 (by decide)

end QtFmt

end QuickTrace
