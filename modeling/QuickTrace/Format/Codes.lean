/-
QuickTrace.Format.Codes — the supported format codes.

A `Code` is a code the tables know from the beginning, or one optional around
it; `joinCodes` is a key of them. What a code selects does not depend on the
optionals the tables have seen (`selectFormatter_code`): `Registry.Exact` is
the invariant for that. A step of `init` over such a key is
`addFormatter_joinCodes`.
-/
import QuickTrace.Format.RoundTrip

namespace QuickTrace

open QuickTrace.Lib

/-! ## Codes -/

/-- The codes of the initial tables. -/
inductive Base where
  | u8
  | u16
  | u32
  | u64
  | char
  | string
  | bool
  | float
  | double
  | wallClock
  deriving DecidableEq

namespace Base

/-- The spelling of a code. -/
def text : Base → Text
  | .u8 => ascii ['u']
  | .u16 => ascii ['s']
  | .u32 => ascii ['i']
  | .u64 => ascii ['q']
  | .char => ascii ['c']
  | .string => ascii ['p']
  | .bool => ascii ['b']
  | .float => ascii ['f']
  | .double => ascii ['d']
  | .wallClock => ascii ['w']

/-- The formatter of a code. Not every code has a hex form. -/
def formatter (isHex : Bool) : Base → Formatter
  | .u8 => if isHex then .u8Hex else .u8
  | .u16 => if isHex then .u16Hex else .u16
  | .u32 => if isHex then .u32Hex else .u32
  | .u64 => if isHex then .u64Hex else .u64
  | .char => .char
  | .string => .string
  | .bool => .bool
  | .float => .float
  | .double => .double
  | .wallClock => .wallClockRingBuf

/-- The length function of a code. -/
def length : Base → Length
  | .u8 => .u8
  | .u16 => .u16
  | .u32 => .u32
  | .u64 => .u64
  | .char => .char
  | .string => .string
  | .bool => .bool
  | .float => .float
  | .double => .double
  | .wallClock => .wallClock

theorem text_single (b : Base) : ∃ c, b.text = [c] := by
  cases b with
  | _ => exact ⟨_, rfl⟩

theorem lookup_plain (b : Base) :
    Registry.initial.formattersById.lookup b.text = some (b.formatter false) := by
  cases b with
  | _ => rfl

theorem lookup_hex (b : Base) :
    Registry.initial.hexFormattersById.lookup b.text = some (b.formatter true)
      ∨ Registry.initial.hexFormattersById.lookup b.text = none
        ∧ b.formatter true = b.formatter false := by
  cases b with
  | u8 | u16 | u32 | u64 => exact .inl rfl
  | _ => exact .inr ⟨rfl, rfl⟩

theorem lookup_length (b : Base) : lengthsById.lookup b.text = some b.length := by
  cases b with
  | _ => rfl

end Base

/-- A supported code. -/
inductive Code where
  | base (b : Base)
  | opt (b : Base)
  deriving DecidableEq

namespace Code

def text : Code → Text
  | .base b => b.text
  | .opt b => OPT ++ b.text

def formatter (isHex : Bool) : Code → Formatter
  | .base b => b.formatter isHex
  | .opt b => .opt (b.formatter isHex)

def length : Code → Length
  | .base b => b.length
  | .opt b => .opt b.length

/-- A code is not empty and contains neither a comma nor a NUL. -/
theorem text_ok (c : Code) : c.text ≠ [] ∧ ∀ x ∈ c.text, x ≠ 44 ∧ x ≠ 0 := by
  cases c with
  | base b => cases b with
    | _ => exact ⟨by decide, forall_mem_text (by decide)⟩
  | opt b => cases b with
    | _ => exact ⟨by decide, forall_mem_text (by decide)⟩

/-- The code of a type with one optional at most. -/
def ofTy : Ty → Option Code
  | .char => some (.base .char)
  | .bool => some (.base .bool)
  | .u8 | .i8 => some (.base .u8)
  | .u16 | .i16 => some (.base .u16)
  | .u32 | .i32 => some (.base .u32)
  | .u64 | .i64 | .ptr => some (.base .u64)
  | .float => some (.base .float)
  | .double => some (.base .double)
  | .str => some (.base .string)
  | .opt t =>
    match ofTy t with
    | some (.base b) => some (.opt b)
    | _ => none

theorem text_ofTy {t : Ty} {c : Code} (h : ofTy t = some c) : c.text = formatString t := by
  induction t generalizing c with
  | opt t ih =>
    rw [ofTy] at h
    rcases hc : ofTy t with _ | ⟨b⟩ | b
    · rw [hc] at h; cases h
    · rw [hc] at h
      cases h
      have htext := ih hc
      obtain ⟨x, hx⟩ := b.text_single
      rw [text, hx] at htext
      rw [formatString, ← htext, text, hx]
      rfl
    · rw [hc] at h; cases h
  | _ => cases h; rfl

theorem ofTy_shallow {t : Ty} (h : t.Shallow) : ∃ c, ofTy t = some c := by
  cases t with
  | opt t =>
    have h0 : t.optDepth = 0 := by simpa [Ty.Shallow, Ty.optDepth] using h
    cases t with
    | opt t => simp [Ty.optDepth] at h0
    | _ => exact ⟨_, rfl⟩
  | _ => exact ⟨_, rfl⟩

end Code

/-! ## Keys -/

/-- Codes separated by commas. -/
def joinCodes : List Code → Text
  | [] => []
  | [c] => c.text
  | c :: cs => c.text ++ 44 :: joinCodes cs

theorem joinCodes_cons (c d : Code) (cs : List Code) :
    joinCodes (c :: d :: cs) = c.text ++ 44 :: joinCodes (d :: cs) := rfl

@[simp] theorem joinCodes_eq_nil : ∀ {cs : List Code}, joinCodes cs = [] ↔ cs = []
  | [] => by simp [joinCodes]
  | [c] => by simp [joinCodes, c.text_ok.1]
  | c :: d :: cs => by simp [joinCodes_cons]

theorem joinCodes_isEmpty (cs : List Code) : (joinCodes cs).isEmpty = cs.isEmpty := by
  rw [Bool.eq_iff_iff, List.isEmpty_iff, List.isEmpty_iff, joinCodes_eq_nil]

/-- A key contains no NUL. -/
theorem joinCodes_ne_zero : ∀ (cs : List Code), ∀ x ∈ joinCodes cs, x ≠ 0
  | [], x, hx => by simp [joinCodes] at hx
  | [c], x, hx => (c.text_ok.2 x hx).2
  | c :: d :: cs, x, hx => by
      rw [joinCodes_cons] at hx
      rcases List.mem_append.mp hx with hx | hx
      · exact (c.text_ok.2 x hx).2
      · rcases List.mem_cons.mp hx with rfl | hx
        · decide
        · exact joinCodes_ne_zero (d :: cs) x hx

theorem takeWhile_text (c : Code) (rest : Text) :
    (c.text ++ rest).takeWhile (· != 44) = c.text ++ rest.takeWhile (· != 44) := by
  rw [List.takeWhile_append_of_pos]
  intro x hx
  simpa using (c.text_ok.2 x hx).1

theorem dropWhile_text (c : Code) (rest : Text) :
    (c.text ++ rest).dropWhile (· != 44) = rest.dropWhile (· != 44) := by
  rw [List.dropWhile_append_of_pos]
  intro x hx
  simpa using (c.text_ok.2 x hx).1

/-- The first code of a key. -/
theorem takeWhile_joinCodes (c : Code) (cs : List Code) :
    (joinCodes (c :: cs)).takeWhile (· != 44) = c.text := by
  cases cs with
  | nil => simpa [joinCodes] using takeWhile_text c []
  | cons d cs => rw [joinCodes_cons, takeWhile_text]; simp

/-- What follows the first code and its comma. -/
theorem dropWhile_joinCodes (c : Code) (cs : List Code) :
    ((joinCodes (c :: cs)).dropWhile (· != 44)).drop 1 = joinCodes cs := by
  cases cs with
  | nil => simpa [joinCodes] using congrArg (List.drop 1) (dropWhile_text c [])
  | cons d cs => rw [joinCodes_cons, dropWhile_text]; simp

/-- A key is shorter without its first code. -/
theorem joinCodes_length_lt (c : Code) (cs : List Code) :
    (joinCodes cs).length < (joinCodes (c :: cs)).length := by
  have hpos : 0 < c.text.length := List.length_pos_iff.mpr c.text_ok.1
  cases cs with
  | nil => simpa [joinCodes] using hpos
  | cons d cs =>
    rw [joinCodes_cons, List.length_append, List.length_cons]
    omega

/-- The key of a list of types. -/
theorem joinCodes_ofTy : ∀ {ts : List Ty} {cs : List Code},
    List.Forall₂ (fun t c => Code.ofTy t = some c) ts cs → joinCodes cs = joinKeys ts
  | [], _, .nil => rfl
  | [t], _, .cons h .nil => Code.text_ofTy h
  | t :: u :: ts, c :: d :: ds, .cons h hs => by
      rw [joinCodes_cons, joinKeys_cons, Code.text_ofTy h, joinCodes_ofTy hs]

/-! ## What a code selects -/

/-- The invariant of the static tables: what they hold for a code is what the
initial tables say about it. -/
structure Registry.Exact (reg : Registry) : Prop where
  ok : reg.Ok
  hexOpt : ∀ (b : Base) (f : Formatter),
    reg.hexFormattersById.lookup (OPT ++ b.text) = some f → f = .opt (b.formatter true)

namespace Registry

theorem exact_initial : Exact Registry.initial := by
  refine ⟨ok_initial, fun b f h => ?_⟩
  obtain ⟨c, hc⟩ := b.text_single
  rw [hc, lookup_long (by decide)] at h
  cases h

theorem Exact.plainOpt {reg : Registry} (h : reg.Exact) {b : Base} {f : Formatter}
    (hf : reg.formattersById.lookup (OPT ++ b.text) = some f) : f = .opt (b.formatter false) := by
  obtain ⟨c, hc⟩ := b.text_single
  rw [hc] at hf
  obtain ⟨g, rfl, hg⟩ := h.ok.plain.opt c f hf
  have hg' := hg.elim id id
  rw [← hc, b.lookup_plain] at hg'
  rw [Option.some.inj hg']

theorem Exact.lookup_plain {reg : Registry} (h : reg.Exact) (b : Base) :
    reg.formattersById.lookup b.text = some (b.formatter false) := by
  obtain ⟨c, hc⟩ := b.text_single
  rw [hc, h.ok.plain.char, ← hc, b.lookup_plain]

theorem Exact.lookup_hex {reg : Registry} (h : reg.Exact) (b : Base) :
    reg.hexFormattersById.lookup b.text = some (b.formatter true)
      ∨ reg.hexFormattersById.lookup b.text = none
        ∧ b.formatter true = b.formatter false := by
  obtain ⟨c, hc⟩ := b.text_single
  have hhex : reg.hexFormattersById.lookup b.text
      = Registry.initial.hexFormattersById.lookup b.text := by
    rw [hc, h.ok.hex.char]
  rw [hhex]
  exact b.lookup_hex

end Registry

/-- Every selection keeps the invariant. -/
theorem selectFormatter_exact {reg : Registry} (hr : reg.Exact) (fmt : Text) (isHex : Bool) :
    (selectFormatter reg fmt isHex).2.Exact := by
  refine ⟨selectFormatter_ok hr.ok fmt isHex, ?_⟩
  unfold selectFormatter
  split
  · exact hr.hexOpt
  · split
    · rename_i hpre
      obtain ⟨inner, rfl⟩ := List.isPrefixOf_iff_prefix.mp hpre
      simp only [List.drop_left]
      split
      · exact hr.hexOpt
      · rename_i g hg
        cases isHex with
        | false => exact hr.hexOpt
        | true =>
          intro b f hf
          simp only [if_true, Registry.lookup_emplace] at hf
          rcases hl : reg.hexFormattersById.lookup (OPT ++ b.text) with _ | f'
          · rw [hl, Option.none_or, Option.ite_none_right_eq_some] at hf
            obtain ⟨he, hf⟩ := hf
            cases hf
            rw [if_pos rfl, ← List.append_cancel_left he] at hg
            rcases hr.lookup_hex b with hhex | ⟨hhex, heq⟩
            · rw [hhex] at hg
              rw [Option.some.inj hg]
            · rw [hhex] at hg
              simp only [hr.lookup_plain, Option.some.injEq] at hg
              rw [heq, hg]
          · rw [hl, Option.some_or] at hf
            exact hr.hexOpt b f (hl.trans hf)
    · split
      · exact hr.hexOpt
      · exact hr.hexOpt

/-- What a code selects depends on nothing else. -/
theorem selectFormatter_code {reg : Registry} (hr : reg.Exact) (c : Code) (isHex : Bool) :
    (selectFormatter reg c.text isHex).1 = some (c.formatter isHex) := by
  cases c with
  | base b =>
    obtain ⟨x, hx⟩ := b.text_single
    have hopt : OPT.isPrefixOf b.text = false := by rw [hx, not_prefix_char]
    unfold selectFormatter
    cases isHex with
    | false => simp [Code.text, Code.formatter, hr.lookup_plain]
    | true =>
      rcases hr.lookup_hex b with hhex | ⟨hhex, heq⟩
      · simp [Code.text, Code.formatter, hhex]
      · simp [Code.text, Code.formatter, hhex, hopt, hr.lookup_plain, heq]
  | opt b =>
    unfold selectFormatter
    rcases hl : (if isHex then reg.hexFormattersById
        else reg.formattersById).lookup (Code.text (.opt b)) with _ | f
    · cases isHex with
      | false => simp [Code.text, Code.formatter, prefix_self, hr.lookup_plain]
      | true =>
        rcases hr.lookup_hex b with hhex | ⟨hhex, heq⟩
        · simp [Code.text, Code.formatter, prefix_self, hhex]
        · simp [Code.text, Code.formatter, prefix_self, hhex, hr.lookup_plain, heq]
    · cases isHex with
      | false => rw [hr.plainOpt hl]; rfl
      | true => rw [hr.hexOpt b f hl]; rfl

theorem selectLength_code (c : Code) : selectLength c.text = .ok c.length := by
  cases c with
  | base b => cases b with
    | _ => rfl
  | opt b =>
    rw [selectLength, Code.text, if_pos (prefix_self _)]
    simp only [List.drop_left, b.lookup_length]
    rfl

/-! ## The tables over the life of the program -/

namespace Builder

/-- What a parameter with a supported code adds. -/
def paramAdded (b : Builder) (conv : UInt8) (c : Code) (cs : List Code) (reg : Registry) :
    Builder where
  fmtPtr := joinCodes cs
  formatters := b.formatters ++ [.param (c.formatter (isHexConversion conv))]
  lengths := b.lengths ++ [c.length]
  reg := reg

/-- The first code of the key is added. -/
theorem addFormatter_joinCodes {b : Builder} {c : Code} {cs : List Code} (hr : b.reg.Exact)
    (h : b.fmtPtr = joinCodes (c :: cs)) (conv : UInt8) :
    ∃ reg', reg'.Exact ∧ b.addFormatter conv = .ok (b.paramAdded conv c cs reg') := by
  have hfmt : b.fmt = c.text := by rw [fmt, h, takeWhile_joinCodes]
  have hafter : b.afterFmt = joinCodes cs := by rw [afterFmt, h, dropWhile_joinCodes]
  have hsel := selectFormatter_code hr c (isHexConversion conv)
  refine ⟨_, selectFormatter_exact hr c.text (isHexConversion conv), ?_⟩
  unfold addFormatter
  rw [hfmt, hafter, selectLength_code]
  rcases hs : selectFormatter b.reg c.text (isHexConversion conv) with ⟨f, reg'⟩
  rw [hs] at hsel
  cases hsel
  rfl

theorem pushIf_eq (b : Builder) (c : Bool) (e : Entry) :
    b.pushIf c e = { b with formatters := b.formatters ++ if c then [e] else [] } := by
  cases c with
  | true => rfl
  | false => rw [pushIf, if_neg Bool.false_ne_true, if_neg Bool.false_ne_true, List.append_nil]

/-- What a conversion and its argument add to the formatters. -/
def paramEntries (before : Text) (p : ParamSpec) (c : Code) : List Entry :=
  (if !before.isEmpty then [.formatStatic before] else [])
    ++ (if p.conversionSpecifier == 112 then [.formatStatic (ascii ['0', 'x'])] else [])
    ++ (if p.cFormatSpec != CFormatSpec.zero then [.applyCFormatSpec p.cFormatSpec] else [])
    ++ [.param (c.formatter (isHexConversion p.conversionSpecifier))]
    ++ (if p.cFormatSpec != CFormatSpec.zero then [.resetCFormatSpec] else [])

/-- A conversion takes the first code of the key. -/
theorem addParam_joinCodes {b : Builder} {c : Code} {cs : List Code} (hr : b.reg.Exact)
    (h : b.fmtPtr = joinCodes (c :: cs)) (before : Text) (p : ParamSpec) :
    ∃ reg', reg'.Exact ∧ b.addParam before p = .ok
      { fmtPtr := joinCodes cs, formatters := b.formatters ++ paramEntries before p c,
        lengths := b.lengths ++ [c.length], reg := reg' } := by
  unfold addParam
  dsimp only
  rw [pushIf_eq, pushIf_eq, pushIf_eq]
  obtain ⟨reg', hreg', hadd⟩ := addFormatter_joinCodes (b :=
    { b with formatters := b.formatters
        ++ (if !before.isEmpty then [.formatStatic before] else [])
        ++ (if p.conversionSpecifier == 112 then [.formatStatic (ascii ['0', 'x'])] else [])
        ++ (if p.cFormatSpec != CFormatSpec.zero then [.applyCFormatSpec p.cFormatSpec] else []) })
    hr h p.conversionSpecifier
  refine ⟨reg', hreg', ?_⟩
  rw [hadd]
  simp only [Except.map, paramAdded, pushIf_eq, paramEntries, List.append_assoc]

/-- The parameters of a message that are emitted separately. -/
def emitEntries : Bool → List Code → List Entry
  | _, [] => []
  | first, c :: cs =>
    (if !first then [.formatStatic (ascii [','])] else [])
      ++ .param (c.formatter false) :: emitEntries false cs

theorem emitAll_joinCodes : ∀ (fuel : Nat) (first : Bool) {b : Builder} {cs : List Code},
    (joinCodes cs).length ≤ fuel → b.reg.Exact → b.fmtPtr = joinCodes cs →
    ∃ reg', reg'.Exact ∧ b.emitAll fuel first = .ok
      { fmtPtr := [], formatters := b.formatters ++ emitEntries first cs,
        lengths := b.lengths ++ cs.map Code.length, reg := reg' }
  | 0, first, b, cs, hf, hr, h => by
      have hcs : cs = [] := joinCodes_eq_nil.mp (List.eq_nil_of_length_eq_zero (by omega))
      subst hcs
      refine ⟨b.reg, hr, ?_⟩
      rw [emitAll, emitEntries, List.append_nil, List.map_nil, List.append_nil, ← joinCodes, ← h]
  | fuel + 1, first, b, [], hf, hr, h => by
      refine ⟨b.reg, hr, ?_⟩
      rw [emitAll, if_pos (by rw [h]; rfl), emitEntries, List.append_nil, List.map_nil,
        List.append_nil, ← joinCodes, ← h]
  | fuel + 1, first, b, c :: cs, hf, hr, h => by
      have hlt := joinCodes_length_lt c cs
      have hne : ¬ b.fmtPtr.isEmpty = true := by
        rw [h, joinCodes_isEmpty]
        exact Bool.false_ne_true
      obtain ⟨reg₁, hreg₁, hadd⟩ := addFormatter_joinCodes
        (b := { b with formatters :=
          b.formatters ++ if !first then [.formatStatic (ascii [','])] else [] }) hr h 115
      obtain ⟨reg', hreg', hemit⟩ := emitAll_joinCodes fuel false (b := paramAdded
        { b with formatters :=
          b.formatters ++ if !first then [.formatStatic (ascii [','])] else [] } 115 c cs reg₁)
        (by omega) hreg₁ rfl
      refine ⟨reg', hreg', ?_⟩
      rw [emitAll, if_neg hne, pushIf_eq]
      dsimp only
      rw [hadd, ok_bind, hemit]
      simp only [paramAdded, emitEntries, List.append_assoc, List.map_cons, List.cons_append,
        List.nil_append]
      rfl

theorem addFormatter_exact {b b' : Builder} {conv : UInt8} (h : b.reg.Exact)
    (hb : b.addFormatter conv = .ok b') : b'.reg.Exact := by
  have hreg := selectFormatter_exact h b.fmt (isHexConversion conv)
  unfold addFormatter at hb
  split at hb
  · cases hb
  · rename_i f reg' hsel
    obtain ⟨l, -, rfl⟩ := map_eq_ok.mp hb
    rw [hsel] at hreg
    exact hreg

end Builder

/-- What the fallback emits. -/
def MessageFormatter.fallbackEntries (msg : Text) (cs : List Code) : List Entry :=
  [.formatStatic msg, .formatStatic (ascii [' ', '%', ' ', '('])]
    ++ Builder.emitEntries true cs ++ [.formatStatic (ascii [')', ' '])]

theorem MessageFormatter.fallback_joinCodes {reg : Registry} (hr : reg.Exact) (msg : Text)
    (cs : List Code) : ∃ reg', reg'.Exact ∧ fallback reg msg (joinCodes cs) = .ok
      { fmtPtr := [], formatters := fallbackEntries msg cs, lengths := cs.map Code.length,
        reg := reg' } := by
  obtain ⟨reg', hreg', hemit⟩ := Builder.emitAll_joinCodes (joinCodes cs).length true
    (b :=
      { fmtPtr := joinCodes cs,
        formatters := [.formatStatic msg, .formatStatic (ascii [' ', '%', ' ', '('])],
        lengths := [], reg }) (Nat.le_refl _) hr rfl
  refine ⟨reg', hreg', ?_⟩
  unfold fallback
  dsimp only
  rw [hemit]
  rfl

/-- The invariant holds after any number of formatters. -/
theorem Registry.Reachable.exact {reg : Registry} (h : reg.Reachable) : reg.Exact := by
  induction h with
  | initial => exact Registry.exact_initial
  | init _ hinit ih => exact MessageFormatter.init_keeps Builder.addFormatter_exact ih hinit

end QuickTrace
