/-
QuickTrace.Format.MessageFormatter — decoding the arguments of a message.

A `MessageFormatter` is built from the text and the format key of a
descriptor (`MessageFormatter.cpp`). `init` walks both at once: the text is
cut at its percent conversions, the key at its commas, and every pair
selects a formatter and a length function from string-keyed tables. The
tables of formatters are static and grow when an optional is first seen, so
`init` takes and returns a `Registry`.

The source stores C++ closures; `Formatter` and `Length` name the closures
that can occur, and `Formatter.run` and `Length.run` say what they do. What
ends the program (`exit`, an escaping exception) or is not defined in C++
(reading behind the end of the text) is a `FormatError`.
-/
import QuickTrace.Format.OStream

namespace QuickTrace

open QuickTrace.Lib

/-! ## Formatters -/

/-- The formatters of the static tables, and the closure an optional
resolves to. -/
inductive Formatter where
  | u8
  | u16
  | u32
  | u64
  | char
  | string
  | bool
  | float
  | double
  | wallClockRingBuf
  | u8Hex
  | u16Hex
  | u32Hex
  | u64Hex
  | opt (inner : Formatter)
  deriving DecidableEq, Repr

/-- The length functions. -/
inductive Length where
  | u8
  | u16
  | u32
  | u64
  | char
  | string
  | bool
  | float
  | double
  | wallClock
  | opt (inner : Length)
  deriving DecidableEq, Repr

/-- `lengthU8`, `lengthString`, `lengthOpt` and the rest. -/
def Length.run : Length → Mem → Nat → Nat
  | .u8, _, _ => 1
  | .u16, _, _ => 2
  | .u32, _, _ => 4
  | .u64, _, _ => 8
  | .char, _, _ => 1
  | .string, m, buf => 1 + (m buf).toNat
  | .bool, _, _ => 1
  | .float, _, _ => 4
  | .double, _, _ => 8
  | .wallClock, _, _ => 16
  | .opt inner, m, buf => if m buf = 0 then 1 else 1 + inner.run m (buf + 1)

/-- The bytes `[buf, buf + n)`. -/
def readBytes (m : Mem) (buf : Nat) : Nat → Text
  | 0 => []
  | n + 1 => m buf :: readBytes m (buf + 1) n

/-- `os << std::hex << val << std::dec`. -/
def insertHex (os : OStream) (n : Nat) : OStream :=
  ((os.setHex true).insert (.num n)).setHex false

/-- `formatU8`, `formatString`, `formatOpt` and the rest: the bytes consumed
and the stream afterwards. -/
def Formatter.run : Formatter → Mem → Nat → OStream → Nat × OStream
  | .u8, m, buf, os => (1, os.insert (.num (m buf).toNat))
  | .u16, m, buf, os => (2, os.insert (.num (m.load buf 2)))
  | .u32, m, buf, os =>
    let os := if os.flags.showpos then os.insert (.text (ascii ['+'])) else os
    (4, os.insert (.num (m.load buf 4)))
  | .u64, m, buf, os => (8, os.insert (.num (m.load buf 8)))
  | .char, m, buf, os => (1, os.insert (.char (m buf)))
  | .string, m, buf, os =>
    (1 + (m buf).toNat, os.write (readBytes m (buf + 1) (m buf).toNat))
  | .bool, m, buf, os => (1, os.insert (.bool (m buf != 0)))
  | .float, m, buf, os => (4, os.insert (.float (UInt32.ofNat (m.load buf 4))))
  | .double, m, buf, os => (8, os.insert (.double (UInt64.ofNat (m.load buf 8))))
  | .wallClockRingBuf, _, _, os => (16, os)
  | .u8Hex, m, buf, os => (1, insertHex os (m buf).toNat)
  | .u16Hex, m, buf, os => (2, insertHex os (m.load buf 2))
  | .u32Hex, m, buf, os => (4, insertHex os (m.load buf 4))
  | .u64Hex, m, buf, os => (8, insertHex os (m.load buf 8))
  | .opt inner, m, buf, os =>
    if m buf = 0 then (1, os.insert .optionalNone)
    else
      let r := inner.run m (buf + 1) os
      (1 + r.1, r.2)

/-! ## C format specifications -/

/-- The bit fields of `CFormatSpec`; width and precision have eight bits. -/
structure CFormatSpec where
  alternate : Bool
  showPos : Bool
  zeroPad : Bool
  hasWidth : Bool
  hasPrecision : Bool
  width : Int8
  precision : Int8
  deriving DecidableEq

/-- `value == 0`. -/
def CFormatSpec.zero : CFormatSpec := ⟨false, false, false, false, false, 0, 0⟩

/-- Why building a formatter fails. -/
inductive FormatError where
  /-- "unsupported format" and `exit`. -/
  | unsupportedFormat (fmt : Text)
  /-- `lengthsById_.at` throws. -/
  | noLength (fmt : Text)
  /-- `std::stoi` throws. -/
  | outOfRange
  /-- The scan runs behind the terminating NUL. -/
  | overread
  deriving DecidableEq

/-- One flag character of a conversion. -/
def CFormatSpec.flag (spec : CFormatSpec) (c : UInt8) : CFormatSpec :=
  if c = 35 then { spec with alternate := true }
  else if c = 43 then { spec with showPos := true }
  else if c = 48 then { spec with zeroPad := true }
  else spec

/-- `strchr( "#0- +'I", c )`. -/
def isFlagChar (c : UInt8) : Bool := [35, 48, 45, 32, 43, 39, 73].contains c

/-- `strchr( "hlqLjzZt", c )`. -/
def isLengthModifier (c : UInt8) : Bool := [104, 108, 113, 76, 106, 122, 90, 116].contains c

/-- The flags loop. `strchr` finds the terminating NUL in its set, so the
loop does not stop at the end of the text. -/
def scanFlags : Text → CFormatSpec → Except FormatError (CFormatSpec × Text)
  | [], _ => .error .overread
  | c :: cs, spec =>
    if isFlagChar c then scanFlags cs (spec.flag c) else .ok (spec, c :: cs)

/-- `std::stoi` of a run of digits. -/
def stoi (ds : Text) : Except FormatError Nat :=
  let n := ds.foldl (fun a c => a * 10 + (c.toNat - 48)) 0
  if n ≤ 2147483647 then .ok n else .error .outOfRange

/-- The width. -/
def scanWidth (spec : CFormatSpec) (t : Text) : Except FormatError (CFormatSpec × Text) :=
  let ds := t.takeWhile isdigit
  if ds.isEmpty then .ok (spec, t)
  else
    (stoi ds).map fun n =>
      ({ spec with hasWidth := true, width := Int8.ofNat n }, t.dropWhile isdigit)

/-- The precision. -/
def scanPrecision (spec : CFormatSpec) : Text → Except FormatError (CFormatSpec × Text)
  | 46 :: t =>
    let ds := t.takeWhile isdigit
    if ds.isEmpty then .ok ({ spec with hasPrecision := true }, t)
    else
      (stoi ds).map fun n =>
        ({ spec with hasPrecision := true, precision := Int8.ofNat n }, t.dropWhile isdigit)
  | t => .ok (spec, t)

/-- The length modifiers; the end of the text counts as one, as in
`scanFlags`. -/
def scanLengthModifiers : Text → Except FormatError Text
  | [] => .error .overread
  | c :: cs => if isLengthModifier c then scanLengthModifiers cs else .ok (c :: cs)

/-- A conversion found in the text: its conversion specifier, what it asks
for, and the text behind it. -/
structure ParamSpec where
  conversionSpecifier : UInt8
  cFormatSpec : CFormatSpec
  rest : Text
  deriving DecidableEq

/-- `getFormatParamSpec`, on the text behind the percent sign; `none` is the
length zero of an invalid conversion. -/
def getFormatParamSpec (param : Text) : Except FormatError (Option ParamSpec) :=
  match param with
  | 37 :: rest => .ok (some ⟨37, CFormatSpec.zero, rest⟩)
  | _ => do
    let (spec, t) ← scanFlags param CFormatSpec.zero
    let (spec, t) ← scanWidth spec t
    let (spec, t) ← scanPrecision spec t
    match ← scanLengthModifiers t with
    | c :: rest => return if isalpha c then some ⟨c, spec, rest⟩ else none
    | [] => return none

/-- The search for the next valid conversion: the text in front of it and
the conversion. -/
def nextParam : Text → Except FormatError (Option (Text × ParamSpec))
  | [] => .ok none
  | c :: cs => do
    let here ← if c = 37 then getFormatParamSpec cs else .ok none
    match here with
    | some p => return some ([], p)
    | none => return (← nextParam cs).map fun q => (c :: q.1, q.2)

/-! ## The tables -/

/-- `formattersById_` and `hexFormattersById_`. -/
structure Registry where
  formattersById : List (Text × Formatter)
  hexFormattersById : List (Text × Formatter)

/-- The initial tables. -/
def Registry.initial : Registry where
  formattersById :=
    [(ascii ['u'], .u8), (ascii ['s'], .u16), (ascii ['i'], .u32), (ascii ['q'], .u64),
     (ascii ['c'], .char), (ascii ['p'], .string), (ascii ['b'], .bool),
     (ascii ['f'], .float), (ascii ['d'], .double), (ascii ['w'], .wallClockRingBuf)]
  hexFormattersById :=
    [(ascii ['u'], .u8Hex), (ascii ['s'], .u16Hex), (ascii ['i'], .u32Hex),
     (ascii ['q'], .u64Hex)]

/-- `lengthsById_`. -/
def lengthsById : List (Text × Length) :=
  [(ascii ['u'], .u8), (ascii ['s'], .u16), (ascii ['i'], .u32), (ascii ['q'], .u64),
   (ascii ['c'], .char), (ascii ['p'], .string), (ascii ['b'], .bool),
   (ascii ['f'], .float), (ascii ['d'], .double), (ascii ['w'], .wallClock)]

/-- The only key of `parameterizedFormattersById` and
`parameterizedLengthsById_`. -/
def OPT : Text := ascii ['O', 'P', 'T']

/-- `emplace`: an entry that exists stays. -/
def emplace (table : List (Text × Formatter)) (key : Text) (f : Formatter) :
    List (Text × Formatter) :=
  if (table.lookup key).isSome then table else table ++ [(key, f)]

/-- `selectFormatter`; `none` is the null pointer. -/
def selectFormatter (reg : Registry) (fmt : Text) (isHex : Bool) :
    Option Formatter × Registry :=
  match (if isHex then reg.hexFormattersById else reg.formattersById).lookup fmt with
  | some f => (some f, reg)
  | none =>
    if OPT.isPrefixOf fmt then
      let innerFmt := fmt.drop OPT.length
      let innerFormatter :=
        match (if isHex then reg.hexFormattersById.lookup innerFmt else none) with
        | some f => some f
        | none => reg.formattersById.lookup innerFmt
      match innerFormatter with
      | none => (none, reg)
      | some inner =>
        let f := Formatter.opt inner
        (some f,
          if isHex then
            { reg with hexFormattersById := emplace reg.hexFormattersById fmt f }
          else { reg with formattersById := emplace reg.formattersById fmt f })
    else if isHex then (reg.formattersById.lookup fmt, reg)
    else (none, reg)

/-- `selectLength`. -/
def selectLength (fmt : Text) : Except FormatError Length :=
  if OPT.isPrefixOf fmt then
    let innerFmt := fmt.drop OPT.length
    match lengthsById.lookup innerFmt with
    | some l => .ok (.opt l)
    | none => .error (.noLength innerFmt)
  else
    match lengthsById.lookup fmt with
    | some l => .ok l
    | none => .error (.noLength fmt)

/-! ## Building a formatter -/

/-- An element of `formatters_`. -/
inductive Entry where
  | formatStatic (t : Text)
  | applyCFormatSpec (spec : CFormatSpec)
  | resetCFormatSpec
  | param (f : Formatter)
  deriving DecidableEq

/-- The variables `init` updates. -/
structure Builder where
  fmtPtr : Text
  formatters : List Entry
  lengths : List Length
  reg : Registry

namespace Builder

/-- `formatters_.push_back`. -/
def push (b : Builder) (e : Entry) : Builder := { b with formatters := b.formatters ++ [e] }

/-- Push only if the condition holds. -/
def pushIf (b : Builder) (c : Bool) (e : Entry) : Builder := if c then b.push e else b

/-- The format code at `fmtPtr`. -/
def fmt (b : Builder) : Text := b.fmtPtr.takeWhile (· != 44)

/-- `fmtEnd`, and one further if a comma stands there. -/
def afterFmt (b : Builder) : Text := (b.fmtPtr.dropWhile (· != 44)).drop 1

/-- The conversion specifiers that pick a hex formatter. -/
def isHexConversion (conversionSpecifier : UInt8) : Bool :=
  conversionSpecifier == 112 || conversionSpecifier == 120

/-- `addFormatter`. -/
def addFormatter (conversionSpecifier : UInt8) (b : Builder) : Except FormatError Builder :=
  match selectFormatter b.reg b.fmt (isHexConversion conversionSpecifier) with
  | (none, _) => .error (.unsupportedFormat b.fmt)
  | (some f, reg) =>
    (selectLength b.fmt).map fun l =>
      { fmtPtr := b.afterFmt, formatters := b.formatters ++ [.param f],
        lengths := b.lengths ++ [l], reg }

/-- One conversion other than `%%`. -/
def addParam (before : Text) (p : ParamSpec) (b : Builder) : Except FormatError Builder :=
  let custom := p.cFormatSpec != CFormatSpec.zero
  let b := b.pushIf (!before.isEmpty) (.formatStatic before)
  -- p format is hex with a 0x prefix
  let b := b.pushIf (p.conversionSpecifier == 112) (.formatStatic (ascii ['0', 'x']))
  let b := b.pushIf custom (.applyCFormatSpec p.cFormatSpec)
  (b.addFormatter p.conversionSpecifier).map fun b => b.pushIf custom .resetCFormatSpec

/-- The loop over the text; the text that is left is not empty only when
the parameters ran out first. Every round consumes at least one character,
so the length of the text is fuel enough. -/
def scan : Nat → Text → Builder → Except FormatError (Text × Builder)
  | 0, msgPtr, b => .ok (msgPtr, b)
  | fuel + 1, msgPtr, b =>
    if msgPtr.isEmpty then .ok (msgPtr, b)
    else do
      match ← nextParam msgPtr with
      | none => return ([], b.push (.formatStatic msgPtr))
      | some (before, p) =>
        if p.conversionSpecifier = 37 then
          scan fuel p.rest (b.push (.formatStatic (before ++ [37])))
        else if b.fmtPtr.isEmpty then return (msgPtr, b)
        else scan fuel p.rest (← b.addParam before p)

/-- The loop over the key for a message whose placeholders do not match its
parameters. The length of the key is fuel enough. -/
def emitAll : Nat → Bool → Builder → Except FormatError Builder
  | 0, _, b => .ok b
  | fuel + 1, first, b =>
    if b.fmtPtr.isEmpty then .ok b
    else do
      let b := b.pushIf (!first) (.formatStatic (ascii [',']))
      emitAll fuel false (← b.addFormatter 115)

end Builder

/-- What a constructed `MessageFormatter` knows. -/
structure MessageFormatter where
  lineno : Nat
  msg : Text
  fmt : Text
  formatters : List Entry
  lengths : List Length
  deriving DecidableEq

namespace MessageFormatter

/-- `wcFormatStr`. -/
def wcFormatStr : Text := ascii ['q', ',', 'q', ',']

/-- A wall-clock message: line number zero, and two 64-bit fields in front
of the others. -/
def isWallClock (lineno : Nat) (fmt : Text) : Bool :=
  lineno == 0 && wcFormatStr.isPrefixOf fmt

/-- What `init` starts from. The wall-clock formatter is in the tables from
the beginning. -/
def start (reg : Registry) (lineno : Nat) (fmt : Text) : Builder :=
  if isWallClock lineno fmt then
    { fmtPtr := fmt.drop wcFormatStr.length, formatters := [.param .wallClockRingBuf],
      lengths := [.wallClock], reg }
  else { fmtPtr := fmt, formatters := [], lengths := [], reg }

/-- Emit the message and the parameters separately. -/
def fallback (reg : Registry) (msg fmt : Text) : Except FormatError Builder :=
  let b : Builder :=
    { fmtPtr := fmt,
      formatters := [.formatStatic msg, .formatStatic (ascii [' ', '%', ' ', '('])],
      lengths := [], reg }
  (b.emitAll fmt.length true).map fun b => b.push (.formatStatic (ascii [')', ' ']))

/-- A C string ends at its first NUL. -/
def c_str (t : Text) : Text := t.takeWhile (· != 0)

/-- The end of `init`: a message might have a different number of parameters
than placeholders. -/
def finish (text key : Text) (r : Text × Builder) : Except FormatError Builder :=
  if !r.1.isEmpty || !r.2.fmtPtr.isEmpty then fallback r.2.reg text key else .ok r.2

/-- The constructor and `init`. -/
def init (reg : Registry) (lineno : Nat) (msg fmt : Text) :
    Except FormatError (MessageFormatter × Registry) := do
  let text := c_str msg
  let key := c_str fmt
  let b ← finish text key (← (start reg lineno key).scan text.length text)
  return ({ lineno, msg, fmt, formatters := b.formatters, lengths := b.lengths }, b.reg)

/-! ## Using a formatter -/

/-- `applyCFormatSpec`. -/
def applyCFormatSpec (spec : CFormatSpec) (os : OStream) : OStream :=
  let fl := os.flags
  let fl := if spec.alternate then { fl with showbase := true } else fl
  let fl := if spec.showPos then { fl with showpos := true } else fl
  let fl := if spec.zeroPad then { fl with fill := 48 } else fl
  let fl := if spec.hasWidth then { fl with fixed := true, width := spec.width.toInt } else fl
  let fl :=
    if spec.hasPrecision then { fl with fixed := true, precision := spec.precision.toInt }
    else fl
  { os with flags := fl }

/-- `resetCFormatSpec`. -/
def resetCFormatSpec (os : OStream) : OStream :=
  { os with flags :=
      { os.flags with showbase := false, showpos := false, fill := 32, fixed := false } }

/-- The loop of `format`; `none` is its `-1`. -/
def formatLoop (m : Mem) (buf : Nat) : List Entry → Nat → OStream → Option Nat × OStream
  | [], n, os => (some n, os)
  | .formatStatic t :: es, n, os => formatLoop m buf es n (os.insert (.text t))
  | .applyCFormatSpec spec :: es, n, os => formatLoop m buf es n (applyCFormatSpec spec os)
  | .resetCFormatSpec :: es, n, os => formatLoop m buf es n (resetCFormatSpec os)
  | .param f :: es, n, os =>
    let r := f.run m (buf + n) os
    if r.1 = 0 then (none, r.2) else formatLoop m buf es (n + r.1) r.2

/-- `format`. -/
def format (mf : MessageFormatter) (m : Mem) (buf : Nat) (os : OStream) :
    Option Nat × OStream :=
  formatLoop m buf mf.formatters 0 os

/-- The loop of `length`. -/
def lengthLoop (m : Mem) (buf : Nat) : List Length → Nat → Option Nat
  | [], n => some n
  | l :: ls, n =>
    let k := l.run m (buf + n)
    if k = 0 then none else lengthLoop m buf ls (n + k)

/-- `length`. -/
def length (mf : MessageFormatter) (m : Mem) (buf : Nat) : Option Nat :=
  lengthLoop m buf mf.lengths 0

end MessageFormatter

end QuickTrace
