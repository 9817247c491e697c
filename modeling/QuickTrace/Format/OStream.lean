/-
QuickTrace.Format.OStream — the output stream the formatters write to.

An `OStream` keeps the formatting flags of a `std::ostream` and the pieces
inserted so far, each with the flags that were in force when it came in.
`values` forgets everything but the decoded values; `text` is what reaches
the terminal. How a floating-point number is spelled is a parameter
(`FloatText`): the spelling belongs to the C++ library.
-/
import QuickTrace.Format.Value
import QuickTrace.Lib.Ascii

namespace QuickTrace

open QuickTrace.Lib

/-! ## Flags -/

/-- The formatting state: `basefield`, `showbase`, `showpos`, `floatfield`,
the fill character, the width of the next insertion and the precision. -/
structure Flags where
  hex : Bool
  showbase : Bool
  showpos : Bool
  fixed : Bool
  fill : UInt8
  width : Int
  precision : Int
  deriving DecidableEq

/-- The flags of a fresh stream. -/
def Flags.initial : Flags :=
  { hex := false, showbase := false, showpos := false, fixed := false, fill := 32,
    width := 0, precision := 6 }

/-! ## Pieces -/

/-- What was inserted. Only `text` carries no decoded value. -/
inductive Piece where
  | text (t : Text)
  | bool (b : Bool)
  | char (c : UInt8)
  | num (n : Nat)
  | str (t : Text)
  | float (bits : UInt32)
  | double (bits : UInt64)
  | optionalNone
  deriving DecidableEq

/-- The piece stands for a decoded value. -/
def Piece.isValue : Piece → Bool
  | .text _ => false
  | _ => true

/-- How the C++ library spells floating-point numbers: `std::to_string`, and
insertion into a stream with the given flags. -/
structure FloatText where
  floatToString : UInt32 → Text
  doubleToString : UInt64 → Text
  insertFloat : Flags → UInt32 → Text
  insertDouble : Flags → UInt64 → Text

/-- `float_to_string`: remove the trailing zeros after the period, except
one. -/
def float_to_string (str : Text) : Text :=
  if (46 : UInt8) ∈ str then
    let zeros := str.reverse.takeWhile (· == 48)
    let kept := str.take (str.length - zeros.length)
    if kept.getLast? = some 46 then str.take (kept.length + 1) else kept
  else str

/-- The switch of `formatChar`: C escapes for what does not print. -/
def charString (c : UInt8) : Text :=
  if c = 10 then ascii ['\\', 'n']
  else if c = 13 then ascii ['\\', 'r']
  else if c = 9 then ascii ['\\', 't']
  else if c = 39 then ascii ['\\', '\'']
  else if c = 92 then ascii ['\\', '\\']
  else if isprint c then [c]
  else ascii ['\\', 'x'] ++ [digitChar (c.toNat / 16), digitChar (c.toNat % 16)]

/-- The digits of an unsigned insertion. A zero never gets a base prefix. -/
def numString (fl : Flags) (n : Nat) : Text :=
  if fl.hex then
    (if fl.showbase && n != 0 then ascii ['0', 'x'] else []) ++ numeral 16 n
  else numeral 10 n

/-- The characters of a piece before padding. -/
def Piece.string (ft : FloatText) (fl : Flags) : Piece → Text
  | .text t => t
  | .bool b => if b then ascii ['T', 'r', 'u', 'e'] else ascii ['F', 'a', 'l', 's', 'e']
  | .char c => charString c
  | .num n => numString fl n
  | .str t => t
  | .float bits =>
    if fl.fixed then ft.insertFloat fl bits else float_to_string (ft.floatToString bits)
  | .double bits =>
    if fl.fixed then ft.insertDouble fl bits else float_to_string (ft.doubleToString bits)
  | .optionalNone =>
    ascii ['O', 'p', 't', 'i', 'o', 'n', 'a', 'l', 'N', 'o', 'n', 'e']

/-- Right-adjusted output of a formatted insertion; `os.write`, which only
strings use, does not look at the width. -/
def Piece.rendered (ft : FloatText) (fl : Flags) (p : Piece) : Text :=
  match p with
  | .str t => t
  | p =>
    let s := p.string ft fl
    List.replicate (fl.width.toNat - s.length) fl.fill ++ s

/-! ## The stream -/

/-- A stream: its flags, and what went through it. -/
structure OStream where
  flags : Flags
  out : List (Flags × Piece)
  deriving DecidableEq

namespace OStream

/-- An untouched stream. -/
def fresh : OStream := ⟨Flags.initial, []⟩

/-- `os << x`; the width only holds for one insertion. -/
def insert (os : OStream) (p : Piece) : OStream :=
  { flags := { os.flags with width := 0 }, out := os.out ++ [(os.flags, p)] }

/-- `os.write( s, n )`. -/
def write (os : OStream) (t : Text) : OStream :=
  { os with out := os.out ++ [(os.flags, .str t)] }

/-- `os << std::hex`, `os << std::dec`. -/
def setHex (os : OStream) (b : Bool) : OStream :=
  { os with flags := { os.flags with hex := b } }

/-- The decoded values, in order. -/
def values (os : OStream) : List Piece := (os.out.map Prod.snd).filter Piece.isValue

/-- The characters written. -/
def text (ft : FloatText) (os : OStream) : Text :=
  os.out.flatMap fun fp => fp.2.rendered ft fp.1

@[simp] theorem values_insert (os : OStream) (p : Piece) :
    (os.insert p).values = os.values ++ if p.isValue then [p] else [] := by
  simp only [values, insert, List.map_append, List.filter_append, List.map_cons, List.map_nil,
    List.filter_cons, List.filter_nil]

@[simp] theorem values_write (os : OStream) (t : Text) :
    (os.write t).values = os.values ++ [.str t] := by
  simp [values, write, Piece.isValue]

@[simp] theorem values_setHex (os : OStream) (b : Bool) : (os.setHex b).values = os.values := rfl

@[simp] theorem text_insert (ft : FloatText) (os : OStream) (p : Piece) :
    (os.insert p).text ft = os.text ft ++ p.rendered ft os.flags := by
  simp [text, insert]

@[simp] theorem text_write (ft : FloatText) (os : OStream) (t : Text) :
    (os.write t).text ft = os.text ft ++ t := by
  simp [text, write, Piece.rendered]

@[simp] theorem text_setHex (ft : FloatText) (os : OStream) (b : Bool) :
    (os.setHex b).text ft = os.text ft := rfl

end OStream

end QuickTrace
