/-
QuickTrace.Format.Value — the values a trace statement may record, and the
format key that describes them.

`Ty` is the grammar of the types that `put` and `formatString` are
overloaded for (`QuickTraceRingBuf.h`, `QuickTraceFormatString.h`,
`QuickTraceOptFormatter.h`) on a 64-bit host; a `Value` is one argument.
Signed integers keep their sign here. The ring buffer only ever sees their
bits, because `push` copies the object representation.

Text is a list of bytes, as in the source: no encoding is assumed anywhere.
-/
import Mathlib.Data.List.TakeWhile
import QuickTrace.Lib.Mem

namespace QuickTrace

open QuickTrace.Lib

/-- A C string without its terminator, or the characters of a `std::string`. -/
abbrev Text := List UInt8

/-- The bytes of an ASCII literal. -/
def ascii (s : List Char) : Text := s.map Char.toUInt8

/-- What holds of each character of a literal. -/
theorem forall_mem_text {p : UInt8 → Prop} [DecidablePred p] {t : Text}
    (h : t.all (fun c => decide (p c)) = true) : ∀ c ∈ t, p c := fun c hc => by
  simpa using List.all_eq_true.mp h c hc

/-- A text without NUL is its own C string. -/
theorem takeWhile_ne_zero {t : Text} (h : ∀ c ∈ t, c ≠ 0) : t.takeWhile (· != 0) = t := by
  rw [List.takeWhile_eq_self_iff]
  intro c hc
  simpa using h c hc

/-! ## Types and values -/

/-- The traceable types. -/
inductive Ty where
  | char
  | bool
  | u8
  | i8
  | u16
  | i16
  | u32
  | i32
  | u64
  | i64
  | float
  | double
  | str
  | ptr
  | opt (t : Ty)
  deriving DecidableEq, Repr

/-- How many `std::optional` are wrapped around the innermost type. -/
def Ty.optDepth : Ty → Nat
  | .opt t => t.optDepth + 1
  | _ => 0

/-- One argument of a trace statement. Floating-point values are their
bits; a string is the characters before the terminating NUL. -/
inductive Value where
  | char (x : UInt8)
  | bool (x : Bool)
  | u8 (x : UInt8)
  | i8 (x : Int8)
  | u16 (x : UInt16)
  | i16 (x : Int16)
  | u32 (x : UInt32)
  | i32 (x : Int32)
  | u64 (x : UInt64)
  | i64 (x : Int64)
  | float (bits : UInt32)
  | double (bits : UInt64)
  | str (x : Text)
  | ptr (x : UInt64)
  | optNone (t : Ty)
  | optSome (v : Value)
  deriving DecidableEq

/-- The static type the overloads are resolved on. -/
def Value.ty : Value → Ty
  | .char _ => .char
  | .bool _ => .bool
  | .u8 _ => .u8
  | .i8 _ => .i8
  | .u16 _ => .u16
  | .i16 _ => .i16
  | .u32 _ => .u32
  | .i32 _ => .i32
  | .u64 _ => .u64
  | .i64 _ => .i64
  | .float _ => .float
  | .double _ => .double
  | .str _ => .str
  | .ptr _ => .ptr
  | .optNone t => .opt t
  | .optSome v => .opt v.ty

/-! ## Format keys -/

/-- `formatString`, overloaded on the type. The optional case builds
`OPT<FORMAT>` in a 16 byte buffer and cuts what does not fit. -/
def formatString : Ty → Text
  | .char => ascii ['c']
  | .bool => ascii ['b']
  | .u8 => ascii ['u']
  | .i8 => ascii ['u']
  | .u16 => ascii ['s']
  | .i16 => ascii ['s']
  | .u32 => ascii ['i']
  | .i32 => ascii ['i']
  | .u64 => ascii ['q']
  | .i64 => ascii ['q']
  | .float => ascii ['f']
  | .double => ascii ['d']
  | .str => ascii ['p']
  | .ptr => ascii ['q']
  | .opt t => ascii ['O', 'P', 'T'] ++ (formatString t).take (16 - 3 - 1)

namespace MsgFormatString

/-- The size of the key buffer. -/
def keySize : Nat := 256

/-- `MsgFormatString::put`: a comma unless the key is still empty, then the
code and its NUL. `none` when `memccpy` runs out of buffer before the NUL. -/
def put (key ss : Text) : Option Text :=
  let key' := if key.isEmpty then ss else key ++ ascii [','] ++ ss
  if key'.length < keySize then some key' else none

/-- The key after `formatString() << v₁ << v₂ << …`. -/
def putAll (key : Text) : List Ty → Option Text
  | [] => some key
  | t :: ts => (put key (formatString t)).bind fun key' => putAll key' ts

/-- The key of an argument list. -/
def ofTypes (ts : List Ty) : Option Text := putAll [] ts

end MsgFormatString

end QuickTrace
