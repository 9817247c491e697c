/-
QuickTrace.Dict.MessageParser — reading the descriptors back.

`MessageParser` is the object of `MessageParser.cpp`: a position in the
mapped file and the end of the file at the last `recheck`. The readers take
the text at the position and return what is left of it; a length that points
behind the end of the file takes the rest of it. The file is the list of its
bytes; `parseNew` is the loop of `Messages::parse`, `none` when it does not
come to an end.
-/
import QuickTrace.Dict.MsgDesc

namespace QuickTrace

open QuickTrace.Lib

/-- `Message`: a parsed descriptor. -/
structure Message where
  tsc : UInt64
  msgId : UInt32
  lineno : UInt32
  filename : Text
  msg : Text
  fmt : Text
  deriving DecidableEq

/-- `Message()`. -/
def Message.empty : Message := ⟨0, 0, 0, [], [], []⟩

/-! ## The readers -/

def readU64 (t : Text) : UInt64 × Text :=
  let r := strtoul t
  (UInt64.ofNat r.1, r.2)

def readU32 (t : Text) : UInt32 × Text :=
  let r := strtoul t
  (UInt32.ofNat r.1, r.2)

/-- The value of a little-endian word. -/
def wordOf : List UInt8 → Nat
  | [] => 0
  | b :: bs => b.toNat + 256 * wordOf bs

/-- `readPString`: the length counts a NUL that is not part of the string. -/
def readPString (t : Text) : Text × Text :=
  let len := wordOf (t.take 4)
  let t := t.drop 4
  (t.take ((len + 2 ^ 32 - 1) % 2 ^ 32), t.drop len)

def readStringUntilWhitespace (t : Text) : Text × Text :=
  (t.takeWhile fun c => !isspace c, t.dropWhile fun c => !isspace c)

def skipWhiteSpace (t : Text) : Text := t.dropWhile isspace

/-! ## The parser -/

/-- The fields of the file header that say where the descriptors start. -/
structure TraceFileHeader where
  version : UInt32
  fileSize : Nat
  fileTrailerSize : Nat

/-- `FileTrailerSize`. -/
def FileTrailerSize : Nat := 1024

/-- The header of a new file that maps `mappedSize` bytes. -/
def TraceFileHeader.ofSize (mappedSize : Nat) : TraceFileHeader where
  version := 5
  fileSize := mappedSize
  fileTrailerSize := FileTrailerSize

structure MessageParser where
  index : UInt32
  version : UInt32
  p : Nat
  end_ : Nat
  deriving DecidableEq

namespace MessageParser

/-- `recheck`: look at the size of the file again. -/
def recheck (ps : MessageParser) (file : List UInt8) : MessageParser :=
  { ps with end_ := file.length }

/-- `initialize`: the descriptors stand behind the mapped part and its
trailer. -/
def initialized (tfh : TraceFileHeader) (file : List UInt8) : MessageParser :=
  ({ index := 0, version := tfh.version, p := tfh.fileSize + tfh.fileTrailerSize, end_ := 0 } :
    MessageParser).recheck file

/-- `more`. -/
def more (ps : MessageParser) : Bool := ps.p < ps.end_

/-- The part of `parse` that reads: the message and the text behind it. -/
def readMessage (version index : UInt32) (t : Text) : Message × Text :=
  let tsc := readU64 t
  let filename := readStringUntilWhitespace (skipWhiteSpace tsc.2)
  let lineNo := readU32 (skipWhiteSpace filename.2)
  -- before version 3 the position of a descriptor is its id
  let msgId := if 3 ≤ version then readU32 (skipWhiteSpace lineNo.2) else (index, lineNo.2)
  let msg := readPString (msgId.2.drop 1)
  let fmt := readPString msg.2
  (⟨tsc.1, msgId.1, lineNo.1, filename.1, msg.1, fmt.1⟩, fmt.2)

/-- `parse`: an empty message, and no progress, at the end or at a NUL. -/
def parse (ps : MessageParser) (file : List UInt8) : Message × MessageParser :=
  if ps.more ∧ file[ps.p]? ≠ some 0 then
    let index := ps.index + 1
    let r := readMessage ps.version index (file.drop ps.p)
    (r.1, { ps with index, p := file.length - r.2.length })
  else (Message.empty, ps)

/-- `while ( more() ) parse()`, for at most `fuel` rounds. -/
def parseLoop (file : List UInt8) : Nat → MessageParser → Option (List Message × MessageParser)
  | 0, ps => if ps.more then none else some ([], ps)
  | fuel + 1, ps =>
    if ps.more then
      let r := ps.parse file
      (parseLoop file fuel r.2).map fun rs => (r.1 :: rs.1, rs.2)
    else some ([], ps)

/-- `recheck`, then the loop. Every round that reads a message moves the
position, so there are no more rounds than bytes, unless the loop does not
end. -/
def parseNew (ps : MessageParser) (file : List UInt8) : Option (List Message × MessageParser) :=
  parseLoop file file.length (ps.recheck file)

end MessageParser

/-! ## A file that grows -/

/-- What a reader has found when it has looked at the file once. -/
structure Round where
  messages : List Message
  p : Nat
  fileSize : Nat
  deriving DecidableEq

/-- A reader that looks at the file each time after more bytes have been
appended. -/
def MessageParser.follow (ps : MessageParser) (file : List UInt8) :
    List (List UInt8) → Option (List Round)
  | [] => some []
  | bytes :: portions =>
    (ps.parseNew (file ++ bytes)).bind fun r =>
      (follow r.2 (file ++ bytes) portions).map fun rounds =>
        ⟨r.1, r.2.p, (file ++ bytes).length⟩ :: rounds

end QuickTrace
