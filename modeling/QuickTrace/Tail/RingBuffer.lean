/-
QuickTrace.Tail.RingBuffer — the reader of one level.

`RingBuffer` is the object of `qttail.cpp`: a cursor into the mapped file,
the timestamp of the last message and a counter of failed attempts. All
functions read the file as it is at one moment (`m`); `msgs` is the table of
descriptors and `tail` the option that distinguishes tailing from `-c`.
Addresses and timestamps are natural numbers; a timestamp is the word loaded
from eight bytes.

Output goes to an `Output`: the formatting flags of `std::cout`, the
timestamp of the last line, and the lines. The text of the wall-clock column
and the optional columns (`-f`, `-x`, `--tsc`, `-w`) are left out.
-/
import QuickTrace.Format.MessageFormatter

namespace QuickTrace

open QuickTrace.Lib

/-- `UINT64_MAX`. -/
def UINT64_MAX : Nat := 2 ^ 64 - 1

/-! ## Descriptors -/

/-- The descriptors parsed so far, by message id. -/
abbrev Messages := Nat → Option MessageFormatter

/-- `Messages::get`: a descriptor without text does not count. -/
def Messages.get (msgs : Messages) (msgId : Nat) : Option MessageFormatter :=
  (msgs msgId).filter fun f => !f.msg.isEmpty

/-! ## Output -/

/-- One printed line. -/
structure Line where
  tsc : Nat
  level : Nat
  msgId : Nat
  delta : Nat
  body : List (Flags × Piece)
  deriving DecidableEq

/-- The decoded values a line shows. -/
def Line.values (l : Line) : List Piece := (l.body.map Prod.snd).filter Piece.isValue

/-- What has been written. -/
structure Output where
  flags : Flags
  lastPrintedTsc : Nat
  lines : List Line

/-- Before the first line. -/
def Output.empty : Output := ⟨Flags.initial, 0, []⟩

/-! ## The reader -/

/-- Why a `CorruptionError` is thrown. -/
inductive CorruptionReason where
  | invalidTsc
  | invalidMessageId
  | invalidParameterData
  | invalidLength
  | invalidNextTsc
  | failedToDump
  | invalidLengthAfterDump
  deriving DecidableEq, Repr

/-- `CorruptionError`. -/
structure CorruptionError where
  msgId : Nat
  reason : CorruptionReason
  deriving DecidableEq, Repr

/-- A reader of one level. -/
structure RingBuffer where
  corruption : Nat
  level : Nat
  start : Nat
  end_ : Nat
  cur : Nat
  lastTsc : Nat
  deriving DecidableEq, Repr

namespace RingBuffer

/-- `corruptionThreshold_`. -/
def corruptionThreshold : Nat := 1024

/-- The constructor: skip the tail pointer, exclude the trailer. -/
def create (level start end_ : Nat) : RingBuffer where
  corruption := 0
  level := level
  start := start + 4
  end_ := end_ - 256
  cur := start + 4
  lastTsc := 0

variable (m : Mem) (msgs : Messages) (tail : Bool)

/-- `nextTsc`. -/
def nextTsc (rb : RingBuffer) : Nat :=
  let tsc := m.load rb.cur 8
  -- at the start of the buffer an old message may stand
  if rb.cur = rb.start ∧ tsc < rb.lastTsc then 0 else tsc

/-- `isValidTsc`. -/
def isValidTsc (rb : RingBuffer) (tsc curTsc : Nat) : Bool :=
  0 < tsc && rb.lastTsc ≤ tsc && tsc < curTsc

/-- A failed check: no message, or corruption if it has failed too often. -/
def reject {α : Type} (rb : RingBuffer) (e : CorruptionError) :
    Except CorruptionError (Option α) :=
  if corruptionThreshold ≤ rb.corruption then .error e else .ok none

/-- The timestamp that must be plausible behind a message that ends at `q`;
`none` when the trailer holds something else than zeros or ones. -/
def followingTsc (rb : RingBuffer) (q : Nat) : Option Nat :=
  let nextTsc := m.load q 8
  if nextTsc ≠ 0 ∧ rb.end_ ≤ q then
    if nextTsc = UINT64_MAX then
      -- incomplete or wrapped: when tailing, the start of the buffer tells
      some (if tail then m.load rb.start 8 else 0)
    else none
  else some nextTsc

/-- The last check of `next`, on what follows a message that ends at `q`. -/
def checkFollowing (rb : RingBuffer) (curTsc tsc msgId q : Nat) :
    Except CorruptionError (Option (Nat × Nat)) :=
  match rb.followingTsc m tail q with
  | none => rb.reject ⟨msgId, .invalidNextTsc⟩
  | some nextTsc =>
    if nextTsc ≠ 0 ∧ (nextTsc < tsc ∨ curTsc < nextTsc) then
      rb.reject ⟨msgId, .invalidNextTsc⟩
    else .ok (some (tsc, msgId))

/-- `next`: timestamp and id of the message at the cursor, or `none` for the
result zero. -/
def next (rb : RingBuffer) (curTsc : Nat) : Except CorruptionError (Option (Nat × Nat)) :=
  let tsc := rb.nextTsc m
  if tsc = 0 then .ok none
  else if !rb.isValidTsc tsc curTsc then rb.reject ⟨0, .invalidTsc⟩
  else
    let msgId := m.load (rb.cur + 8) 4
    match msgs.get msgId with
    | none => rb.reject ⟨msgId, .invalidMessageId⟩
    | some formatter =>
      match formatter.length m (rb.cur + 12) with
      | none => rb.reject ⟨msgId, .invalidParameterData⟩
      | some length =>
        let expectedLength := (m (rb.cur + 12 + length)).toNat
        if length + 12 ≠ expectedLength then rb.reject ⟨msgId, .invalidLength⟩
        else rb.checkFollowing m tail curTsc tsc msgId (rb.cur + 13 + length)

/-- Behind a message of which `n` bytes were decoded; at the end of the
usable area the cursor goes back to the start. -/
def advance (rb : RingBuffer) (tsc n : Nat) : RingBuffer :=
  let cur := rb.cur + 13 + n
  { rb with cur := if rb.end_ ≤ cur then rb.start else cur, lastTsc := tsc, corruption := 0 }

/-- The line `dump` prints. -/
def line (rb : RingBuffer) (out : Output) (tsc msgId : Nat) (body : OStream) : Line where
  tsc := tsc
  level := rb.level
  msgId := msgId
  delta := (tsc + 2 ^ 64 - out.lastPrintedTsc) % 2 ^ 64
  body := body.out

/-- `dump`: print the message at the cursor. The first component is its
result, `true` when the caller has to look at all levels again; a thrown
error leaves the reader as it was. -/
def dump (rb : RingBuffer) (orderTsc curTsc : Nat) (out : Output) :
    Except CorruptionError (Bool × RingBuffer) × Output :=
  match rb.next m msgs tail curTsc with
  | .error e => (.error e, out)
  | .ok none => (.ok (false, { rb with corruption := rb.corruption + 1 }), out)
  | .ok (some (tsc, msgId)) =>
    if tsc ≠ orderTsc then (.ok (true, { rb with corruption := rb.corruption + 1 }), out)
    else
      match msgs.get msgId with
      | none => (.error ⟨msgId, .failedToDump⟩, out)
      | some formatter =>
        let r := formatter.format m (rb.cur + 12) ⟨{ out.flags with width := 0 }, []⟩
        let out' : Output :=
          { flags := { r.2.flags with width := 0 }, lastPrintedTsc := tsc,
            lines := out.lines ++ [rb.line out tsc msgId r.2] }
        match r.1 with
        | none => (.error ⟨msgId, .failedToDump⟩, out')
        | some n =>
          if n + 12 ≠ (m (rb.cur + n + 12)).toNat then
            (.error ⟨msgId, .invalidLengthAfterDump⟩, out')
          else (.ok (true, rb.advance tsc n), out')

/-- `skip`: step over the message at the cursor; `none` is the result
`false`. -/
def skip (rb : RingBuffer) : Except CorruptionError (Option RingBuffer) := do
  match ← rb.next m msgs tail UINT64_MAX with
  | none => return none
  | some (tsc, msgId) =>
    match (msgs.get msgId).bind fun f => f.length m (rb.cur + 12) with
    | none => return none
    | some n => return some { rb with cur := rb.cur + 13 + n, lastTsc := tsc }

/-- The loop of `fastforward`; `none` when the fuel runs out first. -/
def skipAll : Nat → RingBuffer → Except CorruptionError (Option RingBuffer)
  | 0, _ => .ok none
  | fuel + 1, rb => do
    match ← rb.skip m msgs tail with
    | none => return some rb
    | some rb' => skipAll fuel rb'

/-- `fastforward`. -/
def fastforward (fuel : Nat) (rb : RingBuffer) : Except CorruptionError (Option RingBuffer) :=
  (rb.skipAll m msgs tail fuel).map fun r =>
    r.map fun rb => if rb.end_ ≤ rb.cur then { rb with cur := rb.start } else rb

/-- `reset`; `none` when the cursor is at the start already. -/
def reset (rb : RingBuffer) : Option RingBuffer :=
  if rb.cur = rb.start then none
  else some { rb with corruption := 0, cur := rb.start, lastTsc := rb.lastTsc + 1 }

/-! ## Going to the first message -/

/-- The loop of `rewind` that goes forward over the current generation; its
every round moves the cursor towards `end_`, which bounds the rounds. `none`
is a message that cannot be measured, or a `CorruptionError`. -/
def forward : Nat → RingBuffer → Option RingBuffer
  | 0, rb => some rb
  | fuel + 1, rb =>
    if rb.cur < rb.end_ then
      match rb.next m msgs tail UINT64_MAX with
      | .error _ => none
      | .ok none => some rb
      | .ok (some (tsc, msgId)) =>
        match (msgs.get msgId).bind fun f => f.length m (rb.cur + 12) with
        | none => none
        | some n => forward fuel { rb with cur := rb.cur + 13 + n, lastTsc := tsc }
    else some rb

/-- The variables of the backward loop. -/
structure Walk where
  p : Nat
  cur : Nat
  movedBackNumMsgs : Nat

/-- The loop of `rewind` that goes backwards over length bytes. `p` gets
smaller in every round, which bounds the rounds. -/
def walkBack (splitPoint : Nat) : Nat → Walk → Walk
  | 0, w => w
  | fuel + 1, w =>
    if splitPoint < w.p then
      walkBack splitPoint fuel
        { p := w.p - (1 + (m (w.p - 1)).toNat), cur := w.p,
          movedBackNumMsgs := w.movedBackNumMsgs + 1 }
    else w

/-- Where `rewind` goes when the ring has wrapped and its tail pointer is
`e`. -/
def seek (rb : RingBuffer) (e : Nat) : RingBuffer :=
  let splitPoint := rb.cur + 8
  let p := rb.start - 4 + e
  if p ≤ splitPoint then { rb with cur := rb.start }
  else
    let w := walkBack m splitPoint p { p, cur := rb.cur, movedBackNumMsgs := 0 }
    if w.p < splitPoint ∧ w.movedBackNumMsgs = 1 then { rb with cur := rb.start }
    else { rb with cur := w.cur }

/-- `rewind`; `none` is the result `false`. -/
def rewind (rb : RingBuffer) : Option RingBuffer :=
  let rb := { rb with corruption := corruptionThreshold }
  let e := m.load (rb.start - 4) 4
  let found := if e = 0 then some rb else (rb.forward m msgs tail rb.end_).map (seek m · e)
  found.map fun rb => { rb with lastTsc := m.load rb.cur 8, corruption := 0 }

end RingBuffer

end QuickTrace
