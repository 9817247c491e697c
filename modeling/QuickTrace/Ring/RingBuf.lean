/-
QuickTrace.Ring.RingBuf — the writer of one trace level.

`RingBuf` is the object of `QuickTraceRingBuf.h`: pointers are offsets into
the mapped trace file, and `msgStart` is `none` where the source has a null
pointer. The writer never reads the buffer back, so every function returns
its new pointers together with the stores it performs, in program order;
`Mem.applyAll` turns the stores into the new file contents. The message
counters live in front of the levels and are kept as a typed array.

`startMsg` reads the clock once, after a possible wrap; the reading is the
argument `tsc`. `takeTimestamp` (header fields only) and `maybeBackupBuffer`
(another file) are outside the level's bytes and left out here.
-/
import QuickTrace.Format.Value

namespace QuickTrace

open QuickTrace.Lib

/-! ## Message counters -/

/-- `MsgCounter`: the high bit of `lastTsc` disables the statement. -/
structure MsgCounter where
  count : UInt32
  lastTsc : UInt32
  tscCount : UInt64
  tscSelfCount : UInt64
  deriving DecidableEq

/-- A counter as a freshly cleared file has it. -/
def MsgCounter.zero : MsgCounter := ⟨0, 0, 0, 0⟩

/-- The counters of a file and how many there are. -/
structure MsgCounters where
  numMsgCounters : Nat
  counter : Nat → MsgCounter

/-- The off bit of a hit time. -/
def offBit (lastTsc : UInt32) : UInt32 := lastTsc &&& 0x80000000

/-- `updateLastTsc`: new hit time, old off bit. -/
def updateLastTsc (lastTscValue : UInt32) (tsc : UInt64) : UInt32 :=
  (((tsc >>> 28).toUInt32) &&& 0x7FFFFFFF) ||| offBit lastTscValue

/-- A hit keeps the off bit. -/
theorem offBit_updateLastTsc (v : UInt32) (tsc : UInt64) :
    offBit (updateLastTsc v tsc) = offBit v := by
  unfold updateLastTsc offBit
  have h : ∀ a b : BitVec 32, (a &&& 0x7fffffff ||| b &&& 0x80000000) &&& 0x80000000
      = b &&& 0x80000000 := by
    intro a b
    rw [BitVec.and_or_distrib_right, BitVec.and_assoc, BitVec.and_assoc]
    simp
  exact UInt32.toBitVec_inj.mp (h _ _)

namespace MsgCounters

/-- `msgCounter( id )` finds the counter by the id modulo their number. -/
def index (cs : MsgCounters) (id : UInt32) : Nat := id.toNat % cs.numMsgCounters

/-- The statement with this id is switched off. -/
def off (cs : MsgCounters) (id : UInt32) : Bool :=
  offBit (cs.counter (cs.index id)).lastTsc != 0

/-- Replace the counter of one id. -/
def modify (cs : MsgCounters) (id : UInt32) (f : MsgCounter → MsgCounter) : MsgCounters :=
  { cs with counter := fun i =>
      if i = cs.index id then f (cs.counter i) else cs.counter i }

/-- The counter part of `startMsg`. -/
def hit (cs : MsgCounters) (id : UInt32) (tsc : UInt64) : MsgCounters :=
  cs.modify id fun mc =>
    { mc with lastTsc := updateLastTsc mc.lastTsc tsc, count := mc.count + 1 }

/-- A hit switches no statement on or off. -/
theorem off_hit (cs : MsgCounters) (id : UInt32) (tsc : UInt64) (i : UInt32) :
    (cs.hit id tsc).off i = cs.off i := by
  have hindex : (cs.hit id tsc).index i = cs.index i := rfl
  unfold off
  rw [hindex]
  simp only [hit, modify]
  split
  · rw [offBit_updateLastTsc]
  · rfl

end MsgCounters

/-! ## The ring buffer -/

/-- The pointers of one level's writer. -/
structure RingBuf where
  ptr : Nat
  msgStart : Option Nat
  bufEnd : Nat
  buf : Nat
  deriving DecidableEq, Repr

namespace RingBuf

/-- `TrailerSize`. -/
def TrailerSize : Nat := 256

/-- `sizeof( RingBufHeader )`: the tail pointer. -/
def headerSize : Nat := 4

/-- `memset( p, -1, sizeof( uint64_t ) )`. -/
def ones : List UInt8 := List.replicate 8 0xff

/-- `memset( p, 0, sizeof( uint64_t ) )`. -/
def zeros : List UInt8 := List.replicate 8 0

/-- `enabled()`. -/
def enabled (rb : RingBuf) : Bool := rb.msgStart.isSome

/-- `doWrap`: mark the end of the last message, publish the tail pointer
and go back to the first message. -/
def doWrap (rb : RingBuf) : RingBuf × List Store :=
  ({ rb with ptr := rb.buf + headerSize },
   [⟨rb.ptr, ones⟩, ⟨rb.buf, leBytes 4 (rb.ptr - rb.buf)⟩])

/-- `bufIs`: lay out an empty level. -/
def bufIs (buf bufSize : Nat) : RingBuf × List Store :=
  let bufEnd := buf + bufSize - TrailerSize
  let rb : RingBuf := { ptr := buf, msgStart := none, bufEnd, buf }
  let w := rb.doWrap
  (w.1, ⟨bufEnd, List.replicate TrailerSize 0xff⟩ :: w.2 ++ [⟨w.1.ptr, zeros⟩])

/-- `maybeWrap`. -/
def maybeWrap (rb : RingBuf) : RingBuf × List Store :=
  if rb.bufEnd ≤ rb.ptr then rb.doWrap else (rb, [])

/-- `push`: copy an object of `bs.length` bytes. -/
def push (rb : RingBuf) (bs : List UInt8) : RingBuf × List Store :=
  ({ rb with ptr := rb.ptr + bs.length }, [⟨rb.ptr, bs⟩])

/-- `startMsg`. -/
def startMsg (rb : RingBuf) (cs : MsgCounters) (tsc : UInt64) (id : UInt32) :
    RingBuf × MsgCounters × List Store :=
  let w := rb.maybeWrap
  if cs.off id then
    ({ w.1 with msgStart := none }, cs.hit id tsc, w.2)
  else
    let t := w.1.push (leBytes 8 tsc.toNat)
    let i := t.1.push (leBytes 4 id.toNat)
    ({ i.1 with msgStart := some w.1.ptr }, cs.hit id tsc, w.2 ++ t.2 ++ i.2)

/-- `endMsg`: the length byte, then the zero end mark behind it. -/
def endMsg (rb : RingBuf) : RingBuf × List Store :=
  match rb.msgStart with
  | none => (rb, [])
  | some msgStart =>
    ({ rb with ptr := rb.ptr + 1 },
     [⟨rb.ptr, [UInt8.ofNat (rb.ptr - msgStart)]⟩, ⟨rb.ptr + 1, zeros⟩])

/-! ## Arguments -/

/-- The copy loop of `putWithMaxLen`: how many characters were copied, and
the stores. -/
def copyLoop (ptr1 : Nat) : Nat → Text → Nat → Nat × List Store
  | 0, _, i => (i, [])
  | _ + 1, [], i => (i, [])
  | maxLen + 1, c :: cs, i =>
    if c = 0 then (i, [])
    else
      let r := copyLoop ptr1 maxLen cs (i + 1)
      (r.1, ⟨ptr1 + i, [c]⟩ :: r.2)

/-- `putWithMaxLen`: the characters first, their number in front of them
last. -/
def putWithMaxLen (rb : RingBuf) (x : Text) (maxLen : Nat) : RingBuf × List Store :=
  let r := copyLoop (rb.ptr + 1) maxLen x 0
  ({ rb with ptr := rb.ptr + 1 + r.1 }, r.2 ++ [⟨rb.ptr, [UInt8.ofNat r.1]⟩])

/-- The limit of `putLongString`. -/
def LONGSTRING_LIMIT : Nat := 240

/-- `putLongString`. -/
def putLongString (rb : RingBuf) (x : Text) : RingBuf × List Store :=
  rb.putWithMaxLen x LONGSTRING_LIMIT

/-- `put`, overloaded on the type of the value; `qtMaxStringLen` bounds the
strings. -/
def put (qtMaxStringLen : Nat) (rb : RingBuf) : Value → RingBuf × List Store
  | .char x => rb.push [x]
  | .bool x => rb.push [if x then 1 else 0]
  | .u8 x => rb.push [x]
  | .i8 x => rb.push [x.toUInt8]
  | .u16 x => rb.push (leBytes 2 x.toNat)
  | .i16 x => rb.push (leBytes 2 x.toUInt16.toNat)
  | .u32 x => rb.push (leBytes 4 x.toNat)
  | .i32 x => rb.push (leBytes 4 x.toUInt32.toNat)
  | .u64 x => rb.push (leBytes 8 x.toNat)
  | .i64 x => rb.push (leBytes 8 x.toUInt64.toNat)
  | .float bits => rb.push (leBytes 4 bits.toNat)
  | .double bits => rb.push (leBytes 8 bits.toNat)
  | .str x => rb.putWithMaxLen x qtMaxStringLen
  | .ptr x => rb.push (leBytes 8 x.toNat)
  | .optNone _ => rb.push [0]
  | .optSome v =>
    let f := rb.push [1]
    let p := put qtMaxStringLen f.1 v
    (p.1, f.2 ++ p.2)

/-- What a statement streams into the buffer: a value through `put`, or a
long string through `putLongStr`. -/
inductive Arg where
  | val (v : Value)
  | longStr (x : Text)
  deriving DecidableEq

/-- `operator<<` and `putLongStr`: nothing happens unless the message is
enabled. -/
def putArg (qtMaxStringLen : Nat) (rb : RingBuf) (a : Arg) : RingBuf × List Store :=
  if rb.enabled then
    match a with
    | .val v => rb.put qtMaxStringLen v
    | .longStr x => rb.putLongString x
  else (rb, [])

/-- Stream the arguments in order. -/
def putArgs (qtMaxStringLen : Nat) (rb : RingBuf) : List Arg → RingBuf × List Store
  | [] => (rb, [])
  | a :: as =>
    let p := rb.putArg qtMaxStringLen a
    let q := putArgs qtMaxStringLen p.1 as
    (q.1, p.2 ++ q.2)

end RingBuf

/-! ## One trace statement -/

/-- One execution of a trace statement: the clock reading, the message id
and the arguments. -/
structure Hit where
  tsc : UInt64
  id : UInt32
  args : List RingBuf.Arg
  deriving DecidableEq

/-- `startMsg`, the puts and `endMsg` of one statement. -/
def RingBuf.trace (qtMaxStringLen : Nat) (rb : RingBuf) (cs : MsgCounters) (h : Hit) :
    RingBuf × MsgCounters × List Store :=
  let s := rb.startMsg cs h.tsc h.id
  let p := s.1.putArgs qtMaxStringLen h.args
  let e := p.1.endMsg
  (e.1, s.2.1, s.2.2 ++ p.2 ++ e.2)

end QuickTrace
