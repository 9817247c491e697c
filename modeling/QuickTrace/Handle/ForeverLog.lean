/-
QuickTrace.Handle.ForeverLog — the backups of a trace file.

A handle with a forever-log path copies its whole trace file each time one of
its levels has wrapped, to a name that ends in `foreverLogIndex`. The copy is
taken in the middle of `startMsg`: the marks of the wrap are written, and the
message that wraps is not. The destination is opened without `O_TRUNC`, so
that what was there before and is longer keeps its end.

The state is the trace file, its descriptors, the index and the other files;
`wraps` remembers for each wrap the generation that it ended, and the backup
if `foreverLogIndex` was incremented. Header and counters are bytes that are
not looked at here. A name stands for one file: links are left out.
-/
import QuickTrace.Tail.Messages
import QuickTrace.Tail.CatLevels
import QuickTrace.Handle.Rotation

namespace QuickTrace.ForeverLog

open QuickTrace.Lib RingBuf

/-! ## The handle and its files -/

/-- What a `TraceHandle` is constructed with, and `qtMaxStringLen`. -/
structure TraceHandle where
  fileName : Text
  foreverLogPath : Text
  spec : SizeSpec
  logStart : Nat
  n : Nat

/-- How far the calls of `maybeBackupBuffer` come: `sendfile` copies
everything or nothing. -/
inductive Outcome where
  | openFailed
  | fstatFailed
  | destFailed
  | sendfileFailed
  | copied
  deriving DecidableEq

/-- A wrap: the level, the messages recorded since its last wrap, and the
name and the bytes of the backup, if `foreverLogIndex` was incremented. -/
structure Wrap where
  level : Fin NumTraceLevels
  generation : List Recorded
  backup : Option (Text × List UInt8)

structure State where
  tf : TraceFile
  dict : DictFile
  foreverLogIndex : Int32
  files : Files Text
  wraps : List Wrap

/-- What happens: a statement describes itself, a statement is executed with
the header and the counters as they are then, or another process changes the
counters. -/
inductive Event where
  | desc (w : DescWrite)
  | hit (i : Fin NumTraceLevels) (h : Hit) (header : Nat → UInt8) (o : Outcome)
  | ctl (counter : Nat → MsgCounter)

namespace TraceHandle

variable (th : TraceHandle)

/-- `mappedTraceFileSize`. -/
def mappedSize : Nat := th.logStart + addLevelSizes th.spec.sz NumTraceLevels * 1024

/-- The mapped part of the file and the trailer behind it. -/
def mapped (header : Nat → UInt8) (m : Mem) : List UInt8 :=
  (List.range th.mappedSize).map (fun x => if x < th.logStart then header x else m x)
    ++ List.replicate FileTrailerSize 0

/-- The bytes of the trace file. -/
def bytes (header : Nat → UInt8) (m : Mem) (dict : DictFile) : List UInt8 :=
  th.mapped header m ++ dict.bytes

/-- `foreverLogPath.find( "null" ) != std::string::npos`. -/
def backupsDisabled : Bool := ascii ['n', 'u', 'l', 'l'] <:+: th.foreverLogPath

/-- The name of the next backup. -/
def newPath (foreverLogIndex : Int32) : Text :=
  Rotation.snprintf256 (th.foreverLogPath ++ 46 :: decimal foreverLogIndex.toInt)

/-- The destination is opened and `bytes` are written to it. A copy of the
trace file onto itself changes nothing. -/
def copy (newPath : Text) (bytes : List UInt8) (files : Files Text) : Files Text :=
  if newPath = th.fileName then files else (FileOp.write newPath bytes).apply files

/-- `maybeBackupBuffer`; the second component is the backup that was made. -/
def maybeBackupBuffer (s : State) (bytes : List UInt8) (o : Outcome) :
    State × Option (Text × List UInt8) :=
  if th.foreverLogPath.isEmpty then (s, none)
  else if th.backupsDisabled then (s, none)
  else
    let newPath := th.newPath s.foreverLogIndex
    match o with
    | .openFailed | .fstatFailed | .destFailed => (s, none)
    | .sendfileFailed => ({ s with files := th.copy newPath [] s.files }, none)
    | .copied =>
      ({ s with
          files := th.copy newPath bytes s.files, foreverLogIndex := s.foreverLogIndex + 1 },
        some (newPath, bytes))

/-- A handle that has just been constructed, with whatever files there
are. -/
def start (cs : MsgCounters) (foreverLogIndex : Int32) (files : Files Text) : State where
  tf := TraceFile.create th.spec th.logStart cs
  dict := .new
  foreverLogIndex := foreverLogIndex
  files := files
  wraps := []

/-- A trace statement on level `i`: `startMsg` wraps if it has to and makes a
backup, then the message is recorded. -/
def hit (s : State) (i : Fin NumTraceLevels) (h : Hit) (header : Nat → UInt8) (o : Outcome) :
    State :=
  let r := s.tf.ring i
  if r.rb.bufEnd ≤ r.rb.ptr then
    let b := th.maybeBackupBuffer s (th.bytes header r.wrap.mem s.dict) o
    { b.1 with tf := s.tf.trace th.n i h, wraps := s.wraps ++ [⟨i, r.wrap.old, b.2⟩] }
  else { s with tf := s.tf.trace th.n i h }

/-- One event. -/
def step (s : State) : Event → State
  | .desc w =>
    if w.desc.msgId ∈ s.dict.msgIdInitialized then s else { s with dict := s.dict.finish w }
  | .hit i h header o => th.hit s i h header o
  | .ctl counter => { s with tf := s.tf.step th.n (.ctl counter) }

/-- A run. -/
def run (s : State) (es : List Event) : State := es.foldl th.step s

/-! ## Reading a backup -/

/-- The memory a reader maps. -/
def mem (bytes : List UInt8) : Mem := fun x => bytes.getD x 0

/-- `qttail -c` on a file with these bytes, with some levels selected: the
table of its descriptors, and what is printed. -/
def read (levelEnabled : Fin NumTraceLevels → Bool) (bytes : List UInt8) (fuel : Nat) :
    Option (Messages × Tail.CatResult) :=
  (readMessages th.mappedSize bytes).bind fun msgs =>
    (cat (mem bytes) msgs (th.spec.readers th.logStart levelEnabled) fuel).map (msgs, ·)

/-- Whatever levels are selected with it, the lines of the level that has
wrapped show the generation that is over, each message once and in order. -/
def Shown (w : Wrap) (bytes : List UInt8) : Prop :=
  ∀ levelEnabled : Fin NumTraceLevels → Bool, levelEnabled w.level = true →
    ∃ fuel msgs t, th.read levelEnabled bytes fuel = some (msgs, .done t)
      ∧ List.Forall₂ (Shows msgs th.n) (t.out.lines.filter fun l => l.level = w.level.val)
          (w.generation.map Recorded.hit)

/-- What the forever log is for: every backup still has the bytes the trace
file had, and shows the generation it was made for; and the generations of a
level that are over are those of its wraps. -/
structure Keeps (s : State) : Prop where
  bytes : ∀ w ∈ s.wraps, ∀ b, w.backup = some b → s.files b.1 = some b.2
  shown : ∀ w ∈ s.wraps, ∀ b, w.backup = some b → th.Shown w b.2
  generations : ∀ i, (s.tf.ring i).lost ++ (s.tf.ring i).old
    = (s.wraps.filter fun w => w.level = i).flatMap Wrap.generation

/-! ## What has to be respected -/

/-- The descriptors as a reader finds them. -/
def messages (dict : DictFile) : Option Messages :=
  readMessages th.mappedSize (th.bytes (fun _ => 0) (fun _ => 0) dict)

/-- The destination of a backup: what is there is not longer than the trace
file, and it is neither the trace file nor an earlier backup. -/
structure DestinationOk (s : State) : Prop where
  length : ∀ content, s.files (th.newPath s.foreverLogIndex) = some content →
    content.length ≤ th.mappedSize + FileTrailerSize + s.dict.bytes.length
  ne_file : th.newPath s.foreverLogIndex ≠ th.fileName
  ne_backup : ∀ w ∈ s.wraps, ∀ b, w.backup = some b → b.1 ≠ th.newPath s.foreverLogIndex

/-- A descriptor is written completely, and a formatter can be built from it.
A message is described, fits the trailer and is the youngest of its level.
A backup goes to a destination that is in order. -/
def EventOk (s : State) : Event → Prop
  | .desc w => w.desc.msgId ∉ s.dict.msgIdInitialized →
      w.Complete ∧ (th.messages (s.dict.finish w)).isSome = true
  | .hit i h _ o =>
    (s.tf.cs.off h.id = false →
        ∃ msgs, th.messages s.dict = some msgs ∧ Level.RecordOk (Described msgs) th.n (s.tf.ring i) h)
      ∧ ((s.tf.ring i).rb.bufEnd ≤ (s.tf.ring i).rb.ptr → o = .copied →
        th.foreverLogPath.isEmpty = false → th.backupsDisabled = false → th.DestinationOk s)
  | .ctl _ => True

/-- Every event of a run is. -/
def Allowed (s : State) : List Event → Prop
  | [] => True
  | e :: es => th.EventOk s e ∧ Allowed (th.step s e) es

end TraceHandle

end QuickTrace.ForeverLog
