/-
QuickTrace.Tail.Recreate — a file that is created anew while it is tailed.

The writer renames its old file, creates a new one, truncates it twice, touches
its pages, writes the header and the levels through its mapping and takes
timestamps until two of them are apart. qttail learns of it by IN_CREATE and
IN_MODIFY, and looks at the header until the timestamps are there. Both go on
in any order, the writer may be killed and start anew at any moment, and other
files of the directory may be watched for.

`System.Inv` is the invariant. A header without timestamps is not used, and
the timestamps come last, so qttail sets up its levels from a complete header.
It does not survive an empty file, however, and the first IN_MODIFY is raised
by the truncation to 0. `handles_iff` says that this is all there is to it.
-/
import QuickTrace.Tail.Watch
import QuickTrace.Ring.FileLayout
import Mathlib.Data.Rat.Defs

namespace QuickTrace

open QuickTrace.Lib

namespace Recreate

/-! ## The file -/

/-- `TraceFileHeader`; the times are exact. -/
structure Header extends FileLayout.Header where
  version : UInt32
  firstMsgOffset : UInt32
  logCount : UInt32
  monotime0 : Rat
  tsc1 : UInt64
  monotime1 : Rat

def Header.zero : Header where
  fileSize := 0
  fileHeaderSize := 0
  fileTrailerSize := 0
  logSizes := fun _ => 0
  version := 0
  firstMsgOffset := 0
  logCount := 0
  monotime0 := 0
  tsc1 := 0
  monotime1 := 0

/-- The levels as `initialize` finds them in a header. -/
def Header.rbs (h : Header) : List FileLayout.Region :=
  ((List.finRange NumTraceLevels).filter fun i => i.val < h.logCount.toNat).map h.level

/-- A file on the disk: what its creator knows about the layout, its size, its
header, and the levels that have been initialized. -/
structure File where
  th : FileLayout.TraceHandle
  desc : FileLayout.FileDesc
  header : Header
  levels : Fin NumTraceLevels → Bool

/-- What the writer does to its new file. -/
inductive FileStep where
  | ftruncate (length : Int)
  /-- One byte of `touchEveryPage`. -/
  | touch (offset : Int)
  | lseek (offset : Int)
  /-- `mmap` and `memset`. -/
  | memset
  | version
  | fileSize
  | fileHeaderSize
  | fileTrailerSize
  | firstMsgOffset
  | logCount
  | logSizes
  | bufIs (i : Fin NumTraceLevels)

namespace File

/-- One step. -/
def apply (f : File) : FileStep → File
  | .ftruncate length => { f with desc := f.desc.ftruncate length }
  | .touch offset => { f with desc := (f.desc.lseek offset).writeByte }
  | .lseek offset => { f with desc := f.desc.lseek offset }
  | .memset => { f with header := Header.zero, levels := fun _ => false }
  | .version => { f with header := { f.header with version := 5 } }
  | .fileSize => { f with header := { f.header with fileSize := f.th.mappedTraceFileSize } }
  | .fileHeaderSize => { f with header := { f.header with
      fileHeaderSize :=
        UInt32.ofNat (sizeofTraceFileHeader + f.th.numMsgCounters.toNat * sizeofMsgCounter) } }
  | .fileTrailerSize => { f with header := { f.header with
      fileTrailerSize := UInt32.ofNat FileTrailerSize } }
  | .firstMsgOffset => { f with header := { f.header with
      firstMsgOffset := UInt32.ofNat sizeofTraceFileHeader } }
  | .logCount => { f with header := { f.header with logCount := UInt32.ofNat NumTraceLevels } }
  | .logSizes => { f with header := { f.header with logSizes := f.th.sizeSpec } }
  | .bufIs i => { f with levels := Function.update f.levels i true }

/-- What `open` creates. -/
def new (th : FileLayout.TraceHandle) : File := ⟨th, ⟨0, 0⟩, Header.zero, fun _ => false⟩

end File

/-- Whether a step raises IN_MODIFY; a store to the mapping does not. -/
def FileStep.modifies : FileStep → Bool
  | .ftruncate _ | .touch _ => true
  | _ => false

/-- The offsets that `touchEveryPage` writes to. -/
def touchOffsets (sz : Int) : List Int :=
  (List.range ((sz.toNat + 4095) / 4096)).map (fun k => 4096 * (k : Int)) ++ [sz - 1]

/-- The size of the file with its trailer. -/
def realSize (th : FileLayout.TraceHandle) : Int :=
  th.mappedTraceFileSize.toInt32.toInt + FileTrailerSize

/-- `getfile` behind `open`. -/
def pageSteps (th : FileLayout.TraceHandle) : List FileStep :=
  [.ftruncate 0, .ftruncate (realSize th)] ++ (touchOffsets (realSize th)).map .touch
    ++ [.lseek (realSize th)]

/-- The constructor of `TraceFile` behind `getfile`. -/
def headerSteps : List FileStep :=
  [.memset, .version, .fileSize, .fileHeaderSize, .fileTrailerSize, .firstMsgOffset, .logCount,
    .logSizes]

def levelSteps : List FileStep := (List.finRange NumTraceLevels).map .bufIs

/-- All that is done to a new file in front of the timestamps. -/
def fileSteps (th : FileLayout.TraceHandle) : List FileStep :=
  pageSteps th ++ (headerSteps ++ levelSteps)

/-! ## The writer -/

/-- Where the writer is. -/
inductive Phase where
  | rename
  | openFile
  | filling (todo : List FileStep)
  /-- It has stored `monotime0`, and takes timestamps. -/
  | stamping

/-- The writer, with the file it has open. -/
structure Writer where
  th : FileLayout.TraceHandle
  ino : Nat
  phase : Phase

/-! ## qttail -/

/-- The object `Tail`, with the file that `fd_` is open on and the levels. -/
structure Reader where
  tail : FileTail
  ino : Nat
  rbs : List FileLayout.Region

/-- Why the process ends. -/
inductive End where
  | openFailed
  | emptyFile
  | unsupportedVersion
  | stop (s : Stop)
  deriving DecidableEq

/-- The events of the name of the file. -/
inductive Event where
  | create
  | modify
  deriving DecidableEq

/-- The files, the one that has the name, the two programs, the events that
qttail has not received yet, whether the directory is watched for
modifications, and whether another file in it is `REINIT_PENDING`. -/
structure System where
  files : Nat → File
  next : Nat
  path : Option Nat
  writer : Writer
  reader : Reader
  events : List Event
  modify : Bool
  othersWait : Bool

namespace System

/-! ## Steps of the writer -/

/-- A modification of the file, which is not noticed if nobody watches. -/
def modified (s : System) : System :=
  if s.modify then { s with events := s.events ++ [.modify] } else s

/-- The file of the writer changes. -/
def setFile (s : System) (f : File) : System :=
  { s with files := Function.update s.files s.writer.ino f }

/-- `open` with `O_CREAT`. -/
def create (s : System) : System :=
  match s.path with
  | some ino =>
    { s with writer := { s.writer with ino, phase := .filling (fileSteps s.writer.th) } }
  | none =>
    { s with
      files := Function.update s.files s.next (File.new s.writer.th)
      next := s.next + 1
      path := some s.next
      writer := { s.writer with ino := s.next, phase := .filling (fileSteps s.writer.th) }
      events := s.events ++ [.create] }

/-- The next step of the writer, at the time `now`. -/
def write (s : System) (now : Rat) : System :=
  match s.writer.phase with
  | .rename => { s with path := none, writer := { s.writer with phase := .openFile } }
  | .openFile => s.create
  | .filling (x :: todo) =>
    let s' := (s.setFile ((s.files s.writer.ino).apply x))
    let s' := { s' with writer := { s.writer with phase := .filling todo } }
    if x.modifies then s'.modified else s'
  | .filling [] =>
    let f := s.files s.writer.ino
    let s' := s.setFile { f with header := { f.header with monotime0 := now } }
    { s' with writer := { s.writer with phase := .stamping } }
  | .stamping => s

/-- `takeTimestamp`, in the loop of the constructor and later on. -/
def takeTimestamp (s : System) (tsc : UInt64) (now : Rat) : System :=
  match s.writer.phase with
  | .stamping =>
    let f := s.files s.writer.ino
    if 1000000 < tsc - f.header.tsc1 then
      s.setFile { f with header := { f.header with tsc1 := tsc, monotime1 := now } }
    else s
  | _ => s

/-- A descriptor is written behind the file. -/
def describe (s : System) (length : Nat) : System :=
  match s.writer.phase with
  | .stamping =>
    let f := s.files s.writer.ino
    (s.setFile { f with desc := { f.desc with size := f.desc.size + length } }).modified
  | _ => s

/-! ## Steps of qttail -/

/-- The tail changes. -/
def setTail (s : System) (tail : FileTail) : System := { s with reader := { s.reader with tail } }

/-- What `tfh_` points to. -/
def tfh (s : System) : Header := (s.files s.reader.ino).header

/-- `statusIs`. -/
def statusIs (s : System) (status : Status) : Except End System :=
  ((s.reader.tail.statusIs status).mapError End.stop).map s.setTail

/-- The part of `initialize` that opens the file and maps it. -/
def openFile (s : System) : Except End System :=
  if s.reader.tail.fd then .ok s
  else
    match s.path with
    | none => .error .openFailed
    | some ino =>
      if (s.files ino).desc.size = 0 then .error .emptyFile
      else .ok { s with reader := { s.reader with tail := s.reader.tail.openFile, ino } }

/-- The part of `initialize` behind the test of `monotime1`, without the
messages and the positions in the levels. -/
def load (s : System) : Except End System :=
  if s.tfh.version < minimumVersionSupported then .error .unsupportedVersion
  else if NumTraceLevels < s.tfh.logCount.toNat then .error (.stop .assertion)
  else ({ s with reader := { s.reader with rbs := s.tfh.rbs } } : System).statusIs .active

/-- `initialize`; the first component is its result. -/
def initializeTail (s : System) : Except End (Bool × System) := do
  let s ← s.statusIs .initializing
  let s ← s.openFile
  if !s.reader.tail.tfh then .error (.stop .unmapped)
  else if s.tfh.monotime1 - s.tfh.monotime0 < 1 / 10 then .ok (false, s)
  else s.load.map fun s => (true, s)

/-- `nextTsc`. `more` says whether there is a message in the mapped file, or
one that has been chosen before. -/
def nextTsc (s : System) (more : Bool) : Except End System := do
  let r ← if s.reader.tail.status = .initializing then s.initializeTail else .ok (true, s)
  if !r.1 then .ok r.2
  else do
    let r ←
      if r.2.reader.tail.tfh then .ok (true, r.2)
      else if r.2.reader.tail.status ≠ .reinitReady then .ok (false, r.2)
      else r.2.initializeTail
    if !r.1 || more then .ok r.2
    else if r.2.reader.tail.status = .deletePending ∨ r.2.reader.tail.status = .reinitPending
        ∨ r.2.reader.tail.status = .reinitReady then
      .ok (r.2.setTail r.2.reader.tail.cleanup)
    else .ok r.2

/-- `watchForModificationsIs`. -/
def watchForModificationsIs (s : System) (on : Bool) : System :=
  if s.reader.tail.status = .reinitPending ∨ s.othersWait then s else { s with modify := on }

/-- `process`. -/
def process (s : System) : Event → Except End System
  | .create => (s.watchForModificationsIs true).statusIs .reinitPending
  | .modify => (s.statusIs .reinitReady).map (watchForModificationsIs · false)

/-- The next event is received. -/
def receive (s : System) : Except End System :=
  match s.events with
  | [] => .ok s
  | e :: events => ({ s with events } : System).process e

/-- An event of another file: some other file waits from now on, or none. -/
def others (s : System) (wait : Bool) : System :=
  { s with
    othersWait := wait
    modify := if s.reader.tail.status = .reinitPending then s.modify else wait }

/-! ## Runs -/

/-- What happens. The writer starts anew wherever it is. -/
inductive Action where
  | recreate (th : FileLayout.TraceHandle)
  | write (now : Rat)
  | takeTimestamp (tsc : UInt64) (now : Rat)
  | describe (length : Nat)
  | receive
  | nextTsc (more : Bool)
  | others (wait : Bool)

def step (s : System) : Action → Except End System
  | .recreate th => .ok { s with writer := { s.writer with th, phase := .rename } }
  | .write now => .ok (s.write now)
  | .takeTimestamp tsc now => .ok (s.takeTimestamp tsc now)
  | .describe length => .ok (s.describe length)
  | .receive => s.receive
  | .nextTsc more => s.nextTsc more
  | .others wait => .ok (s.others wait)

end System

/-! ## What is wanted -/

/-- All that the constructor writes in front of the timestamps has been
written. -/
structure File.Written (f : File) : Prop where
  version : f.header.version = 5
  fileSize : f.header.fileSize = f.th.mappedTraceFileSize
  fileHeaderSize : f.header.fileHeaderSize
    = UInt32.ofNat (sizeofTraceFileHeader + f.th.numMsgCounters.toNat * sizeofMsgCounter)
  fileTrailerSize : f.header.fileTrailerSize = UInt32.ofNat FileTrailerSize
  firstMsgOffset : f.header.firstMsgOffset = UInt32.ofNat sizeofTraceFileHeader
  logCount : f.header.logCount = UInt32.ofNat NumTraceLevels
  logSizes : f.header.logSizes = f.th.sizeSpec
  levels : ∀ i, f.levels i = true

/-- A tail that is active has set its levels up from a header that is
complete. -/
def System.Sound (s : System) : Prop :=
  s.reader.tail.status = .active →
    (s.files s.reader.ino).Written ∧ s.reader.rbs = (s.files s.reader.ino).header.rbs

/-- In a run every state is sound, and no step ends the process. -/
def Handles (s : System) : List System.Action → Prop
  | [] => s.Sound
  | a :: as => s.Sound ∧ ∃ s', s.step a = .ok s' ∧ Handles s' as

/-- When `nextTsc` opens the file: it has given the old one up, and knows that
the new one has been modified. -/
def System.Opens (s : System) : System.Action → Prop
  | .nextTsc _ => s.reader.tail.fd = false ∧ s.reader.tail.status = .reinitReady
  | _ => False

/-- The file is there, and it is not empty. -/
def System.NotEmpty (s : System) : Prop :=
  ∃ ino, s.path = some ino ∧ (s.files ino).desc.size ≠ 0

/-- Whenever the file is opened in a run it is there and not empty. -/
def Meets (s : System) : List System.Action → Prop
  | [] => True
  | a :: as => (s.Opens a → s.NotEmpty) ∧ ∀ s', s.step a = .ok s' → Meets s' as

/-! ## The header -/

/-- No timestamp has been stored. -/
def File.Untimed (f : File) : Prop := f.header.monotime0 = 0 ∧ f.header.monotime1 = 0

namespace File

/-- The last things the writer does to a file before it takes timestamps. -/
theorem apply_untimed {f : File} (h : f.Untimed) (x : FileStep) : (f.apply x).Untimed := by
  cases x with
  | memset => exact ⟨rfl, rfl⟩
  | _ => exact h

/-- The levels are initialized one after the other, and nothing else changes. -/
theorem foldl_bufIs : ∀ (l : List (Fin NumTraceLevels)) (f : File),
    ∃ levels, (l.map FileStep.bufIs).foldl apply f = { f with levels }
      ∧ ∀ i, levels i = true ↔ i ∈ l ∨ f.levels i = true
  | [], f => ⟨f.levels, rfl, fun i => by simp⟩
  | j :: l, f => by
      obtain ⟨levels, heq, hlevels⟩ := foldl_bufIs l (f.apply (.bufIs j))
      refine ⟨levels, heq, fun i => (hlevels i).trans ?_⟩
      have hupdate : (f.apply (.bufIs j)).levels i = true ↔ i = j ∨ f.levels i = true := by
        by_cases hij : i = j
        · rw [hij]
          simp [apply]
        · simp [apply, hij]
      rw [hupdate, List.mem_cons]
      tauto

/-- When all is done the file is complete. -/
theorem written_foldl (f : File) : ((fileSteps f.th).foldl apply f).Written := by
  unfold fileSteps
  rw [List.foldl_append, List.foldl_append]
  -- what is done to the pages does not matter
  generalize (pageSteps f.th).foldl apply f = g
  obtain ⟨levels, heq, hlevels⟩ := foldl_bufIs (List.finRange NumTraceLevels)
    (headerSteps.foldl apply g)
  unfold levelSteps
  rw [heq]
  exact ⟨rfl, rfl, rfl, rfl, rfl, rfl, rfl, fun i => (hlevels i).mpr (.inl (List.mem_finRange i))⟩

/-- Only the times change. -/
theorem Written.times {f : File} (h : f.Written) (t₀ : Rat) (tsc₁ : UInt64) (t₁ : Rat) :
    ({ f with header := { f.header with monotime0 := t₀, tsc1 := tsc₁, monotime1 := t₁ } } :
      File).Written :=
  ⟨h.version, h.fileSize, h.fileHeaderSize, h.fileTrailerSize, h.firstMsgOffset, h.logCount,
    h.logSizes, h.levels⟩

/-- Only the size changes. -/
theorem Written.desc {f : File} (h : f.Written) (desc : FileLayout.FileDesc) :
    ({ f with desc } : File).Written :=
  ⟨h.version, h.fileSize, h.fileHeaderSize, h.fileTrailerSize, h.firstMsgOffset, h.logCount,
    h.logSizes, h.levels⟩

end File

/-! ## The invariant -/

namespace System

/-- What holds at every moment. A file has no timestamps or is complete; the
one that is being filled has none and will be complete, and no tail is active
on it. -/
structure Inv (s : System) : Prop where
  tail : s.reader.tail.Ok
  choice : s.reader.tail.tail.next = none
  opened : s.reader.ino < s.next
  owned : s.writer.ino < s.next
  named : ∀ ino, s.path = some ino → ino < s.next
  unnamed : s.writer.phase = .openFile → s.path = none
  complete : ∀ ino, (s.files ino).Untimed ∨ (s.files ino).Written
  filling : ∀ todo, s.writer.phase = .filling todo → (s.files s.writer.ino).Untimed
    ∧ (todo.foldl File.apply (s.files s.writer.ino)).Written
  stamping : s.writer.phase = .stamping → (s.files s.writer.ino).Written
  active : s.Sound
  apart : s.reader.tail.status = .active → ∀ todo, s.writer.phase = .filling todo →
    s.writer.ino ≠ s.reader.ino

variable {s : System}

/-- The events are no part of it. -/
theorem Inv.watched (h : s.Inv) (events : List Event) (modify othersWait : Bool) :
    ({ s with events, modify, othersWait } : System).Inv := { h with }

theorem Inv.modified (h : s.Inv) : s.modified.Inv := by
  unfold System.modified
  split
  · exact h.watched ..
  · exact h

theorem setFile_self (s : System) (f : File) : (s.setFile f).files s.writer.ino = f :=
  Function.update_self ..

theorem setFile_of_ne (s : System) (f : File) {ino : Nat} (h : ino ≠ s.writer.ino) :
    (s.setFile f).files ino = s.files ino := Function.update_of_ne h ..

/-- A complete file changes, but not its levels. -/
theorem Inv.setFile (h : s.Inv) (hphase : s.writer.phase = .stamping) {f : File} (hf : f.Written)
    (hrbs : f.header.rbs = (s.files s.writer.ino).header.rbs) : (s.setFile f).Inv where
  __ := h
  complete := fun ino => by
    by_cases hi : ino = s.writer.ino
    · rw [hi, setFile_self]
      exact .inr hf
    · rw [setFile_of_ne s f hi]
      exact h.complete ino
  filling := fun todo htodo => by cases hphase.symm.trans htodo
  stamping := fun _ => (setFile_self s f).symm ▸ hf
  active := fun hactive => by
    obtain ⟨hwritten, hlevels⟩ := h.active hactive
    show ((s.setFile f).files s.reader.ino).Written
      ∧ s.reader.rbs = ((s.setFile f).files s.reader.ino).header.rbs
    by_cases hi : s.reader.ino = s.writer.ino
    · rw [hi] at hlevels ⊢
      rw [setFile_self]
      exact ⟨hf, hlevels.trans hrbs.symm⟩
    · rw [setFile_of_ne s f hi]
      exact ⟨hwritten, hlevels⟩
  apart := fun _ todo htodo => by cases hphase.symm.trans htodo

/-! ## The writer keeps it -/

/-- The writer goes on with its file, on which no tail is active. -/
theorem Inv.proceed (h : s.Inv) {f : File} {phase : Phase}
    (hapart : s.reader.tail.status = .active → s.writer.ino ≠ s.reader.ino)
    (hphase : phase ≠ .openFile) (hcomplete : f.Untimed ∨ f.Written)
    (hfill : ∀ todo, phase = .filling todo → f.Untimed ∧ (todo.foldl File.apply f).Written)
    (hstamp : phase = .stamping → f.Written) :
    ({ s.setFile f with writer := { s.writer with phase } } : System).Inv where
  __ := h
  unnamed := fun hopen => absurd hopen hphase
  complete := fun ino => by
    show ((s.setFile f).files ino).Untimed ∨ ((s.setFile f).files ino).Written
    by_cases hi : ino = s.writer.ino
    · rw [hi, setFile_self]
      exact hcomplete
    · rw [setFile_of_ne s f hi]
      exact h.complete ino
  filling := fun todo htodo => by
    show ((s.setFile f).files s.writer.ino).Untimed
      ∧ (todo.foldl File.apply ((s.setFile f).files s.writer.ino)).Written
    rw [setFile_self]
    exact hfill todo htodo
  stamping := fun hphase => by
    show ((s.setFile f).files s.writer.ino).Written
    rw [setFile_self]
    exact hstamp hphase
  active := fun hactive => by
    show ((s.setFile f).files s.reader.ino).Written
      ∧ s.reader.rbs = ((s.setFile f).files s.reader.ino).header.rbs
    rw [setFile_of_ne s f (Ne.symm (hapart hactive))]
    exact h.active hactive
  apart := fun hactive _ _ => hapart hactive

/-- The next thing is done to a new file. -/
theorem Inv.fill (h : s.Inv) {x : FileStep} {todo : List FileStep}
    (hphase : s.writer.phase = .filling (x :: todo)) :
    ({ s.setFile ((s.files s.writer.ino).apply x) with
      writer := { s.writer with phase := .filling todo } } : System).Inv := by
  obtain ⟨huntimed, hwritten⟩ := h.filling _ hphase
  refine h.proceed (fun hactive => h.apart hactive _ hphase) (by simp)
    (.inl (File.apply_untimed huntimed x)) (fun todo' htodo => ?_) (by simp)
  cases htodo
  exact ⟨File.apply_untimed huntimed x, hwritten⟩

/-- `monotime0` is stored when the file is complete. -/
theorem Inv.stamp (h : s.Inv) (hphase : s.writer.phase = .filling []) (now : Rat) :
    ({ s.setFile { s.files s.writer.ino with
        header := { (s.files s.writer.ino).header with monotime0 := now } } with
      writer := { s.writer with phase := .stamping } } : System).Inv := by
  have hwritten := (h.filling _ hphase).2.times now (s.files s.writer.ino).header.tsc1
    (s.files s.writer.ino).header.monotime1
  exact h.proceed (fun hactive => h.apart hactive _ hphase) (by simp) (.inr hwritten) (by simp)
    fun _ => hwritten

/-- A new file is created. -/
theorem Inv.create (h : s.Inv) (hphase : s.writer.phase = .openFile) : s.create.Inv := by
  have hself : Function.update s.files s.next (File.new s.writer.th) s.next
      = File.new s.writer.th := Function.update_self ..
  have hother : ∀ ino, ino < s.next →
      Function.update s.files s.next (File.new s.writer.th) ino = s.files ino :=
    fun ino hino => Function.update_of_ne (Nat.ne_of_lt hino) ..
  unfold System.create
  rw [h.unnamed hphase]
  dsimp only
  exact
    { h with
      opened := Nat.lt_succ_of_lt h.opened
      owned := Nat.lt_succ_self _
      named := fun ino hino => by
        cases hino
        exact Nat.lt_succ_self _
      unnamed := by simp
      complete := fun ino => by
        by_cases hi : ino = s.next
        · dsimp only
          rw [hi, hself]
          exact .inl ⟨rfl, rfl⟩
        · dsimp only
          rw [Function.update_of_ne hi]
          exact h.complete ino
      filling := fun todo htodo => by
        cases htodo
        dsimp only
        rw [hself]
        exact ⟨⟨rfl, rfl⟩, File.written_foldl (File.new s.writer.th)⟩
      stamping := by simp
      active := fun hactive => by
        dsimp only
        rw [hother _ h.opened]
        exact h.active hactive
      apart := fun _ _ _ => Nat.ne_of_gt h.opened }

theorem Inv.write (h : s.Inv) (now : Rat) : (s.write now).Inv := by
  unfold System.write
  split
  · exact
      { h with
        named := by simp
        unnamed := fun _ => rfl
        filling := by simp
        stamping := by simp
        apart := by simp }
  · rename_i hphase
    exact h.create hphase
  · rename_i x todo hphase
    dsimp only
    split
    · exact (h.fill hphase).modified
    · exact h.fill hphase
  · rename_i hphase
    exact h.stamp hphase now
  · exact h

theorem Inv.takeTimestamp (h : s.Inv) (tsc : UInt64) (now : Rat) :
    (s.takeTimestamp tsc now).Inv := by
  unfold System.takeTimestamp
  split
  · rename_i hphase
    dsimp only
    split
    · exact h.setFile hphase ((h.stamping hphase).times ..) rfl
    · exact h
  · exact h

theorem Inv.describe (h : s.Inv) (length : Nat) : (s.describe length).Inv := by
  unfold System.describe
  split
  · rename_i hphase
    have hwritten := (h.stamping hphase).desc { (s.files s.writer.ino).desc with
      size := (s.files s.writer.ino).desc.size + length }
    exact (h.setFile hphase hwritten rfl).modified
  · exact h

/-! ## qttail keeps it -/

/-- The writer starts anew. -/
theorem Inv.recreate (h : s.Inv) (th : FileLayout.TraceHandle) :
    ({ s with writer := { s.writer with th, phase := .rename } } : System).Inv where
  __ := h
  unnamed := by simp
  filling := by simp
  stamping := by simp
  apart := by simp

/-- The tail changes, and is not active if it was not. -/
theorem Inv.setTail (h : s.Inv) {t : FileTail} (ht : t.Ok) (hnext : t.tail.next = none)
    (hactive : t.status = .active → s.reader.tail.status = .active) : (s.setTail t).Inv where
  __ := h
  tail := ht
  choice := hnext
  active := fun hs => h.active (hactive hs)
  apart := fun hs => h.apart (hactive hs)

/-- What `statusIs` can do to a tail. -/
theorem statusIs_result {status : Status} {t t' : FileTail} (h : t.statusIs status = .ok t') :
    t'.tail = t.tail ∧ (t'.status = status ∨ t'.status = t.status) := by
  unfold FileTail.statusIs at h
  split at h
  · cases h
    exact ⟨rfl, .inr rfl⟩
  · cases status with
    | initializing | active =>
      dsimp only at h
      split at h
      · cases h
        exact ⟨rfl, .inl rfl⟩
      · cases h
    | deletePending | reinitPending =>
      cases h
      dsimp only
      split
      · exact ⟨rfl, .inl rfl⟩
      · exact ⟨rfl, .inl rfl⟩
    | reinitReady =>
      dsimp only at h
      split at h
      · cases h
        exact ⟨rfl, .inr rfl⟩
      · cases h
        exact ⟨rfl, .inl rfl⟩

/-- The status an event asks for is never refused. -/
theorem Inv.statusIs (h : s.Inv) {status : Status} (hs : FileTail.Status.FromEvent status) :
    ∃ s', s.statusIs status = .ok s' ∧ s'.Inv := by
  obtain ⟨t, heq, ht, -⟩ := FileTail.statusIs_event h.tail hs
  obtain ⟨htail, hstatus⟩ := statusIs_result heq
  refine ⟨s.setTail t, ?_, h.setTail ht (htail ▸ h.choice) fun hactive => ?_⟩
  · unfold System.statusIs
    rw [heq]
    rfl
  · rcases hstatus with h' | h'
    · rw [hactive] at h'
      subst h'
      rcases hs with h' | h' | h' <;> cases h'
    · exact h'.symm.trans hactive

theorem Inv.watchForModificationsIs (h : s.Inv) (on : Bool) :
    (s.watchForModificationsIs on).Inv := by
  unfold System.watchForModificationsIs
  split
  · exact h
  · exact h.watched ..

/-- Every event is taken, whenever it comes. -/
theorem Inv.process (h : s.Inv) (e : Event) : ∃ s', s.process e = .ok s' ∧ s'.Inv := by
  cases e with
  | create => exact (h.watchForModificationsIs true).statusIs (.inr (.inl rfl))
  | modify =>
    have hevent : FileTail.Status.FromEvent .reinitReady := .inr (.inr rfl)
    obtain ⟨s', heq, h'⟩ := h.statusIs hevent
    refine ⟨s'.watchForModificationsIs false, ?_, h'.watchForModificationsIs false⟩
    unfold System.process
    rw [heq]
    rfl

theorem Inv.receive (h : s.Inv) : ∃ s', s.receive = .ok s' ∧ s'.Inv := by
  unfold System.receive
  split
  · exact ⟨s, rfl, h⟩
  · rename_i e events _
    exact Inv.process (h.watched events s.modify s.othersWait) e

/-! ## The header is looked at -/

/-- A tail that is initializing has its file mapped. -/
theorem Inv.mapped (h : s.Inv) (hs : s.reader.tail.status = .initializing) :
    s.reader.tail.fd = true ∧ s.reader.tail.tfh = true := by
  have htfh : s.reader.tail.tfh = true := by
    by_contra hnot
    have hmapped := h.tail.mapped (by simpa using hnot)
    rw [hs] at hmapped
    simp at hmapped
  exact ⟨h.tail.fd.trans htfh, htfh⟩

theorem statusIs_initializing
    (hs : s.reader.tail.status = .initializing ∨ s.reader.tail.status = .reinitReady) :
    s.statusIs .initializing
      = .ok (s.setTail { s.reader.tail with status := .initializing }) := by
  unfold System.statusIs
  rw [FileTail.statusIs_initializing hs]
  rfl

/-- The tail initializes a file that exists. -/
theorem Inv.initializing (h : s.Inv) {ino : Nat} (hino : ino < s.next) :
    ({ s with reader := { s.reader with
        tail := { s.reader.tail with status := .initializing, fd := true, tfh := true }
        ino } } : System).Inv where
  __ := h
  tail := ⟨rfl, by simp, fun hn => absurd h.choice hn⟩
  opened := hino
  active := fun hs => by cases hs
  apart := fun hs => by cases hs

/-- In front of the test of the times the file is open, unless there is none
or an empty one. -/
theorem Inv.openFile (h : s.Inv)
    (hs : s.reader.tail.status = .initializing ∨ s.reader.tail.status = .reinitReady)
    (hne : s.reader.tail.fd = false → s.NotEmpty) :
    ∃ s', (s.statusIs .initializing >>= System.openFile) = .ok s' ∧ s'.Inv
      ∧ s'.reader.tail.status = .initializing ∧ s'.reader.tail.tfh = true := by
  have hopen := FileTail.openFile_eq (t := { s.reader.tail with status := .initializing }) h.tail.fd
  rw [statusIs_initializing hs, ok_bind]
  unfold System.openFile
  cases hfd : s.reader.tail.fd with
  | true =>
    have htfh : s.reader.tail.tfh = true := h.tail.fd.symm.trans hfd
    -- the tail has its file open already
    have hsame : ({ s.reader.tail with status := .initializing } : FileTail).openFile
        = { s.reader.tail with status := .initializing } := if_neg (by simp [hfd])
    refine ⟨_, if_pos hfd, ?_, rfl, htfh⟩
    unfold System.setTail
    rw [hsame.symm.trans hopen]
    exact h.initializing h.opened
  | false =>
    obtain ⟨ino, hpath, hsize⟩ := hne hfd
    refine ⟨_, ?_, h.initializing (h.named ino hpath), rfl, rfl⟩
    rw [if_neg (by simp [System.setTail, hfd])]
    simp only [System.setTail, hpath, hsize, hopen, if_false]

/-- A file with timestamps is complete, and its levels are set up from what
has been written. -/
theorem Inv.load (h : s.Inv) (hs : s.reader.tail.status = .initializing)
    (husable : ¬ s.tfh.monotime1 - s.tfh.monotime0 < 1 / 10) :
    ∃ s', s.load = .ok s' ∧ s'.Inv ∧ s'.reader.tail.status = .active
      ∧ s'.reader.tail.tfh = true := by
  have htimed : ¬ (s.files s.reader.ino).Untimed := by
    rintro ⟨h₀, h₁⟩
    apply husable
    unfold System.tfh
    rw [h₀, h₁]
    norm_num
  have hwritten := (h.complete s.reader.ino).resolve_left htimed
  have hversion : ¬ s.tfh.version < minimumVersionSupported := by
    unfold System.tfh
    rw [hwritten.version]
    decide
  have hcount : ¬ NumTraceLevels < s.tfh.logCount.toNat := by
    unfold System.tfh
    rw [hwritten.logCount]
    decide
  have hstatus : ({ s with reader := { s.reader with rbs := s.tfh.rbs } } : System).statusIs .active
      = .ok { s with reader := { s.reader with
          tail := { s.reader.tail with status := .active }, rbs := s.tfh.rbs } } := by
    unfold System.statusIs
    rw [FileTail.statusIs_active hs]
    rfl
  have htfh := (h.mapped hs).2
  unfold System.load
  rw [if_neg hversion, if_neg hcount, hstatus]
  refine ⟨_, rfl, ?_, rfl, htfh⟩
  exact
    { h with
      tail := ⟨h.tail.fd, fun hno => by simp [htfh] at hno, fun hn => absurd h.choice hn⟩
      active := fun _ => ⟨hwritten, rfl⟩
      -- what is being filled has no timestamps
      apart := fun _ todo htodo heq => htimed (heq ▸ (h.filling todo htodo).1) }

/-- What `initialize` leaves behind, apart from the invariant. -/
structure Initialized (r : Bool × System) : Prop where
  inv : r.2.Inv
  mapped : r.2.reader.tail.tfh = true
  status : r.2.reader.tail.status = if r.1 then .active else .initializing

/-- `initialize` returns, unless there is no file or an empty one. -/
theorem Inv.initializeTail (h : s.Inv)
    (hs : s.reader.tail.status = .initializing ∨ s.reader.tail.status = .reinitReady)
    (hne : s.reader.tail.fd = false → s.NotEmpty) :
    ∃ r, s.initializeTail = .ok r ∧ Initialized r := by
  obtain ⟨s₁, hopen, h₁, hstatus, htfh⟩ := h.openFile hs hne
  unfold System.initializeTail
  rw [← bind_assoc, hopen, ok_bind]
  simp only [htfh, Bool.not_true, Bool.false_eq_true, if_false]
  split
  · exact ⟨_, rfl, h₁, htfh, hstatus⟩
  · rename_i husable
    obtain ⟨s₂, hload, h₂, hactive, htfh₂⟩ := h₁.load hstatus husable
    rw [hload]
    exact ⟨_, rfl, h₂, htfh₂, hactive⟩

/-- Otherwise it does not return. -/
theorem initializeTail_ends (hs : s.reader.tail.status = .reinitReady)
    (hfd : s.reader.tail.fd = false) (hne : ¬ s.NotEmpty) :
    ∃ e, s.initializeTail = .error e := by
  unfold System.initializeTail System.openFile
  rw [statusIs_initializing (.inr hs), ok_bind]
  simp only [System.setTail, hfd, Bool.false_eq_true, if_false]
  cases hpath : s.path with
  | none => exact ⟨_, rfl⟩
  | some ino =>
    have hsize : (s.files ino).desc.size = 0 := by
      by_contra hsize
      exact hne ⟨ino, hpath, hsize⟩
    simp only [hsize, if_true]
    exact ⟨_, rfl⟩

/-! ## The next message -/

/-- The old file is given up. -/
theorem Inv.cleanup (h : s.Inv) (hs : s.reader.tail.status = .deletePending
    ∨ s.reader.tail.status = .reinitPending ∨ s.reader.tail.status = .reinitReady) :
    (s.setTail s.reader.tail.cleanup).Inv :=
  h.setTail ⟨rfl, fun _ => hs, fun hn => absurd h.choice hn⟩ h.choice id

/-- What is done with a file that is mapped, or not. -/
theorem Inv.drain (h : s.Inv) (ok more : Bool) :
    ∃ s', (if !ok || more then Except.ok s
      else if s.reader.tail.status = .deletePending ∨ s.reader.tail.status = .reinitPending
          ∨ s.reader.tail.status = .reinitReady then
        .ok (s.setTail s.reader.tail.cleanup)
      else .ok s : Except End System) = .ok s' ∧ s'.Inv := by
  split
  · exact ⟨s, rfl, h⟩
  · split
    · rename_i hs
      exact ⟨_, rfl, h.cleanup hs⟩
    · exact ⟨s, rfl, h⟩

theorem Inv.nextTsc (h : s.Inv) (more : Bool)
    (hne : s.reader.tail.fd = false ∧ s.reader.tail.status = .reinitReady → s.NotEmpty) :
    ∃ s', s.nextTsc more = .ok s' ∧ s'.Inv := by
  unfold System.nextTsc
  by_cases hs : s.reader.tail.status = .initializing
  · have hfd : s.reader.tail.fd = false → s.NotEmpty := fun hno => by
      simp [(h.mapped hs).1] at hno
    obtain ⟨⟨ok, s₁⟩, heq, hinv, htfh, -⟩ := h.initializeTail (.inl hs) hfd
    rw [if_pos hs, heq, ok_bind]
    dsimp only at hinv htfh ⊢
    cases ok with
    | false => exact ⟨s₁, rfl, hinv⟩
    | true =>
      simp only [Bool.not_true, Bool.false_eq_true, if_false]
      rw [if_pos htfh, ok_bind]
      exact hinv.drain true more
  · rw [if_neg hs, ok_bind]
    simp only [Bool.not_true, Bool.false_eq_true, if_false]
    cases htfh : s.reader.tail.tfh with
    | true =>
      simp only [if_true]
      exact h.drain true more
    | false =>
      simp only [Bool.false_eq_true, if_false]
      split
      · exact h.drain false more
      · rename_i hready
        have hready := not_not.mp hready
        have hfd : s.reader.tail.fd = false := h.tail.fd.trans htfh
        obtain ⟨⟨ok, s₁⟩, heq, hinv, -, -⟩ :=
          h.initializeTail (.inr hready) fun _ => hne ⟨hfd, hready⟩
        rw [heq, ok_bind]
        exact hinv.drain ok more

/-- A file that is not there, or empty, ends the process. -/
theorem Inv.nextTsc_ends (h : s.Inv) (more : Bool) (hfd : s.reader.tail.fd = false)
    (hs : s.reader.tail.status = .reinitReady) (hne : ¬ s.NotEmpty) :
    ∃ e, s.nextTsc more = .error e := by
  have htfh : s.reader.tail.tfh = false := h.tail.fd.symm.trans hfd
  obtain ⟨e, heq⟩ := initializeTail_ends hs hfd hne
  refine ⟨e, ?_⟩
  unfold System.nextTsc
  rw [if_neg (by rw [hs]; decide), ok_bind]
  simp only [Bool.not_true, Bool.false_eq_true, if_false, htfh, hs, ne_eq, not_true_eq_false, heq]
  rfl

/-! ## Runs -/

/-- The step lemma. -/
theorem Inv.step (h : s.Inv) (a : Action) (hne : s.Opens a → s.NotEmpty) :
    ∃ s', s.step a = .ok s' ∧ s'.Inv := by
  cases a with
  | recreate th => exact ⟨_, rfl, h.recreate th⟩
  | write now => exact ⟨_, rfl, h.write now⟩
  | takeTimestamp tsc now => exact ⟨_, rfl, h.takeTimestamp tsc now⟩
  | describe length => exact ⟨_, rfl, h.describe length⟩
  | receive => exact h.receive
  | nextTsc more => exact h.nextTsc more hne
  | others wait => exact ⟨_, rfl, h.watched ..⟩

/-- A step that opens the file needs it. -/
theorem Inv.step_ends (h : s.Inv) {a : Action} (hopens : s.Opens a) (hne : ¬ s.NotEmpty) :
    ∃ e, s.step a = .error e := by
  cases a with
  | nextTsc more => exact h.nextTsc_ends more hopens.1 hopens.2 hne
  | _ => exact hopens.elim

/-- The run lemma. -/
theorem Inv.handles : ∀ (as : List Action) {s : System}, s.Inv → (Handles s as ↔ Meets s as)
  | [], _, h => ⟨fun _ => trivial, fun _ => h.active⟩
  | a :: as, s, h => by
      constructor
      · rintro ⟨-, s₁, hstep, hrun⟩
        have hmeets : s.Opens a → s.NotEmpty := fun hopens => by
          by_contra hne
          obtain ⟨e, hends⟩ := h.step_ends hopens hne
          cases hstep.symm.trans hends
        obtain ⟨s₂, heq, h₂⟩ := h.step a hmeets
        refine ⟨hmeets, fun s' hs' => ?_⟩
        cases heq.symm.trans hs'
        cases heq.symm.trans hstep
        exact (Inv.handles as h₂).mp hrun
      · rintro ⟨hmeets, hrest⟩
        obtain ⟨s₁, heq, h₁⟩ := h.step a hmeets
        exact ⟨h.active, s₁, heq, (Inv.handles as h₁).mpr (hrest s₁ heq)⟩

end System

/-! ## A file that is tailed -/

/-- A file that is complete, with its timestamps. -/
def File.complete (th : FileLayout.TraceHandle) (t₀ : Rat) (tsc₁ : UInt64) (t₁ : Rat) : File :=
  let f := (fileSteps th).foldl File.apply (File.new th)
  { f with header := { f.header with monotime0 := t₀, tsc1 := tsc₁, monotime1 := t₁ } }

/-- The writer has written its file, and qttail is active on it. -/
def start (th : FileLayout.TraceHandle) (t₀ : Rat) (tsc₁ : UInt64) (t₁ : Rat) (options : Options) :
    System where
  files := fun _ => File.complete th t₀ tsc₁ t₁
  next := 1
  path := some 0
  writer := ⟨th, 0, .stamping⟩
  reader :=
    { tail :=
        { options, fd := true, tfh := true, status := .active, tsc1 := tsc₁.toNat
          tail := { rbs := [], next := none, out := Output.empty, corruptions := [] } }
      ino := 0
      rbs := (File.complete th t₀ tsc₁ t₁).header.rbs }
  events := []
  modify := false
  othersWait := false

theorem start_inv (th : FileLayout.TraceHandle) (t₀ : Rat) (tsc₁ : UInt64) (t₁ : Rat)
    (options : Options) : (start th t₀ tsc₁ t₁ options).Inv := by
  have hwritten : (File.complete th t₀ tsc₁ t₁).Written :=
    (File.written_foldl (File.new th)).times t₀ tsc₁ t₁
  exact
    { tail := ⟨rfl, by simp [start], fun _ => ⟨rfl, by simp [start]⟩⟩
      choice := rfl
      opened := Nat.zero_lt_one
      owned := Nat.zero_lt_one
      named := fun ino hino => by
        cases hino
        exact Nat.zero_lt_one
      unnamed := fun hphase => by cases hphase
      complete := fun _ => .inr hwritten
      filling := fun _ hphase => by cases hphase
      stamping := fun _ => hwritten
      active := fun _ => ⟨hwritten, rfl⟩
      apart := fun _ _ hphase => by cases hphase }

/-- The writer creates its file anew, any number of times and at any moment,
and qttail looks at it whenever it wants: no step ends the process, and the
levels are only set up from a complete header, if and only if the file is
there and not empty whenever it is opened. -/
theorem handles_iff (th : FileLayout.TraceHandle) (t₀ : Rat) (tsc₁ : UInt64) (t₁ : Rat)
    (options : Options) (as : List System.Action) :
    Handles (start th t₀ tsc₁ t₁ options) as ↔ Meets (start th t₀ tsc₁ t₁ options) as :=
  (start_inv th t₀ tsc₁ t₁ options).handles as

/-- A sequence of actions. -/
def System.run (s : System) (as : List System.Action) : Except End System := as.foldlM System.step s

/-- A run that is handled does not end the process. -/
theorem run_of_handles : ∀ {as : List System.Action} {s : System}, Handles s as →
    ∃ s', s.run as = .ok s'
  | [], s, _ => ⟨s, rfl⟩
  | _ :: _, s, ⟨_, s₁, hstep, hrun⟩ => by
      obtain ⟨s', heq⟩ := run_of_handles hrun
      refine ⟨s', ?_⟩
      unfold System.run
      rw [List.foldlM_cons, hstep, ok_bind]
      exact heq

/-- A small file. -/
def smallHandle : FileLayout.TraceHandle := FileLayout.TraceHandle.resize 1 fun _ => 1

/-- IN_MODIFY comes from the truncation to 0. qttail has read all of the old
file, and opens the new one before it gets its size. -/
theorem empty_file_ends :
    (start smallHandle 1 0 2 ⟨true, fun _ => true⟩).run
        [.recreate smallHandle, .write 3, .write 3, .receive, .write 3, .receive, .nextTsc false,
          .nextTsc false] = .error .emptyFile
      ∧ ¬ Handles (start smallHandle 1 0 2 ⟨true, fun _ => true⟩)
        [.recreate smallHandle, .write 3, .write 3, .receive, .write 3, .receive, .nextTsc false,
          .nextTsc false] := by
  have hends : (start smallHandle 1 0 2 ⟨true, fun _ => true⟩).run
      [.recreate smallHandle, .write 3, .write 3, .receive, .write 3, .receive, .nextTsc false,
        .nextTsc false] = .error .emptyFile := rfl
  refine ⟨hends, fun hhandles => ?_⟩
  obtain ⟨s', heq⟩ := run_of_handles hhandles
  cases hends.symm.trans heq

/-- One step of the writer later the file has its size, and qttail waits for
the timestamps. -/
example : ((start smallHandle 1 0 2 ⟨true, fun _ => true⟩).run
      [.recreate smallHandle, .write 3, .write 3, .receive, .write 3, .receive, .nextTsc false,
        .write 3, .nextTsc false]).map (fun s => (s.reader.tail.status, s.reader.ino))
    = .ok (.initializing, 1) := by decide +kernel

end Recreate

end QuickTrace
