/-
QuickTrace.Tail.CatControl — `qttail -c` on several files.

`catMany` keeps the files in a `std::map` from the timestamp of the next
message and the number of the file (`QueueKey`) to the `Tail` and its chosen
level. It always prints from the first entry. Then it either takes the entry
out and inserts it again under its new timestamp or, when the entry behind it
is not earlier, writes the new timestamp into the key where it stands. The
map is the list of its entries in the order of an iteration; `insert` looks
for the place as `operator<` has it, so it is right as long as that list is
sorted.

The files do not change while they are read. A `CatFile` is a `Tail` with
its mapped file and its place among the arguments. All files print to the
same stream; `Screen` keeps with each line the file it is from, which is the
column that several files add. The number of files is an `int`, so `fileNum`
does not wrap around.
-/
import QuickTrace.Tail.Tail
import QuickTrace.Ring.TraceFile

namespace QuickTrace

open QuickTrace.Lib

/-! ## Files -/

/-- A file as `initialize` leaves it: the mapped bytes, the descriptors and a
reader for each level. -/
structure OpenFile where
  mem : Mem
  msgs : Messages
  readers : Fin NumTraceLevels → RingBuffer
  level_eq : ∀ i, (readers i).level = i.val

/-- The `Tail` of the file, which only looks at the enabled levels. -/
def OpenFile.tail (f : OpenFile) (levelEnabled : Fin NumTraceLevels → Bool) : Tail where
  rbs := ((List.finRange NumTraceLevels).filter levelEnabled).map f.readers
  next := none
  out := Output.empty
  corruptions := []

/-- One of the files. -/
structure CatFile where
  index : Nat
  mem : Mem
  msgs : Messages
  tail : Tail

/-- What has been printed, with the index of the file. -/
structure Screen where
  out : Output
  printed : List (Nat × Line)

/-- An argument of `qttail -c`: a file and the levels to read of it. -/
structure Argument where
  file : OpenFile
  levelEnabled : Fin NumTraceLevels → Bool

/-- The constructor: the list of files. -/
def catFiles (args : List Argument) : List CatFile :=
  args.mapIdx fun i a => ⟨i, a.file.mem, a.file.msgs, a.file.tail a.levelEnabled⟩

namespace CatFile

/-- `nextTsc`. -/
def nextTsc (f : CatFile) : CatFile := { f with tail := f.tail.nextTsc f.mem }

/-- `tailBuffer`; `none` is the exit after a corruption. -/
def tailBuffer (f : CatFile) (s : Screen) (tsc bufNum : Nat) : Option (CatFile × Screen) :=
  (({ f.tail with out := s.out } : Tail).tailBuffer f.mem f.msgs false tsc UINT64_MAX bufNum).map
    fun r =>
      ({ f with tail := r.2 },
        { out := r.2.out,
          printed := s.printed ++ (r.2.out.lines.drop s.out.lines.length).map (f.index, ·) })

end CatFile

/-! ## The queue -/

structure QueueKey where
  tsc : Nat
  fileNum : Nat
  deriving DecidableEq

/-- `operator<`. -/
def QueueKey.Lt (a b : QueueKey) : Prop :=
  if a.tsc ≠ b.tsc then a.tsc < b.tsc else a.fileNum < b.fileNum

instance (a b : QueueKey) : Decidable (a.Lt b) :=
  inferInstanceAs (Decidable (if a.tsc ≠ b.tsc then a.tsc < b.tsc else a.fileNum < b.fileNum))

/-- A key with its `QueueEntry`. -/
structure Queued where
  key : QueueKey
  file : CatFile
  bufNum : Nat

abbrev FileQueue := List Queued

namespace FileQueue

/-- `insert`; a key that is there already stays. -/
def insert (e : Queued) : FileQueue → FileQueue
  | [] => [e]
  | x :: q =>
    if e.key.Lt x.key then e :: x :: q
    else if x.key.Lt e.key then x :: insert e q
    else x :: q

end FileQueue

/-- The loop of `populateQueue`: empty files are left out, the others
numbered. -/
def populateQueue : List CatFile → Nat → FileQueue → FileQueue
  | [], _, q => q
  | file :: files, fileNum, q =>
    let file := file.nextTsc
    match file.tail.next with
    | none => populateQueue files fileNum q
    | some (tsc, bufNum) =>
      populateQueue files (fileNum + 1) (FileQueue.insert ⟨⟨tsc, fileNum⟩, file, bufNum⟩ q)

/-- The timestamp of the choice, `UINT64_MAX` if there is none. -/
def CatFile.chosenTsc (f : CatFile) : Nat := (f.tail.next.map Prod.fst).getD UINT64_MAX

/-- What the queue becomes when `file`, its first entry, has a new choice. -/
def requeue (file : Queued) (rest : FileQueue) : FileQueue :=
  match rest with
  | [] => [file]
  | nextFile :: others =>
    let nextFile := { nextFile with file := nextFile.file.nextTsc }
    if nextFile.file.chosenTsc < file.key.tsc then FileQueue.insert file (nextFile :: others)
    else file :: nextFile :: others

/-- One round of the loop of `catMany`. -/
def catRound (file : Queued) (rest : FileQueue) (s : Screen) : Option (FileQueue × Screen) :=
  (file.file.tailBuffer s file.key.tsc file.bufNum).map fun r =>
    let f := r.1.nextTsc
    match f.tail.next with
    | none => (rest, r.2)
    | some (tsc, bufNum) => (requeue ⟨{ file.key with tsc }, f, bufNum⟩ rest, r.2)

/-- What the loop of `catMany` comes to. -/
inductive CatManyResult where
  | done (s : Screen)
  | exit
  | outOfFuel

def catLoop : Nat → FileQueue → Screen → CatManyResult
  | _, [], s => .done s
  | 0, _ :: _, _ => .outOfFuel
  | fuel + 1, file :: rest, s =>
    match catRound file rest s with
    | none => .exit
    | some (q, s) => catLoop fuel q s

/-- `catOne`. -/
def Argument.catOne (a : Argument) (fuel : Nat) : Tail.CatResult :=
  Tail.catOne a.file.mem a.file.msgs fuel (a.file.tail a.levelEnabled)

/-- `catMany`. -/
def catMany (fuel : Nat) (files : List CatFile) : CatManyResult :=
  catLoop fuel (populateQueue files 0 []) ⟨Output.empty, []⟩

end QuickTrace
