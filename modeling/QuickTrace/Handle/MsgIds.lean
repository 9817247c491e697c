/-
QuickTrace.Handle.MsgIds — message ids, handles and files.

A trace statement keeps its id in a static variable, a `TraceHandle` counts
the ids it has given out, and a `TraceFile` remembers for which ids it holds
a descriptor. A file is what stands on the disk: the descriptors and the
messages that were ever recorded; re-creating a file renames the old one, so
every `TraceFile` object is a file of its own. A statement writes its
descriptor and records its message in one step.

Ids outlive handles, and every handle counts from one: `id_used_twice` is a
run in which two statements come to use one id in one file. In a run that
never lets this happen (`OwnId`) every message is decoded with its own
descriptor (`decoded_with_own_descriptor`).
-/
import QuickTrace.Dict.MessageParser
import Mathlib.Logic.Relation
import Mathlib.Logic.Function.Basic

namespace QuickTrace

open QuickTrace.Lib

/-! ## Statements, files and handles -/

/-- A trace statement: which one it is, and what its descriptor says. -/
structure Stmt where
  site : Nat
  filename : Text
  lineno : UInt32
  text : Text
  fmt : Text
  deriving DecidableEq

/-- A descriptor in a file, and the statement that has written it. -/
structure DictEntry where
  tsc : UInt64
  msgId : UInt32
  stmt : Stmt
  deriving DecidableEq

/-- The entry as `MessageParser` returns it. -/
def DictEntry.message (e : DictEntry) : Message where
  tsc := e.tsc
  msgId := e.msgId
  lineno := e.stmt.lineno
  filename := e.stmt.filename
  msg := e.stmt.text
  fmt := e.stmt.fmt

/-- `TraceFile`: the handle it belongs to, the ids it has descriptors for,
the descriptors, and the messages with the statements that recorded them. -/
structure QtFile where
  traceHandle : Nat
  msgIdInitialized : UInt32 → Bool
  dict : List DictEntry
  messages : List (UInt32 × Stmt)

/-- A new file of a handle. -/
def QtFile.new (h : Nat) : QtFile := ⟨h, fun _ => false, [], []⟩

/-- `msgIdInitialized`. -/
def QtFile.hasMsgId (f : QtFile) (msgId : UInt32) : Bool := msgId != 0 && f.msgIdInitialized msgId

/-- The descriptor that `Messages` has for an id: `try_emplace` keeps the
first. -/
def QtFile.resolve (f : QtFile) (msgId : UInt32) : Option Message :=
  (f.dict.map DictEntry.message).find? fun msg => msg.msgId == msgId

/-- A descriptor is appended: `msgIdInitializedIs`. -/
def QtFile.describe (f : QtFile) (e : DictEntry) : QtFile :=
  { f with
    dict := f.dict ++ [e]
    msgIdInitialized := Function.update f.msgIdInitialized e.msgId true }

/-- A message is recorded. -/
def QtFile.record (f : QtFile) (msgId : UInt32) (s : Stmt) : QtFile :=
  { f with messages := f.messages ++ [(msgId, s)] }

/-- `TraceHandle`: `threadFile` is the thread-local pointer. -/
structure TraceHandle where
  multiThreading : Bool
  initialized : Bool
  traceFilesClosed : Bool
  nextMsgId : UInt32
  nonMtTraceFile : Option Nat
  threadFile : Nat → Option Nat

namespace TraceHandle

/-- Before the constructor. -/
def unused : TraceHandle := ⟨false, false, true, 1, none, fun _ => none⟩

/-- The members before the body of the constructor. -/
def new (multiThreading : Bool) : TraceHandle :=
  ⟨multiThreading, false, false, 1, none, fun _ => none⟩

/-- `traceFile` in one thread. -/
def traceFile (th : TraceHandle) (thread : Nat) : Option Nat :=
  if th.multiThreading then (if th.initialized then th.threadFile thread else none)
  else th.nonMtTraceFile

/-- `disableTracing`: the files are deleted; the thread-local pointers stay
but are not used any more. -/
def disableTracing (th : TraceHandle) : TraceHandle :=
  if th.traceFilesClosed then th
  else { th with initialized := false, traceFilesClosed := true, nonMtTraceFile := none }

/-- The id `allocateMsgId` gives out: zero is skipped. -/
def allocatedId (th : TraceHandle) : UInt32 := if th.nextMsgId = 0 then 1 else th.nextMsgId

/-- The counter behind `allocateMsgId`. -/
def allocate (th : TraceHandle) : TraceHandle := { th with nextMsgId := th.allocatedId + 1 }

end TraceHandle

/-! ## The process -/

/-- The static ids of the statements, the handles, and all files there ever
were. -/
structure Process where
  msgId : Stmt → UInt32
  handles : Nat → TraceHandle
  numHandles : Nat
  files : Nat → QtFile
  numFiles : Nat

/-- What a process does, and what the file system answers. Deleting a handle
closes it. -/
inductive Action where
  | construct (multiThreading dirOk fileOk : Bool)
  | resize (h : Nat) (fileOk : Bool)
  | close (h : Nat)
  | maybeCreateMtTraceFile (h thread : Nat) (ok : Bool)
  | threadExit (h thread : Nat)
  | trace (h thread : Nat) (s : Stmt) (tsc : UInt64) (off : Bool)

namespace Process

/-- Before the first handle. -/
def init : Process := ⟨fun _ => 0, fun _ => .unused, 0, fun _ => .new 0, 0⟩

def setHandle (p : Process) (h : Nat) (th : TraceHandle) : Process :=
  { p with handles := Function.update p.handles h th }

def setFile (p : Process) (i : Nat) (f : QtFile) : Process :=
  { p with files := Function.update p.files i f }

/-- `newTraceFile`: the object is the next one; without a file it is not
returned. -/
def newTraceFile (p : Process) (h : Nat) (ok : Bool) : Process × Option Nat :=
  ({ p with files := Function.update p.files p.numFiles (.new h), numFiles := p.numFiles + 1 },
    if ok then some p.numFiles else none)

/-- The constructor: a single-threaded handle gets its file at once. -/
def construct (p : Process) (multiThreading dirOk fileOk : Bool) : Process :=
  let h := p.numHandles
  let th := TraceHandle.new multiThreading
  let p := { p with numHandles := h + 1 }
  if !dirOk then p.setHandle h th
  else if multiThreading then p.setHandle h { th with initialized := true }
  else
    let r := p.newTraceFile h fileOk
    r.1.setHandle h { th with nonMtTraceFile := r.2, initialized := r.2.isSome }

/-- `resize`, to another size: delete the file and create a new one. The
handle is initialized even if there is none. -/
def resize (p : Process) (h : Nat) (fileOk : Bool) : Process :=
  let th := p.handles h
  if th.multiThreading ∨ th.nonMtTraceFile = none then p
  else
    let r := p.newTraceFile h fileOk
    r.1.setHandle h
      { th.disableTracing with
        nonMtTraceFile := r.2, initialized := true, traceFilesClosed := false }

/-- `close`. -/
def close (p : Process) (h : Nat) : Process := p.setHandle h (p.handles h).disableTracing

/-- `maybeCreateMtTraceFile`. -/
def maybeCreateMtTraceFile (p : Process) (h thread : Nat) (ok : Bool) : Process :=
  let th := p.handles h
  if th.initialized ∧ th.multiThreading ∧ th.threadFile thread = none then
    let r := p.newTraceFile h ok
    r.1.setHandle h { th with threadFile := Function.update th.threadFile thread r.2 }
  else p

/-- A thread ends: `deleteTraceFile`. -/
def threadExit (p : Process) (h thread : Nat) : Process :=
  let th := p.handles h
  p.setHandle h { th with threadFile := Function.update th.threadFile thread none }

/-- The id a statement uses in a file: its own, or the next one of the
handle of the file. -/
def idFor (p : Process) (s : Stmt) (i : Nat) : UInt32 :=
  if p.msgId s = 0 then (p.handles (p.files i).traceHandle).allocatedId else p.msgId s

/-- The constructor of `MsgDesc`: allocate an id if there is none. -/
def allocateMsgId (p : Process) (s : Stmt) (i : Nat) : Process :=
  if p.msgId s = 0 then
    let h := (p.files i).traceHandle
    { p.setHandle h (p.handles h).allocate with
      msgId := Function.update p.msgId s (p.handles h).allocatedId }
  else p

/-- A statement meets a file without its descriptor. -/
def writeMsgDesc (p : Process) (s : Stmt) (i : Nat) (tsc : UInt64) : Process :=
  let q := p.allocateMsgId s i
  q.setFile i ((q.files i).describe ⟨tsc, q.msgId s, s⟩)

/-- `QTRACE_H` with the file of a handle; nothing happens without a file, and
a statement that is off records nothing. -/
def trace (p : Process) (h thread : Nat) (s : Stmt) (tsc : UInt64) (off : Bool) : Process :=
  match (p.handles h).traceFile thread with
  | none => p
  | some i =>
    let q := if (p.files i).hasMsgId (p.msgId s) then p else p.writeMsgDesc s i tsc
    if off then q else q.setFile i ((q.files i).record (q.msgId s) s)

/-- One action. -/
def step (p : Process) : Action → Process
  | .construct multiThreading dirOk fileOk => p.construct multiThreading dirOk fileOk
  | .resize h fileOk => p.resize h fileOk
  | .close h => p.close h
  | .maybeCreateMtTraceFile h thread ok => p.maybeCreateMtTraceFile h thread ok
  | .threadExit h thread => p.threadExit h thread
  | .trace h thread s tsc off => p.trace h thread s tsc off

/-- A sequence of actions. -/
def run (p : Process) (as : List Action) : Process := as.foldl step p

/-- Every descriptor that a file has under the id a statement uses in it was
written by this statement. -/
def OwnId (p : Process) : Action → Prop
  | .trace h thread s _ _ => ∀ i, (p.handles h).traceFile thread = some i →
      ∀ e ∈ (p.files i).dict, e.msgId = p.idFor s i → e.stmt = s
  | _ => True

/-- A step that keeps the ids apart. -/
inductive Step (p : Process) : Process → Prop where
  | action (a : Action) (h : OwnId p a) : Step p (p.step a)

/-- The states of a process all whose steps keep the ids apart. -/
def Reachable (p : Process) : Prop := Relation.ReflTransGen Step init p

end Process

/-! ## One file -/

namespace QtFile

/-- Every message in the file is decoded with the descriptor of the statement
that recorded it, and no two statements use one id. -/
structure DecodesOwn (f : QtFile) : Prop where
  own : ∀ m ∈ f.messages, ∃ msg, f.resolve m.1 = some msg ∧ msg.filename = m.2.filename
    ∧ msg.lineno = m.2.lineno ∧ msg.msg = m.2.text ∧ msg.fmt = m.2.fmt
  apart : ∀ m ∈ f.messages, ∀ m' ∈ f.messages, m.1 = m'.1 → m.2 = m'.2

/-- The invariant of a file: one statement for each id, a descriptor for
every message and for every id that is marked. -/
structure Ok (f : QtFile) : Prop where
  same : ∀ e ∈ f.dict, ∀ e' ∈ f.dict, e.msgId = e'.msgId → e.stmt = e'.stmt
  described : ∀ m ∈ f.messages, ∃ e ∈ f.dict, e.msgId = m.1 ∧ e.stmt = m.2
  marked : ∀ k, f.msgIdInitialized k = true → ∃ e ∈ f.dict, e.msgId = k

theorem ok_new (h : Nat) : (QtFile.new h).Ok :=
  ⟨by simp [QtFile.new], by simp [QtFile.new], by simp [QtFile.new]⟩

/-- The first descriptor of an id is that of its statement. -/
theorem Ok.resolve {f : QtFile} (hf : f.Ok) {e : DictEntry} (he : e ∈ f.dict) :
    ∃ e' ∈ f.dict, f.resolve e.msgId = some e'.message ∧ e'.stmt = e.stmt := by
  have hsome : (f.resolve e.msgId).isSome = true := by
    rw [QtFile.resolve, List.find?_isSome]
    exact ⟨e.message, List.mem_map_of_mem he, by simp [DictEntry.message]⟩
  obtain ⟨msg, hmsg⟩ := Option.isSome_iff_exists.mp hsome
  obtain ⟨e', he', rfl⟩ := List.mem_map.mp (List.mem_of_find?_eq_some hmsg)
  have hid : e'.msgId = e.msgId := by simpa [DictEntry.message] using List.find?_some hmsg
  exact ⟨e', he', hmsg, hf.same e' he' e he hid⟩

theorem Ok.decodesOwn {f : QtFile} (hf : f.Ok) : f.DecodesOwn := by
  constructor
  · intro m hm
    obtain ⟨e, he, hid, hstmt⟩ := hf.described m hm
    obtain ⟨e', -, hres, hsame⟩ := hf.resolve he
    rw [hid] at hres
    rw [hstmt] at hsame
    exact ⟨e'.message, hres, by rw [← hsame]; rfl, by rw [← hsame]; rfl, by rw [← hsame]; rfl,
      by rw [← hsame]; rfl⟩
  · intro m hm m' hm' hid
    obtain ⟨e, he, h1, h2⟩ := hf.described m hm
    obtain ⟨e', he', h1', h2'⟩ := hf.described m' hm'
    rw [← h2, ← h2']
    exact hf.same e he e' he' (by rw [h1, h1', hid])

theorem Ok.describe {f : QtFile} (hf : f.Ok) {e : DictEntry}
    (h : ∀ x ∈ f.dict, x.msgId = e.msgId → x.stmt = e.stmt) : (f.describe e).Ok := by
  constructor
  · intro x hx y hy hid
    rcases List.mem_append.mp hx with hx | hx <;> rcases List.mem_append.mp hy with hy | hy
    · exact hf.same x hx y hy hid
    · rw [List.mem_singleton.mp hy] at hid ⊢
      exact h x hx hid
    · rw [List.mem_singleton.mp hx] at hid ⊢
      exact (h y hy hid.symm).symm
    · rw [List.mem_singleton.mp hx, List.mem_singleton.mp hy]
  · intro m hm
    obtain ⟨x, hx, h1, h2⟩ := hf.described m hm
    exact ⟨x, List.mem_append_left _ hx, h1, h2⟩
  · intro k hk
    by_cases hke : k = e.msgId
    · exact ⟨e, List.mem_append_right _ (List.mem_singleton_self e), hke.symm⟩
    · have hk : f.msgIdInitialized k = true := by
        simpa only [QtFile.describe, Function.update_of_ne hke] using hk
      obtain ⟨x, hx, hid⟩ := hf.marked k hk
      exact ⟨x, List.mem_append_left _ hx, hid⟩

theorem Ok.record {f : QtFile} (hf : f.Ok) {e : DictEntry} (he : e ∈ f.dict) :
    (f.record e.msgId e.stmt).Ok := by
  refine ⟨hf.same, fun m hm => ?_, hf.marked⟩
  rcases List.mem_append.mp hm with hm | hm
  · exact hf.described m hm
  · rw [List.mem_singleton.mp hm]
    exact ⟨e, he, rfl, rfl⟩

end QtFile

/-! ## Every run -/

namespace Process

/-- All files are in order. -/
def Ok (p : Process) : Prop := ∀ i, (p.files i).Ok

theorem ok_init : Process.init.Ok := fun _ => QtFile.ok_new 0

@[simp] theorem setFile_files_self (p : Process) (i : Nat) (f : QtFile) :
    (p.setFile i f).files i = f := Function.update_self ..

theorem setFile_files_ne (p : Process) {i j : Nat} (h : j ≠ i) (f : QtFile) :
    (p.setFile i f).files j = p.files j := Function.update_of_ne h ..

theorem Ok.setFile {p : Process} (hp : p.Ok) {i : Nat} {f : QtFile} (hf : f.Ok) :
    (p.setFile i f).Ok := by
  intro j
  by_cases hj : j = i
  · subst hj
    rw [setFile_files_self]
    exact hf
  · rw [setFile_files_ne p hj]
    exact hp j

theorem Ok.newTraceFile {p : Process} (hp : p.Ok) (h : Nat) (ok : Bool) :
    (p.newTraceFile h ok).1.Ok := hp.setFile (QtFile.ok_new h)

theorem allocateMsgId_files (p : Process) (s : Stmt) (i : Nat) :
    (p.allocateMsgId s i).files = p.files := by
  unfold allocateMsgId
  split <;> rfl

/-- Behind `allocateMsgId` the statement has the id it uses in the file. -/
theorem allocateMsgId_msgId (p : Process) (s : Stmt) (i : Nat) :
    (p.allocateMsgId s i).msgId s = p.idFor s i := by
  unfold allocateMsgId idFor
  split
  · exact Function.update_self ..
  · rfl

/-- What a statement does to a file without its descriptor. -/
theorem writeMsgDesc_ok {p : Process} (hp : p.Ok) {s : Stmt} {i : Nat} (tsc : UInt64)
    (hown : ∀ e ∈ (p.files i).dict, e.msgId = p.idFor s i → e.stmt = s) :
    (p.writeMsgDesc s i tsc).Ok
      ∧ ⟨tsc, (p.writeMsgDesc s i tsc).msgId s, s⟩ ∈ ((p.writeMsgDesc s i tsc).files i).dict := by
  have hid := allocateMsgId_msgId p s i
  have hfiles := allocateMsgId_files p s i
  have hq : (p.allocateMsgId s i).Ok := by
    intro j
    rw [hfiles]
    exact hp j
  refine ⟨hq.setFile ((hq i).describe fun x hx hx' => ?_), ?_⟩
  · rw [hfiles] at hx
    exact hown x hx (hx'.trans hid)
  · rw [writeMsgDesc, setFile_files_self]
    exact List.mem_append_right _ (List.mem_singleton_self _)

/-- The step lemma for a trace statement. -/
theorem ok_trace {p : Process} (hp : p.Ok) {h thread : Nat} {s : Stmt} {tsc : UInt64} {off : Bool}
    (hown : OwnId p (.trace h thread s tsc off)) : (p.trace h thread s tsc off).Ok := by
  unfold trace
  split
  · exact hp
  · rename_i i hi
    have hown := hown i hi
    -- with or without a new descriptor, the file has one of the statement
    have hq : ∃ q, q = (if (p.files i).hasMsgId (p.msgId s) then p else p.writeMsgDesc s i tsc)
        ∧ q.Ok ∧ ∃ e ∈ (q.files i).dict, e.msgId = q.msgId s ∧ e.stmt = s := by
      refine ⟨_, rfl, ?_⟩
      split
      · rename_i hhas
        rw [QtFile.hasMsgId, Bool.and_eq_true, bne_iff_ne] at hhas
        obtain ⟨e, he, hid⟩ := (hp i).marked _ hhas.2
        exact ⟨hp, e, he, hid, hown e he (by rw [hid, idFor, if_neg hhas.1])⟩
      · obtain ⟨h1, h2⟩ := writeMsgDesc_ok hp tsc hown
        exact ⟨h1, _, h2, rfl, rfl⟩
    obtain ⟨q, rfl, hok, e, he, hid, rfl⟩ := hq
    dsimp only
    split
    · exact hok
    · rw [← hid]
      exact hok.setFile ((hok i).record he)

/-- The step lemma. -/
theorem ok_step {p q : Process} (hp : p.Ok) (h : Step p q) : q.Ok := by
  cases h with
  | action a hown =>
    cases a with
    | construct multiThreading dirOk fileOk =>
      simp only [step, construct]
      split
      · exact hp
      · split
        · exact hp
        · exact hp.newTraceFile _ fileOk
    | resize h fileOk =>
      simp only [step, resize]
      split
      · exact hp
      · exact hp.newTraceFile _ fileOk
    | close h => exact hp
    | maybeCreateMtTraceFile h thread ok =>
      simp only [step, maybeCreateMtTraceFile]
      split
      · exact hp.newTraceFile _ ok
      · exact hp
    | threadExit h thread => exact hp
    | trace h thread s tsc off => exact ok_trace hp hown

/-- In a run all whose steps keep the ids apart, every message of every file
is decoded with its own descriptor. -/
theorem decoded_with_own_descriptor {p : Process} (hr : Reachable p) (i : Nat) :
    (p.files i).DecodesOwn := by
  have hok : p.Ok := by
    induction hr with
    | refl => exact ok_init
    | tail _ hstep ih => exact ok_step ih hstep
  exact (hok i).decodesOwn

/-- A statement that traces a constant text. -/
def stmt (site : Nat) : Stmt := ⟨site, ascii ['f'], UInt32.ofNat site, ascii ['x'], []⟩

theorem reachable_resized : Reachable
    (Process.init.run [.construct false true true, .trace 0 0 (stmt 1) 5 false, .resize 0 true,
      .trace 0 0 (stmt 1) 6 false]) := by
  refine .tail (.tail (.tail (.tail .refl (.action (.construct false true true) trivial))
    (.action (.trace 0 0 (stmt 1) 5 false) ?_)) (.action (.resize 0 true) trivial))
    (.action (.trace 0 0 (stmt 1) 6 false) ?_)
  all_goals
    intro i hi
    cases hi
    decide

/-- A resize in between: the second file has a descriptor of its own. -/
theorem decoded_after_resize : ((Process.init.run [.construct false true true,
    .trace 0 0 (stmt 1) 5 false, .resize 0 true, .trace 0 0 (stmt 1) 6 false]).files 1).DecodesOwn :=
  decoded_with_own_descriptor reachable_resized 1

/-- The first handle is closed and a second one created: the second
statement gets the id that the first one still has, and a message of the
first statement is decoded as one of the second. -/
theorem id_used_twice : ¬ ((Process.init.run [.construct false true true,
    .trace 0 0 (stmt 1) 5 false, .close 0, .construct false true true, .trace 1 0 (stmt 2) 6 false,
    .trace 1 0 (stmt 1) 7 false]).files 1).DecodesOwn := by
  intro h
  have hmsgs : ((Process.init.run [.construct false true true, .trace 0 0 (stmt 1) 5 false,
      .close 0, .construct false true true, .trace 1 0 (stmt 2) 6 false,
      .trace 1 0 (stmt 1) 7 false]).files 1).messages = [(1, stmt 2), (1, stmt 1)] := by decide
  have := h.apart (1, stmt 2) (by rw [hmsgs]; simp) (1, stmt 1) (by rw [hmsgs]; simp) rfl
  revert this
  decide

end Process

end QuickTrace
