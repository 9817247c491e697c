/-
QuickTrace.Handle.Lifetime — handles, their files and the registry.

A process creates, resizes, closes and deletes handles; its threads create
their files in multi-threaded handles and end. A handle is a number, and so
is a `TraceFile` object: `deletions` counts how often each was deleted.
`threadFile` holds the thread-local pointers, which no handle takes along
when it goes. What the file system answers is an argument of each action;
what the files contain is left to the other modules.

What a caller must not do is not `enabled`: to use a handle that was deleted,
or `maybeCreateMtTraceFile` where its assertion fails.
-/
import QuickTrace.Format.Value
import Mathlib.Logic.Function.Basic
import Mathlib.Logic.Relation
import Mathlib.Data.List.AList
import Mathlib.Data.Fintype.Pi

namespace QuickTrace.Lifetime

/-! ## Handles -/

/-- `SizeSpec`, the KiB of each level. -/
abbrev Sizes := Fin 10 → UInt32

/-- `adjustSizeSpec( false )`: no level is empty. -/
def adjustSizeSpec (sz : Sizes) : Sizes := fun i => if sz i = 0 then 1 else sz i

/-- `TraceHandle`. -/
structure TraceHandle where
  fileNameSuffix : Text
  multiThreading : Bool
  sizeSpec : Sizes
  initialized : Bool
  traceFilesClosed : Bool
  nonMtTraceFile : Option Nat
  traceFiles : List Nat
  deleted : Bool

namespace TraceHandle

/-- The members before the body of the constructor. -/
def new (fileNameSuffix : Text) (multiThreading : Bool) (sizeSpec : Sizes) : TraceHandle where
  fileNameSuffix := fileNameSuffix
  multiThreading := multiThreading
  sizeSpec := sizeSpec
  initialized := false
  traceFilesClosed := false
  nonMtTraceFile := none
  traceFiles := []
  deleted := false

/-- `isInitialized`. -/
def isInitialized (th : TraceHandle) : Bool := th.initialized && !th.traceFilesClosed

/-- What `disableTracing` does to the handle itself. -/
def disable (th : TraceHandle) : TraceHandle :=
  { th with initialized := false, traceFilesClosed := true, nonMtTraceFile := none }

/-- `traceFiles_.erase`. -/
def eraseFile (th : TraceHandle) (f : Nat) : TraceHandle :=
  { th with traceFiles := th.traceFiles.erase f }

/-- `traceFiles_.insert`. -/
def insertFile (th : TraceHandle) (f : Nat) : TraceHandle :=
  { th with traceFiles := f :: th.traceFiles }

end TraceHandle

/-! ## The process -/

/-- All handles there ever were, `traceHandleMap`, the thread-local pointers
by handle and thread, and the `TraceFile` objects. -/
structure Process where
  handles : Nat → TraceHandle
  numHandles : Nat
  traceHandleMap : AList fun _ : Text => Nat
  threadFile : Nat → Nat → Option Nat
  numFiles : Nat
  deletions : Nat → Nat

namespace Process

/-- Before the first handle. -/
def init : Process where
  handles := fun _ => (TraceHandle.new [] false fun _ => 0).disable
  numHandles := 0
  traceHandleMap := ∅
  threadFile := fun _ _ => none
  numFiles := 0
  deletions := fun _ => 0

/-- A handle that may be used: constructed and not deleted. -/
def alive (p : Process) (h : Nat) : Bool := decide (h < p.numHandles) && !(p.handles h).deleted

def setHandle (p : Process) (h : Nat) (th : TraceHandle) : Process :=
  { p with handles := Function.update p.handles h th }

/-- The thread-local pointer of a handle in a thread. -/
def setThreadFile (p : Process) (h thread : Nat) (f : Option Nat) : Process :=
  { p with threadFile :=
      Function.update p.threadFile h (Function.update (p.threadFile h) thread f) }

/-- `delete` of a `TraceFile`: its destructor takes it out of the set. -/
def deleteTraceFile (p : Process) (h f : Nat) : Process :=
  { p.setHandle h ((p.handles h).eraseFile f) with
    deletions := Function.update p.deletions f (p.deletions f + 1) }

/-- The loop of `disableTracing`: the first file, and so on. -/
def deleteTraceFiles (p : Process) (h : Nat) : List Nat → Process
  | [] => p
  | f :: fs => (p.deleteTraceFile h f).deleteTraceFiles h fs

/-- `disableTracing`. -/
def disableTracing (p : Process) (h : Nat) : Process :=
  if (p.handles h).traceFilesClosed then p
  else (p.setHandle h (p.handles h).disable).deleteTraceFiles h (p.handles h).traceFiles

/-- `close`. -/
def close (p : Process) (h : Nat) : Process := p.disableTracing h

/-- `traceHandle`. -/
def traceHandle (p : Process) (name : Text) : Option Nat := p.traceHandleMap.lookup name

/-- `traceHandleMap.erase`. -/
def eraseName (p : Process) (name : Text) : Process :=
  { p with traceHandleMap := p.traceHandleMap.erase name }

/-- `traceHandleMap[ name ] = h`. -/
def insertName (p : Process) (name : Text) (h : Nat) : Process :=
  { p with traceHandleMap := p.traceHandleMap.insert name h }

/-- `~TraceHandle`. -/
def delete (p : Process) (h : Nat) : Process :=
  let q := p.disableTracing h
  let q := q.setHandle h { q.handles h with deleted := true }
  q.eraseName (p.handles h).fileNameSuffix

/-- `newTraceFile`: a file that cannot be opened or mapped is deleted again.
The object is the next one; the result says whether it is returned. -/
def newTraceFile (p : Process) (h : Nat) (ok : Bool) : Process × Option Nat :=
  let q := { p with numFiles := p.numFiles + 1 }
  if ok then (q.setHandle h ((q.handles h).insertFile p.numFiles), some p.numFiles)
  else (q.deleteTraceFile h p.numFiles, none)

/-- The last lines of the constructor. -/
def register (p : Process) (h : Nat) : Process :=
  (p.insertName (p.handles h).fileNameSuffix h).setHandle h
    { p.handles h with initialized := true }

/-- `new TraceHandle` before the body of the constructor. -/
def newHandle (p : Process) (name : Text) (multiThreading : Bool) (sizeSpec : Sizes) : Process :=
  { p.setHandle p.numHandles (.new name multiThreading sizeSpec) with
    numHandles := p.numHandles + 1 }

/-- The constructor: `sizeSpec` is what `adjustSizeSpec` made of the sizes,
`dirOk` whether `getQtDir` found a directory. -/
def construct (p : Process) (name : Text) (multiThreading : Bool) (sizeSpec : Sizes)
    (dirOk fileOk : Bool) : Process :=
  let h := p.numHandles
  let p := p.newHandle name multiThreading sizeSpec
  if !dirOk then p
  else if multiThreading then p.register h
  else
    let r := p.newTraceFile h fileOk
    let q := r.1.setHandle h { r.1.handles h with nonMtTraceFile := r.2 }
    if r.2 = none then q else q.register h

/-- `resize`, and what it returns. -/
def resize (p : Process) (h : Nat) (newSizeSpec : Sizes) (fileOk : Bool) : Process × Bool :=
  let th := p.handles h
  if th.multiThreading then (p, false)
  else if th.sizeSpec = newSizeSpec then (p, false)
  else
    let deleteAndCreate := th.nonMtTraceFile != none
    let p := if deleteAndCreate then p.close h else p
    let p := p.setHandle h { p.handles h with sizeSpec := adjustSizeSpec newSizeSpec }
    if deleteAndCreate then
      let r := p.newTraceFile h fileOk
      (r.1.setHandle h { r.1.handles h with
        nonMtTraceFile := r.2, initialized := true, traceFilesClosed := false }, true)
    else (p, true)

/-- `traceFile` in one thread, with `mtTraceFile`. -/
def traceFile (p : Process) (h thread : Nat) : Option Nat :=
  if (p.handles h).multiThreading then
    if (p.handles h).initialized then p.threadFile h thread else none
  else (p.handles h).nonMtTraceFile

/-- `maybeCreateMtTraceFile` behind its assertion. -/
def maybeCreateMtTraceFile (p : Process) (h thread : Nat) (ok : Bool) : Process :=
  if !(p.handles h).multiThreading then p
  else if p.threadFile h thread != none then p
  else
    let r := p.newTraceFile h ok
    r.1.setThreadFile h thread r.2

/-- A thread ends: its pointer is cleared and, unless it was null, given to
`deleteTraceFile`. -/
def threadExit (p : Process) (h thread : Nat) : Process :=
  match p.threadFile h thread with
  | none => p
  | some f => (p.setThreadFile h thread none).deleteTraceFile h f

end Process

/-- What a process does. -/
inductive Action where
  | construct (name : Text) (multiThreading : Bool) (sizeSpec : Sizes) (dirOk fileOk : Bool)
  | resize (h : Nat) (newSizeSpec : Sizes) (fileOk : Bool)
  | close (h : Nat)
  | delete (h : Nat)
  | maybeCreateMtTraceFile (h thread : Nat) (ok : Bool)
  | threadExit (h thread : Nat)

namespace Process

/-- Whether a caller may do it. -/
def enabled (p : Process) : Action → Bool
  | .construct .. | .threadExit .. => true
  | .resize h _ _ | .close h | .delete h => p.alive h
  | .maybeCreateMtTraceFile h _ _ => p.alive h && (p.handles h).initialized

/-- One action. -/
def step (p : Process) : Action → Process
  | .construct name mt sizeSpec dirOk fileOk => p.construct name mt sizeSpec dirOk fileOk
  | .resize h newSizeSpec fileOk => (p.resize h newSizeSpec fileOk).1
  | .close h => p.close h
  | .delete h => p.delete h
  | .maybeCreateMtTraceFile h thread ok => p.maybeCreateMtTraceFile h thread ok
  | .threadExit h thread => p.threadExit h thread

/-- A sequence of actions: `none` if one of them is not enabled. -/
def run (p : Process) : List Action → Option Process
  | [] => some p
  | a :: as => if p.enabled a then (p.step a).run as else none

/-- The runs whose steps all meet a condition. -/
inductive Runs (allowed : Process → Action → Prop) : Process → Prop where
  | init : Runs allowed init
  | step {p : Process} {a : Action} (hp : Runs allowed p) (ha : allowed p a)
      (he : p.enabled a = true) : Runs allowed (p.step a)

/-- What holds at first and is kept by every step that is allowed holds in
all these runs. -/
theorem Runs.invariant {allowed : Process → Action → Prop} {I : Process → Prop} (h0 : I Process.init)
    (hstep : ∀ p a, I p → allowed p a → p.enabled a = true → I (p.step a)) {p : Process}
    (h : Runs allowed p) : I p := by
  induction h with
  | init => exact h0
  | step _ ha he ih => exact hstep _ _ ih ha he

/-- Every run, whatever it does. -/
abbrev Reachable (p : Process) : Prop := Runs (fun _ _ => True) p

theorem Reachable.run {q : Process} : ∀ {as : List Action} {p : Process}, Reachable p →
    p.run as = some q → Reachable q
  | [], p, hp, h => by
      cases h
      exact hp
  | a :: as, p, hp, h => by
      rw [Process.run, Option.ite_none_right_eq_some] at h
      exact Reachable.run (hp.step trivial h.1) h.2

theorem alive_iff {p : Process} {h : Nat} :
    p.alive h = true ↔ h < p.numHandles ∧ (p.handles h).deleted = false := by
  rw [alive, Bool.and_eq_true, decide_eq_true_eq, Bool.not_eq_true']

/-! ## What each operation changes -/

@[simp] theorem setHandle_handles_self (p : Process) (h : Nat) (th : TraceHandle) :
    (p.setHandle h th).handles h = th := Function.update_self ..

theorem setHandle_handles_ne (p : Process) {h k : Nat} (hk : k ≠ h) (th : TraceHandle) :
    (p.setHandle h th).handles k = p.handles k := Function.update_of_ne hk ..

@[simp] theorem deleteTraceFile_handles_self (p : Process) (h f : Nat) :
    (p.deleteTraceFile h f).handles h = (p.handles h).eraseFile f := Function.update_self ..

theorem deleteTraceFile_handles_ne (p : Process) {h k : Nat} (hk : k ≠ h) (f : Nat) :
    (p.deleteTraceFile h f).handles k = p.handles k := Function.update_of_ne hk ..

/-- The loop takes the files out of the set. -/
theorem deleteTraceFiles_handles_self (h : Nat) : ∀ (fs : List Nat) (p : Process),
    (p.deleteTraceFiles h fs).handles h
      = { p.handles h with traceFiles := (p.handles h).traceFiles.diff fs }
  | [], p => rfl
  | f :: fs, p => by
      rw [deleteTraceFiles, deleteTraceFiles_handles_self h fs, deleteTraceFile_handles_self,
        TraceHandle.eraseFile, List.diff_cons]

/-- The loop ends with the empty set. -/
theorem diff_self : ∀ fs : List Nat, fs.diff fs = []
  | [] => rfl
  | f :: fs => by rw [List.diff_cons, List.erase_cons_head, diff_self fs]

theorem deleteTraceFiles_handles_ne {h k : Nat} (hk : k ≠ h) : ∀ (fs : List Nat) (p : Process),
    (p.deleteTraceFiles h fs).handles k = p.handles k
  | [], _ => rfl
  | f :: fs, p => by
      rw [deleteTraceFiles, deleteTraceFiles_handles_ne hk fs, deleteTraceFile_handles_ne p hk]

/-- The loop leaves everything but the handle and the files. -/
theorem deleteTraceFiles_frame (h : Nat) : ∀ (fs : List Nat) (p : Process),
    (p.deleteTraceFiles h fs).numHandles = p.numHandles
      ∧ (p.deleteTraceFiles h fs).traceHandleMap = p.traceHandleMap
      ∧ (p.deleteTraceFiles h fs).threadFile = p.threadFile
      ∧ (p.deleteTraceFiles h fs).numFiles = p.numFiles
  | [], _ => ⟨rfl, rfl, rfl, rfl⟩
  | f :: fs, p => by
      rw [deleteTraceFiles]
      exact deleteTraceFiles_frame h fs (p.deleteTraceFile h f)

theorem disableTracing_frame (p : Process) (h : Nat) :
    (p.disableTracing h).numHandles = p.numHandles
      ∧ (p.disableTracing h).traceHandleMap = p.traceHandleMap
      ∧ (p.disableTracing h).threadFile = p.threadFile
      ∧ (p.disableTracing h).numFiles = p.numFiles := by
  unfold disableTracing
  split
  · exact ⟨rfl, rfl, rfl, rfl⟩
  · exact deleteTraceFiles_frame h _ _

theorem disableTracing_handles_ne (p : Process) {h k : Nat} (hk : k ≠ h) :
    (p.disableTracing h).handles k = p.handles k := by
  unfold disableTracing
  split
  · rfl
  · rw [deleteTraceFiles_handles_ne hk, setHandle_handles_ne p hk]

/-- A handle that was not closed has no file left. -/
theorem disableTracing_handles_self {p : Process} {h : Nat}
    (hc : (p.handles h).traceFilesClosed = false) :
    (p.disableTracing h).handles h = { (p.handles h).disable with traceFiles := [] } := by
  rw [disableTracing, if_neg (by rw [hc]; exact Bool.false_ne_true), deleteTraceFiles_handles_self,
    setHandle_handles_self, TraceHandle.disable, diff_self]

theorem delete_handles_self (p : Process) (h : Nat) :
    (p.delete h).handles h = { (p.disableTracing h).handles h with deleted := true } :=
  setHandle_handles_self ..

theorem delete_handles_ne (p : Process) {h k : Nat} (hk : k ≠ h) :
    (p.delete h).handles k = p.handles k :=
  (setHandle_handles_ne _ hk _).trans (disableTracing_handles_ne p hk)

@[simp] theorem setThreadFile_handles (p : Process) (h t : Nat) (f : Option Nat) :
    (p.setThreadFile h t f).handles = p.handles := rfl

@[simp] theorem setThreadFile_self (p : Process) (h t : Nat) (f : Option Nat) :
    (p.setThreadFile h t f).threadFile h = Function.update (p.threadFile h) t f :=
  Function.update_self ..

theorem setThreadFile_ne (p : Process) {h k : Nat} (hk : k ≠ h) (t : Nat) (f : Option Nat) :
    (p.setThreadFile h t f).threadFile k = p.threadFile k := Function.update_of_ne hk ..

theorem newTraceFile_handles_ne (p : Process) {h k : Nat} (hk : k ≠ h) (ok : Bool) :
    (p.newTraceFile h ok).1.handles k = p.handles k := by
  cases ok with
  | true => exact setHandle_handles_ne _ hk _
  | false => exact deleteTraceFile_handles_ne _ hk _

theorem newTraceFile_handles_self (p : Process) (h : Nat) (ok : Bool) :
    (p.newTraceFile h ok).1.handles h
      = if ok then (p.handles h).insertFile p.numFiles else (p.handles h).eraseFile p.numFiles := by
  cases ok with
  | true => exact setHandle_handles_self ..
  | false => exact deleteTraceFile_handles_self ..

theorem newTraceFile_snd (p : Process) (h : Nat) (ok : Bool) :
    (p.newTraceFile h ok).2 = if ok then some p.numFiles else none := by
  cases ok <;> rfl

theorem newTraceFile_frame (p : Process) (h : Nat) (ok : Bool) :
    (p.newTraceFile h ok).1.numHandles = p.numHandles
      ∧ (p.newTraceFile h ok).1.traceHandleMap = p.traceHandleMap
      ∧ (p.newTraceFile h ok).1.threadFile = p.threadFile
      ∧ (p.newTraceFile h ok).1.numFiles = p.numFiles + 1 := by
  cases ok <;> exact ⟨rfl, rfl, rfl, rfl⟩

end Process

/-! ## What always holds of a handle -/

/-- The members of one handle: a closed handle has no files, a
single-threaded one at most its own, and a deleted one is closed. -/
structure TraceHandle.Ok (th : TraceHandle) : Prop where
  closed : th.traceFilesClosed = true → th.traceFiles = []
  opened : th.initialized = true → th.traceFilesClosed = false
  single : th.multiThreading = false → th.traceFiles = th.nonMtTraceFile.toList
  tracing : th.nonMtTraceFile ≠ none → th.initialized = true ∧ th.multiThreading = false
  gone : th.deleted = true → th.traceFilesClosed = true

namespace TraceHandle

theorem ok_new (name : Text) (mt : Bool) (sz : Sizes) : (new name mt sz).Ok where
  closed := fun _ => rfl
  opened := fun h => by cases h
  single := fun _ => rfl
  tracing := fun h => absurd rfl h
  gone := fun h => by cases h

theorem ok_disable (th : TraceHandle) : ({ th.disable with traceFiles := [] } : TraceHandle).Ok where
  closed := fun _ => rfl
  opened := fun h => by cases h
  single := fun _ => rfl
  tracing := fun h => absurd rfl h
  gone := fun _ => rfl

end TraceHandle

namespace Process

/-- What always holds of a process: the handles are in order, those to come
are empty, and a single-threaded handle has no thread-local pointers. -/
structure Wf (p : Process) : Prop where
  handle : ∀ h, (p.handles h).Ok
  unused : ∀ h, p.numHandles ≤ h → p.handles h = init.handles h
  pointer : ∀ h, (p.handles h).multiThreading = false → ∀ t, p.threadFile h t = none

theorem wf_init : init.Wf where
  handle := fun _ => TraceHandle.ok_disable (.new [] false fun _ => 0)
  unused := fun _ _ => rfl
  pointer := fun _ _ _ => rfl

/-- One handle that exists changes, and stays in order. -/
theorem Wf.update {p q : Process} (hp : p.Wf) {h : Nat} (hlt : h < q.numHandles)
    (hnum : p.numHandles ≤ q.numHandles) (hne : ∀ k, k ≠ h → q.handles k = p.handles k)
    (hok : (q.handles h).Ok) (hthread : ∀ k, k ≠ h → q.threadFile k = p.threadFile k)
    (hptr : (q.handles h).multiThreading = false → ∀ t, q.threadFile h t = none) : q.Wf := by
  refine ⟨fun k => ?_, fun k hk => ?_, fun k hk t => ?_⟩
  · by_cases hkh : k = h
    · rw [hkh]
      exact hok
    · rw [hne k hkh]
      exact hp.handle k
  · have hkh : k ≠ h := by omega
    rw [hne k hkh]
    exact hp.unused k (Nat.le_trans hnum hk)
  · by_cases hkh : k = h
    · rw [hkh] at hk ⊢
      exact hptr hk t
    · rw [hne k hkh] at hk
      rw [hthread k hkh]
      exact hp.pointer k hk t

/-- `disableTracing` leaves a closed handle, the one it was or one without
files. -/
theorem disableTracing_ok {p : Process} (hp : p.Wf) (h : Nat) :
    ((p.disableTracing h).handles h).Ok
      ∧ ((p.disableTracing h).handles h).traceFilesClosed = true
      ∧ ((p.disableTracing h).handles h).multiThreading = (p.handles h).multiThreading
      ∧ ((p.disableTracing h).handles h).fileNameSuffix = (p.handles h).fileNameSuffix
      ∧ ((p.disableTracing h).handles h).deleted = (p.handles h).deleted := by
  cases hc : (p.handles h).traceFilesClosed with
  | true =>
    rw [disableTracing, if_pos hc]
    exact ⟨hp.handle h, hc, rfl, rfl, rfl⟩
  | false =>
    rw [disableTracing_handles_self hc]
    exact ⟨TraceHandle.ok_disable _, rfl, rfl, rfl, rfl⟩

theorem Wf.disableTracing {p : Process} (hp : p.Wf) {h : Nat} (hlt : h < p.numHandles) :
    (p.disableTracing h).Wf := by
  obtain ⟨hnum, -, hthread, -⟩ := disableTracing_frame p h
  obtain ⟨hok, -, hmt, -⟩ := disableTracing_ok hp h
  refine hp.update (h := h) (by rw [hnum]; exact hlt) (by rw [hnum])
    (fun k hk => disableTracing_handles_ne p hk) hok (fun k _ => by rw [hthread]) fun h' => ?_
  rw [hthread]
  exact hp.pointer h (hmt ▸ h')

/-- The destructor leaves a closed handle. -/
theorem delete_closed {p : Process} (hp : p.Wf) (h : Nat) :
    ((p.delete h).handles h).traceFilesClosed = true := by
  rw [delete_handles_self]
  exact (disableTracing_ok hp h).2.1

theorem Wf.delete {p : Process} (hp : p.Wf) {h : Nat} (hlt : h < p.numHandles) :
    (p.delete h).Wf := by
  have hq := hp.disableTracing hlt
  obtain ⟨hnum, -, hthread, -⟩ := disableTracing_frame p h
  obtain ⟨hok, hclosed, -⟩ := disableTracing_ok hp h
  have hself := delete_handles_self p h
  refine hq.update (h := h) (hnum.symm ▸ hlt : h < (p.disableTracing h).numHandles)
    (Nat.le_refl _) (fun k hk => setHandle_handles_ne _ hk _) ?_ (fun k _ => rfl) fun h' => ?_
  · rw [hself]
    exact ⟨hok.closed, hok.opened, hok.single, hok.tracing, fun _ => hclosed⟩
  · rw [hself] at h'
    exact hq.pointer h h'

/-- The file of a single-threaded handle, or none: what the constructor and
`resize` leave. -/
theorem Wf.newTraceFile {p : Process} (hp : p.Wf) {h : Nat} (hlt : h < p.numHandles) (ok : Bool)
    (hmt : (p.handles h).multiThreading = false) (hfiles : (p.handles h).traceFiles = [])
    (hdel : (p.handles h).deleted = false) {b : Bool} (hb : ok = true → b = true) :
    ((p.newTraceFile h ok).1.setHandle h { (p.newTraceFile h ok).1.handles h with
      nonMtTraceFile := (p.newTraceFile h ok).2, initialized := b, traceFilesClosed := false }).Wf := by
  obtain ⟨hnum, -, hthread, -⟩ := newTraceFile_frame p h ok
  have hself := newTraceFile_handles_self p h ok
  have hsnd := newTraceFile_snd p h ok
  refine hp.update (h := h) (by rw [setHandle, hnum]; exact hlt) (Nat.le_of_eq hnum.symm)
    (fun k hk => ?_) ?_ (fun k _ => by rw [setHandle, hthread]) fun _ => ?_
  · rw [setHandle_handles_ne _ hk, newTraceFile_handles_ne p hk]
  · rw [setHandle_handles_self, hself, hsnd]
    cases ok with
    | true =>
      obtain rfl := hb rfl
      refine ⟨fun h => (by cases h), fun _ => rfl, fun _ => ?_, fun _ => ⟨rfl, hmt⟩, fun h => ?_⟩
      · exact congrArg (p.numFiles :: ·) hfiles
      · exact absurd (hdel.symm.trans h) Bool.false_ne_true
    | false =>
      refine ⟨fun h => (by cases h), fun _ => rfl, fun _ => ?_, fun h => absurd rfl h, fun h => ?_⟩
      · exact (congrArg (List.erase · p.numFiles) hfiles).trans rfl
      · exact absurd (hdel.symm.trans h) Bool.false_ne_true
  · rw [setHandle, hthread]
    exact hp.pointer h hmt

/-- The registry is no part of it. -/
theorem Wf.congr {p q : Process} (hp : p.Wf) (hh : q.handles = p.handles)
    (hn : q.numHandles = p.numHandles) (ht : q.threadFile = p.threadFile) : q.Wf :=
  ⟨fun h => hh ▸ hp.handle h, fun h hk => by rw [hh]; exact hp.unused h (hn ▸ hk),
    fun h hmt t => by rw [ht]; exact hp.pointer h (hh ▸ hmt) t⟩

@[simp] theorem newHandle_handles_self (p : Process) (name : Text) (mt : Bool) (sz : Sizes) :
    (p.newHandle name mt sz).handles p.numHandles = .new name mt sz := setHandle_handles_self ..

theorem newHandle_handles_ne (p : Process) {k : Nat} (hk : k ≠ p.numHandles) (name : Text)
    (mt : Bool) (sz : Sizes) : (p.newHandle name mt sz).handles k = p.handles k :=
  setHandle_handles_ne p hk _

theorem Wf.newHandle {p : Process} (hp : p.Wf) (name : Text) (mt : Bool) (sz : Sizes) :
    (p.newHandle name mt sz).Wf := by
  refine hp.update (h := p.numHandles) (Nat.lt_succ_self _) (Nat.le_succ _)
    (fun k hk => newHandle_handles_ne p hk name mt sz) ?_ (fun _ _ => rfl) fun _ => ?_
  · rw [newHandle_handles_self]
    exact TraceHandle.ok_new name mt sz
  · exact hp.pointer _ (by rw [hp.unused _ (Nat.le_refl _)]; rfl)

theorem Wf.register {p : Process} (hp : p.Wf) {h : Nat} (hlt : h < p.numHandles)
    (hc : (p.handles h).traceFilesClosed = false) : (p.register h).Wf := by
  have hself : (p.register h).handles h = { p.handles h with initialized := true } :=
    setHandle_handles_self ..
  refine hp.update (h := h) hlt (Nat.le_refl _) (fun k hk => setHandle_handles_ne _ hk _) ?_
    (fun _ _ => rfl) fun h' => ?_
  · rw [hself]
    have hok := hp.handle h
    exact ⟨hok.closed, fun _ => hc, hok.single, fun hf => ⟨rfl, (hok.tracing hf).2⟩, hok.gone⟩
  · rw [hself] at h'
    exact hp.pointer h h'

theorem Wf.construct {p : Process} (hp : p.Wf) (name : Text) (mt : Bool) (sz : Sizes)
    (dirOk fileOk : Bool) : (p.construct name mt sz dirOk fileOk).Wf := by
  have hnew := hp.newHandle name mt sz
  have hself := newHandle_handles_self p name mt sz
  have hlt : p.numHandles < (p.newHandle name mt sz).numHandles := Nat.lt_succ_self _
  unfold Process.construct
  generalize p.newHandle name mt sz = q at hnew hself hlt
  dsimp only
  split
  · exact hnew
  · split
    · exact hnew.register hlt (by rw [hself]; rfl)
    · rename_i hmt
      have hmt : mt = false := Bool.eq_false_iff.mpr hmt
      have hfile := fun b => hnew.newTraceFile hlt fileOk (by rw [hself]; exact hmt)
        (by rw [hself]; rfl) (by rw [hself]; rfl) (b := b)
      split
      · -- the file could not be created
        refine (hfile false fun hok => ?_).congr ?_ rfl rfl
        · rename_i hnone
          rw [newTraceFile_snd, hok] at hnone
          cases hnone
        · refine congrArg (Function.update _ _) ?_
          rw [newTraceFile_handles_self, hself]
          cases fileOk <;> rfl
      · refine (hfile true fun _ => rfl).congr ?_ rfl rfl
        rw [Process.register, setHandle_handles_self]
        show Function.update (Function.update _ _ _) _ _ = Function.update _ _ _
        rw [Function.update_idem]
        refine congrArg (Function.update _ _) ?_
        rw [newTraceFile_handles_self, hself]
        cases fileOk <;> rfl

theorem Wf.setSizeSpec {p : Process} (hp : p.Wf) {h : Nat} (hlt : h < p.numHandles) (sz : Sizes) :
    (p.setHandle h { p.handles h with sizeSpec := sz }).Wf := by
  have hok := hp.handle h
  refine hp.update (h := h) hlt (Nat.le_refl _) (fun k hk => setHandle_handles_ne _ hk _) ?_
    (fun _ _ => rfl) fun h' => ?_
  · rw [setHandle_handles_self]
    exact ⟨hok.closed, hok.opened, hok.single, hok.tracing, hok.gone⟩
  · rw [setHandle_handles_self] at h'
    exact hp.pointer h h'

theorem Wf.maybeCreateMtTraceFile {p : Process} (hp : p.Wf) {h : Nat} (hlt : h < p.numHandles)
    (hinit : (p.handles h).initialized = true) (t : Nat) (ok : Bool) :
    (p.maybeCreateMtTraceFile h t ok).Wf := by
  unfold Process.maybeCreateMtTraceFile
  split
  · exact hp
  · rename_i hmt
    have hmt : (p.handles h).multiThreading = true := by simpa using hmt
    split
    · exact hp
    · obtain ⟨hnum, -, hthread, -⟩ := newTraceFile_frame p h ok
      have hself : ((p.newTraceFile h ok).1.setThreadFile h t (p.newTraceFile h ok).2).handles h
          = _ := newTraceFile_handles_self p h ok
      have hok := hp.handle h
      refine hp.update (h := h) (hnum.symm ▸ hlt : h < (p.newTraceFile h ok).1.numHandles)
        (Nat.le_of_eq hnum.symm) (fun k hk => newTraceFile_handles_ne p hk ok) ?_
        (fun k hk => ?_) fun h' => ?_
      · have hc := hok.opened hinit
        have hnone : (p.handles h).nonMtTraceFile = none := by
          by_contra hsome
          exact Bool.false_ne_true ((hok.tracing hsome).2.symm.trans hmt)
        rw [hself]
        cases ok with
        | true =>
          exact ⟨fun h => absurd (hc.symm.trans h) Bool.false_ne_true, hok.opened,
            fun h => absurd (h.symm.trans hmt) Bool.false_ne_true, hok.tracing, hok.gone⟩
        | false =>
          exact ⟨fun h => absurd (hc.symm.trans h) Bool.false_ne_true, hok.opened,
            fun h => absurd (h.symm.trans hmt) Bool.false_ne_true, hok.tracing, hok.gone⟩
      · rw [setThreadFile_ne _ hk, hthread]
      · rw [hself] at h'
        cases ok with
        | true => exact absurd (h'.symm.trans hmt) Bool.false_ne_true
        | false => exact absurd (h'.symm.trans hmt) Bool.false_ne_true

theorem Wf.threadExit {p : Process} (hp : p.Wf) (h t : Nat) : (p.threadExit h t).Wf := by
  unfold Process.threadExit
  split
  · exact hp
  · rename_i f hf
    have hmt : (p.handles h).multiThreading = true := by
      by_contra hmt
      rw [hp.pointer h (Bool.eq_false_iff.mpr hmt) t] at hf
      cases hf
    have hlt : h < p.numHandles := by
      by_contra hge
      rw [hp.unused h (Nat.not_lt.mp hge)] at hmt
      cases hmt
    have hself : ((p.setThreadFile h t none).deleteTraceFile h f).handles h
        = (p.handles h).eraseFile f := deleteTraceFile_handles_self ..
    have hok := hp.handle h
    refine hp.update (h := h) hlt (Nat.le_refl _) (fun k hk => deleteTraceFile_handles_ne _ hk f) ?_
      (fun k hk => Function.update_of_ne hk ..) fun h' => ?_
    · rw [hself]
      refine ⟨fun hc => ?_, hok.opened, fun h => absurd (h.symm.trans hmt) Bool.false_ne_true,
        hok.tracing, hok.gone⟩
      exact (congrArg (List.erase · f) (hok.closed hc)).trans rfl
    · rw [hself] at h'
      exact absurd (h'.symm.trans hmt) Bool.false_ne_true

/-- What `resize` does where it creates a new file. -/
theorem resize_eq {p : Process} {h : Nat} {sz : Sizes} (hmt : (p.handles h).multiThreading = false)
    (hsz : (p.handles h).sizeSpec ≠ sz) (hf : (p.handles h).nonMtTraceFile ≠ none) (ok : Bool) :
    let q := (p.close h).setHandle h { (p.close h).handles h with sizeSpec := adjustSizeSpec sz }
    p.resize h sz ok = ((q.newTraceFile h ok).1.setHandle h { (q.newTraceFile h ok).1.handles h with
      nonMtTraceFile := (q.newTraceFile h ok).2, initialized := true,
      traceFilesClosed := false }, true) := by
  simp only [resize, hmt, if_neg hsz, bne_iff_ne.mpr hf, if_true, Bool.false_eq_true, if_false]

theorem Wf.resize {p : Process} (hp : p.Wf) {h : Nat} (ha : p.alive h = true) (sz : Sizes)
    (ok : Bool) : (p.resize h sz ok).1.Wf := by
  obtain ⟨hlt, hdel⟩ := alive_iff.mp ha
  by_cases hf : (p.handles h).nonMtTraceFile = none
  · unfold Process.resize
    dsimp only
    split
    · exact hp
    · split
      · exact hp
      · rw [hf]
        exact hp.setSizeSpec hlt _
  · obtain ⟨hinit, hmt⟩ := (hp.handle h).tracing hf
    by_cases hsz : (p.handles h).sizeSpec = sz
    · simp only [Process.resize, hsz, if_true, ite_self]
      exact hp
    · rw [resize_eq hmt hsz hf]
      have hq := hp.disableTracing hlt
      have hltq : h < (p.disableTracing h).numHandles := by
        rw [(disableTracing_frame p h).1]
        exact hlt
      have hself := disableTracing_handles_self ((hp.handle h).opened hinit)
      refine (hq.setSizeSpec hltq _).newTraceFile hltq ok ?_ ?_ ?_ fun _ => rfl
      all_goals
        rw [setHandle_handles_self, hself]
      · exact hmt
      · exact hdel

/-- The step lemma. -/
theorem Wf.step {p : Process} (hp : p.Wf) {a : Action} (h : p.enabled a = true) :
    (p.step a).Wf := by
  cases a with
  | construct name mt sz dirOk fileOk => exact hp.construct name mt sz dirOk fileOk
  | resize k sz ok => exact hp.resize h sz ok
  | close k => exact hp.disableTracing (alive_iff.mp h).1
  | delete k => exact hp.delete (alive_iff.mp h).1
  | maybeCreateMtTraceFile k t ok =>
    obtain ⟨ha, hinit⟩ := (Bool.and_eq_true _ _).mp h
    exact hp.maybeCreateMtTraceFile (alive_iff.mp ha).1 hinit t ok
  | threadExit k t => exact hp.threadExit k t

theorem Runs.wf {allowed : Process → Action → Prop} {p : Process} (h : Runs allowed p) : p.Wf :=
  h.invariant wf_init fun _ _ hp _ he => hp.step he

end Process

end QuickTrace.Lifetime
