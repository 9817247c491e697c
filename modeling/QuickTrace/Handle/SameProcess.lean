/-
QuickTrace.Handle.SameProcess — one process, looked at twice.

`Lifetime` follows the `TraceFile` objects of a process and its registry,
`MsgIds` the ids of its statements and what the files contain. The constructor,
`resize`, `close`, `maybeCreateMtTraceFile` and the end of a thread are in both.
Here both take the same actions with the same answers of the file system, and
the second one traces in between. They agree at every moment on what a
statement looks at (`same_runs`), so what is proved of the handles in the one
holds of the handles in the other.
-/
import QuickTrace.Handle.Lifetime
import QuickTrace.Handle.MsgIds

namespace QuickTrace

namespace SameProcess

/-! ## What both know of a handle -/

/-- The members that `traceFile` and `isInitialized` look at. -/
structure View where
  multiThreading : Bool
  initialized : Bool
  traceFilesClosed : Bool
  nonMtTraceFile : Option Nat
  threadFile : Nat → Option Nat

/-- `disableTracing`. -/
def View.disable (v : View) : View :=
  if v.traceFilesClosed then v
  else { v with initialized := false, traceFilesClosed := true, nonMtTraceFile := none }

/-- A handle of `Lifetime`. -/
def viewOf (l : Lifetime.Process) (h : Nat) : View where
  multiThreading := (l.handles h).multiThreading
  initialized := (l.handles h).initialized
  traceFilesClosed := (l.handles h).traceFilesClosed
  nonMtTraceFile := (l.handles h).nonMtTraceFile
  threadFile := l.threadFile h

/-- A handle of `MsgIds`. -/
def view (th : TraceHandle) : View where
  multiThreading := th.multiThreading
  initialized := th.initialized
  traceFilesClosed := th.traceFilesClosed
  nonMtTraceFile := th.nonMtTraceFile
  threadFile := th.threadFile

/-- The two processes have the same handles. -/
structure Same (l : Lifetime.Process) (p : Process) : Prop where
  numHandles : l.numHandles = p.numHandles
  numFiles : l.numFiles = p.numFiles
  handle : ∀ h, viewOf l h = view (p.handles h)

/-- What an action of the first process is in the second. `resize` does
nothing there if the sizes are the same, and deleting a handle closes it. -/
def actions (l : Lifetime.Process) : Lifetime.Action → List Action
  | .construct _ multiThreading _ dirOk fileOk => [.construct multiThreading dirOk fileOk]
  | .resize h newSizeSpec fileOk =>
    if (l.handles h).sizeSpec = newSizeSpec then [] else [.resize h fileOk]
  | .close h | .delete h => [.close h]
  | .maybeCreateMtTraceFile h thread ok => [.maybeCreateMtTraceFile h thread ok]
  | .threadExit h thread => [.threadExit h thread]

/-- Both take the actions of handles, and the second one traces. -/
inductive Runs : Lifetime.Process → Process → Prop where
  | init : Runs .init .init
  | handle {l : Lifetime.Process} {p : Process} (h : Runs l p) (a : Lifetime.Action)
    (he : l.enabled a = true) : Runs (l.step a) (p.run (actions l a))
  | trace {l : Lifetime.Process} {p : Process} (h : Runs l p) (k thread : Nat) (s : Stmt)
    (tsc : UInt64) (off : Bool) : Runs l (p.trace k thread s tsc off)

/-! ## One handle -/

variable {l l' : Lifetime.Process} {p p' : Process} {k : Nat}

theorem same_init : Same .init .init := ⟨rfl, rfl, fun _ => rfl⟩

/-- One handle changes, and the same way in both. -/
theorem Same.update (h : Same l p) (hnum : l'.numHandles = p'.numHandles)
    (hfiles : l'.numFiles = p'.numFiles) (hk : viewOf l' k = view (p'.handles k))
    (hl : ∀ c, c ≠ k → l'.handles c = l.handles c ∧ l'.threadFile c = l.threadFile c)
    (hp : ∀ c, c ≠ k → p'.handles c = p.handles c) : Same l' p' where
  numHandles := hnum
  numFiles := hfiles
  handle := fun c => by
    by_cases hc : c = k
    · rw [hc]
      exact hk
    · rw [hp c hc, ← h.handle c, viewOf, viewOf, (hl c hc).1, (hl c hc).2]

theorem view_disableTracing (th : TraceHandle) :
    view th.disableTracing = (view th).disable := by
  unfold TraceHandle.disableTracing View.disable
  by_cases hc : th.traceFilesClosed = true
  · rw [if_pos hc, if_pos (show (view th).traceFilesClosed = true from hc)]
  · rw [if_neg hc, if_neg (show ¬ (view th).traceFilesClosed = true from hc)]
    rfl

theorem viewOf_disableTracing (l : Lifetime.Process) (k : Nat) :
    viewOf (l.disableTracing k) k = (viewOf l k).disable := by
  have hthread := (Lifetime.Process.disableTracing_frame l k).2.2.1
  unfold View.disable
  cases hc : (l.handles k).traceFilesClosed with
  | true =>
    rw [if_pos (show (viewOf l k).traceFilesClosed = true from hc), Lifetime.Process.disableTracing,
      if_pos hc]
  | false =>
    rw [if_neg (show ¬ (viewOf l k).traceFilesClosed = true by
      rw [show (viewOf l k).traceFilesClosed = false from hc]; exact Bool.false_ne_true)]
    rw [viewOf, hthread, Lifetime.Process.disableTracing_handles_self hc]
    rfl

/-- The object that `newTraceFile` makes changes nothing of the handle that is
looked at here. -/
theorem viewOf_newTraceFile (l : Lifetime.Process) (k : Nat) (ok : Bool) :
    viewOf (l.newTraceFile k ok).1 k = viewOf l k := by
  have hthread := (Lifetime.Process.newTraceFile_frame l k ok).2.2.1
  rw [viewOf, hthread, Lifetime.Process.newTraceFile_handles_self]
  cases ok <;> rfl

/-! ## The actions -/

theorem Same.construct (hl : l.Wf) (h : Same l p) (name : Text) (mt : Bool)
    (sizeSpec : Lifetime.Sizes) (dirOk fileOk : Bool) :
    Same (l.construct name mt sizeSpec dirOk fileOk) (p.construct mt dirOk fileOk) := by
  -- the pointers of the new handle have never been set
  have hnone : l.threadFile l.numHandles = fun _ => none := by
    funext t
    refine hl.pointer _ ?_ t
    rw [hl.unused _ (Nat.le_refl _)]
    rfl
  have hnum : p.numHandles = l.numHandles := h.numHandles.symm
  have hfiles : p.numFiles = l.numFiles := h.numFiles.symm
  have hne : ∀ c, c ≠ l.numHandles →
      (l.construct name mt sizeSpec dirOk fileOk).handles c = l.handles c
        ∧ (l.construct name mt sizeSpec dirOk fileOk).threadFile c = l.threadFile c := by
    intro c hc
    cases dirOk <;> cases mt <;> cases fileOk <;>
      simp [Lifetime.Process.construct, Lifetime.Process.newHandle, Lifetime.Process.register,
        Lifetime.Process.newTraceFile, Lifetime.Process.setHandle, Lifetime.Process.insertName,
        Lifetime.Process.deleteTraceFile, hc]
  have hne' : ∀ c, c ≠ l.numHandles → (p.construct mt dirOk fileOk).handles c = p.handles c := by
    intro c hc
    rw [← hnum] at hc
    cases dirOk <;> cases mt <;> cases fileOk <;>
      simp [Process.construct, Process.newTraceFile, Process.setHandle, hc]
  refine h.update (k := l.numHandles) ?_ ?_ ?_ hne hne'
  · cases dirOk <;> cases mt <;> cases fileOk <;> exact congrArg (· + 1) h.numHandles
  · cases dirOk <;> cases mt <;> cases fileOk <;> first
      | exact h.numFiles
      | exact congrArg (· + 1) h.numFiles
  · cases dirOk <;> cases mt <;> cases fileOk <;>
      simp [viewOf, view, Lifetime.Process.construct, Lifetime.Process.newHandle,
        Lifetime.Process.register, Lifetime.Process.newTraceFile, Lifetime.Process.setHandle,
        Lifetime.Process.insertName, Lifetime.Process.deleteTraceFile,
        Lifetime.TraceHandle.insertFile, Lifetime.TraceHandle.eraseFile, Lifetime.TraceHandle.new,
        Process.construct, Process.newTraceFile, Process.setHandle, TraceHandle.new, hnum, hfiles,
        hnone]

/-- Behind `close` both handles are disabled. -/
theorem Same.close (h : Same l p) (k : Nat) : Same (l.close k) (p.close k) := by
  obtain ⟨hnum, -, hthread, hfiles⟩ := Lifetime.Process.disableTracing_frame l k
  refine h.update (k := k) (hnum.trans h.numHandles) (hfiles.trans h.numFiles) ?_
    (fun c hc => ⟨Lifetime.Process.disableTracing_handles_ne l hc, by
      rw [Lifetime.Process.close, hthread]⟩) fun c hc => Function.update_of_ne hc ..
  have hself : (p.close k).handles k = (p.handles k).disableTracing := Function.update_self ..
  rw [hself, view_disableTracing, ← h.handle k]
  exact viewOf_disableTracing l k

theorem Same.delete (h : Same l p) (k : Nat) : Same (l.delete k) (p.close k) := by
  refine (h.close k).update (k := k) (h.close k).numHandles (h.close k).numFiles ?_
    (fun c hc => ⟨?_, rfl⟩) fun _ _ => rfl
  · rw [← (h.close k).handle k, viewOf, viewOf, Lifetime.Process.delete_handles_self]
    rfl
  · rw [Lifetime.Process.delete_handles_ne l hc, Lifetime.Process.close,
      Lifetime.Process.disableTracing_handles_ne l hc]

/-- Another size, and the same file. -/
theorem Same.setSizeSpec (h : Same l p) (k : Nat) (sizeSpec : Lifetime.Sizes) :
    Same (l.setHandle k { l.handles k with sizeSpec }) p := by
  refine h.update (k := k) h.numHandles h.numFiles ?_
    (fun c hc => ⟨Lifetime.Process.setHandle_handles_ne l hc _, rfl⟩) fun _ _ => rfl
  rw [← h.handle k, viewOf, Lifetime.Process.setHandle_handles_self]
  rfl

/-- Delete the file and create a new one. -/
theorem Same.recreate (h : Same l p) (k : Nat) (sizeSpec : Lifetime.Sizes) (fileOk : Bool)
    {r : Lifetime.Process × Option Nat}
    (hr : r = ((l.close k).setHandle k
      { (l.close k).handles k with sizeSpec }).newTraceFile k fileOk) :
    Same (r.1.setHandle k { r.1.handles k with
        nonMtTraceFile := r.2, initialized := true, traceFilesClosed := false })
      ((p.newTraceFile k fileOk).1.setHandle k { (p.handles k).disableTracing with
        nonMtTraceFile := (p.newTraceFile k fileOk).2, initialized := true
        traceFilesClosed := false }) := by
  have hclose := (h.close k).setSizeSpec k sizeSpec
  have hview := viewOf_newTraceFile
    ((l.close k).setHandle k { (l.close k).handles k with sizeSpec }) k fileOk
  have hself : (p.close k).handles k = (p.handles k).disableTracing := Function.update_self ..
  obtain ⟨hnum, -, hthread, hfiles⟩ := Lifetime.Process.newTraceFile_frame
    ((l.close k).setHandle k { (l.close k).handles k with sizeSpec }) k fileOk
  have hsnd := Lifetime.Process.newTraceFile_snd
    ((l.close k).setHandle k { (l.close k).handles k with sizeSpec }) k fileOk
  rw [← hr] at hview hnum hthread hfiles hsnd
  rw [hclose.handle k, hself] at hview
  rw [hclose.numFiles] at hsnd hfiles
  refine h.update (k := k) (hnum.trans hclose.numHandles) hfiles ?_ (fun c hc => ⟨?_, ?_⟩)
    fun c hc => Function.update_of_ne hc ..
  · have hp : ∀ th, ((p.newTraceFile k fileOk).1.setHandle k th).handles k = th :=
      fun th => Function.update_self ..
    rw [hp, viewOf, Lifetime.Process.setHandle_handles_self, hsnd]
    simp only [viewOf, view, View.mk.injEq] at hview
    simp only [view, View.mk.injEq, true_and]
    exact ⟨hview.1, rfl, hview.2.2.2.2⟩
  · rw [Lifetime.Process.setHandle_handles_ne _ hc, hr,
      Lifetime.Process.newTraceFile_handles_ne _ hc,
      Lifetime.Process.setHandle_handles_ne _ hc, Lifetime.Process.close,
      Lifetime.Process.disableTracing_handles_ne l hc]
  · show r.1.threadFile c = l.threadFile c
    rw [hthread]
    show (l.close k).threadFile c = _
    rw [Lifetime.Process.close, (Lifetime.Process.disableTracing_frame l k).2.2.1]

theorem Same.resize (h : Same l p) (k : Nat) (newSizeSpec : Lifetime.Sizes) (fileOk : Bool) :
    Same (l.resize k newSizeSpec fileOk).1
      (p.run (actions l (.resize k newSizeSpec fileOk))) := by
  have hview := h.handle k
  simp only [viewOf, view, View.mk.injEq] at hview
  obtain ⟨hmt, -, -, hfile, -⟩ := hview
  have hrun : p.run [.resize k fileOk] = p.resize k fileOk := rfl
  rw [actions]
  by_cases hsize : (l.handles k).sizeSpec = newSizeSpec
  · rw [if_pos hsize, Lifetime.Process.resize]
    simp only [hsize, if_true, ite_self]
    exact h
  · rw [if_neg hsize, hrun, Process.resize]
    dsimp only
    cases hm : (l.handles k).multiThreading with
    | true =>
      rw [if_pos (.inl (hmt.symm.trans hm)), Lifetime.Process.resize, if_pos hm]
      exact h
    | false =>
      rcases hf : (l.handles k).nonMtTraceFile with _ | f
      · rw [if_pos (.inr (hfile.symm.trans hf)), Lifetime.Process.resize, hm, hf,
          if_neg Bool.false_ne_true, if_neg hsize]
        exact h.setSizeSpec k _
      · have hsome : (l.handles k).nonMtTraceFile ≠ none := by rw [hf]; exact Option.some_ne_none f
        have hcreate :
            ¬ ((p.handles k).multiThreading = true ∨ (p.handles k).nonMtTraceFile = none) := by
          rw [← hmt, ← hfile, hm, hf]
          simp
        rw [if_neg hcreate, Lifetime.Process.resize_eq hm hsize hsome]
        exact h.recreate k _ fileOk rfl

theorem Same.maybeCreateMtTraceFile (h : Same l p) (k thread : Nat) (ok : Bool)
    (hi : (l.handles k).initialized = true) :
    Same (l.maybeCreateMtTraceFile k thread ok) (p.maybeCreateMtTraceFile k thread ok) := by
  have hview := h.handle k
  simp only [viewOf, view, View.mk.injEq] at hview
  obtain ⟨hmt, hinit, -, -, hthread⟩ := hview
  unfold Lifetime.Process.maybeCreateMtTraceFile Process.maybeCreateMtTraceFile
  dsimp only
  rw [← hinit, hi, ← hmt, ← hthread]
  cases hm : (l.handles k).multiThreading with
  | false =>
    rw [if_pos (show (!false) = true from rfl), if_neg (by simp)]
    exact h
  | true =>
    rw [if_neg (show ¬ (!true) = true from Bool.false_ne_true)]
    rcases hf : l.threadFile k thread with _ | f
    · rw [if_neg (by simp), if_pos (by simp)]
      obtain ⟨hnum, -, hthreads, hfiles⟩ := Lifetime.Process.newTraceFile_frame l k ok
      rw [h.numFiles] at hfiles
      refine h.update (k := k) (hnum.trans h.numHandles) hfiles
        ?_ (fun c hc => ⟨?_, ?_⟩) fun c hc => Function.update_of_ne hc ..
      · have hp : ∀ th, ((p.newTraceFile k ok).1.setHandle k th).handles k = th :=
          fun th => Function.update_self ..
        have hold := viewOf_newTraceFile l k ok
        rw [h.handle k] at hold
        simp only [viewOf, view, View.mk.injEq] at hold
        rw [hp, viewOf, Lifetime.Process.setThreadFile_self, Lifetime.Process.newTraceFile_snd]
        simp only [view, View.mk.injEq, Lifetime.Process.setThreadFile_handles]
        refine ⟨hold.1.trans (hmt.symm.trans hm), hold.2.1.trans (hinit.symm.trans hi),
          hold.2.2.1, hold.2.2.2.1, ?_⟩
        rw [hthreads, h.numFiles]
        rfl
      · rw [Lifetime.Process.setThreadFile_handles, Lifetime.Process.newTraceFile_handles_ne _ hc]
      · rw [Lifetime.Process.setThreadFile_ne _ hc, hthreads]
    · rw [if_pos (by simp), if_neg (by simp)]
      exact h

theorem Same.threadExit (h : Same l p) (k thread : Nat) :
    Same (l.threadExit k thread) (p.threadExit k thread) := by
  have hview := h.handle k
  simp only [viewOf, view, View.mk.injEq] at hview
  obtain ⟨hmt, hinit, hclosed, hfile, hthread⟩ := hview
  have hp : (p.threadExit k thread).handles k = { p.handles k with
      threadFile := Function.update (p.handles k).threadFile thread none } :=
    Function.update_self ..
  unfold Lifetime.Process.threadExit
  split
  · rename_i hnone
    refine h.update (k := k) h.numHandles h.numFiles ?_ (fun _ _ => ⟨rfl, rfl⟩)
      fun c hc => Function.update_of_ne hc ..
    rw [hthread] at hnone
    rw [hp, h.handle k, view, view, ← hnone, Function.update_eq_self]
  · refine h.update (k := k) h.numHandles h.numFiles ?_ (fun c hc => ⟨?_, ?_⟩)
      fun c hc => Function.update_of_ne hc ..
    · rw [hp, viewOf, Lifetime.Process.deleteTraceFile_handles_self]
      simp only [view, View.mk.injEq]
      refine ⟨hmt, hinit, hclosed, hfile, ?_⟩
      rw [← hthread]
      exact Lifetime.Process.setThreadFile_self ..
    · exact Lifetime.Process.deleteTraceFile_handles_ne _ hc _
    · exact Lifetime.Process.setThreadFile_ne _ hc _ _

theorem Same.step (hl : l.Wf) (h : Same l p) {a : Lifetime.Action} (he : l.enabled a = true) :
    Same (l.step a) (p.run (actions l a)) := by
  cases a with
  | construct name mt sizeSpec dirOk fileOk => exact h.construct hl name mt sizeSpec dirOk fileOk
  | resize k newSizeSpec fileOk => exact h.resize k newSizeSpec fileOk
  | close k => exact h.close k
  | delete k => exact h.delete k
  | maybeCreateMtTraceFile k thread ok =>
    rw [Lifetime.Process.enabled, Bool.and_eq_true] at he
    exact h.maybeCreateMtTraceFile k thread ok he.2
  | threadExit k thread => exact h.threadExit k thread

/-- A new id changes nothing of a handle but its counter. -/
theorem Same.allocateMsgId (h : Same l p) (s : Stmt) (i : Nat) : Same l (p.allocateMsgId s i) := by
  unfold Process.allocateMsgId
  split
  · refine h.update (k := (p.files i).traceHandle) h.numHandles h.numFiles ?_
      (fun _ _ => ⟨rfl, rfl⟩) fun c hc => Function.update_of_ne hc ..
    rw [h.handle]
    exact (congrArg view (Function.update_self (p.files i).traceHandle
      (p.handles (p.files i).traceHandle).allocate p.handles)).symm
  · exact h

theorem Same.setFile (h : Same l p) (i : Nat) (f : QtFile) : Same l (p.setFile i f) :=
  ⟨h.numHandles, h.numFiles, h.handle⟩

theorem Same.trace (h : Same l p) (k thread : Nat) (s : Stmt) (tsc : UInt64) (off : Bool) :
    Same l (p.trace k thread s tsc off) := by
  unfold Process.trace
  split
  · exact h
  · rename_i i _
    have hq : Same l (if (p.files i).hasMsgId (p.msgId s) then p else p.writeMsgDesc s i tsc) := by
      split
      · exact h
      · exact (h.allocateMsgId s i).setFile i _
    dsimp only
    split
    · exact hq
    · exact hq.setFile i _

/-! ## Every run -/

theorem Runs.reachable (h : Runs l p) : l.Reachable := by
  induction h with
  | init => exact .init
  | handle h a he ih => exact ih.step trivial he
  | trace h k thread s tsc off ih => exact ih

/-- In every run of both, whatever is traced in between, the handles of the
two processes are the same. -/
theorem same_runs (h : Runs l p) : Same l p := by
  induction h with
  | init => exact same_init
  | handle h a he ih => exact ih.step h.reachable.wf he
  | trace h k thread s tsc off ih => exact ih.trace k thread s tsc off

/-- Both find the same file for a statement. -/
theorem traceFile_eq (h : Runs l p) (k thread : Nat) :
    l.traceFile k thread = (p.handles k).traceFile thread := by
  have hview := (same_runs h).handle k
  simp only [viewOf, view, View.mk.injEq] at hview
  obtain ⟨hmt, hinit, -, hfile, hthread⟩ := hview
  rw [Lifetime.Process.traceFile, TraceHandle.traceFile, hmt, hinit, hfile, hthread]

end SameProcess

end QuickTrace
