/-
QuickTrace.Handle.CInterface — the trace macros of the C interface.

`QTRACEF_H`, `QPROFF_H` and `QPROF_H` keep the id of a statement in a static
variable like the C++ macros, but they look at nothing else: a statement that
has an id is not described again, whatever file it traces into. The comment
in front of `QTRACEF_H` warns of this. Here handles are initialized, resized
and closed, and statements are executed with any of them, in any order.

`home` is the file a statement was first executed with. `Ok` says that its
descriptor is there and nowhere else, and that the ids of one handle are
different (`Apart`). `c_messages_decoded` is what a reader finds: a message
is decoded as what it is exactly in the home of its statement, and in another
file of the same handle not at all; and no macro meets a null pointer unless a
`resize` could not create its file.
-/
import QuickTrace.Handle.MsgIds
import QuickTrace.Lib.Ids

namespace QuickTrace

open QuickTrace.Lib

/-- The descriptor that a reader of the file has for an id. -/
def QtFile.entry (f : QtFile) (msgId : UInt32) : Option DictEntry :=
  f.dict.find? fun e => e.msgId == msgId

theorem QtFile.resolve_eq_entry (f : QtFile) (msgId : UInt32) :
    f.resolve msgId = (f.entry msgId).map DictEntry.message := by
  rw [QtFile.resolve, List.find?_map]
  rfl

theorem QtFile.entry_spec {f : QtFile} {msgId : UInt32} {e : DictEntry}
    (h : f.entry msgId = some e) : e ∈ f.dict ∧ e.msgId = msgId :=
  ⟨List.mem_of_find?_eq_some h, by simpa using List.find?_some h⟩

namespace Qtc

/-! ## The macros -/

/-- `qt_isInitialized`. -/
def isInitialized (th : TraceHandle) : Bool := th.initialized && !th.traceFilesClosed

/-- What the macros do with an initialized handle. Without a file its pointer
is null, and the process ends. -/
def withFile (p : Process) (h thread : Nat) (f : Nat → Process) : Option Process :=
  if isInitialized (p.handles h) then ((p.handles h).traceFile thread).map f else some p

/-- `!_qt_msgid`, then `qt_msgDescInit`, `qt_addMsg` and `qt_finish`. -/
def describeOnce (p : Process) (s : Stmt) (i : Nat) (tsc : UInt64) : Process :=
  if p.msgId s = 0 then p.writeMsgDesc s i tsc else p

/-- `QTRACEF_H` and `QPROFF_H`; a statement that is off records nothing. -/
def qtracef (p : Process) (h thread : Nat) (s : Stmt) (tsc : UInt64) (off : Bool) :
    Option Process :=
  withFile p h thread fun i =>
    let q := describeOnce p s i tsc
    if off then q else q.setFile i ((q.files i).record (q.msgId s) s)

/-- `QPROF_H`: no message is recorded. -/
def qprof (p : Process) (h thread : Nat) (s : Stmt) (tsc : UInt64) : Option Process :=
  withFile p h thread fun i => describeOnce p s i tsc

/-- What a process does. Handles of the C interface are for one thread. -/
inductive Action where
  | initializeHandle (dirOk fileOk : Bool)
  | resize (h : Nat) (fileOk : Bool)
  | closeHandle (h : Nat)
  | qtracef (h thread : Nat) (s : Stmt) (tsc : UInt64) (off : Bool)
  | qprof (h thread : Nat) (s : Stmt) (tsc : UInt64)

/-- One action. -/
def step (p : Process) : Action → Option Process
  | .initializeHandle dirOk fileOk => some (p.construct false dirOk fileOk)
  | .resize h fileOk => some (p.resize h fileOk)
  | .closeHandle h => some (p.close h)
  | .qtracef h thread s tsc off => qtracef p h thread s tsc off
  | .qprof h thread s tsc => qprof p h thread s tsc

/-- A run. -/
def run (p : Process) : List Action → Option Process
  | [] => some p
  | a :: as => (step p a).bind fun q => run q as

/-- The statement that is executed. -/
def Action.stmt : Action → Option Stmt
  | .qtracef _ _ s _ _ | .qprof _ _ s _ => some s
  | _ => none

/-- The statements of a run. -/
def statements (as : List Action) : Finset Stmt := (as.filterMap Action.stmt).toFinset

/-- The file that a statement meets in one action. -/
def meets (s : Stmt) (p : Process) : Action → Option Nat
  | .qtracef h thread s' _ _ | .qprof h thread s' _ =>
    if s' = s ∧ isInitialized (p.handles h) then (p.handles h).traceFile thread else none
  | _ => none

/-- The file that a statement meets first in a run. -/
def firstMet (s : Stmt) (p : Process) : List Action → Option Nat
  | [] => none
  | a :: as =>
    match meets s p a with
    | some i => some i
    | none => (step p a).bind fun q => firstMet s q as

/-! ## What a reader finds -/

/-- The statement is described in this file and in no other. -/
def DescribedOnlyIn (p : Process) (s : Stmt) (i : Nat) : Prop :=
  ∀ k, (∃ e ∈ (p.files k).dict, e.stmt = s) ↔ k = i

/-- A message in file `j` whose statement is described in file `i`. -/
structure Decoded (p : Process) (j : Nat) (m : UInt32 × Stmt) (i : Nat) : Prop where
  home : DescribedOnlyIn p m.2 i
  own : ((p.files j).entry m.1).map DictEntry.stmt = some m.2 ↔ j = i
  unknown : j ≠ i → (p.files j).traceHandle = (p.files i).traceHandle →
    (p.files j).resolve m.1 = none

/-! ## The invariant -/

/-- `home` is the file and `source` the handle that a statement with an id
has met first. -/
structure Ok (S : Finset Stmt) (p : Process) (home source : Stmt → Nat) : Prop where
  ids : Apart S p.msgId source fun h => (p.handles h).nextMsgId
  settled : ∀ s, p.msgId s ≠ 0 → home s < p.numFiles
    ∧ (p.files (home s)).traceHandle = source s ∧ ∃ e ∈ (p.files (home s)).dict, e.stmt = s
  entries : ∀ j, ∀ e ∈ (p.files j).dict,
    e.msgId ≠ 0 ∧ p.msgId e.stmt = e.msgId ∧ home e.stmt = j
  messages : ∀ j, ∀ m ∈ (p.files j).messages, m.1 ≠ 0 ∧ p.msgId m.2 = m.1
  single : ∀ h, (p.handles h).multiThreading = false
  opened : ∀ h i, (p.handles h).nonMtTraceFile = some i →
    i < p.numFiles ∧ (p.files i).traceHandle = h
  made : ∀ i, i < p.numFiles → (p.files i).traceHandle < p.numHandles
  unused : ∀ h, p.numHandles ≤ h → p.handles h = .unused

theorem ok_init (S : Finset Stmt) : Ok S .init (fun _ => 0) fun _ => 0 where
  ids := Apart.start S fun _ => 0
  settled := fun s h => absurd rfl h
  entries := fun j e he => by cases he
  messages := fun j m hm => by cases hm
  single := fun h => rfl
  opened := fun h i hi => by cases hi
  made := fun i hi => by cases hi
  unused := fun h _ => rfl

variable {S : Finset Stmt} {p q : Process} {home source : Stmt → Nat} {s : Stmt}

/-- The invariant says what a reader finds. -/
theorem Ok.decoded (h : Ok S p home source) {j : Nat} {m : UInt32 × Stmt}
    (hm : m ∈ (p.files j).messages) : Decoded p j m (home m.2) := by
  obtain ⟨hne, hid⟩ := h.messages j m hm
  have hset := h.settled m.2 (hid ▸ hne)
  -- an entry under the id, in a file of the handle of the statement
  have hsame : ∀ k e, e ∈ (p.files k).dict → e.msgId = m.1 →
      (p.files k).traceHandle = source m.2 → e.stmt = m.2 := by
    intro k e he heid hk
    obtain ⟨hene, hemsg, hehome⟩ := h.entries k e he
    have hes := (h.settled e.stmt (hemsg ▸ hene)).2.1
    rw [hehome] at hes
    refine h.ids.inj e.stmt m.2 (hes.symm.trans hk) ?_ (hemsg ▸ hene)
    rw [hemsg, hid, heid]
  refine ⟨fun k => ⟨?_, ?_⟩, ⟨fun hown => ?_, fun hj => ?_⟩, fun hj hhandle => ?_⟩
  · rintro ⟨e, he, hes⟩
    rw [← hes]
    exact (h.entries k e he).2.2.symm
  · rintro rfl
    exact hset.2.2
  · obtain ⟨e, he, hes⟩ := Option.map_eq_some_iff.mp hown
    rw [← hes]
    exact (h.entries j e (QtFile.entry_spec he).1).2.2.symm
  · subst hj
    obtain ⟨e, he, hes⟩ := hset.2.2
    have heid : e.msgId = m.1 := by rw [← (h.entries _ e he).2.1, hes, hid]
    have hsome : ((p.files (home m.2)).entry m.1).isSome = true :=
      List.find?_isSome.mpr ⟨e, he, beq_iff_eq.mpr heid⟩
    obtain ⟨e', he'⟩ := Option.isSome_iff_exists.mp hsome
    obtain ⟨hmem, heid'⟩ := QtFile.entry_spec he'
    rw [he']
    exact congrArg some (hsame _ e' hmem heid' hset.2.1)
  · rw [QtFile.resolve_eq_entry, Option.map_eq_none_iff, QtFile.entry, List.find?_eq_none]
    intro e he heid
    have hes := hsame j e he (beq_iff_eq.mp heid) (hhandle.trans hset.2.1)
    have hhome := (h.entries j e he).2.2
    rw [hes] at hhome
    exact hj hhome.symm

/-! ## Handles and files -/

theorem Ok.grow (h : Ok S p home source) {n : Nat} (hn : p.numHandles ≤ n) :
    Ok S { p with numHandles := n } home source where
  ids := h.ids
  settled := h.settled
  entries := h.entries
  messages := h.messages
  single := h.single
  opened := h.opened
  made := fun i hi => Nat.lt_of_lt_of_le (h.made i hi) hn
  unused := fun c hc => h.unused c (Nat.le_trans hn hc)

/-- A new file, whether it is returned or not. -/
theorem Ok.newTraceFile (h : Ok S p home source) {k : Nat} (hk : k < p.numHandles) (ok : Bool) :
    Ok S (p.newTraceFile k ok).1 home source where
  ids := h.ids
  settled := fun s hs => by
    obtain ⟨hlt, hsource, hdesc⟩ := h.settled s hs
    have hfiles : Function.update p.files p.numFiles (.new k) (home s) = p.files (home s) :=
      Function.update_of_ne (Nat.ne_of_lt hlt) ..
    refine ⟨Nat.lt_succ_of_lt hlt, ?_, ?_⟩
    · show (Function.update p.files p.numFiles (.new k) (home s)).traceHandle = source s
      rw [hfiles, hsource]
    · show ∃ e ∈ (Function.update p.files p.numFiles (.new k) (home s)).dict, e.stmt = s
      rw [hfiles]
      exact hdesc
  entries := fun j e he => by
    have he : e ∈ (Function.update p.files p.numFiles (.new k) j).dict := he
    by_cases hj : j = p.numFiles
    · rw [hj, Function.update_self] at he
      cases he
    · rw [Function.update_of_ne hj] at he
      exact h.entries j e he
  messages := fun j m hm => by
    have hm : m ∈ (Function.update p.files p.numFiles (.new k) j).messages := hm
    by_cases hj : j = p.numFiles
    · rw [hj, Function.update_self] at hm
      cases hm
    · rw [Function.update_of_ne hj] at hm
      exact h.messages j m hm
  single := h.single
  opened := fun c i hi => by
    obtain ⟨hlt, hhandle⟩ := h.opened c i hi
    refine ⟨Nat.lt_succ_of_lt hlt, ?_⟩
    show (Function.update p.files p.numFiles (.new k) i).traceHandle = c
    rw [Function.update_of_ne (Nat.ne_of_lt hlt)]
    exact hhandle
  made := fun i hi => by
    have hi : i < p.numFiles + 1 := hi
    show (Function.update p.files p.numFiles (.new k) i).traceHandle < p.numHandles
    by_cases hin : i = p.numFiles
    · rw [hin, Function.update_self]
      exact hk
    · rw [Function.update_of_ne hin]
      exact h.made i (by omega)
  unused := h.unused

/-- A handle that counts on, with a file of its own or none. -/
theorem Ok.setHandle (h : Ok S p home source) {k : Nat} {th : TraceHandle} (hk : k < p.numHandles)
    (hnext : th.nextMsgId = (p.handles k).nextMsgId) (hth : th.multiThreading = false)
    (hfile : ∀ i, th.nonMtTraceFile = some i → i < p.numFiles ∧ (p.files i).traceHandle = k) :
    Ok S (p.setHandle k th) home source where
  ids := by
    refine h.ids.next_congr fun c => ?_
    show (Function.update p.handles k th c).nextMsgId = _
    by_cases hc : c = k
    · rw [hc, Function.update_self, hnext]
    · rw [Function.update_of_ne hc]
  settled := h.settled
  entries := h.entries
  messages := h.messages
  single := fun c => by
    show (Function.update p.handles k th c).multiThreading = false
    by_cases hc : c = k
    · rw [hc, Function.update_self, hth]
    · rw [Function.update_of_ne hc]
      exact h.single c
  opened := fun c i hi => by
    have hi : (Function.update p.handles k th c).nonMtTraceFile = some i := hi
    by_cases hc : c = k
    · rw [hc, Function.update_self] at hi
      rw [hc]
      exact hfile i hi
    · rw [Function.update_of_ne hc] at hi
      exact h.opened c i hi
  made := h.made
  unused := fun c hc => by
    have hck : c ≠ k := fun heq => Nat.not_lt.mpr hc (heq ▸ hk)
    exact (Function.update_of_ne hck ..).trans (h.unused c hc)

/-- The file that `newTraceFile` returns belongs to the handle. -/
theorem newTraceFile_owned {k : Nat} {ok : Bool} {i : Nat}
    (hi : (p.newTraceFile k ok).2 = some i) : i < (p.newTraceFile k ok).1.numFiles
      ∧ ((p.newTraceFile k ok).1.files i).traceHandle = k := by
  have hi : (if ok then some p.numFiles else none) = some i := hi
  rw [Option.ite_none_right_eq_some] at hi
  cases hi.2
  refine ⟨Nat.lt_succ_self _, ?_⟩
  show (Function.update p.files p.numFiles (.new k) p.numFiles).traceHandle = k
  rw [Function.update_self]
  rfl

theorem Ok.initializeHandle (h : Ok S p home source) (dirOk fileOk : Bool) :
    Ok S (p.construct false dirOk fileOk) home source := by
  have hg := h.grow (Nat.le_succ p.numHandles)
  have hnext : (p.handles p.numHandles).nextMsgId = 1 := by
    rw [h.unused p.numHandles (Nat.le_refl _)]
    rfl
  unfold Process.construct
  dsimp only
  split
  · exact hg.setHandle (Nat.lt_succ_self _) hnext.symm rfl fun i hi => by cases hi
  · rw [if_neg Bool.false_ne_true]
    exact (hg.newTraceFile (Nat.lt_succ_self _) fileOk).setHandle (Nat.lt_succ_self _) hnext.symm rfl
      fun i hi => newTraceFile_owned hi

/-- Closing a handle leaves its counter. -/
theorem disableTracing_next (th : TraceHandle) : th.disableTracing.nextMsgId = th.nextMsgId
    ∧ th.disableTracing.multiThreading = th.multiThreading := by
  unfold TraceHandle.disableTracing
  split
  · exact ⟨rfl, rfl⟩
  · exact ⟨rfl, rfl⟩

/-- A handle that is not what it was before the constructor has been
constructed. -/
theorem Ok.constructed (h : Ok S p home source) {k : Nat} (hk : p.handles k ≠ .unused) :
    k < p.numHandles := by
  by_contra hge
  exact hk (h.unused k (Nat.not_lt.mp hge))

theorem Ok.resize (h : Ok S p home source) (k : Nat) (fileOk : Bool) :
    Ok S (p.resize k fileOk) home source := by
  unfold Process.resize
  dsimp only
  split
  · exact h
  · rename_i hfile
    rw [not_or] at hfile
    have hk : k < p.numHandles := h.constructed fun hu => by
      rw [hu] at hfile
      exact hfile.2 rfl
    obtain ⟨hnext, hmt⟩ := disableTracing_next (p.handles k)
    exact (h.newTraceFile hk fileOk).setHandle hk hnext (hmt.trans (h.single k))
      fun i hi => newTraceFile_owned hi

theorem Ok.closeHandle (h : Ok S p home source) (k : Nat) : Ok S (p.close k) home source := by
  by_cases hu : p.handles k = .unused
  · have hclose : p.close k = p := by
      rw [Process.close, Process.setHandle, hu, ← show TraceHandle.unused
        = TraceHandle.unused.disableTracing from rfl, ← hu, Function.update_eq_self]
    rw [hclose]
    exact h
  · obtain ⟨hnext, hmt⟩ := disableTracing_next (p.handles k)
    refine h.setHandle (h.constructed hu) hnext (hmt.trans (h.single k)) fun i hi => h.opened k i ?_
    unfold TraceHandle.disableTracing at hi
    split at hi
    · exact hi
    · cases hi

/-! ## Statements -/

theorem Ok.allocatedId (h : Ok S p home source) (c : Nat) :
    (p.handles c).allocatedId = (p.handles c).nextMsgId := if_neg (h.ids.next_ne_zero c)

theorem writeMsgDesc_msgId (h : Ok S p home source) (hz : p.msgId s = 0) (i : Nat)
    (tsc : UInt64) : (p.writeMsgDesc s i tsc).msgId
      = Function.update p.msgId s (p.handles (p.files i).traceHandle).nextMsgId := by
  show (p.allocateMsgId s i).msgId = _
  rw [Process.allocateMsgId, if_pos hz]
  exact congrArg (Function.update p.msgId s) (h.allocatedId _)

theorem writeMsgDesc_handles (h : Ok S p home source) (hz : p.msgId s = 0) (i : Nat)
    (tsc : UInt64) : (p.writeMsgDesc s i tsc).handles
      = Function.update p.handles (p.files i).traceHandle
        { p.handles (p.files i).traceHandle with
          nextMsgId := (p.handles (p.files i).traceHandle).nextMsgId + 1 } := by
  show (p.allocateMsgId s i).handles = _
  rw [Process.allocateMsgId, if_pos hz]
  show Function.update p.handles _ (TraceHandle.allocate _) = _
  rw [TraceHandle.allocate, h.allocatedId]

/-- The file has one more descriptor, and nothing else changes in any file. -/
theorem writeMsgDesc_files (h : Ok S p home source) (hz : p.msgId s = 0) (i : Nat) (tsc : UInt64)
    (k : Nat) : ((p.writeMsgDesc s i tsc).files k).traceHandle = (p.files k).traceHandle
      ∧ ((p.writeMsgDesc s i tsc).files k).messages = (p.files k).messages
      ∧ ((p.writeMsgDesc s i tsc).files k).dict = (p.files k).dict
        ++ (if k = i then [⟨tsc, (p.handles (p.files i).traceHandle).nextMsgId, s⟩] else []) := by
  have hid : (p.allocateMsgId s i).msgId s = (p.handles (p.files i).traceHandle).nextMsgId := by
    have hmsgId := congrFun (writeMsgDesc_msgId h hz i tsc) s
    rw [Function.update_self] at hmsgId
    exact hmsgId
  have hfiles := Process.allocateMsgId_files p s i
  unfold Process.writeMsgDesc Process.setFile
  dsimp only
  rw [hfiles, hid]
  by_cases hk : k = i
  · rw [hk, Function.update_self, if_pos rfl]
    exact ⟨rfl, rfl, rfl⟩
  · rw [Function.update_of_ne hk, if_neg hk, List.append_nil]
    exact ⟨rfl, rfl, rfl⟩

/-- A statement without an id gets one of the handle, and its descriptor is
in the file. -/
theorem Ok.writeMsgDesc (hS : S.card < 2 ^ 31 - 1) (h : Ok S p home source) (hs : s ∈ S) {i : Nat}
    (hi : i < p.numFiles) (hz : p.msgId s = 0) (tsc : UInt64) :
    Ok S (p.writeMsgDesc s i tsc) (Function.update home s i)
      (Function.update source s (p.files i).traceHandle) := by
  have hmsgId := writeMsgDesc_msgId h hz i tsc
  have hhandles := writeMsgDesc_handles h hz i tsc
  have hfiles := writeMsgDesc_files h hz i tsc
  have hnum : (p.writeMsgDesc s i tsc).numFiles = p.numFiles
      ∧ (p.writeMsgDesc s i tsc).numHandles = p.numHandles := by
    unfold Process.writeMsgDesc Process.setFile Process.allocateMsgId
    rw [if_pos hz]
    exact ⟨rfl, rfl⟩
  have hkeep : ∀ b, p.msgId b ≠ 0 → b ≠ s := by
    rintro b hb rfl
    exact hb hz
  -- handles differ in the counter alone
  have hth : ∀ c, ((p.writeMsgDesc s i tsc).handles c).multiThreading = (p.handles c).multiThreading
      ∧ ((p.writeMsgDesc s i tsc).handles c).nonMtTraceFile = (p.handles c).nonMtTraceFile := by
    intro c
    rw [hhandles]
    by_cases hc : c = (p.files i).traceHandle
    · rw [hc, Function.update_self]
      exact ⟨rfl, rfl⟩
    · rw [Function.update_of_ne hc]
      exact ⟨rfl, rfl⟩
  refine ⟨?_, fun b hb => ?_, fun j e he => ?_, fun j m hm => ?_,
    fun c => (hth c).1.trans (h.single c), fun c j hj => ?_, fun k hk => ?_, fun c hc => ?_⟩
  · have hids := h.ids.alloc hS hs hz (p.files i).traceHandle
    rw [hmsgId]
    refine hids.next_congr fun c => ?_
    rw [hhandles]
    by_cases hc : c = (p.files i).traceHandle
    · rw [hc, Function.update_self, Function.update_self]
    · rw [Function.update_of_ne hc, Function.update_of_ne hc]
  · by_cases hbs : b = s
    · subst hbs
      rw [Function.update_self, Function.update_self, hnum.1, (hfiles i).1, (hfiles i).2.2,
        if_pos rfl]
      exact ⟨hi, rfl, _, List.mem_append_right _ (List.mem_singleton_self _), rfl⟩
    · rw [hmsgId, Function.update_of_ne hbs] at hb
      obtain ⟨hlt, hsource, e, he, hes⟩ := h.settled b hb
      rw [Function.update_of_ne hbs, Function.update_of_ne hbs, hnum.1, (hfiles _).1,
        (hfiles _).2.2]
      exact ⟨hlt, hsource, e, List.mem_append_left _ he, hes⟩
  · rw [(hfiles j).2.2] at he
    rw [hmsgId]
    rcases List.mem_append.mp he with he | he
    · obtain ⟨hne, hid, hhome⟩ := h.entries j e he
      have hes := hkeep e.stmt (hid ▸ hne)
      rw [Function.update_of_ne hes, Function.update_of_ne hes]
      exact ⟨hne, hid, hhome⟩
    · split at he
      · rename_i hj
        rw [List.mem_singleton.mp he]
        exact ⟨h.ids.next_ne_zero _, Function.update_self .., by rw [Function.update_self, hj]⟩
      · cases he
  · rw [(hfiles j).2.1] at hm
    obtain ⟨hne, hid⟩ := h.messages j m hm
    rw [hmsgId, Function.update_of_ne (hkeep m.2 (hid ▸ hne))]
    exact ⟨hne, hid⟩
  · rw [(hth c).2] at hj
    obtain ⟨hlt, hhandle⟩ := h.opened c j hj
    exact ⟨hnum.1 ▸ hlt, (hfiles j).1.trans hhandle⟩
  · rw [hnum.1] at hk
    rw [(hfiles k).1, hnum.2]
    exact h.made k hk
  · rw [hnum.2] at hc
    have hne : c ≠ (p.files i).traceHandle := fun heq => Nat.not_lt.mpr hc (heq ▸ h.made i hi)
    rw [hhandles, Function.update_of_ne hne]
    exact h.unused c hc

/-- A statement has its descriptor behind `describeOnce`; if it had none, it
is in this file now. -/
theorem Ok.describeOnce (hS : S.card < 2 ^ 31 - 1) (h : Ok S p home source) (hs : s ∈ S) {i : Nat}
    (hi : i < p.numFiles) (tsc : UInt64) :
    ∃ home' source', Ok S (describeOnce p s i tsc) home' source'
      ∧ (Qtc.describeOnce p s i tsc).msgId s ≠ 0
      ∧ home' s = (if p.msgId s = 0 then i else home s)
      ∧ ∀ b, b ≠ s → home' b = home b
        ∧ (Qtc.describeOnce p s i tsc).msgId b = p.msgId b := by
  unfold Qtc.describeOnce
  split
  · rename_i hz
    refine ⟨Function.update home s i, Function.update source s (p.files i).traceHandle,
      h.writeMsgDesc hS hs hi hz tsc, ?_, Function.update_self .., fun b hb => ?_⟩
    · rw [writeMsgDesc_msgId h hz, Function.update_self]
      exact h.ids.next_ne_zero _
    · rw [writeMsgDesc_msgId h hz]
      exact ⟨Function.update_of_ne hb .., Function.update_of_ne hb ..⟩
  · rename_i hne
    exact ⟨home, source, h, hne, rfl, fun b _ => ⟨rfl, rfl⟩⟩

/-- A message is recorded under the id of its statement. -/
theorem Ok.record (h : Ok S p home source) (hne : p.msgId s ≠ 0) (i : Nat) :
    Ok S (p.setFile i ((p.files i).record (p.msgId s) s)) home source := by
  have hfiles : ∀ k, ((p.setFile i ((p.files i).record (p.msgId s) s)).files k).traceHandle
        = (p.files k).traceHandle
      ∧ ((p.setFile i ((p.files i).record (p.msgId s) s)).files k).dict = (p.files k).dict
      ∧ ∀ m ∈ ((p.setFile i ((p.files i).record (p.msgId s) s)).files k).messages,
        m ∈ (p.files k).messages ∨ m = (p.msgId s, s) := by
    intro k
    by_cases hk : k = i
    · rw [hk, Process.setFile_files_self]
      refine ⟨rfl, rfl, fun m hm => ?_⟩
      exact (List.mem_append.mp hm).imp_right List.mem_singleton.mp
    · rw [Process.setFile_files_ne p hk]
      exact ⟨rfl, rfl, fun m hm => .inl hm⟩
  refine ⟨h.ids, fun b hb => ?_, fun j e he => ?_, fun j m hm => ?_, h.single, fun c j hj => ?_,
    fun k hk => ?_, h.unused⟩
  · obtain ⟨hlt, hsource, hdesc⟩ := h.settled b hb
    rw [(hfiles _).1, (hfiles _).2.1]
    exact ⟨hlt, hsource, hdesc⟩
  · rw [(hfiles j).2.1] at he
    exact h.entries j e he
  · rcases (hfiles j).2.2 m hm with hm | rfl
    · exact h.messages j m hm
    · exact ⟨hne, rfl⟩
  · obtain ⟨hlt, hhandle⟩ := h.opened c j hj
    exact ⟨hlt, (hfiles j).1.trans hhandle⟩
  · rw [(hfiles k).1]
    exact h.made k hk

/-! ## The steps -/

/-- What one action does to a statement: it keeps its home; if it had none,
its home is the file it meets, if any. -/
structure Moves (p : Process) (a : Action) (q : Process) (home home' : Stmt → Nat) (s : Stmt) :
    Prop where
  keeps : p.msgId s ≠ 0 → q.msgId s ≠ 0 ∧ home' s = home s
  first : ∀ i, p.msgId s = 0 → meets s p a = some i → q.msgId s ≠ 0 ∧ home' s = i
  rest : p.msgId s = 0 → meets s p a = none → q.msgId s = 0

/-- An action of handles. -/
theorem Moves.of_handle {a : Action} (hid : q.msgId = p.msgId) (ha : meets s p a = none) :
    Moves p a q home home s where
  keeps := fun hs => ⟨by rw [hid]; exact hs, rfl⟩
  first := fun i _ hi => by cases ha.symm.trans hi
  rest := fun hs _ => by rw [hid]; exact hs

/-- A statement that has a file describes itself at most there. -/
theorem Ok.enter (hS : S.card < 2 ^ 31 - 1) (h : Ok S p home source) (hs : s ∈ S) {c thread i : Nat}
    (hfile : (p.handles c).traceFile thread = some i) (tsc : UInt64) :
    ∃ home' source', Ok S (Qtc.describeOnce p s i tsc) home' source'
      ∧ (Qtc.describeOnce p s i tsc).msgId s ≠ 0
      ∧ home' s = (if p.msgId s = 0 then i else home s)
      ∧ ∀ b, b ≠ s → home' b = home b
        ∧ (Qtc.describeOnce p s i tsc).msgId b = p.msgId b := by
  rw [TraceHandle.traceFile, h.single c] at hfile
  exact h.describeOnce hS hs (h.opened c i hfile).1 tsc

/-- An action of a statement with an initialized handle. -/
theorem Moves.of_enter {a : Action} {c thread i : Nat} {home' : Stmt → Nat}
    (hmeets : ∀ b, meets b p a = if s = b ∧ isInitialized (p.handles c)
      then (p.handles c).traceFile thread else none)
    (hc : isInitialized (p.handles c) = true) (hfile : (p.handles c).traceFile thread = some i)
    (hne : q.msgId s ≠ 0) (hhome : home' s = if p.msgId s = 0 then i else home s)
    (hrest : ∀ b, b ≠ s → home' b = home b ∧ q.msgId b = p.msgId b) (b : Stmt) :
    Moves p a q home home' b := by
  by_cases hb : b = s
  · subst hb
    refine ⟨fun hid => ⟨hne, by rw [hhome, if_neg hid]⟩, fun k hid hk => ⟨hne, ?_⟩,
      fun _ hnone => ?_⟩
    · rw [hmeets, if_pos ⟨rfl, hc⟩, hfile] at hk
      rw [hhome, if_pos hid]
      exact Option.some.inj hk
    · rw [hmeets, if_pos ⟨rfl, hc⟩, hfile] at hnone
      cases hnone
  · obtain ⟨hhome', hid'⟩ := hrest b hb
    refine ⟨fun hid => ⟨hid' ▸ hid, hhome'⟩, fun k _ hk => ?_, fun hid _ => hid' ▸ hid⟩
    rw [hmeets, if_neg fun h => hb h.1.symm] at hk
    cases hk

/-- What a macro with a file does. -/
theorem withFile_eq {c thread : Nat} {f : Nat → Process} (hq : withFile p c thread f = some q) :
    (isInitialized (p.handles c) = true ∧ ∃ i, (p.handles c).traceFile thread = some i ∧ f i = q)
      ∨ isInitialized (p.handles c) ≠ true ∧ p = q := by
  unfold withFile at hq
  split at hq
  · rename_i hc
    exact .inl ⟨hc, Option.map_eq_some_iff.mp hq⟩
  · rename_i hc
    exact .inr ⟨hc, Option.some.inj hq⟩

theorem resize_msgId (p : Process) (c : Nat) (fileOk : Bool) :
    (p.resize c fileOk).msgId = p.msgId := by
  unfold Process.resize
  dsimp only
  split
  · rfl
  · rfl

theorem construct_msgId (p : Process) (dirOk fileOk : Bool) :
    (p.construct false dirOk fileOk).msgId = p.msgId := by
  unfold Process.construct
  dsimp only
  split
  · rfl
  · rfl

/-- The step lemma: if the action returns, the invariant is kept. -/
theorem ok_step (hS : S.card < 2 ^ 31 - 1) (h : Ok S p home source) (a : Action)
    (ha : ∀ s, a.stmt = some s → s ∈ S) (hq : step p a = some q) :
    ∃ home' source', Ok S q home' source' ∧ ∀ b, Moves p a q home home' b := by
  cases a with
  | initializeHandle dirOk fileOk =>
    cases hq
    exact ⟨home, source, h.initializeHandle dirOk fileOk,
      fun b => .of_handle (construct_msgId p dirOk fileOk) rfl⟩
  | resize c fileOk =>
    cases hq
    exact ⟨home, source, h.resize c fileOk, fun b => .of_handle (resize_msgId p c fileOk) rfl⟩
  | closeHandle c =>
    cases hq
    exact ⟨home, source, h.closeHandle c, fun b => .of_handle rfl rfl⟩
  | qtracef c thread s tsc off =>
    rcases withFile_eq hq with ⟨hc, i, hfile, rfl⟩ | ⟨hc, rfl⟩
    · obtain ⟨home', source', hok, hne, hhome, hrest⟩ := h.enter hS (ha s rfl) hfile tsc
      cases off with
      | true =>
        exact ⟨home', source', hok, Moves.of_enter (fun b => rfl) hc hfile hne hhome hrest⟩
      | false =>
        exact ⟨home', source', hok.record hne i,
          Moves.of_enter (fun b => rfl) hc hfile hne hhome hrest⟩
    · exact ⟨home, source, h, fun b => .of_handle rfl (if_neg fun hb => hc hb.2)⟩
  | qprof c thread s tsc =>
    rcases withFile_eq hq with ⟨hc, i, hfile, rfl⟩ | ⟨hc, rfl⟩
    · obtain ⟨home', source', hok, hne, hhome, hrest⟩ := h.enter hS (ha s rfl) hfile tsc
      exact ⟨home', source', hok, Moves.of_enter (fun b => rfl) hc hfile hne hhome hrest⟩
    · exact ⟨home, source, h, fun b => .of_handle rfl (if_neg fun hb => hc hb.2)⟩

/-- The run lemma: a statement with an id at the end had its home before, or
its home is the file it met first. -/
theorem ok_run (hS : S.card < 2 ^ 31 - 1) : ∀ (as : List Action) {p q : Process}
    {home source : Stmt → Nat}, Ok S p home source →
    (∀ a ∈ as, ∀ s, a.stmt = some s → s ∈ S) → run p as = some q →
    ∃ home' source', Ok S q home' source'
      ∧ ∀ s, (p.msgId s ≠ 0 → home' s = home s)
        ∧ (p.msgId s = 0 → q.msgId s ≠ 0 → firstMet s p as = some (home' s))
  | [], p, q, home, source, h, _, hq => by
      cases hq
      exact ⟨home, source, h, fun s => ⟨fun _ => rfl, fun hz hne => absurd hz hne⟩⟩
  | a :: as, p, q, home, source, h, ha, hq => by
      obtain ⟨ha, has⟩ := List.forall_mem_cons.mp ha
      obtain ⟨p₁, hstep, hrun⟩ := Option.bind_eq_some_iff.mp hq
      obtain ⟨home₁, source₁, hok₁, hmoves⟩ := ok_step hS h a ha hstep
      obtain ⟨home', source', hok, hfirst⟩ := ok_run hS as hok₁ has hrun
      refine ⟨home', source', hok, fun s => ?_⟩
      obtain ⟨hkept, hmet⟩ := hfirst s
      refine ⟨fun hne => ?_, fun hz hne => ?_⟩
      · obtain ⟨hne₁, hhome⟩ := (hmoves s).keeps hne
        rw [hkept hne₁, hhome]
      · rw [firstMet]
        cases hm : meets s p a with
        | some i =>
          obtain ⟨hne₁, hhome⟩ := (hmoves s).first i hz hm
          rw [hkept hne₁, hhome]
        | none =>
          have hz₁ := (hmoves s).rest hz hm
          simp only [hstep, Option.bind_some]
          exact hmet hz₁ hne

/-! ## Null pointers -/

/-- Every initialized handle is for one thread and has a file. -/
structure Opened (p : Process) : Prop where
  single : ∀ h, (p.handles h).multiThreading = false
  opened : ∀ h, isInitialized (p.handles h) = true → (p.handles h).nonMtTraceFile ≠ none

theorem opened_init : Opened .init := ⟨fun _ => rfl, fun _ h => by cases h⟩

/-- A handle that has a file if it is initialized, whatever files there are. -/
theorem Opened.setHandle (h : Opened p) (hq : q.handles = p.handles) (k : Nat) {th : TraceHandle}
    (hth : th.multiThreading = false) (hfile : isInitialized th = true → th.nonMtTraceFile ≠ none) :
    Opened (q.setHandle k th) := by
  have hhandles : ∀ c, (q.setHandle k th).handles c = th
      ∨ (q.setHandle k th).handles c = p.handles c := by
    intro c
    rw [← hq]
    by_cases hc : c = k
    · rw [hc]
      exact .inl (Function.update_self ..)
    · exact .inr (Function.update_of_ne hc ..)
  constructor
  · intro c
    rcases hhandles c with hc | hc
    · rw [hc, hth]
    · rw [hc, h.single]
  · intro c hi
    rcases hhandles c with hc | hc
    · rw [hc] at hi ⊢
      exact hfile hi
    · rw [hc] at hi ⊢
      exact h.opened c hi

/-- A statement changes no handle but for its counter. -/
theorem Opened.congr (h : Opened p)
    (hq : ∀ c, (q.handles c).multiThreading = (p.handles c).multiThreading
      ∧ isInitialized (q.handles c) = isInitialized (p.handles c)
      ∧ (q.handles c).nonMtTraceFile = (p.handles c).nonMtTraceFile) : Opened q where
  single := fun c => (hq c).1.trans (h.single c)
  opened := fun c hc => by
    rw [(hq c).2.2]
    exact h.opened c ((hq c).2.1 ▸ hc)

theorem Opened.describeOnce (h : Opened p) (s : Stmt) (i : Nat) (tsc : UInt64) :
    Opened (describeOnce p s i tsc) := by
  unfold Qtc.describeOnce
  split
  · rename_i hz
    refine h.congr fun c => ?_
    show ((p.allocateMsgId s i).handles c).multiThreading = _
      ∧ isInitialized ((p.allocateMsgId s i).handles c) = _
      ∧ ((p.allocateMsgId s i).handles c).nonMtTraceFile = _
    rw [Process.allocateMsgId, if_pos hz]
    by_cases hc : c = (p.files i).traceHandle
    · subst hc
      show (Function.update p.handles _ _ _).multiThreading = _ ∧ isInitialized
        (Function.update p.handles _ _ _) = _ ∧ (Function.update p.handles _ _ _).nonMtTraceFile = _
      rw [Function.update_self]
      exact ⟨rfl, rfl, rfl⟩
    · show (Function.update p.handles _ _ c).multiThreading = _ ∧ isInitialized
        (Function.update p.handles _ _ c) = _ ∧ (Function.update p.handles _ _ c).nonMtTraceFile = _
      rw [Function.update_of_ne hc]
      exact ⟨rfl, rfl, rfl⟩
  · exact h

/-- A macro of a handle with a file returns. -/
theorem Opened.withFile (h : Opened p) (c thread : Nat) {f : Nat → Process}
    (hf : ∀ i, Opened (f i)) : ∃ q, withFile p c thread f = some q ∧ Opened q := by
  unfold Qtc.withFile
  split
  · rename_i hc
    obtain ⟨i, hi⟩ := Option.ne_none_iff_exists'.mp (h.opened c hc)
    refine ⟨f i, ?_, hf i⟩
    rw [TraceHandle.traceFile, h.single c, if_neg Bool.false_ne_true, hi]
    rfl
  · exact ⟨p, rfl, h⟩

/-- The step lemma: only a `resize` that fails leaves an initialized handle
without a file. -/
theorem opened_step (h : Opened p) {a : Action} (ha : ∀ c, a ≠ .resize c false) :
    ∃ q, step p a = some q ∧ Opened q := by
  cases a with
  | initializeHandle dirOk fileOk =>
    refine ⟨_, rfl, ?_⟩
    unfold Process.construct
    dsimp only
    split
    · refine h.setHandle ?_ _ ?_ fun hi => ?_
      · rfl
      · rfl
      · cases hi
    · rw [if_neg Bool.false_ne_true]
      refine h.setHandle ?_ _ ?_ fun hi => ?_
      · rfl
      · rfl
      · rw [isInitialized, Bool.and_eq_true] at hi
        exact Option.isSome_iff_ne_none.mp hi.1
  | resize c fileOk =>
    cases fileOk with
    | false => exact absurd rfl (ha c)
    | true =>
      refine ⟨_, rfl, ?_⟩
      unfold Process.resize
      dsimp only
      split
      · exact h
      · refine h.setHandle ?_ c ?_ fun _ => ?_
        · rfl
        · exact (disableTracing_next (p.handles c)).2.trans (h.single c)
        · exact Option.some_ne_none p.numFiles
  | closeHandle c =>
    refine ⟨_, rfl, h.setHandle rfl c ((disableTracing_next _).2.trans (h.single c)) fun hi => ?_⟩
    unfold TraceHandle.disableTracing at hi ⊢
    split at hi
    · rename_i hclosed
      rw [isInitialized, hclosed, Bool.not_true, Bool.and_false] at hi
      cases hi
    · cases hi
  | qtracef c thread s tsc off =>
    refine h.withFile c thread fun i => ?_
    cases off with
    | true => exact h.describeOnce s i tsc
    | false => exact (h.describeOnce s i tsc).congr fun c => ⟨rfl, rfl, rfl⟩
  | qprof c thread s tsc => exact h.withFile c thread fun i => h.describeOnce s i tsc

/-- The run lemma. -/
theorem opened_run : ∀ (as : List Action) {p : Process}, Opened p →
    (∀ c, .resize c false ∉ as) → ∃ q, run p as = some q
  | [], p, _, _ => ⟨p, rfl⟩
  | a :: as, p, h, ha => by
      have hc : ∀ c, a ≠ .resize c false := fun c heq =>
        ha c (heq ▸ (List.mem_cons_self : a ∈ a :: as))
      obtain ⟨p₁, hstep, h₁⟩ := opened_step h hc
      obtain ⟨q, hq⟩ := opened_run as h₁ fun c hc => ha c (List.mem_cons_of_mem a hc)
      exact ⟨q, by rw [run, hstep, Option.bind_some, hq]⟩

/-! ## Every run -/

theorem mem_statements {as : List Action} {a : Action} (ha : a ∈ as) {s : Stmt}
    (hs : a.stmt = some s) : s ∈ statements as := by
  rw [statements, List.mem_toFinset, List.mem_filterMap]
  exact ⟨a, ha, hs⟩

/-- For every run with fewer statements than positive ids: as long as no
`resize` fails no macro meets a null pointer, and whenever the run goes through
every message of every file is decoded as what it is exactly in the file that
its statement has met first. In another file of the same handle, behind a
resize, its id is unknown. -/
theorem c_messages_decoded (as : List Action) (hS : (statements as).card < 2 ^ 31 - 1) :
    ((∀ h, .resize h false ∉ as) → ∃ p, run .init as = some p)
      ∧ ∀ p, run .init as = some p → ∀ j, ∀ m ∈ (p.files j).messages,
        ∃ i, firstMet m.2 .init as = some i ∧ Decoded p j m i := by
  refine ⟨fun hresize => opened_run as opened_init hresize, fun p hrun j m hm => ?_⟩
  obtain ⟨home, source, hok, hfirst⟩ := ok_run hS as (ok_init (statements as))
    (fun a ha s hs => mem_statements ha hs) hrun
  refine ⟨home m.2, ?_, hok.decoded hm⟩
  obtain ⟨hne, hid⟩ := hok.messages j m hm
  exact (hfirst m.2).2 rfl (hid ▸ hne)

/-- A statement in a loop over two handles, and then another one with the
second. -/
def twoHandles : List Action :=
  [.initializeHandle true true, .initializeHandle true true,
    .qtracef 0 0 (Process.stmt 1) 5 false, .qtracef 1 0 (Process.stmt 1) 6 false,
    .qtracef 1 0 (Process.stmt 2) 7 false]

theorem c_messages_decoded_two : ((∀ h, .resize h false ∉ twoHandles) →
      ∃ p, run .init twoHandles = some p)
    ∧ ∀ p, run .init twoHandles = some p → ∀ j, ∀ m ∈ (p.files j).messages,
      ∃ i, firstMet m.2 .init twoHandles = some i ∧ Decoded p j m i :=
  c_messages_decoded twoHandles (by decide)

/-- Both messages of the second file are decoded as those of the second
statement. -/
example : ((run .init twoHandles).map fun p => (p.files 1).messages.map fun m =>
      ((p.files 1).entry m.1).map fun e => e.stmt.site) = some [some 2, some 2] := by decide

/-- The file of a `resize` cannot be created, and the next macro ends the
process. -/
example : run .init [.initializeHandle true true, .resize 0 false,
    .qtracef 0 0 (Process.stmt 1) 5 false] = none := rfl

end Qtc

end QuickTrace
