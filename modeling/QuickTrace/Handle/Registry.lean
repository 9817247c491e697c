/-
QuickTrace.Handle.Registry — the handles a child of `fork` can reach.

`traceHandleMap` is there so that the child closes or deletes every handle.
It is keyed by name. What is in it is alive and has the name it is found
under (`Registry`), so that both loops of `processForkChild` end, whatever
happened before; they disable exactly the handles that are registered.

A handle is registered when it is constructed. It is lost when another one
of its name is constructed, and when one of its name is deleted that is not
registered itself (`handle_lost`). Otherwise (`KeepsNames`) every initialized
handle is the one that `traceHandle` finds.
-/
import QuickTrace.Handle.Resize

namespace QuickTrace.Lifetime

namespace Process

/-- Every initialized handle is found under its name. -/
def Registered (p : Process) : Prop :=
  ∀ h, (p.handles h).isInitialized = true →
    p.traceHandle (p.handles h).fileNameSuffix = some h

/-- A handle that is going to be registered finds no initialized one under
its name, and one that is deleted finds no initialized one but itself. -/
def KeepsNames (p : Process) : Action → Prop
  | .construct name mt _ dirOk fileOk => dirOk = true → (mt = true ∨ fileOk = true) →
      ∀ k, p.traceHandle name = some k → (p.handles k).isInitialized = false
  | .delete h => ∀ k, p.traceHandle (p.handles h).fileNameSuffix = some k →
      k = h ∨ (p.handles k).isInitialized = false
  | _ => True

/-! ## The child of a fork -/

/-- A pass of the loop that deletes: any entry may be the first one. -/
inductive DeletesFirst (p : Process) : Process → Prop where
  | pass (name : Text) (h : Nat) (hmem : p.traceHandle name = some h) (ha : p.alive h = true) :
      DeletesFirst p (p.delete h)

/-- A number of passes. -/
inductive Passes : Nat → Process → Process → Prop where
  | zero (p : Process) : Passes 0 p p
  | succ {n : Nat} {p q r : Process} (h : DeletesFirst p q) (hs : Passes n q r) : Passes (n + 1) p r

/-- The loop that closes, over the entries in any order. -/
def closeAll (p : Process) : List (Sigma fun _ : Text => Nat) → Process
  | [] => p
  | x :: xs => (p.close x.2).closeAll xs

/-- No handle is initialized. -/
def Silent (p : Process) : Prop := ∀ h, (p.handles h).isInitialized = false

/-! ## The registry -/

/-- What is registered is alive and has the name it is found under. -/
def Registry (p : Process) : Prop :=
  ∀ name h, p.traceHandle name = some h → p.alive h = true ∧ (p.handles h).fileNameSuffix = name

theorem registry_init : init.Registry := fun _ _ h => by cases h

/-- The handles keep their names, and nothing but the flags of one changes. -/
theorem Registry.congr {p q : Process} (hp : p.Registry) (hmap : q.traceHandleMap = p.traceHandleMap)
    (hnum : q.numHandles = p.numHandles)
    (hh : ∀ k, (q.handles k).fileNameSuffix = (p.handles k).fileNameSuffix
      ∧ (q.handles k).deleted = (p.handles k).deleted) : q.Registry := by
  intro name h hfind
  obtain ⟨ha, hname⟩ := hp name h (by rw [traceHandle, ← hmap]; exact hfind)
  rw [alive_iff] at ha ⊢
  rw [hnum, (hh h).1, (hh h).2]
  exact ⟨ha, hname⟩

theorem Registered.congr {p q : Process} (hp : p.Registered)
    (hmap : q.traceHandleMap = p.traceHandleMap)
    (hh : ∀ k, (q.handles k).isInitialized = true → (p.handles k).isInitialized = true
      ∧ (q.handles k).fileNameSuffix = (p.handles k).fileNameSuffix) : q.Registered := by
  intro k hk
  obtain ⟨hinit, hname⟩ := hh k hk
  rw [hname, traceHandle, hmap]
  exact hp k hinit

/-- What an action does that neither constructs nor deletes. -/
structure SameNames (p q : Process) : Prop where
  map : q.traceHandleMap = p.traceHandleMap
  num : q.numHandles = p.numHandles
  name : ∀ k, (q.handles k).fileNameSuffix = (p.handles k).fileNameSuffix
    ∧ (q.handles k).deleted = (p.handles k).deleted
  initialized : ∀ k, (q.handles k).isInitialized = true → (p.handles k).isInitialized = true

/-- One handle changes. -/
theorem SameNames.of_update {p q : Process} {h : Nat} (hmap : q.traceHandleMap = p.traceHandleMap)
    (hnum : q.numHandles = p.numHandles) (hne : ∀ k, k ≠ h → q.handles k = p.handles k)
    (hname : (q.handles h).fileNameSuffix = (p.handles h).fileNameSuffix)
    (hdel : (q.handles h).deleted = (p.handles h).deleted)
    (hinit : (q.handles h).isInitialized = true → (p.handles h).isInitialized = true) :
    SameNames p q := by
  refine ⟨hmap, hnum, fun k => ?_, fun k => ?_⟩
  · by_cases hk : k = h
    · rw [hk]
      exact ⟨hname, hdel⟩
    · rw [hne k hk]
      exact ⟨rfl, rfl⟩
  · by_cases hk : k = h
    · rw [hk]
      exact hinit
    · rw [hne k hk]
      exact id

theorem sameNames_disableTracing {p : Process} (hwf : p.Wf) (h : Nat) :
    SameNames p (p.disableTracing h) := by
  obtain ⟨hnum, hmap, -, -⟩ := disableTracing_frame p h
  obtain ⟨-, hc, -, hname, hdel⟩ := disableTracing_ok hwf h
  refine .of_update hmap hnum (fun k hk => disableTracing_handles_ne p hk) hname hdel fun h' => ?_
  rw [isInitialized_of_closed hc] at h'
  cases h'

theorem sameNames_maybeCreateMtTraceFile (p : Process) (h t : Nat) (ok : Bool) :
    SameNames p (p.maybeCreateMtTraceFile h t ok) := by
  unfold Process.maybeCreateMtTraceFile
  split
  · exact ⟨rfl, rfl, fun _ => ⟨rfl, rfl⟩, fun _ => id⟩
  · split
    · exact ⟨rfl, rfl, fun _ => ⟨rfl, rfl⟩, fun _ => id⟩
    · obtain ⟨hnum, hmap, -, -⟩ := newTraceFile_frame p h ok
      have hself := newTraceFile_handles_self p h ok
      refine .of_update (h := h) hmap hnum (fun k hk => newTraceFile_handles_ne p hk ok) ?_ ?_ ?_
      all_goals
        rw [setThreadFile_handles, hself]
        cases ok
      · rfl
      · rfl
      · rfl
      · rfl
      · exact id
      · exact id

theorem sameNames_threadExit (p : Process) (h t : Nat) : SameNames p (p.threadExit h t) := by
  unfold Process.threadExit
  split
  · exact ⟨rfl, rfl, fun _ => ⟨rfl, rfl⟩, fun _ => id⟩
  · rename_i f _
    have hself : ((p.setThreadFile h t none).deleteTraceFile h f).handles h
        = (p.handles h).eraseFile f := deleteTraceFile_handles_self ..
    refine .of_update (h := h) rfl rfl (fun k hk => deleteTraceFile_handles_ne _ hk f) ?_ ?_ ?_
    all_goals
      rw [hself]
    · rfl
    · rfl
    · exact id

/-- `resize` leaves no handle initialized that was not. -/
theorem sameNames_resize {p : Process} (hwf : p.Wf) (h : Nat) (sz : Sizes) (ok : Bool) :
    SameNames p (p.resize h sz ok).1 := by
  cases hdc : p.deletesAndCreates h sz with
  | true =>
    obtain ⟨hmt, hsz, hf⟩ := deletesAndCreates_iff.mp hdc
    obtain ⟨hinit, -⟩ := (hwf.handle h).tracing hf
    have hopen := (hwf.handle h).opened hinit
    obtain ⟨-, -, -, hne⟩ := resize_creates hwf hdc ok
    have hclose := sameNames_disableTracing hwf h
    obtain ⟨hn, hd⟩ := hclose.name h
    refine .of_update (h := h) ?_ ?_ hne ?_ ?_ fun _ => ?_
    · rw [resize_eq hmt hsz hf]
      exact (newTraceFile_frame _ h ok).2.1.trans hclose.map
    · rw [resize_eq hmt hsz hf]
      exact (newTraceFile_frame _ h ok).1.trans hclose.num
    · rw [resize_eq hmt hsz hf, setHandle_handles_self, newTraceFile_handles_self,
        setHandle_handles_self]
      cases ok <;> exact hn
    · rw [resize_eq hmt hsz hf, setHandle_handles_self, newTraceFile_handles_self,
        setHandle_handles_self]
      cases ok <;> exact hd
    · rw [TraceHandle.isInitialized, hinit, hopen]
      rfl
  | false =>
    obtain ⟨sz', heq⟩ := resize_handles hdc ok
    rw [heq]
    refine .of_update (h := h) rfl rfl (fun k hk => setHandle_handles_ne p hk _)
      (by rw [setHandle_handles_self]) (by rw [setHandle_handles_self]) fun hinit => ?_
    rw [setHandle_handles_self] at hinit
    exact hinit

theorem SameNames.registry {p q : Process} (h : SameNames p q) (hp : p.Registry) : q.Registry :=
  hp.congr h.map h.num h.name

theorem SameNames.registered {p q : Process} (h : SameNames p q) (hp : p.Registered) :
    q.Registered :=
  hp.congr h.map fun k hk => ⟨h.initialized k hk, (h.name k).1⟩

/-- What `delete` does: the name goes, the handle is closed. -/
theorem delete_spec {p : Process} (hwf : p.Wf) (h : Nat) :
    (p.delete h).traceHandleMap = p.traceHandleMap.erase (p.handles h).fileNameSuffix
      ∧ (p.delete h).numHandles = p.numHandles
      ∧ (∀ k, k ≠ h → (p.delete h).handles k = p.handles k)
      ∧ ((p.delete h).handles h).isInitialized = false := by
  obtain ⟨hnum, hmap, -, -⟩ := disableTracing_frame p h
  exact ⟨congrArg (AList.erase _) hmap, hnum, fun k hk => delete_handles_ne p hk,
    isInitialized_of_closed (delete_closed hwf h)⟩

/-- What the constructor does: a handle that got all it needs is registered
and initialized, and no other handle changes. -/
theorem construct_spec (p : Process) (name : Text) (mt : Bool) (sz : Sizes) (dirOk fileOk : Bool) :
    (p.construct name mt sz dirOk fileOk).traceHandleMap
        = (if dirOk && (mt || fileOk) then p.traceHandleMap.insert name p.numHandles
          else p.traceHandleMap)
      ∧ (p.construct name mt sz dirOk fileOk).numHandles = p.numHandles + 1
      ∧ (∀ k, k ≠ p.numHandles → (p.construct name mt sz dirOk fileOk).handles k = p.handles k)
      ∧ ((p.construct name mt sz dirOk fileOk).handles p.numHandles).fileNameSuffix = name
      ∧ ((p.construct name mt sz dirOk fileOk).handles p.numHandles).deleted = false
      ∧ ((p.construct name mt sz dirOk fileOk).handles p.numHandles).isInitialized
        = (dirOk && (mt || fileOk)) := by
  have hself := newHandle_handles_self p name mt sz
  have hne : ∀ k, k ≠ p.numHandles → (p.newHandle name mt sz).handles k = p.handles k :=
    fun k hk => newHandle_handles_ne p hk name mt sz
  have hmap : (p.newHandle name mt sz).traceHandleMap = p.traceHandleMap := rfl
  have hnum : (p.newHandle name mt sz).numHandles = p.numHandles + 1 := rfl
  unfold Process.construct
  generalize p.newHandle name mt sz = q at hself hne hmap hnum
  cases dirOk with
  | false =>
    simp only [Bool.not_false, if_true, Bool.false_and, Bool.false_eq_true, if_false]
    exact ⟨hmap, hnum, hne, by rw [hself]; rfl, by rw [hself]; rfl, by rw [hself]; rfl⟩
  | true =>
    cases mt with
    | true =>
      have hreg : (q.register p.numHandles).handles p.numHandles
          = { q.handles p.numHandles with initialized := true } := setHandle_handles_self ..
      simp only [Bool.not_true, if_true, Bool.true_or, Bool.and_true, Bool.false_eq_true, if_false]
      refine ⟨?_, hnum, fun k hk => ?_, ?_, ?_, ?_⟩
      · rw [← hmap, register, hself]
        rfl
      · exact (setHandle_handles_ne _ hk _).trans (hne k hk)
      · rw [hreg, hself]
        rfl
      · rw [hreg, hself]
        rfl
      · rw [hreg, hself]
        rfl
    | false =>
      obtain ⟨hfnum, hfmap, -, -⟩ := newTraceFile_frame q p.numHandles fileOk
      have hfself := newTraceFile_handles_self q p.numHandles fileOk
      have hfne : ∀ k, k ≠ p.numHandles →
          (q.newTraceFile p.numHandles fileOk).1.handles k = p.handles k :=
        fun k hk => (newTraceFile_handles_ne q hk fileOk).trans (hne k hk)
      have hsnd := newTraceFile_snd q p.numHandles fileOk
      simp only [Bool.not_true, Bool.false_or, Bool.true_and, Bool.false_eq_true, if_false]
      generalize q.newTraceFile p.numHandles fileOk = r at hfnum hfmap hfself hfne hsnd
      rw [hself] at hfself
      have hset : (r.1.setHandle p.numHandles { r.1.handles p.numHandles with
          nonMtTraceFile := r.2 }).handles p.numHandles
            = { r.1.handles p.numHandles with nonMtTraceFile := r.2 } := setHandle_handles_self ..
      cases fileOk with
      | false =>
        simp only [hsnd, Bool.false_eq_true, if_false, if_true] at hfself hset ⊢
        refine ⟨hfmap.trans hmap, hfnum.trans hnum, fun k hk => ?_, ?_, ?_, ?_⟩
        · exact (setHandle_handles_ne _ hk _).trans (hfne k hk)
        · rw [hset, hfself]
          rfl
        · rw [hset, hfself]
          rfl
        · rw [hset, hfself]
          rfl
      | true =>
        simp only [hsnd, if_true, reduceCtorEq, if_false] at hfself hset ⊢
        have hreg : ((r.1.setHandle p.numHandles { r.1.handles p.numHandles with
            nonMtTraceFile := some q.numFiles }).register p.numHandles).handles p.numHandles
              = { r.1.handles p.numHandles with
                  nonMtTraceFile := some q.numFiles, initialized := true } := by
          rw [register, setHandle_handles_self, hset]
        refine ⟨?_, hfnum.trans hnum, fun k hk => ?_, ?_, ?_, ?_⟩
        · rw [register, hset, hfself]
          exact congrArg (AList.insert name p.numHandles) (hfmap.trans hmap)
        · exact (setHandle_handles_ne _ hk _).trans ((setHandle_handles_ne _ hk _).trans (hfne k hk))
        · rw [hreg, hfself]
          rfl
        · rw [hreg, hfself]
          rfl
        · rw [hreg, hfself]
          rfl

/-! ## Each step -/

theorem isInitialized_lt {p : Process} (hwf : p.Wf) {h : Nat}
    (hinit : (p.handles h).isInitialized = true) : h < p.numHandles := by
  by_contra hge
  rw [hwf.unused h (Nat.not_lt.mp hge)] at hinit
  cases hinit

theorem Registry.delete {p : Process} (hp : p.Registry) (hwf : p.Wf) (h : Nat) :
    (p.delete h).Registry := by
  obtain ⟨hmap, hnum, hne, -⟩ := delete_spec hwf h
  intro name k hfind
  rw [traceHandle, hmap] at hfind
  by_cases hname : name = (p.handles h).fileNameSuffix
  · rw [hname, AList.lookup_erase] at hfind
    cases hfind
  · rw [AList.lookup_erase_ne hname] at hfind
    obtain ⟨ha, hk⟩ := hp name k hfind
    have hkh : k ≠ h := by
      rintro rfl
      exact hname hk.symm
    rw [alive_iff, hnum, hne k hkh]
    exact ⟨alive_iff.mp ha, hk⟩

theorem Registry.construct {p : Process} (hp : p.Registry) (name : Text) (mt : Bool) (sz : Sizes)
    (dirOk fileOk : Bool) : (p.construct name mt sz dirOk fileOk).Registry := by
  obtain ⟨hmap, hnum, hne, hself, hdel, -⟩ := construct_spec p name mt sz dirOk fileOk
  -- what was registered before is still alive
  have hold : ∀ nm k, p.traceHandle nm = some k →
      (p.construct name mt sz dirOk fileOk).alive k = true
        ∧ ((p.construct name mt sz dirOk fileOk).handles k).fileNameSuffix = nm := by
    intro nm k hfind
    obtain ⟨ha, hk⟩ := hp nm k hfind
    obtain ⟨hlt, hdel⟩ := alive_iff.mp ha
    rw [alive_iff, hnum, hne k (Nat.ne_of_lt hlt)]
    exact ⟨⟨Nat.lt_succ_of_lt hlt, hdel⟩, hk⟩
  intro nm k hfind
  rw [traceHandle, hmap] at hfind
  split at hfind
  · by_cases hnm : nm = name
    · rw [hnm, AList.lookup_insert] at hfind
      obtain rfl := Option.some.inj hfind
      rw [alive_iff, hnum, hself, hnm]
      exact ⟨⟨Nat.lt_succ_self _, hdel⟩, rfl⟩
    · rw [AList.lookup_insert_ne hnm] at hfind
      exact hold nm k hfind
  · exact hold nm k hfind

theorem Registry.step {p : Process} (hp : p.Registry) (hwf : p.Wf) (a : Action) :
    (p.step a).Registry := by
  cases a with
  | construct name mt sz dirOk fileOk => exact hp.construct name mt sz dirOk fileOk
  | resize h sz ok => exact (sameNames_resize hwf h sz ok).registry hp
  | close h => exact (sameNames_disableTracing hwf h).registry hp
  | delete h => exact hp.delete hwf h
  | maybeCreateMtTraceFile h t ok => exact (sameNames_maybeCreateMtTraceFile p h t ok).registry hp
  | threadExit h t => exact (sameNames_threadExit p h t).registry hp

theorem Runs.registry {allowed : Process → Action → Prop} {p : Process} (h : Runs allowed p) :
    p.Registry := by
  induction h with
  | init => exact registry_init
  | step hp _ _ ih => exact ih.step hp.wf _

/-- A deletion: exactly the other handles that are found keep their place. -/
theorem registered_delete_iff {p : Process} (hp : p.Registered) (hwf : p.Wf) (hreg : p.Registry)
    (h : Nat) : (p.delete h).Registered ↔ p.KeepsNames (.delete h) := by
  obtain ⟨hmap, -, hne, hself⟩ := delete_spec hwf h
  constructor
  · intro hq k hfind
    by_contra hk
    obtain ⟨hkh, hinit⟩ := not_or.mp hk
    have hinit : (p.handles k).isInitialized = true := by simpa using hinit
    have hfound := hq k (by rw [hne k hkh]; exact hinit)
    rw [hne k hkh, traceHandle, hmap, (hreg _ k hfind).2, AList.lookup_erase] at hfound
    cases hfound
  · intro hkeeps k hk
    by_cases hkh : k = h
    · rw [hkh, hself] at hk
      cases hk
    · rw [hne k hkh] at hk ⊢
      have hfind := hp k hk
      have hname : (p.handles k).fileNameSuffix ≠ (p.handles h).fileNameSuffix := by
        intro heq
        rw [heq] at hfind
        rcases hkeeps k hfind with h' | h'
        · exact hkh h'
        · rw [h'] at hk
          cases hk
      rw [traceHandle, hmap, AList.lookup_erase_ne hname]
      exact hfind

/-- A construction: exactly when no initialized handle is found under the
name, all keep their place. -/
theorem registered_construct_iff {p : Process} (hp : p.Registered) (hwf : p.Wf)
    (hreg : p.Registry) (name : Text) (mt : Bool) (sz : Sizes) (dirOk fileOk : Bool) :
    (p.construct name mt sz dirOk fileOk).Registered
      ↔ p.KeepsNames (.construct name mt sz dirOk fileOk) := by
  obtain ⟨hmap, -, hne, hname, -, hself⟩ := construct_spec p name mt sz dirOk fileOk
  constructor
  · intro hq hdir hfile k hfind
    by_contra hk
    have hk : (p.handles k).isInitialized = true := by simpa using hk
    have hkn : k ≠ p.numHandles := Nat.ne_of_lt (isInitialized_lt hwf hk)
    have hfound := hq k (by rw [hne k hkn]; exact hk)
    have hsuffix := (hreg name k hfind).2
    rw [hne k hkn, traceHandle, hmap, if_pos (by simpa [hdir] using hfile), hsuffix,
      AList.lookup_insert] at hfound
    exact hkn (Option.some.inj hfound).symm
  · intro hkeeps k hk
    by_cases hkn : k = p.numHandles
    · rw [hkn] at hk ⊢
      rw [hself] at hk
      rw [hname, traceHandle, hmap, if_pos hk, AList.lookup_insert]
    · rw [hne k hkn] at hk ⊢
      have hfind := hp k hk
      rw [traceHandle, hmap]
      split
      · rename_i hok
        rw [Bool.and_eq_true, Bool.or_eq_true] at hok
        have hsuffix : (p.handles k).fileNameSuffix ≠ name := by
          intro heq
          rw [heq] at hfind
          rw [hkeeps hok.1 hok.2 k hfind] at hk
          cases hk
        rw [AList.lookup_insert_ne hsuffix]
        exact hfind
      · exact hfind

/-- The step lemma, both ways. -/
theorem registered_step_iff {p : Process} (hp : p.Registered) (hwf : p.Wf) (hreg : p.Registry)
    (a : Action) : (p.step a).Registered ↔ p.KeepsNames a := by
  cases a with
  | construct name mt sz dirOk fileOk =>
    exact registered_construct_iff hp hwf hreg name mt sz dirOk fileOk
  | resize h sz ok => exact iff_of_true ((sameNames_resize hwf h sz ok).registered hp) trivial
  | close h => exact iff_of_true ((sameNames_disableTracing hwf h).registered hp) trivial
  | delete h => exact registered_delete_iff hp hwf hreg h
  | maybeCreateMtTraceFile h t ok =>
    exact iff_of_true ((sameNames_maybeCreateMtTraceFile p h t ok).registered hp) trivial
  | threadExit h t => exact iff_of_true ((sameNames_threadExit p h t).registered hp) trivial

theorem Runs.registered {p : Process} (h : Runs KeepsNames p) : p.Registered := by
  induction h with
  | init => exact fun _ hinit => by cases hinit
  | step hp ha _ ih => exact (registered_step_iff ih hp.wf hp.registry _).mpr ha

/-! ## Both loops of the child -/

/-- The handle is in the registry. -/
def Found (p : Process) (h : Nat) : Prop := ∃ name, p.traceHandle name = some h

/-- With a registry that is in order, to be found is to be found under the
own name. -/
theorem Registry.registered_iff {p : Process} (hp : p.Registry) :
    p.Registered ↔ ∀ h, (p.handles h).isInitialized = true → p.Found h := by
  refine ⟨fun h k hk => ⟨_, h k hk⟩, fun h k hk => ?_⟩
  obtain ⟨name, hfind⟩ := h k hk
  rw [(hp name k hfind).2]
  exact hfind

theorem mem_keys_of_traceHandle {p : Process} {name : Text} {h : Nat}
    (hfind : p.traceHandle name = some h) : name ∈ p.traceHandleMap.keys :=
  AList.mem_keys.mp (AList.lookup_isSome.mp (Option.isSome_iff_exists.mpr ⟨h, hfind⟩))

/-- A pass takes one entry, and disables its handle only. -/
structure PassSpec (n : Nat) (p q : Process) : Prop where
  wf : q.Wf
  registry : q.Registry
  length : n + q.traceHandleMap.keys.length = p.traceHandleMap.keys.length
  disabled : ∀ h, (q.handles h).isInitialized = true →
    (p.handles h).isInitialized = true ∧ (p.Found h → q.Found h)
  kept : ∀ h, (p.handles h).isInitialized = true → ¬ p.Found h →
    (q.handles h).isInitialized = true ∧ ¬ q.Found h

theorem passSpec_one {p q : Process} (hwf : p.Wf) (hreg : p.Registry) (h : DeletesFirst p q) :
    PassSpec 1 p q := by
  obtain ⟨name, k, hfind, ha⟩ := h
  obtain ⟨hmap, hnum, hne, hself⟩ := delete_spec hwf k
  have hname := (hreg name k hfind).2
  -- the other names are found as before
  have hother : ∀ nm, nm ≠ name → (p.delete k).traceHandle nm = p.traceHandle nm := by
    intro nm hnm
    rw [traceHandle, hmap, hname, AList.lookup_erase_ne hnm]
    rfl
  have hgone : (p.delete k).traceHandle name = none := by
    rw [traceHandle, hmap, hname, AList.lookup_erase]
  refine ⟨hwf.delete (alive_iff.mp ha).1, hreg.delete hwf k, ?_, fun h hinit => ?_,
    fun h hinit hlost => ?_⟩
  · have hmem := mem_keys_of_traceHandle hfind
    have hpos := List.length_pos_of_mem hmem
    rw [hmap, hname, AList.keys_erase,
      @List.length_erase_of_mem Text instBEqOfDecidableEq _ _ _ hmem]
    omega
  · have hhk : h ≠ k := by
      rintro rfl
      rw [hself] at hinit
      cases hinit
    refine ⟨hne h hhk ▸ hinit, fun ⟨nm, hnm⟩ => ⟨nm, ?_⟩⟩
    rw [hother nm ?_]
    · exact hnm
    · rintro rfl
      rw [hfind] at hnm
      exact hhk (Option.some.inj hnm).symm
  · have hhk : h ≠ k := by
      rintro rfl
      exact hlost ⟨name, hfind⟩
    refine ⟨by rw [hne h hhk]; exact hinit, fun ⟨nm, hnm⟩ => hlost ⟨nm, ?_⟩⟩
    rw [← hother nm ?_]
    · exact hnm
    · rintro rfl
      rw [hgone] at hnm
      cases hnm

/-- Any number of passes. -/
theorem passSpec {n : Nat} {p q : Process} (hwf : p.Wf) (hreg : p.Registry) (h : Passes n p q) :
    PassSpec n p q := by
  induction h with
  | zero p => exact ⟨hwf, hreg, Nat.zero_add _, fun h hi => ⟨hi, id⟩, fun h hi hl => ⟨hi, hl⟩⟩
  | succ h hs ih =>
    have h1 := passSpec_one hwf hreg h
    have h2 := ih h1.wf h1.registry
    refine ⟨h2.wf, h2.registry, ?_, fun k hk => ?_, fun k hk hlost => ?_⟩
    · have e1 := h1.length
      have e2 := h2.length
      omega
    · obtain ⟨hk2, hf2⟩ := h2.disabled k hk
      obtain ⟨hk1, hf1⟩ := h1.disabled k hk2
      exact ⟨hk1, fun hf => hf2 (hf1 hf)⟩
    · obtain ⟨hk1, hlost1⟩ := h1.kept k hk hlost
      exact h2.kept k hk1 hlost1

/-- While the registry is not empty there is a next pass. -/
theorem Registry.pass {p : Process} (hp : p.Registry) (h : p.traceHandleMap.keys ≠ []) :
    ∃ q, DeletesFirst p q := by
  obtain ⟨name, hmem⟩ := List.exists_mem_of_ne_nil _ h
  obtain ⟨k, hfind⟩ := Option.isSome_iff_exists.mp (AList.lookup_isSome.mpr (AList.mem_keys.mpr hmem))
  exact ⟨_, .pass name k hfind (hp name k hfind).1⟩

theorem not_found_of_empty {p : Process} (h : p.traceHandleMap.keys = []) (k : Nat) : ¬ p.Found k := by
  rintro ⟨name, hfind⟩
  have hmem := mem_keys_of_traceHandle hfind
  rw [h] at hmem
  cases hmem

/-- The loop that deletes ends after a pass for each entry, and leaves a
handle initialized unless all of them are registered. -/
theorem deletesFirst_ends {p q : Process} (hwf : p.Wf) (hreg : p.Registry) {n : Nat}
    (h : Passes n p q) :
    n ≤ p.traceHandleMap.keys.length
      ∧ (q.traceHandleMap.keys ≠ [] → n < p.traceHandleMap.keys.length ∧ ∃ r, DeletesFirst q r)
      ∧ (q.traceHandleMap.keys = [] → (q.Silent ↔ p.Registered)) := by
  have hs := passSpec hwf hreg h
  refine ⟨Nat.le.intro hs.length, fun hne => ⟨?_, hs.registry.pass hne⟩, fun hempty => ?_⟩
  · have hpos := List.length_pos_of_ne_nil hne
    have hlen := hs.length
    omega
  · rw [hreg.registered_iff]
    constructor
    · intro hsilent k hk
      by_contra hlost
      have hkept := (hs.kept k hk hlost).1
      rw [hsilent k] at hkept
      cases hkept
    · intro hall k
      by_contra hk
      obtain ⟨hk1, hf⟩ := hs.disabled k (by simpa using hk)
      exact not_found_of_empty hempty k (hf (hall k hk1))

theorem close_isInitialized (p : Process) (h k : Nat) :
    ((p.close h).handles k).isInitialized = true ↔ (p.handles k).isInitialized = true ∧ h ≠ k := by
  by_cases hk : k = h
  · subst hk
    refine iff_of_false (fun hinit => ?_) fun h => h.2 rfl
    cases hc : (p.handles k).traceFilesClosed with
    | true =>
      rw [close, disableTracing, if_pos hc, isInitialized_of_closed hc] at hinit
      cases hinit
    | false =>
      rw [close, disableTracing_handles_self hc] at hinit
      cases hinit
  · rw [close, disableTracing_handles_ne p hk]
    exact ⟨fun h' => ⟨h', Ne.symm hk⟩, And.left⟩

/-- The loop that closes, in any order. -/
theorem closeAll_isInitialized (k : Nat) : ∀ (xs : List (Sigma fun _ : Text => Nat)) (p : Process),
    ((p.closeAll xs).handles k).isInitialized = true
      ↔ (p.handles k).isInitialized = true ∧ ∀ x ∈ xs, x.2 ≠ k
  | [], p => by simp [closeAll]
  | x :: xs, p => by
      rw [closeAll, closeAll_isInitialized k xs, close_isInitialized, List.forall_mem_cons, and_assoc]

theorem closeAll_silent_iff {p : Process} (hreg : p.Registry)
    {xs : List (Sigma fun _ : Text => Nat)} (hxs : xs.Perm p.traceHandleMap.entries) :
    (p.closeAll xs).Silent ↔ p.Registered := by
  have hfound : ∀ k, (∃ x ∈ xs, x.2 = k) ↔ p.Found k := by
    intro k
    constructor
    · rintro ⟨⟨name, k'⟩, hx, rfl⟩
      exact ⟨name, AList.mem_lookup_iff.mpr (hxs.mem_iff.mp hx)⟩
    · rintro ⟨name, hfind⟩
      exact ⟨⟨name, k⟩, hxs.mem_iff.mpr (AList.mem_lookup_iff.mp hfind), rfl⟩
  rw [hreg.registered_iff]
  constructor
  · intro hsilent k hk
    by_contra hlost
    have hk' := (closeAll_isInitialized k xs p).mpr
      ⟨hk, fun x hx heq => hlost ((hfound k).mp ⟨x, hx, heq⟩)⟩
    rw [hsilent k] at hk'
    cases hk'
  · intro hall k
    by_contra hk
    obtain ⟨hk1, hno⟩ := (closeAll_isInitialized k xs p).mp (by simpa using hk)
    obtain ⟨x, hx, heq⟩ := (hfound k).mpr (hall k hk1)
    exact hno x hx heq

/-! ## Every run -/

/-- In a run that keeps the names apart every initialized handle is the one
that `traceHandle` finds, and a child that forks off silences all of them
with either loop, which ends; the next step keeps this exactly when it does
the same. -/
theorem live_handles_registered {p : Process} (h : Runs KeepsNames p) :
    p.Registered
    ∧ (∀ n q, Passes n p q → n ≤ p.traceHandleMap.keys.length
      ∧ (q.traceHandleMap.keys ≠ [] → ∃ r, DeletesFirst q r)
      ∧ (q.traceHandleMap.keys = [] → q.Silent))
    ∧ (∀ xs : List (Sigma fun _ : Text => Nat), xs.Perm p.traceHandleMap.entries →
      (p.closeAll xs).Silent)
    ∧ ∀ a, p.enabled a = true → ((p.step a).Registered ↔ p.KeepsNames a) := by
  have hp := h.registered
  refine ⟨hp, fun n q hq => ?_, fun xs hxs => (closeAll_silent_iff h.registry hxs).mpr hp,
    fun a _ => registered_step_iff hp h.wf h.registry a⟩
  obtain ⟨hle, hne, hempty⟩ := deletesFirst_ends h.wf h.registry hq
  exact ⟨hle, fun h' => (hne h').2, fun h' => (hempty h').mpr hp⟩

/-- Two handles with different names; the first one is deleted. -/
def twoNames : Process :=
  ((init.step (.construct [97] false oneKiB true true)).step
    (.construct [98] true oneKiB true true)).step (.delete 0)

theorem live_handles_registered_two_names :
    twoNames.Registered
    ∧ (∀ n q, Passes n twoNames q → n ≤ twoNames.traceHandleMap.keys.length
      ∧ (q.traceHandleMap.keys ≠ [] → ∃ r, DeletesFirst q r)
      ∧ (q.traceHandleMap.keys = [] → q.Silent))
    ∧ (∀ xs : List (Sigma fun _ : Text => Nat), xs.Perm twoNames.traceHandleMap.entries →
      (twoNames.closeAll xs).Silent)
    ∧ ∀ a, twoNames.enabled a = true → ((twoNames.step a).Registered ↔ twoNames.KeepsNames a) := by
  refine live_handles_registered (.step (.step (.step .init ?_ rfl) ?_ rfl) ?_ (by decide +kernel))
  · intro _ _ k hfind
    cases hfind
  · intro _ _ k hfind
    rw [show (init.step (.construct [97] false oneKiB true true)).traceHandle [98] = none from
      by decide +kernel] at hfind
    cases hfind
  · intro k hfind
    rw [show ((init.step (.construct [97] false oneKiB true true)).step
      (.construct [98] true oneKiB true true)).traceHandle (((init.step (.construct [97] false oneKiB
        true true)).step (.construct [98] true oneKiB true true)).handles 0).fileNameSuffix = some 0
          from by decide +kernel] at hfind
    exact .inl (Option.some.inj hfind).symm

/-- Two handles of one name: the first one is lost, and a child that forks
off leaves it initialized, whether it closes or deletes. -/
theorem handle_lost : ∃ p, Reachable p ∧ ¬ p.Registered
    ∧ ¬ (p.closeAll p.traceHandleMap.entries).Silent
    ∧ ∃ q, Passes 1 p q ∧ q.traceHandleMap.keys = [] ∧ ¬ q.Silent := by
  have hp : Reachable ((init.step (.construct [97] false oneKiB true true)).step
      (.construct [97] false oneKiB true true)) := .step (.step .init trivial rfl) trivial rfl
  have hfind : ((init.step (.construct [97] false oneKiB true true)).step
      (.construct [97] false oneKiB true true)).traceHandle [97] = some 1 := by decide +kernel
  refine ⟨_, hp, fun h => ?_, fun h => ?_, _, .succ (.pass [97] 1 hfind (by decide +kernel)) (.zero _),
    by decide +kernel, fun h => ?_⟩
  · exact absurd (h 0 (by decide +kernel)) (by decide +kernel)
  · exact absurd (h 0) (by decide +kernel)
  · exact absurd (h 0) (by decide +kernel)

end Process

end QuickTrace.Lifetime
