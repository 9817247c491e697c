/-
QuickTrace.Handle.Resize — an initialized handle has a file.

Callers look at `isInitialized` and then use the file of a single-threaded
handle. The constructor, `close` and the destructor keep the two together.
`resize` closes a handle that has a file and creates a new one; it marks the
handle as initialized and returns `true` without a look at what came of it
(`resized_without_file`). In the runs where this creation always succeeds
(`Recreates`) an initialized handle can trace.
-/
import QuickTrace.Handle.TraceFiles

namespace QuickTrace.Lifetime

namespace Process

/-- What a caller relies on in a single-threaded handle. -/
structure HandleCanTrace (p : Process) (h : Nat) : Prop where
  initialized : (p.handles h).isInitialized = true → ∀ t, p.traceFile h t ≠ none
  closed : (p.handles h).traceFilesClosed = true → (p.handles h).traceFiles = []
  file : ∀ f, (p.handles h).nonMtTraceFile = some f → (p.handles h).traceFiles = [f]

/-- All single-threaded handles. -/
def CanTrace (p : Process) : Prop :=
  ∀ h, (p.handles h).multiThreading = false → p.HandleCanTrace h

theorem traceFile_eq {p : Process} {h : Nat} (hmt : (p.handles h).multiThreading = false) (t : Nat) :
    p.traceFile h t = (p.handles h).nonMtTraceFile := by
  rw [traceFile, if_neg (by rw [hmt]; exact Bool.false_ne_true)]

/-- The handle is initialized and has a file. -/
def tracing (p : Process) (h : Nat) : Prop :=
  (p.handles h).isInitialized = true ∧ ∀ t, p.traceFile h t ≠ none

/-- If `resize` returns `true` on a single-threaded handle that was tracing,
the handle is tracing afterwards. -/
def ResizeKeepsTracing (p : Process) : Action → Prop
  | .resize h sz ok => (p.handles h).multiThreading = false → p.tracing h →
      (p.resize h sz ok).2 = true → (p.resize h sz ok).1.tracing h
  | _ => True

/-- `resize` is going to close the file of the handle and create a new one. -/
def deletesAndCreates (p : Process) (h : Nat) (sz : Sizes) : Bool :=
  !(p.handles h).multiThreading && decide ((p.handles h).sizeSpec ≠ sz)
    && (p.handles h).nonMtTraceFile != none

/-- Where `resize` creates a new file, this succeeds. -/
def Recreates (p : Process) : Action → Prop
  | .resize h sz ok => p.deletesAndCreates h sz = true → ok = true
  | _ => True

/-! ## Each operation -/

/-- An initialized single-threaded handle has a file. -/
def Initialized (p : Process) : Prop :=
  ∀ h, (p.handles h).multiThreading = false → (p.handles h).isInitialized = true →
    (p.handles h).nonMtTraceFile ≠ none

/-- Only the first part is not true of every handle. -/
theorem Wf.canTrace_iff {p : Process} (hp : p.Wf) : p.CanTrace ↔ p.Initialized := by
  refine ⟨fun h k hmt hinit => ?_, fun h k hmt => ⟨fun hinit t => ?_, (hp.handle k).closed,
    fun f hf => ?_⟩⟩
  · rw [← traceFile_eq hmt 0]
    exact (h k hmt).initialized hinit 0
  · rw [traceFile_eq hmt]
    exact h k hmt hinit
  · rw [(hp.handle k).single hmt, hf]
    rfl

/-- One handle changes. -/
theorem Initialized.update {p q : Process} (hp : p.Initialized) {h : Nat}
    (hne : ∀ k, k ≠ h → q.handles k = p.handles k)
    (hself : (q.handles h).multiThreading = false → (q.handles h).isInitialized = true →
      (q.handles h).nonMtTraceFile ≠ none) : q.Initialized := by
  intro k hmt hinit
  by_cases hk : k = h
  · rw [hk] at hmt hinit ⊢
    exact hself hmt hinit
  · rw [hne k hk] at hmt hinit ⊢
    exact hp k hmt hinit

theorem isInitialized_of_closed {th : TraceHandle} (hc : th.traceFilesClosed = true) :
    th.isInitialized = false := by
  rw [TraceHandle.isInitialized, hc, Bool.not_true, Bool.and_false]

theorem Initialized.disableTracing {p : Process} (hp : p.Initialized) (hwf : p.Wf) (h : Nat) :
    (p.disableTracing h).Initialized := by
  refine hp.update (fun k hk => disableTracing_handles_ne p hk) fun _ hinit => ?_
  rw [isInitialized_of_closed (disableTracing_ok hwf h).2.1] at hinit
  cases hinit

theorem Initialized.delete {p : Process} (hp : p.Initialized) (hwf : p.Wf) (h : Nat) :
    (p.delete h).Initialized := by
  refine hp.update (fun k hk => delete_handles_ne p hk) fun _ hinit => ?_
  rw [isInitialized_of_closed (delete_closed hwf h)] at hinit
  cases hinit

theorem Initialized.newHandle {p : Process} (hp : p.Initialized) (name : Text) (mt : Bool)
    (sz : Sizes) : (p.newHandle name mt sz).Initialized := by
  refine hp.update (fun k hk => newHandle_handles_ne p hk name mt sz) fun _ hinit => ?_
  rw [newHandle_handles_self] at hinit
  cases hinit

/-- A handle is registered once it has its file, or does without. -/
theorem Initialized.register {p : Process} (hp : p.Initialized) {h : Nat}
    (hf : (p.handles h).multiThreading = false → (p.handles h).nonMtTraceFile ≠ none) :
    (p.register h).Initialized := by
  refine hp.update (fun k hk => setHandle_handles_ne _ hk _) fun hmt _ => ?_
  have hself : (p.register h).handles h = { p.handles h with initialized := true } :=
    setHandle_handles_self ..
  rw [hself] at hmt ⊢
  exact hf hmt

theorem Initialized.construct {p : Process} (hp : p.Initialized) (name : Text) (mt : Bool)
    (sz : Sizes) (dirOk fileOk : Bool) : (p.construct name mt sz dirOk fileOk).Initialized := by
  have hnew := hp.newHandle name mt sz
  have hself := newHandle_handles_self p name mt sz
  unfold Process.construct
  generalize p.newHandle name mt sz = q at hnew hself
  dsimp only
  split
  · exact hnew
  · split
    · rename_i hmt
      refine hnew.register fun h => ?_
      rw [hself, show (TraceHandle.new name mt sz).multiThreading = mt from rfl, hmt] at h
      cases h
    · have hfile : ((q.newTraceFile p.numHandles fileOk).1.setHandle p.numHandles
          { (q.newTraceFile p.numHandles fileOk).1.handles p.numHandles with
            nonMtTraceFile := (q.newTraceFile p.numHandles fileOk).2 }).Initialized := by
        refine hnew.update (h := p.numHandles) (fun k hk => ?_) fun _ hinit => ?_
        · rw [setHandle_handles_ne _ hk, newTraceFile_handles_ne q hk]
        · rw [setHandle_handles_self, newTraceFile_handles_self, hself] at hinit
          cases fileOk <;> cases hinit
      split
      · exact hfile
      · rename_i hsome
        refine hfile.register fun _ => ?_
        rw [setHandle_handles_self]
        exact hsome

theorem deletesAndCreates_iff {p : Process} {h : Nat} {sz : Sizes} :
    p.deletesAndCreates h sz = true ↔ (p.handles h).multiThreading = false
      ∧ (p.handles h).sizeSpec ≠ sz ∧ (p.handles h).nonMtTraceFile ≠ none := by
  rw [deletesAndCreates, Bool.and_eq_true, Bool.and_eq_true, Bool.not_eq_true', decide_eq_true_eq,
    bne_iff_ne, and_assoc]

/-- A `resize` that creates no file changes at most the sizes. -/
theorem resize_handles {p : Process} {h : Nat} {sz : Sizes}
    (hdc : p.deletesAndCreates h sz = false) (ok : Bool) :
    ∃ sz', (p.resize h sz ok).1 = p.setHandle h { p.handles h with sizeSpec := sz' } := by
  have hself : p = p.setHandle h { p.handles h with sizeSpec := (p.handles h).sizeSpec } := by
    rw [setHandle, Function.update_eq_self]
  by_cases hmt : (p.handles h).multiThreading = true
  · have heq : (p.resize h sz ok).1 = p := by simp only [resize, hmt, if_true]
    exact ⟨_, heq.trans hself⟩
  · by_cases hsz : (p.handles h).sizeSpec = sz
    · have heq : (p.resize h sz ok).1 = p := by simp only [resize, if_pos hsz, ite_self]
      exact ⟨_, heq.trans hself⟩
    · have hf : (p.handles h).nonMtTraceFile = none := by
        by_contra hne
        rw [deletesAndCreates_iff.mpr ⟨Bool.eq_false_iff.mpr hmt, hsz, hne⟩] at hdc
        cases hdc
      exact ⟨adjustSizeSpec sz, by simp only [resize, hmt, hsz, hf, bne_self_eq_false,
        Bool.false_eq_true, if_false]⟩

/-- The handle behind a `resize` that creates a file. -/
theorem resize_creates {p : Process} (hwf : p.Wf) {h : Nat} {sz : Sizes}
    (hdc : p.deletesAndCreates h sz = true) (ok : Bool) :
    ((p.resize h sz ok).1.handles h).multiThreading = false
    ∧ ((p.resize h sz ok).1.handles h).isInitialized = true
    ∧ ((p.resize h sz ok).1.handles h).nonMtTraceFile
      = (if ok then some (p.close h).numFiles else none)
    ∧ ∀ k, k ≠ h → (p.resize h sz ok).1.handles k = p.handles k := by
  obtain ⟨hmt, hsz, hf⟩ := deletesAndCreates_iff.mp hdc
  rw [resize_eq hmt hsz hf]
  refine ⟨?_, ?_, ?_, fun k hk => ?_⟩
  · have hclose := (disableTracing_ok hwf h).2.2.1
    rw [setHandle_handles_self, newTraceFile_handles_self, setHandle_handles_self]
    cases ok <;> exact hclose.trans hmt
  · rw [setHandle_handles_self]
    rfl
  · rw [setHandle_handles_self]
    exact newTraceFile_snd _ h ok
  · rw [setHandle_handles_ne _ hk, newTraceFile_handles_ne _ hk, setHandle_handles_ne _ hk]
    exact disableTracing_handles_ne p hk

theorem Initialized.resize {p : Process} (hp : p.Initialized) (hwf : p.Wf) {h : Nat} {sz : Sizes}
    {ok : Bool} (hok : p.deletesAndCreates h sz = true → ok = true) :
    (p.resize h sz ok).1.Initialized := by
  cases hdc : p.deletesAndCreates h sz with
  | true =>
    obtain ⟨-, -, hfile, hne⟩ := resize_creates hwf hdc ok
    refine hp.update hne fun _ _ => ?_
    rw [hfile, hok hdc]
    exact Option.some_ne_none _
  | false =>
    obtain ⟨sz', heq⟩ := resize_handles hdc ok
    rw [heq]
    refine hp.update (h := h) (fun k hk => setHandle_handles_ne p hk _) fun hmt hinit => ?_
    rw [setHandle_handles_self] at hmt hinit ⊢
    exact hp h hmt hinit

theorem Initialized.eraseFile {p : Process} (hp : p.Initialized) (h f : Nat) :
    (p.deleteTraceFile h f).Initialized := by
  refine hp.update (fun k hk => deleteTraceFile_handles_ne p hk f) fun hmt hinit => ?_
  rw [deleteTraceFile_handles_self] at hmt hinit ⊢
  exact hp h hmt hinit

/-- The step lemma. -/
theorem Initialized.step {p : Process} (hp : p.Initialized) (hwf : p.Wf) {a : Action}
    (ha : p.Recreates a) : (p.step a).Initialized := by
  cases a with
  | construct name mt sz dirOk fileOk => exact hp.construct name mt sz dirOk fileOk
  | resize h sz ok => exact hp.resize hwf ha
  | close h => exact hp.disableTracing hwf h
  | delete h => exact hp.delete hwf h
  | maybeCreateMtTraceFile h t ok =>
    show (p.maybeCreateMtTraceFile h t ok).Initialized
    unfold Process.maybeCreateMtTraceFile
    split
    · exact hp
    · split
      · exact hp
      · refine hp.update (h := h) (fun k hk => newTraceFile_handles_ne p hk ok) fun hmt hinit => ?_
        rw [setThreadFile_handles, newTraceFile_handles_self] at hmt hinit ⊢
        cases ok <;> exact hp h hmt hinit
  | threadExit h t =>
    show (p.threadExit h t).Initialized
    unfold Process.threadExit
    split
    · exact hp
    · exact Initialized.eraseFile (p := p.setThreadFile h t none) hp h _

/-! ## Every run -/

/-- What `resize` promises with `true`. -/
theorem resizeKeepsTracing {p : Process} (hwf : p.Wf) {a : Action} (ha : p.Recreates a) :
    p.ResizeKeepsTracing a := by
  cases a with
  | resize h sz ok =>
    intro hmt htracing _
    cases hdc : p.deletesAndCreates h sz with
    | true =>
      obtain ⟨hmt', hinit, hfile, -⟩ := resize_creates hwf hdc ok
      refine ⟨hinit, fun t => ?_⟩
      rw [traceFile_eq hmt', hfile, show ok = true from ha hdc]
      exact Option.some_ne_none _
    | false =>
      obtain ⟨sz', heq⟩ := resize_handles hdc ok
      have hself : (p.resize h sz ok).1.handles h = { p.handles h with sizeSpec := sz' } := by
        rw [heq, setHandle_handles_self]
      refine ⟨by rw [hself]; exact htracing.1, fun t => ?_⟩
      rw [traceFile_eq (by rw [hself]; exact hmt), hself]
      exact traceFile_eq hmt t ▸ htracing.2 t
  | construct _ _ _ _ _ => trivial
  | close h => trivial
  | delete h => trivial
  | maybeCreateMtTraceFile _ _ _ => trivial
  | threadExit _ _ => trivial

theorem Runs.initialized {p : Process} (h : Runs Recreates p) : p.Initialized := by
  induction h with
  | init => exact fun _ _ hinit => by cases hinit
  | step hp ha _ ih => exact ih.step hp.wf ha

/-- In a run where every `resize` that needs a new file gets one, a
single-threaded handle that is initialized can trace, a closed one has no
files, and the set of files is that of the handle; the next step keeps this,
and what `resize` promises, exactly when it does the same. -/
theorem initialized_can_trace {p : Process} (h : Runs Recreates p) :
    p.CanTrace ∧ ∀ a, p.enabled a = true →
      ((p.step a).CanTrace ∧ p.ResizeKeepsTracing a ↔ p.Recreates a) := by
  have hwf := h.wf
  refine ⟨hwf.canTrace_iff.mpr h.initialized, fun a he => ⟨fun hcan => ?_, fun ha => ?_⟩⟩
  · cases a with
    | resize k sz ok =>
      intro hdc
      by_contra hok
      obtain ⟨hmt, hinit, hfile, -⟩ := resize_creates hwf hdc ok
      refine (hcan.1 k hmt).initialized hinit 0 ?_
      rw [show p.step (.resize k sz ok) = (p.resize k sz ok).1 from rfl, traceFile_eq hmt, hfile,
        Bool.eq_false_iff.mpr hok]
      rfl
    | construct _ _ _ _ _ => trivial
    | close h => trivial
    | delete h => trivial
    | maybeCreateMtTraceFile _ _ _ => trivial
    | threadExit _ _ => trivial
  · exact ⟨(hwf.step he).canTrace_iff.mpr (h.initialized.step hwf ha), resizeKeepsTracing hwf ha⟩

/-- Two KiB for each level. -/
def twoKiB : Sizes := fun _ => 2

/-- A handle that is resized and closed. -/
def resizedAndClosed : Process :=
  ((init.step (.construct [97] false oneKiB true true)).step (.resize 0 twoKiB true)).step (.close 0)

theorem initialized_can_trace_resized :
    resizedAndClosed.CanTrace ∧ ∀ a, resizedAndClosed.enabled a = true →
      ((resizedAndClosed.step a).CanTrace ∧ resizedAndClosed.ResizeKeepsTracing a
        ↔ resizedAndClosed.Recreates a) :=
  initialized_can_trace (.step (.step (.step .init trivial rfl) (fun _ => rfl) rfl) trivial rfl)

/-- A handle whose new file could not be created: `resize` returns `true`,
and the handle is initialized without a file. -/
theorem resized_without_file : ∃ p q, Reachable p ∧ Reachable q ∧ p.tracing 0
    ∧ p.resize 0 twoKiB false = (q, true) ∧ (q.handles 0).isInitialized = true
    ∧ q.traceFile 0 0 = none ∧ ¬ q.CanTrace ∧ ¬ p.ResizeKeepsTracing (.resize 0 twoKiB false) := by
  have hp : Reachable (init.step (.construct [97] false oneKiB true true)) :=
    .step .init trivial rfl
  refine ⟨_, _, hp, hp.step (a := .resize 0 twoKiB false) trivial rfl, ⟨rfl, fun t => ?_⟩,
    Prod.ext rfl ?_, ?_, ?_, fun h => ?_, fun h => ?_⟩
  · exact Option.some_ne_none 0
  · decide +kernel
  · decide +kernel
  · decide +kernel
  · exact (h 0 (by decide +kernel)).initialized (by decide +kernel) 0 (by decide +kernel)
  · exact (h rfl ⟨rfl, fun t => Option.some_ne_none 0⟩ (by decide +kernel)).2 0 (by decide +kernel)

end Process

end QuickTrace.Lifetime
