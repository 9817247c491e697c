/-
QuickTrace.Handle.TraceFiles — who deletes a `TraceFile`.

A file of a multi-threaded handle is known to the handle, in `traceFiles_`,
and to its thread, in the thread-local pointer. Three paths delete files: the
end of the thread, `disableTracing`, and `newTraceFile` where the creation
has failed. `Owned` says that every pointer leads to a file in the set and
that nothing in the set was deleted.

`disableTracing` leaves the pointers as they are: a thread that ends after
its handle was closed deletes its file again (`deleted_twice`). Files are
deleted once in the runs that close or delete a handle only while none of
its threads has a file (`Spares`).
-/
import QuickTrace.Handle.Lifetime

namespace QuickTrace.Lifetime

namespace Process

/-- Every thread-local pointer that is not null leads to a file of its
handle, and no file was deleted twice. -/
def Safe (p : Process) : Prop :=
  (∀ h t f, p.threadFile h t = some f → f ∈ (p.handles h).traceFiles)
    ∧ ∀ f, p.deletions f ≤ 1

/-- No thread has a file in the handle that is closed or deleted. -/
def Spares (p : Process) : Action → Prop
  | .close h | .delete h => ∀ t, p.threadFile h t = none
  | _ => True

/-! ## The invariant -/

/-- The files in the sets are apart and not deleted, and each pointer is the
only one to a file in the set of its handle. -/
structure Owned (p : Process) : Prop where
  lt : ∀ h f, f ∈ (p.handles h).traceFiles → f < p.numFiles
  nodup : ∀ h, (p.handles h).traceFiles.Nodup
  apart : ∀ h k f, f ∈ (p.handles h).traceFiles → f ∈ (p.handles k).traceFiles → h = k
  undeleted : ∀ h f, f ∈ (p.handles h).traceFiles → p.deletions f = 0
  once : ∀ f, p.deletions f ≤ 1
  fresh : ∀ f, p.numFiles ≤ f → p.deletions f = 0
  member : ∀ h t f, p.threadFile h t = some f → f ∈ (p.handles h).traceFiles
  single : ∀ h t t' f, p.threadFile h t = some f → p.threadFile h t' = some f → t = t'

theorem owned_init : init.Owned where
  lt := fun _ _ h => by cases h
  nodup := fun _ => List.nodup_nil
  apart := fun _ _ _ h => by cases h
  undeleted := fun _ _ h => by cases h
  once := fun _ => Nat.zero_le _
  fresh := fun _ _ => rfl
  member := fun _ _ _ h => by cases h
  single := fun _ _ _ _ h => by cases h

/-- Only the files count. -/
theorem Owned.congr {p q : Process} (hp : p.Owned)
    (hh : ∀ h, (q.handles h).traceFiles = (p.handles h).traceFiles) (hn : q.numFiles = p.numFiles)
    (ht : q.threadFile = p.threadFile) (hd : q.deletions = p.deletions) : q.Owned where
  lt := fun h f hf => by rw [hn]; exact hp.lt h f (hh h ▸ hf)
  nodup := fun h => by rw [hh h]; exact hp.nodup h
  apart := fun h k f hf hf' => hp.apart h k f (hh h ▸ hf) (hh k ▸ hf')
  undeleted := fun h f hf => by rw [hd]; exact hp.undeleted h f (hh h ▸ hf)
  once := fun f => by rw [hd]; exact hp.once f
  fresh := fun f hf => by rw [hd]; exact hp.fresh f (hn ▸ hf)
  member := fun h t f hf => by rw [hh h]; exact hp.member h t f (ht ▸ hf)
  single := fun h t t' f hf hf' => hp.single h t t' f (ht ▸ hf) (ht ▸ hf')

theorem Owned.setHandle {p : Process} (hp : p.Owned) (h : Nat) {th : TraceHandle}
    (hth : th.traceFiles = (p.handles h).traceFiles) : (p.setHandle h th).Owned := by
  refine hp.congr (fun k => ?_) rfl rfl rfl
  by_cases hk : k = h
  · rw [hk, setHandle_handles_self, hth]
  · rw [setHandle_handles_ne p hk]

/-- Nothing is in the set of a handle that was not in it before. -/
theorem deleteTraceFile_subset (p : Process) (h k f : Nat) :
    ∀ g, g ∈ ((p.deleteTraceFile h f).handles k).traceFiles → g ∈ (p.handles k).traceFiles := by
  intro g hg
  by_cases hk : k = h
  · rw [hk, deleteTraceFile_handles_self] at hg
    rw [hk]
    exact List.mem_of_mem_erase hg
  · rwa [deleteTraceFile_handles_ne p hk] at hg

/-- A file of a handle is deleted: no pointer leads to it any more. -/
theorem Owned.deleteTraceFile {p : Process} (hp : p.Owned) {h f : Nat}
    (hf : f ∈ (p.handles h).traceFiles) (hptr : ∀ t, p.threadFile h t ≠ some f) :
    (p.deleteTraceFile h f).Owned := by
  have hsub := deleteTraceFile_subset p h
  -- the file has left the only set it was in
  have hne : ∀ k g, g ∈ ((p.deleteTraceFile h f).handles k).traceFiles → g ≠ f := by
    rintro k g hg rfl
    have hk := hp.apart k h g (hsub k g g hg) hf
    rw [hk, deleteTraceFile_handles_self] at hg
    exact ((hp.nodup h).mem_erase_iff.mp hg).1 rfl
  have hdel : ∀ g, g ≠ f → (p.deleteTraceFile h f).deletions g = p.deletions g :=
    fun g hg => Function.update_of_ne hg ..
  have hself : (p.deleteTraceFile h f).deletions f = p.deletions f + 1 := Function.update_self ..
  refine ⟨fun k g hg => hp.lt k g (hsub k f g hg), fun k => ?_,
    fun k k' g hg hg' => hp.apart k k' g (hsub k f g hg) (hsub k' f g hg'), fun k g hg => ?_,
    fun g => ?_, fun g hg => ?_, fun k t g hg => ?_, hp.single⟩
  · by_cases hk : k = h
    · rw [hk, deleteTraceFile_handles_self]
      exact (hp.nodup h).erase f
    · rw [deleteTraceFile_handles_ne p hk]
      exact hp.nodup k
  · rw [hdel g (hne k g hg)]
    exact hp.undeleted k g (hsub k f g hg)
  · by_cases hgf : g = f
    · rw [hgf, hself, hp.undeleted h f hf]
    · rw [hdel g hgf]
      exact hp.once g
  · rw [hdel g (by have := hp.lt h f hf; have : p.numFiles ≤ g := hg; omega)]
    exact hp.fresh g hg
  · have hmem := hp.member k t g hg
    by_cases hk : k = h
    · subst hk
      have hgf : g ≠ f := by
        rintro rfl
        exact hptr t hg
      rw [deleteTraceFile_handles_self]
      exact (List.mem_erase_of_ne hgf).mpr hmem
    · rw [deleteTraceFile_handles_ne p hk]
      exact hmem

/-- The loop invariant of `disableTracing`. -/
theorem Owned.deleteTraceFiles {h : Nat} : ∀ {fs : List Nat} {p : Process}, p.Owned →
    (∀ f ∈ fs, f ∈ (p.handles h).traceFiles) → fs.Nodup → (∀ t, p.threadFile h t = none) →
    (p.deleteTraceFiles h fs).Owned
  | [], _, hp, _, _, _ => hp
  | f :: fs, p, hp, hmem, hnd, hptr => by
      obtain ⟨hf, hnd⟩ := List.nodup_cons.mp hnd
      have hq := hp.deleteTraceFile (hmem f List.mem_cons_self)
        fun t h' => by rw [hptr t] at h'; cases h'
      refine hq.deleteTraceFiles (fun g hg => ?_) hnd hptr
      rw [deleteTraceFile_handles_self]
      have hgf : g ≠ f := by
        rintro rfl
        exact hf hg
      exact (List.mem_erase_of_ne hgf).mpr (hmem g (List.mem_cons_of_mem f hg))

theorem Owned.disableTracing {p : Process} (hp : p.Owned) {h : Nat}
    (hptr : ∀ t, p.threadFile h t = none) : (p.disableTracing h).Owned := by
  unfold Process.disableTracing
  split
  · exact hp
  · have hq : (p.setHandle h (p.handles h).disable).Owned := hp.setHandle h rfl
    refine hq.deleteTraceFiles (fun f hf => ?_) (hp.nodup h) hptr
    rw [setHandle_handles_self]
    exact hf

/-- A new file is in no other set, and one that could not be created has
never been in a set. -/
theorem Owned.newTraceFile {p : Process} (hp : p.Owned) (h : Nat) (ok : Bool) :
    (p.newTraceFile h ok).1.Owned := by
  have hnew : ∀ k, p.numFiles ∉ (p.handles k).traceFiles :=
    fun k hk => Nat.lt_irrefl _ (hp.lt k _ hk)
  cases ok with
  | true =>
    have hself : ((p.newTraceFile h true).1.handles h).traceFiles
        = p.numFiles :: (p.handles h).traceFiles := by rw [newTraceFile_handles_self]; rfl
    have hother : ∀ k, k ≠ h → (p.newTraceFile h true).1.handles k = p.handles k :=
      fun k hk => newTraceFile_handles_ne p hk true
    -- what is in a set now
    have hcases : ∀ k f, f ∈ ((p.newTraceFile h true).1.handles k).traceFiles →
        (k = h ∧ f = p.numFiles) ∨ f ∈ (p.handles k).traceFiles := by
      intro k f hf
      by_cases hk : k = h
      · subst hk
        rw [hself] at hf
        rcases List.mem_cons.mp hf with rfl | hf
        · exact .inl ⟨rfl, rfl⟩
        · exact .inr hf
      · rw [hother k hk] at hf
        exact .inr hf
    refine ⟨fun k f hf => ?_, fun k => ?_, fun k k' f hf hf' => ?_, fun k f hf => ?_, hp.once,
      fun f hf => hp.fresh f (Nat.le_of_succ_le hf), fun k t f hf => ?_, hp.single⟩
    · rcases hcases k f hf with ⟨-, rfl⟩ | hf
      · exact Nat.lt_succ_self _
      · exact Nat.lt_succ_of_lt (hp.lt k f hf)
    · by_cases hk : k = h
      · rw [hk, hself]
        exact List.nodup_cons.mpr ⟨hnew h, hp.nodup h⟩
      · rw [hother k hk]
        exact hp.nodup k
    · rcases hcases k f hf with ⟨rfl, rfl⟩ | hf1 <;> rcases hcases k' _ hf' with ⟨rfl, he⟩ | hf2
      · rfl
      · exact absurd hf2 (hnew k')
      · exact absurd (he ▸ hf1) (hnew k)
      · exact hp.apart k k' f hf1 hf2
    · rcases hcases k f hf with ⟨-, rfl⟩ | hf
      · exact hp.fresh _ (Nat.le_refl _)
      · exact hp.undeleted k f hf
    · have hmem := hp.member k t f hf
      by_cases hk : k = h
      · rw [hk] at hmem ⊢
        rw [hself]
        exact List.mem_cons_of_mem _ hmem
      · rw [hother k hk]
        exact hmem
  | false =>
    have hfiles : ∀ k, ((p.newTraceFile h false).1.handles k).traceFiles
        = (p.handles k).traceFiles := by
      intro k
      by_cases hk : k = h
      · rw [hk, newTraceFile_handles_self]
        exact List.erase_of_not_mem (hnew h)
      · rw [newTraceFile_handles_ne p hk]
    have hdel : ∀ f, f ≠ p.numFiles → (p.newTraceFile h false).1.deletions f = p.deletions f :=
      fun f hf => Function.update_of_ne hf ..
    have hself : (p.newTraceFile h false).1.deletions p.numFiles = p.deletions p.numFiles + 1 :=
      Function.update_self ..
    refine ⟨fun k f hf => ?_, fun k => ?_, fun k k' f hf hf' => ?_, fun k f hf => ?_, fun f => ?_,
      fun f hf => ?_, fun k t f hf => ?_, hp.single⟩
    · exact Nat.lt_succ_of_lt (hp.lt k f (hfiles k ▸ hf))
    · rw [hfiles k]
      exact hp.nodup k
    · exact hp.apart k k' f (hfiles k ▸ hf) (hfiles k' ▸ hf')
    · rw [hfiles k] at hf
      rw [hdel f (Nat.ne_of_lt (hp.lt k f hf))]
      exact hp.undeleted k f hf
    · by_cases hf : f = p.numFiles
      · rw [hf, hself, hp.fresh _ (Nat.le_refl _)]
      · rw [hdel f hf]
        exact hp.once f
    · have hf : p.numFiles + 1 ≤ f := hf
      rw [hdel f (by omega)]
      exact hp.fresh f (by omega)
    · rw [hfiles k]
      exact hp.member k t f hf

/-! ## Each operation -/

theorem Owned.register {p : Process} (hp : p.Owned) (h : Nat) : (p.register h).Owned :=
  (show (p.insertName (p.handles h).fileNameSuffix h).Owned from
    hp.congr (fun _ => rfl) rfl rfl rfl).setHandle h rfl

theorem Owned.newHandle {p : Process} (hp : p.Owned) (hwf : p.Wf) (name : Text) (mt : Bool)
    (sz : Sizes) : (p.newHandle name mt sz).Owned := by
  refine (hp.setHandle p.numHandles ?_).congr (fun _ => rfl) rfl rfl rfl
  rw [hwf.unused _ (Nat.le_refl _)]
  rfl

theorem Owned.construct {p : Process} (hp : p.Owned) (hwf : p.Wf) (name : Text) (mt : Bool)
    (sz : Sizes) (dirOk fileOk : Bool) : (p.construct name mt sz dirOk fileOk).Owned := by
  have hnew := hp.newHandle hwf name mt sz
  unfold Process.construct
  dsimp only
  split
  · exact hnew
  · split
    · exact hnew.register _
    · have hfile := (hnew.newTraceFile p.numHandles fileOk).setHandle p.numHandles
        (show _ = ({ ((p.newHandle name mt sz).newTraceFile p.numHandles fileOk).1.handles
          p.numHandles with nonMtTraceFile := ((p.newHandle name mt sz).newTraceFile p.numHandles
            fileOk).2 } : TraceHandle).traceFiles from rfl).symm
      split
      · exact hfile
      · exact hfile.register _

/-- A single-threaded handle has no thread-local pointers. -/
theorem Owned.resize {p : Process} (hp : p.Owned) (hwf : p.Wf) (h : Nat) (sz : Sizes) (ok : Bool) :
    (p.resize h sz ok).1.Owned := by
  by_cases hmt : (p.handles h).multiThreading = true
  · simp only [Process.resize, hmt, if_true]
    exact hp
  · have hmt : (p.handles h).multiThreading = false := Bool.eq_false_iff.mpr hmt
    by_cases hsz : (p.handles h).sizeSpec = sz
    · simp only [Process.resize, hsz, if_true, ite_self]
      exact hp
    · by_cases hf : (p.handles h).nonMtTraceFile = none
      · simp only [Process.resize, hmt, hsz, hf, bne_self_eq_false, Bool.false_eq_true, if_false]
        exact hp.setHandle h rfl
      · rw [resize_eq hmt hsz hf]
        have hq : (p.close h).Owned := hp.disableTracing (hwf.pointer h hmt)
        have hq : ((p.close h).setHandle h { (p.close h).handles h with
          sizeSpec := adjustSizeSpec sz }).Owned := hq.setHandle h rfl
        exact (hq.newTraceFile h ok).setHandle h rfl

theorem Owned.delete {p : Process} (hp : p.Owned) {h : Nat} (hptr : ∀ t, p.threadFile h t = none) :
    (p.delete h).Owned := by
  have hq := hp.disableTracing hptr
  have hq : ((p.disableTracing h).setHandle h { (p.disableTracing h).handles h with
    deleted := true }).Owned := hq.setHandle h rfl
  exact hq.congr (fun _ => rfl) rfl rfl rfl

/-- The pointers of one thread change: each leads to the set, alone. -/
theorem Owned.setThreadFile {p : Process} (hp : p.Owned) {h t : Nat} {f : Option Nat}
    (hmem : ∀ g, f = some g → g ∈ (p.handles h).traceFiles)
    (hone : ∀ g, f = some g → ∀ t', p.threadFile h t' ≠ some g) : (p.setThreadFile h t f).Owned := by
  refine { hp with member := fun k t' g hg => ?_, single := fun k t₁ t₂ g h₁ h₂ => ?_ }
  · by_cases hk : k = h
    · subst hk
      rw [setThreadFile_self] at hg
      by_cases ht : t' = t
      · rw [ht, Function.update_self] at hg
        exact hmem g hg
      · rw [Function.update_of_ne ht] at hg
        exact hp.member k t' g hg
    · rw [setThreadFile_ne p hk] at hg
      exact hp.member k t' g hg
  · by_cases hk : k = h
    · subst hk
      rw [setThreadFile_self] at h₁ h₂
      by_cases ht₁ : t₁ = t <;> by_cases ht₂ : t₂ = t
      · rw [ht₁, ht₂]
      · rw [ht₁, Function.update_self] at h₁
        rw [Function.update_of_ne ht₂] at h₂
        exact absurd h₂ (hone g h₁ t₂)
      · rw [ht₂, Function.update_self] at h₂
        rw [Function.update_of_ne ht₁] at h₁
        exact absurd h₁ (hone g h₂ t₁)
      · rw [Function.update_of_ne ht₁] at h₁
        rw [Function.update_of_ne ht₂] at h₂
        exact hp.single k t₁ t₂ g h₁ h₂
    · rw [setThreadFile_ne p hk] at h₁ h₂
      exact hp.single k t₁ t₂ g h₁ h₂

theorem Owned.maybeCreateMtTraceFile {p : Process} (hp : p.Owned) (h t : Nat) (ok : Bool) :
    (p.maybeCreateMtTraceFile h t ok).Owned := by
  unfold Process.maybeCreateMtTraceFile
  split
  · exact hp
  · split
    · exact hp
    · obtain ⟨-, -, hthread, -⟩ := newTraceFile_frame p h ok
      have hsnd := newTraceFile_snd p h ok
      refine (hp.newTraceFile h ok).setThreadFile (fun g hg => ?_) fun g hg t' hg' => ?_
      · rw [hsnd] at hg
        cases ok with
        | true =>
          cases hg
          rw [newTraceFile_handles_self]
          exact List.mem_cons_self
        | false => cases hg
      · rw [hthread] at hg'
        have hlt := hp.lt h g (hp.member h t' g hg')
        rw [hsnd] at hg
        cases ok with
        | true =>
          cases hg
          exact Nat.lt_irrefl _ hlt
        | false => cases hg

theorem Owned.threadExit {p : Process} (hp : p.Owned) (h t : Nat) : (p.threadExit h t).Owned := by
  unfold Process.threadExit
  split
  · exact hp
  · rename_i f hf
    have hq : (p.setThreadFile h t none).Owned :=
      hp.setThreadFile (fun _ h' => by cases h') fun _ h' => by cases h'
    refine hq.deleteTraceFile (hp.member h t f hf) fun t' hf' => ?_
    rw [setThreadFile_self] at hf'
    by_cases ht : t' = t
    · rw [ht, Function.update_self] at hf'
      cases hf'
    · rw [Function.update_of_ne ht] at hf'
      exact ht (hp.single h t' t f hf' hf)

/-! ## Every run -/

/-- The step lemma. -/
theorem Owned.step {p : Process} (hp : p.Owned) (hwf : p.Wf) {a : Action} (ha : p.Spares a) :
    (p.step a).Owned := by
  cases a with
  | construct name mt sz dirOk fileOk => exact hp.construct hwf name mt sz dirOk fileOk
  | resize h sz ok => exact hp.resize hwf h sz ok
  | close h => exact hp.disableTracing ha
  | delete h => exact hp.delete ha
  | maybeCreateMtTraceFile h t ok => exact hp.maybeCreateMtTraceFile h t ok
  | threadExit h t => exact hp.threadExit h t

theorem Owned.safe {p : Process} (hp : p.Owned) : p.Safe := ⟨hp.member, hp.once⟩

theorem Runs.owned {p : Process} (h : Runs Spares p) : p.Owned := by
  induction h with
  | init => exact owned_init
  | step hp ha _ ih => exact ih.step hp.wf ha

/-- A handle is closed while a thread has a file in it: the pointer leads
nowhere. -/
theorem not_safe_of_closed {p q : Process} {h t f : Nat} (hq : q.Wf)
    (hc : (q.handles h).traceFilesClosed = true) (hthread : q.threadFile = p.threadFile)
    (hf : p.threadFile h t = some f) : ¬ q.Safe := by
  intro hsafe
  have hmem := hsafe.1 h t f (by rw [hthread, hf])
  rw [(hq.handle h).closed hc] at hmem
  cases hmem

/-- In a run that closes or deletes handles only while none of their threads
has a file, every pointer leads to a file of its handle and no file is
deleted twice; the next step keeps this exactly when it does the same. -/
theorem trace_files_deleted_once {p : Process} (h : Runs Spares p) :
    p.Safe ∧ ∀ a, p.enabled a = true → ((p.step a).Safe ↔ p.Spares a) := by
  have hp := h.owned
  have hwf := h.wf
  refine ⟨hp.safe, fun a he => ⟨fun hsafe => ?_, fun ha => (hp.step hwf ha).safe⟩⟩
  have hq := hwf.step he
  cases a with
  | construct name mt sz dirOk fileOk => trivial
  | resize h sz ok => trivial
  | close h =>
    intro t
    by_contra hne
    obtain ⟨f, hf⟩ := Option.ne_none_iff_exists'.mp hne
    exact not_safe_of_closed hq (disableTracing_ok hwf h).2.1 (disableTracing_frame p h).2.2.1 hf
      hsafe
  | delete h =>
    intro t
    by_contra hne
    obtain ⟨f, hf⟩ := Option.ne_none_iff_exists'.mp hne
    exact not_safe_of_closed hq (delete_closed hwf h) (disableTracing_frame p h).2.2.1 hf hsafe
  | maybeCreateMtTraceFile h t ok => trivial
  | threadExit h t => trivial

/-- One KiB for each level. -/
def oneKiB : Sizes := fun _ => 1

/-- The thread ends before the handle is closed. -/
def exitThenClose : Process :=
  (((init.step (.construct [97] true oneKiB true true)).step (.maybeCreateMtTraceFile 0 1 true)).step
    (.threadExit 0 1)).step (.close 0)

theorem trace_files_deleted_once_exit_then_close :
    exitThenClose.Safe ∧ ∀ a, exitThenClose.enabled a = true →
      ((exitThenClose.step a).Safe ↔ exitThenClose.Spares a) := by
  refine trace_files_deleted_once (.step (.step (.step (.step .init trivial rfl) trivial rfl)
    trivial rfl) (fun t => ?_) rfl)
  simp [Process.step, construct, register, newHandle, insertName, setHandle, TraceHandle.new,
    Process.maybeCreateMtTraceFile, newTraceFile, setThreadFile, Process.threadExit,
    deleteTraceFile, init]

/-- A thread creates its file, the handle is closed, the thread ends. -/
theorem deleted_twice : ∃ p, Reachable p
    ∧ init.run [.construct [97] true oneKiB true true, .maybeCreateMtTraceFile 0 1 true, .close 0,
        .threadExit 0 1] = some p
    ∧ p.deletions 0 = 2 ∧ ¬ p.Safe := by
  have hrun : init.run [.construct [97] true oneKiB true true, .maybeCreateMtTraceFile 0 1 true,
      .close 0, .threadExit 0 1] = some _ := rfl
  exact ⟨_, Reachable.run .init hrun, hrun, rfl, fun h => absurd (h.2 0) (by decide)⟩

end Process

end QuickTrace.Lifetime
