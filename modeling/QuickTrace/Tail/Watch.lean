/-
QuickTrace.Tail.Watch — files that are deleted and re-created while they are
tailed.

`FileTail` is the object `Tail` with what `Tail.lean` leaves out: the file
descriptor, the mapping, the status and the header. `Watch` is a directory
with the tails of its files; it gets the inotify events and decides whether
the directory is watched for modifications. The functions return `Stop` where
the process would not go on: at an assertion of `statusIs`, at a use of the
header when it is not mapped, and where the source ends the process itself.

`FileTail.Ok` and `Watch.Ok` are the invariants; each function has one lemma
that says what it comes to (`statusIs_spec`, `initialize_spec`, and so on),
and `watch_sound` is about every sequence of events and readings.
-/
import QuickTrace.Tail.Tail
import QuickTrace.Ring.TraceFile
import QuickTrace.Lib.Result
import Mathlib.Data.List.AList

namespace QuickTrace

open QuickTrace.Lib

/-! ## The file -/

/-- `Tail::Status`. -/
inductive Status where
  | initializing
  | active
  | deletePending
  | reinitPending
  | reinitReady
  deriving DecidableEq

/-- What a file shows when it is looked at: whether `monotime1` is far enough
behind `monotime0`, the other fields of the header, the bytes, and the
descriptors. -/
structure Contents where
  usable : Bool
  version : UInt32
  fileHeaderSize : Nat
  logCount : Nat
  logSizes : Nat → Nat
  tsc1 : Nat
  mem : Mem
  msgs : Messages

/-- The options of `qttail` that the tail looks at. -/
structure Options where
  tail : Bool
  levelEnabled : Nat → Bool

/-- Why a call does not return. -/
inductive Stop where
  /-- An assertion of `statusIs` fails. -/
  | assertion
  /-- The header is used and not mapped. -/
  | unmapped
  /-- `pexit`, `exit`, or an exception nobody catches. -/
  | exit
  deriving DecidableEq

/-- `minimumVersionSupported`. -/
def minimumVersionSupported : UInt32 := 2

namespace Contents

/-- The new readers of the enabled levels. -/
def readers (file : Contents) (options : Options) : List RingBuffer :=
  ((List.range file.logCount).filter options.levelEnabled).map fun i =>
    let logStart := file.fileHeaderSize + ((List.range i).map fun j => file.logSizes j * 1024).sum
    RingBuffer.create i logStart (logStart + file.logSizes i * 1024)

/-- The readers at the end of the file or at its first message; `none` is an
exit, or a reader that runs out of the file. -/
def position (file : Contents) (options : Options) (skipToEnd : Bool) : Option (List RingBuffer) :=
  if skipToEnd then
    (file.readers options).mapM fun rb =>
      ((rb.fastforward file.mem file.msgs options.tail rb.end_).toOption).join
  else (file.readers options).mapM (RingBuffer.rewind file.mem file.msgs options.tail)

end Contents

/-! ## Tail -/

/-- The object `Tail`: whether `fd_` is open, whether `tfh_` points to a
mapping, and the readers with the cached choice `next_`. -/
structure FileTail where
  options : Options
  fd : Bool
  tfh : Bool
  status : Status
  tsc1 : Nat
  tail : Tail

namespace FileTail

/-- What `tfh_` points to. -/
def header (t : FileTail) (file : Contents) : Except Stop Contents :=
  if t.tfh then .ok file else .error .unmapped

def cleanup (t : FileTail) : FileTail := { t with tfh := false, fd := false }

/-- `statusIs`. -/
def statusIs (status : Status) (t : FileTail) : Except Stop FileTail :=
  if status = t.status then .ok t
  else
    match status with
    | .initializing =>
      if t.status = .reinitReady then .ok { t with status } else .error .assertion
    | .active => if t.status = .initializing then .ok { t with status } else .error .assertion
    | .deletePending | .reinitPending =>
      let t := if t.status = .initializing then t.cleanup else t
      .ok { t with status }
    | .reinitReady => if t.status ≠ .reinitPending then .ok t else .ok { t with status }

/-- The part of `initialize` that opens the file and maps it. -/
def openFile (t : FileTail) : FileTail :=
  if !t.fd then { t with fd := true, tfh := true } else t

/-- The part of `initialize` behind the test of `monotime1`. -/
def load (file : Contents) (skipToEnd : Bool) (t : FileTail) : Except Stop FileTail :=
  if file.version < minimumVersionSupported then .error .exit
  else if NumTraceLevels < file.logCount then .error .exit
  else
    match file.position t.options skipToEnd with
    | none => .error .exit
    | some rbs =>
      statusIs .active { t with tail := { t.tail with rbs }, tsc1 := file.tsc1 }

/-- `initialize`; the first component is its result. -/
def initializeFile (file : Contents) (skipToEnd : Bool) (t : FileTail) :
    Except Stop (Bool × FileTail) := do
  let t ← t.statusIs .initializing
  let t := t.openFile
  let tfh ← t.header file
  if tfh.usable then (t.load tfh skipToEnd).map fun t => (true, t)
  else .ok (false, t)

/-- The constructor. -/
def create (options : Options) (skipToEnd : Bool) (file : Contents) : Except Stop FileTail :=
  let t : FileTail :=
    { options, fd := false, tfh := false, status := .reinitReady, tsc1 := 0
      tail := { rbs := [], next := none, out := Output.empty, corruptions := [] } }
  (t.initializeFile file skipToEnd).map Prod.snd

/-- The part of `nextTsc` in front of the loop: whether there is a file to
read. -/
def ready (file : Contents) (t : FileTail) : Except Stop (Bool × FileTail) := do
  let r ← if t.status = .initializing then t.initializeFile file false else .ok (true, t)
  if !r.1 then .ok (false, r.2)
  else if r.2.tfh then .ok (true, r.2)
  else if r.2.status ≠ .reinitReady then .ok (false, r.2)
  else r.2.initializeFile file false

/-- The loop of `nextTsc` and what follows it. -/
def choose (file : Contents) (t : FileTail) : Except Stop FileTail := do
  let tfh ← t.header file
  let t := { t with tail := t.tail.nextTsc tfh.mem }
  if t.tail.next.isSome then .ok t
  else if t.status = .deletePending ∨ t.status = .reinitPending ∨ t.status = .reinitReady then
    .ok t.cleanup
  else do
    let tfh ← t.header file
    .ok (if t.tsc1 ≠ tfh.tsc1 then { t with tsc1 := tfh.tsc1 } else t)

/-- `nextTsc`. -/
def nextTsc (file : Contents) (t : FileTail) : Except Stop FileTail :=
  if t.tail.next.isSome then .ok t
  else do
    let r ← t.ready file
    if r.1 then r.2.choose file else .ok r.2

/-- `tailBuffer`, which is called with the choice of `nextTsc`. -/
def tailBuffer (file : Contents) (curTsc : Nat) (t : FileTail) : Except Stop FileTail :=
  match t.tail.next with
  | none => .ok t
  | some (tsc, bufNum) => do
    let tfh ← t.header file
    match t.tail.tailBuffer tfh.mem tfh.msgs t.options.tail tsc curTsc bufNum with
    | none => .error .exit
    | some r => .ok { t with tail := r.2 }

end FileTail

/-! ## Watch -/

/-- The bits of an inotify mask. -/
structure Mask where
  create : Bool
  delete : Bool
  modify : Bool

/-- A watched directory: the mask it is watched with and the tails of its
files. -/
structure Watch where
  mask : Mask
  tails : AList fun _ : Text => FileTail

namespace Watch

/-- `watchForModificationsIs`; `inotify_add_watch` replaces the mask. -/
def watchForModificationsIs (on : Bool) (w : Watch) : Watch :=
  if w.tails.entries.any fun x => x.2.status = .reinitPending then w
  else { w with mask := ⟨true, true, on⟩ }

/-- The tail of a file changes. -/
def setTail (w : Watch) (name : Text) (t : FileTail) : Watch :=
  { w with tails := w.tails.insert name t }

/-- `process`. -/
def process (event : Mask) (name : Text) (w : Watch) : Except Stop Watch :=
  if event.create then
    match w.tails.lookup name with
    | none => .ok w
    | some t =>
      let w := w.watchForModificationsIs true
      (t.statusIs .reinitPending).map (w.setTail name)
  else if event.delete then
    match w.tails.lookup name with
    | none => .ok w
    | some t =>
      let w := w.watchForModificationsIs false
      (t.statusIs .deletePending).map (w.setTail name)
  else if event.modify then
    match w.tails.lookup name with
    | none => .ok w
    | some t =>
      (t.statusIs .reinitReady).map fun t => (w.setTail name t).watchForModificationsIs false
  else .ok w

/-- The constructor of `Watch`, and one file after the other that
`TailControl` inserts; a name that is there already stays. -/
def start (options : Options) (skipToEnd : Bool) (files : List (Text × Contents)) :
    Except Stop Watch :=
  files.foldlM (fun w f => (FileTail.create options skipToEnd f.2).map fun t =>
    if (w.tails.lookup f.1).isSome then w else w.setTail f.1 t) ⟨⟨true, true, false⟩, ∅⟩

/-- What happens: an event, or a tail is asked for its next message or told
to print it. -/
inductive Action where
  | event (mask : Mask) (name : Text)
  | nextTsc (name : Text) (file : Contents)
  | tailBuffer (name : Text) (file : Contents) (curTsc : Nat)

/-- One of the tails does something. -/
def update (w : Watch) (name : Text) (f : FileTail → Except Stop FileTail) : Except Stop Watch :=
  match w.tails.lookup name with
  | none => .ok w
  | some t => (f t).map (w.setTail name)

/-- One action. -/
def step (w : Watch) : Action → Except Stop Watch
  | .event mask name => w.process mask name
  | .nextTsc name file => w.update name (FileTail.nextTsc file)
  | .tailBuffer name file curTsc => w.update name (FileTail.tailBuffer file curTsc)

/-- A sequence of actions. -/
def run (w : Watch) (as : List Action) : Except Stop Watch := as.foldlM step w

end Watch

/-! ## One tail -/

namespace FileTail

variable {t : FileTail}

/-- The invariant of a tail between two calls: the mapping and the descriptor
go together, they are only missing while a new file is waited for, and a
choice is only there when the file can be read. -/
structure Ok (t : FileTail) : Prop where
  fd : t.fd = t.tfh
  mapped : t.tfh = false →
    t.status = .deletePending ∨ t.status = .reinitPending ∨ t.status = .reinitReady
  choice : t.tail.next ≠ none → t.tfh = true ∧ t.status ≠ .initializing

/-- A tail that has not read anything of its file yet. -/
structure Fresh (t : FileTail) : Prop where
  fd : t.fd = t.tfh
  status : t.status = .initializing ∧ t.tfh = true ∨ t.status = .reinitReady ∧ t.tfh = false
  choice : t.tail.next = none

theorem Fresh.ok (h : t.Fresh) : t.Ok where
  fd := h.fd
  mapped := fun ht => by
    rcases h.status with ⟨-, h'⟩ | ⟨h', -⟩
    · rw [ht] at h'
      cases h'
    · exact .inr (.inr h')
  choice := fun hn => absurd h.choice hn

theorem header_eq (h : t.tfh = true) (file : Contents) : t.header file = .ok file := if_pos h

/-- A status an event asks for. -/
def Status.FromEvent (s : Status) : Prop :=
  s = .deletePending ∨ s = .reinitPending ∨ s = .reinitReady

/-- An event is taken in every status, and only one of them makes a tail wait
for a modification. -/
theorem statusIs_event (h : t.Ok) {s : Status} (hs : Status.FromEvent s) :
    ∃ t', t.statusIs s = .ok t' ∧ t'.Ok ∧ (t'.status = .reinitPending → s = .reinitPending) := by
  unfold statusIs
  split
  · rename_i heq
    exact ⟨t, rfl, h, fun hp => heq.trans hp⟩
  -- a tail that is initializing gives its file up, and has no choice
  have hdrop : ∀ s : Status, Status.FromEvent s →
      ({ (if t.status = .initializing then t.cleanup else t) with status := s } : FileTail).Ok := by
    intro s hs
    split
    · rename_i hinit
      exact ⟨rfl, fun _ => hs, fun hn => absurd hinit (h.choice hn).2⟩
    · refine ⟨h.fd, fun _ => hs, fun hn => ⟨(h.choice hn).1, ?_⟩⟩
      rcases hs with rfl | rfl | rfl <;> exact nofun
  rcases hs with rfl | rfl | rfl
  · exact ⟨_, rfl, hdrop _ (.inl rfl), nofun⟩
  · exact ⟨_, rfl, hdrop _ (.inr (.inl rfl)), fun _ => rfl⟩
  · dsimp only
    split
    · rename_i hne
      exact ⟨t, rfl, h, fun hp => absurd hp hne⟩
    · exact ⟨_, rfl, ⟨h.fd, fun _ => .inr (.inr rfl), fun hn => ⟨(h.choice hn).1, nofun⟩⟩, nofun⟩

/-- What `initialize` leaves behind: a file that is mapped, of which nothing
has been chosen, and the tail is active if the result is `true`. -/
structure Initialized (r : Bool × FileTail) : Prop where
  fd : r.2.fd = r.2.tfh
  mapped : r.2.tfh = true
  choice : r.2.tail.next = none
  status : r.2.status = if r.1 then .active else .initializing

theorem Initialized.ok {r : Bool × FileTail} (h : Initialized r) : r.2.Ok where
  fd := h.fd
  mapped := fun ht => absurd (h.mapped.symm.trans ht) nofun
  choice := fun hn => absurd h.choice hn

theorem statusIs_initializing (h : t.status = .initializing ∨ t.status = .reinitReady) :
    t.statusIs .initializing = .ok { t with status := .initializing } := by
  obtain ⟨options, fd, tfh, status, tsc1, tail⟩ := t
  rcases h with rfl | rfl <;> rfl

theorem statusIs_active (h : t.status = .initializing) :
    t.statusIs .active = .ok { t with status := .active } := by
  obtain ⟨options, fd, tfh, status, tsc1, tail⟩ := t
  cases h
  rfl

/-- The levels are laid out, and the tail becomes active. -/
theorem load_spec (h : t.status = .initializing) (file : Contents) (skipToEnd : Bool) :
    Safe (· = .exit) (fun t' => t'.status = .active ∧ t'.fd = t.fd ∧ t'.tfh = t.tfh
      ∧ t'.tail.next = t.tail.next) (t.load file skipToEnd) := by
  unfold load
  split
  · exact rfl
  split
  · exact rfl
  split
  · exact rfl
  · rw [statusIs_active (by exact h)]
    exact ⟨rfl, rfl, rfl, rfl⟩

theorem openFile_eq (h : t.fd = t.tfh) : t.openFile = { t with fd := true, tfh := true } := by
  obtain ⟨options, fd, tfh, status, tsc1, tail⟩ := t
  cases h
  cases fd <;> rfl

/-- `initialize` finds its assertions true and has the file mapped when it
reads the header. -/
theorem initializeFile_spec (h : t.Fresh) (file : Contents) (skipToEnd : Bool) :
    Safe (· = .exit) Initialized (t.initializeFile file skipToEnd) := by
  have hopen := openFile_eq (t := { t with status := .initializing }) h.fd
  unfold initializeFile
  rw [statusIs_initializing (h.status.imp And.left And.left), ok_bind, hopen]
  dsimp only
  rw [header_eq rfl, ok_bind]
  split
  · refine (load_spec rfl _ skipToEnd).map fun t' ht' => ?_
    obtain ⟨hstatus, hfd, htfh, hnext⟩ := ht'
    exact ⟨hfd.trans htfh.symm, htfh, hnext.trans h.choice, hstatus⟩
  · exact ⟨rfl, rfl, h.choice, rfl⟩

/-- The constructor. -/
theorem create_spec (options : Options) (skipToEnd : Bool) (file : Contents) :
    Safe (· = .exit) (fun t => t.Ok ∧ t.status ≠ .reinitPending)
      (create options skipToEnd file) := by
  refine (initializeFile_spec ⟨rfl, .inr ⟨rfl, rfl⟩, rfl⟩ file skipToEnd).map fun r hr => ?_
  refine ⟨hr.ok, ?_⟩
  rw [hr.status]
  split <;> exact nofun

/-- What happens to a tail when it is asked for a message. -/
structure Kept (t t' : FileTail) : Prop where
  ok : t'.Ok
  waits : t'.status = .reinitPending → t.status = .reinitPending

theorem Initialized.kept {r : Bool × FileTail} (h : Initialized r) (t : FileTail) :
    Kept t r.2 where
  ok := h.ok
  waits := fun hp => by
    rw [h.status] at hp
    split at hp <;> cases hp

theorem Ok.fresh (h : t.Ok) (hs : t.status = .initializing) : t.Fresh := by
  have hnext : t.tail.next = none := by
    by_contra hn
    exact (h.choice hn).2 hs
  refine ⟨h.fd, .inl ⟨hs, ?_⟩, hnext⟩
  by_contra ht
  have hmapped := h.mapped (by simpa using ht)
  rw [hs] at hmapped
  rcases hmapped with h' | h' | h' <;> cases h'

/-- What `ready` says: a tail that may read has its file mapped, and is not
initializing. -/
structure Readies (t : FileTail) (r : Bool × FileTail) : Prop where
  kept : Kept t r.2
  choice : r.2.tail.next = none
  readable : r.1 = true → r.2.tfh = true ∧ r.2.status ≠ .initializing

theorem Initialized.readies {r : Bool × FileTail} (h : Initialized r) (t : FileTail) :
    Readies t r where
  kept := h.kept t
  choice := h.choice
  readable := fun hr => ⟨h.mapped, by rw [h.status, if_pos hr]; exact nofun⟩

theorem ready_spec (h : t.Ok) (hnext : t.tail.next = none) (file : Contents) :
    Safe (· = .exit) (Readies t) (t.ready file) := by
  unfold ready
  by_cases hs : t.status = .initializing
  · rw [if_pos hs]
    refine (initializeFile_spec (h.fresh hs) file false).bind fun r hr => ?_
    obtain ⟨ok, t'⟩ := r
    cases ok with
    | false => exact hr.readies t
    | true =>
      simp only [Bool.not_true, Bool.false_eq_true, if_false]
      rw [if_pos hr.mapped]
      exact hr.readies t
  · rw [if_neg hs, ok_bind]
    simp only [Bool.not_true, Bool.false_eq_true, if_false]
    by_cases ht : t.tfh = true
    · rw [if_pos ht]
      exact ⟨⟨h, id⟩, hnext, fun _ => ⟨ht, hs⟩⟩
    · rw [if_neg ht]
      split
      · exact ⟨⟨h, id⟩, hnext, nofun⟩
      · rename_i hready
        have hfresh : t.Fresh :=
          ⟨h.fd, .inr ⟨not_not.mp hready, by simpa using ht⟩, hnext⟩
        exact (initializeFile_spec hfresh file false).imp fun r hr => hr.readies t

/-- The loop reads a mapped file; without a message the tail of an old file
gives it up. -/
theorem choose_spec (h : t.Ok) (ht : t.tfh = true) (hs : t.status ≠ .initializing)
    (file : Contents) : Safe (· = .exit) (Kept t) (t.choose file) := by
  have hok : ∀ tail : Tail, ({ t with tail } : FileTail).Ok := fun tail =>
    ⟨h.fd, fun hn => absurd (ht.symm.trans hn) nofun, fun _ => ⟨ht, hs⟩⟩
  unfold choose
  rw [header_eq ht, ok_bind]
  dsimp only
  split
  · exact ⟨hok _, id⟩
  · rename_i hnone
    have hnext : (t.tail.nextTsc file.mem).next = none := by simpa using hnone
    split
    · rename_i hold
      exact ⟨⟨rfl, fun _ => hold, fun hn => absurd hnext hn⟩, id⟩
    · rw [header_eq (by exact ht), ok_bind]
      split
      · obtain ⟨hfd, hmapped, hchoice⟩ := hok (t.tail.nextTsc file.mem)
        exact ⟨⟨hfd, hmapped, hchoice⟩, id⟩
      · exact ⟨hok _, id⟩

/-- `nextTsc` uses the header only when it is mapped. -/
theorem nextTsc_spec (h : t.Ok) (file : Contents) :
    Safe (· = .exit) (Kept t) (t.nextTsc file) := by
  unfold nextTsc
  split
  · exact ⟨h, id⟩
  · rename_i hnone
    have hnext : t.tail.next = none := by simpa using hnone
    refine (ready_spec h hnext file).bind fun r hr => ?_
    split
    · rename_i hread
      obtain ⟨ht, hs⟩ := hr.readable hread
      exact (choose_spec hr.kept.ok ht hs file).imp fun t' h' =>
        ⟨h'.ok, fun hp => hr.kept.waits (h'.waits hp)⟩
    · exact hr.kept

/-- `tailBuffer` has its file mapped, as there is a choice. -/
theorem tailBuffer_spec (h : t.Ok) (file : Contents) (curTsc : Nat) :
    Safe (· = .exit) (Kept t) (t.tailBuffer file curTsc) := by
  unfold tailBuffer
  split
  · exact ⟨h, id⟩
  · rename_i tsc bufNum hnext
    obtain ⟨ht, hs⟩ := h.choice (by rw [hnext]; exact nofun)
    rw [header_eq ht, ok_bind]
    split
    · exact rfl
    · exact ⟨⟨h.fd, fun hn => absurd (ht.symm.trans hn) nofun, fun _ => ⟨ht, hs⟩⟩, id⟩

end FileTail

/-! ## The directory -/

namespace Watch

variable {w : Watch}

/-- Some file waits for a modification. -/
def Waits (w : Watch) : Prop :=
  ∃ name t, w.tails.lookup name = some t ∧ t.status = .reinitPending

/-- The invariant of a directory. -/
structure Ok (w : Watch) : Prop where
  each : ∀ name t, w.tails.lookup name = some t → t.Ok
  modify : w.Waits → w.mask.modify = true

/-- What `watchForModificationsIs` looks for. -/
theorem any_iff (w : Watch) :
    (w.tails.entries.any fun x => x.2.status = .reinitPending) = true ↔ w.Waits := by
  rw [List.any_eq_true]
  constructor
  · rintro ⟨⟨name, t⟩, hmem, hp⟩
    exact ⟨name, t, AList.mem_lookup_iff.mpr hmem, of_decide_eq_true hp⟩
  · rintro ⟨name, t, hlookup, hp⟩
    exact ⟨⟨name, t⟩, AList.mem_lookup_iff.mp hlookup, decide_eq_true hp⟩

theorem watchForModificationsIs_tails (on : Bool) (w : Watch) :
    (w.watchForModificationsIs on).tails = w.tails := by
  unfold watchForModificationsIs
  split <;> rfl

/-- The mask changes only while no file waits. -/
theorem watchForModificationsIs_mask (on : Bool) (w : Watch) (hw : w.Waits → w.mask.modify = true) :
    (w.watchForModificationsIs on).mask.modify = true ↔ w.Waits ∨ on = true := by
  unfold watchForModificationsIs
  by_cases h : w.Waits
  · rw [if_pos ((any_iff w).mpr h)]
    exact ⟨fun _ => .inl h, fun _ => hw h⟩
  · rw [if_neg fun h' => h ((any_iff w).mp h')]
    exact ⟨.inr, fun h' => h'.resolve_left h⟩

/-- The other files keep their tails. -/
theorem lookup_setTail {name name' : Text} {t t' : FileTail}
    (h : (w.setTail name t).tails.lookup name' = some t') :
    t' = t ∨ w.tails.lookup name' = some t' := by
  by_cases hn : name' = name
  · subst hn
    rw [setTail, AList.lookup_insert] at h
    exact .inl (Option.some.inj h).symm
  · rw [setTail, AList.lookup_insert_ne hn] at h
    exact .inr h

theorem each_setTail (h : ∀ name t, w.tails.lookup name = some t → t.Ok) (name : Text)
    {t : FileTail} (ht : t.Ok) :
    ∀ name' t', (w.setTail name t).tails.lookup name' = some t' → t'.Ok := by
  intro name' t' h'
  rcases lookup_setTail h' with rfl | h'
  · exact ht
  · exact h name' t' h'

theorem waits_setTail {name : Text} {t : FileTail} (h : (w.setTail name t).Waits) :
    t.status = .reinitPending ∨ w.Waits := by
  obtain ⟨name', t', hlookup, hp⟩ := h
  rcases lookup_setTail hlookup with rfl | hlookup
  · exact .inl hp
  · exact .inr ⟨name', t', hlookup, hp⟩

theorem waits_watchForModificationsIs (on : Bool) (w : Watch) :
    (w.watchForModificationsIs on).Waits ↔ w.Waits := by
  unfold Waits
  rw [watchForModificationsIs_tails]

theorem Ok.watchForModificationsIs (h : w.Ok) (on : Bool) : (w.watchForModificationsIs on).Ok where
  each := by
    rw [watchForModificationsIs_tails]
    exact h.each
  modify := fun hw => (watchForModificationsIs_mask on w h.modify).mpr
    (.inl ((waits_watchForModificationsIs on w).mp hw))

/-- A tail changes, and waits only if the directory is watched. -/
theorem Ok.setTail (h : w.Ok) (name : Text) {t : FileTail} (ht : t.Ok)
    (hp : t.status = .reinitPending → w.mask.modify = true) : (w.setTail name t).Ok where
  each := each_setTail h.each name ht
  modify := fun hw => (waits_setTail hw).elim hp h.modify

/-- An event, whichever it is, is taken. The mask is set before the status in
two branches and after it in the third. -/
theorem process_ok (h : w.Ok) (event : Mask) (name : Text) :
    ∃ w', w.process event name = .ok w' ∧ w'.Ok := by
  unfold process
  cases hlookup : w.tails.lookup name with
  | none =>
    refine ⟨w, ?_, h⟩
    split
    · rfl
    · split
      · rfl
      · split <;> rfl
  | some t =>
    have ht := h.each name t hlookup
    split
    · obtain ⟨t', heq, ht', -⟩ := FileTail.statusIs_event ht (s := .reinitPending) (.inr (.inl rfl))
      simp only [heq]
      refine ⟨_, rfl, (h.watchForModificationsIs true).setTail name ht' fun _ => ?_⟩
      exact (watchForModificationsIs_mask true w h.modify).mpr (.inr rfl)
    · split
      · obtain ⟨t', heq, ht', hp⟩ := FileTail.statusIs_event ht (s := .deletePending) (.inl rfl)
        simp only [heq]
        exact ⟨_, rfl, (h.watchForModificationsIs false).setTail name ht' fun h' => nomatch hp h'⟩
      · split
        · obtain ⟨t', heq, ht', hp⟩ := FileTail.statusIs_event ht (s := .reinitReady) (.inr (.inr rfl))
          simp only [heq]
          exact ⟨_, rfl, (h.setTail name ht' fun h' => nomatch hp h').watchForModificationsIs false⟩
        · exact ⟨w, rfl, h⟩

/-- A tail that only reads keeps the invariant of the directory. -/
theorem update_safe (h : w.Ok) (name : Text) {f : FileTail → Except Stop FileTail}
    (hf : ∀ t, t.Ok → Safe (· = .exit) (FileTail.Kept t) (f t)) :
    Safe (· = .exit) Ok (w.update name f) := by
  unfold update
  cases hlookup : w.tails.lookup name with
  | none => exact h
  | some t =>
    refine (hf t (h.each name t hlookup)).map fun t' ht' => ?_
    exact h.setTail name ht'.ok fun hp => h.modify ⟨name, t, hlookup, ht'.waits hp⟩

/-- The step lemma. -/
theorem step_safe (h : w.Ok) (a : Action) : Safe (· = .exit) Ok (w.step a) := by
  cases a with
  | event mask name =>
    obtain ⟨w', heq, h'⟩ := process_ok h mask name
    rw [step, heq]
    exact h'
  | nextTsc name file => exact update_safe h name fun t ht => FileTail.nextTsc_spec ht file
  | tailBuffer name file curTsc =>
    exact update_safe h name fun t ht => FileTail.tailBuffer_spec ht file curTsc

/-- The run lemma. -/
theorem run_safe (h : w.Ok) (as : List Action) : Safe (· = .exit) Ok (w.run as) :=
  Safe.foldlM (fun _ a h => step_safe h a) as h

/-- New tails on files that exist. -/
theorem start_safe (options : Options) (skipToEnd : Bool) (files : List (Text × Contents)) :
    Safe (· = .exit) Ok (start options skipToEnd files) := by
  have hnone : ∀ name t, (∅ : AList fun _ : Text => FileTail).lookup name ≠ some t := by
    intro name t
    rw [AList.lookup_empty]
    exact nofun
  have hempty : Ok ⟨⟨true, true, false⟩, ∅⟩ :=
    ⟨fun name t h => absurd h (hnone name t), fun ⟨name, t, h, _⟩ => absurd h (hnone name t)⟩
  unfold start
  refine Safe.foldlM (fun w f h => ?_) files hempty
  refine (FileTail.create_spec options skipToEnd f.2).map fun t ht => ?_
  split
  · exact h
  · exact h.setTail f.1 ht.1 fun hp => absurd hp ht.2

end Watch

/-- What is wanted of a directory: a header is only missing while its file is
deleted or a new one is waited for, and while one is waited for the directory
is watched for modifications. -/
structure Watch.Sound (w : Watch) : Prop where
  unmapped : ∀ name t, w.tails.lookup name = some t → t.tfh = false →
    t.status = .deletePending ∨ t.status = .reinitPending ∨ t.status = .reinitReady
  watched : ∀ name t, w.tails.lookup name = some t → t.status = .reinitPending →
    w.mask.modify = true

/-- Any number of files in a directory, any events and any readings of them:
no assertion of `statusIs` fails, the header is never used when it is not
mapped, and every state is sound. -/
theorem watch_sound (options : Options) (skipToEnd : Bool) (files : List (Text × Contents))
    (as : List Watch.Action) :
    Safe (· = .exit) Watch.Sound (Watch.start options skipToEnd files >>= (Watch.run · as)) := by
  refine (Watch.start_safe options skipToEnd files).bind fun w h => ?_
  refine (Watch.run_safe h as).imp fun w h => ⟨fun name t hlookup => ?_, fun name t hlookup hp => ?_⟩
  · exact (h.each name t hlookup).mapped
  · exact h.modify ⟨name, t, hlookup, hp⟩

/-- A file without levels, whose header is complete or not. -/
def emptyFile (usable : Bool) : Contents :=
  ⟨usable, 5, 0, 0, fun _ => 0, 0, fun _ => 0, fun _ => none⟩

/-- A file that is created anew and looked at before its header is
complete. -/
example : ((Watch.start ⟨true, fun _ => true⟩ true [([97], emptyFile true)] >>= (Watch.run ·
      [.event ⟨true, false, false⟩ [97], .nextTsc [97] (emptyFile true),
        .event ⟨false, false, true⟩ [97], .nextTsc [97] (emptyFile false)])).toOption.bind
      fun w => w.tails.lookup [97]).map (fun t => (t.status, t.tfh))
    = some (.initializing, true) := by decide +kernel

end QuickTrace
