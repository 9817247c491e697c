/-
QuickTrace.Tail.WatchLoop — `qttail`, its directories and the kernel.

The kernel queues an event for a directory that is watched, under the
descriptor of its watch. `TailControl::watch` polls, reads as many events as
fit its buffer and hands them over; in between the tails are read. All this
happens in any order; the directories stay what they are, and the queue does
not overflow.

`sent` remembers what has happened in the directories; the objects have a log
of what they were told. `Ok` is the invariant, `step_safe` the step lemma, and
`watch_loop_good` is about every run behind the constructor: no assertion
fails, no access is outside of the buffer, and every event is handled once,
in its order and by the object of its own directory.
-/
import QuickTrace.Tail.InotifyEvents
import QuickTrace.Tail.Watched

namespace QuickTrace

open QuickTrace.Lib

/-! ## poll and read -/

/-- What `poll` returns: an error, nothing in time, or `POLLERR` on stdout
and `POLLIN` on the inotify descriptor. -/
inductive PollResult where
  | failed
  | timeout
  | ready (pollerr pollin : Bool)
  deriving DecidableEq

/-- What `read` returns: an error, `EAGAIN`, or some bytes. -/
inductive ReadResult where
  | failed
  | again
  | bytes (buf : Mem) (len : Nat)

namespace Told

variable {D : Type} [DecidableEq D]

/-- The part of `watch` that reads. -/
def readEvents (dir : Text → Option D) (r : ReadResult) (t : Told D) : Except ReadStop (Told D) :=
  match r with
  | .failed => .error (.stop .exit)
  | .again => .ok t
  | .bytes buf len => t.eventLoop dir buf len 0

/-- `watch`. -/
def watch (dir : Text → Option D) (doPoll : Bool) (poll : PollResult) (r : ReadResult)
    (t : Told D) : Except ReadStop (Told D) :=
  if doPoll then
    match poll with
    | .failed => .error (.stop .exit)
    | .timeout => .ok t
    | .ready pollerr pollin =>
      if pollerr then .error (.stop .exit)
      else if pollin then t.readEvents dir r
      else .ok t
  else t.readEvents dir r

/-- A tail of one of the directories is read. -/
def update (wd : Int) (name : Text) (f : FileTail → Except Stop FileTail) (t : Told D) :
    Except Stop (Told D) :=
  match t.control.watches.lookup wd with
  | none => .ok t
  | some w => (w.watch.update name f).map fun v =>
      { t with control := { t.control with
          watches := t.control.watches.insert wd { w with watch := v } } }

end Told

/-! ## The system -/

/-- `qttail`, the queue of its inotify descriptor, and what has happened in
the directories so far. -/
structure WatchLoop (D : Type) where
  told : Told D
  queue : List InotifyEvent
  sent : List (DirEvent D)

namespace WatchLoop

/-- What happens: an event in a directory, a call of `watch` with the content
of its buffer before, or with a `read` that fails, and what the tails do. -/
inductive Action (D : Type) where
  | event (d : D) (e : InotifyEvent)
  | watch (doPoll : Bool) (poll : PollResult) (buf : Option Mem)
  | nextTsc (wd : Int) (name : Text) (file : Contents)
  | tailBuffer (wd : Int) (name : Text) (file : Contents) (curTsc : Nat)

/-- `sizeof( buf )`. -/
def bufSize : Nat := 4096

/-- The events that one `read` returns: as many as fit. -/
def taken : Nat → List InotifyEvent → List InotifyEvent
  | _, [] => []
  | room, e :: es =>
    if e.bytes.length ≤ room then e :: taken (room - e.bytes.length) es else []

/-- The kernel's side of `read`. -/
def readResult (es : List InotifyEvent) (buf : Option Mem) : ReadResult :=
  match buf with
  | none => .failed
  | some buf =>
    if es.isEmpty then .again
    else .bytes (buf.store 0 (es.flatMap InotifyEvent.bytes)) (es.flatMap InotifyEvent.bytes).length

/-- Whether `watch` comes to its `read`. -/
def reads (doPoll : Bool) : PollResult → Bool
  | .ready _ pollin => !doPoll || pollin
  | _ => !doPoll

variable {D : Type} [DecidableEq D]

/-- What an event would tell which directory's object. -/
def tells (dir : Text → Option D) (c : TailControl D) (e : InotifyEvent) : DirEvent D :=
  ((c.watches.lookup e.wd.toInt).bind fun w => dir w.dirname, e.mask, e.shownName)

/-- One action. An event that the kernel cannot send does not happen. -/
def step (dir : Text → Option D) (s : WatchLoop D) : Action D → Except ReadStop (WatchLoop D)
  | .event d e =>
    .ok (if s.told.control.inotify.wdOf d = some e.wd.toInt ∧ e.Ok then
      { s with queue := s.queue ++ [e], sent := s.sent ++ [(some d, e.mask, e.shownName)] }
    else s)
  | .watch doPoll poll buf =>
    let es := taken bufSize s.queue
    (s.told.watch dir doPoll poll (readResult es buf)).map fun told =>
      { s with told, queue := if reads doPoll poll then s.queue.drop es.length else s.queue }
  | .nextTsc wd name file =>
    ((s.told.update wd name (FileTail.nextTsc file)).map fun told => { s with told }).mapError .stop
  | .tailBuffer wd name file curTsc =>
    ((s.told.update wd name (FileTail.tailBuffer file curTsc)).map fun told =>
      { s with told }).mapError .stop

/-- A run. -/
def run (dir : Text → Option D) (s : WatchLoop D) (as : List (Action D)) :
    Except ReadStop (WatchLoop D) := as.foldlM (step dir) s

/-- After construction. -/
def start (c : TailControl D) : WatchLoop D := ⟨⟨c, []⟩, [], []⟩

/-- The constructor and a run. -/
def tail (dir : Text → Option D) (options : Options) (contents : Text → Contents)
    (filenames : List Text) (as : List (Action D)) : Except ReadStop (WatchLoop D) :=
  (TailControl.create dir options contents filenames).mapError .stop >>= fun c =>
    run dir (start c) as

/-- What the kernel sends when the queue has overflown. -/
def overflow : InotifyEvent := ⟨-1, 0x4000, 0, []⟩

/-- What is wanted: every directory is sound, and what the objects were told
is what has happened in their directories, up to what is still queued. An
overflow would end the process. -/
structure Good (dir : Text → Option D) (s : WatchLoop D) : Prop where
  sound : ∀ wd w, s.told.control.watches.lookup wd = some w → w.watch.Sound
  order : s.sent = s.told.log ++ s.queue.map (tells dir s.told.control)
  fatal : s.told.handle dir overflow = .error .assertion

/-! ## The objects -/

variable {dir : Text → Option D} {c c' : TailControl D} {t t' : Told D}

/-- The invariant of the objects: each is in order, stands under a positive
descriptor, and what the kernel watches has an object of its directory. -/
structure Objects (dir : Text → Option D) (c : TailControl D) : Prop where
  each : ∀ wd w, c.watches.lookup wd = some w → w.watch.Ok
  positive : ∀ wd w, c.watches.lookup wd = some w → 1 ≤ wd
  active : ∀ d wd, c.inotify.wdOf d = some wd →
    ∃ w, c.watches.lookup wd = some w ∧ dir w.dirname = some d

/-- The kernel watches the same, and the objects keep their directories. -/
structure Keeps (c c' : TailControl D) : Prop where
  inotify : c'.inotify = c.inotify
  dirname : ∀ wd, (c'.watches.lookup wd).map WatchObject.dirname
    = (c.watches.lookup wd).map WatchObject.dirname

omit [DecidableEq D] in
theorem Keeps.refl (c : TailControl D) : Keeps c c := ⟨rfl, fun _ => rfl⟩

omit [DecidableEq D] in
theorem Keeps.trans {c'' : TailControl D} (h : Keeps c c') (h' : Keeps c' c'') : Keeps c c'' :=
  ⟨h'.inotify.trans h.inotify, fun wd => (h'.dirname wd).trans (h.dirname wd)⟩

omit [DecidableEq D] in
theorem Keeps.tells (h : Keeps c c') (e : InotifyEvent) :
    WatchLoop.tells dir c' e = WatchLoop.tells dir c e := by
  have hbind : ∀ o : Option WatchObject, (o.bind fun w => dir w.dirname)
      = (o.map WatchObject.dirname).bind dir := by
    rintro (_ | w)
    · rfl
    · rfl
  rw [WatchLoop.tells, WatchLoop.tells, hbind, hbind, h.dirname]

omit [DecidableEq D] in
/-- An object changes. -/
theorem Objects.insert (h : Objects dir c) {wd : Int} {w : WatchObject}
    (hw : c.watches.lookup wd = some w) (w' : WatchObject) (hok : w'.watch.Ok)
    (hdir : w'.dirname = w.dirname) :
    Objects dir { c with watches := c.watches.insert wd w' }
      ∧ Keeps c { c with watches := c.watches.insert wd w' } := by
  have hlookup : ∀ x, (c.watches.insert wd w').lookup x
      = if x = wd then some w' else c.watches.lookup x := by
    intro x
    by_cases hx : x = wd
    · rw [hx, AList.lookup_insert, if_pos rfl]
    · rw [AList.lookup_insert_ne hx, if_neg hx]
  refine ⟨⟨fun x v hv => ?_, fun x v hv => ?_, fun d x hx => ?_⟩, rfl, fun x => ?_⟩
  · rw [hlookup] at hv
    split at hv
    · cases hv
      exact hok
    · exact h.each x v hv
  · rw [hlookup] at hv
    split at hv
    · rename_i heq
      rw [heq]
      exact h.positive wd w hw
    · exact h.positive x v hv
  · obtain ⟨v, hv, hd⟩ := h.active d x hx
    rw [hlookup]
    split
    · rename_i heq
      rw [heq] at hv
      cases hw.symm.trans hv
      exact ⟨w', rfl, hdir ▸ hd⟩
    · exact ⟨v, hv, hd⟩
  · rw [hlookup]
    split
    · rename_i heq
      rw [heq, hw, Option.map_some, Option.map_some, hdir]
    · rfl

/-- What some events do: they are told, and the objects stay in order. -/
structure Handled (dir : Text → Option D) (t : Told D) (es : List InotifyEvent) (t' : Told D) :
    Prop where
  objects : Objects dir t'.control
  keeps : Keeps t.control t'.control
  log : t'.log = t.log ++ es.map (tells dir t.control)

omit [DecidableEq D] in
theorem Handled.nil (h : Objects dir t.control) : Handled dir t [] t :=
  ⟨h, .refl _, (List.append_nil _).symm⟩

omit [DecidableEq D] in
theorem Handled.trans {t'' : Told D} {es es' : List InotifyEvent} (h : Handled dir t es t')
    (h' : Handled dir t' es' t'') : Handled dir t (es ++ es') t'' where
  objects := h'.objects
  keeps := h.keeps.trans h'.keeps
  log := by
    have htells : es'.map (tells dir t'.control) = es'.map (tells dir t.control) :=
      List.map_congr_left fun e _ => h.keeps.tells e
    rw [h'.log, h.log, htells, List.map_append, List.append_assoc]

/-- An event of a directory that is watched is handled. -/
theorem Objects.handle (h : Objects dir t.control) {e : InotifyEvent} {d : D}
    (hd : t.control.inotify.wdOf d = some e.wd.toInt) :
    ∃ t', t.handle dir e = .ok t' ∧ Handled dir t [e] t' := by
  obtain ⟨w, hw, hdir⟩ := h.active d _ hd
  obtain ⟨x, hx⟩ := WatchObject.process_known hdir hd (Mask.ofBits e.mask) e.shownName
  obtain ⟨v, hv, hok⟩ := Watch.process_ok (h.each _ w hw) (Mask.ofBits e.mask) e.shownName
  rw [hv] at hx
  have hinsert := h.insert hw { w with wd := x, watch := v } hok rfl
  refine ⟨⟨{ t.control with watches :=
      t.control.watches.insert e.wd.toInt { w with wd := x, watch := v } },
    t.log ++ [(dir w.dirname, e.mask, e.shownName)]⟩, ?_, hinsert.1, hinsert.2, ?_⟩
  · rw [Told.handle, Told.dispatch, hw]
    dsimp only
    rw [hx]
    rfl
  · rw [List.map_singleton, tells, hw]
    rfl

/-- Any number of them. -/
theorem Objects.handleAll : ∀ (es : List InotifyEvent) {t : Told D}, Objects dir t.control →
    (∀ e ∈ es, ∃ d, t.control.inotify.wdOf d = some e.wd.toInt) →
    ∃ t', es.foldlM (Told.handle dir) t = .ok t' ∧ Handled dir t es t'
  | [], t, h, _ => ⟨t, rfl, .nil h⟩
  | e :: es, t, h, he => by
      obtain ⟨⟨d, hd⟩, hes⟩ := List.forall_mem_cons.mp he
      obtain ⟨t₁, ht₁, h₁⟩ := h.handle hd
      obtain ⟨t', ht', h'⟩ := h₁.objects.handleAll es (by rw [h₁.keeps.inotify]; exact hes)
      exact ⟨t', by rw [List.foldlM_cons, ht₁, ok_bind, ht'], h₁.trans h'⟩

omit [DecidableEq D] in
/-- A tail of an object is read. -/
theorem Objects.update (h : Objects dir t.control) (wd : Int) (name : Text)
    {f : FileTail → Except Stop FileTail}
    (hf : ∀ t, t.Ok → Safe (· = .exit) (FileTail.Kept t) (f t)) :
    Safe (· = .exit) (Handled dir t []) (t.update wd name f) := by
  unfold Told.update
  cases hw : t.control.watches.lookup wd with
  | none => exact .nil h
  | some w =>
    refine (Watch.update_safe (h.each wd w hw) name hf).map fun v hv => ?_
    have hinsert := h.insert hw { w with watch := v } hv rfl
    exact ⟨hinsert.1, hinsert.2, (List.append_nil _).symm⟩

/-! ## A call of watch -/

/-- One `read` takes the front of the queue. -/
theorem taken_append : ∀ (room : Nat) (q : List InotifyEvent),
    taken room q ++ q.drop (taken room q).length = q
  | _, [] => rfl
  | room, e :: q => by
      rw [taken]
      split
      · rw [List.cons_append, List.length_cons, List.drop_succ_cons, taken_append _ q]
      · rfl

/-- Whatever is read is handled. -/
theorem Objects.readEvents (h : Objects dir t.control) {es : List InotifyEvent}
    (hes : ∀ e ∈ es, e.Ok ∧ ∃ d, t.control.inotify.wdOf d = some e.wd.toInt) (buf : Option Mem) :
    Safe (· = .stop .exit) (Handled dir t es) (t.readEvents dir (readResult es buf)) := by
  cases buf with
  | none => exact rfl
  | some buf =>
    unfold readResult
    dsimp only
    split
    · rename_i hempty
      rw [List.isEmpty_iff.mp hempty]
      exact .nil h
    · obtain ⟨t', ht', hok⟩ := h.handleAll es fun e he => (hes e he).2
      rw [Told.readEvents, Told.eventLoop_events es (fun e he => (hes e he).1)
        (Mem.holds_store buf 0 _) (Nat.zero_add _), ht']
      exact hok

/-- The process goes on unless `poll` or `read` fail, or stdout is closed. -/
theorem watch_safe (h : Objects dir t.control) {es : List InotifyEvent} {r : ReadResult}
    (hr : Safe (· = .stop .exit) (Handled dir t es) (t.readEvents dir r)) (doPoll : Bool)
    (poll : PollResult) :
    Safe (· = .stop .exit) (Handled dir t (if reads doPoll poll then es else []))
      (t.watch dir doPoll poll r) := by
  unfold Told.watch
  cases doPoll with
  | false =>
    rw [if_neg Bool.false_ne_true, if_pos (by cases poll <;> rfl)]
    exact hr
  | true =>
    rw [if_pos rfl]
    cases poll with
    | failed => exact rfl
    | timeout => exact .nil h
    | ready pollerr pollin =>
      cases pollerr with
      | true => exact rfl
      | false =>
        cases pollin with
        | true => exact hr
        | false => exact .nil h

/-! ## Every run -/

variable {s : WatchLoop D}

/-- The invariant of a run. -/
structure Ok (dir : Text → Option D) (s : WatchLoop D) : Prop where
  objects : Objects dir s.told.control
  queued : ∀ e ∈ s.queue, e.Ok ∧ ∃ d, s.told.control.inotify.wdOf d = some e.wd.toInt
  order : s.sent = s.told.log ++ s.queue.map (tells dir s.told.control)

omit [DecidableEq D] in
/-- The front of the queue is handled. -/
theorem Ok.handled (h : Ok dir s) {es rest : List InotifyEvent} (hqueue : es ++ rest = s.queue)
    (ht : Handled dir s.told es t) : Ok dir { s with told := t, queue := rest } where
  objects := ht.objects
  queued := fun e he => by
    rw [ht.keeps.inotify]
    exact h.queued e (hqueue ▸ List.mem_append_right _ he)
  order := by
    have htells : rest.map (tells dir t.control) = rest.map (tells dir s.told.control) :=
      List.map_congr_left fun e _ => ht.keeps.tells e
    rw [h.order, ← hqueue, List.map_append, ht.log, List.append_assoc, htells]

/-- The step lemma. -/
theorem step_safe (h : Ok dir s) (a : Action D) :
    Safe (· = .stop .exit) (Ok dir) (step dir s a) := by
  cases a with
  | event d e =>
    rw [step, safe_ok]
    split
    · rename_i hsent
      obtain ⟨hd, he⟩ := hsent
      refine ⟨h.objects, fun e' he' => ?_, ?_⟩
      · rcases List.mem_append.mp he' with he' | he'
        · exact h.queued e' he'
        · rw [List.mem_singleton.mp he']
          exact ⟨he, d, hd⟩
      · obtain ⟨w, hw, hdir⟩ := h.objects.active d _ hd
        have htells : tells dir s.told.control e = (some d, e.mask, e.shownName) := by
          rw [tells, hw, Option.bind_some, hdir]
        dsimp only
        rw [h.order, List.map_append, List.map_singleton, htells, List.append_assoc]
    · exact h
  | watch doPoll poll buf =>
    have hes : ∀ e ∈ taken bufSize s.queue,
        e.Ok ∧ ∃ d, s.told.control.inotify.wdOf d = some e.wd.toInt := by
      intro e he
      refine h.queued e ?_
      rw [← taken_append bufSize s.queue]
      exact List.mem_append_left _ he
    rw [step]
    refine (watch_safe h.objects (h.objects.readEvents hes buf) doPoll poll).map fun t ht => ?_
    refine h.handled ?_ ht
    split
    · exact taken_append bufSize s.queue
    · rfl
  | nextTsc wd name file =>
    have hupdate := h.objects.update wd name fun t ht => FileTail.nextTsc_spec ht file
    rw [step]
    refine Safe.mapError (hupdate.map fun t ht => h.handled rfl ht) ?_
    rintro e rfl
    rfl
  | tailBuffer wd name file curTsc =>
    have hupdate := h.objects.update wd name fun t ht => FileTail.tailBuffer_spec ht file curTsc
    rw [step]
    refine Safe.mapError (hupdate.map fun t ht => h.handled rfl ht) ?_
    rintro e rfl
    rfl

/-- The run lemma. -/
theorem run_safe (h : Ok dir s) (as : List (Action D)) :
    Safe (· = .stop .exit) (Ok dir) (run dir s as) :=
  Safe.foldlM (fun _ a h => step_safe h a) as h

theorem Ok.good (h : Ok dir s) : Good dir s where
  sound := fun wd w hw => by
    have hok := h.objects.each wd w hw
    exact ⟨fun name t ht => (hok.each name t ht).mapped,
      fun name t ht hp => hok.modify ⟨name, t, ht, hp⟩⟩
  order := h.order
  fatal := by
    have hnone : s.told.control.watches.lookup overflow.wd.toInt = none := by
      cases hw : s.told.control.watches.lookup overflow.wd.toInt with
      | none => rfl
      | some w => exact absurd (h.objects.positive _ w hw) (by decide)
    rw [Told.handle, Told.dispatch, hnone]

/-! ## Construction -/

variable {options : Options} {contents : Text → Contents} {files : List Text}

/-- What the loop of the constructor keeps. -/
structure Built (dir : Text → Option D) (options : Options) (contents : Text → Contents)
    (files : List Text) (c : TailControl D) : Prop where
  inv : TailControl.Inv dir options contents (TailControl.spellings files) files c
  positive : ∀ wd w, c.watches.lookup wd = some w → 1 ≤ wd

/-- A directory is opened under its spelling. -/
theorem openDir_positive (h : Built dir options contents files c) (t : Text) :
    Safe (· = .exit) (fun c' : TailControl D => ∀ wd w, c'.watches.lookup wd = some w → 1 ≤ wd)
      (c.openDir dir t) := by
  cases hknown : c.watchesByDir.lookup t with
  | some wd =>
    rw [TailControl.openDir_known hknown]
    exact h.positive
  | none =>
    cases hd : dir t with
    | none =>
      rw [TailControl.openDir_exits hknown hd]
      exact rfl
    | some d =>
      cases hwd : c.inotify.wdOf d with
      | none =>
        rw [TailControl.openDir_opens hknown hd hwd h.inv.free]
        intro wd w hw
        by_cases heq : wd = c.inotify.next
        · rw [heq]
          exact h.inv.next
        · rw [TailControl.opening_watches_other heq] at hw
          exact h.positive wd w hw
      | some wd =>
        obtain ⟨hpos, w, hw, -⟩ := h.inv.active d wd hwd
        rw [TailControl.openDir_closes hknown hd hwd hpos hw]
        exact h.positive

omit [DecidableEq D] in
/-- A tail is inserted at a descriptor that is there. -/
theorem insertTail_positive (h : ∀ wd w, c.watches.lookup wd = some w → 1 ≤ wd) (t name : Text)
    (tl : FileTail) (wd : Int) (w : WatchObject)
    (hw : (c.insertTail t name tl).watches.lookup wd = some w) : 1 ≤ wd := by
  unfold TailControl.insertTail at hw
  split at hw
  · exact h wd w hw
  · split at hw
    · exact h wd w hw
    · rename_i x _ _ v hv
      split at hw
      · exact h wd w hw
      · by_cases heq : wd = x
        · rw [heq]
          exact h x v hv
        · rw [AList.lookup_insert_ne heq] at hw
          exact h wd w hw

/-- One round of the constructor. -/
theorem Built.addFile (h : Built dir options contents files c) (f : Text) :
    Safe (· = .exit) (Built dir options contents (files ++ [f]))
      (c.addFile dir options contents f) := by
  have hpositive : Safe (· = .exit)
      (fun c' : TailControl D => ∀ wd w, c'.watches.lookup wd = some w → 1 ≤ wd)
      (c.addFile dir options contents f) := by
    unfold TailControl.addFile
    refine (openDir_positive h (TailControl.dirname f)).bind fun c₁ h₁ => ?_
    refine (FileTail.create_spec options true (contents f)).bind fun t _ => ?_
    exact fun wd w hw => insertTail_positive h₁ _ _ t wd w hw
  exact (hpositive.and_of_ok fun c' hc' => h.inv.addFile hc').imp fun c' hc' => ⟨hc'.2, hc'.1⟩

/-- The loop of the constructor. -/
theorem Built.foldlM : ∀ (rest : List Text) {files : List Text} {c : TailControl D},
    Built dir options contents files c →
    Safe (· = .exit) (Built dir options contents (files ++ rest))
      (rest.foldlM (TailControl.addFile dir options contents) c)
  | [], files, c, h => by
      rw [List.append_nil]
      exact h
  | f :: rest, files, c, h => by
      rw [List.foldlM_cons]
      refine (h.addFile f).bind fun c' h' => ?_
      have hrest := Built.foldlM rest h'
      rwa [List.append_assoc] at hrest

/-- After construction every tail is fresh. -/
theorem Built.objects (h : Built dir options contents files c) : Objects dir c where
  each := fun wd w hw => by
    have hmade : ∀ name t, w.watch.tails.lookup name = some t →
        t.Ok ∧ t.status ≠ .reinitPending := by
      intro name t ht
      obtain ⟨f, -, -, -, hcreate⟩ := h.inv.made wd w name t hw ht
      have hspec := FileTail.create_spec options true (contents f)
      rw [hcreate] at hspec
      exact hspec
    exact ⟨fun name t ht => (hmade name t ht).1,
      fun ⟨name, t, ht, hp⟩ => absurd hp (hmade name t ht).2⟩
  positive := h.positive
  active := fun d wd hwd => (h.inv.active d wd hwd).2

/-- Any names, any directories and any run: the process is only ended where
the source ends it, no event is lost or handled twice, and each is handled by
the object of its own directory. -/
theorem watch_loop_good (dir : Text → Option D) (options : Options) (contents : Text → Contents)
    (filenames : List Text) (as : List (Action D)) :
    Safe (· = .stop .exit) (Good dir) (tail dir options contents filenames as) := by
  have hinit : Built dir options contents [] (⟨Inotify.init1, ∅, ∅⟩ : TailControl D) :=
    ⟨.init, fun wd w hw => by simp [AList.lookup_empty] at hw⟩
  unfold tail
  refine (Safe.mapError (Built.foldlM filenames hinit) fun e he => he ▸ rfl).bind fun c hc => ?_
  have hstart : Ok dir (start c) := ⟨hc.objects, (fun e he => by cases he), rfl⟩
  exact (run_safe hstart as).imp fun s hs => hs.good

end WatchLoop

end QuickTrace
