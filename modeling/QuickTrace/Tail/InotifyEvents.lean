/-
QuickTrace.Tail.InotifyEvents — the events that `qttail` reads.

A `read` of the inotify descriptor returns events one behind the other, each
four words and as many bytes of a name as the last word says.
`TailControl::watch` goes from one event to the next, looks up the watch of
its descriptor and hands it over. Every access to the buffer is checked
against the number of bytes that were read.

`Watch.lean` has what an event does to the tails of a directory; here the
object also asks for its directory anew, which may give it another
descriptor (`WatchObject.process`). `eventLoop_events` is the refinement: for
whatever events the kernel has written, the loop over the bytes is the loop
over the events.
-/
import QuickTrace.Tail.TailControl
import QuickTrace.Dict.MsgDesc

namespace QuickTrace

open QuickTrace.Lib

/-! ## Events -/

/-- `inotify_event`, the name with its padding. -/
structure InotifyEvent where
  wd : Int32
  mask : UInt32
  cookie : UInt32
  name : List UInt8
  deriving DecidableEq

/-- `IN_CREATE`, `IN_DELETE` and `IN_MODIFY` of a mask. -/
def Mask.ofBits (mask : UInt32) : Mask where
  create := mask &&& 0x100 != 0
  delete := mask &&& 0x200 != 0
  modify := mask &&& 0x2 != 0

/-- `process` looks at the name. -/
def Mask.any (mask : Mask) : Bool := mask.create || mask.delete || mask.modify

namespace InotifyEvent

/-- The bytes of the event. -/
def bytes (e : InotifyEvent) : List UInt8 :=
  leBytes 4 e.wd.toUInt32.toNat ++ (leBytes 4 e.mask.toNat ++ (leBytes 4 e.cookie.toNat
    ++ (leBytes 4 e.name.length ++ e.name)))

/-- The name has at most `NAME_MAX` bytes and a NUL, and an event of a file
has one. -/
structure Ok (e : InotifyEvent) : Prop where
  length : e.name.length ≤ 256
  name : (Mask.ofBits e.mask).any = true → 0 ∈ e.name

instance (e : InotifyEvent) : Decidable e.Ok :=
  decidable_of_iff (e.name.length ≤ 256 ∧ ((Mask.ofBits e.mask).any = true → 0 ∈ e.name))
    ⟨fun h => ⟨h.1, h.2⟩, fun h => ⟨h.length, h.name⟩⟩

/-- What is looked at of the name. -/
def shownName (e : InotifyEvent) : Text :=
  if (Mask.ofBits e.mask).any then cstring e.name else []

theorem bytes_length (e : InotifyEvent) : e.bytes.length = 16 + e.name.length := by
  simp only [bytes, List.length_append, leBytes_length]
  omega

end InotifyEvent

/-! ## The object Watch -/

namespace WatchObject

variable {D : Type} [DecidableEq D]

/-- `watchForModificationsIs`: the process ends if the directory is gone. -/
def watchForModificationsIs (dir : Text → Option D) (on : Bool) (w : WatchObject) (s : Inotify D) :
    Except Stop (WatchObject × Inotify D) :=
  if w.watch.tails.entries.any fun x => x.2.status = .reinitPending then .ok (w, s)
  else
    match dir w.dirname with
    | none => .error .exit
    | some d =>
      let r := s.addWatch d
      .ok ({ w with wd := r.1, watch := { w.watch with mask := ⟨true, true, on⟩ } }, r.2)

def setTail (w : WatchObject) (name : Text) (t : FileTail) : WatchObject :=
  { w with watch := w.watch.setTail name t }

/-- `process`. -/
def process (dir : Text → Option D) (event : Mask) (name : Text) (w : WatchObject)
    (s : Inotify D) : Except Stop (WatchObject × Inotify D) :=
  if event.create then
    match w.watch.tails.lookup name with
    | none => .ok (w, s)
    | some t => do
      let r ← w.watchForModificationsIs dir true s
      let t ← t.statusIs .reinitPending
      .ok (r.1.setTail name t, r.2)
  else if event.delete then
    match w.watch.tails.lookup name with
    | none => .ok (w, s)
    | some t => do
      let r ← w.watchForModificationsIs dir false s
      let t ← t.statusIs .deletePending
      .ok (r.1.setTail name t, r.2)
  else if event.modify then
    match w.watch.tails.lookup name with
    | none => .ok (w, s)
    | some t => do
      let t ← t.statusIs .reinitReady
      (w.setTail name t).watchForModificationsIs dir false s
  else .ok (w, s)

variable {dir : Text → Option D} {w : WatchObject} {s : Inotify D} {d : D} {wd : Int}

/-- In a directory that is watched nothing changes but the mask. -/
theorem watchForModificationsIs_known (hd : dir w.dirname = some d) (hs : s.wdOf d = some wd)
    (on : Bool) : ∃ x, w.watchForModificationsIs dir on s
      = .ok ({ w with wd := x, watch := w.watch.watchForModificationsIs on }, s) := by
  unfold watchForModificationsIs Watch.watchForModificationsIs
  split
  · exact ⟨w.wd, rfl⟩
  · refine ⟨wd, ?_⟩
    rw [hd]
    dsimp only
    rw [Inotify.addWatch, hs]

/-- In a directory that is watched the object does to its tails what the
directory does, and the kernel keeps what it has. -/
theorem process_known (hd : dir w.dirname = some d) (hs : s.wdOf d = some wd) (event : Mask)
    (name : Text) : ∃ x, w.process dir event name s
      = (w.watch.process event name).map fun v => ({ w with wd := x, watch := v }, s) := by
  unfold process Watch.process
  cases hlookup : w.watch.tails.lookup name with
  | none =>
    refine ⟨w.wd, ?_⟩
    split
    · rfl
    · split
      · rfl
      · split
        · rfl
        · rfl
  | some t =>
    split
    · obtain ⟨x, hx⟩ := watchForModificationsIs_known hd hs true
      refine ⟨x, ?_⟩
      simp only [hx, ok_bind]
      cases t.statusIs .reinitPending with
      | error e => rfl
      | ok t => rfl
    · split
      · obtain ⟨x, hx⟩ := watchForModificationsIs_known hd hs false
        refine ⟨x, ?_⟩
        simp only [hx, ok_bind]
        cases t.statusIs .deletePending with
        | error e => rfl
        | ok t => rfl
      · split
        · dsimp only
          cases t.statusIs .reinitReady with
          | error e => exact ⟨w.wd, rfl⟩
          | ok t' => exact watchForModificationsIs_known (w := w.setTail name t') hd hs false
        · exact ⟨w.wd, rfl⟩

end WatchObject

/-! ## The loop -/

/-- What ends the loop early: an access behind the bytes that were read, or a
stop of the process. -/
inductive ReadStop where
  | outside
  | stop (s : Stop)
  deriving DecidableEq

/-- A word of the buffer. -/
def word (buf : Mem) (len p : Nat) : Except ReadStop Nat :=
  if p + 4 ≤ len then .ok (buf.load p 4) else .error .outside

/-- The C string at `p`, with `n` bytes to the end. -/
def cname (buf : Mem) : Nat → Nat → Except ReadStop Text
  | 0, _ => .error .outside
  | n + 1, p => if buf p = 0 then .ok [] else (cname buf n (p + 1)).map (buf p :: ·)

/-- What the object of a directory was told: the bits of the event and the
name. -/
abbrev DirEvent (D : Type) := Option D × UInt32 × Text

/-- The objects, and what they were told so far. -/
structure Told (D : Type) where
  control : TailControl D
  log : List (DirEvent D)

namespace Told

variable {D : Type} [DecidableEq D]

/-- The watch of a descriptor gets an event. -/
def dispatch (dir : Text → Option D) (t : Told D) (wd : Int) (mask : UInt32) (name : Text) :
    Except Stop (Told D) :=
  match t.control.watches.lookup wd with
  | none => .error .assertion
  | some w => (w.process dir (Mask.ofBits mask) name t.control.inotify).map fun r =>
      { control := { t.control with
          watches := t.control.watches.insert wd r.1, inotify := r.2 }
        log := t.log ++ [(dir w.dirname, mask, name)] }

/-- The event at `p`; `process` looks at the name if there is something to
do. -/
def processAt (dir : Text → Option D) (buf : Mem) (len p : Nat) (t : Told D) :
    Except ReadStop (Told D) := do
  let wd ← word buf len p
  let wd := (UInt32.ofNat wd).toInt32.toInt
  match t.control.watches.lookup wd with
  | none => .error (.stop .assertion)
  | some _ => do
    let mask ← word buf len (p + 4)
    let mask := UInt32.ofNat mask
    let name ← if (Mask.ofBits mask).any then cname buf (len - (p + 16)) (p + 16) else .ok []
    (t.dispatch dir wd mask name).mapError .stop

/-- The loop of `watch` over the bytes that were read. -/
def eventLoop (dir : Text → Option D) (buf : Mem) (len : Nat) (t : Told D) (p : Nat) :
    Except ReadStop (Told D) :=
  if p < len then do
    let t ← t.processAt dir buf len p
    let n ← word buf len (p + 12)
    eventLoop dir buf len t (p + 16 + n)
  else .ok t
termination_by len - p

/-- One event. -/
def handle (dir : Text → Option D) (t : Told D) (e : InotifyEvent) : Except Stop (Told D) :=
  t.dispatch dir e.wd.toInt e.mask e.shownName

/-! ## Bytes and events -/

variable {dir : Text → Option D} {buf : Mem} {len p : Nat} {e : InotifyEvent} {t : Told D}

theorem word_of_holds {v : Nat} (h : buf.Holds p (leBytes 4 v)) (hp : p + 4 ≤ len)
    (hv : v < 2 ^ 32) : word buf len p = .ok v := by
  rw [word, if_pos hp, Mem.load_leBytes h]
  exact congrArg Except.ok (Nat.mod_eq_of_lt hv)

/-- A name in the buffer is read as far as its NUL. -/
theorem cname_of_holds : ∀ {x : List UInt8} {n p : Nat}, buf.Holds p x → x.length ≤ n → 0 ∈ x →
    cname buf n p = .ok (cstring x)
  | [], _, _, _, _, h0 => by cases h0
  | c :: x, n + 1, p, h, hn, h0 => by
      rw [Mem.holds_cons] at h
      rw [cname, h.1]
      by_cases hc : c = 0
      · subst hc
        rfl
      · have h0' : 0 ∈ x := (List.mem_cons.mp h0).resolve_left fun heq => hc heq.symm
        rw [if_neg hc, cname_of_holds h.2 (Nat.le_of_succ_le_succ hn) h0', cstring, cstring,
          List.takeWhile_cons_of_pos (by simpa using hc)]
        rfl

/-- An event in the buffer is handed over with its own name. -/
theorem processAt_of_holds (he : e.Ok) (h : buf.Holds p e.bytes) (hp : p + e.bytes.length ≤ len) :
    t.processAt dir buf len p = (t.handle dir e).mapError .stop
      ∧ word buf len (p + 12) = .ok e.name.length := by
  rw [InotifyEvent.bytes_length] at hp
  simp only [InotifyEvent.bytes, Mem.holds_append, leBytes_length] at h
  obtain ⟨hwd, hmask, -, hlen, hname⟩ := h
  have h1 : word buf len p = .ok e.wd.toUInt32.toNat :=
    word_of_holds hwd (by omega) e.wd.toUInt32.toNat_lt
  have h2 : word buf len (p + 4) = .ok e.mask.toNat :=
    word_of_holds hmask (by omega) e.mask.toNat_lt
  have h3 : word buf len (p + 12) = .ok e.name.length :=
    word_of_holds hlen (by omega) (Nat.lt_of_le_of_lt he.length (by decide))
  refine ⟨?_, h3⟩
  have hid : (UInt32.ofNat e.wd.toUInt32.toNat).toInt32 = e.wd := by
    rw [UInt32.ofNat_toNat, Int32.toInt32_toUInt32]
  rw [processAt, h1, ok_bind, h2, hid, handle]
  dsimp only
  cases hlookup : t.control.watches.lookup e.wd.toInt with
  | none =>
    rw [dispatch, hlookup]
    rfl
  | some w =>
    dsimp only
    rw [ok_bind, UInt32.ofNat_toNat]
    by_cases hany : (Mask.ofBits e.mask).any = true
    · rw [if_pos hany, cname_of_holds hname (by omega) (he.name hany), InotifyEvent.shownName,
        if_pos hany]
      rfl
    · rw [if_neg hany, InotifyEvent.shownName, if_neg hany]
      rfl

/-- The loop over the bytes is the loop over the events. -/
theorem eventLoop_events : ∀ (es : List InotifyEvent) {t : Told D} {p : Nat},
    (∀ e ∈ es, e.Ok) → buf.Holds p (es.flatMap InotifyEvent.bytes) →
    p + (es.flatMap InotifyEvent.bytes).length = len →
    eventLoop dir buf len t p = (es.foldlM (handle dir) t).mapError .stop
  | [], t, p, _, _, hlen => by
      rw [eventLoop, if_neg (by simpa using hlen.ge)]
      rfl
  | e :: es, t, p, he, hbuf, hlen => by
      obtain ⟨he, hes⟩ := List.forall_mem_cons.mp he
      rw [List.flatMap_cons, Mem.holds_append] at hbuf
      rw [List.flatMap_cons, List.length_append] at hlen
      have hbytes := e.bytes_length
      obtain ⟨hprocess, hword⟩ : t.processAt dir buf len p = (t.handle dir e).mapError .stop
          ∧ word buf len (p + 12) = .ok e.name.length :=
        processAt_of_holds he hbuf.1 (by omega)
      rw [eventLoop, if_pos (by omega), hprocess, List.foldlM_cons]
      cases hhandle : t.handle dir e with
      | error s => rfl
      | ok t' =>
        show (Except.ok t' >>= _ : Except ReadStop (Told D)) = _
        rw [ok_bind, hword, ok_bind, ok_bind, Nat.add_assoc, ← hbytes]
        exact eventLoop_events es hes hbuf.2 (by omega)

end Told

end QuickTrace
