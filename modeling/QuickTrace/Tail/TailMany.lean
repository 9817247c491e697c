/-
QuickTrace.Tail.TailMany — several files with their writers, and one qttail.

`tailMany` reads the clock, asks one file after the other for its next
message, prints the one with the smallest timestamp, and returns when no file
has a message and all of them were deleted. The writers go on at any moment
between two of its calls; an IN_DELETE is processed in `watch`, between two
rounds. A file that is created anew is left to `Recreate`.

`RingBuffer::lastPrintedTsc_` and `std::cout` are one `Output` for all files;
the `out` of the tails is set when they print. `sent`, `prints` and `begun`
are for the statements only. `view` is what stands of all this for one file,
which is a `System` of a writer and a reader.
-/
import QuickTrace.Tail.Watch
import QuickTrace.Tail.EarlyClock

namespace QuickTrace

open QuickTrace.Lib RingBuf Level

/-- What a program knows about its trace file: the descriptors, the limit of
its strings, the sizes of the levels and where they start. -/
structure TracedFile where
  msgs : Messages
  n : Nat
  spec : SizeSpec
  logStart : Nat

/-- What the file shows to qttail. -/
def TracedFile.contents (c : TracedFile) (tf : TraceFile) (tsc1 : Nat) : Contents where
  usable := true
  version := 5
  fileHeaderSize := c.logStart
  logCount := NumTraceLevels
  logSizes := fun i => if h : i < NumTraceLevels then c.spec.sz ⟨i, h⟩ else 0
  tsc1 := tsc1
  mem := tf.mem
  msgs := c.msgs

/-- A trace file with the timestamp in its header, and its tail. -/
structure TailedFile where
  tf : TraceFile
  tsc1 : Nat
  tail : FileTail

/-- A message that was recorded; `late` says that qttail had learned of the
deletion of the file before. -/
structure SentTo (k : Nat) where
  file : Fin k
  msg : Sent
  late : Bool

/-- A printed line; `begun` is how many messages had been recorded when the
round began. -/
structure PrintOf (k : Nat) where
  file : Fin k
  print : Print
  begun : Nat

/-- The local variables of `tailMany` in a round; `looked` files have been
asked. -/
structure TailMany.Round (k : Nat) where
  curTsc : UInt64
  looked : Nat
  allFilesDeleted : Bool
  minTsc : Nat
  min : Option (Fin k × Nat)

/-- Where the loop is. -/
inductive TailMany.Loop (k : Nat) where
  | watching
  | round (r : TailMany.Round k)
  | returned

/-- The files and qttail. -/
structure TailMany (k : Nat) where
  files : Fin k → TailedFile
  out : Output
  loop : TailMany.Loop k
  sent : List (SentTo k)
  prints : List (PrintOf k)
  begun : Nat

/-- A file was asked. -/
def TailMany.Round.see {k : Nat} (r : TailMany.Round k) (f : Fin k) (t : FileTail) :
    TailMany.Round k :=
  match t.tail.next with
  | none =>
    { r with
      looked := r.looked + 1
      allFilesDeleted := r.allFilesDeleted && t.status = .deletePending }
  | some (tsc, bufNum) =>
    if tsc < r.minTsc then
      { r with looked := r.looked + 1, minTsc := tsc, min := some (f, bufNum) }
    else { r with looked := r.looked + 1 }

namespace TailMany

variable {k : Nat}

/-- What was recorded in a file. -/
def sentTo (f : Fin k) (s : TailMany k) : List Sent :=
  (s.sent.filter (·.file = f)).map SentTo.msg

/-- What was printed of a file. -/
def printsOf (f : Fin k) (s : TailMany k) : List Print :=
  (s.prints.filter (·.file = f)).map PrintOf.print

/-- One of the files, as if qttail read no other. -/
def view (f : Fin k) (s : TailMany k) : System where
  tf := (s.files f).tf
  qttail := { (s.files f).tail.tail with
    out := { s.out with lines := (s.printsOf f).map Print.line } }
  sent := s.sentTo f
  prints := s.printsOf f

/-- A tail changes. -/
def setTail (f : Fin k) (t : FileTail) (s : TailMany k) : TailMany k :=
  { s with files := Function.update s.files f { s.files f with tail := t } }

variable (cfg : Fin k → TracedFile)

/-- The bytes and the header of a file. -/
def contents (f : Fin k) (s : TailMany k) : Contents :=
  (cfg f).contents (s.files f).tf (s.files f).tsc1

/-- A trace statement; a wrap may change the timestamp in the header. -/
def write (f : Fin k) (i : Fin NumTraceLevels) (h : Hit) (tsc1 : Nat) (s : TailMany k) :
    TailMany k :=
  { s with
    files := Function.update s.files f
      { s.files f with tf := (s.files f).tf.trace (cfg f).n i h, tsc1 }
    sent := s.sent ++ [⟨f, (i, ⟨((s.files f).tf.log i).rb.startPos, h⟩),
      (s.files f).tail.status = .deletePending⟩] }

/-- `watch` processes an IN_DELETE. -/
def delete (f : Fin k) (s : TailMany k) : Except Stop (TailMany k) :=
  match s.loop with
  | .watching => ((s.files f).tail.statusIs .deletePending).map fun t => s.setTail f t
  | _ => .ok s

/-- A round begins. -/
def begin (curTsc : UInt64) (s : TailMany k) : TailMany k :=
  match s.loop with
  | .watching =>
    { s with loop := .round ⟨curTsc, 0, true, UINT64_MAX, none⟩, begun := s.sent.length }
  | _ => s

/-- A file was asked in the round. -/
def asked (f : Fin k) (t : FileTail) (r : Round k) (s : TailMany k) : TailMany k :=
  { s.setTail f t with loop := .round (r.see f t) }

/-- The next file is asked for its message. -/
def look (s : TailMany k) : Except Stop (TailMany k) :=
  match s.loop with
  | .round r =>
    if h : r.looked < k then
      ((s.files ⟨r.looked, h⟩).tail.nextTsc (s.contents cfg ⟨r.looked, h⟩)).map fun t =>
        s.asked ⟨r.looked, h⟩ t r
    else .ok s
  | _ => .ok s

/-- `minTail->tailBuffer` has written some lines. -/
def printed (f : Fin k) (tail : Tail) (ps : List Print) (s : TailMany k) : TailMany k :=
  { s.setTail f { (s.files f).tail with tail } with
    out := tail.out
    prints := s.prints ++ ps.map fun p => ⟨f, p, s.begun⟩
    loop := .watching }

/-- `minTail->tailBuffer`. -/
def print (f : Fin k) (minTsc : Nat) (curTsc : UInt64) (minBufNum : Nat) (s : TailMany k) :
    Except Stop (TailMany k) := do
  let t := (s.files f).tail
  let tfh ← t.header (s.contents cfg f)
  match ({ t.tail with out := s.out } : Tail).tailBuffer tfh.mem tfh.msgs t.options.tail minTsc
      curTsc.toNat minBufNum with
  | none => .error .exit
  | some (_, tail) =>
    .ok (s.printed f tail ((tail.out.lines.drop s.out.lines.length).map fun line =>
      ⟨line, (s.view f).origin (cfg f).spec (cfg f).logStart minBufNum⟩))

/-- The end of a round: the message is printed, or there is none. -/
def finish (s : TailMany k) : Except Stop (TailMany k) :=
  match s.loop with
  | .round r =>
    if r.looked < k then .ok s
    else
      match r.min with
      | some (f, minBufNum) => s.print cfg f r.minTsc r.curTsc minBufNum
      | none => .ok { s with loop := if r.allFilesDeleted then .returned else .watching }
  | _ => .ok s

/-- What happens. -/
inductive Action (k : Nat) where
  | write (f : Fin k) (i : Fin NumTraceLevels) (h : Hit) (tsc1 : Nat)
  | delete (f : Fin k)
  | begin (curTsc : UInt64)
  | look
  | finish

/-- One step. -/
def step (s : TailMany k) : Action k → Except Stop (TailMany k)
  | .write f i h tsc1 => .ok (s.write cfg f i h tsc1)
  | .delete f => s.delete f
  | .begin curTsc => .ok (s.begin curTsc)
  | .look => s.look cfg
  | .finish => s.finish cfg

/-- The options of `qttail` without any: all levels are enabled. -/
def allLevels : Options := ⟨true, fun _ => true⟩

/-- `TailControl` has opened the files and skipped what was in them. -/
structure Starts (tfs : Fin k → TraceFile) (s : TailMany k) : Prop where
  create : ∀ f, FileTail.create allLevels true (s.contents cfg f) = .ok (s.files f).tail
  tf : ∀ f, (s.files f).tf = tfs f
  out : s.out = Output.empty
  loop : s.loop = .watching
  sent : s.sent = []
  prints : s.prints = []
  begun : s.begun = 0

/-- The states after any sequence of steps that are all `ok`. -/
def Runs (ok : TailMany k → Action k → Prop) : TailMany k → TailMany k → Prop :=
  Relation.ReflTransGen fun s s' => ∃ a, ok s a ∧ s.step cfg a = .ok s'

/-! ## What one file sees -/

variable {cfg} {s : TailMany k} {f g : Fin k}

theorem Starts.sentTo_nil {tfs : Fin k → TraceFile} (h : Starts cfg tfs s) (f : Fin k) :
    s.sentTo f = [] := by
  unfold sentTo
  rw [h.sent]
  rfl

@[simp] theorem setTail_self (t : FileTail) :
    (s.setTail f t).files f = { s.files f with tail := t } :=
  Function.update_self ..

theorem setTail_ne (h : g ≠ f) (t : FileTail) : (s.setTail f t).files g = s.files g :=
  Function.update_of_ne h ..

@[simp] theorem write_self (i : Fin NumTraceLevels) (h : Hit) (tsc1 : Nat) :
    (s.write cfg f i h tsc1).files f
      = { s.files f with tf := (s.files f).tf.trace (cfg f).n i h, tsc1 } :=
  Function.update_self ..

theorem write_ne (hg : g ≠ f) (i : Fin NumTraceLevels) (h : Hit) (tsc1 : Nat) :
    (s.write cfg f i h tsc1).files g = s.files g :=
  Function.update_of_ne hg ..

theorem tail_write (i : Fin NumTraceLevels) (h : Hit) (tsc1 : Nat) :
    ((s.write cfg f i h tsc1).files g).tail = (s.files g).tail := by
  by_cases hg : g = f
  · subst hg; rw [write_self]
  · rw [write_ne hg]

theorem sentTo_write_self (i : Fin NumTraceLevels) (h : Hit) (tsc1 : Nat) :
    (s.write cfg f i h tsc1).sentTo f
      = s.sentTo f ++ [(i, ⟨((s.files f).tf.log i).rb.startPos, h⟩)] := by
  simp [sentTo, write]

theorem sentTo_write_ne (hg : g ≠ f) (i : Fin NumTraceLevels) (h : Hit) (tsc1 : Nat) :
    (s.write cfg f i h tsc1).sentTo g = s.sentTo g := by
  simp [sentTo, write, Ne.symm hg]

/-- The writer of the file. -/
theorem view_write_self (i : Fin NumTraceLevels) (h : Hit) (tsc1 : Nat) :
    (s.write cfg f i h tsc1).view f
      = (s.view f).step (cfg f).msgs (cfg f).n (cfg f).spec (cfg f).logStart (.write i h) := by
  unfold view
  rw [sentTo_write_self, write_self]
  rfl

/-- The writer of another file. -/
theorem view_write_ne (hg : g ≠ f) (i : Fin NumTraceLevels) (h : Hit) (tsc1 : Nat) :
    (s.write cfg f i h tsc1).view g = s.view g := by
  unfold view
  rw [sentTo_write_ne hg, write_ne hg]
  rfl

/-- What does not concern the files, what was recorded and what was printed. -/
theorem view_congr {s' : TailMany k} (hf : s'.files f = s.files f) (hout : s'.out = s.out)
    (hsent : s'.sent = s.sent) (hprints : s'.prints = s.prints) : s'.view f = s.view f := by
  unfold view sentTo printsOf
  rw [hf, hout, hsent, hprints]

theorem view_setTail_ne (h : g ≠ f) (t : FileTail) : (s.setTail f t).view g = s.view g :=
  view_congr (setTail_ne h t) rfl rfl rfl

/-- The tail of the file changes, and not what it reads. -/
theorem view_setTail_self {t : FileTail} (h : t.tail = (s.files f).tail.tail) :
    (s.setTail f t).view f = s.view f := by
  unfold view
  rw [setTail_self, h]
  rfl

/-! ## What the tails do -/

/-- A tail of a file that is not created anew: it is active and mapped, or
waits for its end, and has nothing chosen when it has given the file up. -/
structure Tracks (t : FileTail) : Prop where
  options : t.options = allLevels
  fd : t.fd = t.tfh
  status : t.status = .active ∧ t.tfh = true ∨ t.status = .deletePending
  choice : t.tfh = false → t.tail.next = none

/-- What `nextTsc` leaves behind. -/
structure Asked (m : Mem) (t t' : FileTail) : Prop where
  tracks : Tracks t'
  status : t'.status = t.status
  tail : t'.tail = if t.tfh then t.tail.nextTsc m else t.tail
  kept : t'.tail.next ≠ none → t'.tfh = t.tfh
  gone : t'.tail.next = none → t.status = .deletePending → t'.tfh = false
  mapped : t'.tfh = true → t.tfh = true

/-- A file that was given up. -/
theorem Tracks.nextTsc_unmapped {t : FileTail} (h : Tracks t) (ht : t.tfh = false)
    (file : Contents) : t.nextTsc file = .ok t ∧ Asked file.mem t t := by
  have hnext := h.choice ht
  have hs : t.status = .deletePending := h.status.resolve_left fun h' => by simp [ht] at h'
  refine ⟨?_, h, rfl, by rw [ht]; rfl, fun _ => rfl, fun _ _ => ht, id⟩
  unfold FileTail.nextTsc FileTail.ready
  simp [hnext, hs, ht, bind, Except.bind]

/-- A file with a message that was chosen before. -/
theorem Tracks.nextTsc_cached {t : FileTail} (h : Tracks t) (hnext : t.tail.next ≠ none)
    (file : Contents) : t.nextTsc file = .ok t ∧ Asked file.mem t t := by
  obtain ⟨c, hc⟩ := Option.ne_none_iff_exists'.mp hnext
  refine ⟨?_, h, rfl, ?_, fun _ => rfl, fun hn => absurd hn hnext, id⟩
  · unfold FileTail.nextTsc
    simp [hc]
  · rw [Tail.nextTsc_cached hc, ite_self]

/-- A mapped file is read; one that was deleted is given up when there is
nothing more in it. -/
theorem Tracks.nextTsc_mapped {t : FileTail} (h : Tracks t) (ht : t.tfh = true)
    (hnext : t.tail.next = none) (file : Contents) :
    ∃ t', t.nextTsc file = .ok t' ∧ Asked file.mem t t' := by
  have hready : t.status ≠ .initializing := fun hs => by
    rcases h.status with ⟨h', -⟩ | h' <;> rw [hs] at h' <;> cases h'
  have hcalls : t.nextTsc file = t.choose file := by
    unfold FileTail.nextTsc FileTail.ready
    simp [hnext, hready, ht, bind, Except.bind]
  have htail : t.tail.nextTsc file.mem = if t.tfh then t.tail.nextTsc file.mem else t.tail := by
    rw [ht, if_pos rfl]
  rw [hcalls]
  unfold FileTail.choose FileTail.header
  simp only [ht, if_true, bind, Except.bind]
  by_cases hchosen : (t.tail.nextTsc file.mem).next = none
  · simp only [hchosen, Option.isSome_none, Bool.false_eq_true, if_false]
    rcases h.status with ⟨hs, -⟩ | hs
    · have hcase : ∀ tsc1, Asked file.mem t { t with tail := t.tail.nextTsc file.mem, tsc1 } :=
        fun tsc1 => ⟨⟨h.options, h.fd, .inl ⟨hs, ht⟩, fun h' => by simp [ht] at h'⟩, rfl, htail,
          fun _ => rfl, fun _ hs' => by simp [hs] at hs', id⟩
      simp only [hs, reduceCtorEq, or_self, if_false]
      split
      · exact ⟨_, rfl, hs ▸ ht ▸ hcase _⟩
      · exact ⟨_, rfl, hs ▸ ht ▸ hcase _⟩
    · rw [if_pos (Or.inl hs)]
      exact ⟨_, rfl, ⟨h.options, rfl, .inr hs, fun _ => hchosen⟩, rfl, htail,
        fun h' => absurd hchosen h', fun _ _ => rfl, fun _ => ht⟩
  · rw [if_pos (Option.isSome_iff_ne_none.mpr hchosen)]
    exact ⟨_, rfl, ⟨h.options, h.fd.trans ht, h.status.imp_left fun h' => ⟨h'.1, rfl⟩,
      fun h' => by cases h'⟩, rfl, htail, fun _ => ht.symm, fun h' => absurd h' hchosen,
      fun _ => ht⟩

/-- `nextTsc` does not stop the process. -/
theorem Tracks.nextTsc {t : FileTail} (h : Tracks t) (file : Contents) :
    ∃ t', t.nextTsc file = .ok t' ∧ Asked file.mem t t' := by
  by_cases hnext : t.tail.next = none
  · by_cases ht : t.tfh = true
    · exact h.nextTsc_mapped ht hnext file
    · exact ⟨t, h.nextTsc_unmapped (by simpa using ht) file⟩
  · exact ⟨t, h.nextTsc_cached hnext file⟩

/-- An IN_DELETE. -/
theorem Tracks.delete {t : FileTail} (h : Tracks t) :
    t.statusIs .deletePending = .ok { t with status := .deletePending } := by
  obtain ⟨options, fd, tfh, status, tsc1, tail⟩ := t
  rcases h.status with ⟨hs, -⟩ | hs
  · dsimp only at hs
    subst hs
    rfl
  · dsimp only at hs
    subst hs
    rfl

end TailMany

end QuickTrace
