/-
QuickTrace.Tail.System — one writer and one qttail on the same file.

The system is the trace file and the reader of all its levels. In one step
the writer traces a message on some level, or qttail calls `nextTsc`, or it
calls `tailBuffer` on the level that was chosen. `sent` and `prints` are for
the statements only: what was recorded since the reader started, and every
printed line together with the message whose record stood at the cursor, if
there is one. `tailBuffer_eq` says what `tailBuffer` comes to.
-/
import QuickTrace.Ring.TraceFileTheorems
import QuickTrace.Tail.Follows
import QuickTrace.Tail.CatOne

namespace QuickTrace

open QuickTrace.Lib RingBuf Level

/-- A message of the file: its level and its record. -/
abbrev Sent := Fin NumTraceLevels × Recorded

/-- A printed line and the message it was read from. -/
structure Print where
  line : Line
  origin : Option Sent

/-- The file, its reader, and what was recorded and printed. -/
structure System where
  tf : TraceFile
  qttail : Tail
  sent : List Sent
  prints : List Print

namespace System

/-- One step of the writer or of qttail. -/
inductive Action where
  | write (i : Fin NumTraceLevels) (h : Hit)
  | nextTsc
  | tailBuffer (curTsc : UInt64)

variable (msgs : Messages) (n : Nat) (spec : SizeSpec) (logStart : Nat)

/-- `initialize`: a reader for each level, fast-forwarded. -/
def start (tf : TraceFile) : Option System :=
  ((List.finRange NumTraceLevels).mapM fun (i : Fin NumTraceLevels) =>
    match (RingBuffer.create i (spec.levelStart logStart i) (spec.levelEnd logStart i)).fastforward
        tf.mem msgs true (spec.levelSize i) with
    | .ok rb => rb
    | .error _ => none).map fun rbs =>
  { tf, qttail := { rbs, next := none, out := Output.empty, corruptions := [] },
    sent := [], prints := [] }

/-- The message whose record stands at the cursor of a level. -/
def origin (s : System) (bufNum : Nat) : Option Sent :=
  if h : bufNum < NumTraceLevels then
    s.qttail.rbs[bufNum]?.bind fun rb =>
      (recordAt (spec.levelStart logStart ⟨bufNum, h⟩) (s.tf.ring ⟨bufNum, h⟩) rb.cur).map
        (Prod.mk ⟨bufNum, h⟩)
  else none

/-- One step. -/
def step (s : System) : Action → System
  | .write i h =>
    { s with tf := s.tf.trace n i h, sent := s.sent ++ [(i, ⟨(s.tf.log i).rb.startPos, h⟩)] }
  | .nextTsc => { s with qttail := s.qttail.nextTsc s.tf.mem }
  | .tailBuffer curTsc =>
    match s.qttail.next with
    | none => s
    | some (tsc, bufNum) =>
      match s.qttail.tailBuffer s.tf.mem msgs true tsc curTsc.toNat bufNum with
      | none => s
      | some (_, t) =>
        { s with
          qttail := t
          prints := s.prints ++ (t.out.lines.drop s.qttail.out.lines.length).map fun line =>
            { line, origin := s.origin spec logStart bufNum } }

/-- The messages that were printed from their own records. -/
def origins (s : System) : List Sent := s.prints.filterMap Print.origin

/-- What the writer may record, and a current timestamp larger than all
recorded ones. -/
def Allowed (s : System) : Action → Prop
  | .write _ h => TraceFile.WriteOk (Described msgs) n s.tf h
  | .nextTsc => True
  | .tailBuffer curTsc => ∀ i, ∀ e ∈ (s.tf.ring i).log, e.hit.tsc.toNat < curTsc.toNat

/-- The writer changes no byte of a message that was not printed yet. -/
def Spares (s : System) : Action → Prop
  | .write i h => ∀ p ∈ s.sent, p ∉ s.origins →
      Untouched n ((s.tf.log i).rb.trace n s.tf.cs h).2.2 p.2
  | _ => True

/-- The states after any sequence of steps that are all `ok`. -/
def Runs (ok : System → Action → Prop) : System → System → Prop :=
  Relation.ReflTransGen fun s s' => ∃ a, ok s a ∧ s' = s.step msgs n spec logStart a

end System

/-! ## The readers of a file -/

/-- There is one reader for each level, and it satisfies `P`. -/
structure Readers (P : Fin NumTraceLevels → RingBuffer → Prop) (rbs : List RingBuffer) :
    Prop where
  length : rbs.length = NumTraceLevels
  each : ∀ (i : Fin NumTraceLevels) rb, rbs[i.val]? = some rb → P i rb

namespace Readers

variable {P Q : Fin NumTraceLevels → RingBuffer → Prop} {rbs : List RingBuffer}

theorem get (h : Readers P rbs) (i : Fin NumTraceLevels) :
    ∃ rb, rbs[i.val]? = some rb ∧ P i rb := by
  have hlt : i.val < rbs.length := by rw [h.length]; exact i.isLt
  exact ⟨rbs[i.val], List.getElem?_eq_getElem hlt, h.each i _ (List.getElem?_eq_getElem hlt)⟩

/-- The index of a reader is a level. -/
theorem index (h : Readers P rbs) {k : Nat} {rb : RingBuffer} (hk : rbs[k]? = some rb) :
    ∃ i : Fin NumTraceLevels, i.val = k ∧ P i rb := by
  obtain ⟨hlt, -⟩ := List.getElem?_eq_some_iff.mp hk
  rw [h.length] at hlt
  exact ⟨⟨k, hlt⟩, rfl, h.each ⟨k, hlt⟩ rb hk⟩

theorem imp (h : Readers P rbs) (himp : ∀ i rb, P i rb → Q i rb) : Readers Q rbs :=
  ⟨h.length, fun i rb hk => himp i rb (h.each i rb hk)⟩

/-- One reader moves. -/
theorem set (h : Readers P rbs) (i : Fin NumTraceLevels) {rb' : RingBuffer} (hi : Q i rb')
    (hne : ∀ j rb, j ≠ i → P j rb → Q j rb) : Readers Q (rbs.set i.val rb') := by
  refine ⟨by rw [List.length_set, h.length], fun j rb hk => ?_⟩
  rw [List.getElem?_set] at hk
  split at hk
  · rename_i heq
    obtain rfl : i = j := Fin.ext heq
    split at hk
    · cases hk; exact hi
    · cases hk
  · rename_i hij
    exact hne j rb (fun h => hij (by rw [h])) (h.each j rb hk)

end Readers

/-! ## What qttail does -/

namespace Tail

variable {m : Mem} {msgs : Messages}

/-- `tailBuffer` when tailing. -/
theorem tailBuffer_eq (m : Mem) (msgs : Messages) {t : Tail} (tsc curTsc : Nat) {bufNum : Nat}
    {rb : RingBuffer} (hk : t.rbs[bufNum]? = some rb) :
    ∃ ok next corruptions, t.tailBuffer m msgs true tsc curTsc bufNum
      = some (ok, ⟨t.rbs.set bufNum (rb.afterDump (rb.dump m msgs true tsc curTsc t.out).1),
          next, (rb.dump m msgs true tsc curTsc t.out).2, corruptions⟩) := by
  unfold tailBuffer
  simp only [hk]
  rcases rb.dump m msgs true tsc curTsc t.out with ⟨(e | ⟨ok, rb'⟩), out⟩
  · exact ⟨_, _, _, rfl⟩
  · exact ⟨_, _, _, rfl⟩

theorem tailBuffer_none {t : Tail} {tsc curTsc bufNum : Nat} (hk : t.rbs[bufNum]? = none) :
    t.tailBuffer m msgs true tsc curTsc bufNum = some (false, t) := by
  unfold tailBuffer
  simp only [hk]

end Tail

end QuickTrace
