/-
QuickTrace.Ring.Level — one level with its memory and its history.

`Level` puts the writer's pointers, the counters and the file contents
together and remembers, besides, every message recorded so far and where it
started: `cur` since the last wrap, `old` in the generation before it, and
`lost` in all the generations that one has overwritten. The history is for
the proofs; no function of the source reads it.

`Inv` is the invariant of the writer. The current generation lies
contiguously from the first message on and ends at the pointer, with a zero
mark behind it; the previous one once lay in the same place, ended at the
tail pointer with a mark of ones, and everything of it that lies behind the
zero mark still stands.
-/
import QuickTrace.Lib.Layout
import QuickTrace.Ring.Encoding
import Mathlib.Logic.Relation

namespace QuickTrace

open QuickTrace.Lib RingBuf

/-! ## The state -/

/-- A recorded message and where it starts. -/
structure Recorded where
  start : Nat
  hit : Hit
  deriving DecidableEq

/-- The bytes of a recorded message. -/
def Recorded.bytes (n : Nat) (e : Recorded) : List UInt8 := e.hit.record n

@[simp] theorem Recorded.bytes_length (n : Nat) (e : Recorded) :
    (e.bytes n).length = e.hit.size n := Hit.record_length n e.hit

/-- One level: the writer, the counters, the file, and the history. -/
structure Level where
  rb : RingBuf
  cs : MsgCounters
  mem : Mem
  lost : List Recorded
  old : List Recorded
  cur : List Recorded

namespace Level

/-- Every message recorded so far, in order. -/
def log (r : Level) : List Recorded := r.lost ++ r.old ++ r.cur

/-- A level as `bufIs` lays it out. -/
def init (base size : Nat) (cs : MsgCounters) (mem : Mem) : Level where
  rb := (RingBuf.bufIs base size).1
  cs := cs
  mem := mem.applyAll (RingBuf.bufIs base size).2
  lost := []
  old := []
  cur := []

/-- `maybeWrap`, with the history it ends. -/
def wrap (r : Level) : Level :=
  if r.rb.bufEnd ≤ r.rb.ptr then
    { r with
      rb := r.rb.maybeWrap.1, mem := r.mem.applyAll r.rb.maybeWrap.2,
      lost := r.lost ++ r.old, old := r.cur, cur := [] }
  else r

/-- One execution of a trace statement. -/
def trace (n : Nat) (r : Level) (h : Hit) : Level :=
  let t := r.rb.trace n r.cs h
  { rb := t.1
    cs := t.2.1
    mem := r.mem.applyAll t.2.2
    lost := r.wrap.lost
    old := r.wrap.old
    cur := if r.cs.off h.id then r.wrap.cur else r.wrap.cur ++ [⟨r.rb.startPos, h⟩] }

/-- Several of them. -/
def traceAll (n : Nat) (r : Level) (hs : List Hit) : Level := hs.foldl (trace n) r

/-- Another process changes the counters. -/
def ctl (r : Level) (counter : Nat → MsgCounter) : Level :=
  { r with cs := { r.cs with counter } }

/-- One step of a level. `ok` restricts the messages that get recorded. -/
inductive Step (n : Nat) (ok : Level → Hit → Prop) (r : Level) : Level → Prop where
  | trace (h : Hit) (hok : r.cs.off h.id = false → ok r h) : Step n ok r (r.trace n h)
  | ctl (counter : Nat → MsgCounter) : Step n ok r (r.ctl counter)

/-- The states a level can be in after any sequence of steps. -/
def Reachable (n base size : Nat) (ok : Level → Hit → Prop) (r : Level) : Prop :=
  ∃ cs mem, Relation.ReflTransGen (Step n ok) (Level.init base size cs mem) r

/-- What holds of a fresh level and survives every step holds of every
reachable state. -/
theorem Reachable.induction {n base size : Nat} {ok : Level → Hit → Prop} {P : Level → Prop}
    (h0 : ∀ cs mem, P (Level.init base size cs mem))
    (hs : ∀ r r', P r → Step n ok r r' → P r') {r : Level}
    (h : Reachable n base size ok r) : P r := by
  obtain ⟨cs, mem, h⟩ := h
  induction h with
  | refl => exact h0 cs mem
  | tail _ hstep ih => exact hs _ _ ih hstep

/-! ## The pointers -/

/-- What every step keeps about the pointers, whatever is written. -/
structure Pointers (base size : Nat) (rb : RingBuf) : Prop where
  buf : rb.buf = base
  bufEnd : rb.bufEnd = base + size - TrailerSize

theorem pointers_init (base size : Nat) (cs : MsgCounters) (mem : Mem) :
    Pointers base size (Level.init base size cs mem).rb := ⟨rfl, rfl⟩

theorem pointers_trace {n base size : Nat} {rb : RingBuf} (hp : Pointers base size rb)
    (cs : MsgCounters) (h : Hit) : Pointers base size (rb.trace n cs h).1 := by
  cases hoff : cs.off h.id with
  | true => rw [trace_off hoff]; exact ⟨hp.buf, hp.bufEnd⟩
  | false => rw [trace_ring hoff]; exact ⟨hp.buf, hp.bufEnd⟩

theorem pointers_reachable {n base size : Nat} {ok : Level → Hit → Prop} {r : Level}
    (hr : Reachable n base size ok r) : Pointers base size r.rb := by
  refine hr.induction (P := fun r => Pointers base size r.rb) (pointers_init base size) ?_
  intro r r' hp hs
  cases hs with
  | trace h _ => exact pointers_trace hp r.cs h
  | ctl counter => exact hp

end Level

end QuickTrace
