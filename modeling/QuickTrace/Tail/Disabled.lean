/-
QuickTrace.Tail.Disabled — a statement that is switched off.

`startMsg` wraps before it looks at the off bit, so a disabled statement is
invisible in the level and to a reader of it exactly as long as the writer
is in front of the trailer (`disabled_invisible_iff`).
-/
import QuickTrace.Tail.RingBufferTheorems

namespace QuickTrace

open QuickTrace.Lib RingBuf

namespace Level

/-- Any message may be recorded. -/
def AnyMessage (_ : Level) (_ : Hit) : Prop := True

/-- Executing the statement changes no byte of the level and not the write
position, and every reader of the file sees the same next message. -/
structure Invisible (n base size : Nat) (r : Level) (h : Hit) : Prop where
  bytes : ∀ x, base ≤ x → x < base + size → (r.trace n h).mem x = r.mem x
  ptr : (r.trace n h).rb.ptr = r.rb.ptr
  reader : ∀ (msgs : Messages) (tail : Bool) (curTsc : Nat) (rd : RingBuffer),
    rd.next (r.trace n h).mem msgs tail curTsc = rd.next r.mem msgs tail curTsc

/-- A disabled statement leaves the log alone exactly in front of the
trailer. -/
theorem disabled_invisible_iff {n base size : Nat} (hg : Geometry size) {r : Level}
    (hr : Reachable n base size AnyMessage r) {h : Hit} (hoff : r.cs.off h.id = true) :
    Invisible n base size r h ↔ r.rb.ptr < r.rb.bufEnd := by
  have hp := pointers_reachable hr
  have hkib := hg.kib
  have hmem : (r.trace n h).mem = r.mem.applyAll r.rb.maybeWrap.2 := by
    unfold trace
    rw [trace_off hoff]
  have hptr : (r.trace n h).rb.ptr = r.rb.startPos := by
    unfold trace
    rw [trace_off hoff]
  constructor
  · intro hi
    by_contra hle
    have hstart : r.rb.startPos = base + headerSize := by
      rw [startPos, if_pos (by omega), hp.buf]
    have := hi.ptr
    rw [hptr, hstart] at this
    have hend := hp.bufEnd
    simp only [headerSize, TrailerSize] at this hend
    omega
  · intro hlt
    have hsame : (r.trace n h).mem = r.mem := by rw [hmem, maybeWrap_stay hlt]; rfl
    refine ⟨fun x _ _ => by rw [hsame], ?_, fun msgs tail curTsc rd => by rw [hsame]⟩
    rw [hptr, startPos, if_neg (by omega)]

theorem reachable_traceAll {n base size : Nat} (cs : MsgCounters) (mem : Mem) (hs : List Hit) :
    Reachable n base size AnyMessage ((Level.init base size cs mem).traceAll n hs) := by
  refine ⟨cs, mem, ?_⟩
  unfold traceAll
  induction hs using List.reverseRecOn with
  | nil => exact .refl
  | append_singleton hs h ih =>
    rw [List.foldl_append]
    exact ih.tail (.trace h fun _ => trivial)

/-- Two counters, of which the first is switched off. -/
def firstOff : MsgCounters :=
  ⟨2, fun i => if i = 0 then { MsgCounter.zero with lastTsc := 0x80000000 } else MsgCounter.zero⟩

/-- A message of 248 bytes. -/
def fullMessage (tsc : UInt64) : Hit := ⟨tsc, 1, [.longStr (List.replicate 234 97)]⟩

/-- A level of a KiB with some of them. -/
def filled (k : Nat) : Level :=
  (Level.init 128 1024 firstOff fun _ => 0).traceAll 24
    ((List.range k).map fun t => fullMessage (UInt64.ofNat (t + 1)))

/-- In front of the trailer: one message was recorded. -/
theorem disabled_invisible_one : Invisible 24 128 1024 (filled 1) ⟨9, 2, []⟩ :=
  (disabled_invisible_iff ⟨by decide, by decide⟩ (reachable_traceAll _ _ _)
    (by decide +kernel)).mpr (by decide +kernel)

/-- Four messages of 248 bytes fill a level of a KiB up to its trailer; a
disabled statement then moves the write position to the start. -/
theorem disabled_statement_wraps :
    Reachable 24 128 1024 AnyMessage (filled 4) ∧ (filled 4).cs.off 2 = true
      ∧ ¬ Invisible 24 128 1024 (filled 4) ⟨9, 2, []⟩ := by
  refine ⟨reachable_traceAll _ _ _, by decide +kernel, fun hi => ?_⟩
  have hptr := hi.ptr
  revert hptr
  decide +kernel

end Level

end QuickTrace
