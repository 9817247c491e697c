/-
QuickTrace.Ring.TraceFile — the ten levels of a trace file.

The constructor of `TraceFile` lays the levels out one behind the other
after the header and the counters (`logStart`), each `sz[ i ]` KiB long. The
levels share the file's memory and its counters. A run is a list of
operations; `visited` lists the state in front of each of them.

`SizeSpec` is what `adjustSizeSpec` leaves: no level is empty, and the
offsets are an `int`.
-/
import QuickTrace.Ring.LevelTheorems
import Mathlib.Logic.Function.Basic

namespace QuickTrace

open QuickTrace.Lib RingBuf

/-- `NumTraceLevels`. -/
abbrev NumTraceLevels : Nat := 10

instance : NeZero NumTraceLevels := ⟨Nat.succ_ne_zero 9⟩

/-- `addLevelSizes`: the KiB of the levels in front of level `k`. -/
def addLevelSizes (sz : Fin NumTraceLevels → Nat) (k : Nat) : Nat :=
  ((List.ofFn sz).take k).sum

/-- The KiB of each level. -/
structure SizeSpec where
  sz : Fin NumTraceLevels → Nat
  pos : ∀ i, 1 ≤ sz i
  fits : addLevelSizes sz NumTraceLevels * 1024 < 2 ^ 31

namespace SizeSpec

variable (spec : SizeSpec) (logStart : Nat) (i : Fin NumTraceLevels)

/-- Where a level starts. -/
def levelStart : Nat := logStart + addLevelSizes spec.sz i * 1024

/-- The `bufSize` of a level. -/
def levelSize : Nat := spec.sz i * 1024

/-- The address behind a level. -/
def levelEnd : Nat := spec.levelStart logStart i + spec.levelSize i

theorem addLevelSizes_succ (sz : Fin NumTraceLevels → Nat) (i : Fin NumTraceLevels) :
    addLevelSizes sz (i + 1) = addLevelSizes sz i + sz i := by
  unfold addLevelSizes
  rw [List.take_add_one, List.getElem?_eq_getElem (by simp), List.getElem_ofFn]
  simp

theorem addLevelSizes_mono (sz : Fin NumTraceLevels → Nat) {j k : Nat} (h : j ≤ k) :
    addLevelSizes sz j ≤ addLevelSizes sz k := by
  unfold addLevelSizes
  obtain ⟨d, rfl⟩ := Nat.exists_eq_add_of_le h
  rw [List.take_add, List.sum_append]
  exact Nat.le_add_right _ _

/-- A level ends where the next one starts, or before. -/
theorem levelEnd_le {i j : Fin NumTraceLevels} (h : i < j) :
    spec.levelEnd logStart i ≤ spec.levelStart logStart j := by
  have h1 := addLevelSizes_succ spec.sz i
  have h2 := addLevelSizes_mono spec.sz (show i.val + 1 ≤ j.val from h)
  unfold levelEnd levelStart levelSize
  omega

/-- An address of one level belongs to no other. -/
theorem outside_of_ne {i j : Fin NumTraceLevels} (h : i ≠ j) {x : Nat}
    (h1 : spec.levelStart logStart j ≤ x) (h2 : x < spec.levelEnd logStart j) :
    x < spec.levelStart logStart i ∨ spec.levelEnd logStart i ≤ x := by
  rcases Nat.lt_or_gt_of_ne (Fin.val_ne_of_ne h) with h | h
  · have := spec.levelEnd_le logStart h
    exact Or.inr (by omega)
  · have := spec.levelEnd_le logStart h
    exact Or.inl (by omega)

theorem geometry : Level.Geometry (spec.levelSize i) := by
  have h1 := spec.pos i
  have h2 := addLevelSizes_succ spec.sz i
  have h3 := addLevelSizes_mono spec.sz (show i.val + 1 ≤ NumTraceLevels from i.isLt)
  have h4 := Nat.lt_of_le_of_lt (Nat.mul_le_mul_right 1024 h3) spec.fits
  refine ⟨?_, ?_⟩
  · unfold levelSize; omega
  · refine Nat.lt_of_le_of_lt (Nat.mul_le_mul_right 1024 ?_) h4
    omega

end SizeSpec

/-! ## The file -/

/-- The writer of one level and its history. -/
structure Log where
  rb : RingBuf
  lost : List Recorded
  old : List Recorded
  cur : List Recorded

/-- A trace file. -/
structure TraceFile where
  log : Fin NumTraceLevels → Log
  cs : MsgCounters
  mem : Mem

namespace TraceFile

/-- One level, with the memory and the counters it shares. -/
def ring (tf : TraceFile) (i : Fin NumTraceLevels) : Level where
  rb := (tf.log i).rb
  cs := tf.cs
  mem := tf.mem
  lost := (tf.log i).lost
  old := (tf.log i).old
  cur := (tf.log i).cur

/-- The constructor: the mapping is zeroed, then the levels are laid out. -/
def create (spec : SizeSpec) (logStart : Nat) (cs : MsgCounters) : TraceFile where
  log := fun i => ⟨(bufIs (spec.levelStart logStart i) (spec.levelSize i)).1, [], [], []⟩
  cs := cs
  mem := Mem.applyAll (fun _ => 0) ((List.finRange NumTraceLevels).flatMap fun i =>
    (bufIs (spec.levelStart logStart i) (spec.levelSize i)).2)

/-- A trace statement on one level. -/
def trace (n : Nat) (tf : TraceFile) (i : Fin NumTraceLevels) (h : Hit) : TraceFile :=
  let r := (tf.ring i).trace n h
  { log := Function.update tf.log i ⟨r.rb, r.lost, r.old, r.cur⟩, cs := r.cs, mem := r.mem }

/-- What happens to a file: a trace statement, or another process writes the
counters. -/
inductive Op where
  | hit (i : Fin NumTraceLevels) (h : Hit)
  | ctl (counter : Nat → MsgCounter)

/-- One operation. -/
def step (n : Nat) (tf : TraceFile) : Op → TraceFile
  | .hit i h => tf.trace n i h
  | .ctl counter => { tf with cs := { tf.cs with counter } }

/-- Every operation of a run with the state in front of it. -/
def visited (n : Nat) : TraceFile → List Op → List (TraceFile × Op)
  | _, [] => []
  | tf, op :: ops => (tf, op) :: visited n (tf.step n op) ops

theorem trace_ring_self (n : Nat) (tf : TraceFile) (i : Fin NumTraceLevels) (h : Hit) :
    (tf.trace n i h).ring i = (tf.ring i).trace n h := by
  simp [ring, trace]

theorem trace_log_ne (n : Nat) (tf : TraceFile) {i j : Fin NumTraceLevels} (hij : j ≠ i)
    (h : Hit) : (tf.trace n i h).log j = tf.log j := by
  simp only [trace, Function.update_of_ne hij]

/-! ## Levels stay apart -/

/-- Every byte the operation writes lies in its own level, and so nothing
else changes. -/
def Contained (n : Nat) (spec : SizeSpec) (logStart : Nat) (tf : TraceFile) : Op → Prop
  | .hit i h =>
    (∀ s ∈ ((tf.log i).rb.trace n tf.cs h).2.2,
        s.Within (spec.levelStart logStart i) (spec.levelEnd logStart i))
      ∧ ∀ x, x < spec.levelStart logStart i ∨ spec.levelEnd logStart i ≤ x →
          (tf.trace n i h).mem x = tf.mem x
  | .ctl _ => True

/-- The message and the end mark behind it fit between the position where
the message starts and the end of the level. -/
def RoomLeft (n : Nat) (spec : SizeSpec) (logStart : Nat) (tf : TraceFile) : Op → Prop
  | .hit i h =>
    tf.cs.off h.id = true
      ∨ (tf.log i).rb.startPos + h.size n + 8 ≤ spec.levelEnd logStart i
  | .ctl _ => True

/-- The pointers of a level leave room for the mark a wrap stores. -/
structure PtrOk (base size : Nat) (rb : RingBuf) : Prop where
  pointers : Level.Pointers base size rb
  lo : base + headerSize ≤ rb.ptr
  hi : rb.ptr + 8 ≤ base + size

theorem ptrOk_init {size : Nat} (hg : Level.Geometry size) (base : Nat) :
    PtrOk base size (bufIs base size).1 := by
  have := hg.kib
  exact ⟨⟨rfl, rfl⟩, Nat.le_refl _, by simp only [bufIs, doWrap, headerSize]; omega⟩

theorem PtrOk.startPos_ge {base size : Nat} {rb : RingBuf} (h : PtrOk base size rb) :
    base + headerSize ≤ rb.startPos := by
  unfold startPos
  split
  · exact Nat.le_of_eq (by rw [h.pointers.buf])
  · exact h.lo

theorem PtrOk.startPos_le {size : Nat} (hg : Level.Geometry size) {base : Nat} {rb : RingBuf}
    (h : PtrOk base size rb) : rb.startPos + 8 ≤ base + size := by
  have := hg.kib
  unfold startPos
  split
  · rw [h.pointers.buf]; simp only [headerSize]; omega
  · exact h.hi

/-- The marks of a wrap lie in the level. -/
theorem PtrOk.wrap_within {base size : Nat} {rb : RingBuf} (h : PtrOk base size rb) :
    ∀ s ∈ rb.maybeWrap.2, s.Within base (base + size) := by
  intro s hs
  have h1 := h.lo
  have h2 := h.hi
  simp only [headerSize] at h1
  rcases Nat.lt_or_ge rb.ptr rb.bufEnd with hlt | hle
  · rw [maybeWrap_stay hlt] at hs
    cases hs
  · rw [maybeWrap_wrap hle, h.pointers.buf] at hs
    simp only [List.mem_cons, List.not_mem_nil, or_false] at hs
    rcases hs with rfl | rfl
    · exact ⟨by simp only; omega, h2⟩
    · exact ⟨Nat.le_refl _, by simp only [leBytes_length]; omega⟩

/-- One statement stays in its level exactly if it is disabled or has
room. -/
theorem within_iff {n size : Nat} {base : Nat} {rb : RingBuf}
    (hp : PtrOk base size rb) (cs : MsgCounters) (h : Hit) :
    (∀ s ∈ (rb.trace n cs h).2.2, s.Within base (base + size))
      ↔ cs.off h.id = true ∨ rb.startPos + h.size n + 8 ≤ base + size := by
  have hge := hp.startPos_ge
  cases hoff : cs.off h.id with
  | true =>
    rw [trace_off hoff]
    simpa using hp.wrap_within
  | false =>
    simp only [Bool.false_eq_true, false_or]
    constructor
    · intro hall
      exact (hall _ (endMark_mem_trace hoff)).2
    · intro hroom s hs
      rcases trace_within hoff hs with hs | hs
      · exact hp.wrap_within s hs
      · exact ⟨by have := hs.1; simp only [headerSize] at hge; omega,
          by have := hs.2; omega⟩

theorem PtrOk.trace {n size : Nat} (hg : Level.Geometry size) {base : Nat} {rb : RingBuf}
    (hp : PtrOk base size rb) {cs : MsgCounters} {h : Hit}
    (hroom : cs.off h.id = true ∨ rb.startPos + h.size n + 8 ≤ base + size) :
    PtrOk base size (rb.trace n cs h).1 := by
  have hge := hp.startPos_ge
  refine ⟨Level.pointers_trace hp.pointers cs h, ?_, ?_⟩
  · cases hoff : cs.off h.id with
    | true => rw [trace_off hoff]; exact hge
    | false => rw [trace_ring hoff]; simp only [after]; omega
  · cases hoff : cs.off h.id with
    | true => rw [trace_off hoff]; exact hp.startPos_le hg
    | false =>
      simp only [hoff, Bool.false_eq_true, false_or] at hroom
      rw [trace_ring hoff]
      exact hroom

/-- The pointers of all levels are in order. -/
def AllPtrOk (spec : SizeSpec) (logStart : Nat) (tf : TraceFile) : Prop :=
  ∀ i, PtrOk (spec.levelStart logStart i) (spec.levelSize i) (tf.log i).rb

theorem allPtrOk_create (spec : SizeSpec) (logStart : Nat) (cs : MsgCounters) :
    AllPtrOk spec logStart (create spec logStart cs) :=
  fun i => ptrOk_init (spec.geometry i) _

/-- One operation is contained exactly if it has room. -/
theorem contained_iff {n : Nat} {spec : SizeSpec} {logStart : Nat} {tf : TraceFile}
    (hp : AllPtrOk spec logStart tf) (op : Op) :
    Contained n spec logStart tf op ↔ RoomLeft n spec logStart tf op := by
  cases op with
  | ctl counter => exact Iff.rfl
  | hit i h =>
    have hw := within_iff (n := n) (hp i) tf.cs h
    constructor
    · exact fun hc => hw.mp hc.1
    · intro hroom
      have hall := hw.mpr hroom
      exact ⟨hall, fun x hx => Mem.applyAll_of_within hall hx⟩

theorem allPtrOk_step {n : Nat} {spec : SizeSpec} {logStart : Nat} {tf : TraceFile}
    (hp : AllPtrOk spec logStart tf) {op : Op} (hroom : RoomLeft n spec logStart tf op) :
    AllPtrOk spec logStart (tf.step n op) := by
  cases op with
  | ctl counter => exact hp
  | hit i h =>
    intro j
    by_cases hij : j = i
    · subst hij
      have := (hp j).trace (spec.geometry j) hroom
      simp only [step, trace, Function.update_self]
      exact this
    · simp only [step, trace_log_ne n tf hij]
      exact hp j

/-- A run from any state with its pointers in order. -/
theorem visited_contained_iff {n : Nat} {spec : SizeSpec} {logStart : Nat} :
    ∀ (ops : List Op) {tf : TraceFile}, AllPtrOk spec logStart tf →
      ((∀ p ∈ visited n tf ops, Contained n spec logStart p.1 p.2)
        ↔ ∀ p ∈ visited n tf ops, RoomLeft n spec logStart p.1 p.2)
  | [], _, _ => by simp [visited]
  | op :: ops, tf, hp => by
      simp only [visited, List.forall_mem_cons, contained_iff hp op]
      constructor
      · rintro ⟨h1, h2⟩
        exact ⟨h1, (visited_contained_iff ops (allPtrOk_step hp h1)).mp h2⟩
      · rintro ⟨h1, h2⟩
        exact ⟨h1, (visited_contained_iff ops (allPtrOk_step hp h1)).mpr h2⟩

/-- Levels do not damage each other in exactly the runs in which every
recorded message finds room for itself and its end mark. -/
theorem levels_apart_iff (n : Nat) (spec : SizeSpec) (logStart : Nat) (cs : MsgCounters)
    (ops : List Op) :
    (∀ p ∈ visited n (create spec logStart cs) ops, Contained n spec logStart p.1 p.2)
      ↔ ∀ p ∈ visited n (create spec logStart cs) ops, RoomLeft n spec logStart p.1 p.2 :=
  visited_contained_iff ops (allPtrOk_create spec logStart cs)

/-- The state behind a run is in front of the operation that follows it. -/
theorem mem_visited_concat (n : Nat) (op : Op) : ∀ (ops : List Op) (tf : TraceFile),
    (ops.foldl (step n) tf, op) ∈ visited n tf (ops ++ [op])
  | [], tf => by simp [visited]
  | o :: ops, tf => by
      simp only [List.cons_append, visited, List.mem_cons, List.foldl_cons]
      exact Or.inr (mem_visited_concat n op ops _)

/-- Ten levels of one KiB each. -/
def kibSpec : SizeSpec := ⟨fun _ => 1, fun _ => Nat.le_refl 1, by decide⟩

/-- A single counter that is on. -/
def oneCounter : MsgCounters := ⟨1, fun _ => MsgCounter.zero⟩

/-- A long string of the full 240 characters. -/
def longMessage (tsc : UInt64) : Hit := ⟨tsc, 1, [.longStr (List.replicate 240 97)]⟩

/-- A long string has a length byte of its own. -/
theorem longMessage_size (tsc : UInt64) : (longMessage tsc).size 24 = 254 := by
  have h : (encodeString LONGSTRING_LIMIT (List.replicate 240 97)).length = 241 := by
    decide +kernel
  simp only [Hit.size, Hit.argBytes, longMessage, encodeArgs_cons, encodeArgs_nil, Arg.encode,
    List.append_nil, h]

/-- Four long strings on one level of a KiB: each fits its length byte, and
the last, which starts two bytes in front of the trailer, has its end mark
run into the next level. -/
theorem long_messages_overrun :
    (∀ t, (longMessage t).size 24 ≤ 256)
      ∧ ¬ ∀ p ∈ visited 24 (create kibSpec 128 oneCounter)
            ([.hit 0 (longMessage 1), .hit 0 (longMessage 2), .hit 0 (longMessage 3)]
              ++ [.hit 0 (longMessage 4)]),
          Contained 24 kibSpec 128 p.1 p.2 := by
  refine ⟨fun t => by rw [longMessage_size]; omega, fun hall => ?_⟩
  have hlast := hall _ (mem_visited_concat 24 (.hit 0 (longMessage 4)) _ _)
  have hbytes := (hlast.1 _ (endMark_mem_trace (by decide +kernel))).2
  rw [longMessage_size] at hbytes
  revert hbytes
  decide +kernel

end TraceFile

end QuickTrace
