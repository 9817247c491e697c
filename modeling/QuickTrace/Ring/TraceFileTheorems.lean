/-
QuickTrace.Ring.TraceFileTheorems — the invariant of a whole file.

`WriterOk` says that every level of the file satisfies the invariant of the
writer. It holds of a new file (`writerOk_create`) and survives every message
that may be recorded (`writerOk_trace`): on the level of the message by the
step lemma of that level, on every other one because nothing of it is stored
to (`Inv.congr`).
-/
import QuickTrace.Ring.TraceFile
import QuickTrace.Ring.LevelLog

namespace QuickTrace

open QuickTrace.Lib RingBuf Level

namespace Level

/-- The invariant looks at the bytes of its level only. -/
theorem Inv.congr {n base size : Nat} {r : Level} (hg : Geometry size) (hi : Inv n base size r)
    (cs : MsgCounters) {m : Mem} (hm : ∀ x, base ≤ x → x < base + size → m x = r.mem x) :
    Inv n base size { r with cs := cs, mem := m } := by
  have hkib := hg.kib
  have hcur := hi.cur_gen.end_le hg
  have hold := hi.old_gen.end_le hg
  have hptr := hi.ptr_eq
  have hge : base + headerSize ≤ r.rb.ptr := by rw [hptr]; exact le_endOf _ _
  have hload : m.load base 4 = r.mem.load base 4 :=
    Mem.load_congr fun x h1 h2 => hm x h1 (by omega)
  refine ⟨hi.pointers, hi.cur_gen, hi.ptr_eq, hi.cur_bytes.congr fun x h1 h2 => ?_,
    fun h => (hi.mark h).congr fun x h1 h2 => ?_, fun h => hload.trans (hi.fresh h), hi.old_gen,
    hi.old_full, fun h => hload.trans (hi.tail h),
    fun h => (hi.old_bytes h).congr fun x _ h1 h2 => ?_⟩
  · unfold genEnd endOf at hcur
    exact hm x (by omega) (by omega)
  · rw [show zeros.length = 8 from rfl] at h2
    exact hm x (by omega) (by omega)
  · rw [List.length_append, show ones.length = 8 from rfl] at h2
    unfold genEnd endOf at hold
    exact hm x (by omega) (by omega)

/-- The stores of `bufIs` lie in the level. -/
theorem bufIs_within {size : Nat} (hg : Geometry size) (base : Nat) :
    ∀ s ∈ (bufIs base size).2, s.Within base (base + size) := by
  have hkib := hg.kib
  intro s hs
  simp only [bufIs, doWrap, List.cons_append, List.nil_append, List.mem_cons, List.not_mem_nil,
    or_false] at hs
  rcases hs with rfl | rfl | rfl | rfl
  · exact ⟨by simp only [TrailerSize]; omega, by simp only [List.length_replicate, TrailerSize]; omega⟩
  · exact ⟨Nat.le_refl _, by simp only [show ones.length = 8 from rfl]; omega⟩
  · exact ⟨Nat.le_refl _, by simp only [leBytes_length]; omega⟩
  · exact ⟨by simp only [headerSize]; omega,
      by simp only [headerSize, show zeros.length = 8 from rfl]; omega⟩

/-- The pointers of a level that satisfies its invariant. -/
theorem Inv.ptrOk {n base size : Nat} {r : Level} (hg : Geometry size)
    (hi : Inv n base size r) : TraceFile.PtrOk base size r.rb where
  pointers := hi.pointers
  lo := by rw [hi.ptr_eq]; exact le_endOf _ _
  hi := by rw [hi.ptr_eq]; exact hi.cur_gen.end_le hg

end Level

namespace TraceFile

/-- What a message of the file has to respect: its statement is enabled, it
fits the trailer, and it is younger than every message of every level. -/
structure WriteOk (P : Hit → Prop) (n : Nat) (tf : TraceFile) (h : Hit) : Prop where
  on : tf.cs.off h.id = false
  fits : FitsTrailer n h
  later : ∀ i, ∀ e ∈ (tf.ring i).log, e.hit.tsc.toNat < h.tsc.toNat
  pos : 0 < h.tsc.toNat
  small : h.tsc.toNat < 2 ^ 64 - 1
  each : P h

/-- The invariant of the file between two statements. -/
structure WriterOk (P : Hit → Prop) (n : Nat) (spec : SizeSpec) (logStart : Nat)
    (tf : TraceFile) : Prop where
  inv : ∀ i, Inv n (spec.levelStart logStart i) (spec.levelSize i) (tf.ring i)
  log : ∀ i, LogOk P (tf.ring i).log
  started : ∀ i, (tf.ring i).cur = [] → (tf.ring i).log = []

/-- The states of a file in which only enabled messages are traced. -/
def Written (P : Hit → Prop) (n : Nat) (spec : SizeSpec) (logStart : Nat) (cs : MsgCounters)
    (tf : TraceFile) : Prop :=
  Relation.ReflTransGen (fun tf tf' => ∃ i h, WriteOk P n tf h ∧ tf' = tf.trace n i h)
    (create spec logStart cs) tf

variable {P : Hit → Prop} {n : Nat} {spec : SizeSpec} {logStart : Nat} {tf : TraceFile}

/-! ## A new file -/

/-- The levels in front of level `i`, level `i` and the levels behind it. -/
theorem finRange_split (i : Fin NumTraceLevels) :
    ∃ pre post, List.finRange NumTraceLevels = pre ++ i :: post ∧ i ∉ post := by
  obtain ⟨pre, post, h⟩ := List.append_of_mem (List.mem_finRange i)
  refine ⟨pre, post, h, fun hi => ?_⟩
  have hnd := List.nodup_finRange NumTraceLevels
  rw [h] at hnd
  exact (List.nodup_cons.mp (List.nodup_append.mp hnd).2.1).1 hi

/-- A new file satisfies the invariant: what the other levels lay out lies
outside of each level. -/
theorem writerOk_create (cs : MsgCounters) : WriterOk P n spec logStart (create spec logStart cs) := by
  refine ⟨fun i => ?_, fun _ => logOk_nil P, fun _ _ => rfl⟩
  obtain ⟨pre, post, hsplit, hnot⟩ := finRange_split i
  let stores : Fin NumTraceLevels → List Store := fun i =>
    (bufIs (spec.levelStart logStart i) (spec.levelSize i)).2
  have hinit : Inv n (spec.levelStart logStart i) (spec.levelSize i) _ :=
    inv_init cs (Mem.applyAll (fun _ => 0) (pre.flatMap stores))
  refine hinit.congr (spec.geometry i) cs (m := (create spec logStart cs).mem) fun x h1 h2 => ?_
  have hmem : (create spec logStart cs).mem
      = ((Mem.applyAll (fun _ => 0) (pre.flatMap stores)).applyAll (stores i)).applyAll
          (post.flatMap stores) := by
    rw [← Mem.applyAll_append, ← Mem.applyAll_append]
    simp only [create, hsplit, List.flatMap_append, List.flatMap_cons]
    rfl
  rw [hmem]
  refine Mem.applyAll_of_untouched fun s hs => ?_
  obtain ⟨j, hj, hs⟩ := List.mem_flatMap.mp hs
  have hwithin := bufIs_within (spec.geometry j) _ s hs
  rintro ⟨h3, h4⟩
  have hne : j ≠ i := fun h => hnot (h ▸ hj)
  have hout := spec.outside_of_ne logStart hne (x := x) h1 h2
  have h5 := hwithin.1
  have h6 := hwithin.2
  unfold SizeSpec.levelEnd at hout
  omega

/-! ## One message -/

/-- A level the message does not go to keeps its writer and its history. -/
theorem ring_trace_ne {i j : Fin NumTraceLevels} (hij : j ≠ i) (h : Hit) :
    (tf.trace n i h).ring j
      = { tf.ring j with cs := (tf.trace n i h).cs, mem := (tf.trace n i h).mem } := by
  simp only [ring, trace_log_ne n tf hij]

/-- Every level of the file satisfies the invariant of the writer. -/
def AllInv (n : Nat) (spec : SizeSpec) (logStart : Nat) (tf : TraceFile) : Prop :=
  ∀ i, Inv n (spec.levelStart logStart i) (spec.levelSize i) (tf.ring i)

theorem AllInv.ptrOk (hinv : AllInv n spec logStart tf) : AllPtrOk spec logStart tf :=
  fun i => (hinv i).ptrOk (spec.geometry i)

/-- A message that is recorded fits behind the position where it starts. -/
theorem AllInv.room (hinv : AllInv n spec logStart tf) (i : Fin NumTraceLevels) {h : Hit}
    (hfit : tf.cs.off h.id = false → FitsTrailer n h) : RoomLeft n spec logStart tf (.hit i h) := by
  cases hoff : tf.cs.off h.id with
  | true => exact Or.inl hoff
  | false =>
    have hlt : (tf.log i).rb.startPos
        < spec.levelStart logStart i + spec.levelSize i - TrailerSize :=
      startPos_lt (spec.geometry i) (hinv i).pointers
    have hkib := (spec.geometry i).kib
    have hfit := hfit hoff
    unfold FitsTrailer at hfit
    refine Or.inr ?_
    unfold SizeSpec.levelEnd
    omega

/-- The message is stored within its level. -/
theorem AllInv.trace_mem_ne (hinv : AllInv n spec logStart tf) {i j : Fin NumTraceLevels}
    (hij : j ≠ i) {h : Hit} (hfit : tf.cs.off h.id = false → FitsTrailer n h) {x : Nat}
    (h1 : spec.levelStart logStart j ≤ x) (h2 : x < spec.levelEnd logStart j) :
    (tf.trace n i h).mem x = tf.mem x :=
  ((contained_iff hinv.ptrOk (.hit i h)).mpr (hinv.room i hfit)).2 x
    (spec.outside_of_ne logStart hij.symm h1 h2)

/-- So are the marks of a wrap. -/
theorem AllInv.wrap_mem_ne (hinv : AllInv n spec logStart tf) {i j : Fin NumTraceLevels}
    (hij : j ≠ i) {x : Nat} (h1 : spec.levelStart logStart j ≤ x)
    (h2 : x < spec.levelEnd logStart j) : (tf.ring i).wrap.mem x = tf.mem x := by
  rw [wrap_mem]
  exact Mem.applyAll_of_within (hinv.ptrOk i).wrap_within
    (spec.outside_of_ne logStart hij.symm h1 h2)

/-- A statement, enabled or not, keeps the invariant of every level. -/
theorem AllInv.trace (hinv : AllInv n spec logStart tf) (i : Fin NumTraceLevels) {h : Hit}
    (hfit : tf.cs.off h.id = false → FitsTrailer n h) :
    AllInv n spec logStart (tf.trace n i h) := by
  intro j
  by_cases hij : j = i
  · subst hij
    rw [trace_ring_self]
    exact inv_trace (spec.geometry j) (hinv j) hfit
  · rw [ring_trace_ne hij]
    exact (hinv j).congr (spec.geometry j) _ fun x h1 h2 => hinv.trace_mem_ne hij hfit h1 h2

/-- So does another process that writes the counters. -/
theorem AllInv.ctl (hinv : AllInv n spec logStart tf) (counter : Nat → MsgCounter) :
    AllInv n spec logStart (tf.step n (.ctl counter)) := fun i =>
  (hinv i).congr (spec.geometry i) _ fun _ _ _ => rfl

/-- The step lemma. -/
theorem writerOk_trace (hw : WriterOk P n spec logStart tf) (i : Fin NumTraceLevels) {h : Hit}
    (ho : WriteOk P n tf h) : WriterOk P n spec logStart (tf.trace n i h) := by
  have hinv : AllInv n spec logStart tf := hw.inv
  refine ⟨hinv.trace i fun _ => ho.fits, fun j => ?_, fun j => ?_⟩
  · by_cases hij : j = i
    · subst hij
      rw [trace_ring_self]
      exact logOk_trace (hw.log j) fun _ => ⟨ho.fits, ho.later j, ho.pos, ho.small, ho.each⟩
    · rw [ring_trace_ne hij]
      exact hw.log j
  · by_cases hij : j = i
    · subst hij
      rw [trace_ring_self]
      have hon : (tf.ring j).cs.off h.id = false := ho.on
      intro hcur
      simp [Level.trace, hon] at hcur
    · rw [ring_trace_ne hij]
      exact hw.started j

/-- The run lemma. -/
theorem writerOk_written {cs : MsgCounters} (hw : Written P n spec logStart cs tf) :
    WriterOk P n spec logStart tf := by
  induction hw with
  | refl => exact writerOk_create cs
  | tail _ hstep ih =>
    obtain ⟨i, h, ho, rfl⟩ := hstep
    exact writerOk_trace ih i ho

end TraceFile

end QuickTrace
