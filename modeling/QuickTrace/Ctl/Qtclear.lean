/-
QuickTrace.Ctl.Qtclear — clearing the counters of a file.

`qtclear` maps the first 16384 bytes of a file, maps the whole file header if
that is larger, and fills the counters with zeros. A file that is smaller
than the first mapping is refused, and the fill takes the off bits away with
the hit times. `clears_iff` says for which files neither of these matters.
-/
import QuickTrace.Ring.FileLayout

namespace QuickTrace.Qtclear

open QuickTrace.Lib QuickTrace.FileLayout

/-! ## The file -/

/-- A file: its bytes and `st_size`. -/
structure File where
  mem : Mem
  size : Nat

namespace File

/-- The field of the header. -/
def fileHeaderSize (f : File) : UInt32 := UInt32.ofNat (f.mem.load 8 4)

/-- The field of the header. -/
def firstMsgOffset (f : File) : UInt32 := UInt32.ofNat (f.mem.load 16 4)

/-- The address of a counter. -/
def counterAddr (i : Nat) : Nat := sizeofTraceFileHeader + i * sizeofMsgCounter

/-- A `MsgCounter` as it stands in the file. -/
def counter (f : File) (i : Nat) : MsgCounter where
  count := UInt32.ofNat (f.mem.load (counterAddr i) 4)
  lastTsc := UInt32.ofNat (f.mem.load (counterAddr i + 4) 4)
  tscCount := UInt64.ofNat (f.mem.load (counterAddr i + 8) 8)
  tscSelfCount := UInt64.ofNat (f.mem.load (counterAddr i + 16) 8)

/-- `memset( m + start, 0, len )`. -/
def memset (f : File) (start len : Nat) : File :=
  { f with mem := f.mem.store start (List.replicate len 0) }

end File

/-! ## The program -/

/-- How `qtclear` ends. -/
inductive Exit where
  | success
  /-- "likely not a qt file". -/
  | notAQtFile
  | mmapFailed
  /-- `memset` behind the mapping. -/
  | fault
  deriving DecidableEq

/-- The attempts of `main` for a file that could be opened, the first with a
mapping of `size` bytes; `none` if the fuel is used up. A mapping of no or a
negative number of bytes fails. -/
def attempts (f : File) : Nat → Int → Option (Exit × File)
  | 0, _ => none
  | fuel + 1, size =>
    if (f.size : Int) < size then some (.notAQtFile, f)
    else if size ≤ 0 then some (.mmapFailed, f)
    else
      let fhs := f.fileHeaderSize.toInt32.toInt
      if size < fhs then attempts f fuel fhs
      else
        let start := f.firstMsgOffset.toNat
        let len := (f.fileHeaderSize - f.firstMsgOffset).toNat
        if start + len ≤ pageEnd size.toNat then some (.success, f.memset start len)
        else some (.fault, f)

/-- `qtclear` on one file. -/
def clear (f : File) (fuel : Nat) : Option (Exit × File) := attempts f fuel 16384

/-! ## What is wanted -/

/-- A file that the constructor of `TraceFile` has made and that was used
since: the layout is the one of the constructor, which has not left the range
of an `int`, the rest of the bytes is any, and descriptors may follow. -/
structure Produced (n : UInt32) (sz : Sizes) (f : File) : Prop where
  counters : 0 < n.toNat
  levels : ∀ i, 1 ≤ (sz i).toNat
  defined : exactSize n sz + 5120 ≤ 2 ^ 31
  layout : ∃ l, (TraceHandle.resize n sz).newTraceFile = some l ∧
    f.fileHeaderSize = l.header.fileHeaderSize ∧
    (f.firstMsgOffset.toNat : Int) = l.headerRegion.hi ∧ l.dictionary ≤ f.size

/-- A counter with only its off bit. -/
def cleared (mc : MsgCounter) : MsgCounter := { MsgCounter.zero with lastTsc := offBit mc.lastTsc }

/-- `f'` is `f` with its counters cleared and nothing else changed. -/
structure Cleared (n : UInt32) (f f' : File) : Prop where
  counter : ∀ i < n.toNat, f'.counter i = cleared (f.counter i)
  size : f'.size = f.size
  frame : ∀ a, a < sizeofTraceFileHeader ∨ logStart n ≤ a → f'.mem a = f.mem a

/-- After finitely many attempts `qtclear` ends with success and has cleared
the counters. -/
def Clears (n : UInt32) (f : File) : Prop :=
  ∃ fuel f', clear f fuel = some (.success, f') ∧ Cleared n f f'

/-- A statement of this counter is switched off. -/
def Off (f : File) (i : Nat) : Prop := offBit (f.counter i).lastTsc ≠ 0

/-! ## The fields of a produced file -/

section

variable {n : UInt32} {sz : Sizes} {f : File}

theorem Produced.fields (h : Produced n sz f) : f.fileHeaderSize.toNat = logStart n
    ∧ f.firstMsgOffset.toNat = sizeofTraceFileHeader ∧ logStart n < f.size
    ∧ logStart n < 2 ^ 31 := by
  obtain ⟨l, hl, hheader, hoff, hsize⟩ := h.layout
  rw [newTraceFile_eq h.defined] at hl
  cases hl
  have hstart : logStart n ≤ exactSize n sz := Nat.le_add_right _ _
  have hdef := h.defined
  refine ⟨?_, Int.ofNat.inj hoff, ?_, by omega⟩
  · rw [hheader]
    exact UInt32.toNat_ofNat_of_lt' (show logStart n < 2 ^ 32 by omega)
  · simp only at hsize
    omega

/-! ## The attempts -/

/-- What the fill leaves. -/
def filled (n : UInt32) (f : File) : File :=
  f.memset sizeofTraceFileHeader (n.toNat * sizeofMsgCounter)

/-- An attempt with a mapping of the whole header. -/
theorem attempts_fill (h : Produced n sz f) {fuel size : Nat} (h1 : logStart n ≤ size)
    (h2 : size ≤ f.size) : attempts f (fuel + 1) size = some (.success, filled n f) := by
  obtain ⟨hheader, hoff, hlt, hint⟩ := h.fields
  have hfhs : f.fileHeaderSize.toInt32.toInt = logStart n := by
    rw [toInt32_of_lt (by omega), hheader]
  have hpos : 0 < logStart n := Nat.lt_of_lt_of_le (by decide) (Nat.le_add_right _ _)
  have hlen : (f.fileHeaderSize - f.firstMsgOffset).toNat = n.toNat * sizeofMsgCounter := by
    have hle : f.firstMsgOffset ≤ f.fileHeaderSize := by
      rw [UInt32.le_iff_toNat_le, hheader, hoff]
      exact Nat.le_add_right _ _
    rw [UInt32.toNat_sub_of_le _ _ hle, hheader, hoff, logStart, Nat.add_sub_cancel_left]
  have hpage : logStart n ≤ pageEnd size := by
    unfold pageEnd
    omega
  rw [attempts, if_neg (by omega), if_neg (by omega), hfhs]
  simp only
  rw [if_neg (by omega), hoff, hlen, Int.toNat_natCast]
  exact if_pos hpage

/-- A file that is not too small is filled at the first attempt or at the
second one. -/
theorem clear_two (h : Produced n sz f) (hsize : 16384 ≤ f.size) (fuel : Nat) :
    clear f (fuel + 2) = some (.success, filled n f) := by
  obtain ⟨hheader, -, hlt, hint⟩ := h.fields
  by_cases hone : logStart n ≤ 16384
  · exact attempts_fill h hone hsize
  · have hfhs : f.fileHeaderSize.toInt32.toInt = logStart n := by
      rw [toInt32_of_lt (by omega), hheader]
    rw [clear, attempts, if_neg (by omega), if_neg (by decide), hfhs]
    simp only
    rw [if_pos (by omega)]
    exact attempts_fill h (Nat.le_refl _) (Nat.le_of_lt hlt)

/-- More fuel changes nothing. -/
theorem attempts_succ : ∀ {fuel : Nat} {size : Int} {r : Exit × File},
    attempts f fuel size = some r → attempts f (fuel + 1) size = some r
  | 0, _, _, h => by cases h
  | fuel + 1, size, r, h => by
      rw [attempts] at h ⊢
      split at h
      · next hlt => rw [if_pos hlt]; exact h
      · next hlt =>
        rw [if_neg hlt]
        split at h
        · next hneg => rw [if_pos hneg]; exact h
        · next hneg =>
          rw [if_neg hneg]
          simp only at h ⊢
          split at h
          · next hretry => rw [if_pos hretry]; exact attempts_succ h
          · next hretry => rw [if_neg hretry]; exact h

/-- So every end is this one. -/
theorem clear_eq (h : Produced n sz f) (hsize : 16384 ≤ f.size) {fuel : Nat} {r : Exit × File}
    (hr : clear f fuel = some r) : r = (.success, filled n f) := by
  have h2 := clear_two h hsize fuel
  rw [clear] at h2 hr
  rw [attempts_succ (attempts_succ hr)] at h2
  exact Option.some.inj h2

/-- A small file is refused. -/
theorem clear_small (hsize : f.size < 16384) {fuel : Nat} {f' : File} :
    clear f fuel ≠ some (.success, f') := by
  intro h
  cases fuel with
  | zero => cases h
  | succ fuel =>
    rw [clear, attempts, if_pos (by omega)] at h
    cases h

/-! ## What the fill does -/

theorem filled_frame {a : Nat} (h : a < sizeofTraceFileHeader ∨ logStart n ≤ a) :
    (filled n f).mem a = f.mem a := by
  rcases h with h | h
  · exact Mem.store_lt h
  · refine Mem.store_ge ?_
    rw [List.length_replicate]
    exact h

/-- Inside of the counters every word is zero. -/
theorem filled_load {a k : Nat} (h1 : sizeofTraceFileHeader ≤ a) (h2 : a + k ≤ logStart n) :
    (filled n f).mem.load a k = 0 := by
  refine Mem.load_zero_of_holds (Mem.holds_replicate.mpr ?_)
  intro x hx1 hx2
  have hlen : x - sizeofTraceFileHeader < (List.replicate (n.toNat * sizeofMsgCounter)
      (0 : UInt8)).length := by
    rw [List.length_replicate]
    unfold logStart at h2
    omega
  have hin := Mem.store_in (m := f.mem) (show sizeofTraceFileHeader ≤ x by omega) hlen
  rw [List.getElem_replicate] at hin
  exact hin

theorem filled_counter {i : Nat} (hi : i < n.toNat) :
    (filled n f).counter i = MsgCounter.zero := by
  have hend : File.counterAddr i + 24 ≤ logStart n := by
    unfold File.counterAddr logStart sizeofMsgCounter
    omega
  have hstart : sizeofTraceFileHeader ≤ File.counterAddr i := Nat.le_add_right _ _
  unfold File.counter
  rw [filled_load hstart (by omega), filled_load (by omega) (by omega),
    filled_load (by omega) (by omega), filled_load (by omega) (by omega)]
  rfl

/-- Zeros are right for a counter whose statements are enabled. -/
theorem cleared_eq_zero (mc : MsgCounter) :
    cleared mc = MsgCounter.zero ↔ offBit mc.lastTsc = 0 := by
  constructor
  · intro h
    exact congrArg MsgCounter.lastTsc h
  · intro h
    rw [cleared, h]
    rfl

theorem filled_cleared_iff : Cleared n f (filled n f) ↔ ∀ i < n.toNat, ¬ Off f i := by
  unfold Off
  constructor
  · intro h i hi hoff
    have hc := h.counter i hi
    rw [filled_counter hi] at hc
    exact hoff ((cleared_eq_zero _).mp hc.symm)
  · intro h
    refine ⟨fun i hi => ?_, rfl, fun a ha => filled_frame ha⟩
    rw [filled_counter hi]
    exact ((cleared_eq_zero _).mpr (not_not.mp (h i hi))).symm

end

/-- Which files `qtclear` clears. -/
theorem clears_iff {n : UInt32} {sz : Sizes} {f : File} (h : Produced n sz f) :
    Clears n f ↔ 16384 ≤ f.size ∧ ∀ i < n.toNat, ¬ Off f i := by
  constructor
  · rintro ⟨fuel, f', hrun, hcleared⟩
    have hsize : 16384 ≤ f.size := by
      by_contra hsmall
      exact clear_small (Nat.lt_of_not_le hsmall) hrun
    cases clear_eq h hsize hrun
    exact ⟨hsize, filled_cleared_iff.mp hcleared⟩
  · rintro ⟨hsize, hon⟩
    exact ⟨2, filled n f, clear_two h hsize 0, filled_cleared_iff.mpr hon⟩

/-- A file with 512 counters and ten levels of 8 KiB. The first statement was
hit three times, the second one five times; the byte with the off bit of the
first one is `off`. -/
def sample (off : UInt8) : File where
  mem := fun a =>
    if a = 8 then 0x68 else if a = 9 then 0x30 else if a = 16 then 104
    else if a = 104 then 3 else if a = 108 then 9 else if a = 111 then off else if a = 112 then 40
    else if a = 128 then 5 else if a = 132 then 12 else 0
  size := 95336

theorem sample_produced (off : UInt8) : Produced 512 (fun _ => 8) (sample off) := by
  have hdef : exactSize 512 (fun _ => 8) + 5120 ≤ 2 ^ 31 := by decide
  refine ⟨by decide, fun _ => by decide, hdef, _, newTraceFile_eq hdef, ?_, ?_, ?_⟩
  · rfl
  · rfl
  · show exactSize 512 (fun _ => 8) + 1024 ≤ 95336
    decide

/-- It is cleared if no statement is off. -/
theorem clears_sample : (sample 0).counter 0 = ⟨3, 9, 40, 0⟩ ∧ (sample 0).counter 1 = ⟨5, 12, 0, 0⟩
    ∧ Clears 512 (sample 0) := by
  refine ⟨by decide, by decide, (clears_iff (sample_produced 0)).mpr ⟨by decide, ?_⟩⟩
  have hon : ∀ i < 512, offBit ((sample 0).counter i).lastTsc = 0 := by decide +kernel
  intro i hi hoff
  exact hoff (hon i hi)

/-- A statement that is off is on again. -/
theorem clears_enables :
    ¬ ∀ (n : UInt32) (sz : Sizes) (f : File), Produced n sz f → Clears n f := by
  intro h
  obtain ⟨fuel, f', hrun, hcleared⟩ := h 512 _ _ (sample_produced 0x80)
  have hsize : 16384 ≤ (sample 0x80).size := by
    show 16384 ≤ 95336
    decide
  have hoff : offBit ((sample 0x80).counter 0).lastTsc ≠ 0 := by decide
  cases clear_eq (sample_produced 0x80) hsize hrun
  exact filled_cleared_iff.mp hcleared 0 (by decide) hoff

end QuickTrace.Qtclear
