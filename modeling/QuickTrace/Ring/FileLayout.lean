/-
QuickTrace.Ring.FileLayout — the layout of a trace file in machine integers.

`resize` takes any ten sizes. They are added and scaled in 32-bit words, the
offsets of the levels and the size of the file are an `int`, and `qttail`
computes the layout again from the fields of the header. `none` is a signed
overflow, which C++ does not define, or the fault of `memset` behind the end
of the file.

`Agrees` is what a layout is for: no part of it is in the way of another, and
both programs find the same one. `agrees_iff` says how large a file may be for
that; `level_region` is the connection to the levels of `TraceFile`.
-/
import QuickTrace.Ring.TraceFile
import QuickTrace.Ctl.Qtctl

namespace QuickTrace.FileLayout

/-! ## The sizes -/

/-- `SizeSpec`: the words `sz`. -/
abbrev Sizes := Fin NumTraceLevels → UInt32

/-- What `addAndLimitSizes` makes of one size. -/
def limitSize (limit : Bool) (szi : UInt32) : UInt32 :=
  if 16384 < szi ∧ limit then 16384 else if szi = 0 then 1 else szi

/-- `addLevelSizes`. -/
def addLevelSizes (sz : Sizes) (k : Nat) : UInt32 := ((List.ofFn sz).take k).foldl (· + ·) 0

/-- `addAndLimitSizes`: the sum, and the new sizes. -/
def addAndLimitSizes (limit : Bool) (sz : Sizes) : UInt32 × Sizes :=
  let sz : Sizes := fun i => limitSize limit (sz i)
  (addLevelSizes sz NumTraceLevels, sz)

/-- What a `TraceHandle` knows about the layout. -/
structure TraceHandle where
  sizeSpec : Sizes
  numMsgCounters : UInt32
  mappedTraceFileSize : UInt32

/-- `resize` up to the new file: the sizes are taken over and added by
`adjustSizeSpec( false )`. The sum is a 64-bit one. -/
def TraceHandle.resize (numMsgCounters : UInt32) (newSizeSpecInKilobytes : Sizes) : TraceHandle :=
  let r := addAndLimitSizes false newSizeSpecInKilobytes
  { sizeSpec := r.2
    numMsgCounters
    mappedTraceFileSize := UInt32.ofNat
      ((r.1 * 1024).toNat + sizeofTraceFileHeader + numMsgCounters.toNat * sizeofMsgCounter) }

/-! ## The file -/

/-- The values of an `int`. -/
def int (x : Int) : Option Int := if -(2 ^ 31) ≤ x ∧ x < 2 ^ 31 then some x else none

/-- An open file: its size and the position in it. -/
structure FileDesc where
  size : Nat
  pos : Nat

namespace FileDesc

/-- `ftruncate`, which fails for a negative size. -/
def ftruncate (f : FileDesc) (length : Int) : FileDesc :=
  if 0 ≤ length then { f with size := length.toNat } else f

/-- `lseek( fd, offset, SEEK_SET )`, which fails for a negative offset. -/
def lseek (f : FileDesc) (offset : Int) : FileDesc :=
  if 0 ≤ offset then { f with pos := offset.toNat } else f

/-- `write` of one byte. -/
def writeByte (f : FileDesc) : FileDesc := ⟨max f.size (f.pos + 1), f.pos + 1⟩

end FileDesc

/-- The loop of `touchEveryPage` over the pages. -/
def touchPages (sz i : Int) (f : FileDesc) : Option FileDesc :=
  if i < sz then
    if i + 4096 < 2 ^ 31 then touchPages sz (i + 4096) (f.lseek i).writeByte else none
  else some f
termination_by (sz - i).toNat

/-- `touchEveryPage`. -/
def touchEveryPage (sz : Int) (f : FileDesc) : Option FileDesc := do
  let f ← touchPages sz 0 f
  let last ← int (sz - 1)
  some (f.lseek last).writeByte

/-- `getfile`, on a disk with room. -/
def getfile (sz : Int) : Option FileDesc := do
  let realSize ← int (sz + FileTrailerSize)
  let f ← touchEveryPage realSize ((⟨0, 0⟩ : FileDesc).ftruncate realSize)
  some (f.lseek realSize)

/-! ## The writer -/

/-- Addresses of the mapping, relative to its start. -/
structure Region where
  lo : Int
  hi : Int
  deriving DecidableEq

/-- The fields of the file header about the layout. -/
structure Header where
  fileSize : UInt32
  fileHeaderSize : UInt32
  fileTrailerSize : UInt32
  logSizes : Sizes

/-- What the constructor of `TraceFile` sets up. -/
structure Layout where
  header : Header
  mappedSize : UInt32
  headerRegion : Region
  msgCounters : Region
  log : Fin NumTraceLevels → Region
  dictionary : Nat

/-- The end of the page that holds the last byte. -/
def pageEnd (size : Nat) : Nat := (size + 4095) / 4096 * 4096

/-- The constructor of `TraceFile`. A level is what `bufIs` gets. -/
def TraceHandle.newTraceFile (th : TraceHandle) : Option Layout := do
  let mappedSize := th.mappedTraceFileSize
  let f ← getfile mappedSize.toInt32.toInt
  -- `memset` faults behind the last page of the file
  if mappedSize.toNat ≤ pageEnd f.size then
    let logStart : Int := sizeofTraceFileHeader + th.numMsgCounters.toNat * sizeofMsgCounter
    some
      { header :=
          { fileSize := mappedSize
            fileHeaderSize :=
              UInt32.ofNat (sizeofTraceFileHeader + th.numMsgCounters.toNat * sizeofMsgCounter)
            fileTrailerSize := UInt32.ofNat FileTrailerSize
            logSizes := th.sizeSpec }
        mappedSize
        headerRegion := ⟨0, sizeofTraceFileHeader⟩
        msgCounters := ⟨sizeofTraceFileHeader, logStart⟩
        log := fun i =>
          let levelOffset := (addLevelSizes th.sizeSpec i * 1024).toInt32.toInt
          let bufSize := (th.sizeSpec i * 1024).toInt32.toInt
          ⟨logStart + levelOffset, logStart + levelOffset + bufSize⟩
        dictionary := f.pos }
  else none

/-! ## The reader -/

/-- `Tail::initialize`: where a level starts and ends. -/
def Header.level (h : Header) (i : Fin NumTraceLevels) : Region :=
  let logStart : Nat := h.fileHeaderSize.toNat
    + (((List.ofFn h.logSizes).take i).map fun sz => (sz * 1024).toNat).sum
  ⟨logStart, logStart + (h.logSizes i * 1024).toNat⟩

/-- `MessageParser::initialize`: where the descriptors start. -/
def Header.dictionary (h : Header) : Nat := h.fileSize.toNat + h.fileTrailerSize.toNat

/-! ## What is wanted -/

/-- The sizes that count: a level of size zero gets a KiB. -/
def levelSizes (sz : Sizes) (i : Fin NumTraceLevels) : Nat := max 1 (sz i).toNat

/-- The size of the mapped part as an exact integer. -/
def exactSize (numMsgCounters : UInt32) (sz : Sizes) : Nat :=
  sizeofTraceFileHeader + numMsgCounters.toNat * sizeofMsgCounter
    + 1024 * QuickTrace.addLevelSizes (levelSizes sz) NumTraceLevels

/-- A region stands in front of another. -/
def Region.Before (a b : Region) : Prop := a.hi ≤ b.lo

/-- Two regions have no address in common. -/
def Region.Disjoint (a b : Region) : Prop := a.Before b ∨ b.Before a

/-- The parts of a layout. -/
def Layout.regions (l : Layout) : List Region :=
  l.headerRegion :: l.msgCounters :: List.ofFn l.log

/-- A layout is sound: its parts are apart and lie in the mapping, and the
reader finds the same levels and the same start of the descriptors. -/
structure Layout.Sound (l : Layout) : Prop where
  apart : l.regions.Pairwise Region.Disjoint
  inside : ∀ r ∈ l.regions, 0 ≤ r.lo ∧ r.lo ≤ r.hi ∧ r.hi ≤ l.mappedSize.toNat
  levels : ∀ i, l.header.level i = l.log i
  dictionary : l.header.dictionary = l.dictionary

/-- The size of the file is exact, and its layout is sound. -/
structure Agrees (numMsgCounters : UInt32) (sz : Sizes) : Prop where
  exact : (TraceHandle.resize numMsgCounters sz).mappedTraceFileSize.toNat
    = exactSize numMsgCounters sz
  layout : ∃ l, (TraceHandle.resize numMsgCounters sz).newTraceFile = some l ∧ l.Sound

/-! ## Machine words -/

theorem toInt32_toInt (x : UInt32) :
    x.toInt32.toInt = if x.toNat < 2 ^ 31 then (x.toNat : Int) else x.toNat - 2 ^ 32 := by
  have h1 : x.toInt32.toInt = x.toBitVec.toInt := rfl
  have h2 : x.toNat = x.toBitVec.toNat := rfl
  rw [h1, BitVec.toInt_eq_toNat_cond, ← h2]
  split <;> split <;> omega

theorem toInt32_of_lt {x : UInt32} (h : x.toNat < 2 ^ 31) : x.toInt32.toInt = x.toNat := by
  rw [toInt32_toInt, if_pos h]

/-- A sum of words is the sum modulo the word size. -/
theorem toNat_foldl : ∀ (l : List UInt32) (a : UInt32),
    (l.foldl (· + ·) a).toNat = (a.toNat + (l.map UInt32.toNat).sum) % 2 ^ 32
  | [], a => by simp [Nat.mod_eq_of_lt a.toNat_lt]
  | x :: l, a => by
      rw [List.foldl_cons, toNat_foldl l, List.map_cons, List.sum_cons, UInt32.toNat_add]
      omega

theorem toNat_addLevelSizes (sz : Sizes) (k : Nat) : (addLevelSizes sz k).toNat
    = QuickTrace.addLevelSizes (fun i => (sz i).toNat) k % 2 ^ 32 := by
  rw [addLevelSizes, toNat_foldl, QuickTrace.addLevelSizes, List.map_take, List.map_ofFn]
  simp only [UInt32.toNat_zero, Nat.zero_add]
  rfl

theorem toNat_mul_1024 (x : UInt32) : (x * 1024).toNat = x.toNat * 1024 % 2 ^ 32 := by
  rw [UInt32.toNat_mul]
  rfl

/-- `resize` only fills in the levels of size zero. -/
theorem toNat_sizeSpec (n : UInt32) (sz : Sizes) (i : Fin NumTraceLevels) :
    ((TraceHandle.resize n sz).sizeSpec i).toNat = levelSizes sz i := by
  have hi : (TraceHandle.resize n sz).sizeSpec i = limitSize false (sz i) := rfl
  rw [hi, limitSize, levelSizes, if_neg (fun h => Bool.false_ne_true h.2)]
  split
  · rename_i h
    rw [h]
    rfl
  · rename_i h
    have hpos : (sz i).toNat ≠ 0 := fun h' => h (UInt32.toNat_inj.mp h')
    omega

theorem sizeSpec_toNat (n : UInt32) (sz : Sizes) :
    (fun i => ((TraceHandle.resize n sz).sizeSpec i).toNat) = levelSizes sz :=
  funext (toNat_sizeSpec n sz)

/-- The size of the file is the exact one modulo the word size. -/
theorem mappedTraceFileSize_mod (n : UInt32) (sz : Sizes) :
    (TraceHandle.resize n sz).mappedTraceFileSize.toNat = exactSize n sz % 2 ^ 32 := by
  have h := toNat_addLevelSizes (TraceHandle.resize n sz).sizeSpec NumTraceLevels
  rw [sizeSpec_toNat] at h
  have hm : (TraceHandle.resize n sz).mappedTraceFileSize = UInt32.ofNat
      ((addLevelSizes (TraceHandle.resize n sz).sizeSpec NumTraceLevels * 1024).toNat
        + sizeofTraceFileHeader + n.toNat * sizeofMsgCounter) := rfl
  rw [hm, UInt32.toNat_ofNat', toNat_mul_1024, h, exactSize]
  omega

/-! ## getfile -/

theorem int_eq {x : Int} (h : -(2 ^ 31) ≤ x ∧ x < 2 ^ 31) : int x = some x := if_pos h

theorem touchPages_done {sz i : Int} (f : FileDesc) (h : sz ≤ i) : touchPages sz i f = some f := by
  rw [touchPages, if_neg (by omega)]

/-- In a file of that size the loop comes to its end, and the size stays. -/
theorem touchPages_size (sz i : Int) (f : FileDesc) (hi : 0 ≤ i) (hsz : sz + 4096 ≤ 2 ^ 31)
    (hf : sz ≤ f.size) : ∃ f', touchPages sz i f = some f' ∧ f'.size = f.size := by
  induction i, f using touchPages.induct sz with
  | case1 i f hlt hno ih =>
    obtain ⟨f', hrun, hsize⟩ := ih (by omega) (by
      rw [FileDesc.lseek, if_pos hi, FileDesc.writeByte]
      dsimp only
      omega)
    refine ⟨f', ?_, hsize.trans ?_⟩
    · rw [touchPages, if_pos hlt, if_pos hno]
      exact hrun
    · rw [FileDesc.lseek, if_pos hi, FileDesc.writeByte]
      dsimp only
      omega
  | case2 i f hlt hover => omega
  | case3 i f hdone => exact ⟨f, touchPages_done f (by omega), rfl⟩

/-- Close to the largest `int` the counter of the loop overflows. -/
theorem touchPages_overflow (sz i : Int) (f : FileDesc) (hi : 4096 ∣ i) (hlt : i < sz)
    (hsz : 2 ^ 31 < sz + 4096) : touchPages sz i f = none := by
  induction i, f using touchPages.induct sz with
  | case1 i f _ hno ih =>
    rw [touchPages, if_pos hlt, if_pos hno]
    exact ih (by omega) (by omega)
  | case2 i f _ hover => rw [touchPages, if_pos hlt, if_neg hover]
  | case3 i f hdone => exact absurd hlt hdone

/-- A size that is not too large is the size of the file. -/
theorem getfile_eq {m : Nat} (h : m + 5120 ≤ 2 ^ 31) : getfile m = some ⟨m + 1024, m + 1024⟩ := by
  have hreal : (m : Int) + FileTrailerSize = (m + 1024 : Nat) := rfl
  have htrunc : (⟨0, 0⟩ : FileDesc).ftruncate (m + 1024 : Nat) = ⟨m + 1024, 0⟩ := if_pos (by omega)
  obtain ⟨f, hf, hsize⟩ := touchPages_size (m + 1024 : Nat) 0 ⟨m + 1024, 0⟩ (Int.le_refl _)
    (by omega) (Int.le_refl _)
  unfold getfile touchEveryPage
  rw [hreal, int_eq (by omega)]
  simp only [Option.bind_eq_bind, Option.bind_some, htrunc, hf, int_eq (show
    -(2 ^ 31) ≤ ((m + 1024 : Nat) : Int) - 1 ∧ ((m + 1024 : Nat) : Int) - 1 < 2 ^ 31 by omega)]
  unfold FileDesc.writeByte FileDesc.lseek
  rw [if_pos (by omega), if_pos (by omega)]
  simp only [hsize, Option.some.injEq, FileDesc.mk.injEq]
  omega

/-- Behind that size the arithmetic of `getfile` overflows. -/
theorem getfile_overflow {m : Nat} (h : 2 ^ 31 < m + 5120) : getfile m = none := by
  unfold getfile int
  split
  · have hover := touchPages_overflow (m + FileTrailerSize) 0
      ((⟨0, 0⟩ : FileDesc).ftruncate (m + FileTrailerSize)) (Int.dvd_zero _)
      (by unfold FileTrailerSize; omega) (by unfold FileTrailerSize; omega)
    simp [touchEveryPage, hover]
  · rfl

/-- A negative size leaves less than a page. -/
theorem getfile_negative {sz : Int} (hsz : sz < 0) {f : FileDesc} (h : getfile sz = some f) :
    f.size ≤ 4096 := by
  unfold getfile at h
  simp only [Option.bind_eq_bind, Option.bind_eq_some_iff] at h
  obtain ⟨realSize, hreal, f₁, htouch, hf⟩ := h
  have hlt : realSize < 1024 := by
    unfold int at hreal
    split at hreal
    · cases hreal
      unfold FileTrailerSize
      omega
    · cases hreal
  have hsize : f.size = f₁.size := by
    cases hf
    unfold FileDesc.lseek
    split <;> rfl
  rw [hsize]
  unfold touchEveryPage at htouch
  simp only [Option.bind_eq_bind, Option.bind_eq_some_iff, Option.some.injEq] at htouch
  obtain ⟨f₂, hpages, last, hlast, rfl⟩ := htouch
  have hlast : last = realSize - 1 := by
    unfold int at hlast
    split at hlast
    · exact (Option.some.inj hlast).symm
    · cases hlast
  by_cases hpos : 0 < realSize
  · -- one page
    rw [touchPages, if_pos hpos, if_pos (by omega), touchPages_done _ (by omega)] at hpages
    cases hpages
    rw [FileDesc.ftruncate, if_pos (by omega)]
    simp only [FileDesc.lseek, FileDesc.writeByte, hlast]
    split
    · simp
      omega
    · simp
      omega
  · rw [touchPages_done _ (by omega)] at hpages
    cases hpages
    unfold FileDesc.ftruncate FileDesc.lseek FileDesc.writeByte
    rw [hlast, if_neg (show ¬ 0 ≤ realSize - 1 by omega)]
    split
    · simp
      omega
    · simp

/-! ## The layout -/

/-- Where the levels start. -/
def logStart (numMsgCounters : UInt32) : Nat :=
  sizeofTraceFileHeader + numMsgCounters.toNat * sizeofMsgCounter

/-- The sizes that count, for a file that is not too large. -/
def spec (n : UInt32) (sz : Sizes) (h : exactSize n sz + 5120 ≤ 2 ^ 31) : QuickTrace.SizeSpec where
  sz := levelSizes sz
  pos := fun i => Nat.le_max_left 1 _
  fits := by
    unfold exactSize at h
    omega

section

variable {n : UInt32} {sz : Sizes} (h : exactSize n sz + 5120 ≤ 2 ^ 31)

theorem levelEnd_le_exactSize (i : Fin NumTraceLevels) :
    (spec n sz h).levelEnd (logStart n) i ≤ exactSize n sz := by
  have h1 := SizeSpec.addLevelSizes_succ (levelSizes sz) i
  have h2 := SizeSpec.addLevelSizes_mono (levelSizes sz) (show i.val + 1 ≤ NumTraceLevels from i.isLt)
  have hend : (spec n sz h).levelEnd (logStart n) i
      = logStart n + QuickTrace.addLevelSizes (levelSizes sz) i * 1024 + levelSizes sz i * 1024 := rfl
  rw [hend, exactSize, logStart]
  omega

/-- The region of a level of `TraceFile`. -/
def levelRegion (i : Fin NumTraceLevels) : Region :=
  ⟨(spec n sz h).levelStart (logStart n) i, (spec n sz h).levelEnd (logStart n) i⟩

/-- The offset and the size that `bufIs` gets are those of the level. -/
theorem writer_level (i : Fin NumTraceLevels) :
    Region.mk (logStart n + (addLevelSizes (TraceHandle.resize n sz).sizeSpec i * 1024).toInt32.toInt)
        (logStart n + (addLevelSizes (TraceHandle.resize n sz).sizeSpec i * 1024).toInt32.toInt
          + ((TraceHandle.resize n sz).sizeSpec i * 1024).toInt32.toInt)
      = levelRegion h i := by
  have hend := levelEnd_le_exactSize h i
  have hoff : (addLevelSizes (TraceHandle.resize n sz).sizeSpec i * 1024).toNat
      = QuickTrace.addLevelSizes (levelSizes sz) i * 1024 := by
    rw [toNat_mul_1024, toNat_addLevelSizes, sizeSpec_toNat]
    unfold SizeSpec.levelEnd SizeSpec.levelStart spec at hend
    dsimp only at hend
    omega
  have hsize : ((TraceHandle.resize n sz).sizeSpec i * 1024).toNat = levelSizes sz i * 1024 := by
    rw [toNat_mul_1024, toNat_sizeSpec]
    unfold SizeSpec.levelEnd SizeSpec.levelSize spec at hend
    dsimp only at hend
    omega
  unfold SizeSpec.levelEnd SizeSpec.levelStart SizeSpec.levelSize spec at hend
  dsimp only at hend
  rw [toInt32_of_lt (by omega), toInt32_of_lt (by omega), hoff, hsize]
  rfl

/-- Sizes that can be scaled are scaled one by one. -/
theorem sum_scaled : ∀ (l : List UInt32), (∀ x ∈ l, x.toNat * 1024 < 2 ^ 32) →
    (l.map fun x => (x * 1024).toNat).sum = (l.map UInt32.toNat).sum * 1024
  | [], _ => rfl
  | x :: l, hl => by
      obtain ⟨hx, hl⟩ := List.forall_mem_cons.mp hl
      rw [List.map_cons, List.map_cons, List.sum_cons, List.sum_cons, sum_scaled l hl,
        toNat_mul_1024, Nat.mod_eq_of_lt hx, Nat.add_mul]

include h in
/-- A level is smaller than the file. -/
theorem levelSize_lt (i : Fin NumTraceLevels) : levelSizes sz i * 1024 < 2 ^ 31 := by
  have hend := levelEnd_le_exactSize h i
  unfold SizeSpec.levelEnd SizeSpec.levelSize spec at hend
  dsimp only at hend
  omega

/-- The reader finds the level, too. -/
theorem reader_level (i : Fin NumTraceLevels) {hdr : Header}
    (hsize : hdr.fileHeaderSize = UInt32.ofNat (logStart n))
    (hsizes : hdr.logSizes = (TraceHandle.resize n sz).sizeSpec) :
    hdr.level i = levelRegion h i := by
  have hscaled : ∀ x ∈ (List.ofFn (TraceHandle.resize n sz).sizeSpec).take i,
      x.toNat * 1024 < 2 ^ 32 := by
    intro x hx
    obtain ⟨j, rfl⟩ := List.mem_ofFn.mp (List.mem_of_mem_take hx)
    have hlt := levelSize_lt h j
    rw [toNat_sizeSpec]
    omega
  have hsum := sum_scaled _ hscaled
  have hadd : (((List.ofFn (TraceHandle.resize n sz).sizeSpec).take i).map UInt32.toNat).sum
      = QuickTrace.addLevelSizes (levelSizes sz) i := by
    rw [← sizeSpec_toNat n sz, QuickTrace.addLevelSizes, List.map_take, List.map_ofFn]
    rfl
  have hlog : (UInt32.ofNat (logStart n)).toNat = logStart n := by
    refine UInt32.toNat_ofNat_of_lt' ?_
    unfold exactSize at h
    show logStart n < 2 ^ 32
    unfold logStart
    omega
  have hone : ((TraceHandle.resize n sz).sizeSpec i * 1024).toNat = levelSizes sz i * 1024 := by
    have hlt := levelSize_lt h i
    rw [toNat_mul_1024, toNat_sizeSpec]
    omega
  unfold Header.level
  rw [hsize, hsizes, hsum, hadd, hlog, hone]
  rfl

/-- One level stands in front of the next, and all behind the counters. -/
theorem levelRegion_before {i j : Fin NumTraceLevels} (hij : i < j) :
    (levelRegion h i).Before (levelRegion h j) :=
  Int.ofNat_le.mpr ((spec n sz h).levelEnd_le (logStart n) hij)

include h in
theorem mappedTraceFileSize_eq :
    (TraceHandle.resize n sz).mappedTraceFileSize.toNat = exactSize n sz := by
  have hmod := mappedTraceFileSize_mod n sz
  omega

/-- The layout of a file that is not too large. -/
theorem newTraceFile_eq : (TraceHandle.resize n sz).newTraceFile = some
    { header :=
        { fileSize := (TraceHandle.resize n sz).mappedTraceFileSize
          fileHeaderSize := UInt32.ofNat (logStart n)
          fileTrailerSize := UInt32.ofNat FileTrailerSize
          logSizes := (TraceHandle.resize n sz).sizeSpec }
      mappedSize := (TraceHandle.resize n sz).mappedTraceFileSize
      headerRegion := ⟨0, sizeofTraceFileHeader⟩
      msgCounters := ⟨sizeofTraceFileHeader, logStart n⟩
      log := levelRegion h
      dictionary := exactSize n sz + 1024 } := by
  have hmapped := mappedTraceFileSize_eq h
  have hint : (TraceHandle.resize n sz).mappedTraceFileSize.toInt32.toInt = exactSize n sz := by
    rw [toInt32_of_lt (by omega), hmapped]
  have hfile := getfile_eq h
  have hpage : (TraceHandle.resize n sz).mappedTraceFileSize.toNat
      ≤ pageEnd (exactSize n sz + 1024) := by
    rw [hmapped, pageEnd]
    omega
  unfold TraceHandle.newTraceFile
  simp only [hint, hfile, Option.bind_eq_bind, Option.bind_some, if_pos hpage]
  have hlog := funext (writer_level h)
  rw [← hlog]
  rfl

include h in
/-- A file that is not too large is laid out soundly. -/
theorem agrees_of_le : Agrees n sz := by
  have hmapped := mappedTraceFileSize_eq h
  refine ⟨hmapped, _, newTraceFile_eq h, ?_⟩
  constructor
  · -- header, counters and levels stand one behind the other
    have hlevels : ∀ r ∈ List.ofFn (levelRegion h), (logStart n : Int) ≤ r.lo := by
      intro r hr
      obtain ⟨i, rfl⟩ := List.mem_ofFn.mp hr
      exact Int.ofNat_le.mpr (Nat.le_add_right _ _)
    have hstart : (sizeofTraceFileHeader : Int) ≤ logStart n :=
      Int.ofNat_le.mpr (Nat.le_add_right _ _)
    refine List.pairwise_cons.mpr ⟨fun r hr => .inl ?_, List.pairwise_cons.mpr
      ⟨fun r hr => .inl (hlevels r hr), ?_⟩⟩
    · rcases List.mem_cons.mp hr with rfl | hr
      · exact Int.le_refl _
      · exact Int.le_trans hstart (hlevels r hr)
    · refine List.pairwise_ofFn.mpr fun i j hij => .inl (levelRegion_before h hij)
  · intro r hr
    have hexact : (logStart n : Int) ≤ exactSize n sz := Int.ofNat_le.mpr (Nat.le_add_right _ _)
    have hstart : (sizeofTraceFileHeader : Int) ≤ logStart n :=
      Int.ofNat_le.mpr (Nat.le_add_right _ _)
    rw [hmapped]
    rcases List.mem_cons.mp hr with rfl | hr
    · exact ⟨Int.le_refl _, Int.natCast_nonneg _, Int.le_trans hstart hexact⟩
    · rcases List.mem_cons.mp hr with rfl | hr
      · exact ⟨Int.natCast_nonneg _, hstart, hexact⟩
      · obtain ⟨i, rfl⟩ := List.mem_ofFn.mp hr
        exact ⟨Int.natCast_nonneg _, Int.ofNat_le.mpr (Nat.le_add_right _ _),
          Int.ofNat_le.mpr (levelEnd_le_exactSize h i)⟩
  · exact fun i => reader_level h i rfl rfl
  · show (TraceHandle.resize n sz).mappedTraceFileSize.toNat + (UInt32.ofNat FileTrailerSize).toNat
      = exactSize n sz + 1024
    rw [hmapped]
    rfl

end

/-- For every size and every number of counters the size of the file is
exact, its layout sound and the same for both programs exactly if the file
stays five KiB below the largest `int`. -/
theorem agrees_iff (n : UInt32) (sz : Sizes) : Agrees n sz ↔ exactSize n sz + 5120 ≤ 2 ^ 31 := by
  refine ⟨fun ⟨hexact, l, hl, _⟩ => ?_, agrees_of_le⟩
  unfold TraceHandle.newTraceFile at hl
  simp only [Option.bind_eq_bind, Option.bind_eq_some_iff] at hl
  obtain ⟨f, hf, hl⟩ := hl
  have hlt := (TraceHandle.resize n sz).mappedTraceFileSize.toNat_lt
  rw [toInt32_toInt] at hf
  split at hf
  · rw [hexact] at hf
    by_contra hlarge
    rw [getfile_overflow (by omega)] at hf
    cases hf
  · -- as an `int` the size is negative, and the file stays small
    have hsize := getfile_negative (by omega) hf
    split at hl
    · rename_i hpage
      unfold pageEnd at hpage
      omega
    · cases hl

/-- Level 0 gets 4 GiB. -/
def fourGiB : Sizes := fun i => if i = 0 then 4194304 else 1

/-- The file gets nine KiB for its ten levels. -/
theorem fourGiB_lost : ¬ Agrees 512 fourGiB
    ∧ (TraceHandle.resize 512 fourGiB).mappedTraceFileSize = 104 + 512 * 24 + 9 * 1024 := by
  refine ⟨fun h => ?_, by decide +kernel⟩
  have hexact := h.exact
  revert hexact
  decide +kernel

end QuickTrace.FileLayout
