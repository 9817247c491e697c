/-
QuickTrace.Ring.StringLimit — the limit of recorded strings.

The constructor of a trace handle keeps `maxStringLen` in `qtMaxStringLen`,
at most 80, and `put` uses it as the unsigned bound of its copy loop. The
limit is only cut from above: a negative one is a bound of more than
`2 ^ 31`, strings are then copied in full, and the length byte in front of
them does not hold their length (`respectsLimit_iff`).
-/
import QuickTrace.Ring.Encoding
import QuickTrace.Format.MessageFormatterTheorems

namespace QuickTrace

open QuickTrace.Lib

namespace StringLimit

/-! ## The limit -/

/-- What `initialize( filename, …, maxStringLen, … )` leaves in
`qtMaxStringLen`. -/
def limitAfter (filename : Option Text) (maxStringLen qtMaxStringLen : Int32) : Int32 :=
  match filename with
  | none => qtMaxStringLen
  | some [] => qtMaxStringLen
  | some (_ :: _) => if 80 < maxStringLen then 80 else maxStringLen

/-- The bound of the copy loop, an `unsigned int`. -/
def bound (qtMaxStringLen : Int32) : Nat := qtMaxStringLen.toUInt32.toNat

/-- `put( RingBuf *, char const * )`. -/
def put (qtMaxStringLen : Int32) (rb : RingBuf) (x : Text) : RingBuf × List Store :=
  rb.putWithMaxLen x (bound qtMaxStringLen)

theorem bound_of_nonneg {z : Int32} (h : 0 ≤ z) : (bound z : Int) = z.toInt := by
  unfold bound
  rw [Int32.toNat_toUInt32_of_le h, Int32.cast_toNatClampNeg z h]

theorem bound_of_neg {z : Int32} (h : z < 0) : 2147483648 ≤ bound z := by
  have hz : z.toBitVec.toInt < 0 := Int32.lt_iff_toInt_lt.mp h
  have hcond := BitVec.toInt_eq_toNat_cond z.toBitVec
  have hnat : bound z = z.toBitVec.toNat := rfl
  rw [hnat]
  omega

/-- From below the limit is not cut. -/
theorem limitAfter_of_neg {c : UInt8} {cs : Text} {z q : Int32} (h : z < 0) :
    limitAfter (some (c :: cs)) z q = z := by
  rw [limitAfter, if_neg]
  intro h80
  have hlt := Int32.lt_iff_toInt_lt.mp h
  have hlt80 := Int32.lt_iff_toInt_lt.mp h80
  have h0 : (0 : Int32).toInt = 0 := by decide
  have h1 : (80 : Int32).toInt = 80 := by decide
  omega

theorem bound_limit (c : UInt8) (cs : Text) {maxStringLen : Int32} (q : Int32)
    (h : 0 ≤ maxStringLen) : bound (limitAfter (some (c :: cs)) maxStringLen q) ≤ 80 := by
  rw [limitAfter]
  by_cases h80 : 80 < maxStringLen
  · rw [if_pos h80]
    decide
  · rw [if_neg h80]
    have hb := bound_of_nonneg h
    have hle := Int32.le_iff_toInt_le.mp (Int32.not_lt.mp h80)
    have h1 : (80 : Int32).toInt = 80 := by decide
    omega

/-! ## Recorded strings -/

/-- The characters of a C string. -/
def chars (x : Text) : Text := x.takeWhile (· != 0)

/-- `w`, the result of a writer function started at `rb`, appends a length
byte `L` of at most 80 and the first `L` characters of `x`, and the two
functions for strings consume exactly these bytes. -/
def Respects (x : Text) (rb : RingBuf) (w : RingBuf × List Store) : Prop :=
  ∃ L : UInt8, L.toNat ≤ 80 ∧ ((chars x).take L.toNat).length = L.toNat ∧
    RingBuf.Writes rb w (L :: (chars x).take L.toNat) ∧
    ∀ m : Mem, Length.string.run (m.applyAll w.2) rb.ptr = w.1.ptr - rb.ptr ∧
      ∀ os, Formatter.string.run (m.applyAll w.2) rb.ptr os
        = (w.1.ptr - rb.ptr, os.write ((chars x).take L.toNat))

/-- Strings recorded after `initialize` with `maxStringLen` respect the
limit. -/
def RespectsLimit (maxStringLen : Int32) (x : Text) : Prop :=
  ∀ (filename : Text) (q : Int32) (rb : RingBuf), filename ≠ [] →
    Respects x rb (put (limitAfter (some filename) maxStringLen q) rb x)

theorem cut_eq_take (n : Nat) (x : Text) :
    cut n x = (chars x).take (cut n x).length := by
  unfold cut chars
  rw [List.length_take]
  rcases Nat.le_total n (x.takeWhile (· != 0)).length with h | h
  · rw [Nat.min_eq_left h]
  · rw [Nat.min_eq_right h, List.take_of_length_le h, List.take_length]

theorem cut_length (n : Nat) (x : Text) : (cut n x).length = min n (chars x).length :=
  List.length_take

theorem cut_cut (n : Nat) (x : Text) : cut (cut n x).length x = cut n x :=
  (cut_eq_take n x).symm

/-- Only the characters that are copied matter. -/
theorem encodeString_cut (n : Nat) (x : Text) :
    encodeString n x = encodeString (cut n x).length x := by
  unfold encodeString
  rw [cut_cut]

/-- The strings of which at most 80 characters are copied. -/
theorem respects_iff (q : Int32) (x : Text) (rb : RingBuf) :
    Respects x rb (put q rb x) ↔ (cut (bound q) x).length ≤ 80 := by
  have hw := RingBuf.Writes.putWithMaxLen rb x (bound q)
  constructor
  · rintro ⟨L, hL, hlen, hwrites, -⟩
    have hptr : rb.ptr + _ = rb.ptr + _ := hwrites.ptr.symm.trans hw.ptr
    rw [encodeString, List.length_cons, List.length_cons, hlen] at hptr
    omega
  · intro h
    have hL : (UInt8.ofNat (cut (bound q) x).length).toNat = (cut (bound q) x).length :=
      toNat_length_byte (by omega)
    refine ⟨UInt8.ofNat (cut (bound q) x).length, by omega, ?_, ?_, ?_⟩
    · rw [hL, ← cut_eq_take]
    · rw [hL, ← cut_eq_take]
      exact hw
    · intro m
      have hm : (m.applyAll (put q rb x).2).Holds rb.ptr
          (encodeString (cut (bound q) x).length x) := by
        rw [← encodeString_cut, put, hw.mem]
        exact Mem.holds_store m rb.ptr _
      have hlen : (put q rb x).1.ptr - rb.ptr
          = (encodeString (cut (bound q) x).length x).length := by
        rw [← encodeString_cut, put, hw.ptr, Nat.add_sub_cancel_left]
      rw [hlen, hL, ← cut_eq_take]
      constructor
      · exact string_length (by omega) hm
      · intro os
        rw [string_run (by omega) hm os, cut_cut]

/-- Which strings respect the limit. -/
theorem respectsLimit_iff (maxStringLen : Int32) (x : Text) :
    RespectsLimit maxStringLen x ↔ 0 ≤ maxStringLen ∨ (chars x).length ≤ 80 := by
  constructor
  · intro h
    have hr := h [46] 24 ⟨0, none, 0, 0⟩ (List.cons_ne_nil _ _)
    rw [respects_iff, cut_length] at hr
    by_contra hcon
    rw [not_or] at hcon
    have hlt : maxStringLen < 0 := Int32.not_le.mp hcon.1
    have hb := bound_of_neg hlt
    rw [limitAfter_of_neg hlt] at hr
    omega
  · intro h filename q rb hne
    obtain ⟨c, cs, rfl⟩ := List.exists_cons_of_ne_nil hne
    rw [respects_iff, cut_length]
    rcases h with h | h
    · have := bound_limit c cs q h
      omega
    · omega

/-- A limit of `-1`, and a string of 81 characters. -/
theorem respectsLimit_negative :
    ¬ ∀ (maxStringLen : Int32) (x : Text), RespectsLimit maxStringLen x := by
  intro h
  have hr := h (-1) (List.replicate 81 97) [46] 24 ⟨0, none, 0, 0⟩ (List.cons_ne_nil _ _)
  rw [respects_iff, cut_length] at hr
  revert hr
  decide

end StringLimit

end QuickTrace
