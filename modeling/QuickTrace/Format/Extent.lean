/-
QuickTrace.Format.Extent — how far decoding steps, whatever stands in
memory.

`length` measures bytes without looking whether a message stands there.
`extents` is what it computes from the types alone (`Describes.length_eq`);
it depends only on the bytes it steps over (`extents_congr`), and on the
bytes of a value it is their number (`Value.extent_encode`).
-/
import QuickTrace.Format.RoundTrip

namespace QuickTrace

open QuickTrace.Lib RingBuf

/-! ## One value -/

/-- The bytes decoding a value of this type steps over at `p`. -/
def Ty.extent (m : Mem) : Ty → Nat → Nat
  | .char, _ | .bool, _ | .u8, _ | .i8, _ => 1
  | .u16, _ | .i16, _ => 2
  | .u32, _ | .i32, _ | .float, _ => 4
  | .u64, _ | .i64, _ | .double, _ | .ptr, _ => 8
  | .str, p => 1 + (m p).toNat
  | .opt t, p => if m p = 0 then 1 else 1 + t.extent m (p + 1)

theorem Ty.extent_pos (m : Mem) (t : Ty) (p : Nat) : 0 < t.extent m p := by
  cases t with
  | opt t =>
    rw [Ty.extent]
    split <;> omega
  | str => rw [Ty.extent]; omega
  | _ => exact Nat.succ_pos _

theorem Length.run_extent {m : Mem} : ∀ {l : Length} {t : Ty} {p : Nat}, l.fits t = true →
    l.run m p = t.extent m p := by
  intro l
  induction l with
  | opt l ih =>
    intro t p h
    cases t with
    | opt t => rw [Length.run, Ty.extent, ih h]
    | _ => cases h
  | _ =>
    intro t p h
    cases t <;> first | rfl | cases h

theorem Ty.extent_congr {m m' : Mem} : ∀ {t : Ty} {p : Nat},
    (∀ x, p ≤ x → x < p + t.extent m p → m' x = m x) → t.extent m' p = t.extent m p := by
  intro t
  induction t with
  | opt t ih =>
    intro p h
    have hp := h p (Nat.le_refl _) (Nat.lt_add_of_pos_right (extent_pos m _ p))
    rw [Ty.extent] at h
    rw [Ty.extent, Ty.extent, hp]
    split
    · rfl
    · rename_i hne
      rw [if_neg hne] at h
      rw [ih fun x h1 h2 => h x (by omega) (by omega)]
  | str =>
    intro p h
    have hp := h p (Nat.le_refl _) (Nat.lt_add_of_pos_right (extent_pos m _ p))
    rw [Ty.extent, Ty.extent, hp]
  | _ => exact fun _ => rfl

theorem Ty.extent_shift (m : Mem) (c : Nat) : ∀ (t : Ty) (p : Nat),
    t.extent (fun x => m (c + x)) p = t.extent m (c + p) := by
  intro t
  induction t with
  | opt t ih =>
    intro p
    rw [Ty.extent, Ty.extent, ih]
    rfl
  | str => exact fun _ => rfl
  | _ => exact fun _ => rfl

/-! ## Several values -/

/-- The bytes decoding values of these types steps over. -/
def extents (m : Mem) (p : Nat) : List Ty → Nat
  | [] => 0
  | t :: ts => t.extent m p + extents m (p + t.extent m p) ts

theorem extents_congr {m m' : Mem} : ∀ {ts : List Ty} {p : Nat},
    (∀ x, p ≤ x → x < p + extents m p ts → m' x = m x) → extents m' p ts = extents m p ts
  | [], _, _ => rfl
  | t :: ts, p, h => by
      rw [extents] at h
      have h1 : t.extent m' p = t.extent m p :=
        Ty.extent_congr fun x hx hlt => h x hx (by omega)
      rw [extents, extents, h1, extents_congr fun x hx hlt => h x (by omega) (by omega)]

theorem extents_shift (m : Mem) (c : Nat) : ∀ (ts : List Ty) (p : Nat),
    extents (fun x => m (c + x)) p ts = extents m (c + p) ts
  | [], _ => rfl
  | t :: ts, p => by
      rw [extents, extents, Ty.extent_shift, extents_shift m c ts, Nat.add_assoc]

/-- `length` over functions that fit the types. -/
theorem lengthLoop_extents {m : Mem} {buf : Nat} : ∀ {ls : List Length} {ts : List Ty} (k : Nat),
    LengthsFit ls ts →
    MessageFormatter.lengthLoop m buf ls k = some (k + extents m (buf + k) ts)
  | [], _, k, h => by
      cases h
      rfl
  | l :: ls, _, k, h => by
      cases h with
      | @cons _ t _ ts h1 h2 =>
        have hrun := Length.run_extent (m := m) (p := buf + k) h1
        have hpos := Ty.extent_pos m t (buf + k)
        rw [MessageFormatter.lengthLoop]
        simp only [hrun]
        rw [if_neg (by omega), lengthLoop_extents (k + t.extent m (buf + k)) h2, extents]
        rw [Nat.add_assoc, Nat.add_assoc]

theorem extent_of_code {t : Ty} (h : formatString t = ascii ['q']) (m : Mem) (p : Nat) :
    t.extent m p = 8 := by
  cases t with
  | u64 | i64 | ptr => rfl
  | opt t => simp [formatString, ascii] at h
  | _ =>
    simp only [formatString, ascii] at h
    exact absurd h (by decide)

/-- What `length` computes, on any bytes. -/
theorem MessageFormatter.Describes.length_eq {mf : MessageFormatter} {ts : List Ty}
    (h : mf.Describes ts) (m : Mem) (buf : Nat) : mf.length m buf = some (extents m buf ts) := by
  cases h with
  | plain h1 h2 =>
    rw [MessageFormatter.length, lengthLoop_extents 0 h2, Nat.zero_add, Nat.add_zero]
  | @wallClock t u ts es ls ht hu he h1 hl h2 =>
    have hfirst : mf.length m buf = MessageFormatter.lengthLoop m buf ls 16 := by
      rw [MessageFormatter.length, hl]
      rfl
    rw [hfirst, lengthLoop_extents _ h2, extents, extents, extent_of_code ht, extent_of_code hu,
      Nat.add_assoc buf 8 8, ← Nat.add_assoc 8 8]

/-! ## The bytes of a message -/

theorem Value.extent_encode {n : Nat} (hn : n ≤ 255) {m : Mem} (v : Value) : ∀ {p : Nat},
    m.Holds p (v.encode n) → v.ty.extent m p = (v.encode n).length := by
  induction v with
  | str x =>
    intro p h
    have hlen := toNat_length_byte (Nat.le_trans (cut_length_le n x) hn)
    rw [Value.ty, Ty.extent, h.1, hlen, Value.encode, encodeString, List.length_cons, Nat.add_comm]
  | optNone t =>
    intro p h
    rw [Value.ty, Ty.extent, if_pos h.1]
    rfl
  | optSome v ih =>
    intro p h
    have h1 : m p ≠ 0 := by rw [h.1]; decide
    rw [Value.ty, Ty.extent, if_neg h1, ih h.2, Value.encode, List.length_cons, Nat.add_comm]
  | _ => exact fun _ => rfl

theorem RingBuf.Arg.extent_encode {n : Nat} (hn : n ≤ 255) {m : Mem} {p : Nat} (a : Arg)
    (h : m.Holds p (a.encode n)) : a.ty.extent m p = (a.encode n).length := by
  cases a with
  | val v => exact Value.extent_encode hn v h
  | longStr x => exact Value.extent_encode (n := LONGSTRING_LIMIT) (by decide) (.str x) h

end QuickTrace
