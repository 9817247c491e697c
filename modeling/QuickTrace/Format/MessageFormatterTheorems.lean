/-
QuickTrace.Format.MessageFormatterTheorems — decoding the arguments
of a message.

A formatter that fits a type consumes the bytes `put` wrote for a value of
that type and inserts the value (`Formatter.run_fits`); lists of formatters
follow (`formatLoop_fits`, `lengthLoop_fits`).
-/
import QuickTrace.Format.FormatKey
import QuickTrace.Ring.Encoding

namespace QuickTrace

open QuickTrace.Lib RingBuf

/-! ## Decoding one value -/

/-- What decoding a value inserts into the stream. -/
def Value.recovered (n : Nat) : Value → Piece
  | .char x => .char x
  | .bool x => .bool x
  | .u8 x => .num x.toNat
  | .i8 x => .num x.toUInt8.toNat
  | .u16 x => .num x.toNat
  | .i16 x => .num x.toUInt16.toNat
  | .u32 x => .num x.toNat
  | .i32 x => .num x.toUInt32.toNat
  | .u64 x => .num x.toNat
  | .i64 x => .num x.toUInt64.toNat
  | .float bits => .float bits
  | .double bits => .double bits
  | .str x => .str (cut n x)
  | .ptr x => .num x.toNat
  | .optNone _ => .optionalNone
  | .optSome v => v.recovered n

/-- What decoding an argument inserts. -/
def RingBuf.Arg.recovered (n : Nat) : Arg → Piece
  | .val v => v.recovered n
  | .longStr x => .str (cut LONGSTRING_LIMIT x)

theorem readBytes_holds {m : Mem} : ∀ {bs : Text} {a : Nat}, m.Holds a bs →
    readBytes m a bs.length = bs
  | [], _, _ => rfl
  | b :: bs, a, h => by rw [List.length_cons, readBytes, h.1, readBytes_holds h.2]

theorem load_word {m : Mem} {a k v : Nat} (h : m.Holds a (leBytes k v)) (hv : v < 256 ^ k) :
    m.load a k = v := by
  rw [Mem.load_leBytes h, Nat.mod_eq_of_lt hv]

theorem values_insertHex (os : OStream) (k : Nat) :
    (insertHex os k).values = os.values ++ [.num k] := by
  simp [insertHex, Piece.isValue]

theorem toNat_length_byte {k : Nat} (h : k ≤ 255) : (UInt8.ofNat k).toNat = k := by
  rw [UInt8.toNat_ofNat']
  exact Nat.mod_eq_of_lt (by omega)

/-- A string that fits its length byte. -/
theorem string_run {m : Mem} {a n : Nat} {x : Text} (hn : n ≤ 255)
    (h : m.Holds a (encodeString n x)) (os : OStream) :
    Formatter.string.run m a os = ((encodeString n x).length, os.write (cut n x)) := by
  have hlen := toNat_length_byte (Nat.le_trans (cut_length_le n x) hn)
  rw [Formatter.run, h.1, hlen, readBytes_holds h.2, encodeString, List.length_cons,
    Nat.add_comm]

theorem string_length {m : Mem} {a n : Nat} {x : Text} (hn : n ≤ 255)
    (h : m.Holds a (encodeString n x)) :
    Length.string.run m a = (encodeString n x).length := by
  have hlen := toNat_length_byte (Nat.le_trans (cut_length_le n x) hn)
  rw [Length.run, h.1, hlen, encodeString, List.length_cons, Nat.add_comm]

/-- A formatter reads the value of its type that stands in memory. -/
def Formatter.Reads (f : Formatter) (m : Mem) (a : Nat) (bs : List UInt8) (p : Piece) : Prop :=
  ∀ os : OStream, (f.run m a os).1 = bs.length ∧ (f.run m a os).2.values = os.values ++ [p]

theorem reads_byte {m : Mem} {a : Nat} {b : UInt8} (h : m.Holds a [b]) :
    Formatter.u8.Reads m a [b] (.num b.toNat) ∧ Formatter.u8Hex.Reads m a [b] (.num b.toNat) := by
  refine ⟨fun os => ⟨rfl, ?_⟩, fun os => ⟨rfl, ?_⟩⟩
  · simp [Formatter.run, h.1, Piece.isValue]
  · simp [Formatter.run, h.1, values_insertHex]

theorem reads_u16 {m : Mem} {a v : Nat} (h : m.Holds a (leBytes 2 v)) (hv : v < 2 ^ 16) :
    Formatter.u16.Reads m a (leBytes 2 v) (.num v)
      ∧ Formatter.u16Hex.Reads m a (leBytes 2 v) (.num v) := by
  have hload := load_word h hv
  refine ⟨fun os => ⟨rfl, ?_⟩, fun os => ⟨rfl, ?_⟩⟩
  · simp [Formatter.run, hload, Piece.isValue]
  · simp [Formatter.run, hload, values_insertHex]

theorem reads_u32 {m : Mem} {a v : Nat} (h : m.Holds a (leBytes 4 v)) (hv : v < 2 ^ 32) :
    Formatter.u32.Reads m a (leBytes 4 v) (.num v)
      ∧ Formatter.u32Hex.Reads m a (leBytes 4 v) (.num v) := by
  have hload := load_word h hv
  refine ⟨fun os => ⟨rfl, ?_⟩, fun os => ⟨rfl, ?_⟩⟩
  · simp only [Formatter.run, hload]
    split <;> simp [Piece.isValue]
  · simp [Formatter.run, hload, values_insertHex]

theorem reads_u64 {m : Mem} {a v : Nat} (h : m.Holds a (leBytes 8 v)) (hv : v < 2 ^ 64) :
    Formatter.u64.Reads m a (leBytes 8 v) (.num v)
      ∧ Formatter.u64Hex.Reads m a (leBytes 8 v) (.num v) := by
  have hload := load_word h hv
  refine ⟨fun os => ⟨rfl, ?_⟩, fun os => ⟨rfl, ?_⟩⟩
  · simp [Formatter.run, hload, Piece.isValue]
  · simp [Formatter.run, hload, values_insertHex]

/-- A formatter that fits the type of a value decodes it. -/
theorem Formatter.run_fits {n : Nat} (hn : n ≤ 255) {m : Mem} (v : Value) :
    ∀ {f : Formatter} {a : Nat}, f.fits v.ty = true → m.Holds a (v.encode n) →
      f.Reads m a (v.encode n) (v.recovered n) := by
  induction v with
  | char x =>
    intro f a hf h
    cases f <;> simp [Formatter.fits, Value.ty] at hf
    intro os
    exact ⟨rfl, by simp [Formatter.run, h.1, Piece.isValue, Value.recovered]⟩
  | bool x =>
    intro f a hf h
    cases f <;> simp [Formatter.fits, Value.ty] at hf
    intro os
    refine ⟨rfl, ?_⟩
    have hx : (m a != 0) = x := by rw [h.1]; cases x <;> rfl
    simp [Formatter.run, hx, Piece.isValue, Value.recovered]
  | u8 x | i8 x =>
    intro f a hf h
    cases f <;> simp [Formatter.fits, Value.ty] at hf
    · exact (reads_byte h).1
    · exact (reads_byte h).2
  | u16 x | i16 x =>
    intro f a hf h
    cases f <;> simp [Formatter.fits, Value.ty] at hf
    · exact (reads_u16 h (UInt16.toNat_lt _)).1
    · exact (reads_u16 h (UInt16.toNat_lt _)).2
  | u32 x | i32 x =>
    intro f a hf h
    cases f <;> simp [Formatter.fits, Value.ty] at hf
    · exact (reads_u32 h (UInt32.toNat_lt _)).1
    · exact (reads_u32 h (UInt32.toNat_lt _)).2
  | u64 x | i64 x | ptr x =>
    intro f a hf h
    cases f <;> simp [Formatter.fits, Value.ty] at hf
    · exact (reads_u64 h (UInt64.toNat_lt _)).1
    · exact (reads_u64 h (UInt64.toNat_lt _)).2
  | float x =>
    intro f a hf h
    cases f <;> simp [Formatter.fits, Value.ty] at hf
    intro os
    have hload := load_word h (UInt32.toNat_lt x)
    exact ⟨rfl, by simp [Formatter.run, hload, Piece.isValue, Value.recovered]⟩
  | double x =>
    intro f a hf h
    cases f <;> simp [Formatter.fits, Value.ty] at hf
    intro os
    have hload := load_word h (UInt64.toNat_lt x)
    exact ⟨rfl, by simp [Formatter.run, hload, Piece.isValue, Value.recovered]⟩
  | str x =>
    intro f a hf h
    cases f <;> simp [Formatter.fits, Value.ty] at hf
    intro os
    rw [string_run hn h]
    exact ⟨rfl, by simp [Value.recovered]⟩
  | optNone t =>
    intro f a hf h
    cases f <;> simp [Formatter.fits, Value.ty] at hf
    intro os
    exact ⟨by simp [Formatter.run, h.1, Value.encode],
      by simp [Formatter.run, h.1, Piece.isValue, Value.recovered]⟩
  | optSome v ih =>
    intro f a hf h
    cases f with
    | opt inner =>
      intro os
      have hin := ih (f := inner) (by simpa [Formatter.fits, Value.ty] using hf) h.2 os
      have h1 : m a ≠ 0 := by rw [h.1]; decide
      simp only [Formatter.run, if_neg h1]
      exact ⟨by rw [hin.1, Value.encode, List.length_cons, Nat.add_comm], hin.2⟩
    | _ => simp [Formatter.fits, Value.ty] at hf

/-- A length function that fits the type of a value measures it. -/
theorem Length.run_fits {n : Nat} (hn : n ≤ 255) {m : Mem} (v : Value) :
    ∀ {l : Length} {a : Nat}, l.fits v.ty = true → m.Holds a (v.encode n) →
      l.run m a = (v.encode n).length := by
  induction v with
  | str x =>
    intro l a hl h
    cases l <;> simp [Length.fits, Value.ty] at hl
    exact string_length hn h
  | optNone t =>
    intro l a hl h
    cases l <;> simp [Length.fits, Value.ty] at hl
    simp [Length.run, h.1, Value.encode]
  | optSome v ih =>
    intro l a hl h
    cases l with
    | opt inner =>
      have h1 : m a ≠ 0 := by rw [h.1]; decide
      rw [Length.run, if_neg h1, ih (by simpa [Length.fits, Value.ty] using hl) h.2,
        Value.encode, List.length_cons, Nat.add_comm]
    | _ => simp [Length.fits, Value.ty] at hl
  | _ =>
    intro l a hl h
    cases l <;> simp [Length.fits, Value.ty] at hl
    rfl

/-- No value is empty. -/
theorem Value.encode_pos (n : Nat) (v : Value) : 0 < (v.encode n).length := by
  cases v <;> simp [Value.encode, encodeString]

/-! ## Decoding the arguments of a message -/

theorem Arg.reads {n : Nat} (hn : n ≤ 255) {m : Mem} (a : Arg) {f : Formatter} {x : Nat}
    (hf : f.fits a.ty = true) (h : m.Holds x (a.encode n)) :
    f.Reads m x (a.encode n) (a.recovered n) := by
  cases a with
  | val v => exact Formatter.run_fits hn v hf h
  | longStr s => exact Formatter.run_fits (n := LONGSTRING_LIMIT) (by decide) (.str s) hf h

theorem Arg.measures {n : Nat} (hn : n ≤ 255) {m : Mem} (a : Arg) {l : Length} {x : Nat}
    (hl : l.fits a.ty = true) (h : m.Holds x (a.encode n)) :
    l.run m x = (a.encode n).length := by
  cases a with
  | val v => exact Length.run_fits hn v hl h
  | longStr s => exact Length.run_fits (n := LONGSTRING_LIMIT) (by decide) (.str s) hl h

theorem Arg.encode_pos (n : Nat) (a : Arg) : 0 < (a.encode n).length := by
  cases a with
  | val v => exact v.encode_pos n
  | longStr s => simp [Arg.encode, encodeString]

/-- The formatters among the entries. -/
def params (es : List Entry) : List Formatter :=
  es.filterMap fun
    | .param f => some f
    | _ => none

@[simp] theorem params_nil : params [] = [] := rfl

@[simp] theorem params_append (xs ys : List Entry) :
    params (xs ++ ys) = params xs ++ params ys := List.filterMap_append ..

@[simp] theorem params_param (f : Formatter) (es : List Entry) :
    params (.param f :: es) = f :: params es := rfl

theorem values_applyCFormatSpec (spec : CFormatSpec) (os : OStream) :
    (MessageFormatter.applyCFormatSpec spec os).values = os.values := rfl

theorem values_resetCFormatSpec (os : OStream) :
    (MessageFormatter.resetCFormatSpec os).values = os.values := rfl

/-- `format` over entries whose formatters fit the arguments. -/
theorem formatLoop_fits {n : Nat} (hn : n ≤ 255) {m : Mem} {buf : Nat} :
    ∀ (es : List Entry) (args : List Arg) (k : Nat) (os : OStream),
      List.Forall₂ (fun f t => Formatter.fits f t = true) (params es) (args.map Arg.ty) →
      m.Holds (buf + k) (encodeArgs n args) →
      (MessageFormatter.formatLoop m buf es k os).1 = some (k + (encodeArgs n args).length)
        ∧ (MessageFormatter.formatLoop m buf es k os).2.values
            = os.values ++ args.map (Arg.recovered n)
  | [], args, k, os, hf, _ => by
      cases args with
      | nil => exact ⟨rfl, by simp [MessageFormatter.formatLoop]⟩
      | cons a as => cases hf
  | .formatStatic t :: es, args, k, os, hf, h => by
      have := formatLoop_fits hn es args k (os.insert (.text t)) hf h
      simpa [MessageFormatter.formatLoop, Piece.isValue] using this
  | .applyCFormatSpec spec :: es, args, k, os, hf, h => by
      have := formatLoop_fits hn es args k (MessageFormatter.applyCFormatSpec spec os) hf h
      simpa [MessageFormatter.formatLoop, values_applyCFormatSpec] using this
  | .resetCFormatSpec :: es, args, k, os, hf, h => by
      have := formatLoop_fits hn es args k (MessageFormatter.resetCFormatSpec os) hf h
      simpa [MessageFormatter.formatLoop, values_resetCFormatSpec] using this
  | .param f :: es, args, k, os, hf, h => by
      cases args with
      | nil => cases hf
      | cons a as =>
        rw [List.map_cons, params_param, List.forall₂_cons] at hf
        rw [encodeArgs_cons, Mem.holds_append] at h
        obtain ⟨h1, h2⟩ := Arg.reads hn a hf.1 h.1 os
        have hpos := Arg.encode_pos n a
        have ih := formatLoop_fits hn es as (k + (a.encode n).length) (f.run m (buf + k) os).2
          hf.2 (by rw [← Nat.add_assoc]; exact h.2)
        simp only [MessageFormatter.formatLoop, h1]
        rw [if_neg (by omega), ih.1, ih.2, h2]
        refine ⟨?_, by simp⟩
        rw [encodeArgs_cons, List.length_append, Nat.add_assoc]

/-- `length` over length functions that fit the arguments. -/
theorem lengthLoop_fits {n : Nat} (hn : n ≤ 255) {m : Mem} {buf : Nat} :
    ∀ (ls : List Length) (args : List Arg) (k : Nat),
      List.Forall₂ (fun l t => Length.fits l t = true) ls (args.map Arg.ty) →
      m.Holds (buf + k) (encodeArgs n args) →
      MessageFormatter.lengthLoop m buf ls k = some (k + (encodeArgs n args).length)
  | [], args, k, hf, _ => by
      cases args with
      | nil => rfl
      | cons a as => cases hf
  | l :: ls, args, k, hf, h => by
      cases args with
      | nil => cases hf
      | cons a as =>
        rw [List.map_cons, List.forall₂_cons] at hf
        rw [encodeArgs_cons, Mem.holds_append] at h
        have h1 := Arg.measures hn a hf.1 h.1
        have hpos := Arg.encode_pos n a
        have ih := lengthLoop_fits hn ls as (k + (a.encode n).length) hf.2
          (by rw [← Nat.add_assoc]; exact h.2)
        simp only [MessageFormatter.lengthLoop, h1]
        rw [if_neg (by omega), ih, encodeArgs_cons, List.length_append, Nat.add_assoc]

end QuickTrace
