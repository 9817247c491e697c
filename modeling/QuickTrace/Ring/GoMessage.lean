/-
QuickTrace.Ring.GoMessage — a whole message in one call.

`GoQuickTrace_fullMsg` is the entry point for Go (`QuickTrace.cpp`): the
arguments come packed in one buffer, and a word of `argLens` says of each
what it is, a type code shifted by ten bits or the length of a string.
Under these two readings of one word a string of 1024 to 8191 characters is
taken for a scalar. `loop_putArgs` says that otherwise the loop is the
stream of the same arguments, `decodes_iff` which argument lists the codes
of the key decode.
-/
import QuickTrace.Ring.StringLimit

namespace QuickTrace

namespace GoQuickTrace

open QuickTrace.Lib RingBuf

/-! ## The code -/

def MASK_SHIFT : UInt32 := 10

def U8_MASK : UInt32 := 1

def U16_MASK : UInt32 := U8_MASK + 1

def U32_MASK : UInt32 := U16_MASK + 1

def U64_MASK : UInt32 := U32_MASK + 1

def FLOAT_MASK : UInt32 := U64_MASK + 1

def DOUBLE_MASK : UInt32 := FLOAT_MASK + 1

def BOOL_MASK : UInt32 := DOUBLE_MASK + 1

/-- The switch over the mask: the value that is put, and how far `offset`
moves. Of a string `put` looks at `qtMaxStringLen` characters at most. -/
def readArg (qtMaxStringLen : Nat) (mem : Mem) (argStart : Nat) (argLen : UInt32) :
    Value × UInt32 :=
  let mask := argLen >>> MASK_SHIFT
  if mask = U8_MASK then (.u8 (mem argStart), 1)
  else if mask = U16_MASK then (.u16 (UInt16.ofNat (mem.load argStart 2)), 2)
  else if mask = U32_MASK then (.u32 (UInt32.ofNat (mem.load argStart 4)), 4)
  else if mask = U64_MASK then (.u64 (UInt64.ofNat (mem.load argStart 8)), 8)
  else if mask = FLOAT_MASK then (.float (UInt32.ofNat (mem.load argStart 4)), 4)
  else if mask = DOUBLE_MASK then (.double (UInt64.ofNat (mem.load argStart 8)), 8)
  else if mask = BOOL_MASK then (.bool (mem argStart != 0), 1)
  -- no mask, must be a string
  else (.str (readBytes mem argStart qtMaxStringLen), argLen + 1)

/-- The loop over the arguments; `offset` is an `unsigned int`. -/
def loop (qtMaxStringLen : Nat) (mem : Mem) (byteBuf : Nat) :
    List UInt32 → UInt32 → RingBuf → RingBuf × List Store
  | [], _, sl => (sl, [])
  | argLen :: argLens, offset, sl =>
    let r := readArg qtMaxStringLen mem (byteBuf + offset.toNat) argLen
    let p := sl.put qtMaxStringLen r.1
    let q := loop qtMaxStringLen mem byteBuf argLens (offset + r.2) p.1
    (q.1, p.2 ++ q.2)

/-- `GoQuickTrace_fullMsg`: `args` is the address of the packed arguments
in the caller's memory. -/
def fullMsg (qtMaxStringLen : Nat) (sl : RingBuf) (cs : MsgCounters) (tsc : UInt64) (id : UInt32)
    (argLens : List UInt32) (mem : Mem) (args : Nat) : RingBuf × MsgCounters × List Store :=
  let s := sl.startMsg cs tsc id
  if s.1.enabled then
    let p := loop qtMaxStringLen mem args argLens 0 s.1
    let e := p.1.endMsg
    (e.1, s.2.1, s.2.2 ++ p.2 ++ e.2)
  else s

/-! ## What the caller passes -/

/-- A string argument: its length is a word of `argLens`. -/
structure GoString where
  text : Text
  noNul : ∀ c ∈ text, c ≠ 0
  fits : text.length < 2 ^ 32

/-- The arguments the interface has codes for. -/
inductive GoArg where
  | u8 (x : UInt8)
  | u16 (x : UInt16)
  | u32 (x : UInt32)
  | u64 (x : UInt64)
  | float (bits : UInt32)
  | double (bits : UInt64)
  | bool (x : Bool)
  | str (s : GoString)

namespace GoArg

/-- The argument as a trace statement would have it. -/
def value : GoArg → Value
  | u8 x => .u8 x
  | u16 x => .u16 x
  | u32 x => .u32 x
  | u64 x => .u64 x
  | float bits => .float bits
  | double bits => .double bits
  | bool x => .bool x
  | str s => .str s.text

/-- Its word of `argLens`. -/
def argLen : GoArg → UInt32
  | u8 _ => U8_MASK <<< MASK_SHIFT
  | u16 _ => U16_MASK <<< MASK_SHIFT
  | u32 _ => U32_MASK <<< MASK_SHIFT
  | u64 _ => U64_MASK <<< MASK_SHIFT
  | float _ => FLOAT_MASK <<< MASK_SHIFT
  | double _ => DOUBLE_MASK <<< MASK_SHIFT
  | bool _ => BOOL_MASK <<< MASK_SHIFT
  | str s => UInt32.ofNat s.text.length

/-- Its bytes in the packed buffer. -/
def bytes : GoArg → List UInt8
  | u8 x => [x]
  | u16 x => leBytes 2 x.toNat
  | u32 x => leBytes 4 x.toNat
  | u64 x => leBytes 8 x.toNat
  | float bits => leBytes 4 bits.toNat
  | double bits => leBytes 8 bits.toNat
  | bool x => [if x then 1 else 0]
  | str s => s.text ++ [0]

/-- A string whose length has a type code in its upper bits. -/
def Misread : GoArg → Prop
  | str s => 1024 ≤ s.text.length ∧ s.text.length < 8192
  | _ => False

/-- The argument is not misread, and what is kept of a string, at most `n`
characters, has its number in the length byte. -/
structure Sound (n : Nat) (a : GoArg) : Prop where
  read : ¬ a.Misread
  short : ∀ s, a = .str s → (cut n s.text).length ≤ 255

end GoArg

/-- The values back to back. -/
def packed (args : List GoArg) : List UInt8 := args.flatMap GoArg.bytes

@[simp] theorem packed_cons (a : GoArg) (as : List GoArg) :
    packed (a :: as) = a.bytes ++ packed as := rfl

/-- The arguments of the trace statement that says the same. -/
def traceArgs (args : List GoArg) : List Arg := args.map fun a => .val a.value

/-- Every argument starts where `offset` can point, the first of them
`start` bytes into the buffer. -/
def StartsFit (start : Nat) (args : List GoArg) : Prop :=
  ∀ front a rest, args = front ++ a :: rest → start + (packed front).length < 2 ^ 32

theorem StartsFit.head {start : Nat} {a : GoArg} {as : List GoArg}
    (h : StartsFit start (a :: as)) : start < 2 ^ 32 := h [] a as rfl

theorem StartsFit.tail {start : Nat} {a : GoArg} {as : List GoArg}
    (h : StartsFit start (a :: as)) : StartsFit (start + a.bytes.length) as := by
  intro front b rest heq
  have := h (a :: front) b rest (by rw [heq]; rfl)
  rw [packed_cons, List.length_append] at this
  omega

/-- From the argument list `args` on, every argument decodes under its own
code of the key: the formatter takes exactly the bytes this round of the
loop has put into the file `m`, and recovers the scalar or the prefix of
the string. -/
def Carried (n : Nat) (m mem : Mem) (byteBuf : Nat) : List GoArg → UInt32 → RingBuf → Prop
  | [], _, _ => True
  | a :: as, offset, sl =>
    let r := readArg n mem (byteBuf + offset.toNat) a.argLen
    let p := sl.put n r.1
    (∃ f, Registry.initial.formattersById.lookup (formatString a.value.ty) = some f
      ∧ ∀ os : OStream, (f.run m sl.ptr os).1 = p.1.ptr - sl.ptr
          ∧ (f.run m sl.ptr os).2.values = os.values ++ [a.value.recovered n])
    ∧ Carried n m mem byteBuf as (offset + r.2) p.1

/-- Every enabled call with these arguments, wherever they are packed and
whatever the ring and the file were, records what decodes to them. -/
def Decodes (n : Nat) (args : List GoArg) : Prop :=
  ∀ (sl : RingBuf) (cs : MsgCounters) (tsc : UInt64) (id : UInt32) (m mem : Mem) (byteBuf : Nat),
    cs.off id = false → mem.Holds byteBuf (packed args) →
      Carried n (m.applyAll (fullMsg n sl cs tsc id (args.map GoArg.argLen) mem byteBuf).2.2)
        mem byteBuf args 0 (sl.startMsg cs tsc id).1

/-! ## Reading one argument -/

/-- `copyLoop` sees of a string what it copies. -/
theorem copyLoop_cut (ptr1 : Nat) : ∀ (n : Nat) (x : Text) (i : Nat),
    copyLoop ptr1 n (cut n x) i = copyLoop ptr1 n x i
  | 0, _, _ => rfl
  | _ + 1, [], _ => by rw [cut_nil]
  | n + 1, c :: cs, i => by
      rw [cut_cons]
      by_cases hc : c = 0
      · rw [if_pos hc, copyLoop, copyLoop, if_pos hc]
      · rw [if_neg hc, copyLoop, copyLoop, if_neg hc, if_neg hc, copyLoop_cut ptr1 n cs]

theorem put_str_congr {n : Nat} {x y : Text} (h : cut n x = cut n y) (sl : RingBuf) :
    sl.put n (.str x) = sl.put n (.str y) := by
  simp only [put, putWithMaxLen]
  rw [← copyLoop_cut _ n x, h, copyLoop_cut]

/-- Up to `n` characters of a string in memory are what `cut` keeps of it. -/
theorem cut_readBytes {mem : Mem} : ∀ (n : Nat) {s : Text} {a : Nat}, mem.Holds a (s ++ [0]) →
    cut n (readBytes mem a n) = cut n s
  | 0, _, _, _ => by rw [cut_zero, cut_zero]
  | n + 1, [], a, h => by rw [readBytes, cut_cons, if_pos h.1, cut_nil]
  | n + 1, c :: cs, a, h => by
      rw [readBytes, cut_cons, cut_cons, h.1, cut_readBytes n h.2]

/-- The mask of a length. -/
theorem mask_toNat {k : Nat} (hk : k < 2 ^ 32) :
    (UInt32.ofNat k >>> MASK_SHIFT).toNat = k / 1024 := by
  rw [UInt32.toNat_shiftRight, UInt32.toNat_ofNat', Nat.mod_eq_of_lt hk, Nat.shiftRight_eq_div_pow]
  rfl

/-- A word without a type code in its upper bits is a string. -/
theorem readArg_string (argLen : UInt32)
    (h : (argLen >>> MASK_SHIFT).toNat = 0 ∨ 8 ≤ (argLen >>> MASK_SHIFT).toNat) (n : Nat)
    (mem : Mem) (a : Nat) :
    readArg n mem a argLen = (.str (readBytes mem a n), argLen + 1) := by
  have hne : ∀ k : UInt32, 1 ≤ k.toNat → k.toNat ≤ 7 → argLen >>> MASK_SHIFT ≠ k := by
    intro k h1 h7 heq
    rw [heq] at h
    omega
  unfold readArg
  simp only [hne U8_MASK (by decide) (by decide), hne U16_MASK (by decide) (by decide),
    hne U32_MASK (by decide) (by decide), hne U64_MASK (by decide) (by decide),
    hne FLOAT_MASK (by decide) (by decide), hne DOUBLE_MASK (by decide) (by decide),
    hne BOOL_MASK (by decide) (by decide), if_false]

/-- The type codes are the masks from 1 to 7. -/
theorem mask_cases {mask : UInt32} (h1 : 1 ≤ mask.toNat) (h7 : mask.toNat ≤ 7) :
    mask ∈ [U8_MASK, U16_MASK, U32_MASK, U64_MASK, FLOAT_MASK, DOUBLE_MASK, BOOL_MASK] := by
  have hmask : mask = UInt32.ofNat mask.toNat := UInt32.ofNat_toNat.symm
  generalize mask.toNat = k at hmask h1 h7
  have hk : k = 1 ∨ k = 2 ∨ k = 3 ∨ k = 4 ∨ k = 5 ∨ k = 6 ∨ k = 7 := by omega
  rw [hmask]
  rcases hk with rfl | rfl | rfl | rfl | rfl | rfl | rfl <;> decide

/-- A word with a type code in its upper bits is a scalar. -/
theorem readArg_scalar (argLen : UInt32) (h1 : 1 ≤ (argLen >>> MASK_SHIFT).toNat)
    (h7 : (argLen >>> MASK_SHIFT).toNat ≤ 7) (n : Nat) (mem : Mem) (a : Nat) :
    ((readArg n mem a argLen).1.encode n).length ∈ [1, 2, 4, 8] := by
  have hmask := mask_cases h1 h7
  simp only [List.mem_cons, List.not_mem_nil, or_false] at hmask
  rcases hmask with h | h | h | h | h | h | h <;> simp +decide [readArg, h, Value.encode]

/-- An argument that is not misread is put as a trace statement puts it,
and the offset moves over its bytes. -/
theorem readArg_spec {n : Nat} {mem : Mem} {p : Nat} (a : GoArg) (ha : ¬ a.Misread)
    (h : mem.Holds p a.bytes) :
    (∀ sl : RingBuf, sl.put n (readArg n mem p a.argLen).1 = sl.put n a.value)
      ∧ (readArg n mem p a.argLen).2 = UInt32.ofNat a.bytes.length := by
  cases a with
  | u8 x =>
    simp +decide only [readArg, GoArg.argLen, if_true, h.1]
    exact ⟨fun _ => rfl, rfl⟩
  | u16 x =>
    simp +decide only [readArg, GoArg.argLen, if_true, if_false, load_word h (UInt16.toNat_lt x),
      UInt16.ofNat_toNat]
    exact ⟨fun _ => rfl, rfl⟩
  | u32 x =>
    simp +decide only [readArg, GoArg.argLen, if_true, if_false, load_word h (UInt32.toNat_lt x),
      UInt32.ofNat_toNat]
    exact ⟨fun _ => rfl, rfl⟩
  | u64 x =>
    simp +decide only [readArg, GoArg.argLen, if_true, if_false, load_word h (UInt64.toNat_lt x),
      UInt64.ofNat_toNat]
    exact ⟨fun _ => rfl, rfl⟩
  | float x =>
    simp +decide only [readArg, GoArg.argLen, if_true, if_false, load_word h (UInt32.toNat_lt x),
      UInt32.ofNat_toNat]
    exact ⟨fun _ => rfl, rfl⟩
  | double x =>
    simp +decide only [readArg, GoArg.argLen, if_true, if_false, load_word h (UInt64.toNat_lt x),
      UInt64.ofNat_toNat]
    exact ⟨fun _ => rfl, rfl⟩
  | bool x =>
    have hx : (mem p != 0) = x := by rw [h.1]; cases x <;> rfl
    simp +decide only [readArg, GoArg.argLen, if_true, if_false, hx]
    exact ⟨fun _ => rfl, rfl⟩
  | str s =>
    simp only [GoArg.Misread] at ha
    have hmask := mask_toNat s.fits
    have hr := readArg_string (GoArg.str s).argLen (by rw [GoArg.argLen, hmask]; omega) n mem p
    rw [hr]
    refine ⟨put_str_congr (cut_readBytes n h), ?_⟩
    rw [GoArg.bytes, List.length_append, List.length_singleton, UInt32.ofNat_add]
    rfl

/-! ## The loop -/

/-- Without a misread string the loop is the stream of the same
arguments. -/
theorem loop_putArgs {n : Nat} {mem : Mem} {byteBuf : Nat} : ∀ {args : List GoArg} {start : Nat}
    {sl : RingBuf}, sl.enabled = true → mem.Holds (byteBuf + start) (packed args) →
      StartsFit start args → (∀ a ∈ args, ¬ a.Misread) →
      loop n mem byteBuf (args.map GoArg.argLen) (UInt32.ofNat start) sl
        = sl.putArgs n (traceArgs args)
  | [], _, _, _, _, _, _ => rfl
  | a :: as, start, sl, he, hm, hfit, hread => by
      rw [packed_cons, Mem.holds_append, Nat.add_assoc] at hm
      have hoff : (UInt32.ofNat start).toNat = start := by
        rw [UInt32.toNat_ofNat']
        exact Nat.mod_eq_of_lt hfit.head
      obtain ⟨hput, hmove⟩ := readArg_spec (n := n) a (hread a (by simp)) hm.1
      have hnext : (sl.put n a.value).1.enabled = true := by
        rw [(Writes.put n a.value sl).ring]
        exact he
      have ih := loop_putArgs (n := n) hnext hm.2 hfit.tail fun b hb => hread b (by simp [hb])
      have harg : sl.putArg n (.val a.value) = sl.put n a.value := by
        rw [putArg, if_pos he]
      rw [List.map_cons, loop, traceArgs, List.map_cons, putArgs]
      simp only [hoff, hput, hmove, harg]
      rw [← UInt32.ofNat_add, ih]
      rfl

/-- Without a misread string the call is the trace statement with the same
arguments. -/
theorem fullMsg_eq_trace {n : Nat} {sl : RingBuf} {cs : MsgCounters} {tsc : UInt64} {id : UInt32}
    {mem : Mem} {byteBuf : Nat} {args : List GoArg} (hon : cs.off id = false)
    (hm : mem.Holds byteBuf (packed args)) (hfit : StartsFit 0 args)
    (hread : ∀ a ∈ args, ¬ a.Misread) :
    fullMsg n sl cs tsc id (args.map GoArg.argLen) mem byteBuf
      = sl.trace n cs ⟨tsc, id, traceArgs args⟩ := by
  have he : (sl.startMsg cs tsc id).1.enabled = true := by
    rw [startMsg_on hon]
    rfl
  have hloop := loop_putArgs (n := n) he hm hfit hread
  unfold fullMsg trace
  simp only [he, if_true]
  rw [show (0 : UInt32) = UInt32.ofNat 0 from rfl, hloop]

/-- The formatter of the key's code for an argument. -/
theorem formatter_fits (a : GoArg) : ∃ f,
    Registry.initial.formattersById.lookup (formatString a.value.ty) = some f
      ∧ f.fits a.value.ty = true := by
  cases a <;> exact ⟨_, rfl, rfl⟩

/-- What the puts have written for an argument decodes under its code. -/
theorem reads_value {n : Nat} {m : Mem} {p : Nat} {a : GoArg} (ha : a.Sound n) {f : Formatter}
    (hf : f.fits a.value.ty = true) (h : m.Holds p (a.value.encode n)) :
    f.Reads m p (a.value.encode n) (a.value.recovered n) := by
  cases a with
  | str s =>
    have hshort := ha.short s rfl
    have hcut : cut (cut n s.text).length s.text = cut n s.text := StringLimit.cut_cut n s.text
    have henc : (GoArg.str s).value.encode n = (GoArg.str s).value.encode (cut n s.text).length :=
      StringLimit.encodeString_cut n s.text
    have hrec : (GoArg.str s).value.recovered n
        = (GoArg.str s).value.recovered (cut n s.text).length := by
      simp only [GoArg.value, Value.recovered, hcut]
    rw [henc] at h ⊢
    rw [hrec]
    exact Formatter.run_fits hshort _ hf h
  | _ => exact Formatter.run_fits (Nat.zero_le 255) _ hf h

/-- What the stream has written decodes. -/
theorem carried_of_holds {n : Nat} {m mem : Mem} {byteBuf : Nat} :
    ∀ {args : List GoArg} {start : Nat} {sl : RingBuf},
      mem.Holds (byteBuf + start) (packed args) → StartsFit start args →
      (∀ a ∈ args, a.Sound n) → m.Holds sl.ptr (encodeArgs n (traceArgs args)) →
      Carried n m mem byteBuf args (UInt32.ofNat start) sl
  | [], _, _, _, _, _, _ => trivial
  | a :: as, start, sl, hm, hfit, hsound, h => by
      rw [packed_cons, Mem.holds_append, Nat.add_assoc] at hm
      rw [traceArgs, List.map_cons, encodeArgs_cons, Mem.holds_append] at h
      have ha := hsound a (by simp)
      have hoff : (UInt32.ofNat start).toNat = start := by
        rw [UInt32.toNat_ofNat']
        exact Nat.mod_eq_of_lt hfit.head
      obtain ⟨hput, hmove⟩ := readArg_spec (n := n) a ha.read hm.1
      have hptr := (Writes.put n a.value sl).ptr
      obtain ⟨f, hf, hfits⟩ := formatter_fits a
      have hrest : m.Holds (sl.put n a.value).1.ptr (encodeArgs n (traceArgs as)) := by
        rw [hptr]
        exact h.2
      have ih := carried_of_holds hm.2 hfit.tail (fun b hb => hsound b (by simp [hb])) hrest
      rw [Carried]
      simp only [hoff, hput, hmove]
      refine ⟨⟨f, hf, fun os => ?_⟩, ?_⟩
      · rw [hptr, Nat.add_sub_cancel_left]
        exact reads_value ha hfits h.1 os
      · rw [← UInt32.ofNat_add]
        exact ih

/-! ## Which argument lists decode -/

theorem readBytes_length (m : Mem) : ∀ (k a : Nat), (readBytes m a k).length = k
  | 0, _ => rfl
  | k + 1, a => by rw [readBytes, List.length_cons, readBytes_length m k]

/-- An argument that decodes is sound: the string formatter takes one byte
more than it recovers characters, at most 256, and the block of a misread
string has the length of a scalar. -/
theorem sound_of_carried {n : Nat} (hn : n ∉ [0, 1, 3, 7]) {m mem : Mem} {byteBuf : Nat}
    {a : GoArg} {as : List GoArg} {offset : UInt32} {sl : RingBuf}
    (h : Carried n m mem byteBuf (a :: as) offset sl) : a.Sound n := by
  cases a with
  | str s =>
    obtain ⟨⟨f, hf, hrun⟩, -⟩ := h
    have hptr := (Writes.put n (readArg n mem (byteBuf + offset.toNat) (GoArg.str s).argLen).1
      sl).ptr
    cases hf
    obtain ⟨hlen, hval⟩ := hrun OStream.fresh
    rw [hptr, Nat.add_sub_cancel_left] at hlen
    simp only [Formatter.run] at hlen hval
    rw [OStream.values_write, List.append_cancel_left_eq] at hval
    simp only [GoArg.value, Value.recovered, List.cons.injEq, Piece.str.injEq, and_true] at hval
    have hcount := congrArg List.length hval
    rw [readBytes_length] at hcount
    have hbyte := UInt8.toNat_lt (m sl.ptr)
    refine ⟨?_, fun s' hs' => ?_⟩
    · rintro ⟨hlo, hhi⟩
      have hmask := mask_toNat s.fits
      have hwidth := readArg_scalar (GoArg.str s).argLen (by rw [GoArg.argLen, hmask]; omega)
        (by rw [GoArg.argLen, hmask]; omega) n mem (byteBuf + offset.toNat)
      rw [← hlen] at hwidth
      rw [cut_of_ne s.noNul, List.length_take] at hcount
      simp only [List.mem_cons, List.not_mem_nil, or_false] at hwidth hn
      omega
    · cases hs'
      omega
  | _ =>
    refine ⟨id, fun s hs => ?_⟩
    cases hs

/-- Every argument that is reached decodes, so every argument is sound. -/
theorem all_sound_of_carried {n : Nat} (hn : n ∉ [0, 1, 3, 7]) {m mem : Mem} {byteBuf : Nat} :
    ∀ {args : List GoArg} {offset : UInt32} {sl : RingBuf},
      Carried n m mem byteBuf args offset sl → ∀ a ∈ args, a.Sound n
  | [], _, _, _, a, ha => by cases ha
  | b :: bs, offset, sl, h, a, ha => by
      rcases List.mem_cons.mp ha with rfl | ha
      · exact sound_of_carried hn h
      · rw [Carried] at h
        exact all_sound_of_carried hn h.2 a ha

/-- Sound arguments that start where the offset can point decode. -/
theorem decodes_of_sound {n : Nat} {args : List GoArg} (hfit : StartsFit 0 args)
    (hsound : ∀ a ∈ args, a.Sound n) : Decodes n args := by
  intro sl cs tsc id m mem byteBuf hon hm
  have hread : ∀ a ∈ args, ¬ a.Misread := fun a ha => (hsound a ha).read
  have hargs := @holds_args n sl cs ⟨tsc, id, traceArgs args⟩ hon m
  rw [fullMsg_eq_trace hon hm hfit hread, startMsg_on hon]
  exact carried_of_holds hm hfit hsound hargs

/-- Where the arguments decode, all of them are sound. -/
theorem sound_of_decodes {n : Nat} (hn : n ∉ [0, 1, 3, 7]) {args : List GoArg}
    (h : Decodes n args) : ∀ a ∈ args, a.Sound n := by
  have hcall := h ⟨0, none, 0, 0⟩ ⟨1, fun _ => MsgCounter.zero⟩ 0 1 (fun _ => 0)
    (Mem.store (fun _ => 0) 0 (packed args)) 0 rfl (Mem.holds_store _ _ _)
  exact all_sound_of_carried hn hcall

/-- Sound arguments that start where the offset can point decode. An
argument that is not sound never does, wherever it starts, but for the four
limits under which a scalar can look like a string record. -/
theorem decodes_iff (n : Nat) (args : List GoArg) :
    (StartsFit 0 args → (∀ a ∈ args, a.Sound n) → Decodes n args)
      ∧ (n ∉ [0, 1, 3, 7] → Decodes n args → ∀ a ∈ args, a.Sound n) :=
  ⟨decodes_of_sound, fun hn => sound_of_decodes hn⟩

/-- A string of 1024 characters. -/
def kiloString : GoString where
  text := List.replicate 1024 97
  noNul := fun c hc => by rw [List.eq_of_mem_replicate hc]; decide
  fits := by rw [List.length_replicate]; decide

/-- It is recorded as a number of one byte. -/
theorem decodes_kilo_string : ¬ Decodes 24 [.str kiloString] := by
  intro h
  have hsound := sound_of_decodes (by decide) h (.str kiloString) (by simp)
  refine hsound.read ⟨?_, ?_⟩
  · rw [kiloString, List.length_replicate]
  · rw [kiloString, List.length_replicate]
    decide

end GoQuickTrace

end QuickTrace
