/-
QuickTrace.Python.LongString — long strings in several messages.

`traceLongString` (`QuickTrace.py`) cuts the text of its arguments into
chunks of `qtrace_string_size` characters, a number read when the module is
imported, and traces each chunk as a string of its own. What is recorded of
a chunk is at most `qtMaxStringLen` bytes of its UTF-8 encoding, up to a NUL.
`longString_whole_iff` says for which texts the two limits agree.

A character is a code point: a scalar value, or a surrogate, for which there
is no UTF-8 encoding.
-/
import QuickTrace.Python.Trace

namespace QuickTrace

namespace Python

open QuickTrace.Lib RingBuf

/-! ## Strings -/

/-- A code point; a surrogate by its distance from U+D800. -/
inductive PyChar where
  | scalar (c : Char)
  | surrogate (k : Fin 2048)
  deriving DecidableEq

/-- A `str`. -/
abbrev Str := List PyChar

/-- A literal. -/
def lit (s : List Char) : Str := s.map .scalar

/-- The UTF-8 encoding. -/
def utf8 : Str → Option Text
  | [] => some []
  | .scalar c :: s => (utf8 s).map (String.utf8EncodeChar c ++ ·)
  | .surrogate _ :: _ => none

/-- With "surrogateescape" the code points U+DC80 to U+DCFF are the bytes
from 128 on. -/
def surrogateescape : Str → Option Text
  | [] => some []
  | .scalar c :: s => (surrogateescape s).map (String.utf8EncodeChar c ++ ·)
  | .surrogate k :: s =>
    if 0x480 ≤ k.val ∧ k.val < 0x500 then
      (surrogateescape s).map (UInt8.ofNat (k.val - 0x400) :: ·)
    else none

/-- The objects of a call. -/
inductive PyObj where
  | None
  | True
  | str (s : Str)
  | bytes (b : Text)
  deriving DecidableEq

/-- The interpreter, on these. -/
def PyObj.python : CPython PyObj where
  Py_None := None
  Py_True := True
  PyStr_Check
    | str _ => true
    | _ => false
  PyObject_Str
    | _, None => some (str (lit ['N', 'o', 'n', 'e']))
    | _, True => some (str (lit ['T', 'r', 'u', 'e']))
    | _, str s => some (str s)
    -- never called on a bytes object
    | _, bytes _ => none
  PyUnicode_AsUTF8
    | _, str s => utf8 s
    | _, _ => none
  PyUnicode_AsEncodedString
    | _, str s => (surrogateescape s).map bytes
    | _, _ => none
  PyBytes_AsString
    | _, bytes b => some b
    | _, _ => none
  PyLong_AsLong
    | _, True => some 1
    | _, _ => none
  PyLong_AsLongLong
    | _, True => some 1
    | _, _ => none
  PyFloat_AsDouble
    | _, True => some 0x3FF0000000000000
    | _, _ => none

/-- Their types. -/
def PyObj.type : PyObj → PyType
  | True => .bool
  | str _ => .str
  | _ => .other

/-! ## The chunks -/

/-- `str` of a tuple, from the `repr` of its elements. -/
def strTuple : List Str → Str
  | [] => lit ['(', ')']
  | [r] => lit ['('] ++ r ++ lit [',', ')']
  | rs => lit ['('] ++ List.intercalate (lit [',', ' ']) rs ++ lit [')']

/-- `strArg[ 0 + i : length + i ] for i in range( 0, len( strArg ), length )`. -/
def chunkList (length : Nat) (strArg : Str) : List Str :=
  (List.range' 0 ((strArg.length + length - 1) / length) length).map fun i =>
    (strArg.drop i).take length

/-- The two trace statements of `traceLongString`. -/
inductive Line where
  | first
  | rest
  deriving DecidableEq

/-- Their arguments. -/
def Line.args (chunk : Str) : Line → List (TraceArg PyObj)
  | first => [.var (.str chunk)]
  | rest => [.text (ascii ['.', '.', '.']), .var (.str chunk)]

/-- The trace calls of `traceLongString`; `none` is the exception of
`next`. -/
def traceLongString (qtrace_string_size : Nat) (arg : List Str) :
    Option (List (Line × List (TraceArg PyObj))) :=
  match chunkList qtrace_string_size (strTuple arg) with
  | [] => none
  | chunk :: chunks =>
    some ((.first, Line.first.args chunk) :: chunks.map fun c => (.rest, Line.rest.args c))

/-! ## Running the calls -/

/-- The ring of a level and the trace file. -/
structure Machine where
  ringBuf : RingBuf
  counters : MsgCounters
  mem : Mem

/-- `tracef` for a message that has an id: the string that is recorded as
its first dynamic argument, and the machine afterwards. -/
def tracef (n : Nat) (msgFormatDict : UInt32 → Option Text) (tsc : UInt64) (msgId : UInt32)
    (args : List (TraceArg PyObj)) (s : Machine) : Option (Text × Machine) :=
  (trace PyObj.python n msgFormatDict s.ringBuf s.counters tsc msgId (vargs args)).map fun r =>
    let mem := s.mem.applyAll r.stores
    let p := s.ringBuf.startPos + 12
    (readBytes mem (p + 1) (mem p).toNat, ⟨r.ringBuf, r.counters, mem⟩)

/-- The calls one after the other, the `i`-th at the time `tsc i`. -/
def runCalls (n : Nat) (msgFormatDict : UInt32 → Option Text) (msgId : Line → UInt32)
    (tsc : Nat → UInt64) :
    Nat → List (Line × List (TraceArg PyObj)) → Machine → Option (List Text × Machine)
  | _, [], s => some ([], s)
  | i, call :: calls, s =>
    (tracef n msgFormatDict (tsc i) (msgId call.1) call.2 s).bind fun r =>
      (runCalls n msgFormatDict msgId tsc (i + 1) calls r.2).map fun q => (r.1 :: q.1, q.2)

/-- The two messages exist, their keys are those of the first calls at the
two lines, and they are enabled. -/
structure Enabled (msgFormatDict : UInt32 → Option Text) (msgId : Line → UInt32)
    (cs : MsgCounters) : Prop where
  created : ∀ l, msgId l ≠ 0
  key : ∀ l, ∃ chunk, msgFormatDict (msgId l) = some (createMsg PyObj.type (l.args chunk)).2
  on : ∀ l, cs.off (msgId l) = false

/-- Whatever the ring and the file were, the recorded strings of the calls
are together the UTF-8 encoding of the text. -/
def LosesNothing (n qtrace_string_size : Nat) (arg : List Str) : Prop :=
  ∀ (msgFormatDict : UInt32 → Option Text) (msgId : Line → UInt32) (tsc : Nat → UInt64)
    (s : Machine), Enabled msgFormatDict msgId s.counters →
    ∃ calls strings s', traceLongString qtrace_string_size arg = some calls
      ∧ runCalls n msgFormatDict msgId tsc 0 calls s = some (strings, s')
      ∧ utf8 (strTuple arg) = some strings.flatten

/-- A chunk that is recorded as a whole. -/
def Whole (n : Nat) (chunk : Str) : Prop :=
  ∃ b, utf8 chunk = some b ∧ b.length ≤ n ∧ 0 ∉ b

/-! ## Chunks are the text -/

theorem strTuple_ne_nil (arg : List Str) : strTuple arg ≠ [] := by
  match arg with
  | [] => simp [strTuple, lit]
  | [r] => simp [strTuple, lit]
  | r :: r' :: rs => simp [strTuple, lit]

/-- Chunks from `a` on are the text from `a` on. -/
theorem flatten_chunks (length : Nat) (s : Str) : ∀ (k a : Nat),
    ((List.range' a k length).map fun i => (s.drop i).take length).flatten
      = (s.drop a).take (k * length)
  | 0, a => by simp
  | k + 1, a => by
      rw [List.range'_succ, List.map_cons, List.flatten_cons, flatten_chunks length s k,
        Nat.add_mul, Nat.one_mul, Nat.add_comm (k * length), List.take_add, List.drop_drop]

/-- No character is lost between the chunks. -/
theorem flatten_chunkList {length : Nat} (h : 0 < length) (s : Str) :
    (chunkList length s).flatten = s := by
  have hdiv := Nat.div_add_mod (s.length + length - 1) length
  have hmod := Nat.mod_lt (s.length + length - 1) h
  rw [chunkList, flatten_chunks, List.drop_zero, List.take_of_length_le]
  rw [Nat.mul_comm]
  omega

theorem utf8_append : ∀ s t : Str,
    utf8 (s ++ t) = (utf8 s).bind fun a => (utf8 t).map (a ++ ·)
  | [], t => by
      rw [List.nil_append, utf8, Option.bind_some]
      simp
  | .scalar c :: s, t => by
      rw [List.cons_append, utf8, utf8, utf8_append s t]
      cases utf8 s <;> cases utf8 t <;> simp
  | .surrogate _ :: s, t => by rw [List.cons_append, utf8, utf8, Option.bind_none]

/-- The encoding of a text is that of its chunks. -/
theorem utf8_flatten : ∀ {cs : List Str} {b : Text}, utf8 cs.flatten = some b →
    ∃ bs : List Text, List.Forall₂ (fun c x => utf8 c = some x) cs bs ∧ b = bs.flatten
  | [], b, h => by
      rw [List.flatten_nil, utf8, Option.some.injEq] at h
      exact ⟨[], .nil, h.symm⟩
  | c :: cs, b, h => by
      rw [List.flatten_cons, utf8_append, Option.bind_eq_some_iff] at h
      obtain ⟨x, hx, h⟩ := h
      obtain ⟨y, hy, rfl⟩ := Option.map_eq_some_iff.mp h
      obtain ⟨bs, hbs, rfl⟩ := utf8_flatten hy
      exact ⟨x :: bs, .cons hx hbs, rfl⟩

theorem utf8_flatten_of_chunks : ∀ {cs : List Str} {bs : List Text},
    List.Forall₂ (fun c x => utf8 c = some x) cs bs → utf8 cs.flatten = some bs.flatten
  | [], _, h => by
      cases h
      rfl
  | c :: cs, _, h => by
      cases h with
      | cons hx hbs =>
        rw [List.flatten_cons, utf8_append, hx, Option.bind_some, utf8_flatten_of_chunks hbs]
        rfl

/-! ## What a cut leaves -/

/-- A string is kept as a whole if it fits and holds no NUL. -/
theorem cut_eq_self_iff {n : Nat} {b : Text} : cut n b = b ↔ b.length ≤ n ∧ 0 ∉ b := by
  constructor
  · intro h
    have hlen := cut_length_le n b
    rw [h] at hlen
    refine ⟨hlen, fun h0 => ?_⟩
    rw [← h] at h0
    have hne := List.mem_takeWhile_imp (List.mem_of_mem_take h0)
    exact absurd hne (by decide)
  · rintro ⟨hlen, h0⟩
    have hne : ∀ c ∈ b, c ≠ 0 := fun c hc heq => h0 (heq ▸ hc)
    rw [cut_of_ne hne, List.take_of_length_le hlen]

theorem flatten_cut_length_le (n : Nat) (bs : List Text) :
    (bs.map (cut n)).flatten.length ≤ bs.flatten.length := by
  induction bs with
  | nil => exact Nat.le_refl _
  | cons b bs ih =>
    have hb := cut_length_le_length n b
    rw [List.map_cons, List.flatten_cons, List.flatten_cons, List.length_append,
      List.length_append]
    omega

/-- Strings that are cut are together the strings only if none of them is
shortened. -/
theorem flatten_map_cut {n : Nat} : ∀ {bs : List Text},
    (bs.map (cut n)).flatten = bs.flatten → ∀ b ∈ bs, cut n b = b
  | [], _, b, hb => by cases hb
  | x :: bs, h, b, hb => by
      rw [List.map_cons, List.flatten_cons, List.flatten_cons] at h
      have hlen := congrArg List.length h
      rw [List.length_append, List.length_append] at hlen
      have hx := cut_length_le_length n x
      have hbs := flatten_cut_length_le n bs
      obtain ⟨hhead, htail⟩ := List.append_inj h (by omega)
      rcases List.mem_cons.mp hb with rfl | hb
      · exact hhead
      · exact flatten_map_cut htail b hb

/-! ## One call -/

/-- The key of both messages. -/
theorem Enabled.fmt {msgFormatDict : UInt32 → Option Text} {msgId : Line → UInt32}
    {cs : MsgCounters} (h : Enabled msgFormatDict msgId cs) (l : Line) :
    msgFormatDict (msgId l) = some (ascii ['p']) := by
  obtain ⟨chunk, hkey⟩ := h.key l
  rw [hkey]
  cases l <;> rfl

/-- A hit leaves the messages enabled. -/
theorem Enabled.hit {msgFormatDict : UInt32 → Option Text} {msgId : Line → UInt32}
    {cs : MsgCounters} (h : Enabled msgFormatDict msgId cs) (id : UInt32) (tsc : UInt64) :
    Enabled msgFormatDict msgId (cs.hit id tsc) :=
  ⟨h.created, h.key, fun l => by rw [MsgCounters.off_hit]; exact h.on l⟩

theorem vargs_args (c : Str) (l : Line) : vargs (l.args c) = [.str c] := by
  cases l <;> rfl

/-- What is shown of a string object is its encoding. -/
theorem shown_str {i : Nat} {c : Str} {b : Text} (h : utf8 c = some b) :
    shown PyObj.python i (.str c) = some b := by
  have htext : textOf PyObj.python i (.str c) = (b, false, 2) := by
    simp only [textOf, PyObj.python, h]
  simp only [shown, strOf, PyObj.python, if_true, Option.map_some]
  exact congrArg (fun x => some x.1) htext

/-- A traced string is recorded up to its limit. -/
theorem tracef_str {n : Nat} (hn : n ≤ 255) {msgFormatDict : UInt32 → Option Text}
    {msgId : Line → UInt32} {s : Machine} (he : Enabled msgFormatDict msgId s.counters)
    (tsc : UInt64) (l : Line) {c : Str} {b : Text} (h : utf8 c = some b) :
    ∃ s', tracef n msgFormatDict tsc (msgId l) (l.args c) s = some (cut n b, s')
      ∧ Enabled msgFormatDict msgId s'.counters := by
  obtain ⟨r, hr, hring, hcounters, hstores⟩ := trace_text (n := n) (shown_str h) s.ringBuf tsc
    (he.created l) (he.fmt l)
  have hargs := @holds_args n s.ringBuf s.counters ⟨tsc, msgId l, [.val (.str b)]⟩ (he.on l) s.mem
  rw [← hstores, encodeArgs_cons, encodeArgs_nil, List.append_nil] at hargs
  have hlen : (s.mem.applyAll r.stores (s.ringBuf.startPos + 12)).toNat = (cut n b).length := by
    rw [hargs.1]
    exact toNat_length_byte (Nat.le_trans (cut_length_le n b) hn)
  refine ⟨⟨r.ringBuf, r.counters, s.mem.applyAll r.stores⟩, ?_, ?_⟩
  · rw [tracef, vargs_args, hr, Option.map_some]
    simp only [hlen, readBytes_holds hargs.2]
  · rw [hcounters]
    exact he.hit _ _

/-- The calls record every string up to its limit. -/
theorem runCalls_strings {n : Nat} (hn : n ≤ 255) {msgFormatDict : UInt32 → Option Text}
    {msgId : Line → UInt32} (tsc : Nat → UInt64) : ∀ {cs : List (Line × Str)} {bs : List Text},
    List.Forall₂ (fun c b => utf8 c.2 = some b) cs bs → ∀ (i : Nat) {s : Machine},
      Enabled msgFormatDict msgId s.counters →
      ∃ s', runCalls n msgFormatDict msgId tsc i (cs.map fun c => (c.1, c.1.args c.2)) s
        = some (bs.map (cut n), s')
  | [], _, h, i, s, _ => by
      cases h
      exact ⟨s, rfl⟩
  | (l, c) :: cs, _, h, i, s, he => by
      cases h with
      | cons hc hcs =>
        obtain ⟨s₁, hs₁, he₁⟩ := tracef_str hn he (tsc i) l hc
        obtain ⟨s₂, hs₂⟩ := runCalls_strings hn tsc hcs (i + 1) he₁
        refine ⟨s₂, ?_⟩
        rw [List.map_cons, runCalls]
        simp only [hs₁, Option.bind_some, hs₂, Option.map_some]
        rfl

/-! ## Which texts are recorded as a whole -/

/-- The calls of `traceLongString`, chunk by chunk. -/
theorem traceLongString_calls {length : Nat} (hl : 0 < length) (arg : List Str) :
    ∃ cs : List (Line × Str), cs.map Prod.snd = chunkList length (strTuple arg)
      ∧ traceLongString length arg = some (cs.map fun c => (c.1, c.1.args c.2)) := by
  have hflat := flatten_chunkList hl (strTuple arg)
  unfold traceLongString
  cases hchunks : chunkList length (strTuple arg) with
  | nil =>
    rw [hchunks] at hflat
    exact absurd hflat.symm (strTuple_ne_nil arg)
  | cons c cs =>
    refine ⟨(.first, c) :: cs.map fun c => (.rest, c), ?_, ?_⟩
    · simp [Function.comp_def]
    · simp [Function.comp_def]

/-- The run of the calls, when every chunk has an encoding. -/
theorem longString_run {n length : Nat} (hn : n ≤ 255) (hl : 0 < length) (arg : List Str)
    {bs : List Text}
    (hbs : List.Forall₂ (fun c b => utf8 c = some b) (chunkList length (strTuple arg)) bs)
    {msgFormatDict : UInt32 → Option Text} {msgId : Line → UInt32} (tsc : Nat → UInt64)
    {s : Machine} (he : Enabled msgFormatDict msgId s.counters) :
    ∃ calls s', traceLongString length arg = some calls
      ∧ runCalls n msgFormatDict msgId tsc 0 calls s = some (bs.map (cut n), s') := by
  obtain ⟨cs, hcs, hcalls⟩ := traceLongString_calls hl arg
  rw [← hcs, List.forall₂_map_left_iff] at hbs
  obtain ⟨s', hrun⟩ := runCalls_strings hn tsc hbs 0 he
  exact ⟨_, s', hcalls, hrun⟩

/-- Chunks that are recorded as a whole have encodings that no cut
shortens. -/
theorem encodings_of_whole {n : Nat} : ∀ {cs : List Str}, (∀ c ∈ cs, Whole n c) →
    ∃ bs : List Text, List.Forall₂ (fun c b => utf8 c = some b) cs bs ∧ bs.map (cut n) = bs
  | [], _ => ⟨[], .nil, rfl⟩
  | c :: cs, h => by
      obtain ⟨b, hb, hfit⟩ := h c (by simp)
      obtain ⟨bs, hbs, hcut⟩ := encodings_of_whole fun c hc => h c (List.mem_cons_of_mem _ hc)
      exact ⟨b :: bs, .cons hb hbs, by rw [List.map_cons, hcut, cut_eq_self_iff.mpr hfit]⟩

/-- The other way round. -/
theorem whole_of_encodings {n : Nat} : ∀ {cs : List Str} {bs : List Text},
    List.Forall₂ (fun c b => utf8 c = some b) cs bs → (∀ b ∈ bs, cut n b = b) →
    ∀ c ∈ cs, Whole n c
  | [], _, _, _, c, hc => by cases hc
  | c :: cs, _, h, hcut, d, hd => by
      cases h with
      | @cons _ b _ bs hb hbs =>
        rcases List.mem_cons.mp hd with rfl | hd
        · exact ⟨b, hb, cut_eq_self_iff.mp (hcut b (by simp))⟩
        · exact whole_of_encodings hbs (fun b hb => hcut b (List.mem_cons_of_mem _ hb)) d hd

theorem losesNothing_of_whole {n length : Nat} (hn : n ≤ 255) (hl : 0 < length)
    {arg : List Str} (h : ∀ c ∈ chunkList length (strTuple arg), Whole n c) :
    LosesNothing n length arg := by
  intro msgFormatDict msgId tsc s he
  obtain ⟨bs, hbs, hcut⟩ := encodings_of_whole h
  obtain ⟨calls, s', hcalls, hrun⟩ := longString_run hn hl arg hbs tsc he
  have hutf8 := utf8_flatten_of_chunks hbs
  rw [flatten_chunkList hl] at hutf8
  refine ⟨calls, bs.map (cut n), s', hcalls, hrun, ?_⟩
  rw [hcut, hutf8]

/-- A file with both messages and every statement enabled. -/
theorem enabled_sample : Enabled (fun _ => some (ascii ['p'])) (fun _ => 1)
    ⟨1, fun _ => MsgCounter.zero⟩ where
  created _ := by decide
  key l := ⟨[], by cases l <;> rfl⟩
  on _ := rfl

theorem whole_of_losesNothing {n length : Nat} (hn : n ≤ 255) (hl : 0 < length)
    {arg : List Str} (h : LosesNothing n length arg) :
    ∀ c ∈ chunkList length (strTuple arg), Whole n c := by
  obtain ⟨calls, strings, s', hcalls, hrun, hutf8⟩ :=
    h _ _ (fun _ => 0) ⟨⟨0, none, 0, 0⟩, _, fun _ => 0⟩ enabled_sample
  rw [← flatten_chunkList hl (strTuple arg)] at hutf8
  obtain ⟨bs, hbs, hflat⟩ := utf8_flatten hutf8
  obtain ⟨calls', s'', hcalls', hrun'⟩ := longString_run hn hl arg hbs (fun _ => 0)
    (s := ⟨⟨0, none, 0, 0⟩, _, fun _ => 0⟩) enabled_sample
  rw [hcalls, Option.some.injEq] at hcalls'
  rw [← hcalls', hrun, Option.some.injEq, Prod.mk.injEq] at hrun'
  rw [hrun'.1] at hflat
  exact whole_of_encodings hbs (flatten_map_cut hflat)

/-- Nothing is lost exactly when every chunk has an encoding that fits the
limit of recorded strings and holds no NUL. -/
theorem longString_whole_iff {n length : Nat} (hn : n ≤ 255) (hl : 0 < length) (arg : List Str) :
    LosesNothing n length arg ↔ ∀ c ∈ chunkList length (strTuple arg), Whole n c :=
  ⟨whole_of_losesNothing hn hl, losesNothing_of_whole hn hl⟩

/-- The `repr` of a string of 40 times "a". -/
def letters : Str := lit ([Char.ofNat 39] ++ List.replicate 40 'a' ++ [Char.ofNat 39])

/-- With the limits of a process that sets none it is traced in two
messages. -/
theorem losesNothing_letters : (chunkList 24 (strTuple [letters])).length = 2
    ∧ LosesNothing 24 24 [letters] := by
  have hchunks : chunkList 24 (strTuple [letters])
      = [lit (['(', Char.ofNat 39] ++ List.replicate 22 'a'),
        lit (List.replicate 18 'a' ++ [Char.ofNat 39, ',', ')'])] := by decide
  refine ⟨by rw [hchunks]; rfl, (longString_whole_iff (by decide) (by decide) _).mpr ?_⟩
  intro c hc
  rw [hchunks, List.mem_cons, List.mem_singleton] at hc
  rcases hc with rfl | rfl
  · exact ⟨ascii (['(', Char.ofNat 39] ++ List.replicate 22 'a'), by decide, by decide, by decide⟩
  · exact ⟨ascii (List.replicate 18 'a' ++ [Char.ofNat 39, ',', ')']), by decide, by decide,
      by decide⟩

/-- The `repr` of a string of 24 times "é". -/
def accents : Str := lit ([Char.ofNat 39] ++ List.replicate 24 (Char.ofNat 233) ++ [Char.ofNat 39])

/-- The first of its chunks. -/
def accentsChunk : Str := lit (['(', Char.ofNat 39] ++ List.replicate 22 (Char.ofNat 233))

/-- A chunk of 24 characters has 46 bytes, and 24 of them are recorded. -/
theorem losesNothing_accents : ¬ LosesNothing 24 24 [accents] := by
  intro h
  have hmem : accentsChunk ∈ chunkList 24 (strTuple [accents]) := by decide
  obtain ⟨b, hb, hlen, -⟩ := whole_of_losesNothing (by decide) (by decide) h accentsChunk hmem
  have h46 : (utf8 accentsChunk).map List.length = some 46 := by decide
  rw [hb, Option.map_some, Option.some.injEq] at h46
  omega

end Python

end QuickTrace
