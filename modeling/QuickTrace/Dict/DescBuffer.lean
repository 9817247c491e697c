/-
QuickTrace.Dict.DescBuffer — the buffers a descriptor is built in.

`MsgDesc` and its `MsgFormatString` write into two arrays of the trace file,
1024 and 256 characters. Every function has its own way to look at the room
that is left: an assertion, `memccpy` whose null is not looked at, or
nothing. Here all writes and reads look at the bounds, and what the source
leaves undefined is a `Stop.fault`.

`buf_` is always `front ++ rest` with `ptr_` in between, and the key is its
text, a NUL and a rest (`Stands`). `Stands.step` says what an append does in
terms of the room it needs, `run_cases` follows a sequence of them up to the
first one without room, and `build_safe_iff` is about all of it.
-/
import QuickTrace.Dict.QtFmtGrammar

namespace QuickTrace

open QuickTrace.Lib

namespace DescBuffer

open MsgDesc (bufSize)
open MsgFormatString (keySize)

/-! ## The buffers -/

/-- What ends the construction early. -/
inductive Stop where
  | assertion
  /-- A byte outside of its buffer, or a pointer that is null or outside. -/
  | fault
  deriving DecidableEq

/-- Write `bs` at position `p`. -/
def store (buf : List UInt8) (p : Nat) (bs : List UInt8) : Except Stop (List UInt8) :=
  if p + bs.length ≤ buf.length then .ok (buf.take p ++ bs ++ buf.drop (p + bs.length))
  else .error .fault

/-- `memccpy( buf + p, x, 0, n )` for a C string that starts in `x`; the
position behind the NUL, or null. -/
def memccpy (buf : List UInt8) (p : Nat) (x : List UInt8) (n : Nat) :
    Except Stop (List UInt8 × Option Nat) := do
  let buf ← store buf p ((cstring x ++ [0]).take n)
  return (buf, if (cstring x).length < n then some (p + (cstring x).length + 1) else none)

/-- `MsgDesc` and its format string: positions in `msgDescBuf_` and in
`msgFormatStringKey_`. -/
structure State where
  buf : List UInt8
  ptr : Nat
  pstr : Nat
  key : List UInt8
  keyPtr : Nat
  deriving DecidableEq

/-! ## The functions -/

/-- The constructor; `header` is what `sprintf` prints. -/
def start (buf key : List UInt8) (header : Text) : Except Stop State := do
  let key ← store key 0 [0]
  let buf ← store buf 0 (header ++ [0])
  let pstr := header.length
  if pstr + 4 ≤ bufSize then return { buf, ptr := pstr + 4, pstr, key, keyPtr := 0 }
  else throw .fault

/-- The comma of `MsgFormatString::put`. -/
def putComma (s : State) : Except Stop State :=
  if s.keyPtr = 0 then return s
  else do
    let key ← store s.key s.keyPtr [44]
    return { s with key, keyPtr := s.keyPtr + 1 }

/-- `MsgFormatString::put`. -/
def put (s : State) (ss : Text) : Except Stop State := do
  let s ← putComma s
  match ← memccpy s.key s.keyPtr ss (keySize - s.keyPtr) with
  | (key, some ptr) => return { s with key, keyPtr := ptr - 1 }
  | (_, none) => throw .fault

/-- `operator<<( string_view )`. -/
def insertView (s : State) (x : Text) : Except Stop State :=
  if x.length < bufSize - s.ptr then do
    let buf ← store s.buf s.ptr x
    return { s with buf, ptr := s.ptr + x.length }
  else throw .assertion

/-- `operator<<( char const * )`. -/
def insertCStr (s : State) (x : Text) : Except Stop State := do
  match ← memccpy s.buf s.ptr x (bufSize - s.ptr) with
  | (buf, some ptr) => return { s with buf, ptr := ptr - 1 }
  | (_, none) => throw .fault

/-- `operator<<( Varg )` and `operator<<( HexVarg )`. -/
def insertChars (s : State) (x : Text) : Except Stop State := do
  let buf ← store s.buf s.ptr x
  return { s with buf, ptr := s.ptr + x.length }

/-- `operator<<`, overloaded. -/
def insert (s : State) : MsgDesc.Insertion → Except Stop State
  | .view x => insertView s x
  | .cstr x => insertCStr s x
  | .varg => insertChars s (ascii ['%', 's'])
  | .hexVarg alternate =>
    insertChars s (if alternate then ascii ['%', '#', 'x'] else ascii ['%', 'x'])

/-- The bytes of the key that `memccpy` reads. -/
def readKey (key : List UInt8) (n : Nat) : Except Stop (List UInt8) :=
  if 0 ∈ key ∨ n ≤ key.length then .ok key else .error .fault

/-- The second half of `finish`: the key, and its length at `p`. -/
def finishKey (buf : List UInt8) (p : Nat) (key : List UInt8) : Except Stop (List UInt8) := do
  let key ← readKey key (bufSize - (p + 4))
  match ← memccpy buf (p + 4) key (bufSize - (p + 4)) with
  | (_, none) => throw .assertion
  | (buf, some ptr) => do
    let buf ← store buf p (leBytes 4 (ptr - (p + 4)))
    return buf.take ptr

/-- `finish`: what it writes to the file. -/
def finish (s : State) : Except Stop (List UInt8) := do
  let buf ← store s.buf s.ptr [0]
  let ptr := s.ptr + 1
  let buf ← store buf s.pstr (leBytes 4 (ptr - (s.pstr + 4)))
  if bufSize < ptr + 4 then throw .fault
  finishKey buf ptr s.key

/-- What is called between the constructor and `finish`. -/
inductive Op where
  | insert (x : MsgDesc.Insertion)
  | put (ss : Text)
  deriving DecidableEq

def step (s : State) : Op → Except Stop State
  | .insert x => insert s x
  | .put ss => put s ss

/-- A descriptor from its constructor to `finish`, in buffers with any
content. -/
def build (buf key : List UInt8) (header : Text) (ops : List Op) : Except Stop (List UInt8) := do
  let s ← start buf key header
  finish (← ops.foldlM step s)

/-! ## Room -/

/-- The key with another part. -/
def keyWith (key ss : Text) : Text :=
  if key.isEmpty then cstring ss else key ++ ascii [','] ++ cstring ss

namespace Op

/-- What a call adds to text and key, if there is room. -/
def apply (d : MsgDesc) : Op → MsgDesc
  | .insert x => d.extend x.text
  | .put ss => { d with formatString := keyWith d.formatString ss }

/-- The room a call needs: a C string is copied with its NUL, a view must
leave a character, conversions may fill the buffer. -/
def Fits (d : MsgDesc) : Op → Prop
  | .insert (.view x) => d.header.length + 4 + d.text.length + x.length < bufSize
  | .insert (.cstr x) => d.header.length + 4 + d.text.length + (cstring x).length < bufSize
  | .insert x => d.header.length + 4 + d.text.length + x.text.length ≤ bufSize
  | .put ss => (keyWith d.formatString ss).length < keySize

/-- The one call that asserts that there is room. -/
def isView : Op → Bool
  | .insert (.view _) => true
  | _ => false

end Op

/-- Text and key after some calls. -/
def after (d : MsgDesc) (ops : List Op) : MsgDesc := ops.foldl Op.apply d

/-- There is room for every call. -/
def AllFit (d : MsgDesc) (ops : List Op) : Prop :=
  ∀ pre op post, ops = pre ++ op :: post → op.Fits (after d pre)

/-! ## Writing behind what stands -/

theorem store_append (front rest bs : List UInt8) (h : bs.length ≤ rest.length) :
    store (front ++ rest) front.length bs = .ok (front ++ (bs ++ rest.drop bs.length)) := by
  unfold store
  rw [if_pos (by rw [List.length_append]; omega), List.take_left, List.drop_append]
  rw [List.drop_of_length_le (by omega), Nat.add_sub_cancel_left, List.nil_append,
    List.append_assoc]

theorem store_fault (front rest bs : List UInt8) (h : rest.length < bs.length) :
    store (front ++ rest) front.length bs = .error .fault := by
  unfold store
  rw [if_neg (by rw [List.length_append]; omega)]

/-- Write over a part of the same length. -/
theorem store_over (a b c bs : List UInt8) (h : bs.length = b.length) :
    store (a ++ (b ++ c)) a.length bs = .ok (a ++ (bs ++ c)) := by
  rw [store_append _ _ _ (by rw [List.length_append]; omega), h, List.drop_left]

/-- A C string for which there is room. -/
theorem memccpy_fits (front : List UInt8) {rest x : List UInt8}
    (h : (cstring x).length < rest.length) :
    memccpy (front ++ rest) front.length x rest.length
      = .ok (front ++ cstring x ++ 0 :: rest.drop ((cstring x).length + 1),
          some (front.length + (cstring x).length + 1)) := by
  have hlen : (cstring x ++ [0]).length = (cstring x).length + 1 := by simp
  have htake : (cstring x ++ [0]).take rest.length = cstring x ++ [0] :=
    List.take_of_length_le (by rw [hlen]; omega)
  unfold memccpy
  rw [htake, store_append _ _ _ (by rw [hlen]; omega), ok_bind, if_pos h, hlen]
  simp only [List.append_assoc, List.singleton_append]
  rfl

/-- Without room the pointer is null. -/
theorem memccpy_null (front : List UInt8) {rest x : List UInt8}
    (h : rest.length ≤ (cstring x).length) :
    ∃ buf, memccpy (front ++ rest) front.length x rest.length = .ok (buf, none) := by
  have hlen : ((cstring x ++ [0]).take rest.length).length ≤ rest.length := by
    rw [List.length_take]
    exact Nat.min_le_left _ _
  unfold memccpy
  rw [store_append _ _ _ hlen, ok_bind, if_neg (by omega)]
  exact ⟨_, rfl⟩

/-! ## The invariant -/

/-- The buffer up to the write pointer; `gap` is the room for the length. -/
def front (d : MsgDesc) (gap : List UInt8) : List UInt8 := d.header ++ gap ++ d.text

theorem front_length (d : MsgDesc) {gap : List UInt8} (h : gap.length = 4) :
    (front d gap).length = d.header.length + 4 + d.text.length := by
  rw [front, List.length_append, List.length_append, h]

theorem front_extend (d : MsgDesc) (gap x : List UInt8) :
    front (d.extend x) gap = front d gap ++ x := by
  simp [front, MsgDesc.extend]

/-- The buffers hold the descriptor so far, and the pointers stand behind
it. -/
structure Stands (d : MsgDesc) (s : State) : Prop where
  buf : ∃ gap rest, gap.length = 4 ∧ s.buf = front d gap ++ rest
  buf_length : s.buf.length = bufSize
  pstr : s.pstr = d.header.length
  ptr : s.ptr = d.header.length + 4 + d.text.length
  key : ∃ rest, s.key = d.formatString ++ 0 :: rest
  key_length : s.key.length = keySize
  keyPtr : s.keyPtr = d.formatString.length
  key_ne : ∀ c ∈ d.formatString, c ≠ 0

/-- `buf_` around `ptr_`. -/
theorem Stands.split {d : MsgDesc} {s : State} (h : Stands d s) :
    ∃ gap rest, gap.length = 4 ∧ s.buf = front d gap ++ rest ∧ s.ptr = (front d gap).length
      ∧ s.ptr + rest.length = bufSize := by
  obtain ⟨gap, rest, hgap, hbuf⟩ := h.buf
  have hlen := h.buf_length
  rw [hbuf, List.length_append] at hlen
  have hptr : s.ptr = (front d gap).length := by rw [front_length d hgap, h.ptr]
  exact ⟨gap, rest, hgap, hbuf, hptr, by omega⟩

/-- Text behind the descriptor. -/
theorem Stands.extend {d : MsgDesc} {s : State} (h : Stands d s) {gap rest x : List UInt8}
    (hgap : gap.length = 4)
    (hlen : (front d gap ++ x ++ rest).length = bufSize) :
    Stands (d.extend x) { s with buf := front d gap ++ x ++ rest, ptr := s.ptr + x.length } where
  __ := h
  buf := ⟨gap, rest, hgap, by rw [front_extend]⟩
  buf_length := hlen
  ptr := by
    rw [h.ptr]
    simp only [MsgDesc.extend, List.length_append]
    omega

/-! ## The appends -/

section

variable {d : MsgDesc} {s : State}

theorem Stands.insertChars_fits (h : Stands d s) {x : Text} (hx : s.ptr + x.length ≤ bufSize) :
    ∃ s', insertChars s x = .ok s' ∧ Stands (d.extend x) s' := by
  obtain ⟨gap, rest, hgap, hbuf, hptr, hroom⟩ := h.split
  have hstore := store_append (front d gap) rest x (by omega)
  unfold insertChars
  rw [hbuf, hptr, hstore, ok_bind, ← hptr, ← List.append_assoc]
  refine ⟨_, rfl, h.extend hgap ?_⟩
  simp only [List.length_append, List.length_drop]
  omega

theorem Stands.insertChars_fault (h : Stands d s) {x : Text} (hx : bufSize < s.ptr + x.length) :
    insertChars s x = .error .fault := by
  obtain ⟨gap, rest, -, hbuf, hptr, hroom⟩ := h.split
  unfold insertChars
  rw [hbuf, hptr, store_fault (front d gap) rest x (by omega)]
  rfl

theorem Stands.insertView_fits (h : Stands d s) {x : Text} (hx : s.ptr + x.length < bufSize) :
    ∃ s', insertView s x = .ok s' ∧ Stands (d.extend x) s' := by
  unfold insertView
  rw [if_pos (by omega)]
  exact h.insertChars_fits (Nat.le_of_lt hx)

theorem insertView_assertion {x : Text} (hx : bufSize ≤ s.ptr + x.length) :
    insertView s x = .error .assertion := by
  unfold insertView
  rw [if_neg (by omega)]
  rfl

theorem Stands.insertCStr_fits (h : Stands d s) {x : Text}
    (hx : s.ptr + (cstring x).length < bufSize) :
    ∃ s', insertCStr s x = .ok s' ∧ Stands (d.extend (cstring x)) s' := by
  obtain ⟨gap, rest, hgap, hbuf, hptr, hroom⟩ := h.split
  have hlen : (cstring x).length < rest.length := by omega
  have hcopy := memccpy_fits (front d gap) hlen
  unfold insertCStr
  rw [hbuf, hptr, show bufSize - (front d gap).length = rest.length by omega, hcopy]
  refine ⟨_, rfl, ?_⟩
  simp only [Nat.add_sub_cancel, ← hptr]
  refine h.extend hgap ?_
  simp only [List.length_append, List.length_cons, List.length_drop]
  omega

theorem Stands.insertCStr_fault (h : Stands d s) {x : Text}
    (hx : bufSize ≤ s.ptr + (cstring x).length) : insertCStr s x = .error .fault := by
  obtain ⟨gap, rest, -, hbuf, hptr, hroom⟩ := h.split
  have hlen : rest.length ≤ (cstring x).length := by omega
  obtain ⟨buf, hcopy⟩ := memccpy_null (front d gap) hlen
  unfold insertCStr
  rw [hbuf, hptr, show bufSize - (front d gap).length = rest.length by omega, hcopy]
  rfl

/-- Any insertion. -/
theorem Stands.insert (h : Stands d s) (x : MsgDesc.Insertion) :
    ((Op.insert x).Fits d ∧ ∃ s', insert s x = .ok s' ∧ Stands (d.extend x.text) s')
      ∨ ¬ (Op.insert x).Fits d
        ∧ insert s x = .error (if (Op.insert x).isView then .assertion else .fault) := by
  have hchars : ∀ t : Text, (s.ptr + t.length ≤ bufSize ∧
      ∃ s', insertChars s t = .ok s' ∧ Stands (d.extend t) s')
      ∨ ¬ s.ptr + t.length ≤ bufSize ∧ insertChars s t = .error .fault := by
    intro t
    by_cases ht : s.ptr + t.length ≤ bufSize
    · exact Or.inl ⟨ht, h.insertChars_fits ht⟩
    · exact Or.inr ⟨ht, h.insertChars_fault (Nat.lt_of_not_le ht)⟩
  cases x with
  | view x =>
    rw [Op.Fits, ← h.ptr]
    by_cases hx : s.ptr + x.length < bufSize
    · exact Or.inl ⟨hx, h.insertView_fits hx⟩
    · exact Or.inr ⟨hx, insertView_assertion (Nat.le_of_not_lt hx)⟩
  | cstr x =>
    rw [Op.Fits, ← h.ptr]
    by_cases hx : s.ptr + (cstring x).length < bufSize
    · exact Or.inl ⟨hx, h.insertCStr_fits hx⟩
    · exact Or.inr ⟨hx, h.insertCStr_fault (Nat.le_of_not_lt hx)⟩
  | varg =>
    have hfits : (Op.insert .varg).Fits d ↔ s.ptr + (ascii ['%', 's']).length ≤ bufSize := by
      rw [h.ptr]
      exact Iff.rfl
    rw [hfits]
    exact hchars (ascii ['%', 's'])
  | hexVarg alternate =>
    have hfits : (Op.insert (.hexVarg alternate)).Fits d
        ↔ s.ptr + (MsgDesc.Insertion.hexVarg alternate).text.length ≤ bufSize := by
      rw [h.ptr]
      exact Iff.rfl
    rw [hfits]
    exact hchars _

/-- The key in front of the part that `put` copies. -/
def keyFront (key : Text) : Text := if key.isEmpty then [] else key ++ [44]

theorem keyWith_eq (key ss : Text) : keyWith key ss = keyFront key ++ cstring ss := by
  unfold keyWith keyFront
  split
  · rfl
  · rfl

theorem keyWith_ne {key : Text} (h : ∀ c ∈ key, c ≠ 0) (ss : Text) :
    ∀ c ∈ keyWith key ss, c ≠ 0 := by
  have hss : ∀ c ∈ cstring ss, c ≠ 0 := fun c hc => by
    simpa using List.mem_takeWhile_imp hc
  unfold keyWith
  split
  · exact hss
  · intro c hc
    rw [List.mem_append, List.mem_append] at hc
    rcases hc with (hc | hc) | hc
    · exact h c hc
    · exact forall_mem_text (t := ascii [',']) (p := (· ≠ 0)) (by decide) c hc
    · exact hss c hc

/-- The comma is written over the NUL of the key. -/
theorem Stands.putComma (h : Stands d s) :
    ∃ rest, putComma s = .ok { s with
        key := keyFront d.formatString ++ rest, keyPtr := (keyFront d.formatString).length }
      ∧ (keyFront d.formatString ++ rest).length = keySize := by
  obtain ⟨rest, hkey⟩ := h.key
  have hlen := h.key_length
  have hptr := h.keyPtr
  rw [hkey] at hlen
  unfold DescBuffer.putComma
  by_cases hfs : d.formatString = []
  · have hfront : keyFront d.formatString = [] := by rw [hfs]; rfl
    rw [hfs] at hptr hlen hkey
    rw [List.length_nil] at hptr
    refine ⟨0 :: rest, ?_, ?_⟩
    · rw [if_pos hptr, hfront, ← show s.key = 0 :: rest from hkey, List.nil_append]
      cases s
      cases hptr
      rfl
    · rw [hfront]
      exact hlen
  · have hfront : keyFront d.formatString = d.formatString ++ [44] := by
      rw [keyFront, if_neg (by rwa [List.isEmpty_iff])]
    have hpos : s.keyPtr ≠ 0 := by
      rw [hptr]
      intro h0
      exact hfs (List.eq_nil_of_length_eq_zero h0)
    refine ⟨rest, ?_, ?_⟩
    · rw [if_neg hpos, hkey, hptr, store_append _ _ _ (by simp), hfront]
      simp
    · rw [hfront]
      simp only [List.length_append, List.length_cons, List.length_nil] at hlen ⊢
      omega

/-- Another part of the key. -/
theorem Stands.put (h : Stands d s) (ss : Text) :
    ((Op.put ss).Fits d ∧ ∃ s', put s ss = .ok s' ∧ Stands ((Op.put ss).apply d) s')
      ∨ ¬ (Op.put ss).Fits d ∧ put s ss = .error .fault := by
  obtain ⟨rest, hcomma, hlen⟩ := h.putComma
  have hkey := keyWith_eq d.formatString ss
  have hroom : keySize - (keyFront d.formatString).length = rest.length := by
    rw [List.length_append] at hlen
    omega
  have hfits : (Op.put ss).Fits d ↔ (cstring ss).length < rest.length := by
    rw [Op.Fits, hkey, List.length_append, ← hlen, List.length_append]
    omega
  unfold DescBuffer.put
  rw [hcomma, ok_bind, hfits]
  simp only [hroom]
  by_cases hss : (cstring ss).length < rest.length
  · rw [memccpy_fits _ hss]
    refine Or.inl ⟨hss, _, rfl, ?_⟩
    exact {
      buf := h.buf
      buf_length := h.buf_length
      pstr := h.pstr
      ptr := h.ptr
      key := ⟨_, by rw [Op.apply, hkey]⟩
      key_length := by
        rw [← hlen]
        simp only [List.length_append, List.length_cons, List.length_drop]
        omega
      keyPtr := by
        rw [Op.apply, hkey, List.length_append]
        simp only [Nat.add_sub_cancel]
      key_ne := keyWith_ne h.key_ne ss }
  · obtain ⟨buf, hcopy⟩ := memccpy_null (keyFront d.formatString) (Nat.le_of_not_lt hss)
    rw [hcopy]
    exact Or.inr ⟨hss, rfl⟩

/-- A call either has the room it needs, or it ends the construction. -/
theorem Stands.step (h : Stands d s) (op : Op) :
    (op.Fits d ∧ ∃ s', step s op = .ok s' ∧ Stands (op.apply d) s')
      ∨ ¬ op.Fits d ∧ step s op = .error (if op.isView then .assertion else .fault) := by
  cases op with
  | insert x => exact h.insert x
  | put ss => exact h.put ss

end

/-! ## A sequence of appends -/

theorem allFit_nil (d : MsgDesc) : AllFit d [] := by
  intro pre op post h
  cases pre with
  | nil => cases h
  | cons o pre => cases h

theorem allFit_cons {d : MsgDesc} {op : Op} {ops : List Op} :
    AllFit d (op :: ops) ↔ op.Fits d ∧ AllFit (op.apply d) ops := by
  constructor
  · intro h
    refine ⟨h [] op ops rfl, ?_⟩
    intro pre o post heq
    exact h (op :: pre) o post (by rw [heq]; rfl)
  · rintro ⟨hop, hops⟩ pre o post heq
    cases pre with
    | nil =>
      cases heq
      exact hop
    | cons p pre =>
      cases heq
      exact hops pre o post rfl

/-- Up to the first call without room. -/
theorem allFit_or : ∀ (ops : List Op) (d : MsgDesc), AllFit d ops
    ∨ ∃ pre op post, ops = pre ++ op :: post ∧ AllFit d pre ∧ ¬ op.Fits (after d pre)
  | [], d => Or.inl (allFit_nil d)
  | op :: ops, d => by
      by_cases hop : op.Fits d
      · rcases allFit_or ops (op.apply d) with h | ⟨pre, o, post, rfl, hpre, ho⟩
        · exact Or.inl (allFit_cons.mpr ⟨hop, h⟩)
        · exact Or.inr ⟨op :: pre, o, post, rfl, allFit_cons.mpr ⟨hop, hpre⟩, ho⟩
      · exact Or.inr ⟨[], op, ops, rfl, allFit_nil d, hop⟩

/-- With room for every call the construction goes on. -/
theorem Stands.run : ∀ (ops : List Op) {d : MsgDesc} {s : State}, Stands d s → AllFit d ops →
    ∃ s', ops.foldlM DescBuffer.step s = .ok s' ∧ Stands (after d ops) s'
  | [], d, s, h, _ => ⟨s, rfl, h⟩
  | op :: ops, d, s, h, hfit => by
      obtain ⟨hop, hops⟩ := allFit_cons.mp hfit
      rcases h.step op with ⟨-, s₁, hstep, h₁⟩ | ⟨hno, -⟩
      · rw [List.foldlM_cons, hstep, ok_bind]
        exact h₁.run ops hops
      · exact absurd hop hno

/-- The first call without room ends it. -/
theorem Stands.run_stops : ∀ (pre : List Op) {d : MsgDesc} {s : State} {op : Op} (post : List Op),
    Stands d s → AllFit d pre → ¬ op.Fits (after d pre) →
    (pre ++ op :: post).foldlM DescBuffer.step s
      = .error (if op.isView then .assertion else .fault)
  | [], d, s, op, post, h, _, hno => by
      rcases h.step op with ⟨hfit, -⟩ | ⟨-, hstep⟩
      · exact absurd hfit hno
      · rw [List.nil_append, List.foldlM_cons, hstep]
        rfl
  | o :: pre, d, s, op, post, h, hfit, hno => by
      obtain ⟨ho, hpre⟩ := allFit_cons.mp hfit
      rcases h.step o with ⟨-, s₁, hstep, h₁⟩ | ⟨hno', -⟩
      · rw [List.cons_append, List.foldlM_cons, hstep, ok_bind]
        exact h₁.run_stops pre post hpre hno
      · exact absurd ho hno'

/-! ## Constructor and `finish` -/

/-- The descriptor behind the constructor. -/
def fresh (header : Text) : MsgDesc := ⟨header, [], []⟩

theorem start_stands {buf key : List UInt8} {header : Text} (hbuf : buf.length = bufSize)
    (hkey : key.length = keySize) (h : header.length + 4 ≤ bufSize) :
    ∃ s, start buf key header = .ok s ∧ Stands (fresh header) s := by
  have hn : (header ++ [0]).length = header.length + 1 := by simp
  have hk : store key 0 [0] = .ok (0 :: key.drop 1) :=
    store_append [] key [0] (by rw [hkey]; decide)
  have hb : store buf 0 (header ++ [0]) = .ok (header ++ 0 :: buf.drop (header.length + 1)) := by
    have := store_append [] buf (header ++ [0]) (by rw [hn, hbuf]; omega)
    rw [hn, List.nil_append, List.nil_append, List.append_assoc] at this
    exact this
  unfold start
  rw [hk, ok_bind, hb, ok_bind]
  simp only [if_pos h]
  refine ⟨_, rfl, ?_⟩
  have hlen : (0 :: buf.drop (header.length + 1)).length = bufSize - header.length := by
    rw [List.length_cons, List.length_drop, hbuf]
    omega
  refine ⟨⟨(0 :: buf.drop (header.length + 1)).take 4, (0 :: buf.drop (header.length + 1)).drop 4,
    ?_, ?_⟩, ?_, rfl, rfl, ⟨key.drop 1, rfl⟩, ?_, rfl, ?_⟩
  · rw [List.length_take, hlen]
    omega
  · simp only [front, fresh, List.append_nil, List.append_assoc, List.take_append_drop]
  · rw [List.length_append, hlen]
    omega
  · rw [List.length_cons, List.length_drop, hkey]
    rfl
  · exact fun c hc => by cases hc

theorem start_fault {buf key : List UInt8} {header : Text} (hbuf : buf.length = bufSize)
    (hkey : key.length = keySize) (h : bufSize < header.length + 4) :
    start buf key header = .error .fault := by
  have hn : (header ++ [0]).length = header.length + 1 := by simp
  have hk : store key 0 [0] = .ok (0 :: key.drop 1) :=
    store_append [] key [0] (by rw [hkey]; decide)
  unfold start
  rw [hk, ok_bind]
  by_cases hroom : header.length + 1 ≤ bufSize
  · have hb := store_append [] buf (header ++ [0]) (by rw [hn, hbuf]; omega)
    rw [List.nil_append, List.length_nil] at hb
    rw [hb, ok_bind]
    simp only
    rw [if_neg (by omega)]
    rfl
  · have hb := store_fault [] buf (header ++ [0]) (by rw [hn, hbuf]; omega)
    rw [List.nil_append, List.length_nil] at hb
    rw [hb]
    rfl

section

variable {d : MsgDesc} {s : State}

theorem Stands.readKey (h : Stands d s) (n : Nat) : readKey s.key n = .ok s.key := by
  obtain ⟨rest, hkey⟩ := h.key
  unfold DescBuffer.readKey
  rw [if_pos (Or.inl (by rw [hkey]; simp))]

theorem Stands.cstring_key (h : Stands d s) : cstring s.key = d.formatString := by
  obtain ⟨rest, hkey⟩ := h.key
  rw [hkey, cstring, List.takeWhile_append_of_pos]
  · simp
  · intro c hc
    simpa using h.key_ne c hc

/-- The key behind `pre`. -/
theorem finishKey_eq (pre rest : List UInt8) {gap key : List UInt8} (hgap : gap.length = 4)
    (hlen : (pre ++ (gap ++ rest)).length = bufSize)
    (hread : DescBuffer.readKey key (bufSize - (pre.length + 4)) = .ok key) :
    finishKey (pre ++ (gap ++ rest)) pre.length key
      = if pre.length + 4 + (cstring key).length < bufSize
        then .ok (pre ++ pstringL (cstring key)) else .error .assertion := by
  have happ : pre ++ (gap ++ rest) = (pre ++ gap) ++ rest := by rw [List.append_assoc]
  have hfront : pre.length + 4 = (pre ++ gap).length := by rw [List.length_append, hgap]
  have hroom : bufSize - (pre ++ gap).length = rest.length := by
    rw [happ, List.length_append] at hlen
    omega
  have hfits : pre.length + 4 + (cstring key).length < bufSize
      ↔ (cstring key).length < rest.length := by omega
  unfold finishKey
  rw [hread, ok_bind, happ, hfront, hroom]
  by_cases hk : (cstring key).length < rest.length
  · have hback := store_over pre gap (cstring key ++ 0 :: rest.drop ((cstring key).length + 1))
      (leBytes 4 ((cstring key).length + 1)) (by rw [leBytes_length, hgap])
    have hlen' : (pre ++ gap).length + (cstring key).length + 1 - (pre ++ gap).length
        = (cstring key).length + 1 := by omega
    rw [if_pos (by omega), memccpy_fits _ hk, ok_bind]
    simp only [hlen']
    rw [List.append_assoc, List.append_assoc, hback, ok_bind]
    have hbytes : pre ++ (leBytes 4 ((cstring key).length + 1) ++ (cstring key
          ++ 0 :: rest.drop ((cstring key).length + 1)))
        = (pre ++ pstringL (cstring key)) ++ rest.drop ((cstring key).length + 1) := by
      simp [pstringL]
    have hend : (pre ++ pstringL (cstring key)).length
        = (pre ++ gap).length + (cstring key).length + 1 := by
      simp only [pstringL, List.length_append, leBytes_length, List.length_singleton, hgap]
      omega
    rw [hbytes, ← hend, List.take_left]
    rfl
  · obtain ⟨buf, hcopy⟩ := memccpy_null (pre ++ gap) (Nat.le_of_not_lt hk)
    rw [if_neg (by omega), hcopy]
    rfl

/-- What `finish` does in terms of the room it needs: a NUL and the length of
the key in any case, and the key with its NUL for the assertion. -/
theorem Stands.finish (h : Stands d s) :
    DescBuffer.finish s
      = if bufSize < d.header.length + 4 + d.text.length + 5 then .error .fault
        else match d.finish with
          | some bs => .ok bs
          | none => .error .assertion := by
  obtain ⟨gap, rest, hgap, hbuf, hptr, hroom⟩ := h.split
  have hp := h.ptr
  rw [← hp]
  unfold DescBuffer.finish
  rcases hrest : rest with _ | ⟨b, rest₁⟩
  · rw [hrest, List.length_nil] at hroom
    rw [hbuf, hptr, hrest, store_fault _ _ _ (by simp), if_pos (by omega)]
    rfl
  rw [hrest, List.length_cons] at hroom
  have hnul : store s.buf s.ptr [0]
      = .ok (d.header ++ (gap ++ (d.text ++ 0 :: rest₁))) := by
    rw [hbuf, hptr, hrest, store_append _ _ _ (by simp), front]
    simp
  have hlen : s.ptr + 1 - (s.pstr + 4) = d.text.length + 1 := by
    rw [hp, h.pstr]
    omega
  have hback : store (d.header ++ (gap ++ (d.text ++ 0 :: rest₁))) s.pstr
      (leBytes 4 (d.text.length + 1))
      = .ok (d.header ++ (leBytes 4 (d.text.length + 1) ++ (d.text ++ 0 :: rest₁))) := by
    rw [h.pstr]
    exact store_over _ _ _ _ (by rw [leBytes_length, hgap])
  rw [hnul, ok_bind]
  simp only [hlen]
  rw [hback, ok_bind]
  by_cases hfull : bufSize < s.ptr + 5
  · rw [if_pos hfull, if_pos hfull]
    rfl
  rw [if_neg hfull, if_neg hfull]
  have hpre : (d.header ++ pstringL d.text).length = s.ptr + 1 := by
    rw [hp]
    simp only [pstringL, List.length_append, leBytes_length, List.length_singleton]
    omega
  have hsplit : d.header ++ (leBytes 4 (d.text.length + 1) ++ (d.text ++ 0 :: rest₁))
      = (d.header ++ pstringL d.text) ++ (rest₁.take 4 ++ rest₁.drop 4) := by
    simp [pstringL]
  have htake : (rest₁.take 4).length = 4 := by
    rw [List.length_take]
    omega
  have hkey := finishKey_eq (d.header ++ pstringL d.text) (rest₁.drop 4) htake
    (by simp only [List.length_append, hpre, htake, List.length_drop]; omega)
    (h.readKey _)
  rw [hpre, h.cstring_key] at hkey
  rw [hsplit, hkey, MsgDesc.finish, cstring_of_ne h.key_ne]
  by_cases hroom' : s.ptr + 1 + 4 + d.formatString.length < bufSize
  · rw [if_pos hroom', if_pos (by omega), List.append_assoc]
  · rw [if_neg hroom', if_neg (by omega)]

end

/-! ## A descriptor from its constructor to the end -/

/-- Constructor, appends and `finish` end with the descriptor written or in a
failed assertion. -/
def NeverLeaves (tsc : UInt64) (file : Text) (line : Int32) (id : UInt32) (ops : List Op) : Prop :=
  ∀ buf key, buf.length = bufSize → key.length = keySize →
    build buf key (MsgDesc.start tsc file line id).header ops ≠ .error .fault

/-- The first line and the room for a length fit; and either there is room
for every call and another five bytes, or the first call without room is a
view. -/
def HasRoom (header : Text) (ops : List Op) : Prop :=
  header.length + 4 ≤ bufSize ∧
    (AllFit (fresh header) ops
        ∧ header.length + 4 + (after (fresh header) ops).text.length + 5 ≤ bufSize
      ∨ ∃ pre x post, ops = pre ++ .insert (.view x) :: post ∧ AllFit (fresh header) pre
        ∧ ¬ (Op.insert (.view x)).Fits (after (fresh header) pre))

@[simp] theorem apply_header (d : MsgDesc) (op : Op) : (op.apply d).header = d.header := by
  cases op with
  | insert x => rfl
  | put ss => rfl

theorem after_header : ∀ (ops : List Op) (d : MsgDesc), (after d ops).header = d.header
  | [], _ => rfl
  | op :: ops, d => by rw [after, List.foldl_cons, ← after, after_header ops, apply_header]

theorem isView_eq {op : Op} (h : op.isView = true) : ∃ x, op = .insert (.view x) := by
  cases op with
  | insert i =>
    cases i with
    | view x => exact ⟨x, rfl⟩
    | _ => cases h
  | put ss => cases h

section

variable {buf key : List UInt8} {header : Text}

/-- With room for every call `finish` decides. -/
theorem build_allFit (hbuf : buf.length = bufSize) (hkey : key.length = keySize)
    (hstart : header.length + 4 ≤ bufSize) {ops : List Op}
    (hfit : AllFit (fresh header) ops) :
    build buf key header ops
      = if bufSize < header.length + 4 + (after (fresh header) ops).text.length + 5
        then .error .fault
        else match (after (fresh header) ops).finish with
          | some bs => .ok bs
          | none => .error .assertion := by
  obtain ⟨s, hs, hstands⟩ := start_stands hbuf hkey hstart
  obtain ⟨s', hrun, hstands'⟩ := hstands.run ops hfit
  unfold build
  rw [hs, ok_bind, hrun, ok_bind, hstands'.finish, after_header]
  rfl

/-- Otherwise the first call without room does. -/
theorem build_stops (hbuf : buf.length = bufSize) (hkey : key.length = keySize)
    (hstart : header.length + 4 ≤ bufSize) {pre : List Op} {op : Op}
    (post : List Op) (hpre : AllFit (fresh header) pre)
    (hno : ¬ op.Fits (after (fresh header) pre)) :
    build buf key header (pre ++ op :: post)
      = .error (if op.isView then .assertion else .fault) := by
  obtain ⟨s, hs, hstands⟩ := start_stands hbuf hkey hstart
  unfold build
  rw [hs, ok_bind, hstands.run_stops pre post hpre hno]
  rfl

theorem build_ne_fault_iff (hbuf : buf.length = bufSize) (hkey : key.length = keySize)
    (ops : List Op) :
    build buf key header ops ≠ .error .fault ↔ HasRoom header ops := by
  by_cases hstart : header.length + 4 ≤ bufSize
  · constructor
    · intro h
      refine ⟨hstart, ?_⟩
      rcases allFit_or ops (fresh header) with hfit | ⟨pre, op, post, rfl, hpre, hno⟩
      · rw [build_allFit hbuf hkey hstart hfit] at h
        refine Or.inl ⟨hfit, Nat.le_of_not_lt fun hfull => ?_⟩
        rw [if_pos hfull] at h
        exact h rfl
      · rw [build_stops hbuf hkey hstart post hpre hno] at h
        by_cases hview : op.isView = true
        · obtain ⟨x, rfl⟩ := isView_eq hview
          exact Or.inr ⟨pre, x, post, rfl, hpre, hno⟩
        · rw [if_neg hview] at h
          exact absurd rfl h
    · rintro ⟨-, ⟨hfit, hroom⟩ | ⟨pre, x, post, rfl, hpre, hno⟩⟩
      · rw [build_allFit hbuf hkey hstart hfit, if_neg (Nat.not_lt.mpr hroom)]
        rcases (after (fresh header) ops).finish with _ | bs
        · exact fun e => by cases e
        · exact fun e => by cases e
      · rw [build_stops hbuf hkey hstart post hpre hno]
        exact fun e => by cases e
  · constructor
    · intro h
      rw [build, start_fault hbuf hkey (Nat.lt_of_not_le hstart)] at h
      exact absurd rfl h
    · rintro ⟨h, -⟩
      exact absurd h hstart

/-- What is written is the descriptor of `MsgDesc`. -/
theorem build_eq (hbuf : buf.length = bufSize) (hkey : key.length = keySize) {ops : List Op}
    {bs : List UInt8} (h : build buf key header ops = .ok bs) :
    (after (fresh header) ops).finish = some bs := by
  have hne : build buf key header ops ≠ .error .fault := by
    rw [h]
    exact fun e => by cases e
  obtain ⟨hstart, ⟨hfit, hroom⟩ | ⟨pre, x, post, rfl, hpre, hno⟩⟩ :=
    (build_ne_fault_iff hbuf hkey ops).mp hne
  · rw [build_allFit hbuf hkey hstart hfit, if_neg (Nat.not_lt.mpr hroom)] at h
    rcases hfin : (after (fresh header) ops).finish with _ | bs'
    · rw [hfin] at h
      cases h
    · rw [hfin] at h
      cases h
      rfl
  · rw [build_stops hbuf hkey hstart post hpre hno] at h
    cases h

end

/-- For which calls the construction never leaves its buffers. -/
theorem neverLeaves_iff (tsc : UInt64) (file : Text) (line : Int32) (id : UInt32)
    (ops : List Op) :
    NeverLeaves tsc file line id ops ↔ HasRoom (MsgDesc.start tsc file line id).header ops := by
  have hb : (List.replicate 1024 (0 : UInt8)).length = bufSize := List.length_replicate
  have hk : (List.replicate 256 (0 : UInt8)).length = keySize := List.length_replicate
  constructor
  · intro h
    exact (build_ne_fault_iff hb hk ops).mp (h _ _ hb hk)
  · intro h buf key hbuf hkey
    exact (build_ne_fault_iff hbuf hkey ops).mpr h

/-- A message of 1024 characters as a C string. -/
theorem neverLeaves_long_message :
    ¬ ∀ (tsc : UInt64) (file : Text) (line : Int32) (id : UInt32) (ops : List Op),
      NeverLeaves tsc file line id ops := by
  intro h
  have hne := h 1 (ascii ['f']) 1 1 [.insert (.cstr (List.replicate 1024 97))]
    (List.replicate 1024 0) (List.replicate 256 0) List.length_replicate List.length_replicate
  obtain ⟨-, ⟨hfit, -⟩ | ⟨pre, x, post, heq, -⟩⟩ :=
    (build_ne_fault_iff List.length_replicate List.length_replicate _).mp hne
  · have hop := (allFit_cons.mp hfit).1
    have hc : cstring (List.replicate 1024 97) = List.replicate 1024 97 :=
      cstring_of_ne fun c hc => by rw [List.eq_of_mem_replicate hc]; decide
    rw [Op.Fits, hc, List.length_replicate] at hop
    exact absurd hop (Nat.not_lt.mpr (Nat.le_add_left _ _))
  · rcases pre with _ | ⟨o, _ | ⟨o', pre⟩⟩
    · cases heq
    · cases heq
    · cases heq

end DescBuffer

end QuickTrace
