/-
QuickTrace.Dict.MsgDesc — writing a message descriptor.

`MsgDesc` is the object of `QuickTrace.cpp` that a trace statement builds
when it first meets a file: `start` is the constructor, the `insert`
functions are the overloads of `operator<<`, `finish` returns the bytes it
writes to the end of the file. All of it happens in a buffer of 1024 bytes;
`none` is a failed assertion, or a write behind the buffer, which the source
leaves undefined. `Descriptor` is a descriptor that fits.
-/
import QuickTrace.Format.Value
import QuickTrace.Lib.Ascii
import QuickTrace.Lib.Mem

namespace QuickTrace

open QuickTrace.Lib

/-- A C string ends at its first NUL. -/
def cstring (x : Text) : Text := x.takeWhile (· != 0)

theorem cstring_of_ne {x : Text} (h : ∀ c ∈ x, c ≠ 0) : cstring x = x :=
  takeWhile_ne_zero h

/-- The bytes of a `PStringL` with its NUL. -/
def pstringL (x : Text) : List UInt8 := leBytes 4 (x.length + 1) ++ x ++ [0]

/-! ## The object -/

/-- A descriptor under construction: the line `sprintf` wrote, the text
behind the room for its length, and the format key. -/
structure MsgDesc where
  header : Text
  text : Text
  formatString : Text
  deriving DecidableEq

namespace MsgDesc

/-- `bufSize`. -/
def bufSize : Nat := 1024

/-- The constructor: `"%" PRId64 " %s %d %d "`. -/
def start (tsc : UInt64) (file : Text) (line : Int32) (id : UInt32) : MsgDesc where
  header := decimal tsc.toInt64.toInt ++ 32 :: (cstring file ++ 32 :: (decimal line.toInt ++
    32 :: (decimal id.toInt32.toInt ++ [32])))
  text := []
  formatString := []

/-- `end_ - ptr_`. -/
def room (d : MsgDesc) : Nat := bufSize - (d.header.length + 4 + d.text.length)

/-- `operator<<( string_view )`. -/
def insertView (d : MsgDesc) (x : Text) : Option MsgDesc :=
  if x.length < d.room then some { d with text := d.text ++ x } else none

/-- `operator<<( char const * )`: `memccpy` copies the NUL, too. -/
def insertCStr (d : MsgDesc) (x : Text) : Option MsgDesc :=
  if (cstring x).length + 1 ≤ d.room then some { d with text := d.text ++ cstring x } else none

/-- `operator<<( Varg )`. -/
def insertVarg (d : MsgDesc) : Option MsgDesc :=
  if 2 ≤ d.room then some { d with text := d.text ++ ascii ['%', 's'] } else none

/-- `operator<<( HexVarg )`. -/
def insertHexVarg (d : MsgDesc) (alternate : Bool) : Option MsgDesc :=
  let x := if alternate then ascii ['%', '#', 'x'] else ascii ['%', 'x']
  if x.length ≤ d.room then some { d with text := d.text ++ x } else none

/-- `finish`: the text with its NUL and length, then the key with its NUL and
length. -/
def finish (d : MsgDesc) : Option (List UInt8) :=
  if d.header.length + 4 + d.text.length + 1 + 4 + (cstring d.formatString).length + 1 ≤ bufSize
  then some (d.header ++ (pstringL d.text ++ pstringL (cstring d.formatString)))
  else none

/-- What a statement may stream into a descriptor. -/
inductive Insertion where
  | view (x : Text)
  | cstr (x : Text)
  | varg
  | hexVarg (alternate : Bool)
  deriving DecidableEq

/-- `operator<<`, overloaded. -/
def insert (d : MsgDesc) : Insertion → Option MsgDesc
  | .view x => d.insertView x
  | .cstr x => d.insertCStr x
  | .varg => d.insertVarg
  | .hexVarg alternate => d.insertHexVarg alternate

/-- `_qtmd << x₁ << x₂ << …`. -/
def insertAll (d : MsgDesc) : List Insertion → Option MsgDesc
  | [] => some d
  | x :: xs => (d.insert x).bind fun d' => insertAll d' xs

/-- The text of an insertion. -/
def Insertion.text : Insertion → Text
  | .view x => x
  | .cstr x => cstring x
  | .varg => ascii ['%', 's']
  | .hexVarg alternate => if alternate then ascii ['%', '#', 'x'] else ascii ['%', 'x']

/-- An insertion that fits adds its text. -/
theorem insert_eq {d d' : MsgDesc} {x : Insertion} (h : d.insert x = some d') :
    d' = { d with text := d.text ++ x.text } := by
  cases x with
  | view x =>
    rw [insert, insertView, Option.ite_none_right_eq_some] at h
    exact (Option.some.inj h.2).symm
  | cstr x =>
    rw [insert, insertCStr, Option.ite_none_right_eq_some] at h
    exact (Option.some.inj h.2).symm
  | varg =>
    rw [insert, insertVarg, Option.ite_none_right_eq_some] at h
    exact (Option.some.inj h.2).symm
  | hexVarg alternate =>
    rw [insert, insertHexVarg, Option.ite_none_right_eq_some] at h
    exact (Option.some.inj h.2).symm

theorem insertAll_eq : ∀ {xs : List Insertion} {d d' : MsgDesc}, d.insertAll xs = some d' →
    d' = { d with text := d.text ++ xs.flatMap Insertion.text }
  | [], d, d', h => by
      cases h
      rw [List.flatMap_nil, List.append_nil]
  | x :: xs, d, d', h => by
      obtain ⟨d₁, h1, h2⟩ := Option.bind_eq_some_iff.mp h
      rw [insertAll_eq h2, insert_eq h1, List.flatMap_cons, List.append_assoc]

/-- Constructor, insertions, key and `finish` of one statement. -/
def write (tsc : UInt64) (file : Text) (line : Int32) (id : UInt32) (key : Text)
    (xs : List Insertion) : Option (List UInt8) :=
  ((start tsc file line id).insertAll xs).bind fun d => { d with formatString := key }.finish

theorem write_eq {tsc : UInt64} {file : Text} {line : Int32} {id : UInt32} {key : Text}
    {xs : List Insertion} {bs : List UInt8} (h : write tsc file line id key xs = some bs) :
    bs = (start tsc file line id).header
        ++ (pstringL (xs.flatMap Insertion.text) ++ pstringL (cstring key))
      ∧ (xs.flatMap Insertion.text).length < bufSize ∧ (cstring key).length < bufSize := by
  obtain ⟨d, h1, h2⟩ := Option.bind_eq_some_iff.mp h
  have hd := insertAll_eq h1
  subst hd
  rw [finish, Option.ite_none_right_eq_some] at h2
  obtain ⟨hle, hbs⟩ := h2
  simp only [start, List.nil_append] at hle hbs ⊢
  exact ⟨(Option.some.inj hbs).symm, by omega, by omega⟩

/-! ## What fits the buffer -/

theorem start_header_length (tsc : UInt64) (file : Text) (line : Int32) (id : UInt32) :
    (start tsc file line id).header.length ≤ file.length + 46 := by
  have htsc : (decimal tsc.toInt64.toInt).length ≤ 20 :=
    decimal_length_le (k := 19) (by decide) (by
      have := tsc.toInt64.toInt_lt
      have := tsc.toInt64.le_toInt
      omega)
  have h32 : ∀ i : Int32, (decimal i.toInt).length ≤ 11 := fun i =>
    decimal_length_le (k := 10) (by decide) (by
      have := i.toInt_lt
      have := i.le_toInt
      omega)
  have hline := h32 line
  have hid := h32 id.toInt32
  have hfile : (cstring file).length ≤ file.length := (List.takeWhile_sublist _).length_le
  simp only [start, List.length_append, List.length_cons, List.length_nil]
  omega

/-- An insertion with room behind it is made. -/
theorem insert_of_room {d : MsgDesc} {x : Insertion}
    (h : d.header.length + 4 + d.text.length + x.text.length < bufSize) :
    ∃ d', d.insert x = some d' := by
  cases x with
  | view x =>
    simp only [Insertion.text] at h
    exact ⟨_, if_pos (by unfold room; omega)⟩
  | cstr x =>
    simp only [Insertion.text] at h
    exact ⟨_, if_pos (by unfold room; omega)⟩
  | varg =>
    simp only [Insertion.text, ascii, List.length_map, List.length_cons, List.length_nil] at h
    exact ⟨_, if_pos (by unfold room; omega)⟩
  | hexVarg alternate =>
    simp only [Insertion.text] at h
    exact ⟨_, if_pos (by unfold room; omega)⟩

theorem insertAll_of_room : ∀ {xs : List Insertion} {d : MsgDesc},
    d.header.length + 4 + d.text.length + (xs.flatMap Insertion.text).length < bufSize →
    ∃ d', d.insertAll xs = some d'
  | [], d, _ => ⟨d, rfl⟩
  | x :: xs, d, h => by
      rw [List.flatMap_cons, List.length_append] at h
      obtain ⟨d₁, h₁⟩ := insert_of_room (d := d) (x := x) (by omega)
      have hd₁ := insert_eq h₁
      obtain ⟨d₂, h₂⟩ : ∃ d₂, d₁.insertAll xs = some d₂ := insertAll_of_room (by
        subst hd₁
        simp only [List.length_append]
        omega)
      exact ⟨d₂, by rw [insertAll, h₁, Option.bind_some, h₂]⟩

/-- Numbers of any size leave this much room for name, text and key. -/
theorem write_of_length {file : Text} {key : Text} {xs : List Insertion}
    (h : file.length + (xs.flatMap Insertion.text).length + key.length ≤ 968) (tsc : UInt64)
    (line : Int32) (id : UInt32) : (write tsc file line id key xs).isSome = true := by
  have hheader := start_header_length tsc file line id
  have hkey : (cstring key).length ≤ key.length := (List.takeWhile_sublist _).length_le
  have hb : bufSize = 1024 := rfl
  have htext : (start tsc file line id).text = [] := rfl
  obtain ⟨d, hd⟩ : ∃ d, (start tsc file line id).insertAll xs = some d := insertAll_of_room (by
    simp only [htext, List.length_nil]
    omega)
  rw [write, hd, Option.bind_some, finish, if_pos]
  · rfl
  · rw [insertAll_eq hd]
    simp only [htext, List.nil_append]
    omega

end MsgDesc

/-! ## Descriptors that fit -/

/-- A descriptor as a trace statement writes it: the name of its source file
is a C string that is not empty and has no white space, the key is a C
string, and everything fits the buffer. -/
structure Descriptor where
  tsc : UInt64
  filename : Text
  lineno : Int32
  msgId : UInt32
  insertions : List MsgDesc.Insertion
  key : Text
  bytes : List UInt8
  filename_ne : filename ≠ []
  filename_graph : ∀ c ∈ filename, isspace c = false ∧ c ≠ 0
  key_ne : ∀ c ∈ key, c ≠ 0
  written : MsgDesc.write tsc filename lineno msgId key insertions = some bytes

namespace Descriptor

/-- The text of the message. -/
def text (d : Descriptor) : Text := d.insertions.flatMap MsgDesc.Insertion.text

/-- The bytes of a descriptor, field by field. -/
theorem bytes_eq (d : Descriptor) :
    d.bytes = decimal d.tsc.toInt64.toInt ++ 32 :: (d.filename ++ 32 ::
      (decimal d.lineno.toInt ++ 32 :: (decimal d.msgId.toInt32.toInt ++ 32 ::
        (pstringL d.text ++ pstringL d.key)))) := by
  have h := (MsgDesc.write_eq d.written).1
  rw [cstring_of_ne d.key_ne] at h
  rw [h]
  simp only [MsgDesc.start, cstring_of_ne fun c hc => (d.filename_graph c hc).2, List.append_assoc,
    List.cons_append, List.nil_append, text]

theorem text_length (d : Descriptor) : d.text.length < MsgDesc.bufSize :=
  (MsgDesc.write_eq d.written).2.1

theorem key_length (d : Descriptor) : d.key.length < MsgDesc.bufSize := by
  have h := (MsgDesc.write_eq d.written).2.2
  rwa [cstring_of_ne d.key_ne] at h

end Descriptor

end QuickTrace
