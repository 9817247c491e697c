/-
QuickTrace.Python.Trace — trace statements of Python programs.

The first call at a source line fixes the format key from the types of its
`Var` arguments (`_createMsg` in `QuickTrace.py`); every later call converts
whatever objects it is given by the codes of this key (`trace` in
`_QuickTrace.cpp`). The conversions belong to the interpreter: `CPython` has
one field for each, with `none` for a failure that sets the error indicator.

`trace_values` says that a call in which no string conversion fails is the
trace statement with values of the key's types.
-/
import QuickTrace.Format.Extent

namespace QuickTrace

namespace Python

open QuickTrace.Lib RingBuf

/-! ## Keys -/

/-- The types `_typeToFmt` knows in Python 3, and all others. -/
inductive PyType where
  | str
  | bool
  | float
  | int
  | other
  deriving DecidableEq

/-- `_fmtString`: `_typeToFmt.get( type( a ), 'p' )`. -/
def PyType.fmt : PyType → UInt8
  | str => 112
  | bool => 98
  | float => 100
  | int => 113
  | other => 112

/-- An argument of a trace call: wrapped in a `Var`, or anything else, of
which only its `str` goes into the message. -/
inductive TraceArg (Obj : Type) where
  | var (me : Obj)
  | text (str : Text)

variable {Obj : Type}

/-- What is traced dynamically. -/
def vargs (args : List (TraceArg Obj)) : List Obj :=
  args.filterMap fun
    | .var me => some me
    | .text _ => none

/-- `_createMsg`: the message and its key. -/
def createMsg (type : Obj → PyType) (args : List (TraceArg Obj)) : Text × Text :=
  let msgStr := List.intercalate [32] (args.map fun
    | .var _ => ascii ['%', 's']
    | .text str => str)
  let formatStr := List.intercalate [44] ((vargs args).map fun a => [(type a).fmt])
  (msgStr, formatStr)

namespace PyType

/-- The type whose values are streamed for the code. -/
def ty : PyType → Ty
  | str | other => .str
  | bool => .bool
  | float => .double
  | int => .i64

theorem formatString_ty (t : PyType) : formatString t.ty = [t.fmt] := by
  cases t <;> rfl

theorem fmt_ne_comma (t : PyType) : t.fmt ≠ 44 := by
  cases t <;> decide

theorem length_fmt (t : PyType) : ∃ l, lengthsById.lookup [t.fmt] = some l
    ∧ l.fits t.ty = true := by
  cases t <;> exact ⟨_, rfl, rfl⟩

end PyType

/-- The key is the one of the types. -/
theorem key_eq : ∀ ts : List PyType,
    List.intercalate [44] (ts.map fun t => [t.fmt]) = joinKeys (ts.map PyType.ty)
  | [] => rfl
  | [t] => by
      rw [List.map_cons, List.map_nil, List.intercalate_singleton]
      exact t.formatString_ty.symm
  | t :: u :: ts => by
      have ih := key_eq (u :: ts)
      rw [List.map_cons] at ih
      rw [List.map_cons, List.map_cons, List.intercalate_cons_cons, ih, List.map_cons,
        List.map_cons, List.map_cons, joinKeys_cons, t.formatString_ty]
      rfl

/-- The characters of the key at `i = 0, 2, 4, …`. -/
def codes : Text → Text
  | [] => []
  | [c] => [c]
  | c :: _ :: cs => c :: codes cs

/-- The loop visits every code of the key. -/
theorem codes_joinKeys : ∀ ts : List PyType,
    codes (joinKeys (ts.map PyType.ty)) = ts.map PyType.fmt
  | [] => rfl
  | [t] => by
      rw [List.map_cons, List.map_nil, joinKeys, t.formatString_ty]
      rfl
  | t :: u :: ts => by
      rw [List.map_cons, List.map_cons, joinKeys_cons, t.formatString_ty]
      exact congrArg (t.fmt :: ·) (codes_joinKeys (u :: ts))

theorem createMsg_key (type : Obj → PyType) (args : List (TraceArg Obj)) :
    (createMsg type args).2 = joinKeys (((vargs args).map type).map PyType.ty) := by
  rw [← key_eq, List.map_map]
  rfl

/-! ## The interpreter -/

/-- The interpreter during one call of `trace`. A conversion may run code of
the object, so what it returns may depend on when it is called: its first
argument counts the rounds of the loop. -/
structure CPython (Obj : Type) where
  Py_None : Obj
  Py_True : Obj
  PyStr_Check : Obj → Bool
  PyObject_Str : Nat → Obj → Option Obj
  PyUnicode_AsUTF8 : Nat → Obj → Option Text
  /-- with "surrogateescape" -/
  PyUnicode_AsEncodedString : Nat → Obj → Option Obj
  PyBytes_AsString : Nat → Obj → Option Text
  PyLong_AsLong : Nat → Obj → Option Int64
  PyLong_AsLongLong : Nat → Obj → Option Int64
  PyFloat_AsDouble : Nat → Obj → Option UInt64

/-- The bits of `-1.0`. -/
def minusOne : UInt64 := 0xBFF0000000000000

variable (py : CPython Obj) (n : Nat)

/-- The object as a string object. -/
def strOf (i : Nat) (o : Obj) : Option Obj :=
  if py.PyStr_Check o then some o else py.PyObject_Str i o

/-- The characters of a string object, whether the error indicator is
cleared on the way, and the result. -/
def textOf (i : Nat) (o : Obj) : Text × Bool × Nat :=
  let invalid := ascii ['<', 'i', 'n', 'v', 'a', 'l', 'i', 'd', ' ', 'U', 'T', 'F', '-', '8', '>']
  match py.PyUnicode_AsUTF8 i o with
  | some c => (c, false, 2)
  | none =>
    match py.PyUnicode_AsEncodedString i o with
    | none => (invalid, true, 6)
    | some bytes =>
      match py.PyBytes_AsString i bytes with
      | none => (invalid, true, 7)
      | some c => (c, true, 8)

/-- The characters that are streamed for the string code, if `str` does not
fail. -/
def shown (i : Nat) (o : Obj) : Option Text := (strOf py i o).map fun s => (textOf py i s).1

/-- From round `i` on, every object that meets the string code has a `str`,
of which at most 255 characters are kept. -/
def Shows (i : Nat) (cs : Text) (targs : List Obj) : Prop :=
  ∀ k : Nat, cs[k]? = some 112 →
    ∃ c, shown py (i + k) (targs.getD k py.Py_None) = some c ∧ (cut n c).length ≤ 255

section

variable {py n}

/-- The object of a later round is one of the objects that are left. -/
theorem getD_succ (targs : List Obj) (k : Nat) (o : Obj) :
    targs.getD (k + 1) o = targs.tail.getD k o := by
  cases targs <;> simp

theorem Shows.tail {i : Nat} {code : UInt8} {cs : Text} {targs : List Obj}
    (h : Shows py n i (code :: cs) targs) : Shows py n (i + 1) cs targs.tail := by
  intro k hk
  obtain ⟨c, hc⟩ := h (k + 1) hk
  rw [getD_succ, Nat.add_comm k 1, ← Nat.add_assoc] at hc
  exact ⟨c, hc⟩

theorem Shows.head {i : Nat} {cs : Text} {targs : List Obj} (h : Shows py n i (112 :: cs) targs) :
    ∃ c, shown py i (targs.headD py.Py_None) = some c ∧ (cut n c).length ≤ 255 := by
  have h0 := h 0 rfl
  rwa [← List.headD_eq_getD] at h0

theorem Shows.first {t : PyType} {ts : List PyType} {i : Nat} {targs : List Obj}
    (h : Shows py n i ((t :: ts).map PyType.fmt) targs) (ht : t.fmt = 112) :
    ∃ c, shown py i (targs.headD py.Py_None) = some c ∧ (cut n c).length ≤ 255 := by
  rw [List.map_cons, ht] at h
  exact h.head

theorem Shows.cons {i : Nat} {code : UInt8} {cs : Text} {targs : List Obj}
    (h1 : code = 112 →
      ∃ c, shown py i (targs.headD py.Py_None) = some c ∧ (cut n c).length ≤ 255)
    (h2 : Shows py n (i + 1) cs targs.tail) : Shows py n i (code :: cs) targs := by
  intro k hk
  cases k with
  | zero =>
    rw [Nat.add_zero, ← List.headD_eq_getD]
    exact h1 (by simpa using hk)
  | succ k =>
    rw [getD_succ, Nat.add_comm k 1, ← Nat.add_assoc]
    exact h2 k (by simpa using hk)

end

/-! ## One call -/

/-- The variables of the loop; `err` is the error indicator. -/
structure Frame where
  ringBuf : RingBuf
  err : Bool
  result : Nat

variable [DecidableEq Obj]

/-- A conversion to a number. The value of a failed one is streamed as
well; with `None` the error is cleared, "since it's just cosmetic". -/
def number (o : Obj) (x : Option Value) (failed : Value) (result : Nat) (s : Frame) :
    Frame × List Store :=
  let p := s.ringBuf.putArg n (.val (x.getD failed))
  ({ ringBuf := p.1, err := (s.err || x.isNone) && o != py.Py_None, result }, p.2)

/-- One round: the switch over the code. -/
def round (i : Nat) (code : UInt8) (o : Obj) (s : Frame) : Frame × List Store :=
  if code = 105 then number py n o ((py.PyLong_AsLong i o).map .i64) (.i64 (-1)) 1 s
  else if code = 113 then number py n o ((py.PyLong_AsLongLong i o).map .i64) (.i64 (-1)) 4 s
  else if code = 98 then number py n o (some (.bool (o == py.Py_True))) (.bool false) 3 s
  else if code = 100 then
    number py n o ((py.PyFloat_AsDouble i o).map .double) (.double minusOne) 5 s
  else
    match strOf py i o with
    -- nothing is streamed for an object that has no `str`
    | none => ({ s with err := true }, [])
    | some o =>
      let c := textOf py i o
      let p := s.ringBuf.putArg n (.val (.str c.1))
      ({ ringBuf := p.1, err := s.err && !c.2.1, result := c.2.2 }, p.2)

/-- The loop over the codes: objects that are missing are `None`. `none` is
the assertion that the key is not malformed. -/
def loop : Nat → Text → List Obj → Frame → Option (Frame × List Store)
  | _, [], _, s => some (s, [])
  | i, code :: cs, targs, s =>
    if code = 44 then none
    else
      let r := round py n i code (targs.headD py.Py_None) s
      (loop (i + 1) cs targs.tail r.1).map fun q => (q.1, r.2 ++ q.2)

/-- What a call of `trace` leaves behind; the value it returns is `none`
for `NULL`, an exception, and `some none` for `None`. -/
structure Called where
  ringBuf : RingBuf
  counters : MsgCounters
  stores : List Store
  returned : Option (Option Nat)

/-- `trace` of an initialized process, on the ring of the level. -/
def trace (msgFormatDict : UInt32 → Option Text) (ringBuf : RingBuf) (cs : MsgCounters)
    (tsc : UInt64) (mid : UInt32) (targs : List Obj) : Option Called :=
  if mid = 0 then some ⟨ringBuf, cs, [], some none⟩
  else
    match msgFormatDict mid with
    | none => some ⟨ringBuf, cs, [], some none⟩
    | some fmtString =>
      let s := ringBuf.startMsg cs tsc mid
      (loop py n 0 (codes fmtString) targs ⟨s.1, false, 0⟩).map fun r =>
        let e := r.1.ringBuf.endMsg
        ⟨e.1, s.2.1, s.2.2 ++ r.2 ++ e.2, if r.1.err then none else some (some r.1.result)⟩

/-! ## Codes and their bytes -/

/-- From this round on, the length function of every code consumes exactly
what the round has left in the file `m`. -/
def Consumed (m : Mem) : Nat → Text → List Obj → Frame → Prop
  | _, [], _, _ => True
  | i, code :: cs, targs, s =>
    let r := round py n i code (targs.headD py.Py_None) s
    (∃ l, lengthsById.lookup [code] = some l
      ∧ r.1.ringBuf.ptr = s.ringBuf.ptr + l.run m s.ringBuf.ptr)
    ∧ Consumed m (i + 1) cs targs.tail r.1

/-! ## The values of a call -/

/-- The value that is streamed for an object. -/
def value (i : Nat) (t : PyType) (o : Obj) : Value :=
  match t with
  | .str | .other => .str ((shown py i o).getD [])
  | .bool => .bool (o == py.Py_True)
  | .float => .double ((py.PyFloat_AsDouble i o).getD minusOne)
  | .int => .i64 ((py.PyLong_AsLongLong i o).getD (-1))

/-- The values of a call: objects that are missing are `None`. -/
def values : Nat → List PyType → List Obj → List Value
  | _, [], _ => []
  | i, t :: ts, targs => value py i t (targs.headD py.Py_None) :: values (i + 1) ts targs.tail

/-! ## One round -/

/-- A value of the type, whose length in the file is what decoding steps
over. -/
structure Fitting (n : Nat) (t : PyType) (v : Value) : Prop where
  ty : v.ty = t.ty
  extent : ∀ (m : Mem) (p : Nat), m.Holds p (v.encode n) → t.ty.extent m p = (v.encode n).length

variable {py n}

theorem fitting_str {t : PyType} (ht : t.fmt = 112) {c : Text} (hc : (cut n c).length ≤ 255) :
    Fitting n t (.str c) := by
  have hty : t.ty = .str := by cases t <;> first | rfl | cases ht
  refine ⟨hty.symm, fun m p h => ?_⟩
  have hbyte : m p = UInt8.ofNat (cut n c).length := h.1
  rw [hty, Ty.extent, hbyte, toNat_length_byte hc, Value.encode, encodeString, List.length_cons,
    Nat.add_comm]

/-- Of a value that is not a string the type gives the length. -/
theorem fitting_number {t : PyType} (ht : t.fmt ≠ 112) {v : Value} (hty : v.ty = t.ty) :
    Fitting n t v := by
  refine ⟨hty, fun m p h => ?_⟩
  cases t with
  | str => exact absurd rfl ht
  | other => exact absurd rfl ht
  | bool => cases v <;> first | rfl | cases hty
  | float => cases v <;> first | rfl | cases hty
  | int => cases v <;> first | rfl | cases hty

/-- The string code streams what is shown. -/
theorem round_shown {i : Nat} {o : Obj} {s : Frame} {c : Text} (h : shown py i o = some c) :
    (round py n i 112 o s).1.ringBuf = (s.ringBuf.putArg n (.val (.str c))).1
      ∧ (round py n i 112 o s).2 = (s.ringBuf.putArg n (.val (.str c))).2 := by
  obtain ⟨o', ho, rfl⟩ := Option.map_eq_some_iff.mp h
  simp +decide only [round, if_false, ho, and_self]

/-- Where `str` fails, the string code streams nothing. -/
theorem round_not_shown {i : Nat} {o : Obj} {s : Frame} (h : shown py i o = none) :
    (round py n i 112 o s).1.ringBuf = s.ringBuf := by
  have ho := Option.map_eq_none_iff.mp h
  simp +decide only [round, if_false, ho]

theorem value_ty (i : Nat) (t : PyType) (o : Obj) : (value py i t o).ty = t.ty := by
  cases t <;> rfl

/-- The values are of the types of the key. -/
theorem values_ty : ∀ (i : Nat) (ts : List PyType) (targs : List Obj),
    ((values py i ts targs).map Arg.val).map Arg.ty = ts.map PyType.ty
  | _, [], _ => rfl
  | i, t :: ts, targs => by
      rw [values, List.map_cons, List.map_cons, values_ty (i + 1) ts targs.tail, List.map_cons]
      exact congrArg (· :: ts.map PyType.ty) (value_ty i t _)

/-- A round streams the value, whether the message is on or off, but for a
string code without `str`. -/
theorem round_value {t : PyType} {i : Nat} {o : Obj} {s : Frame}
    (h : t.fmt = 112 → ∃ c, shown py i o = some c) :
    (round py n i t.fmt o s).1.ringBuf = (s.ringBuf.putArg n (.val (value py i t o))).1
      ∧ (round py n i t.fmt o s).2 = (s.ringBuf.putArg n (.val (value py i t o))).2 := by
  cases t with
  | str =>
    obtain ⟨c, hc⟩ := h rfl
    rw [value, hc]
    exact round_shown hc
  | other =>
    obtain ⟨c, hc⟩ := h rfl
    rw [value, hc]
    exact round_shown hc
  | bool => exact ⟨rfl, rfl⟩
  | float =>
    rw [value, ← Option.getD_map Value.double]
    exact ⟨rfl, rfl⟩
  | int =>
    rw [value, ← Option.getD_map Value.i64]
    exact ⟨rfl, rfl⟩

/-- The value fits its type. -/
theorem fitting_value {t : PyType} {i : Nat} {o : Obj}
    (h : t.fmt = 112 → ∃ c, shown py i o = some c ∧ (cut n c).length ≤ 255) :
    Fitting n t (value py i t o) := by
  by_cases ht : t.fmt = 112
  · obtain ⟨c, hc, hlen⟩ := h ht
    have hvalue : value py i t o = .str c := by
      cases t <;> first | (rw [value, hc]; rfl) | cases ht
    rw [hvalue]
    exact fitting_str ht hlen
  · exact fitting_number ht (value_ty i t o)

theorem putArg_enabled {rb : RingBuf} (h : rb.enabled = true) (a : Arg) :
    (rb.putArg n a).1.enabled = true := by
  rw [(Writes.putArg n a h).ring]
  exact h

/-- A round leaves the message enabled. -/
theorem round_enabled {t : PyType} {i : Nat} {o : Obj} {s : Frame}
    (h : s.ringBuf.enabled = true) : (round py n i t.fmt o s).1.ringBuf.enabled = true := by
  by_cases ht : t.fmt = 112
  · rw [ht]
    cases hs : shown py i o with
    | none => rwa [round_not_shown hs]
    | some c =>
      rw [(round_shown hs).1]
      exact putArg_enabled h _
  · rw [(round_value fun ht' => absurd ht' ht).1]
    exact putArg_enabled h _

/-! ## A call whose strings are shown -/

/-- The loop streams the values. -/
theorem loop_values : ∀ {ts : List PyType} {i : Nat} {targs : List Obj} {s : Frame},
    Shows py n i (ts.map PyType.fmt) targs →
    ∃ r, loop py n i (ts.map PyType.fmt) targs s = some r
      ∧ r.1.ringBuf = (s.ringBuf.putArgs n ((values py i ts targs).map .val)).1
      ∧ r.2 = (s.ringBuf.putArgs n ((values py i ts targs).map .val)).2
  | [], _, _, _, _ => ⟨_, rfl, rfl, rfl⟩
  | t :: ts, i, targs, s, h => by
      obtain ⟨hring, hstores⟩ := @round_value _ py n _ t i _ s fun ht =>
        (h.first ht).imp fun _ => And.left
      obtain ⟨r, hr, hring', hstores'⟩ := @loop_values ts (i + 1) targs.tail
        (round py n i t.fmt (targs.headD py.Py_None) s).1 h.tail
      rw [hring] at hring' hstores'
      refine ⟨(r.1, (round py n i t.fmt (targs.headD py.Py_None) s).2 ++ r.2), ?_, hring', ?_⟩
      · rw [List.map_cons, loop, if_neg t.fmt_ne_comma]
        simp only [hr, Option.map_some]
      · rw [hstores, hstores']
        rfl

theorem fitting_values : ∀ {ts : List PyType} {i : Nat} {targs : List Obj},
    Shows py n i (ts.map PyType.fmt) targs → List.Forall₂ (Fitting n) ts (values py i ts targs)
  | [], _, _, _ => .nil
  | _ :: _, _, _, h => .cons (fitting_value h.first) (fitting_values h.tail)

/-- Each code steps over its own value. -/
theorem consumed_values {m : Mem} : ∀ {ts : List PyType} {i : Nat} {targs : List Obj}
    {s : Frame}, s.ringBuf.enabled = true → Shows py n i (ts.map PyType.fmt) targs →
    m.Holds s.ringBuf.ptr (encodeArgs n ((values py i ts targs).map .val)) →
    Consumed py n m i (ts.map PyType.fmt) targs s
  | [], _, _, _, _, _, _ => trivial
  | t :: ts, i, targs, s, he, h, hm => by
      have hring := (@round_value _ py n _ t i _ s fun ht =>
        (h.first ht).imp fun _ => And.left).1
      have hptr := (Writes.putArg n (.val (value py i t (targs.headD py.Py_None))) he).ptr
      rw [values, List.map_cons, encodeArgs_cons, Mem.holds_append] at hm
      obtain ⟨l, hl, hfit⟩ := t.length_fmt
      rw [List.map_cons, Consumed]
      refine ⟨⟨l, hl, ?_⟩, consumed_values (round_enabled he) h.tail ?_⟩
      · rw [hring, hptr, Length.run_extent hfit, (fitting_value h.first).extent m _ hm.1]
        rfl
      · rw [hring, hptr]
        exact hm.2

/-- Decoding the types steps over all the values. -/
theorem extents_fitting {m : Mem} : ∀ {ts : List PyType} {vals : List Value} {p : Nat},
    List.Forall₂ (Fitting n) ts vals → m.Holds p (encodeArgs n (vals.map .val)) →
    extents m p (ts.map PyType.ty) = (encodeArgs n (vals.map .val)).length
  | [], _, _, h, _ => by
      cases h
      rfl
  | t :: ts, _, p, h, hm => by
      cases h with
      | @cons _ v _ vals hv hvals =>
        rw [List.map_cons, encodeArgs_cons, Mem.holds_append] at hm
        have hlen : t.ty.extent m p = ((Arg.val v).encode n).length := hv.extent m p hm.1
        rw [List.map_cons, List.map_cons, encodeArgs_cons, extents, List.length_append, hlen,
          extents_fitting hvals hm.2]

/-- The call is the trace statement with these values. -/
theorem trace_values {ts : List PyType} {targs : List Obj}
    (h : Shows py n 0 (ts.map PyType.fmt) targs) {msgFormatDict : UInt32 → Option Text}
    (ringBuf : RingBuf) (cs : MsgCounters) (tsc : UInt64) {mid : UInt32} (hmid : mid ≠ 0)
    (hfmt : msgFormatDict mid = some (joinKeys (ts.map PyType.ty))) :
    ∃ r : Called, trace py n msgFormatDict ringBuf cs tsc mid targs = some r
      ∧ (r.ringBuf, r.counters, r.stores)
        = ringBuf.trace n cs ⟨tsc, mid, (values py 0 ts targs).map .val⟩ := by
  obtain ⟨r, hr, hring, hstores⟩ := @loop_values _ py n _ ts 0 targs
    ⟨(ringBuf.startMsg cs tsc mid).1, false, 0⟩ h
  refine ⟨⟨r.1.ringBuf.endMsg.1, (ringBuf.startMsg cs tsc mid).2.1,
    (ringBuf.startMsg cs tsc mid).2.2 ++ r.2 ++ r.1.ringBuf.endMsg.2,
    if r.1.err then none else some (some r.1.result)⟩, ?_, ?_⟩
  · rw [trace, if_neg hmid, hfmt]
    simp only [codes_joinKeys, hr, Option.map_some]
  · simp only [hring, hstores, RingBuf.trace]

/-- Of a message that is on, each code steps over its own value. -/
theorem trace_stream {ts : List PyType} {targs : List Obj}
    (h : Shows py n 0 (ts.map PyType.fmt) targs) {msgFormatDict : UInt32 → Option Text}
    (ringBuf : RingBuf) {cs : MsgCounters} (tsc : UInt64) {mid : UInt32} (hmid : mid ≠ 0)
    (hfmt : msgFormatDict mid = some (joinKeys (ts.map PyType.ty))) (hon : cs.off mid = false) :
    ∃ r : Called, trace py n msgFormatDict ringBuf cs tsc mid targs = some r
      ∧ r.ringBuf = (ringBuf.trace n cs ⟨tsc, mid, (values py 0 ts targs).map .val⟩).1
      ∧ r.stores = (ringBuf.trace n cs ⟨tsc, mid, (values py 0 ts targs).map .val⟩).2.2
      ∧ ∀ m : Mem,
          m.Holds (ringBuf.startPos + 12) (encodeArgs n ((values py 0 ts targs).map .val)) →
          Consumed py n m 0 (ts.map PyType.fmt) targs
            ⟨(ringBuf.startMsg cs tsc mid).1, false, 0⟩ := by
  obtain ⟨r, hr, heq⟩ := trace_values h ringBuf cs tsc hmid hfmt
  have hstart := @startMsg_on ringBuf cs tsc mid hon
  refine ⟨r, hr, congrArg Prod.fst heq, congrArg (fun t => t.2.2) heq,
    fun m hm => consumed_values ?_ h ?_⟩
  · simp only [hstart]
    rfl
  · simp only [hstart]
    exact hm

/-- A key with one string code: the call is the trace statement with this
string. -/
theorem trace_text {o : Obj} {c : Text} (h : shown py 0 o = some c)
    {msgFormatDict : UInt32 → Option Text} (ringBuf : RingBuf) {cs : MsgCounters} (tsc : UInt64)
    {mid : UInt32} (hmid : mid ≠ 0) (hfmt : msgFormatDict mid = some (ascii ['p'])) :
    ∃ r : Called, trace py n msgFormatDict ringBuf cs tsc mid [o] = some r
      ∧ r.ringBuf = (ringBuf.trace n cs ⟨tsc, mid, [.val (.str c)]⟩).1
      ∧ r.counters = cs.hit mid tsc
      ∧ r.stores = (ringBuf.trace n cs ⟨tsc, mid, [.val (.str c)]⟩).2.2 := by
  have hround := @round_shown _ py n _ 0 o ⟨(ringBuf.startMsg cs tsc mid).1, false, 0⟩ c h
  have hhit := trace_counters n ringBuf cs ⟨tsc, mid, [.val (.str c)]⟩
  rw [trace, if_neg hmid, hfmt]
  refine ⟨_, rfl, ?_, hhit, ?_⟩
  · exact congrArg (fun rb => rb.endMsg.1) hround.1
  · have hring := congrArg (fun rb => rb.endMsg.2) hround.1
    exact congrArg₂ (fun x y => (ringBuf.startMsg cs tsc mid).2.2 ++ (x ++ []) ++ y) hround.2 hring

/-! ## Some objects -/

/-- Some objects: `None`, `True`, the strings, and one whose `__str__`
raises an exception. -/
inductive Sample where
  | none
  | true
  | text (t : Text)
  | raising
  deriving DecidableEq

/-- The interpreter, on these. -/
def Sample.python : CPython Sample where
  Py_None := .none
  Py_True := .true
  PyStr_Check
    | .text _ => Bool.true
    | _ => false
  PyObject_Str
    | _, .none => some (.text (ascii ['N', 'o', 'n', 'e']))
    | _, .true => some (.text (ascii ['T', 'r', 'u', 'e']))
    | _, .text t => some (.text t)
    | _, .raising => Option.none
  PyUnicode_AsUTF8
    | _, .text t => some t
    | _, _ => Option.none
  PyUnicode_AsEncodedString
    | _, .text t => some (.text t)
    | _, _ => Option.none
  PyBytes_AsString
    | _, .text t => some t
    | _, _ => Option.none
  PyLong_AsLong
    | _, .true => some 1
    | _, _ => Option.none
  PyLong_AsLongLong
    | _, .true => some 1
    | _, _ => Option.none
  PyFloat_AsDouble
    | _, .true => some 0x3FF0000000000000
    | _, _ => Option.none

/-- Their types. -/
def Sample.type : Sample → PyType
  | .none => .other
  | .true => .bool
  | .text _ => .str
  | .raising => .other

end Python

end QuickTrace
