/-
QuickTrace.Format.Tokenizer — `init` as it works on memory.

`MessageFormatter::init` cuts the text in place: it keeps a pointer into the
buffer of `tokenizedMsg_`, writes NULs over percent signs and records
pointers to the pieces. A pointer is an offset here, and every read and write
looks at the bound: behind the terminating NUL it is a `FormatError.overread`.

A round of the loop moves the pointer forward (`round_next`), so the loop
ends. `Tokenizer.init` is `MessageFormatter.init` with the pointers left in;
that it is the same is in `TokenizerTheorems`.
-/
import QuickTrace.Format.Codes

namespace QuickTrace.Tokenizer

open QuickTrace.Lib

/-! ## The buffer -/

/-- `tokenizedMsg_`, its terminating NUL included. -/
abbrev Buf := Text

/-- `*p`. -/
def read (buf : Buf) (p : Nat) : Except FormatError UInt8 :=
  match buf[p]? with
  | some c => .ok c
  | none => .error .overread

/-- `*p = '\0'`. -/
def writeNul (buf : Buf) (p : Nat) : Except FormatError Buf :=
  if p < buf.length then .ok (buf.set p 0) else .error .overread

/-- `strchr( p, c )`, for a character that is not NUL. -/
def strchr (buf : Buf) (c : UInt8) (p : Nat) : Except FormatError (Option Nat) :=
  match hp : buf[p]? with
  | none => .error .overread
  | some b => if b = c then .ok (some p) else if b = 0 then .ok none else strchr buf c (p + 1)
termination_by buf.length - p
decreasing_by
  have := (List.getElem?_eq_some_iff.mp hp).1
  omega

/-- `p + strlen( p )`. -/
def strend (buf : Buf) (p : Nat) : Except FormatError Nat :=
  match hp : buf[p]? with
  | none => .error .overread
  | some b => if b = 0 then .ok p else strend buf (p + 1)
termination_by buf.length - p
decreasing_by
  have := (List.getElem?_eq_some_iff.mp hp).1
  omega

/-- The C string at `p`. -/
def cString (buf : Buf) (p : Nat) : Text := (buf.drop p).takeWhile (· != 0)

/-! ## getFormatParamSpec -/

/-- `strchr( set, c ) != nullptr`: the terminating NUL of the set counts. -/
def inSet (set : UInt8 → Bool) (c : UInt8) : Bool := c == 0 || set c

/-- The flags loop. -/
def flags (buf : Buf) (p : Nat) (spec : CFormatSpec) : Except FormatError (Nat × CFormatSpec) :=
  match hp : buf[p]? with
  | none => .error .overread
  | some c => if inSet isFlagChar c then flags buf (p + 1) (spec.flag c) else .ok (p, spec)
termination_by buf.length - p
decreasing_by
  have := (List.getElem?_eq_some_iff.mp hp).1
  omega

/-- `while ( cond( *p ) ) p++`. -/
def skip (cond : UInt8 → Bool) (buf : Buf) (p : Nat) : Except FormatError Nat :=
  match hp : buf[p]? with
  | none => .error .overread
  | some c => if cond c then skip cond buf (p + 1) else .ok p
termination_by buf.length - p
decreasing_by
  have := (List.getElem?_eq_some_iff.mp hp).1
  omega

/-- The characters between two pointers, as `std::string( param + pos, len - pos )`. -/
def between (buf : Buf) (p q : Nat) : Text := (buf.drop p).take (q - p)

/-- The width. -/
def width (buf : Buf) (p : Nat) (spec : CFormatSpec) : Except FormatError (Nat × CFormatSpec) := do
  if isdigit (← read buf p) then
    let q ← skip isdigit buf p
    let n ← stoi (between buf p q)
    return (q, { spec with hasWidth := true, width := Int8.ofNat n })
  else return (p, spec)

/-- The precision. -/
def precision (buf : Buf) (p : Nat) (spec : CFormatSpec) :
    Except FormatError (Nat × CFormatSpec) := do
  if (← read buf p) = 46 then
    let q ← skip isdigit buf (p + 1)
    if p + 1 < q then
      let n ← stoi (between buf (p + 1) q)
      return (q, { spec with hasPrecision := true, precision := Int8.ofNat n })
    else return (q, { spec with hasPrecision := true })
  else return (p, spec)

/-- `getFormatParamSpec`: the length of the conversion, from its percent sign
on; `none` is the length zero of an invalid one. -/
def getFormatParamSpec (buf : Buf) (param : Nat) :
    Except FormatError (Option (Nat × CFormatSpec)) := do
  if (← read buf (param + 1)) = 37 then return some (2, CFormatSpec.zero)
  else
    let (p, spec) ← flags buf (param + 1) CFormatSpec.zero
    let (p, spec) ← width buf p spec
    let (p, spec) ← precision buf p spec
    let p ← skip (inSet isLengthModifier) buf p
    if isalpha (← read buf p) then return some (p + 1 - param, spec) else return none

theorem strchr_le {buf : Buf} {c : UInt8} {p q : Nat} (h : strchr buf c p = .ok (some q)) :
    p ≤ q ∧ q < buf.length := by
  fun_induction strchr buf c p with
  | case1 p hp => cases h
  | case2 p hp =>
    cases h
    exact ⟨Nat.le_refl _, (List.getElem?_eq_some_iff.mp hp).1⟩
  | case3 p hp hne => cases h
  | case4 p b hp hne h0 ih =>
    have := ih h
    omega

/-- The conversion found by the two loops in front of `strchr( msgPtr, '%' )`:
its percent sign, its length and what it asks for. -/
def findParam (buf : Buf) (p : Nat) : Except FormatError (Option (Nat × Nat × CFormatSpec)) :=
  match _hp : strchr buf 37 p with
  | .error e => .error e
  | .ok none => .ok none
  | .ok (some param) =>
    match getFormatParamSpec buf param with
    | .error e => .error e
    | .ok none => findParam buf (param + 1)
    | .ok (some (fpLen, spec)) => .ok (some (param, fpLen, spec))
termination_by buf.length - p
decreasing_by
  have := strchr_le _hp
  omega

/-! ## The loop over the text -/

/-- An element of `formatters_`: static text is a pointer into the buffer, or
into something else that stays. -/
inductive Recorded where
  | piece (p : Nat)
  | entry (e : Entry)
  deriving DecidableEq

/-- The variables `init` updates. -/
structure State where
  buf : Buf
  fmtPtr : Text
  formatters : List Recorded
  lengths : List Length
  reg : Registry

namespace State

/-- `formatters_.push_back`. -/
def push (s : State) (r : Recorded) : State := { s with formatters := s.formatters ++ [r] }

/-- Push only if the condition holds. -/
def pushIf (s : State) (c : Bool) (r : Recorded) : State := if c then s.push r else s

/-- The text in front of a conversion. -/
def cut (s : State) (msgPtr param : Nat) : Except FormatError State :=
  if msgPtr < param then
    (writeNul s.buf param).map fun buf => { s with buf }.push (.piece msgPtr)
  else .ok s

/-- The variables that are not about the text. -/
def builder (s : State) : Builder :=
  { fmtPtr := s.fmtPtr, formatters := [], lengths := s.lengths, reg := s.reg }

/-- `addFormatter`. -/
def addFormatter (conversionSpecifier : UInt8) (s : State) : Except FormatError State :=
  match selectFormatter s.reg s.builder.fmt (Builder.isHexConversion conversionSpecifier) with
  | (none, _) => .error (.unsupportedFormat s.builder.fmt)
  | (some f, reg) =>
    (selectLength s.builder.fmt).map fun l =>
      { buf := s.buf, fmtPtr := s.builder.afterFmt,
        formatters := s.formatters ++ [.entry (.param f)], lengths := s.lengths ++ [l], reg }

end State

/-- How a round of the loop ends: with `break`, or with the next round. -/
inductive Round where
  | leave (msgPtr : Nat) (s : State)
  | next (msgPtr : Nat) (s : State)

/-- One round; the loop also ends at a NUL. -/
def round (msgPtr : Nat) (s : State) : Except FormatError Round := do
  if (← read s.buf msgPtr) = 0 then return .leave msgPtr s
  else
    match ← findParam s.buf msgPtr with
    | none =>
      -- no more parameters, consume remaining message
      return .next (← strend s.buf msgPtr) (s.push (.piece msgPtr))
    | some (param, fpLen, spec) =>
      let conversionSpecifier ← read s.buf (param + fpLen - 1)
      if conversionSpecifier = 37 then
        let buf ← writeNul s.buf (param + fpLen - 1)
        return .next (param + fpLen) ({ s with buf }.push (.piece msgPtr))
      else if s.fmtPtr.isEmpty then
        -- there are no more parameters, abort
        return .leave msgPtr s
      else
        let custom := spec != CFormatSpec.zero
        let s ← s.cut msgPtr param
        let s := s.pushIf (conversionSpecifier == 112) (.entry (.formatStatic (ascii ['0', 'x'])))
        let s := s.pushIf custom (.entry (.applyCFormatSpec spec))
        let s ← s.addFormatter conversionSpecifier
        return .next (param + fpLen) (s.pushIf custom (.entry .resetCFormatSpec))

/-! ## A round goes forward -/

theorem read_eq_ok {buf : Buf} {p : Nat} {c : UInt8} : read buf p = .ok c ↔ buf[p]? = some c := by
  unfold read
  split
  · rename_i h
    rw [h]
    exact ⟨fun h' => by cases h'; rfl, fun h' => by cases h'; rfl⟩
  · rename_i h
    rw [h]
    exact ⟨nofun, nofun⟩

theorem length_writeNul {buf buf' : Buf} {p : Nat} (h : writeNul buf p = .ok buf') :
    buf'.length = buf.length := by
  unfold writeNul at h
  split at h
  · cases h
    exact List.length_set ..
  · cases h

theorem strend_lt {buf : Buf} {p q : Nat} {c : UInt8} (hp : buf[p]? = some c) (hc : c ≠ 0)
    (h : strend buf p = .ok q) : p < q := by
  have hle : ∀ {p q : Nat}, strend buf p = .ok q → p ≤ q := by
    intro p q h
    fun_induction strend buf p with
    | case1 p _ => cases h
    | case2 p _ => cases h; exact Nat.le_refl _
    | case3 p b _ hb ih => exact Nat.le_of_succ_le (ih h)
  rw [strend] at h
  split at h
  · cases h
  · rename_i b hb
    rw [hp] at hb
    cases hb
    rw [if_neg hc] at h
    exact hle h

theorem skip_le {cond : UInt8 → Bool} {buf : Buf} {p q : Nat} (h : skip cond buf p = .ok q) :
    p ≤ q := by
  fun_induction skip cond buf p with
  | case1 p _ => cases h
  | case2 p c _ hc ih => exact Nat.le_of_succ_le (ih h)
  | case3 p c _ hc => cases h; exact Nat.le_refl _

theorem flags_le {buf : Buf} {p : Nat} {spec : CFormatSpec} {r : Nat × CFormatSpec}
    (h : flags buf p spec = .ok r) : p ≤ r.1 := by
  fun_induction flags buf p spec with
  | case1 p spec _ => cases h
  | case2 p spec c _ hc ih => exact Nat.le_of_succ_le (ih h)
  | case3 p spec c _ hc => cases h; exact Nat.le_refl _

theorem width_le {buf : Buf} {p : Nat} {spec : CFormatSpec} {r : Nat × CFormatSpec}
    (h : width buf p spec = .ok r) : p ≤ r.1 := by
  unfold width at h
  obtain ⟨c, -, h⟩ := bind_eq_ok.mp h
  split at h
  · obtain ⟨q, hq, h⟩ := bind_eq_ok.mp h
    obtain ⟨n, -, h⟩ := bind_eq_ok.mp h
    cases h
    exact skip_le hq
  · cases h
    exact Nat.le_refl _

theorem precision_le {buf : Buf} {p : Nat} {spec : CFormatSpec} {r : Nat × CFormatSpec}
    (h : precision buf p spec = .ok r) : p ≤ r.1 := by
  unfold precision at h
  obtain ⟨c, -, h⟩ := bind_eq_ok.mp h
  split at h
  · obtain ⟨q, hq, h⟩ := bind_eq_ok.mp h
    have hle := skip_le hq
    split at h
    · obtain ⟨n, -, h⟩ := bind_eq_ok.mp h
      cases h
      exact Nat.le_of_succ_le hle
    · cases h
      exact Nat.le_of_succ_le hle
  · cases h
    exact Nat.le_refl _

/-- A conversion has its percent sign and at least one more character. -/
theorem getFormatParamSpec_pos {buf : Buf} {param : Nat} {r : Nat × CFormatSpec}
    (h : getFormatParamSpec buf param = .ok (some r)) : 2 ≤ r.1 := by
  unfold getFormatParamSpec at h
  obtain ⟨c, -, h⟩ := bind_eq_ok.mp h
  split at h
  · cases h
    exact Nat.le_refl _
  · obtain ⟨r₁, h₁, h⟩ := bind_eq_ok.mp h
    obtain ⟨r₂, h₂, h⟩ := bind_eq_ok.mp h
    obtain ⟨r₃, h₃, h⟩ := bind_eq_ok.mp h
    obtain ⟨p, hp, h⟩ := bind_eq_ok.mp h
    obtain ⟨c, -, h⟩ := bind_eq_ok.mp h
    have := flags_le h₁
    have := width_le h₂
    have := precision_le h₃
    have := skip_le hp
    split at h
    · cases h
      show 2 ≤ p + 1 - param
      omega
    · cases h

theorem findParam_le {buf : Buf} {p param fpLen : Nat} {spec : CFormatSpec}
    (h : findParam buf p = .ok (some (param, fpLen, spec))) : p ≤ param ∧ 2 ≤ fpLen := by
  fun_induction findParam buf p with
  | case1 p e _ => cases h
  | case2 p _ => cases h
  | case3 p q hq e _ => cases h
  | case4 p q hq _ ih =>
    have := strchr_le hq
    have := ih h
    omega
  | case5 p q hq n spec' hspec =>
    cases h
    exact ⟨(strchr_le hq).1, getFormatParamSpec_pos hspec⟩

theorem State.buf_pushIf (s : State) (c : Bool) (r : Recorded) : (s.pushIf c r).buf = s.buf := by
  unfold pushIf
  split
  · rfl
  · rfl

theorem State.buf_addFormatter {s s' : State} {conv : UInt8} (h : s.addFormatter conv = .ok s') :
    s'.buf = s.buf := by
  unfold addFormatter at h
  split at h
  · cases h
  · obtain ⟨l, -, rfl⟩ := map_eq_ok.mp h
    rfl

theorem State.length_cut {s s' : State} {msgPtr param : Nat} (h : s.cut msgPtr param = .ok s') :
    s'.buf.length = s.buf.length := by
  unfold cut at h
  split at h
  · obtain ⟨buf, hbuf, rfl⟩ := map_eq_ok.mp h
    exact length_writeNul hbuf
  · cases h
    rfl

/-- Every round goes forward in the buffer, which keeps its size. -/
theorem round_next {msgPtr p : Nat} {s s' : State} (h : round msgPtr s = .ok (.next p s')) :
    msgPtr < s.buf.length ∧ msgPtr < p ∧ s'.buf.length = s.buf.length := by
  unfold round at h
  obtain ⟨c, hc, h⟩ := bind_eq_ok.mp h
  rw [read_eq_ok] at hc
  refine ⟨(List.getElem?_eq_some_iff.mp hc).1, ?_⟩
  split at h
  · cases h
  · rename_i hne
    obtain ⟨o, ho, h⟩ := bind_eq_ok.mp h
    rcases o with _ | ⟨param, fpLen, spec⟩
    · obtain ⟨q, hq, h⟩ := bind_eq_ok.mp h
      cases h
      exact ⟨strend_lt hc hne hq, rfl⟩
    · have hle := findParam_le ho
      obtain ⟨conv, -, h⟩ := bind_eq_ok.mp h
      split at h
      · obtain ⟨buf, hbuf, h⟩ := bind_eq_ok.mp h
        cases h
        exact ⟨by omega, length_writeNul hbuf⟩
      · split at h
        · cases h
        · obtain ⟨s₁, hs₁, h⟩ := bind_eq_ok.mp h
          obtain ⟨s₂, hs₂, h⟩ := bind_eq_ok.mp h
          cases h
          refine ⟨by omega, ?_⟩
          rw [State.buf_pushIf, State.buf_addFormatter hs₂, State.buf_pushIf, State.buf_pushIf]
          exact State.length_cut hs₁

/-- The loop over the text. -/
def loop (msgPtr : Nat) (s : State) : Except FormatError (Nat × State) :=
  match _h : round msgPtr s with
  | .error e => .error e
  | .ok (.leave p s') => .ok (p, s')
  | .ok (.next p s') => loop p s'
termination_by s.buf.length - msgPtr
decreasing_by
  have := round_next _h
  omega

/-! ## The constructor -/

/-- What `init` starts from. -/
def start (reg : Registry) (lineno : Nat) (msg fmt : Text) : State :=
  let b := MessageFormatter.start reg lineno fmt
  { buf := msg ++ [0], fmtPtr := b.fmtPtr, formatters := b.formatters.map .entry,
    lengths := b.lengths, reg := b.reg }

/-- Emit the message and the parameters separately. The text of the message
is `msg()`, which nothing has cut. -/
def fallback (msg fmt : Text) (s : State) : Except FormatError State :=
  (MessageFormatter.fallback s.reg msg fmt).map fun b =>
    { buf := s.buf, fmtPtr := b.fmtPtr, formatters := b.formatters.map .entry,
      lengths := b.lengths, reg := b.reg }

/-- `init`. -/
def init (reg : Registry) (lineno : Nat) (msg fmt : Text) : Except FormatError State := do
  let (msgPtr, s) ← loop 0 (start reg lineno msg fmt)
  if (← read s.buf msgPtr) ≠ 0 ∨ ¬ s.fmtPtr.isEmpty then fallback msg fmt s else return s

end QuickTrace.Tokenizer
