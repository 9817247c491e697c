/-
QuickTrace.Dict.MappedParser — the parser on the bytes that can be read.

The readers of `MessageParser.cpp` move a pointer through the mapping and
compare it with no end. Here the bytes that can be read from `base_` on are a
list `mem`, and a reader that looks at any other byte fails. A reader that
does not fail returns what the one of `MessageParser.lean` returns
(`parseAt_eq`).

`rounds` is the loop `while ( more() ) parse()` with whatever is done to the
messages. A message that is read moves the position (`readMessageAt_progress`),
and by no more than one byte behind what can be read (`readMessageAt_le`).
-/
import QuickTrace.Dict.RoundTrip

namespace QuickTrace

open QuickTrace.Lib

/-! ## What a scan looks at -/

/-- The scan of a number finds the character that ends it. -/
def scanStops (t : Text) : Bool :=
  match (scanSign (t.dropWhile isspace)).2 with
  | 48 :: x :: u =>
    if x = 120 ∨ x = 88 then u.any fun c => (digitVal 16 c).isNone
    else (x :: u).any fun c => (digitVal 8 c).isNone
  | u => u.any fun c => (digitVal 10 c).isNone

namespace MessageParser

/-! ## The readers -/

def readU64At (mem : List UInt8) (p : Nat) : Option (UInt64 × Nat) :=
  let t := mem.drop p
  if scanStops t then
    let r := readU64 t
    some (r.1, p + (t.length - r.2.length))
  else none

def readU32At (mem : List UInt8) (p : Nat) : Option (UInt32 × Nat) :=
  let t := mem.drop p
  if scanStops t then
    let r := readU32 t
    some (r.1, p + (t.length - r.2.length))
  else none

/-- The NUL of the string is skipped and not read. -/
def readPStringAt (mem : List UInt8) (p : Nat) : Option (Text × Nat) :=
  let t := mem.drop p
  let len := wordOf (t.take 4)
  -- `len - 1` has 32 bits
  let n := (len + 2 ^ 32 - 1) % 2 ^ 32
  if 4 + n ≤ t.length then some ((t.drop 4).take n, p + 4 + len) else none

def readStringUntilWhitespaceAt (mem : List UInt8) (p : Nat) : Option (Text × Nat) :=
  let r := readStringUntilWhitespace (mem.drop p)
  if r.2.isEmpty then none else some (r.1, p + r.1.length)

def skipWhiteSpaceAt (mem : List UInt8) (p : Nat) : Option Nat :=
  let t := mem.drop p
  let r := skipWhiteSpace t
  if r.isEmpty then none else some (p + (t.length - r.length))

/-! ## The parser -/

/-- The id of a descriptor; before version 3 its position is its id. -/
def readMsgIdAt (mem : List UInt8) (version index : UInt32) (p : Nat) : Option (UInt32 × Nat) :=
  if 3 ≤ version then (skipWhiteSpaceAt mem p).bind (readU32At mem) else some (index, p)

/-- The part of `parse` that reads. -/
def readMessageAt (mem : List UInt8) (version index : UInt32) (p : Nat) :
    Option (Message × Nat) := do
  let tsc ← readU64At mem p
  let filename ← readStringUntilWhitespaceAt mem (← skipWhiteSpaceAt mem tsc.2)
  let lineNo ← readU32At mem (← skipWhiteSpaceAt mem filename.2)
  let msgId ← readMsgIdAt mem version index lineNo.2
  let msg ← readPStringAt mem (msgId.2 + 1)
  let fmt ← readPStringAt mem msg.2
  return (⟨tsc.1, msgId.1, lineNo.1, filename.1, msg.1, fmt.1⟩, fmt.2)

/-- `parse`; `none` if it looks at a byte that cannot be read. -/
def parseAt (mem : List UInt8) (ps : MessageParser) : Option (Message × MessageParser) :=
  if ps.more then
    (mem[ps.p]?).bind fun c =>
      if c = 0 then some (Message.empty, ps)
      else
        let index := ps.index + 1
        (readMessageAt mem ps.version index ps.p).map fun r => (r.1, { ps with index, p := r.2 })
  else some (Message.empty, ps)

/-- What has become of a loop after some rounds. -/
inductive Outcome (σ : Type) where
  /-- It still runs. -/
  | running (s : σ) (ps : MessageParser)
  /-- `more` was false. -/
  | ended (s : σ) (ps : MessageParser)
  /-- The program has ended: it looked at a byte that cannot be read, or it
  could not use a message. -/
  | stopped (s : σ)
  deriving DecidableEq

/-- The first rounds of `while ( more() ) use( parse() )`. -/
def rounds {σ : Type} (mem : List UInt8) (use : σ → Message → Option σ) :
    Nat → σ → MessageParser → Outcome σ
  | 0, s, ps => .running s ps
  | n + 1, s, ps =>
    if ps.more then
      match parseAt mem ps with
      | none => .stopped s
      | some (msg, ps') =>
        match use s msg with
        | none => .stopped s
        | some s' => rounds mem use n s' ps'
    else .ended s ps

end MessageParser

/-! ## Scans -/

theorem scanDigits_suffix (b : Nat) : ∀ (t : Text) (acc : Nat) (any : Bool),
    (scanDigits b t acc any).2.2 <:+ t
  | [], acc, any => List.suffix_rfl
  | c :: t, acc, any => by
      rw [scanDigits]
      split
      · exact (scanDigits_suffix b t _ _).trans (List.suffix_cons c t)
      · exact List.suffix_rfl

theorem scanBase_suffix (t : Text) : (scanBase t).2 <:+ t := by
  unfold scanBase
  split
  · split
    · exact (List.suffix_cons _ _).trans (List.suffix_cons _ _)
    · exact List.suffix_rfl
  · exact List.suffix_rfl
  · exact List.suffix_rfl

theorem scanSign_suffix (t : Text) : (scanSign t).2 <:+ t := by
  unfold scanSign
  split
  · exact List.suffix_cons _ _
  · exact List.suffix_cons _ _
  · exact List.suffix_rfl

/-- The scan goes forward. -/
theorem strtoul_suffix (t : Text) : (strtoul t).2 <:+ t := by
  unfold strtoul
  dsimp only
  split
  · exact (scanDigits_suffix _ _ _ _).trans ((scanBase_suffix _).trans
      ((scanSign_suffix _).trans (List.dropWhile_suffix _)))
  · exact List.suffix_rfl

theorem readU64_suffix (t : Text) : (readU64 t).2 <:+ t := strtoul_suffix t

theorem readU32_suffix (t : Text) : (readU32 t).2 <:+ t := strtoul_suffix t

/-- What is left of the text behind a position stands at a later one. -/
theorem drop_suffix {mem r : List UInt8} {p : Nat} (h : r <:+ mem.drop p) :
    mem.drop (p + ((mem.drop p).length - r.length)) = r := by
  rw [← List.drop_drop, ← List.suffix_iff_eq_drop.mp h]

theorem drop_append {mem xs ys : List UInt8} {p : Nat} (h : mem.drop p = xs ++ ys) :
    mem.drop (p + xs.length) = ys := by
  rw [← List.drop_drop, h, List.drop_left]

theorem drop_blank {mem w ys : List UInt8} {p : Nat} (h : mem.drop p = w ++ 32 :: ys) :
    mem.drop (p + w.length + 1) = ys := by
  rw [← List.drop_drop, drop_append h]
  rfl

namespace MessageParser

/-! ## Readers that do not fail -/

section

variable {mem : List UInt8} {p p' : Nat}

theorem readU64At_eq {x : UInt64} (h : readU64At mem p = some (x, p')) :
    p ≤ p' ∧ readU64 (mem.drop p) = (x, mem.drop p') := by
  unfold readU64At at h
  dsimp only at h
  rw [Option.ite_none_right_eq_some] at h
  cases h.2
  exact ⟨Nat.le_add_right _ _, by rw [drop_suffix (readU64_suffix _)]⟩

theorem readU32At_eq {x : UInt32} (h : readU32At mem p = some (x, p')) :
    p ≤ p' ∧ readU32 (mem.drop p) = (x, mem.drop p') := by
  unfold readU32At at h
  dsimp only at h
  rw [Option.ite_none_right_eq_some] at h
  cases h.2
  exact ⟨Nat.le_add_right _ _, by rw [drop_suffix (readU32_suffix _)]⟩

theorem skipWhiteSpaceAt_eq (h : skipWhiteSpaceAt mem p = some p') :
    p ≤ p' ∧ skipWhiteSpace (mem.drop p) = mem.drop p' := by
  unfold skipWhiteSpaceAt at h
  dsimp only at h
  rw [Option.ite_none_left_eq_some] at h
  cases h.2
  exact ⟨Nat.le_add_right _ _, (drop_suffix (List.dropWhile_suffix _)).symm⟩

theorem readStringUntilWhitespaceAt_eq {x : Text}
    (h : readStringUntilWhitespaceAt mem p = some (x, p')) :
    p ≤ p' ∧ readStringUntilWhitespace (mem.drop p) = (x, mem.drop p') := by
  unfold readStringUntilWhitespaceAt at h
  dsimp only at h
  rw [Option.ite_none_left_eq_some] at h
  cases h.2
  refine ⟨Nat.le_add_right _ _, ?_⟩
  have happ : mem.drop p = (readStringUntilWhitespace (mem.drop p)).1
      ++ (readStringUntilWhitespace (mem.drop p)).2 :=
    List.takeWhile_append_dropWhile.symm
  rw [drop_append happ]

theorem wordOf_lt : ∀ (bs : List UInt8), wordOf bs < 256 ^ bs.length
  | [] => Nat.one_pos
  | b :: bs => by
      have hb := b.toNat_lt
      have ih := wordOf_lt bs
      rw [wordOf, List.length_cons, Nat.pow_succ]
      omega

theorem readPStringAt_eq {x : Text} (h : readPStringAt mem p = some (x, p')) :
    p + 4 ≤ p' ∧ p' ≤ mem.length + 1 ∧ readPString (mem.drop p) = (x, mem.drop p') := by
  unfold readPStringAt at h
  dsimp only at h
  rw [Option.ite_none_right_eq_some] at h
  obtain ⟨hle, h⟩ := h
  simp only [Option.some.injEq, Prod.mk.injEq] at h
  obtain ⟨rfl, rfl⟩ := h
  have hword := wordOf_lt ((mem.drop p).take 4)
  have hpow : 256 ^ ((mem.drop p).take 4).length ≤ 256 ^ 4 :=
    Nat.pow_le_pow_right (by omega) (List.length_take_le _ _)
  rw [List.length_drop] at hle
  refine ⟨by omega, by omega, ?_⟩
  unfold readPString
  dsimp only
  rw [List.drop_drop, List.drop_drop]

end

theorem readMsgIdAt_eq {mem : List UInt8} {version index : UInt32} {p p' : Nat} {msgId : UInt32}
    (h : readMsgIdAt mem version index p = some (msgId, p')) :
    p ≤ p' ∧ (if 3 ≤ version then readU32 (skipWhiteSpace (mem.drop p))
      else (index, mem.drop p)) = (msgId, mem.drop p') := by
  unfold readMsgIdAt at h
  by_cases hv : 3 ≤ version
  · rw [if_pos hv] at h ⊢
    obtain ⟨q, hskip, h⟩ := Option.bind_eq_some_iff.mp h
    obtain ⟨l₁, e₁⟩ := skipWhiteSpaceAt_eq hskip
    obtain ⟨l₂, e₂⟩ := readU32At_eq h
    exact ⟨Nat.le_trans l₁ l₂, by rw [e₁, e₂]⟩
  · rw [if_neg hv] at h ⊢
    cases h
    exact ⟨Nat.le_refl _, rfl⟩

/-- A message that is read is the one the texts give. -/
theorem readMessageAt_eq {mem : List UInt8} {version index : UInt32} {p p' : Nat} {msg : Message}
    (h : readMessageAt mem version index p = some (msg, p')) :
    p + 9 ≤ p' ∧ p' ≤ mem.length + 1
      ∧ readMessage version index (mem.drop p) = (msg, mem.drop p') := by
  simp only [readMessageAt, Option.bind_eq_bind, Option.bind_eq_some_iff] at h
  obtain ⟨tsc, h₁, p₁, h₂, filename, h₃, p₃, h₄, lineNo, h₅, msgId, h₆, text, h₇, key, h₈, h⟩ := h
  obtain ⟨l₁, e₁⟩ := readU64At_eq h₁
  obtain ⟨l₂, e₂⟩ := skipWhiteSpaceAt_eq h₂
  obtain ⟨l₃, e₃⟩ := readStringUntilWhitespaceAt_eq h₃
  obtain ⟨l₄, e₄⟩ := skipWhiteSpaceAt_eq h₄
  obtain ⟨l₅, e₅⟩ := readU32At_eq h₅
  obtain ⟨l₇, -, e₇⟩ := readPStringAt_eq h₇
  obtain ⟨l₈, u₈, e₈⟩ := readPStringAt_eq h₈
  obtain ⟨l₆, e₆⟩ := readMsgIdAt_eq h₆
  cases h
  refine ⟨by omega, u₈, ?_⟩
  unfold readMessage
  simp only [e₁, e₂, e₃, e₄, e₅, e₆, List.drop_drop, e₇, e₈]

/-- Inside the file `parseAt` is `parse`. -/
theorem parseAt_eq {mem : List UInt8} {ps ps' : MessageParser} {msg : Message}
    (h : parseAt mem ps = some (msg, ps')) (hp : ps'.p ≤ mem.length) :
    ps.parse mem = (msg, ps') := by
  unfold parseAt at h
  unfold parse
  by_cases hmore : ps.more = true
  · rw [if_pos hmore] at h
    obtain ⟨c, hc, h⟩ := Option.bind_eq_some_iff.mp h
    by_cases h0 : c = 0
    · rw [if_pos h0] at h
      cases h
      rw [if_neg (by simp [hc, h0])]
    · rw [if_neg h0] at h
      obtain ⟨r, hr, h⟩ := Option.map_eq_some_iff.mp h
      cases h
      obtain ⟨-, -, hread⟩ := readMessageAt_eq hr
      rw [if_pos ⟨hmore, by simp [hc, h0]⟩]
      simp only [hread, List.length_drop]
      have hpos : mem.length - (mem.length - r.2) = r.2 := Nat.sub_sub_self hp
      rw [hpos]
  · rw [if_neg hmore] at h
    cases h
    rw [if_neg (by simp [hmore])]

/-- What one round does to the position. -/
theorem parseAt_step {mem : List UInt8} {ps ps' : MessageParser} {msg : Message}
    (hmore : ps.more = true) (h : parseAt mem ps = some (msg, ps')) :
    (mem[ps.p]? = some 0 ∧ msg = Message.empty ∧ ps' = ps)
      ∨ mem[ps.p]? ≠ some 0 ∧ ps.p < ps'.p ∧ ps'.p ≤ mem.length + 1 ∧ ps'.end_ = ps.end_
        ∧ ps'.version = ps.version := by
  unfold parseAt at h
  rw [if_pos hmore] at h
  obtain ⟨c, hc, h⟩ := Option.bind_eq_some_iff.mp h
  by_cases h0 : c = 0
  · rw [if_pos h0] at h
    cases h
    exact .inl ⟨by rw [hc, h0], rfl, rfl⟩
  · rw [if_neg h0] at h
    obtain ⟨r, hr, h⟩ := Option.map_eq_some_iff.mp h
    cases h
    obtain ⟨hlow, hhigh, -⟩ := readMessageAt_eq hr
    refine .inr ⟨by simp [hc, h0], ?_, hhigh, rfl, rfl⟩
    dsimp only
    omega

end MessageParser

/-! ## Readers on what a descriptor consists of -/

/-- A blank ends every numeral. -/
theorem stops_numeral (n : Nat) (t : Text) :
    (match numeral 10 n ++ 32 :: t with
      | 48 :: x :: u =>
        if x = 120 ∨ x = 88 then u.any fun c => (digitVal 16 c).isNone
        else (x :: u).any fun c => (digitVal 8 c).isNone
      | u => u.any fun c => (digitVal 10 c).isNone) = true := by
  by_cases hn : n = 0
  · subst hn
    rfl
  · obtain ⟨d, ds, hd, hlt, h0⟩ := numeral_head hn
    have hblank : (digitVal 10 32).isNone = true := by decide
    have hany : (numeral 10 n ++ 32 :: t).any (fun c => (digitVal 10 c).isNone) = true := by
      simp [hblank]
    rw [hd, List.cons_append] at hany ⊢
    split
    · rename_i heq
      simp only [List.cons.injEq] at heq
      exact absurd heq.1 (digitChar_ne_zero d hlt h0)
    · exact hany

theorem scanStops_decimal (z : Int) (t : Text) : scanStops (decimal z ++ 32 :: t) = true := by
  obtain ⟨c, cs, h, hc, -⟩ := decimal_head z (32 :: t)
  have hdrop : (decimal z ++ 32 :: t).dropWhile isspace = decimal z ++ 32 :: t := by
    rw [h, List.dropWhile_cons_of_neg (by simp [hc])]
  unfold scanStops
  rw [hdrop]
  unfold decimal
  by_cases hz : z < 0
  · rw [if_pos hz, List.cons_append]
    exact stops_numeral z.natAbs t
  · obtain ⟨d, ds, hd, hds⟩ := numeral_cons z.natAbs
    have hsign : scanSign (numeral 10 z.natAbs ++ 32 :: t)
        = (false, numeral 10 z.natAbs ++ 32 :: t) := by
      rw [hds, List.cons_append, scanSign_digit hd]
    rw [if_neg hz, hsign]
    exact stops_numeral z.natAbs t

namespace MessageParser

section

variable {mem : List UInt8} {p : Nat}

theorem readU64At_decimal {x : UInt64} {t : Text}
    (h : mem.drop p = decimal x.toInt64.toInt ++ 32 :: t) :
    readU64At mem p = some (x, p + (decimal x.toInt64.toInt).length) := by
  unfold readU64At
  dsimp only
  rw [h, if_pos (scanStops_decimal _ t), readU64_decimal, List.length_append,
    Nat.add_sub_cancel_right]

theorem readU32At_decimal {x : Int32} {t : Text} (h : mem.drop p = decimal x.toInt ++ 32 :: t) :
    readU32At mem p = some (x.toUInt32, p + (decimal x.toInt).length) := by
  unfold readU32At
  dsimp only
  rw [h, if_pos (scanStops_decimal _ t), readU32_decimal, List.length_append,
    Nat.add_sub_cancel_right]

theorem skipWhiteSpaceAt_spaces {ws t : Text} {c : UInt8} (hws : ∀ c ∈ ws, isspace c = true)
    (hc : isspace c = false) (h : mem.drop p = ws ++ c :: t) :
    skipWhiteSpaceAt mem p = some (p + ws.length) := by
  have hskip : skipWhiteSpace (ws ++ c :: t) = c :: t := by
    rw [skipWhiteSpace, List.dropWhile_append_of_pos hws,
      List.dropWhile_cons_of_neg (by simp [hc])]
  unfold skipWhiteSpaceAt
  dsimp only
  rw [h, hskip, List.isEmpty_cons, if_neg Bool.false_ne_true, List.length_append,
    Nat.add_sub_cancel_right]

/-- White space and a blank. -/
theorem skipWhiteSpaceAt_blank {w t : Text} {c : UInt8} (hw : ∀ c ∈ w, isspace c = true)
    (hc : isspace c = false) (h : mem.drop p = w ++ 32 :: (c :: t)) :
    skipWhiteSpaceAt mem p = some (p + w.length + 1) := by
  have hall : ∀ c ∈ w ++ [32], isspace c = true := by
    intro c hc
    rcases List.mem_append.mp hc with hc | hc
    · exact hw c hc
    · rw [List.mem_singleton.mp hc]
      rfl
  have hskip := skipWhiteSpaceAt_spaces hall hc (by rw [h, List.append_assoc]; rfl)
  rwa [List.length_append, List.length_singleton, ← Nat.add_assoc] at hskip

theorem readStringUntilWhitespaceAt_graph {x t : Text} {c : UInt8}
    (hx : ∀ c ∈ x, isspace c = false) (hc : isspace c = true) (h : mem.drop p = x ++ c :: t) :
    readStringUntilWhitespaceAt mem p = some (x, p + x.length) := by
  have hall : ∀ d ∈ x, (!isspace d) = true := fun d hd => by rw [hx d hd]; rfl
  have hread : readStringUntilWhitespace (x ++ c :: t) = (x, c :: t) := by
    rw [readStringUntilWhitespace, List.takeWhile_append_of_pos hall,
      List.dropWhile_append_of_pos hall,
      List.takeWhile_cons_of_neg (p := fun c => !isspace c) (by simp [hc]),
      List.dropWhile_cons_of_neg (p := fun c => !isspace c) (by simp [hc]), List.append_nil]
  unfold readStringUntilWhitespaceAt
  rw [h, hread]
  rfl

/-- A string is read without its NUL. -/
theorem readPStringAt_text {x t : Text} (hx : x.length < MsgDesc.bufSize)
    (h : mem.drop p = leBytes 4 (x.length + 1) ++ (x ++ t)) :
    readPStringAt mem p = some (x, p + (pstringL x).length) := by
  unfold MsgDesc.bufSize at hx
  have hlen : wordOf (leBytes 4 (x.length + 1)) = x.length + 1 := by
    rw [wordOf_leBytes]
    exact Nat.mod_eq_of_lt (by omega)
  have hsub : (x.length + 1 + 2 ^ 32 - 1) % 2 ^ 32 = x.length := by omega
  have htake : (leBytes 4 (x.length + 1) ++ (x ++ t)).take 4 = leBytes 4 (x.length + 1) :=
    List.take_left' (leBytes_length 4 _)
  have hdrop : (leBytes 4 (x.length + 1) ++ (x ++ t)).drop 4 = x ++ t :=
    List.drop_left' (leBytes_length 4 _)
  have hpstring : (pstringL x).length = 4 + (x.length + 1) := by simp [pstringL]
  unfold readPStringAt
  dsimp only
  rw [h, htake, hlen, hsub, hdrop, hpstring, if_pos (by simp), List.take_left,
    Nat.add_assoc]

end

theorem readMsgIdAt_new {mem : List UInt8} {version : UInt32} (hv : 3 ≤ version) (index : UInt32)
    {p p' : Nat} (h : skipWhiteSpaceAt mem p = some p') :
    readMsgIdAt mem version index p = readU32At mem p' := by
  rw [readMsgIdAt, if_pos hv, h, Option.bind_some]

/-- A message is read if each of its parts is. -/
theorem readMessageAt_parts {mem : List UInt8} {version index : UInt32} {p p₂ p₄ : Nat}
    {tsc : UInt64 × Nat} {filename : Text × Nat} {lineNo msgId : UInt32 × Nat}
    {msg fmt : Text × Nat} (h₁ : readU64At mem p = some tsc)
    (h₂ : skipWhiteSpaceAt mem tsc.2 = some p₂)
    (h₃ : readStringUntilWhitespaceAt mem p₂ = some filename)
    (h₄ : skipWhiteSpaceAt mem filename.2 = some p₄) (h₅ : readU32At mem p₄ = some lineNo)
    (h₆ : readMsgIdAt mem version index lineNo.2 = some msgId)
    (h₇ : readPStringAt mem (msgId.2 + 1) = some msg) (h₈ : readPStringAt mem msg.2 = some fmt) :
    readMessageAt mem version index p
      = some (⟨tsc.1, msgId.1, lineNo.1, filename.1, msg.1, fmt.1⟩, fmt.2) := by
  simp only [readMessageAt, Option.bind_eq_bind, Option.bind_eq_some_iff]
  exact ⟨tsc, h₁, p₂, h₂, filename, h₃, p₄, h₄, lineNo, h₅, msgId, h₆, msg, h₇, fmt, h₈, rfl⟩

theorem spaces_head {ws : Text} (hws : ∀ c ∈ ws, isspace c = true) (t : Text) :
    ∃ c cs, ws ++ 32 :: t = c :: cs ∧ isspace c = true := by
  cases ws with
  | nil => exact ⟨32, t, rfl, rfl⟩
  | cons c ws => exact ⟨c, ws ++ 32 :: t, rfl, hws c (by simp)⟩

/-- The bytes of a descriptor but for the last one, which is the NUL of the
key. -/
def descBytes (tsc : UInt64) (filename : Text) (lineno : Int32) (msgId : UInt32)
    (text key : Text) : List UInt8 :=
  decimal tsc.toInt64.toInt ++ 32 :: (filename ++ 32 :: (decimal lineno.toInt ++ 32 ::
    (decimal msgId.toInt32.toInt ++ 32 :: (pstringL text ++ (leBytes 4 (key.length + 1) ++ key)))))

/-- A descriptor is read, even if the last NUL is missing. White space around
the name of the file does not matter. -/
theorem readMessageAt_descBytes {mem : List UInt8} {version : UInt32} (hv : 3 ≤ version)
    (index : UInt32) {p : Nat} {tsc : UInt64} {pre name post : Text} {lineno : Int32}
    {msgId : UInt32} {text key after : Text} (hpre : ∀ c ∈ pre, isspace c = true)
    (hne : name ≠ []) (hname : ∀ c ∈ name, isspace c = false)
    (hpost : ∀ c ∈ post, isspace c = true) (htext : text.length < MsgDesc.bufSize)
    (hkey : key.length < MsgDesc.bufSize)
    (h : mem.drop p = descBytes tsc (pre ++ (name ++ post)) lineno msgId text key ++ after) :
    readMessageAt mem version index p = some (⟨tsc, msgId, lineno.toUInt32, name, text, key⟩,
      p + (descBytes tsc (pre ++ (name ++ post)) lineno msgId text key).length + 1) := by
  simp only [descBytes, List.append_assoc, List.cons_append] at h
  have h₁ := readU64At_decimal h
  -- the blank and the white space in front of the name
  have d₁ := drop_append h
  obtain ⟨c, cs, hc⟩ := List.exists_cons_of_ne_nil hne
  have hskip : ∀ c ∈ 32 :: pre, isspace c = true := by
    intro c hc
    rcases List.mem_cons.mp hc with rfl | hc
    · rfl
    · exact hpre c hc
  have h₂ := skipWhiteSpaceAt_spaces hskip (hname c (by simp [hc]))
    (by rw [d₁, hc, List.cons_append, List.cons_append])
  rw [← List.cons_append] at d₁
  have d₂ := drop_append d₁
  -- the name and the white space behind it
  obtain ⟨d, ds, hd, hdspace⟩ := spaces_head hpost (decimal lineno.toInt ++ 32 ::
    (decimal msgId.toInt32.toInt ++ 32 :: (pstringL text ++ (leBytes 4 (key.length + 1) ++
      (key ++ after)))))
  have h₃ := readStringUntilWhitespaceAt_graph hname hdspace (by rw [d₂, ← hd])
  have d₃ := drop_append d₂
  obtain ⟨e, es, he, hespace, -⟩ := decimal_head lineno.toInt (32 ::
    (decimal msgId.toInt32.toInt ++ 32 :: (pstringL text ++ (leBytes 4 (key.length + 1) ++
      (key ++ after)))))
  have h₄ := skipWhiteSpaceAt_blank hpost hespace (by rw [d₃, he])
  -- the two numbers
  have d₄ := drop_blank d₃
  have h₅ := readU32At_decimal d₄
  have d₅ := drop_append d₄
  obtain ⟨f, fs, hf, hfspace, -⟩ := decimal_head msgId.toInt32.toInt (32 :: (pstringL text ++
    (leBytes 4 (key.length + 1) ++ (key ++ after))))
  have h₆ := skipWhiteSpaceAt_blank (w := []) (by simp) hfspace (by rw [d₅, hf, List.nil_append])
  have d₆ := drop_blank (w := []) d₅
  have h₇ := readU32At_decimal d₆
  -- the two strings
  have d₇ := drop_append d₆
  have d₈ := drop_blank (w := []) d₇
  have h₈ := readPStringAt_text (t := 0 :: (leBytes 4 (key.length + 1) ++ (key ++ after))) htext
    (by rw [d₈]; simp [pstringL])
  have h₉ := readPStringAt_text (t := after) hkey (drop_append d₈)
  rw [readMessageAt_parts h₁ h₂ h₃ h₄ h₅ ((readMsgIdAt_new hv index h₆).trans h₇) h₈ h₉]
  simp only [descBytes, UInt32.toUInt32_toInt32, Option.some.injEq, Prod.mk.injEq, true_and]
  simp only [pstringL, List.length_append, List.length_cons, List.length_nil, leBytes_length]
  omega

end MessageParser

/-! ## Descriptors one behind the other -/

/-- All but the last of these bytes can be read at `p`. -/
def Shown (mem : List UInt8) (p : Nat) (bs : List UInt8) : Prop := bs.dropLast <+: mem.drop p

theorem Shown.of_append {mem bs cs : List UInt8} {p : Nat} (h : mem.drop p = bs ++ cs) :
    Shown mem p bs := (List.dropLast_prefix bs).trans ⟨cs, h.symm⟩

theorem Shown.left {mem bs cs : List UInt8} {p : Nat} (h : Shown mem p (bs ++ cs)) :
    Shown mem p bs := by
  refine List.IsPrefix.trans ?_ h
  by_cases hcs : cs = []
  · rw [hcs, List.append_nil]
  · rw [List.dropLast_append_of_ne_nil hcs]
    exact (List.dropLast_prefix bs).trans (List.prefix_append _ _)

theorem Shown.right {mem bs cs : List UInt8} {p : Nat} (h : Shown mem p (bs ++ cs)) :
    Shown mem (p + bs.length) cs := by
  by_cases hcs : cs = []
  · rw [hcs]
    exact List.nil_prefix
  · unfold Shown at h
    rw [List.dropLast_append_of_ne_nil hcs] at h
    obtain ⟨rest, hrest⟩ := h
    rw [List.append_assoc] at hrest
    exact ⟨rest, (drop_append hrest.symm).symm⟩

namespace Descriptor

/-- The last byte of a descriptor is the NUL of its key. -/
theorem dropLast_bytes (d : Descriptor) : d.bytes.dropLast
    = MessageParser.descBytes d.tsc d.filename d.lineno d.msgId d.text d.key := by
  have h : d.bytes
      = MessageParser.descBytes d.tsc d.filename d.lineno d.msgId d.text d.key ++ [0] := by
    rw [d.bytes_eq]
    simp [MessageParser.descBytes, pstringL]
  rw [h, List.dropLast_concat]

theorem length_bytes (d : Descriptor) : d.bytes.length
    = (MessageParser.descBytes d.tsc d.filename d.lineno d.msgId d.text d.key).length + 1 := by
  obtain ⟨c, cs, h, -⟩ := d.bytes_head
  rw [← d.dropLast_bytes, List.length_dropLast, h, List.length_cons, Nat.add_sub_cancel]

end Descriptor

namespace MessageParser

/-- The bytes of a descriptor are no NUL, so `parse` reads a message. -/
theorem parseAt_descBytes {mem z : List UInt8} {ps : MessageParser} {tsc : UInt64}
    {filename text key : Text} {lineno : Int32} {msgId : UInt32} (hmore : ps.more = true)
    (h : mem.drop ps.p = descBytes tsc filename lineno msgId text key ++ z) :
    parseAt mem ps = (readMessageAt mem ps.version (ps.index + 1) ps.p).map fun r =>
      (r.1, { ps with index := ps.index + 1, p := r.2 }) := by
  obtain ⟨c, cs, hc, -, h0⟩ := decimal_head tsc.toInt64.toInt []
  have hhead : mem[ps.p]? = some c := by
    rw [List.append_nil] at hc
    rw [← List.head?_drop, h, descBytes, hc]
    rfl
  unfold parseAt
  rw [if_pos hmore, hhead, Option.bind_some, if_neg h0]

/-- A descriptor is read even if its last byte cannot be. -/
theorem parseAt_descriptor {mem : List UInt8} {ps : MessageParser} (hv : 3 ≤ ps.version)
    (d : Descriptor) (hmore : ps.more = true) (h : Shown mem ps.p d.bytes) :
    parseAt mem ps
      = some (d.message, { ps with index := ps.index + 1, p := ps.p + d.bytes.length }) := by
  obtain ⟨after, hafter⟩ := h
  rw [d.dropLast_bytes] at hafter
  have hat : mem.drop ps.p = descBytes d.tsc ([] ++ (d.filename ++ [])) d.lineno d.msgId d.text
      d.key ++ after := by
    rw [List.nil_append, List.append_nil]
    exact hafter.symm
  have hread := readMessageAt_descBytes hv (ps.index + 1) (by simp) d.filename_ne
    (fun c hc => (d.filename_graph c hc).1) (by simp) d.text_length d.key_length hat
  rw [List.nil_append, List.append_nil, Nat.add_assoc, ← d.length_bytes] at hread
  rw [parseAt_descBytes hmore hafter.symm, hread]
  rfl

/-- What is done to one message after the other. -/
def useAll {σ : Type} (use : σ → Message → Option σ) : σ → List Message → Option σ
  | s, [] => some s
  | s, msg :: msgs => (use s msg).bind fun s' => useAll use s' msgs

/-- One round over a descriptor that can be read. -/
theorem rounds_descriptor {σ : Type} {mem : List UInt8} (use : σ → Message → Option σ) (n : Nat)
    (d : Descriptor) (s : σ) {ps : MessageParser} (hv : 3 ≤ ps.version)
    (hmem : Shown mem ps.p d.bytes) (hend : ps.p + d.bytes.length ≤ ps.end_) :
    rounds mem use (n + 1) s ps = match use s d.message with
      | none => .stopped s
      | some s' => rounds mem use n s'
        { ps with index := ps.index + 1, p := ps.p + d.bytes.length } := by
  obtain ⟨c, cs, hc, -⟩ := d.bytes_head
  have hmore : ps.more = true := by
    rw [hc, List.length_cons] at hend
    unfold more
    simp only [decide_eq_true_eq]
    omega
  rw [rounds, if_pos hmore, parseAt_descriptor hv d hmore hmem]

/-- The loop goes over descriptors that can be read. -/
theorem rounds_descriptors {σ : Type} {mem : List UInt8} {use : σ → Message → Option σ} (n : Nat) :
    ∀ (ds : List Descriptor) {s s' : σ} (ps : MessageParser), 3 ≤ ps.version →
      Shown mem ps.p (ds.flatMap Descriptor.bytes) →
      ps.p + (ds.flatMap Descriptor.bytes).length ≤ ps.end_ →
      useAll use s (ds.map Descriptor.message) = some s' →
      ∃ index, rounds mem use (ds.length + n) s ps = rounds mem use n s'
        { ps with index, p := ps.p + (ds.flatMap Descriptor.bytes).length }
  | [], s, s', ps, hv, hmem, hend, huse => by
      cases huse
      exact ⟨ps.index, by simp⟩
  | d :: ds, s, s', ps, hv, hmem, hend, huse => by
      rw [List.flatMap_cons] at hmem hend ⊢
      rw [List.length_append, ← Nat.add_assoc] at hend ⊢
      rw [List.map_cons, useAll] at huse
      obtain ⟨s₁, hs₁, huse⟩ := Option.bind_eq_some_iff.mp huse
      have hround := rounds_descriptor use (ds.length + n) d s hv hmem.left
        (Nat.le_trans (Nat.le_add_right _ _) hend)
      obtain ⟨index, ih⟩ := rounds_descriptors n ds (s := s₁)
        { ps with index := ps.index + 1, p := ps.p + d.bytes.length } hv hmem.right hend huse
      refine ⟨index, ?_⟩
      rw [List.length_cons, Nat.add_right_comm, hround, hs₁]
      exact ih

/-- A loop that ends has used all of them. -/
theorem ended_descriptors {σ : Type} {mem : List UInt8} {use : σ → Message → Option σ} :
    ∀ (ds : List Descriptor) {n : Nat} {s s' : σ} (ps : MessageParser) {ps' : MessageParser},
      3 ≤ ps.version → Shown mem ps.p (ds.flatMap Descriptor.bytes) →
      ps.p + (ds.flatMap Descriptor.bytes).length = ps.end_ →
      rounds mem use n s ps = .ended s' ps' →
      useAll use s (ds.map Descriptor.message) = some s' ∧ ps'.p = ps.end_
        ∧ ps'.version = ps.version
  | ds, 0, s, s', ps, ps', hv, hmem, hend, h => by cases h
  | [], n + 1, s, s', ps, ps', hv, hmem, hend, h => by
      have hmore : ps.more = false := by simp [more, ← hend]
      rw [rounds, hmore, if_neg Bool.false_ne_true] at h
      cases h
      exact ⟨rfl, by simpa using hend, rfl⟩
  | d :: ds, n + 1, s, s', ps, ps', hv, hmem, hend, h => by
      rw [List.flatMap_cons] at hmem hend
      rw [List.length_append, ← Nat.add_assoc] at hend
      rw [rounds_descriptor use n d s hv hmem.left (hend ▸ Nat.le_add_right _ _)] at h
      rw [List.map_cons, useAll]
      rcases huse : use s d.message with _ | s₁
      · rw [huse] at h
        cases h
      · rw [huse] at h
        rw [Option.bind_some]
        exact ended_descriptors ds { ps with
          index := ps.index + 1, p := ps.p + d.bytes.length } hv hmem.right hend h

/-- The loop ends behind the descriptors that the file ends with. -/
theorem rounds_ended {σ : Type} {mem : List UInt8} {use : σ → Message → Option σ}
    (ds : List Descriptor) {s s' : σ} (ps : MessageParser) (hv : 3 ≤ ps.version)
    (hmem : Shown mem ps.p (ds.flatMap Descriptor.bytes))
    (hend : ps.p + (ds.flatMap Descriptor.bytes).length = ps.end_)
    (huse : useAll use s (ds.map Descriptor.message) = some s') :
    ∃ index, rounds mem use (ds.length + 1) s ps = .ended s' { ps with index, p := ps.end_ } := by
  obtain ⟨index, h⟩ := rounds_descriptors 1 ds ps hv hmem (Nat.le_of_eq hend) huse
  refine ⟨index, ?_⟩
  rw [h, hend, rounds, if_neg (by simp [more])]

/-- Some rounds, and some more if the loop still runs. -/
theorem rounds_add {σ : Type} (mem : List UInt8) (use : σ → Message → Option σ) (m : Nat) :
    ∀ (n : Nat) (s : σ) (ps : MessageParser),
      rounds mem use (n + m) s ps = match rounds mem use n s ps with
      | .running s' ps' => rounds mem use m s' ps'
      | o => o
  | 0, s, ps => by rw [Nat.zero_add]; rfl
  | n + 1, s, ps => by
      rw [Nat.add_right_comm, rounds, rounds]
      split
      · rcases parseAt mem ps with _ | ⟨msg, ps'⟩
        · rfl
        · dsimp only
          rcases use s msg with _ | s'
          · rfl
          · exact rounds_add mem use m n s' ps'
      · rfl

/-- A program that has ended in `parse` does not come to the end of the
loop. -/
theorem not_ended_of_stopped {σ : Type} {mem : List UInt8} {use : σ → Message → Option σ}
    {n : Nat} {s s' : σ} {ps : MessageParser} (h : rounds mem use n s ps = .stopped s') (m : Nat)
    (s'' : σ) (ps' : MessageParser) : rounds mem use m s ps ≠ .ended s'' ps' := by
  intro hended
  have hstopped := rounds_add mem use m n s ps
  have hmore := rounds_add mem use n m s ps
  rw [h] at hstopped
  rw [hended, Nat.add_comm, hstopped] at hmore
  cases hmore

/-- The position stays within one byte behind what can be read. -/
theorem rounds_le {σ : Type} {mem : List UInt8} {use : σ → Message → Option σ} :
    ∀ (n : Nat) {s s' : σ} {ps ps' : MessageParser}, rounds mem use n s ps = .ended s' ps' →
      ps'.more = false ∧ ps'.end_ = ps.end_ ∧ ps'.version = ps.version
        ∧ (ps'.p = ps.p ∨ ps'.p ≤ mem.length + 1)
  | 0, s, s', ps, ps', h => by cases h
  | n + 1, s, s', ps, ps', h => by
      rw [rounds] at h
      by_cases hmore : ps.more = true
      · rw [if_pos hmore] at h
        rcases hparse : parseAt mem ps with _ | ⟨msg, ps₁⟩
        · rw [hparse] at h
          cases h
        · rw [hparse] at h
          dsimp only at h
          rcases huse : use s msg with _ | s₁
          · rw [huse] at h
            cases h
          · rw [huse] at h
            obtain ⟨hstop, hend, hversion, hp⟩ := rounds_le n h
            rcases parseAt_step hmore hparse with ⟨-, -, rfl⟩ | ⟨-, -, hle, hend₁, hversion₁⟩
            · exact ⟨hstop, hend, hversion, hp⟩
            · refine ⟨hstop, hend.trans hend₁, hversion.trans hversion₁, .inr ?_⟩
              rcases hp with hp | hp
              · rw [hp]
                exact hle
              · exact hp
      · rw [if_neg hmore] at h
        cases h
        exact ⟨by simpa using hmore, rfl, rfl, .inl rfl⟩

end MessageParser

end QuickTrace
