/-
QuickTrace.Ring.Encoding — what a trace statement leaves in memory.

`encode` is the byte string of an argument, `Hit.record` the one of a whole
message: timestamp, id, arguments and the length byte. `Writes` says that a
writer function advances the pointer over a byte string and that its stores
amount to one store of that string; it composes, and `trace_on` and
`trace_off` are the two outcomes of a trace statement that everything above
uses instead of the definitions.
-/
import QuickTrace.Ring.RingBuf

namespace QuickTrace

open QuickTrace.Lib

/-! ## Byte strings -/

/-- The characters of a string that `putWithMaxLen` copies. -/
def cut (maxLen : Nat) (x : Text) : Text := (x.takeWhile (· != 0)).take maxLen

/-- A pascal-style string. -/
def encodeString (maxLen : Nat) (x : Text) : List UInt8 :=
  UInt8.ofNat (cut maxLen x).length :: cut maxLen x

/-- The bytes of one value. -/
def Value.encode (maxLen : Nat) : Value → List UInt8
  | .char x => [x]
  | .bool x => [if x then 1 else 0]
  | .u8 x => [x]
  | .i8 x => [x.toUInt8]
  | .u16 x => leBytes 2 x.toNat
  | .i16 x => leBytes 2 x.toUInt16.toNat
  | .u32 x => leBytes 4 x.toNat
  | .i32 x => leBytes 4 x.toUInt32.toNat
  | .u64 x => leBytes 8 x.toNat
  | .i64 x => leBytes 8 x.toUInt64.toNat
  | .float bits => leBytes 4 bits.toNat
  | .double bits => leBytes 8 bits.toNat
  | .str x => encodeString maxLen x
  | .ptr x => leBytes 8 x.toNat
  | .optNone _ => [0]
  | .optSome v => 1 :: v.encode maxLen

namespace RingBuf

/-- The bytes of one argument. -/
def Arg.encode (maxLen : Nat) : Arg → List UInt8
  | .val v => v.encode maxLen
  | .longStr x => encodeString LONGSTRING_LIMIT x

/-- The static type of an argument. -/
def Arg.ty : Arg → Ty
  | .val v => v.ty
  | .longStr _ => .str

/-- The bytes of the arguments of a message. -/
def encodeArgs (maxLen : Nat) (args : List Arg) : List UInt8 :=
  args.flatMap (Arg.encode maxLen)

@[simp] theorem encodeArgs_nil (maxLen : Nat) : encodeArgs maxLen [] = [] := rfl

@[simp] theorem encodeArgs_cons (maxLen : Nat) (a : Arg) (as : List Arg) :
    encodeArgs maxLen (a :: as) = a.encode maxLen ++ encodeArgs maxLen as := rfl

end RingBuf

namespace Hit

open RingBuf

/-- The arguments of a message in the ring. -/
def argBytes (maxLen : Nat) (h : Hit) : List UInt8 := encodeArgs maxLen h.args

/-- A message without its length byte. -/
def payload (maxLen : Nat) (h : Hit) : List UInt8 :=
  leBytes 8 h.tsc.toNat ++ leBytes 4 h.id.toNat ++ h.argBytes maxLen

/-- A message in the ring. -/
def record (maxLen : Nat) (h : Hit) : List UInt8 :=
  h.payload maxLen ++ [UInt8.ofNat (h.payload maxLen).length]

/-- How many bytes the message takes. -/
def size (maxLen : Nat) (h : Hit) : Nat := 13 + (h.argBytes maxLen).length

@[simp] theorem payload_length (maxLen : Nat) (h : Hit) :
    (h.payload maxLen).length = 12 + (h.argBytes maxLen).length := by
  simp only [payload, List.length_append, leBytes_length, Nat.reduceAdd]

@[simp] theorem record_length (maxLen : Nat) (h : Hit) :
    (h.record maxLen).length = h.size maxLen := by
  simp only [record, size, List.length_append, payload_length, List.length_singleton,
    Nat.add_right_comm]

end Hit

namespace RingBuf

/-! ## Writing a byte string -/

/-- The result `r` of a writer function started at `rb` writes exactly
`bs`: behind the pointer, which moves over it. -/
structure Writes (rb : RingBuf) (r : RingBuf × List Store) (bs : List UInt8) : Prop where
  ring : r.1 = { rb with ptr := rb.ptr + bs.length }
  mem : ∀ m : Mem, m.applyAll r.2 = m.store rb.ptr bs
  within : ∀ s ∈ r.2, s.Within rb.ptr (rb.ptr + bs.length)

theorem Writes.ptr {rb : RingBuf} {r : RingBuf × List Store} {bs : List UInt8}
    (h : Writes rb r bs) : r.1.ptr = rb.ptr + bs.length := by
  rw [h.ring]

theorem Writes.nil (rb : RingBuf) : Writes rb (rb, []) [] :=
  ⟨rfl, fun m => by simp, by simp⟩

theorem Writes.push (rb : RingBuf) (bs : List UInt8) : Writes rb (rb.push bs) bs :=
  ⟨rfl, fun _ => rfl, fun s hs => by
    rw [List.mem_singleton.mp hs]; exact ⟨Nat.le_refl _, Nat.le_refl _⟩⟩

/-- One function after the other writes one string after the other. -/
theorem Writes.append {rb : RingBuf} {r q : RingBuf × List Store} {xs ys : List UInt8}
    (h1 : Writes rb r xs) (h2 : Writes r.1 q ys) :
    Writes rb (q.1, r.2 ++ q.2) (xs ++ ys) := by
  have hp := h1.ptr
  refine ⟨?_, fun m => ?_, fun s hs => ?_⟩
  · rw [h2.ring, h1.ring, List.length_append, Nat.add_assoc]
  · rw [Mem.applyAll_append, h1.mem, h2.mem, hp, Mem.store_append]
  · rw [List.length_append]
    rcases List.mem_append.mp hs with hs | hs
    · have := h1.within s hs
      exact ⟨this.1, by have := this.2; omega⟩
    · have := h2.within s hs
      rw [hp] at this
      exact ⟨by have := this.1; omega, by have := this.2; omega⟩

/-! ## The arguments -/

/-- `cut`, along the recursion of the copy loop. -/
theorem cut_cons (maxLen : Nat) (c : UInt8) (cs : Text) :
    cut (maxLen + 1) (c :: cs) = if c = 0 then [] else c :: cut maxLen cs := by
  unfold cut
  by_cases hc : c = 0
  · simp [hc]
  · simp [hc]

@[simp] theorem cut_nil (maxLen : Nat) : cut maxLen [] = [] := by simp [cut]

@[simp] theorem cut_zero (x : Text) : cut 0 x = [] := by simp [cut]

theorem cut_length_le (maxLen : Nat) (x : Text) : (cut maxLen x).length ≤ maxLen := by
  simp only [cut, List.length_take]
  omega

/-- Of a text without NUL only the length is cut. -/
theorem cut_of_ne {x : Text} (h : ∀ c ∈ x, c ≠ 0) (maxLen : Nat) :
    cut maxLen x = x.take maxLen := by
  rw [cut, takeWhile_ne_zero h]

theorem cut_length_le_length (maxLen : Nat) (x : Text) : (cut maxLen x).length ≤ x.length := by
  have hprefix := (x.takeWhile_prefix (· != 0)).length_le
  rw [cut, List.length_take]
  omega

theorem copyLoop_spec (ptr1 : Nat) : ∀ (maxLen : Nat) (x : Text) (i : Nat),
    (copyLoop ptr1 maxLen x i).1 = i + (cut maxLen x).length
      ∧ (∀ m : Mem, m.applyAll (copyLoop ptr1 maxLen x i).2 = m.store (ptr1 + i) (cut maxLen x))
      ∧ ∀ s ∈ (copyLoop ptr1 maxLen x i).2,
          s.Within (ptr1 + i) (ptr1 + i + (cut maxLen x).length)
  | 0, x, i => by simp [copyLoop]
  | maxLen + 1, [], i => by simp [copyLoop]
  | maxLen + 1, c :: cs, i => by
      rw [cut_cons, copyLoop]
      by_cases hc : c = 0
      · simp [hc]
      · obtain ⟨h1, h2, h3⟩ := copyLoop_spec ptr1 maxLen cs (i + 1)
        simp only [if_neg hc]
        refine ⟨by rw [h1, List.length_cons]; omega, fun m => ?_, fun s hs => ?_⟩
        · rw [Mem.applyAll_cons, h2]
          exact Mem.store_append m (ptr1 + i) [c] (cut maxLen cs)
        · rw [List.length_cons]
          rcases List.mem_cons.mp hs with rfl | hs
          · exact ⟨Nat.le_refl _, by simp only [List.length_singleton]; omega⟩
          · have := h3 s hs
            exact ⟨by have := this.1; omega, by have := this.2; omega⟩

theorem Writes.putWithMaxLen (rb : RingBuf) (x : Text) (maxLen : Nat) :
    Writes rb (rb.putWithMaxLen x maxLen) (encodeString maxLen x) := by
  obtain ⟨h1, h2, h3⟩ := copyLoop_spec (rb.ptr + 1) maxLen x 0
  rw [Nat.zero_add] at h1
  rw [Nat.add_zero] at h2 h3
  refine ⟨?_, fun m => ?_, fun s hs => ?_⟩
  · simp only [RingBuf.putWithMaxLen, encodeString, List.length_cons, h1]
    congr 1
    omega
  · simp only [RingBuf.putWithMaxLen, h1, Mem.applyAll_append, h2, Mem.applyAll_cons,
      Mem.applyAll_nil]
    rw [Mem.store_comm m (Or.inr (by simp))]
    exact Mem.store_append m rb.ptr [_] _
  · simp only [RingBuf.putWithMaxLen, List.mem_append, List.mem_singleton] at hs
    simp only [encodeString, List.length_cons]
    rcases hs with hs | rfl
    · have := h3 s hs
      exact ⟨by have := this.1; omega, by have := this.2; omega⟩
    · exact ⟨Nat.le_refl _, by simp only [List.length_singleton]; omega⟩

theorem Writes.put (maxLen : Nat) (v : Value) : ∀ rb : RingBuf,
    Writes rb (rb.put maxLen v) (v.encode maxLen) := by
  induction v with
  | str x => exact fun rb => Writes.putWithMaxLen rb x maxLen
  | optSome v ih => exact fun rb => (Writes.push rb [1]).append (ih _)
  | _ => exact fun rb => Writes.push rb _

theorem Writes.putArg {rb : RingBuf} (maxLen : Nat) (a : Arg) (he : rb.enabled = true) :
    Writes rb (rb.putArg maxLen a) (a.encode maxLen) := by
  unfold RingBuf.putArg
  rw [if_pos he]
  cases a with
  | val v => exact Writes.put maxLen v rb
  | longStr x => exact Writes.putWithMaxLen rb x LONGSTRING_LIMIT

/-- The arguments of an enabled message. -/
theorem Writes.putArgs (maxLen : Nat) : ∀ (args : List Arg) {rb : RingBuf},
    rb.enabled = true → Writes rb (rb.putArgs maxLen args) (encodeArgs maxLen args)
  | [], rb, _ => Writes.nil rb
  | a :: as, rb, he => by
      have h1 := Writes.putArg maxLen a he
      have he' : (rb.putArg maxLen a).1.enabled = true := by
        rw [h1.ring]; exact he
      exact h1.append (Writes.putArgs maxLen as he')

/-- A disabled message writes no argument. -/
theorem putArgs_disabled (maxLen : Nat) : ∀ (args : List Arg) {rb : RingBuf},
    rb.enabled = false → rb.putArgs maxLen args = (rb, [])
  | [], _, _ => rfl
  | a :: as, rb, he => by
      have h1 : rb.putArg maxLen a = (rb, []) := by
        simp only [RingBuf.putArg, he, Bool.false_eq_true, if_false]
      simp only [RingBuf.putArgs, h1, putArgs_disabled maxLen as he, List.append_nil]

/-! ## A whole statement -/

/-- Where the next message starts. -/
def startPos (rb : RingBuf) : Nat := if rb.bufEnd ≤ rb.ptr then rb.buf + headerSize else rb.ptr

theorem maybeWrap_ring (rb : RingBuf) : rb.maybeWrap.1 = { rb with ptr := rb.startPos } := by
  unfold maybeWrap startPos doWrap
  split <;> rfl

@[simp] theorem maybeWrap_ptr (rb : RingBuf) : rb.maybeWrap.1.ptr = rb.startPos := by
  rw [maybeWrap_ring]

theorem maybeWrap_stay {rb : RingBuf} (h : rb.ptr < rb.bufEnd) : rb.maybeWrap = (rb, []) := by
  unfold maybeWrap
  rw [if_neg (by omega)]

theorem maybeWrap_wrap {rb : RingBuf} (h : rb.bufEnd ≤ rb.ptr) :
    rb.maybeWrap.2 = [⟨rb.ptr, ones⟩, ⟨rb.buf, leBytes 4 (rb.ptr - rb.buf)⟩] := by
  unfold maybeWrap
  rw [if_pos h]
  rfl

/-- A statement whose off bit is set only wraps. -/
theorem trace_off {maxLen : Nat} {rb : RingBuf} {cs : MsgCounters} {h : Hit}
    (hoff : cs.off h.id = true) :
    rb.trace maxLen cs h
      = ({ rb with ptr := rb.startPos, msgStart := none }, cs.hit h.id h.tsc,
          rb.maybeWrap.2) := by
  unfold trace startMsg
  simp only [hoff, if_true]
  rw [putArgs_disabled maxLen h.args (by rfl)]
  simp only [endMsg, List.append_nil, maybeWrap_ring]

/-- The ring when `startMsg` has found the statement enabled. -/
def opened (rb : RingBuf) : RingBuf := { rb with ptr := rb.startPos, msgStart := some rb.startPos }

/-- The ring behind the header of an enabled message. -/
theorem startMsg_on {rb : RingBuf} {cs : MsgCounters} {tsc : UInt64} {id : UInt32}
    (hon : cs.off id = false) :
    (rb.startMsg cs tsc id).1
      = { rb with ptr := rb.startPos + 12, msgStart := some rb.startPos } := by
  unfold startMsg
  simp only [hon, Bool.false_eq_true, if_false, maybeWrap_ring, push, leBytes_length, Nat.add_assoc,
    Nat.reduceAdd]

/-- What an enabled statement puts behind the start of its message, up to
the length byte. -/
def putPayload (maxLen : Nat) (rb : RingBuf) (h : Hit) : RingBuf × List Store :=
  let t := rb.push (leBytes 8 h.tsc.toNat)
  let i := t.1.push (leBytes 4 h.id.toNat)
  let p := i.1.putArgs maxLen h.args
  (p.1, t.2 ++ i.2 ++ p.2)

theorem Writes.putPayload (maxLen : Nat) {rb : RingBuf} (h : Hit) (he : rb.enabled = true) :
    Writes rb (rb.putPayload maxLen h) (h.payload maxLen) := by
  have h1 := Writes.push rb (leBytes 8 h.tsc.toNat)
  have h2 := h1.append (Writes.push _ (leBytes 4 h.id.toNat))
  exact h2.append (Writes.putArgs maxLen h.args he)

/-- An enabled statement: a possible wrap, the payload, the end of the
message. -/
theorem trace_on {maxLen : Nat} {rb : RingBuf} {cs : MsgCounters} {h : Hit}
    (hon : cs.off h.id = false) :
    rb.trace maxLen cs h
      = ((rb.opened.putPayload maxLen h).1.endMsg.1, cs.hit h.id h.tsc,
          rb.maybeWrap.2 ++ (rb.opened.putPayload maxLen h).2
            ++ (rb.opened.putPayload maxLen h).1.endMsg.2) := by
  unfold trace startMsg
  simp only [hon, Bool.false_eq_true, if_false, maybeWrap_ring]
  simp only [putPayload, opened, push, List.append_assoc]

/-- The ring behind an enabled message. -/
def after (maxLen : Nat) (rb : RingBuf) (h : Hit) : RingBuf :=
  { rb with ptr := rb.startPos + h.size maxLen, msgStart := some rb.startPos }

theorem opened_payload (maxLen : Nat) (rb : RingBuf) (h : Hit) :
    (rb.opened.putPayload maxLen h).1
      = { rb with ptr := rb.startPos + (h.payload maxLen).length,
                  msgStart := some rb.startPos } :=
  (Writes.putPayload maxLen h (show rb.opened.enabled = true from rfl)).ring

theorem endMsg_ring (maxLen : Nat) (rb : RingBuf) (h : Hit) :
    (rb.opened.putPayload maxLen h).1.endMsg.1 = rb.after maxLen h := by
  rw [opened_payload]
  simp only [endMsg, after, Hit.payload_length, Hit.size]
  congr 1
  omega

theorem endMsg_stores (maxLen : Nat) (rb : RingBuf) (h : Hit) :
    (rb.opened.putPayload maxLen h).1.endMsg.2
      = [⟨rb.startPos + (h.payload maxLen).length,
            [UInt8.ofNat (h.payload maxLen).length]⟩,
         ⟨rb.startPos + h.size maxLen, zeros⟩] := by
  have hlen : rb.startPos + (h.payload maxLen).length + 1 = rb.startPos + h.size maxLen := by
    simp only [Hit.payload_length, Hit.size]; omega
  rw [opened_payload]
  simp only [endMsg, Nat.add_sub_cancel_left, hlen]

theorem trace_ring {maxLen : Nat} {rb : RingBuf} {cs : MsgCounters} {h : Hit}
    (hon : cs.off h.id = false) : (rb.trace maxLen cs h).1 = rb.after maxLen h := by
  rw [trace_on hon]
  exact endMsg_ring maxLen rb h

theorem trace_counters (maxLen : Nat) (rb : RingBuf) (cs : MsgCounters) (h : Hit) :
    (rb.trace maxLen cs h).2.1 = cs.hit h.id h.tsc := by
  cases hoff : cs.off h.id with
  | true => rw [trace_off hoff]
  | false => rw [trace_on hoff]

/-- The memory behind an enabled message: that of a possible wrap, with the
record and the end mark stored at the start position. -/
theorem trace_mem {maxLen : Nat} {rb : RingBuf} {cs : MsgCounters} {h : Hit}
    (hon : cs.off h.id = false) (m : Mem) :
    m.applyAll (rb.trace maxLen cs h).2.2
      = (m.applyAll rb.maybeWrap.2).store rb.startPos (h.record maxLen ++ zeros) := by
  have hw := Writes.putPayload maxLen h (show rb.opened.enabled = true from rfl)
  have hrec : rb.startPos + h.size maxLen = rb.startPos + (h.record maxLen).length := by
    rw [Hit.record_length]
  rw [trace_on hon, Mem.applyAll_append, Mem.applyAll_append, hw.mem, endMsg_stores]
  simp only [Mem.applyAll_cons, Mem.applyAll_nil]
  rw [← Mem.store_append, ← hrec, Hit.record, ← Mem.store_append]
  rfl

/-- The arguments of an enabled message stand behind its header. -/
theorem holds_args {maxLen : Nat} {rb : RingBuf} {cs : MsgCounters} {h : Hit}
    (hon : cs.off h.id = false) (m : Mem) :
    (m.applyAll (rb.trace maxLen cs h).2.2).Holds (rb.startPos + 12)
      (encodeArgs maxLen h.args) := by
  have hrecord := Mem.holds_store (m.applyAll rb.maybeWrap.2) rb.startPos
    (h.record maxLen ++ zeros)
  rw [← trace_mem hon, Mem.holds_append, Hit.record, Mem.holds_append, Hit.payload,
    Mem.holds_append, List.length_append, leBytes_length, leBytes_length] at hrecord
  exact hrecord.1.1.2

/-- Every store of an enabled message is one of the wrap or lies between its
first byte and the end of its end mark. -/
theorem trace_within {maxLen : Nat} {rb : RingBuf} {cs : MsgCounters} {h : Hit}
    (hon : cs.off h.id = false) {s : Store} (hs : s ∈ (rb.trace maxLen cs h).2.2) :
    s ∈ rb.maybeWrap.2 ∨ s.Within rb.startPos (rb.startPos + h.size maxLen + 8) := by
  have hw := Writes.putPayload maxLen h (show rb.opened.enabled = true from rfl)
  rw [trace_on hon, endMsg_stores] at hs
  simp only [List.mem_append, List.mem_cons, List.not_mem_nil, or_false] at hs
  rcases hs with (hs | hs) | rfl | rfl
  · exact Or.inl hs
  · have := hw.within s hs
    simp only [Store.Within, opened, Hit.payload_length, Hit.size] at this ⊢
    exact Or.inr ⟨this.1, by omega⟩
  · refine Or.inr ⟨by simp only; omega, ?_⟩
    simp only [Hit.payload_length, Hit.size, List.length_singleton]
    omega
  · exact Or.inr ⟨by simp only; omega, by simp [zeros]⟩

/-- Every byte of an enabled message and of its end mark is stored to: what
stands there afterwards does not depend on what stood there before. -/
theorem trace_covers {maxLen : Nat} {rb : RingBuf} {cs : MsgCounters} {h : Hit}
    (hon : cs.off h.id = false) {x : Nat} (h1 : rb.startPos ≤ x)
    (h2 : x < rb.startPos + h.size maxLen + 8) :
    ∃ s ∈ (rb.trace maxLen cs h).2.2, s.Touches x := by
  have hlen : (h.record maxLen ++ zeros).length = h.size maxLen + 8 := by
    rw [List.length_append, Hit.record_length]; rfl
  have hin : x - rb.startPos < (h.record maxLen ++ zeros).length := by omega
  have hset : ∀ m : Mem, m.applyAll (rb.trace maxLen cs h).2.2 x
      = (h.record maxLen ++ zeros)[x - rb.startPos] := fun m => by
    rw [trace_mem hon, Mem.store_in h1 hin]
  by_contra hno
  have hkeep : ∀ m : Mem, m.applyAll (rb.trace maxLen cs h).2.2 x = m x := fun m =>
    Mem.applyAll_of_untouched fun s hs ht => hno ⟨s, hs, ht⟩
  have h01 := ((hkeep fun _ => 0).symm.trans (hset _)).trans ((hset _).symm.trans (hkeep fun _ => 1))
  exact absurd h01 (by decide)

/-- The end mark of an enabled message. -/
theorem endMark_mem_trace {maxLen : Nat} {rb : RingBuf} {cs : MsgCounters} {h : Hit}
    (hon : cs.off h.id = false) :
    ⟨rb.startPos + h.size maxLen, zeros⟩ ∈ (rb.trace maxLen cs h).2.2 := by
  rw [trace_on hon, endMsg_stores]
  simp

end RingBuf

end QuickTrace
