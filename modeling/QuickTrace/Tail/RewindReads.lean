/-
QuickTrace.Tail.RewindReads — the reads of `rewind`.

`rewindIn` is `rewind` with each byte of the level read through a window: it
stops at the first read outside. So are the functions it calls, from the
length functions of `MessageFormatter` on. What they need of the window is
said for each: the length functions only that what they measure is inside,
`nextIn` exactly `MessageInside`, and the two loops exactly that of each
round.
-/
import QuickTrace.Lib.Window
import QuickTrace.Tail.CatTermination

namespace QuickTrace

open QuickTrace.Lib

/-! ## Measuring a message -/

/-- The length functions; two of them look at a byte. -/
def Length.runIn (w : Window) (m : Mem) : Length → Nat → Except Outside Nat
  | .u8, _ => .ok 1
  | .u16, _ => .ok 2
  | .u32, _ => .ok 4
  | .u64, _ => .ok 8
  | .char, _ => .ok 1
  | .string, buf => (w.byte m buf).map fun len => 1 + len.toNat
  | .bool, _ => .ok 1
  | .float, _ => .ok 4
  | .double, _ => .ok 8
  | .wallClock, _ => .ok 16
  | .opt inner, buf => do
    let val ← w.byte m buf
    if val = 0 then .ok 1 else (inner.runIn w m (buf + 1)).map fun len => 1 + len

theorem Length.run_pos (l : Length) (m : Mem) (buf : Nat) : 0 < l.run m buf := by
  cases l with
  | string => rw [Length.run]; omega
  | opt inner => rw [Length.run]; split <;> omega
  | _ => exact Nat.succ_pos _

/-- A length function looks at nothing behind what it measures. -/
theorem Length.runIn_enough {w : Window} {m : Mem} : ∀ (l : Length) {buf : Nat}, w.lo ≤ buf →
    Enough (buf + l.run m buf ≤ w.hi) (l.run m buf) (l.runIn w m buf)
  | .u8, _, _ | .u16, _, _ | .u32, _, _ | .u64, _, _ | .char, _, _ | .bool, _, _ | .float, _, _
  | .double, _, _ | .wallClock, _, _ => .ok
  | .string, buf, hlo => by
      refine ((w.byte_needs m buf).map fun len => 1 + len.toNat).enough fun h => ⟨hlo, ?_⟩
      rw [Length.run] at h
      omega
  | .opt inner, buf, hlo => by
      have hflag : Enough (buf + (Length.opt inner).run m buf ≤ w.hi) (m buf) (w.byte m buf) := by
        refine (w.byte_needs m buf).enough fun h => ⟨hlo, ?_⟩
        have hpos := (Length.opt inner).run_pos m buf
        omega
      have hinner := runIn_enough (m := m) inner (show w.lo ≤ buf + 1 by omega)
      rw [Length.runIn]
      refine hflag.bind ?_
      rw [Length.run]
      by_cases hval : m buf = 0
      · rw [if_pos hval, if_pos hval]
        exact .ok
      · rw [if_neg hval, if_neg hval]
        exact (hinner.map fun len => 1 + len).mono (by omega)

namespace MessageFormatter

/-- The loop of `length`. -/
def lengthLoopIn (w : Window) (m : Mem) (buf : Nat) : List Length → Nat →
    Except Outside (Option Nat)
  | [], n => .ok (some n)
  | l :: ls, n => do
    let k ← l.runIn w m (buf + n)
    if k = 0 then .ok none else lengthLoopIn w m buf ls (n + k)

/-- `length`. -/
def lengthIn (mf : MessageFormatter) (w : Window) (m : Mem) (buf : Nat) :
    Except Outside (Option Nat) :=
  lengthLoopIn w m buf mf.lengths 0

/-- No length function fails. -/
theorem lengthLoop_some (m : Mem) (buf : Nat) (ls : List Length) (k : Nat) :
    ∃ n, k ≤ n ∧ lengthLoop m buf ls k = some n := by
  induction ls generalizing k with
  | nil => exact ⟨k, Nat.le_refl k, rfl⟩
  | cons l ls ih =>
    have hpos := l.run_pos m (buf + k)
    obtain ⟨n, hle, hn⟩ := ih (k + l.run m (buf + k))
    refine ⟨n, by omega, ?_⟩
    rw [lengthLoop, if_neg (by omega)]
    exact hn

/-- The loop looks at nothing behind what it has added up. -/
theorem lengthLoopIn_enough {w : Window} {m : Mem} {buf : Nat} (hlo : w.lo ≤ buf)
    (ls : List Length) {k n : Nat} (h : lengthLoop m buf ls k = some n) :
    Enough (buf + n ≤ w.hi) (some n) (lengthLoopIn w m buf ls k) := by
  induction ls generalizing k with
  | nil =>
    cases h
    exact .ok
  | cons l ls ih =>
    have hpos := l.run_pos m (buf + k)
    rw [lengthLoop, if_neg (by omega)] at h
    obtain ⟨n', hle, hn'⟩ := lengthLoop_some m buf ls (k + l.run m (buf + k))
    have hn : n' = n := Option.some.inj (hn'.symm.trans h)
    have hrun := l.runIn_enough (m := m) (show w.lo ≤ buf + k by omega)
    rw [lengthLoopIn]
    refine (hrun.mono (by omega)).bind ?_
    rw [if_neg (by omega)]
    exact ih h

theorem length_some (mf : MessageFormatter) (m : Mem) (buf : Nat) :
    ∃ n, mf.length m buf = some n :=
  (lengthLoop_some m buf mf.lengths 0).imp fun _ h => h.2

theorem lengthIn_enough {mf : MessageFormatter} {w : Window} {m : Mem} {buf n : Nat}
    (hlo : w.lo ≤ buf) (h : mf.length m buf = some n) :
    Enough (buf + n ≤ w.hi) (some n) (mf.lengthIn w m buf) :=
  lengthLoopIn_enough hlo mf.lengths h

end MessageFormatter

namespace RingBuffer

/-! ## Reading a message -/

section

variable (w : Window) (m : Mem) (msgs : Messages) (tail : Bool)

/-- `nextTsc`. -/
def nextTscIn (rb : RingBuffer) : Except Outside Nat :=
  (w.load m rb.cur 8).map fun tsc => if rb.cur = rb.start ∧ tsc < rb.lastTsc then 0 else tsc

/-- The timestamp behind a message that ends at `q`. -/
def followingTscIn (rb : RingBuffer) (q : Nat) : Except Outside (Option Nat) := do
  let nextTsc ← w.load m q 8
  if nextTsc ≠ 0 ∧ rb.end_ ≤ q then
    if nextTsc = UINT64_MAX then
      if tail then (w.load m rb.start 8).map some else .ok (some 0)
    else .ok none
  else .ok (some nextTsc)

/-- The checks on that timestamp. -/
def judgeFollowing (rb : RingBuffer) (curTsc tsc msgId : Nat) :
    Option Nat → Except CorruptionError (Option (Nat × Nat))
  | none => rb.reject ⟨msgId, .invalidNextTsc⟩
  | some nextTsc =>
    if nextTsc ≠ 0 ∧ (nextTsc < tsc ∨ curTsc < nextTsc) then
      rb.reject ⟨msgId, .invalidNextTsc⟩
    else .ok (some (tsc, msgId))

/-- The last check of `next`. -/
def checkFollowingIn (rb : RingBuffer) (curTsc tsc msgId q : Nat) :
    Except Outside (Except CorruptionError (Option (Nat × Nat))) :=
  (rb.followingTscIn w m tail q).map (rb.judgeFollowing curTsc tsc msgId)

/-- `next`. -/
def nextIn (rb : RingBuffer) (curTsc : Nat) :
    Except Outside (Except CorruptionError (Option (Nat × Nat))) := do
  let tsc ← rb.nextTscIn w m
  if tsc = 0 then .ok (.ok none)
  else if !rb.isValidTsc tsc curTsc then .ok (rb.reject ⟨0, .invalidTsc⟩)
  else
    let msgId ← w.load m (rb.cur + 8) 4
    match msgs.get msgId with
    | none => .ok (rb.reject ⟨msgId, .invalidMessageId⟩)
    | some formatter =>
      match ← formatter.lengthIn w m (rb.cur + 12) with
      | none => .ok (rb.reject ⟨msgId, .invalidParameterData⟩)
      | some length =>
        let expectedLength ← w.byte m (rb.cur + 12 + length)
        if length + 12 ≠ expectedLength.toNat then .ok (rb.reject ⟨msgId, .invalidLength⟩)
        else rb.checkFollowingIn w m tail curTsc tsc msgId (rb.cur + 13 + length)

/-- The loop of `rewind` that goes forward. -/
def forwardIn : Nat → RingBuffer → Except Outside (Option RingBuffer)
  | 0, rb => .ok (some rb)
  | fuel + 1, rb =>
    if rb.cur < rb.end_ then do
      match ← rb.nextIn w m msgs tail UINT64_MAX with
      | .error _ => .ok none
      | .ok none => .ok (some rb)
      | .ok (some (tsc, msgId)) =>
        match msgs.get msgId with
        | none => .ok none
        | some formatter =>
          match ← formatter.lengthIn w m (rb.cur + 12) with
          | none => .ok none
          | some n => forwardIn fuel { rb with cur := rb.cur + 13 + n, lastTsc := tsc }
    else .ok (some rb)

/-- The loop of `rewind` that goes backwards. -/
def walkBackIn (splitPoint : Nat) : Nat → Walk → Except Outside Walk
  | 0, k => .ok k
  | fuel + 1, k =>
    if splitPoint < k.p then do
      let len ← w.byte m (k.p - 1)
      walkBackIn splitPoint fuel
        { p := k.p - (1 + len.toNat), cur := k.p, movedBackNumMsgs := k.movedBackNumMsgs + 1 }
    else .ok k

/-- Where that loop takes the reader. -/
def land (rb : RingBuffer) (splitPoint : Nat) (k : Walk) : RingBuffer :=
  if k.p < splitPoint ∧ k.movedBackNumMsgs = 1 then { rb with cur := rb.start }
  else { rb with cur := k.cur }

/-- Where `rewind` goes when the ring has wrapped. -/
def seekIn (rb : RingBuffer) (e : Nat) : Except Outside RingBuffer :=
  let splitPoint := rb.cur + 8
  let p := rb.start - 4 + e
  if p ≤ splitPoint then .ok { rb with cur := rb.start }
  else
    (walkBackIn w m splitPoint p { p, cur := rb.cur, movedBackNumMsgs := 0 }).map
      (rb.land splitPoint)

/-- The branches of `rewind` on the tail pointer `e`. -/
def findIn (rb : RingBuffer) (e : Nat) : Except Outside (Option RingBuffer) :=
  if e = 0 then .ok (some rb)
  else do
    match ← rb.forwardIn w m msgs tail rb.end_ with
    | none => .ok none
    | some rb => (rb.seekIn w m e).map some

/-- The end of `rewind`. -/
def finishIn : Option RingBuffer → Except Outside (Option RingBuffer)
  | none => .ok none
  | some rb =>
    (w.load m rb.cur 8).map fun lastTsc => some { rb with lastTsc := lastTsc, corruption := 0 }

/-- `rewind`. -/
def rewindIn (rb : RingBuffer) : Except Outside (Option RingBuffer) := do
  let rb := { rb with corruption := corruptionThreshold }
  let e ← w.load m (rb.start - 4) 4
  finishIn w m (← rb.findIn w m msgs tail e)

end

variable {w : Window} {m : Mem} {msgs : Messages} {tail : Bool} {rb : RingBuffer}

/-- The window covers what a reader looks at in any case: the first timestamp
and, while the cursor has not come to the end, the first bytes of a message. -/
structure Covers (w : Window) (rb : RingBuffer) : Prop where
  lo : w.lo ≤ rb.start
  first : rb.start + 8 ≤ w.hi
  cur : rb.start ≤ rb.cur
  end_ : rb.end_ + 12 ≤ w.hi

/-- A message with a plausible timestamp and a known id lies in front of
`hi` as far as its length byte, and if that is right, so does the timestamp
behind it. -/
def MessageInside (m : Mem) (msgs : Messages) (hi : Nat) (rb : RingBuffer) : Prop :=
  ∀ mf length, rb.isValidTsc (rb.nextTsc m) UINT64_MAX = true →
    msgs.get (m.load (rb.cur + 8) 4) = some mf → mf.length m (rb.cur + 12) = some length →
    rb.cur + 12 + length < hi
      ∧ (length + 12 = (m (rb.cur + 12 + length)).toNat → rb.cur + 21 + length ≤ hi)

theorem nextTscIn_eq (hc : w.Has rb.cur 8) : rb.nextTscIn w m = .ok (rb.nextTsc m) :=
  ((w.load_needs m rb.cur (by decide)).map _).eq_ok hc

theorem followingTscIn_needs (hstart : w.Has rb.start 8) (q : Nat) :
    Needs (w.Has q 8) (rb.followingTsc m tail q) (rb.followingTscIn w m tail q) := by
  refine ((w.load_needs m q (k := 8) (by decide)).bind fun _ => ?_).congr (iff_of_eq (and_true _))
  unfold followingTsc
  dsimp only
  split
  · split
    · cases tail with
      | true =>
        have hload := (w.load_needs m rb.start (k := 8) (by decide)).map some
        exact hload.congr (iff_true_intro hstart)
      | false => exact .ok trivial
    · exact .ok trivial
  · exact .ok trivial

theorem checkFollowing_eq (rb : RingBuffer) (curTsc tsc msgId q : Nat) :
    rb.checkFollowing m tail curTsc tsc msgId q
      = rb.judgeFollowing curTsc tsc msgId (rb.followingTsc m tail q) := by
  unfold checkFollowing
  generalize rb.followingTsc m tail q = following
  cases following with
  | none => rfl
  | some nextTsc => rfl

theorem checkFollowingIn_needs (hstart : w.Has rb.start 8) (curTsc tsc msgId q : Nat) :
    Needs (w.Has q 8) (rb.checkFollowing m tail curTsc tsc msgId q)
      (rb.checkFollowingIn w m tail curTsc tsc msgId q) := by
  rw [checkFollowing_eq]
  exact (followingTscIn_needs hstart q).map _

/-- The last two checks: the length byte, and if it is right what follows. -/
theorem lengthByte_needs (hstart : w.Has rb.start 8) (curTsc tsc msgId n : Nat) :
    Needs (n + 12 = (m (rb.cur + 12 + n)).toNat → w.Has (rb.cur + 13 + n) 8)
      (if n + 12 ≠ (m (rb.cur + 12 + n)).toNat then rb.reject ⟨msgId, .invalidLength⟩
        else rb.checkFollowing m tail curTsc tsc msgId (rb.cur + 13 + n))
      (if n + 12 ≠ (m (rb.cur + 12 + n)).toNat then .ok (rb.reject ⟨msgId, .invalidLength⟩)
        else rb.checkFollowingIn w m tail curTsc tsc msgId (rb.cur + 13 + n)) := by
  by_cases hbyte : n + 12 = (m (rb.cur + 12 + n)).toNat
  · rw [if_neg (not_not_intro hbyte), if_neg (not_not_intro hbyte)]
    exact (checkFollowingIn_needs hstart _ _ _ _).congr ⟨fun h _ => h, fun h => h hbyte⟩
  · rw [if_pos hbyte, if_pos hbyte]
    exact .ok fun h => absurd h hbyte

/-- What is to be inside at a message that can be measured. -/
theorem messageInside_iff {mf : MessageFormatter} {n : Nat} (hlo : w.lo ≤ rb.cur)
    (hvalid : rb.isValidTsc (rb.nextTsc m) UINT64_MAX = true)
    (hget : msgs.get (m.load (rb.cur + 8) 4) = some mf)
    (hn : mf.length m (rb.cur + 12) = some n) : MessageInside m msgs w.hi rb
      ↔ w.Has (rb.cur + 12 + n) 1
        ∧ (n + 12 = (m (rb.cur + 12 + n)).toNat → w.Has (rb.cur + 13 + n) 8) := by
  constructor
  · intro h
    obtain ⟨hhi, hnext⟩ := h mf n hvalid hget hn
    refine ⟨⟨by omega, hhi⟩, fun hbyte => ⟨by omega, ?_⟩⟩
    have := hnext hbyte
    omega
  · rintro ⟨⟨-, hhi⟩, hnext⟩ mf' n' _ hmf' hn'
    cases hget.symm.trans hmf'
    cases hn.symm.trans hn'
    refine ⟨hhi, fun hbyte => ?_⟩
    have := (hnext hbyte).2
    omega

/-- What one call of `next` needs. -/
theorem nextIn_needs (hc : Covers w rb) (hcur : rb.cur < rb.end_) :
    Needs (MessageInside m msgs w.hi rb) (rb.next m msgs tail UINT64_MAX)
      (rb.nextIn w m msgs tail UINT64_MAX) := by
  obtain ⟨hlo, hfirst, hstart, hend⟩ := hc
  have htsc : rb.nextTscIn w m = .ok (rb.nextTsc m) := nextTscIn_eq ⟨by omega, by omega⟩
  have hid : w.load m (rb.cur + 8) 4 = .ok (m.load (rb.cur + 8) 4) :=
    (w.load_needs m _ (by decide)).eq_ok ⟨by omega, by omega⟩
  unfold nextIn next
  rw [htsc, ok_bind]
  dsimp only
  by_cases h0 : rb.nextTsc m = 0
  · rw [if_pos h0, if_pos h0]
    refine .ok fun mf length hvalid _ _ => ?_
    simp [isValidTsc, h0] at hvalid
  rw [if_neg h0, if_neg h0]
  by_cases hvalid : rb.isValidTsc (rb.nextTsc m) UINT64_MAX = true
  · rw [hvalid, Bool.not_true, if_neg Bool.false_ne_true, if_neg Bool.false_ne_true, hid, ok_bind]
    cases hget : msgs.get (m.load (rb.cur + 8) 4) with
    | none =>
      refine .ok fun mf length _ hmf _ => ?_
      rw [hget] at hmf
      cases hmf
    | some mf =>
      obtain ⟨n, hn⟩ := mf.length_some m (rb.cur + 12)
      have hlen := MessageFormatter.lengthIn_enough (show w.lo ≤ rb.cur + 12 by omega) hn
      dsimp only
      rw [hn]
      -- the length byte stands behind all that the length functions look at
      refine (hlen.bind_needs ((w.byte_needs m (rb.cur + 12 + n)).bind fun _ =>
        lengthByte_needs ⟨hlo, hfirst⟩ _ _ _ n) ?_).congr
          (messageInside_iff (by omega) hvalid hget hn).symm
      rintro ⟨⟨-, h⟩, -⟩
      omega
  · rw [Bool.eq_false_iff.mpr hvalid, Bool.not_false, if_pos rfl, if_pos rfl]
    exact .ok fun mf length h _ _ => absurd h hvalid

end RingBuffer

end QuickTrace
