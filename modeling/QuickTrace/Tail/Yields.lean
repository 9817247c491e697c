/-
QuickTrace.Tail.Yields — the messages of one level.

`Readable` is a message at the cursor that `dump` prints, `Yields` the
sequence of messages a level holds from the cursor on: one readable message
after the other, up to a position where `Tail::nextTsc` has nothing to choose.
What a message shows (`Printed`) does not depend on the state of the output,
because the formatters consume the same bytes and decode the same values
whatever flags the stream has (`format_reading`).
-/
import QuickTrace.Tail.RingBufferTheorems
import QuickTrace.Lib.Merge

namespace QuickTrace

open QuickTrace.Lib RingBuf

/-! ## Decoding does not depend on the stream -/

theorem Formatter.run_any (f : Formatter) (m : Mem) : ∀ buf : Nat, ∃ (k : Nat) (vs : List Piece),
    ∀ os : OStream, (f.run m buf os).1 = k ∧ (f.run m buf os).2.values = os.values ++ vs := by
  induction f with
  | u8 => exact fun buf => ⟨_, _, fun os => ⟨rfl, os.values_insert _⟩⟩
  | u16 => exact fun buf => ⟨_, _, fun os => ⟨rfl, os.values_insert _⟩⟩
  | u32 =>
    refine fun buf => ⟨4, [.num (m.load buf 4)], fun os => ⟨rfl, ?_⟩⟩
    -- the sign in front is no value
    simp only [Formatter.run]
    split <;> simp [Piece.isValue]
  | u64 => exact fun buf => ⟨_, _, fun os => ⟨rfl, os.values_insert _⟩⟩
  | char => exact fun buf => ⟨_, _, fun os => ⟨rfl, os.values_insert _⟩⟩
  | string => exact fun buf => ⟨_, _, fun os => ⟨rfl, os.values_write _⟩⟩
  | bool => exact fun buf => ⟨_, _, fun os => ⟨rfl, os.values_insert _⟩⟩
  | float => exact fun buf => ⟨_, _, fun os => ⟨rfl, os.values_insert _⟩⟩
  | double => exact fun buf => ⟨_, _, fun os => ⟨rfl, os.values_insert _⟩⟩
  | wallClockRingBuf => exact fun buf => ⟨_, [], fun os => ⟨rfl, (List.append_nil _).symm⟩⟩
  | u8Hex => exact fun buf => ⟨_, _, fun os => ⟨rfl, values_insertHex os _⟩⟩
  | u16Hex => exact fun buf => ⟨_, _, fun os => ⟨rfl, values_insertHex os _⟩⟩
  | u32Hex => exact fun buf => ⟨_, _, fun os => ⟨rfl, values_insertHex os _⟩⟩
  | u64Hex => exact fun buf => ⟨_, _, fun os => ⟨rfl, values_insertHex os _⟩⟩
  | opt inner ih =>
    intro buf
    by_cases hnone : m buf = 0
    · refine ⟨1, [.optionalNone], fun os => ?_⟩
      rw [Formatter.run, if_pos hnone]
      exact ⟨rfl, os.values_insert _⟩
    · obtain ⟨k, vs, h⟩ := ih (buf + 1)
      refine ⟨1 + k, vs, fun os => ?_⟩
      rw [Formatter.run, if_neg hnone]
      exact ⟨congrArg (1 + ·) (h os).1, (h os).2⟩

namespace MessageFormatter

theorem formatLoop_any (m : Mem) (buf : Nat) : ∀ (es : List Entry) (n : Nat),
    ∃ (r : Option Nat) (vs : List Piece), ∀ os : OStream,
      (formatLoop m buf es n os).1 = r ∧ (formatLoop m buf es n os).2.values = os.values ++ vs
  | [], n => ⟨some n, [], fun os => ⟨rfl, (List.append_nil _).symm⟩⟩
  | .formatStatic t :: es, n => by
      obtain ⟨r, vs, h⟩ := formatLoop_any m buf es n
      refine ⟨r, vs, fun os => ?_⟩
      have := h (os.insert (.text t))
      rwa [OStream.values_insert, if_neg (by simp [Piece.isValue]), List.append_nil] at this
  | .applyCFormatSpec spec :: es, n => by
      obtain ⟨r, vs, h⟩ := formatLoop_any m buf es n
      exact ⟨r, vs, fun os => h (applyCFormatSpec spec os)⟩
  | .resetCFormatSpec :: es, n => by
      obtain ⟨r, vs, h⟩ := formatLoop_any m buf es n
      exact ⟨r, vs, fun os => h (resetCFormatSpec os)⟩
  | .param f :: es, n => by
      obtain ⟨k, vs, hf⟩ := f.run_any m (buf + n)
      by_cases hk : k = 0
      · refine ⟨none, vs, fun os => ?_⟩
        simp only [formatLoop, (hf os).1, if_pos hk]
        exact ⟨trivial, (hf os).2⟩
      · obtain ⟨r, ws, h⟩ := formatLoop_any m buf es (n + k)
        refine ⟨r, vs ++ ws, fun os => ?_⟩
        simp only [formatLoop, (hf os).1, if_neg hk]
        rw [← List.append_assoc, ← (hf os).2]
        exact h _

/-- The bytes a message consumes and the values it decodes to. -/
def reading (mf : MessageFormatter) (m : Mem) (buf : Nat) : Option Nat × List Piece :=
  let r := mf.format m buf OStream.fresh
  (r.1, r.2.values)

/-- They are the same on every stream. -/
theorem format_reading (mf : MessageFormatter) (m : Mem) (buf : Nat) (os : OStream) :
    (mf.format m buf os).1 = (mf.reading m buf).1
      ∧ (mf.format m buf os).2.values = os.values ++ (mf.reading m buf).2 := by
  obtain ⟨r, vs, h⟩ := formatLoop_any m buf mf.formatters 0
  have hfresh := h OStream.fresh
  have hvs : (mf.reading m buf).2 = vs := hfresh.2
  exact ⟨(h os).1.trans hfresh.1.symm, by rw [hvs]; exact (h os).2⟩

end MessageFormatter

/-! ## One message -/

/-- What a line tells of its message. -/
structure Printed where
  tsc : Nat
  level : Nat
  msgId : Nat
  values : List Piece
  deriving DecidableEq

/-- The columns that do not depend on the lines before. -/
def Line.printed (l : Line) : Printed := ⟨l.tsc, l.level, l.msgId, l.values⟩

/-- The line shows the message. -/
structure Printed.Shows (msgs : Messages) (n : Nat) (p : Printed) (h : Hit) : Prop where
  tsc : p.tsc = h.tsc.toNat
  msgId : p.msgId = h.id.toNat
  values : ∀ mf, msgs.get p.msgId = some mf → p.values = mf.shown n h.args

theorem shows_of_printed {msgs : Messages} {n : Nat} {l : Line} {h : Hit}
    (hs : l.printed.Shows msgs n h) : Shows msgs n l h := ⟨hs.tsc, hs.msgId, hs.values⟩

namespace RingBuffer

variable {m : Mem} {msgs : Messages} {rb rb' : RingBuffer} {p : Printed}

/-- The message at the cursor is accepted and decodes to its length; `rb'` is
the reader behind it. -/
structure Readable (m : Mem) (msgs : Messages) (rb : RingBuffer) (p : Printed)
    (rb' : RingBuffer) : Prop where
  next : rb.next m msgs false UINT64_MAX = .ok (some (p.tsc, p.msgId))
  level : p.level = rb.level
  decodes : ∃ mf n, msgs.get p.msgId = some mf ∧ mf.reading m (rb.cur + 12) = (some n, p.values)
    ∧ n + 12 = (m (rb.cur + n + 12)).toNat ∧ rb' = rb.advance p.tsc n

/-- `Tail::nextTsc` has nothing to choose here. -/
def AtEnd (m : Mem) (rb : RingBuffer) : Prop := rb.nextTsc m = 0 ∨ UINT64_MAX ≤ rb.nextTsc m

instance (m : Mem) (rb : RingBuffer) : Decidable (AtEnd m rb) :=
  inferInstanceAs (Decidable (_ ∨ _))

namespace Readable

/-- What the checks of `next` say about the timestamp. -/
theorem tsc_spec (h : Readable m msgs rb p rb') :
    rb.nextTsc m = p.tsc ∧ p.tsc ≠ 0 ∧ rb.lastTsc ≤ p.tsc ∧ p.tsc < UINT64_MAX := by
  have hnext := h.next
  rcases next_cases rb m msgs false UINT64_MAX with (hnone | ⟨-, e, herr⟩) | ⟨mf, length, nt, ha⟩
  · rw [hnone] at hnext
    cases hnext
  · rw [herr] at hnext
    cases hnext
  · rw [ha.next_eq] at hnext
    simp only [Except.ok.injEq, Option.some.injEq, Prod.mk.injEq] at hnext
    have hpos := ha.pos
    have hvalid := ha.valid
    rw [hnext.1] at hpos hvalid
    simp only [isValidTsc, Bool.and_eq_true, decide_eq_true_eq] at hvalid
    exact ⟨hnext.1, hpos, hvalid.1.2, hvalid.2⟩

theorem not_atEnd (h : Readable m msgs rb p rb') : ¬ AtEnd m rb := by
  obtain ⟨htsc, hpos, -, hlt⟩ := h.tsc_spec
  unfold AtEnd
  omega

theorem lastTsc_eq (h : Readable m msgs rb p rb') : rb'.lastTsc = p.tsc := by
  obtain ⟨mf, n, -, -, -, rfl⟩ := h.decodes
  rfl

theorem level_eq (h : Readable m msgs rb p rb') : rb'.level = rb.level := by
  obtain ⟨mf, n, -, -, -, rfl⟩ := h.decodes
  rfl

/-- `dump` prints the message, whatever was printed before. -/
theorem dump_eq (h : Readable m msgs rb p rb') (out : Output) :
    ∃ l out', rb.dump m msgs false p.tsc UINT64_MAX out = (.ok (true, rb'), out')
      ∧ out'.lines = out.lines ++ [l] ∧ l.printed = p := by
  obtain ⟨mf, n, hget, hread, hbyte, rfl⟩ := h.decodes
  have hfmt := mf.format_reading m (rb.cur + 12) ⟨{ out.flags with width := 0 }, []⟩
  rw [hread] at hfmt
  unfold dump
  simp only [h.next, ne_eq, not_true_eq_false, if_false, hget, hfmt.1, ← hbyte]
  refine ⟨_, _, rfl, rfl, ?_⟩
  have hvalues : ∀ os : OStream, (rb.line out p.tsc p.msgId os).printed
      = ⟨p.tsc, rb.level, p.msgId, os.values⟩ := fun _ => rfl
  rw [hvalues, hfmt.2, ← h.level]
  rfl

/-- An intact message is readable. -/
theorem of_intact {n : Nat} (hn : n ≤ 80) {h : Hit} (hi : Intact msgs n m rb.cur h)
    (he : rb.Expects UINT64_MAX h)
    (hp : rb.Plausible m false UINT64_MAX h.tsc.toNat (rb.cur + h.size n)) :
    ∃ p, Readable m msgs rb p (rb.advance h.tsc.toNat (encodeArgs n h.args).length)
      ∧ p.Shows msgs n h := by
  obtain ⟨mf, hget, hdesc⟩ := hi.described.get
  have hread : mf.reading m (rb.cur + 12)
      = (some (encodeArgs n h.args).length, mf.shown n h.args) :=
    Prod.ext (hdesc.extent (n := n) (by omega) hi.args OStream.fresh).2
      (hdesc.values (n := n) (by omega) hi.args OStream.fresh)
  have hbyte := hi.length_byte
  rw [Nat.add_right_comm] at hbyte
  refine ⟨⟨h.tsc.toNat, rb.level, h.id.toNat, mf.shown n h.args⟩,
    ⟨next_intact hn hi he hp, rfl, mf, _, hget, hread, hbyte.symm, rfl⟩, rfl, rfl, ?_⟩
  intro mf' hmf'
  rw [hget] at hmf'
  cases hmf'
  rfl

end Readable

/-! ## A level -/

/-- The messages of a level from the cursor on. -/
inductive Yields (m : Mem) (msgs : Messages) : RingBuffer → List Printed → Prop where
  | nil {rb : RingBuffer} (h : AtEnd m rb) : Yields m msgs rb []
  | cons {rb rb' : RingBuffer} {p : Printed} {ps : List Printed}
      (h : Readable m msgs rb p rb') (hs : Yields m msgs rb' ps) : Yields m msgs rb (p :: ps)

namespace Yields

variable {ps : List Printed}

/-- The next message is the head, and there is none at the end. -/
theorem atEnd_iff (h : Yields m msgs rb ps) : AtEnd m rb ↔ ps = [] := by
  cases h with
  | nil h => exact ⟨fun _ => rfl, fun _ => h⟩
  | cons h _ => exact ⟨fun he => absurd he h.not_atEnd, fun he => by cases he⟩

theorem level_eq (h : Yields m msgs rb ps) : ∀ p ∈ ps, p.level = rb.level := by
  induction h with
  | nil _ => exact fun _ hp => by cases hp
  | cons h _ ih =>
    intro p hp
    rcases List.mem_cons.mp hp with rfl | hp
    · exact h.level
    · rw [ih p hp, h.level_eq]

/-- Nothing is older than what was read before. -/
theorem lastTsc_le (h : Yields m msgs rb ps) : ∀ p ∈ ps, rb.lastTsc ≤ p.tsc := by
  induction h with
  | nil _ => exact fun _ hp => by cases hp
  | cons h _ ih =>
    intro p hp
    have hlast := h.tsc_spec.2.2.1
    rcases List.mem_cons.mp hp with rfl | hp
    · exact hlast
    · exact Nat.le_trans hlast (h.lastTsc_eq ▸ ih p hp)

/-- The timestamps of a level do not decrease. -/
theorem sorted (h : Yields m msgs rb ps) : SortedBy Printed.tsc ps := by
  induction h with
  | nil _ => exact List.Pairwise.nil
  | cons h hs ih =>
    exact List.pairwise_cons.mpr ⟨fun p hp => h.lastTsc_eq ▸ hs.lastTsc_le p hp, ih⟩

end Yields

/-! ## Reading a level -/

/-- The message at the cursor, and the reader behind it. -/
def readNext (m : Mem) (msgs : Messages) (rb : RingBuffer) : Option (Printed × RingBuffer) :=
  match rb.next m msgs false UINT64_MAX with
  | .ok (some (tsc, msgId)) =>
    (msgs.get msgId).bind fun mf =>
      match mf.reading m (rb.cur + 12) with
      | (some n, values) =>
        if n + 12 = (m (rb.cur + n + 12)).toNat then
          some (⟨tsc, rb.level, msgId, values⟩, rb.advance tsc n)
        else none
      | (none, _) => none
  | _ => none

theorem readable_of_readNext (h : rb.readNext m msgs = some (p, rb')) :
    Readable m msgs rb p rb' := by
  unfold readNext at h
  split at h
  · rename_i tsc msgId hnext
    obtain ⟨mf, hget, h⟩ := Option.bind_eq_some_iff.mp h
    split at h
    · rename_i n values hread
      split at h
      · rename_i hbyte
        cases h
        exact ⟨hnext, rfl, mf, n, hget, hread, hbyte, rfl⟩
      · cases h
    · cases h
  · cases h

/-- The messages of a level, read one by one until its end. -/
def readLevel (m : Mem) (msgs : Messages) : Nat → RingBuffer → Option (List Printed)
  | 0, rb => if AtEnd m rb then some [] else none
  | fuel + 1, rb =>
    if AtEnd m rb then some []
    else (rb.readNext m msgs).bind fun r => (readLevel m msgs fuel r.2).map (r.1 :: ·)

theorem yields_of_readLevel : ∀ {fuel : Nat} {rb : RingBuffer} {ps : List Printed},
    rb.readLevel m msgs fuel = some ps → Yields m msgs rb ps
  | 0, rb, ps, h => by
      rw [readLevel] at h
      split at h
      · rename_i hend
        cases h
        exact .nil hend
      · cases h
  | fuel + 1, rb, ps, h => by
      rw [readLevel] at h
      split at h
      · rename_i hend
        cases h
        exact .nil hend
      · obtain ⟨⟨p, rb'⟩, hnext, h⟩ := Option.bind_eq_some_iff.mp h
        obtain ⟨qs, hqs, rfl⟩ := Option.map_eq_some_iff.mp h
        exact .cons (readable_of_readNext hnext) (yields_of_readLevel hqs)

end RingBuffer

end QuickTrace
