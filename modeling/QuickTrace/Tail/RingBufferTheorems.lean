/-
QuickTrace.Tail.RingBufferTheorems — reading a message that stands in
memory.

`Intact` says that the record of a message stands at an address and that the
table has its descriptor. `next_intact` is the one place where the checks of
`next` are gone through: an intact message is accepted exactly if what
follows it is plausible. `skip_intact`, `forward_intact` and `dump_intact`
are the three ways the reader steps over it.
-/
import QuickTrace.Tail.RingBuffer
import QuickTrace.Format.RoundTrip
import QuickTrace.Ring.LevelTheorems

namespace QuickTrace

open QuickTrace.Lib RingBuf Level

/-! ## Descriptors -/

/-- The table holds the descriptor of the statement: built from a text that
is not empty and from the key of the argument types. -/
def Described (msgs : Messages) (h : Hit) : Prop :=
  ∃ (reg reg' : Registry) (lineno : Nat) (text key : Text) (mf : MessageFormatter),
    reg.Reachable ∧ MsgFormatString.ofTypes (h.args.map Arg.ty) = some key ∧ text ≠ []
      ∧ MessageFormatter.init reg lineno text key = .ok (mf, reg')
      ∧ msgs h.id.toNat = some mf

theorem MessageFormatter.init_msg {reg reg' : Registry} {lineno : Nat} {text key : Text}
    {mf : MessageFormatter} (h : init reg lineno text key = .ok (mf, reg')) : mf.msg = text := by
  unfold init at h
  obtain ⟨r, -, h⟩ := bind_eq_ok.mp h
  obtain ⟨b, -, h⟩ := bind_eq_ok.mp h
  cases h
  rfl

/-- What `get` finds for a described statement. -/
theorem Described.get {msgs : Messages} {h : Hit} (hd : Described msgs h) :
    ∃ mf, msgs.get h.id.toNat = some mf ∧ mf.Describes (h.args.map Arg.ty) := by
  obtain ⟨reg, reg', lineno, text, key, mf, hreg, hkey, htext, hinit, hmsgs⟩ := hd
  have hk := ofTypes_eq hkey
  subst hk
  refine ⟨mf, ?_, (MessageFormatter.init_sound hreg.ok hinit).2.1⟩
  have hne : mf.msg.isEmpty = false := by
    rw [MessageFormatter.init_msg hinit, List.isEmpty_eq_false_iff]
    exact htext
  simp [Messages.get, hmsgs, Option.filter, hne]

/-- A table with one descriptor, of a statement with one string. -/
def textTable : Messages := fun msgId =>
  if msgId = 1 then
    (MessageFormatter.init Registry.initial 7 (ascii ['%', 's']) (ascii ['p'])).toOption.map
      Prod.fst
  else none

theorem described_text (tsc : UInt64) {args : List Arg} (h : args.map Arg.ty = [.str]) :
    Described textTable ⟨tsc, 1, args⟩ :=
  ⟨Registry.initial, _, 7, ascii ['%', 's'], ascii ['p'], _, .initial, by rw [h]; rfl, by decide,
    rfl, rfl⟩

/-- A message of this statement whose string is empty. -/
def emptyHit (tsc : UInt64) : Hit := ⟨tsc, 1, [.val (.str [])]⟩

/-! ## The values of a line -/

/-- The values a formatter shows of a message: all but the two leading
fields of a wall-clock message. -/
def MessageFormatter.shown (mf : MessageFormatter) (n : Nat) (args : List Arg) : List Piece :=
  (if mf.formatters.head? = some (.param .wallClockRingBuf) then args.drop 2 else args).map
    (Arg.recovered n)

/-- The wall-clock formatter fits no type. -/
theorem FormattersFit.head_ne {es : List Entry} {ts : List Ty} (h : FormattersFit es ts) :
    es.head? ≠ some (.param .wallClockRingBuf) := by
  rcases es with _ | ⟨e, es⟩
  · simp
  · intro he
    simp only [List.head?_cons, Option.some.injEq] at he
    subst he
    unfold FormattersFit at h
    rw [params_param] at h
    cases h with
    | cons h1 _ => exact absurd h1 (by simp [Formatter.fits])

theorem MessageFormatter.Describes.values {mf : MessageFormatter} {n : Nat} (hn : n ≤ 255)
    {args : List Arg} (h : mf.Describes (args.map Arg.ty)) {m : Mem} {a : Nat}
    (hm : m.Holds a (encodeArgs n args)) (os : OStream) :
    (mf.format m a os).2.values = os.values ++ mf.shown n args := by
  generalize hts : args.map Arg.ty = ts at h
  cases h with
  | plain h1 h2 =>
    subst hts
    rw [shown, if_neg h1.head_ne]
    exact (formatLoop_fits hn mf.formatters args 0 os h1 hm).2
  | @wallClock t u ts es ls ht hu he h1 hl h2 =>
    rcases args with _ | ⟨x, _ | ⟨y, args⟩⟩
    · cases hts
    · cases hts
    simp only [List.map_cons, List.cons.injEq] at hts
    obtain ⟨rfl, rfl, rfl⟩ := hts
    have hx : (x.encode n).length = 8 := encode_length_of_code ht
    have hy : (y.encode n).length = 8 := encode_length_of_code hu
    have hm' : m.Holds (a + 16) (encodeArgs n args) := by
      rw [encodeArgs_cons, encodeArgs_cons, Mem.holds_append, Mem.holds_append, hx, hy] at hm
      exact hm.2.2
    have hf := (formatLoop_fits hn es args 16 os h1 hm').2
    rw [shown, if_pos (by rw [he]; rfl), format, he, formatLoop]
    simpa [Formatter.run] using hf

/-- The line shows the message. -/
structure Shows (msgs : Messages) (n : Nat) (l : Line) (h : Hit) : Prop where
  tsc : l.tsc = h.tsc.toNat
  msgId : l.msgId = h.id.toNat
  values : ∀ mf, msgs.get l.msgId = some mf → l.values = mf.shown n h.args

instance (msgs : Messages) (n : Nat) (l : Line) (h : Hit) : Decidable (Shows msgs n l h) :=
  decidable_of_iff (l.tsc = h.tsc.toNat ∧ l.msgId = h.id.toNat
      ∧ ∀ mf ∈ msgs.get l.msgId, l.values = mf.shown n h.args)
    ⟨fun ⟨h1, h2, h3⟩ => ⟨h1, h2, h3⟩, fun h => ⟨h.tsc, h.msgId, h.values⟩⟩

/-! ## The bytes of a message -/

section

variable {n : Nat} {m : Mem} {a : Nat} {h : Hit}

theorem Hit.holds_payload (hm : m.Holds a (h.record n)) : m.Holds a (h.payload n) :=
  ((Mem.holds_append _ _ _ _).mp hm).1

theorem Hit.load_tsc (hm : m.Holds a (h.record n)) : m.load a 8 = h.tsc.toNat := by
  have := Hit.holds_payload hm
  rw [Hit.payload, List.append_assoc, Mem.holds_append] at this
  exact load_word this.1 h.tsc.toNat_lt

theorem Hit.load_id (hm : m.Holds a (h.record n)) : m.load (a + 8) 4 = h.id.toNat := by
  have := Hit.holds_payload hm
  rw [Hit.payload, List.append_assoc, Mem.holds_append, Mem.holds_append, leBytes_length] at this
  exact load_word this.2.1 h.id.toNat_lt

theorem Hit.holds_args (hm : m.Holds a (h.record n)) :
    m.Holds (a + 12) (encodeArgs n h.args) := by
  have := Hit.holds_payload hm
  rw [Hit.payload, Mem.holds_append, List.length_append, leBytes_length, leBytes_length] at this
  exact this.2

/-- The length byte, as `endMsg` has stored it. -/
theorem Hit.length_byte (hm : m.Holds a (h.record n)) :
    m (a + 12 + (encodeArgs n h.args).length)
      = UInt8.ofNat (12 + (encodeArgs n h.args).length) := by
  have hbyte := ((Mem.holds_append _ _ _ _).mp hm).2.1
  rw [Hit.payload_length, ← Nat.add_assoc] at hbyte
  exact hbyte

end

/-! ## An intact message -/

/-- The record of a message stands at `a`, and its descriptor is there. -/
structure Intact (msgs : Messages) (n : Nat) (m : Mem) (a : Nat) (h : Hit) : Prop where
  bytes : m.Holds a (h.record n)
  fits : FitsTrailer n h
  described : Described msgs h

namespace Intact

variable {msgs : Messages} {n : Nat} {m : Mem} {a : Nat} {h : Hit}

theorem payload (hi : Intact msgs n m a h) : m.Holds a (h.payload n) :=
  Hit.holds_payload hi.bytes

theorem load_tsc (hi : Intact msgs n m a h) : m.load a 8 = h.tsc.toNat :=
  Hit.load_tsc hi.bytes

theorem load_id (hi : Intact msgs n m a h) : m.load (a + 8) 4 = h.id.toNat :=
  Hit.load_id hi.bytes

theorem args (hi : Intact msgs n m a h) : m.Holds (a + 12) (encodeArgs n h.args) :=
  Hit.holds_args hi.bytes

theorem argBytes_le (hi : Intact msgs n m a h) : (h.argBytes n).length ≤ 235 := by
  have := hi.fits
  unfold FitsTrailer Hit.size TrailerSize at this
  omega

/-- What the writer thinks. -/
theorem length_byte (hi : Intact msgs n m a h) :
    (m (a + 12 + (encodeArgs n h.args).length)).toNat = (encodeArgs n h.args).length + 12 := by
  have hle := hi.argBytes_le
  unfold Hit.argBytes at hle
  rw [Hit.length_byte hi.bytes, toNat_length_byte (by omega)]
  omega

theorem size_eq (n : Nat) (h : Hit) : h.size n = 13 + (encodeArgs n h.args).length := rfl

end Intact

namespace RingBuffer

variable {msgs : Messages} {n : Nat} {m : Mem} {tail : Bool} {rb : RingBuffer} {h : Hit}
  {curTsc : Nat}

/-- What a failed check comes to: no message, or, when the reader has failed
too often, corruption. -/
def NotTaken {α : Type} (rb : RingBuffer) (r : Except CorruptionError (Option α)) : Prop :=
  r = .ok none ∨ corruptionThreshold ≤ rb.corruption ∧ ∃ e, r = .error e

theorem notTaken_reject {α : Type} (rb : RingBuffer) (e : CorruptionError) :
    rb.NotTaken (rb.reject e : Except CorruptionError (Option α)) := by
  unfold reject
  split
  · exact Or.inr ⟨‹_›, e, rfl⟩
  · exact Or.inl rfl

/-- All the checks of `next`. -/
structure Accepts (rb : RingBuffer) (m : Mem) (msgs : Messages) (tail : Bool) (curTsc : Nat)
    (mf : MessageFormatter) (length nt : Nat) : Prop where
  pos : rb.nextTsc m ≠ 0
  valid : rb.isValidTsc (rb.nextTsc m) curTsc = true
  get : msgs.get (m.load (rb.cur + 8) 4) = some mf
  measured : mf.length m (rb.cur + 12) = some length
  byte : length + 12 = (m (rb.cur + 12 + length)).toNat
  following : rb.followingTsc m tail (rb.cur + 13 + length) = some nt
  range : nt = 0 ∨ rb.nextTsc m ≤ nt ∧ nt ≤ curTsc

theorem Accepts.next_eq {mf : MessageFormatter} {length nt : Nat}
    (h : rb.Accepts m msgs tail curTsc mf length nt) :
    rb.next m msgs tail curTsc = .ok (some (rb.nextTsc m, m.load (rb.cur + 8) 4)) := by
  have hrange := h.range
  unfold next
  simp only [if_neg h.pos, h.valid, Bool.not_true, Bool.false_eq_true, if_false, h.get, h.measured,
    ← h.byte, ne_eq, not_true_eq_false, checkFollowing, h.following]
  rw [if_neg (by omega)]

/-- `next` returns a message if all its checks succeed, and none if one
fails. -/
theorem next_cases (rb : RingBuffer) (m : Mem) (msgs : Messages) (tail : Bool) (curTsc : Nat) :
    rb.NotTaken (rb.next m msgs tail curTsc)
      ∨ ∃ mf length nt, rb.Accepts m msgs tail curTsc mf length nt := by
  unfold next
  dsimp only
  split
  · exact Or.inl (Or.inl rfl)
  rename_i hpos
  split
  · exact Or.inl (notTaken_reject rb _)
  rename_i hvalid
  split
  · exact Or.inl (notTaken_reject rb _)
  rename_i mf hget
  split
  · exact Or.inl (notTaken_reject rb _)
  rename_i length hlen
  split
  · exact Or.inl (notTaken_reject rb _)
  rename_i hbyte
  unfold checkFollowing
  split
  · exact Or.inl (notTaken_reject rb _)
  rename_i nt hfol
  split
  · exact Or.inl (notTaken_reject rb _)
  rename_i hnt
  refine Or.inr ⟨mf, length, nt, hpos, ?_, hget, hlen, ?_, hfol, by omega⟩
  · simpa using hvalid
  · simpa using hbyte

/-- What stands behind a message with timestamp `tsc` that ends at `q` is
what `next` expects there. -/
def Plausible (rb : RingBuffer) (m : Mem) (tail : Bool) (curTsc tsc q : Nat) : Prop :=
  ∃ nt, rb.followingTsc m tail q = some nt ∧ (nt = 0 ∨ tsc ≤ nt ∧ nt ≤ curTsc)

/-- The reader accepts timestamps from its last one on. -/
structure Expects (rb : RingBuffer) (curTsc : Nat) (h : Hit) : Prop where
  last : rb.lastTsc ≤ h.tsc.toNat
  pos : 0 < h.tsc.toNat
  past : h.tsc.toNat < curTsc

/-- A record whose length fits its length byte passes all the checks but the
last. -/
theorem Accepts.of_record {mf : MessageFormatter} {nt : Nat} (hn : n ≤ 255)
    (hm : m.Holds rb.cur (h.record n)) (hsize : 12 + (encodeArgs n h.args).length ≤ 255)
    (hget : msgs.get h.id.toNat = some mf) (hdesc : mf.Describes (h.args.map Arg.ty))
    (he : Expects rb curTsc h)
    (hfollowing : rb.followingTsc m tail (rb.cur + h.size n) = some nt)
    (hrange : nt = 0 ∨ h.tsc.toNat ≤ nt ∧ nt ≤ curTsc) :
    rb.nextTsc m = h.tsc.toNat
      ∧ rb.Accepts m msgs tail curTsc mf (encodeArgs n h.args).length nt := by
  have hlast := he.last
  have hpos := he.pos
  have hpast := he.past
  have htsc : rb.nextTsc m = h.tsc.toNat := by
    unfold nextTsc
    simp only [Hit.load_tsc hm]
    rw [if_neg (by omega)]
  have hq : rb.cur + 13 + (encodeArgs n h.args).length = rb.cur + h.size n := by
    rw [Intact.size_eq]; omega
  refine ⟨htsc, ⟨by omega, ?_, ?_, ?_, ?_, ?_, ?_⟩⟩
  · rw [htsc, isValidTsc, Bool.and_eq_true, Bool.and_eq_true]
    exact ⟨⟨decide_eq_true hpos, decide_eq_true hlast⟩, decide_eq_true hpast⟩
  · exact (congrArg msgs.get (Hit.load_id hm)).trans hget
  · exact (hdesc.extent hn (Hit.holds_args hm) OStream.fresh).1
  · rw [Hit.length_byte hm, toNat_length_byte hsize, Nat.add_comm]
  · exact (congrArg (rb.followingTsc m tail) hq).trans hfollowing
  · rw [htsc]
    exact hrange

/-- Printing a message that `next` accepts, when decoding it takes as many
bytes as measuring it. -/
theorem Accepts.dump_eq {mf : MessageFormatter} {length nt : Nat}
    (h : rb.Accepts m msgs tail curTsc mf length nt)
    (hformat : ∀ os, (mf.format m (rb.cur + 12) os).1 = some length) (out : Output) :
    ∃ l out', rb.dump m msgs tail (rb.nextTsc m) curTsc out
        = (.ok (true, rb.advance (rb.nextTsc m) length), out')
      ∧ out'.lines = out.lines ++ [l]
      ∧ l = rb.line out (rb.nextTsc m) (m.load (rb.cur + 8) 4)
          (mf.format m (rb.cur + 12) ⟨{ out.flags with width := 0 }, []⟩).2 := by
  have hcomm : rb.cur + length + 12 = rb.cur + 12 + length := by omega
  unfold dump
  simp only [h.next_eq, h.get, hformat, hcomm, ← h.byte, ne_eq, not_true_eq_false, if_false]
  exact ⟨_, _, rfl, rfl, rfl⟩

/-- The line of a described message shows its values. -/
theorem shows_line {mf : MessageFormatter} (hn : n ≤ 255) (hm : m.Holds rb.cur (h.record n))
    (hget : msgs.get h.id.toNat = some mf) (hdesc : mf.Describes (h.args.map Arg.ty))
    (out : Output) :
    Shows msgs n (rb.line out h.tsc.toNat h.id.toNat
      (mf.format m (rb.cur + 12) ⟨{ out.flags with width := 0 }, []⟩).2) h := by
  refine ⟨rfl, rfl, fun mf' hmf' => ?_⟩
  have hmf : mf' = mf := by
    simp only [line] at hmf'
    rw [hget] at hmf'
    exact (Option.some.inj hmf').symm
  subst hmf
  exact hdesc.values hn (Hit.holds_args hm) ⟨{ out.flags with width := 0 }, []⟩

theorem nextTsc_intact (hi : Intact msgs n m rb.cur h) (hl : rb.lastTsc ≤ h.tsc.toNat) :
    rb.nextTsc m = h.tsc.toNat := by
  unfold nextTsc
  simp only [hi.load_tsc]
  rw [if_neg (by omega)]

/-- The checks of `next` on an intact message come down to the last. -/
theorem next_eq (hn : n ≤ 80) (hi : Intact msgs n m rb.cur h) (he : Expects rb curTsc h) :
    rb.next m msgs tail curTsc
      = rb.checkFollowing m tail curTsc h.tsc.toNat h.id.toNat (rb.cur + h.size n) := by
  have htsc := nextTsc_intact hi he.last
  have hvalid : rb.isValidTsc h.tsc.toNat curTsc = true := by
    have h1 := he.last
    have h2 := he.pos
    have h3 := he.past
    simp only [isValidTsc, Bool.and_eq_true, decide_eq_true_eq]
    exact ⟨⟨h2, h1⟩, h3⟩
  have hne : h.tsc.toNat ≠ 0 := by have := he.pos; omega
  obtain ⟨mf, hget, hdesc⟩ := hi.described.get
  have hext := (hdesc.extent (n := n) (by omega) hi.args OStream.fresh).1
  have hbyte := hi.length_byte
  have hq : rb.cur + 13 + (encodeArgs n h.args).length = rb.cur + h.size n := by
    rw [Intact.size_eq]; omega
  unfold next
  simp only [htsc, hvalid, if_neg hne, Bool.not_true, Bool.false_eq_true, if_false, hi.load_id,
    hget, hext, hbyte, ne_eq, not_true_eq_false, hq]

theorem next_intact (hn : n ≤ 80) (hi : Intact msgs n m rb.cur h) (he : Expects rb curTsc h)
    (hp : Plausible rb m tail curTsc h.tsc.toNat (rb.cur + h.size n)) :
    rb.next m msgs tail curTsc = .ok (some (h.tsc.toNat, h.id.toNat)) := by
  obtain ⟨nt, hnt, hrange⟩ := hp
  rw [next_eq hn hi he, checkFollowing, hnt]
  simp only
  rw [if_neg (by omega)]

theorem length_intact (hn : n ≤ 80) (hi : Intact msgs n m rb.cur h) :
    ((msgs.get h.id.toNat).bind fun f => f.length m (rb.cur + 12))
      = some (encodeArgs n h.args).length := by
  obtain ⟨mf, hget, hdesc⟩ := hi.described.get
  rw [hget]
  exact (hdesc.extent (n := n) (by omega) hi.args OStream.fresh).1

/-- The reader behind a message it has skipped. -/
def past (rb : RingBuffer) (n : Nat) (h : Hit) : RingBuffer :=
  { rb with cur := rb.cur + h.size n, lastTsc := h.tsc.toNat }

theorem skip_intact (hn : n ≤ 80) (hi : Intact msgs n m rb.cur h)
    (he : Expects rb UINT64_MAX h)
    (hp : Plausible rb m tail UINT64_MAX h.tsc.toNat (rb.cur + h.size n)) :
    rb.skip m msgs tail = .ok (some (rb.past n h)) := by
  have hq : rb.cur + 13 + (encodeArgs n h.args).length = rb.cur + h.size n := by
    rw [Intact.size_eq]; omega
  unfold skip
  simp only [next_intact hn hi he hp, bind, Except.bind, length_intact hn hi, hq]
  rfl

theorem forward_intact (hn : n ≤ 80) (hi : Intact msgs n m rb.cur h)
    (he : Expects rb UINT64_MAX h)
    (hp : Plausible rb m tail UINT64_MAX h.tsc.toNat (rb.cur + h.size n))
    (hlt : rb.cur < rb.end_) (fuel : Nat) :
    rb.forward m msgs tail (fuel + 1) = (rb.past n h).forward m msgs tail fuel := by
  have hq : rb.cur + 13 + (encodeArgs n h.args).length = rb.cur + h.size n := by
    rw [Intact.size_eq]; omega
  rw [forward, if_pos hlt]
  simp only [next_intact hn hi he hp, length_intact hn hi, hq]
  rfl

/-- Printing an intact message adds one line that shows it. -/
theorem dump_intact (hn : n ≤ 80) (hi : Intact msgs n m rb.cur h) (he : Expects rb curTsc h)
    (hp : Plausible rb m tail curTsc h.tsc.toNat (rb.cur + h.size n)) (out : Output) :
    ∃ l out', rb.dump m msgs tail h.tsc.toNat curTsc out
        = (.ok (true, rb.advance h.tsc.toNat (encodeArgs n h.args).length), out')
      ∧ out'.lines = out.lines ++ [l] ∧ Shows msgs n l h ∧ l.level = rb.level := by
  obtain ⟨mf, hget, hdesc⟩ := hi.described.get
  obtain ⟨nt, hnt, hrange⟩ := hp
  have hle := hi.argBytes_le
  unfold Hit.argBytes at hle
  obtain ⟨htsc, ha⟩ := Accepts.of_record (by omega) hi.bytes (by omega) hget hdesc he hnt hrange
  obtain ⟨l, out', hdump, hlines, hl⟩ := ha.dump_eq
    (fun os => (hdesc.extent (n := n) (by omega) hi.args os).2) out
  rw [htsc] at hdump hl
  rw [hi.load_id] at hl
  refine ⟨l, out', hdump, hlines, ?_, by rw [hl]; rfl⟩
  rw [hl]
  exact shows_line (by omega) hi.bytes hget hdesc out

/-! ## Any bytes at all -/

/-- What the checks of `next` imply for a message that stands at the
cursor. -/
theorem Accepts.of_intact {mf : MessageFormatter} {length nt : Nat}
    (ha : rb.Accepts m msgs tail curTsc mf length nt) (hn : n ≤ 80)
    (hi : Intact msgs n m rb.cur h) : rb.nextTsc m = h.tsc.toNat ∧ Expects rb curTsc h
      ∧ Plausible rb m tail curTsc h.tsc.toNat (rb.cur + h.size n) := by
  have htsc : rb.nextTsc m = h.tsc.toNat := by
    have hpos := ha.pos
    unfold nextTsc at hpos ⊢
    simp only [hi.load_tsc] at hpos ⊢
    split at hpos
    · exact absurd rfl hpos
    · rw [if_neg (by assumption)]
  have hvalid := ha.valid
  rw [htsc, isValidTsc, Bool.and_eq_true, Bool.and_eq_true, decide_eq_true_eq, decide_eq_true_eq,
    decide_eq_true_eq] at hvalid
  obtain ⟨mf', hget, hdesc⟩ := hi.described.get
  have hmf : mf' = mf := by
    have := ha.get
    rw [hi.load_id, hget, Option.some.injEq] at this
    exact this
  subst hmf
  have hlen : length = (encodeArgs n h.args).length := by
    have := ha.measured
    rw [(hdesc.extent (n := n) (by omega) hi.args OStream.fresh).1, Option.some.injEq] at this
    exact this.symm
  have hq : rb.cur + 13 + length = rb.cur + h.size n := by
    rw [hlen, Intact.size_eq]; omega
  refine ⟨htsc, ⟨hvalid.1.2, hvalid.1.1, hvalid.2⟩, nt, ?_, ?_⟩
  · rw [← hq]; exact ha.following
  · rw [← htsc]; exact ha.range

/-- What a call of `dump` comes to, whatever stands at the cursor: nothing is
printed, or the checks of `next` have succeeded and there is one more line,
which is also there when the call fails afterwards. -/
inductive Dumped (rb : RingBuffer) (m : Mem) (msgs : Messages) (tail : Bool)
    (orderTsc curTsc : Nat) (out : Output) :
    Except CorruptionError (Bool × RingBuffer) × Output → Prop where
  | waits (ok : Bool) :
      Dumped rb m msgs tail orderTsc curTsc out
        (.ok (ok, { rb with corruption := rb.corruption + 1 }), out)
  | fails (e : CorruptionError) : Dumped rb m msgs tail orderTsc curTsc out (.error e, out)
  | printed {mf : MessageFormatter} {length nt : Nat} (n : Nat) (l : Line) (out' : Output)
      (ha : rb.Accepts m msgs tail curTsc mf length nt) (ho : orderTsc = rb.nextTsc m)
      (hl : out'.lines = out.lines ++ [l]) :
      Dumped rb m msgs tail orderTsc curTsc out
        (.ok (true, rb.advance (rb.nextTsc m) n), out')
  | broken {mf : MessageFormatter} {length nt : Nat} (e : CorruptionError) (l : Line)
      (out' : Output) (ha : rb.Accepts m msgs tail curTsc mf length nt)
      (ho : orderTsc = rb.nextTsc m) (hl : out'.lines = out.lines ++ [l]) :
      Dumped rb m msgs tail orderTsc curTsc out (.error e, out')

theorem dump_cases (rb : RingBuffer) (m : Mem) (msgs : Messages) (tail : Bool)
    (orderTsc curTsc : Nat) (out : Output) :
    Dumped rb m msgs tail orderTsc curTsc out (rb.dump m msgs tail orderTsc curTsc out) := by
  unfold dump
  rcases next_cases rb m msgs tail curTsc with hnot | ⟨mf, length, nt, ha⟩
  · rcases hnot with hnone | ⟨-, e, herr⟩
    · simp only [hnone]
      exact .waits false
    · simp only [herr]
      exact .fails e
  · simp only [ha.next_eq, ha.get]
    split
    · exact .waits true
    rename_i ho
    have ho : orderTsc = rb.nextTsc m := by omega
    split
    · exact .broken _ _ _ ha ho rfl
    · split
      · exact .broken _ _ _ ha ho rfl
      · exact .printed _ _ _ ha ho rfl

end RingBuffer

end QuickTrace
