/-
QuickTrace.Ctl.Qtctl — switching statements on and off.

`qtctl` and the traced process share the counters of a file. A command walks
over the descriptors, sets or clears the off bit of each one it selects, and
ends; a hit keeps the bit and rewrites the rest of the word. A regular
expression is a predicate on texts. Counters are found by the id modulo their
number, which `qtctl` computes from the size of the file header.

`off_run` is the run lemma: a counter is off exactly if the last command that
selected a descriptor with this counter was `off`.
-/
import QuickTrace.Dict.MessageParser
import QuickTrace.Ring.RingBuf

namespace QuickTrace

open QuickTrace.Lib

/-! ## The file header -/

/-- `sizeof( TraceFileHeader )`. -/
def sizeofTraceFileHeader : Nat := 104

/-- `sizeof( MsgCounter )`. -/
def sizeofMsgCounter : Nat := 24

/-- `fileHeaderSize`, as the traced process writes it. -/
def fileHeaderSize (numMsgCounters : Nat) : UInt32 :=
  UInt32.ofNat (sizeofTraceFileHeader + numMsgCounters * sizeofMsgCounter)

namespace Qtctl

/-- `msgCounters`: how many counters the header makes room for. -/
def numMsgCounters (fileHeaderSize : UInt32) : Nat :=
  (fileHeaderSize.toNat - sizeofTraceFileHeader) / sizeofMsgCounter

/-- There are counters, and the size of the header fits its field. -/
structure CounterNumber (n : Nat) : Prop where
  pos : 0 < n
  fits : sizeofTraceFileHeader + n * sizeofMsgCounter < 2 ^ 32

/-- Both sides agree on the number of counters. -/
theorem numMsgCounters_fileHeaderSize {n : Nat} (hn : CounterNumber n) :
    numMsgCounters (fileHeaderSize n) = n := by
  have hfits := hn.fits
  unfold numMsgCounters fileHeaderSize
  rw [UInt32.toNat_ofNat_of_lt' hfits]
  unfold sizeofTraceFileHeader sizeofMsgCounter
  omega

/-! ## Commands -/

/-- The options of one `qtctl on` or `qtctl off`. -/
structure Command where
  on : Bool
  pattern : Option (Text → Bool)
  msgIndex : Int32

/-- The pattern matches the text of the message or the file name. -/
def matchesPattern (pattern : Option (Text → Bool)) (msg : Message) : Bool :=
  match pattern with
  | none => true
  | some regexp => regexp msg.msg || regexp msg.filename

/-- The command selects a descriptor. -/
def Command.selects (c : Command) (msg : Message) : Bool :=
  matchesPattern c.pattern msg && (c.msgIndex == -1 || c.msgIndex == msg.msgId.toInt32)

/-- The off bit, set or cleared. -/
def switchCounter (on : Bool) (mc : MsgCounter) : MsgCounter :=
  { mc with lastTsc := if on then mc.lastTsc &&& 0x7fffffff else mc.lastTsc ||| 0x80000000 }

/-- What the two programs share: the counters and the descriptors. -/
structure SharedFile where
  cs : MsgCounters
  messages : List Message

/-- One round of the loop over the descriptors. -/
def visit (c : Command) (cs : MsgCounters) (msg : Message) : MsgCounters :=
  if c.selects msg then
    let counterIndex := msg.msgId.toNat % numMsgCounters (fileHeaderSize cs.numMsgCounters)
    { cs with counter := fun i =>
        if i = counterIndex then switchCounter c.on (cs.counter i) else cs.counter i }
  else cs

/-- The loop of `main`. -/
def Command.apply (c : Command) (f : SharedFile) : SharedFile :=
  { f with cs := f.messages.foldl (visit c) f.cs }

/-- What happens to the file: a command, a hit of a statement, or a
descriptor that a statement adds. -/
inductive Event where
  | command (c : Command)
  | hit (id : UInt32) (tsc : UInt64)
  | describe (msg : Message)

namespace SharedFile

/-- A new file. -/
def fresh (n : Nat) (messages : List Message) : SharedFile := ⟨⟨n, fun _ => .zero⟩, messages⟩

/-- One event. The counters of a hit are those of `startMsg`. -/
def step (f : SharedFile) : Event → SharedFile
  | .command c => c.apply f
  | .hit id tsc => { f with cs := f.cs.hit id tsc }
  | .describe msg => { f with messages := f.messages ++ [msg] }

/-- A sequence of events. -/
def run (f : SharedFile) (es : List Event) : SharedFile := es.foldl step f

/-- The statement with this id records its messages: whatever the buffer and
the time, `startMsg` starts one. -/
def Records (f : SharedFile) (id : UInt32) : Prop :=
  ∀ (rb : RingBuf) (tsc : UInt64), (rb.startMsg f.cs tsc id).1.enabled = true

/-- The counter with this index is off. -/
def offAt (f : SharedFile) (i : Nat) : Bool := offBit (f.cs.counter i).lastTsc != 0

theorem records_iff_off (f : SharedFile) (id : UInt32) :
    f.Records id ↔ f.offAt (f.cs.index id) = false := by
  constructor
  · intro h
    by_contra hoff
    rw [Bool.not_eq_false] at hoff
    have := h ⟨0, none, 0, 0⟩ 0
    rw [RingBuf.startMsg, if_pos (show f.cs.off id = true from hoff)] at this
    cases this
  · intro hoff rb tsc
    rw [RingBuf.startMsg, if_neg (by rw [show f.cs.off id = false from hoff]; decide)]
    rfl

end SharedFile

/-! ## One event -/

theorem offBit_switch (on : Bool) (mc : MsgCounter) :
    (offBit (switchCounter on mc).lastTsc != 0) = !on := by
  unfold switchCounter offBit
  cases on with
  | true =>
    have h : mc.lastTsc &&& 0x7fffffff &&& 0x80000000 = 0 := by
      rw [UInt32.and_assoc]
      exact UInt32.and_zero
    simp [h]
  | false =>
    have hbits : ∀ a b : BitVec 32, (a ||| b) &&& b = b := by
      intro a b
      ext i hi
      rw [BitVec.getElem_and, BitVec.getElem_or]
      cases b[i] <;> simp
    have h : (mc.lastTsc ||| 0x80000000) &&& 0x80000000 = 0x80000000 :=
      UInt32.toBitVec_inj.mp (hbits _ _)
    simp [h]

/-- The index of the counter of a descriptor. -/
def counterOf (n : Nat) (msg : Message) : Nat := msg.msgId.toNat % n

/-- One round of a command changes the bit of the counter it selects. -/
theorem visit_off {n : Nat} (hn : CounterNumber n) (c : Command) {cs : MsgCounters}
    (hcs : cs.numMsgCounters = n) (msg : Message) (i : Nat) :
    (visit c cs msg).numMsgCounters = n
      ∧ (offBit ((visit c cs msg).counter i).lastTsc != 0)
          = if c.selects msg && counterOf n msg == i then !c.on
            else offBit (cs.counter i).lastTsc != 0 := by
  unfold visit
  cases hsel : c.selects msg with
  | false => exact ⟨hcs, rfl⟩
  | true =>
    refine ⟨hcs, ?_⟩
    simp only [if_true, hcs, numMsgCounters_fileHeaderSize hn, Bool.true_and, beq_iff_eq, counterOf]
    by_cases hi : msg.msgId.toNat % n = i
    · rw [if_pos hi, if_pos hi.symm]
      exact offBit_switch c.on (cs.counter i)
    · rw [if_neg hi, if_neg (Ne.symm hi)]

/-- The loop of a command, over any descriptors. -/
theorem visitAll_off {n : Nat} (hn : CounterNumber n) (c : Command) (i : Nat) :
    ∀ (msgs : List Message) {cs : MsgCounters}, cs.numMsgCounters = n →
      (msgs.foldl (visit c) cs).numMsgCounters = n
        ∧ (offBit ((msgs.foldl (visit c) cs).counter i).lastTsc != 0)
            = if msgs.any fun msg => c.selects msg && counterOf n msg == i then !c.on
              else offBit (cs.counter i).lastTsc != 0
  | [], cs, hcs => ⟨hcs, rfl⟩
  | msg :: msgs, cs, hcs => by
      obtain ⟨h1, h2⟩ := visit_off hn c hcs msg i
      obtain ⟨h3, h4⟩ := visitAll_off hn c i msgs h1
      refine ⟨h3, ?_⟩
      rw [List.foldl_cons, h4, h2, List.any_cons]
      -- the same command sets the same bit, whichever descriptor it selects
      cases c.selects msg && counterOf n msg == i with
      | true => simp
      | false => simp

/-! ## Every sequence of events -/

/-- What the last command did that selected a descriptor of this kind; the
descriptors are those in the file when the command is given. -/
def lastCommand (kind : Message → Bool) : List Message → List Event → Option Bool → Option Bool
  | _, [], last => last
  | msgs, .command c :: es, last =>
    lastCommand kind msgs es
      (if msgs.any fun msg => c.selects msg && kind msg then some c.on else last)
  | msgs, .hit _ _ :: es, last => lastCommand kind msgs es last
  | msgs, .describe msg :: es, last => lastCommand kind (msgs ++ [msg]) es last

namespace SharedFile

/-- The run lemma: a counter is off exactly if the last command that
selected a descriptor with this counter was `off`. -/
theorem off_run {n : Nat} (hn : CounterNumber n) (i : Nat) : ∀ (es : List Event)
    {f : SharedFile} {last : Option Bool}, f.cs.numMsgCounters = n →
    f.offAt i = (last == some false) →
    (f.run es).cs.numMsgCounters = n ∧ (f.run es).offAt i
      = (lastCommand (fun msg => counterOf n msg == i) f.messages es last == some false)
  | [], f, last, hf, hoff => ⟨hf, hoff⟩
  | .command c :: es, f, last, hf, hoff => by
      obtain ⟨h1, h2⟩ := visitAll_off hn c i f.messages hf
      refine off_run hn i es (f := c.apply f) h1 ?_
      refine h2.trans ?_
      cases f.messages.any fun msg => c.selects msg && counterOf n msg == i with
      | true => cases c.on <;> rfl
      | false => exact hoff
  | .hit id tsc :: es, f, last, hf, hoff => by
      refine off_run hn i es (f := f.step (.hit id tsc)) hf ?_
      rw [← hoff]
      unfold offAt step MsgCounters.hit MsgCounters.modify
      dsimp only
      split
      · rw [offBit_updateLastTsc]
      · rfl
  | .describe msg :: es, f, last, hf, hoff =>
      off_run hn i es (f := f.step (.describe msg)) hf hoff

theorem fresh_off {n : Nat} (msgs : List Message) (i : Nat) :
    (fresh n msgs).offAt i = ((none : Option Bool) == some false) := by
  have h : offBit MsgCounter.zero.lastTsc = 0 := by decide
  simp [offAt, fresh, h]

theorem records_run {n : Nat} (hn : CounterNumber n) {f : SharedFile} {last : Option Bool}
    (hf : f.cs.numMsgCounters = n) (id : UInt32) (hoff : f.offAt (id.toNat % n) = (last == some false))
    (es : List Event) :
    (f.run es).Records id
      ↔ lastCommand (fun msg => counterOf n msg == id.toNat % n) f.messages es last
          ≠ some false := by
  obtain ⟨h1, h2⟩ := off_run hn (id.toNat % n) es hf hoff
  rw [records_iff_off, MsgCounters.index, h1, h2, beq_eq_false_iff_ne]

/-- `qtctl off`. -/
def offAll : Event := .command ⟨false, none, -1⟩

/-- `qtctl on -r`. -/
def onMatching (regexp : Text → Bool) : Event := .command ⟨true, some regexp, -1⟩

/-- Everything off, then two patterns on: what is left on. -/
theorem lastCommand_two (kind : Message → Bool) {msgs : List Message} {d : Message}
    (hd : d ∈ msgs) (hkind : kind d = true) (r₁ r₂ : Text → Bool) (last : Option Bool) :
    lastCommand kind msgs [offAll, onMatching r₁, onMatching r₂] last ≠ some false
      ↔ ∃ msg ∈ msgs, kind msg = true
          ∧ (matchesPattern (some r₁) msg = true ∨ matchesPattern (some r₂) msg = true) := by
  have hall : (msgs.any fun msg => Command.selects ⟨false, none, -1⟩ msg && kind msg) = true :=
    List.any_eq_true.mpr ⟨d, hd, by simp [Command.selects, matchesPattern, hkind]⟩
  have hany : ∀ r : Text → Bool,
      (msgs.any fun msg => Command.selects ⟨true, some r, -1⟩ msg && kind msg) = true
        ↔ ∃ msg ∈ msgs, kind msg = true ∧ matchesPattern (some r) msg = true := by
    intro r
    simp only [List.any_eq_true, Command.selects, Bool.and_eq_true, beq_self_eq_true, Bool.true_or,
      and_true]
    exact ⟨fun ⟨m, hm, h1, h2⟩ => ⟨m, hm, h2, h1⟩, fun ⟨m, hm, h1, h2⟩ => ⟨m, hm, h2, h1⟩⟩
  simp only [offAll, onMatching, lastCommand, hall, if_true]
  constructor
  · intro h
    by_contra hnone
    have h1 : ¬ (msgs.any fun msg => Command.selects ⟨true, some r₁, -1⟩ msg && kind msg) = true :=
      fun hm => by
        obtain ⟨m, hm, hk, hp⟩ := (hany r₁).mp hm
        exact hnone ⟨m, hm, hk, Or.inl hp⟩
    have h2 : ¬ (msgs.any fun msg => Command.selects ⟨true, some r₂, -1⟩ msg && kind msg) = true :=
      fun hm => by
        obtain ⟨m, hm, hk, hp⟩ := (hany r₂).mp hm
        exact hnone ⟨m, hm, hk, Or.inr hp⟩
    rw [if_neg h2, if_neg h1] at h
    exact h rfl
  · rintro ⟨m, hm, hk, hp | hp⟩
    · rw [if_pos ((hany r₁).mpr ⟨m, hm, hk, hp⟩)]
      split <;> simp
    · rw [if_pos ((hany r₂).mpr ⟨m, hm, hk, hp⟩)]
      simp

/-- Statements are switched together with all that share their counter: one
records exactly if the last command that selected any descriptor whose id is
the same modulo the number of counters was `on`, or none did. So after
`off`, `on -r` and `on -r` those are on of which one matches. -/
theorem switched_by_counter {n : Nat} (hn : CounterNumber n) (msgs : List Message)
    (es : List Event) :
    (∀ id : UInt32, ((fresh n msgs).run es).Records id
      ↔ lastCommand (fun msg => counterOf n msg == id.toNat % n) msgs es none ≠ some false)
    ∧ ∀ (r₁ r₂ : Text → Bool) (d : Message), d ∈ ((fresh n msgs).run es).messages →
        (((fresh n msgs).run (es ++ [offAll, onMatching r₁, onMatching r₂])).Records d.msgId
          ↔ ∃ msg ∈ ((fresh n msgs).run es).messages, counterOf n msg = counterOf n d
              ∧ (matchesPattern (some r₁) msg = true ∨ matchesPattern (some r₂) msg = true)) := by
  refine ⟨fun id => records_run hn rfl id (fresh_off msgs _) es, fun r₁ r₂ d hd => ?_⟩
  have hf : ((fresh n msgs).run es).cs.numMsgCounters = n :=
    (off_run hn 0 es rfl (fresh_off msgs 0)).1
  have hoff : ((fresh n msgs).run es).offAt (d.msgId.toNat % n)
      = ((if ((fresh n msgs).run es).offAt (d.msgId.toNat % n) then some false else none)
          == some false) := by
    cases ((fresh n msgs).run es).offAt (d.msgId.toNat % n) <;> rfl
  have happ : (fresh n msgs).run (es ++ [offAll, onMatching r₁, onMatching r₂])
      = ((fresh n msgs).run es).run [offAll, onMatching r₁, onMatching r₂] :=
    List.foldl_append
  rw [happ, records_run hn hf d.msgId hoff, lastCommand_two _ hd (by simp [counterOf])]
  simp only [beq_iff_eq, counterOf]

/-- A descriptor with only an id. -/
def plainMessage (id : UInt32) : Message := ⟨0, id, 1, ascii ['f'], ascii ['x'], []⟩

/-- With four counters, switching message 5 off and on again leaves message 1
on. -/
theorem switched_by_counter_four :
    ((fresh 4 [plainMessage 1, plainMessage 5]).run
      [.command ⟨false, none, 5⟩, .command ⟨true, none, 5⟩]).Records 1 :=
  ((switched_by_counter ⟨by decide, by decide⟩ _ _).1 1).mpr (by decide +kernel)

/-- With four counters, `qtctl off -m 5` switches message 1 off, too, which
no command selects. -/
theorem unselected_switched_off :
    lastCommand (· == plainMessage 1) [plainMessage 1, plainMessage 5]
        [.command ⟨false, none, 5⟩] none = none
      ∧ ¬ ((fresh 4 [plainMessage 1, plainMessage 5]).run
        [.command ⟨false, none, 5⟩]).Records 1 := by
  refine ⟨by decide +kernel, fun h => ?_⟩
  have hoff := (records_iff_off _ _).mp h
  revert hoff
  decide +kernel

end SharedFile

end Qtctl

end QuickTrace
