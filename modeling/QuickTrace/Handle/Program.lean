/-
QuickTrace.Handle.Program — a program that traces into one file.

A `Statement` is what stands in the source: file and line, the text that is
streamed into the descriptor and the types of the arguments. It carries what
makes its descriptor readable. The program has a static id for each of its
statements and writes the descriptor of a statement when it first gets there,
with the id it then allocates; `qtctl` and the profiling macros write the
counters at any time.

`traced` remembers what was recorded on each level. `Ok` is the invariant of
a run: the descriptors in the file are those of the statements, each under
the id of its own (`Table`), and the levels hold what was traced. The files
that a forever log adds are another module's.
-/
import QuickTrace.Lib.Ids
import QuickTrace.Format.Spelled
import QuickTrace.Handle.ForeverLogTheorems

namespace QuickTrace

open QuickTrace.Lib RingBuf Level Printf

/-! ## Statements -/

/-- A trace statement whose descriptor fits its buffer, has a text of tokens
and the key of scalar arguments. -/
structure Statement where
  filename : Text
  lineno : Int32
  insertions : List MsgDesc.Insertion
  tokens : List Token
  types : List Ty
  key : Text
  filename_ne : filename ≠ []
  filename_graph : ∀ c ∈ filename, isspace c = false ∧ c ≠ 0
  lineno_ne : lineno.toUInt32.toNat ≠ 0
  text_eq : insertions.flatMap MsgDesc.Insertion.text = spell tokens
  tokens_ne : tokens ≠ []
  scalar : ∀ t ∈ types, t.optDepth = 0
  key_eq : MsgFormatString.ofTypes types = some key
  fits : ∀ tsc msgId, (MsgDesc.write tsc filename lineno msgId key insertions).isSome = true

namespace Statement

/-- What `finish` writes for the statement. -/
def descriptor (st : Statement) (tsc : UInt64) (msgId : UInt32) : Descriptor where
  tsc := tsc
  filename := st.filename
  lineno := st.lineno
  msgId := msgId
  insertions := st.insertions
  key := st.key
  bytes := (MsgDesc.write tsc st.filename st.lineno msgId st.key st.insertions).get
    (st.fits tsc msgId)
  filename_ne := st.filename_ne
  filename_graph := st.filename_graph
  key_ne := by
    rw [ofTypes_eq st.key_eq]
    exact joinKeys_ne_zero st.types
  written := (Option.some_get (st.fits tsc msgId)).symm

/-- A reader builds the formatter from the text and the key of the
statement. -/
structure FormatterOf (st : Statement) (mf : MessageFormatter) : Prop where
  built : ∃ reg reg', reg.Reachable
    ∧ MessageFormatter.init reg st.lineno.toUInt32.toNat (spell st.tokens) st.key = .ok (mf, reg')
  spelled : Spelled mf st.tokens st.types

theorem descriptor_message (st : Statement) (tsc : UInt64) (msgId : UInt32) :
    (st.descriptor tsc msgId).message
      = ⟨tsc, msgId, st.lineno.toUInt32, st.filename, spell st.tokens, st.key⟩ := by
  rw [← st.text_eq]
  rfl

end Statement

/-! ## The formatter of a statement -/

/-- The values of a message are all shown. -/
theorem Statement.FormatterOf.shown {st : Statement} {mf : MessageFormatter} (h : st.FormatterOf mf)
    (n : Nat) (args : List Arg) : mf.shown n args = args.map (Arg.recovered n) := by
  rw [MessageFormatter.shown, if_neg h.spelled.fits.head_ne]

/-- The table has a formatter of the statement for the message. -/
structure Means (msgs : Messages) (st : Statement) (h : Hit) : Prop where
  types : h.args.map Arg.ty = st.types
  formatter : ∃ mf, msgs h.id.toNat = some mf ∧ st.FormatterOf mf

namespace Means

variable {msgs msgs' : Messages} {st : Statement} {h : Hit} {n : Nat} {l : Line}

theorem described (hm : Means msgs st h) : Described msgs h := by
  obtain ⟨mf, hmf, hof⟩ := hm.formatter
  obtain ⟨reg, reg', hreg, hinit⟩ := hof.built
  refine ⟨reg, reg', _, _, _, mf, hreg, ?_, ?_, hinit, hmf⟩
  · rw [hm.types]
    exact st.key_eq
  · exact fun hnil => st.tokens_ne (spell_eq_nil hnil)

theorem get (hm : Means msgs st h) : ∃ mf, msgs.get h.id.toNat = some mf ∧ st.FormatterOf mf := by
  obtain ⟨mf, hmf, hof⟩ := hm.formatter
  obtain ⟨reg, reg', -, hinit⟩ := hof.built
  have hne : mf.msg.isEmpty = false := by
    rw [MessageFormatter.init_msg hinit, List.isEmpty_eq_false_iff]
    exact fun hnil => st.tokens_ne (spell_eq_nil hnil)
  exact ⟨mf, by simp [Messages.get, hmf, Option.filter, hne], hof⟩

/-- Two tables that mean the same by a message show it alike. -/
theorem shows (hm : Means msgs st h) (hm' : Means msgs' st h) (hs : Shows msgs n l h) :
    Shows msgs' n l h := by
  obtain ⟨mf, hget, hof⟩ := hm.get
  obtain ⟨mf', hget', hof'⟩ := hm'.get
  refine ⟨hs.tsc, hs.msgId, fun mf'' hmf'' => ?_⟩
  rw [hs.msgId] at hmf''
  cases hget'.symm.trans hmf''
  rw [hs.values mf (by rw [hs.msgId]; exact hget), hof.shown, hof'.shown]

end Means

namespace Program

/-! ## The program -/

/-- A statement that was recorded, when, and with which arguments. -/
structure Traced (k : Nat) where
  stmt : Fin k
  tsc : UInt64
  args : List Arg

/-- The static ids, the counter of the handle, the file with its descriptors,
and what was traced on each level. -/
structure State (k : Nat) where
  msgId : Fin k → UInt32
  nextMsgId : UInt32
  dict : DictFile
  tf : TraceFile
  traced : Fin NumTraceLevels → List (Traced k)

/-- What happens: a statement traces on the level it is given, a profiling
statement describes itself, or counters are written. -/
inductive Action (k : Nat) where
  | trace (a : Fin k) (level : Fin NumTraceLevels) (args : List Arg) (descTsc tsc : UInt64)
  | prof (a : Fin k) (descTsc : UInt64)
  | ctl (counter : Nat → MsgCounter)

variable {k : Nat} (prog : Fin k → Statement) (th : ForeverLog.TraceHandle)

/-- The message that was recorded. -/
def State.hit (s : State k) (x : Traced k) : Hit := ⟨x.tsc, s.msgId x.stmt, x.args⟩

/-- `msgIdInitialized`. -/
def State.hasMsgId (s : State k) (a : Fin k) : Bool :=
  s.msgId a != 0 && decide (s.msgId a ∈ s.dict.msgIdInitialized)

/-- A new handle and its file. -/
def start (cs : MsgCounters) : State k where
  msgId := fun _ => 0
  nextMsgId := 1
  dict := .new
  tf := TraceFile.create th.spec th.logStart cs
  traced := fun _ => []

/-- `allocateMsgId`: zero is skipped. -/
def allocateMsgId (s : State k) (a : Fin k) : State k :=
  if s.msgId a ≠ 0 then s
  else
    let nextMsgId := if s.nextMsgId = 0 then 1 else s.nextMsgId
    { s with msgId := Function.update s.msgId a nextMsgId, nextMsgId := nextMsgId + 1 }

/-- The constructor of `MsgDesc` and `finish`, with a complete write. -/
def writeMsgDesc (s : State k) (a : Fin k) (descTsc : UInt64) : State k :=
  let s := allocateMsgId s a
  let desc := (prog a).descriptor descTsc (s.msgId a)
  if h : desc.msgId.toNat < 2 ^ 31 then
    { s with dict := s.dict.finish ⟨desc, desc.bytes.length, h⟩ }
  -- `finish` does not return; fewer than `2 ^ 31 - 1` statements never get here
  else s

/-- `QTRACE_H_MSGID_INIT_FMT`. -/
def describe (s : State k) (a : Fin k) (descTsc : UInt64) : State k :=
  if s.hasMsgId a then s else writeMsgDesc prog s a descTsc

/-- `startMsg`, the arguments and `endMsg`; nothing is recorded when the
statement is off. -/
def record (s : State k) (level : Fin NumTraceLevels) (x : Traced k) : State k :=
  { s with
    tf := s.tf.trace th.n level (s.hit x)
    traced := if s.tf.cs.off (s.hit x).id then s.traced
      else Function.update s.traced level (s.traced level ++ [x]) }

/-- One action. -/
def step (s : State k) : Action k → State k
  | .trace a level args descTsc tsc =>
    record th (describe prog s a descTsc) level ⟨a, tsc, args⟩
  | .prof a descTsc => describe prog s a descTsc
  | .ctl counter => { s with tf := s.tf.step th.n (.ctl counter) }

/-- A run. -/
def run (s : State k) (as : List (Action k)) : State k := as.foldl (step prog th) s

/-- The arguments of a statement have its types. A message that is recorded
fits the trailer and is the youngest of its level. -/
structure RecordOk (s : State k) (level : Fin NumTraceLevels) (x : Traced k) : Prop where
  types : x.args.map Arg.ty = (prog x.stmt).types
  each : s.tf.cs.off (s.hit x).id = false →
    Level.RecordOk (fun _ => True) th.n (s.tf.ring level) (s.hit x)

/-- What a run has to respect. -/
def Allowed (s : State k) : List (Action k) → Prop
  | [] => True
  | a :: as =>
    (match a with
      | .trace a level args descTsc tsc =>
        RecordOk prog th (describe prog s a descTsc) level ⟨a, tsc, args⟩
      | _ => True)
      ∧ Allowed (step prog th s a) as

/-! ## The invariant -/

/-- What a reader builds from the descriptors: a formatter for each statement
that has described itself, and nothing else. -/
structure Table (s : State k) (T : MessageTable) : Prop where
  reg : T.reg.Reachable
  owned : ∀ a, s.hasMsgId a = true →
    ∃ mf, T.messages (s.msgId a).toNat = some mf ∧ (prog a).FormatterOf mf
  only : ∀ id mf, T.messages id = some mf → ∃ a, (s.msgId a).toNat = id ∧ s.hasMsgId a = true

/-- The descriptors of the file and their table. -/
def Dictionary (s : State k) : Prop :=
  ∃ (ds : List Descriptor) (T : MessageTable), s.dict.bytes = ds.flatMap Descriptor.bytes
    ∧ MessageTable.initial.addAll (ds.map Descriptor.message) = .ok T ∧ Table prog s T

/-- A recorded message is one of a statement that has described itself. -/
structure Owned (s : State k) (x : Traced k) : Prop where
  described : s.hasMsgId x.stmt = true
  types : x.args.map Arg.ty = (prog x.stmt).types

/-- The invariant of a run. -/
structure Ok (s : State k) : Prop where
  ids : Apart Finset.univ s.msgId (fun _ => ()) fun _ => s.nextMsgId
  dict : Dictionary prog s
  inv : TraceFile.AllInv th.n th.spec th.logStart s.tf
  log : ∀ i, LogOk (fun _ => True) (s.tf.ring i).log
  traced : ∀ i, (s.traced i).map s.hit = (s.tf.ring i).log.map Recorded.hit
  owned : ∀ i, ∀ x ∈ s.traced i, Owned prog s x

theorem ok_start (cs : MsgCounters) : Ok prog th (start th cs) where
  ids := Apart.start Finset.univ fun _ => ()
  dict := ⟨[], MessageTable.initial, rfl, rfl, .initial,
    fun a h => by simp [start, State.hasMsgId] at h, fun id mf h => by cases h⟩
  inv := (TraceFile.writerOk_create (P := fun _ => True) cs).inv
  log := fun i => logOk_nil _
  traced := fun i => rfl
  owned := fun i x hx => by cases hx

/-! ## Ids -/

variable {prog th} {s s' : State k} {a : Fin k}

theorem State.hasMsgId_iff :
    s.hasMsgId a = true ↔ s.msgId a ≠ 0 ∧ s.msgId a ∈ s.dict.msgIdInitialized := by
  simp [State.hasMsgId]

/-- Two statements with ids have different ones. -/
theorem id_inj (h : Apart Finset.univ s.msgId (fun _ => ()) fun _ => s.nextMsgId) {b : Fin k}
    (ha : s.msgId a ≠ 0) (hid : (s.msgId b).toNat = (s.msgId a).toNat) : b = a :=
  (h.inj a b rfl (UInt32.toNat_inj.mp hid.symm) ha).symm

/-- The descriptors are looked at with the ids alone. -/
theorem Dictionary.congr (h : Dictionary prog s) (hid : s'.msgId = s.msgId)
    (hdict : s'.dict = s.dict) : Dictionary prog s' := by
  obtain ⟨ds, T, hds, hT, htable⟩ := h
  have hhas : s'.hasMsgId = s.hasMsgId := by
    funext a
    rw [State.hasMsgId, State.hasMsgId, hid, hdict]
  refine ⟨ds, T, hdict ▸ hds, hT, htable.reg, ?_, ?_⟩
  · rw [hid, hhas]
    exact htable.owned
  · rw [hid, hhas]
    exact htable.only

/-- What `allocateMsgId` comes to: the statement has an id that nobody had,
or had one already. -/
structure Allocates (s : State k) (a : Fin k) (s' : State k) : Prop where
  ids : Apart Finset.univ s'.msgId (fun _ => ()) fun _ => s'.nextMsgId
  has : s'.msgId a ≠ 0
  keeps : ∀ b, s.msgId b ≠ 0 → s'.msgId b = s.msgId b
  others : ∀ b, b ≠ a → s'.msgId b = s.msgId b
  dict : s'.dict = s.dict
  tf : s'.tf = s.tf
  traced : s'.traced = s.traced

theorem allocateMsgId_spec (hk : k < 2 ^ 31 - 1)
    (h : Apart Finset.univ s.msgId (fun _ => ()) fun _ => s.nextMsgId) (a : Fin k) :
    Allocates s a (allocateMsgId s a) := by
  unfold allocateMsgId
  split
  · rename_i hne
    exact ⟨h, hne, fun _ _ => rfl, fun _ _ => rfl, rfl, rfl, rfl⟩
  · rename_i hz
    have hz : s.msgId a = 0 := not_not.mp hz
    have hne : s.nextMsgId ≠ 0 := h.next_ne_zero ()
    have halloc := h.alloc (by rw [Finset.card_univ, Fintype.card_fin]; exact hk)
      (Finset.mem_univ a) hz ()
    dsimp only
    rw [if_neg hne]
    refine ⟨?_, ?_, fun b hb => ?_, fun b hb => Function.update_of_ne hb .., rfl, rfl, rfl⟩
    · have hsource : Function.update (fun _ : Fin k => ()) a () = fun _ => () := rfl
      have hnext : Function.update (fun _ : Unit => s.nextMsgId) () (s.nextMsgId + 1)
          = fun _ => s.nextMsgId + 1 := by
        funext u
        exact Function.update_self ..
      rw [hsource, hnext] at halloc
      exact halloc
    · show Function.update s.msgId a s.nextMsgId a ≠ 0
      rw [Function.update_self]
      exact hne
    · refine Function.update_of_ne ?_ ..
      rintro rfl
      exact hb hz

/-! ## A descriptor is written -/

/-- Ids and descriptors stay, and nothing is recorded. -/
structure Grows (s s' : State k) : Prop where
  keeps : ∀ b, s.hasMsgId b = true → s'.msgId b = s.msgId b ∧ s'.hasMsgId b = true
  tf : s'.tf = s.tf
  traced : s'.traced = s.traced

/-- The others had described themselves before. -/
theorem hasMsgId_of_marks {s' : State k}
    (hids : Apart Finset.univ s'.msgId (fun _ => ()) fun _ => s'.nextMsgId)
    (hne : s'.msgId a ≠ 0) (hothers : ∀ b, b ≠ a → s'.msgId b = s.msgId b)
    (hmarks : s'.dict.msgIdInitialized = s'.msgId a :: s.dict.msgIdInitialized) {b : Fin k}
    (hb : s'.hasMsgId b = true) : b = a ∨ s.hasMsgId b = true := by
  by_cases hba : b = a
  · exact .inl hba
  · obtain ⟨hbne, hbmem⟩ := State.hasMsgId_iff.mp hb
    rw [hmarks, List.mem_cons] at hbmem
    rcases hbmem with heq | hbmem
    · exact absurd (id_inj hids hne (by rw [heq])) hba
    · rw [hothers b hba] at hbne hbmem
      exact .inr (State.hasMsgId_iff.mpr ⟨hbne, hbmem⟩)

variable (prog) in
/-- What `writeMsgDesc` comes to: the statement has an id as behind
`allocateMsgId`, and the file has its descriptor under it. -/
structure Writes (s : State k) (a : Fin k) (descTsc : UInt64) (s' : State k) : Prop where
  ids : Apart Finset.univ s'.msgId (fun _ => ()) fun _ => s'.nextMsgId
  has : s'.msgId a ≠ 0
  keeps : ∀ b, s.msgId b ≠ 0 → s'.msgId b = s.msgId b
  others : ∀ b, b ≠ a → s'.msgId b = s.msgId b
  marks : s'.dict.msgIdInitialized = s'.msgId a :: s.dict.msgIdInitialized
  bytes : s'.dict.bytes = s.dict.bytes ++ ((prog a).descriptor descTsc (s'.msgId a)).bytes
  tf : s'.tf = s.tf
  traced : s'.traced = s.traced

variable (prog) in
theorem writeMsgDesc_spec (hk : k < 2 ^ 31 - 1)
    (h : Apart Finset.univ s.msgId (fun _ => ()) fun _ => s.nextMsgId) (a : Fin k)
    (descTsc : UInt64) : Writes prog s a descTsc (writeMsgDesc prog s a descTsc) := by
  have hal := allocateMsgId_spec hk h a
  -- no id is negative, so `finish` returns
  have hlt : ((allocateMsgId s a).msgId a).toNat < 2 ^ 31 :=
    hal.ids.lt (by rw [Finset.card_univ, Fintype.card_fin]; exact hk) a
  have hlt' : ((prog a).descriptor descTsc ((allocateMsgId s a).msgId a)).msgId.toNat < 2 ^ 31 := hlt
  unfold writeMsgDesc
  dsimp only
  rw [dif_pos hlt']
  refine ⟨hal.ids, hal.has, hal.keeps, hal.others, ?_, ?_, hal.tf, hal.traced⟩
  · rw [← hal.dict]
    rfl
  · rw [← hal.dict]
    show _ ++ List.take _ _ = _
    rw [List.take_length]

/-- A new descriptor gives the reader the formatter of its statement. -/
theorem Table.extend {T : MessageTable} (h : Table prog s T) (ha : s.hasMsgId a = false)
    (s' : State k)
    (hids : Apart Finset.univ s'.msgId (fun _ => ()) fun _ => s'.nextMsgId)
    (hne : s'.msgId a ≠ 0) (hothers : ∀ b, b ≠ a → s'.msgId b = s.msgId b)
    (hkeeps : ∀ b, s.msgId b ≠ 0 → s'.msgId b = s.msgId b)
    (hmarks : s'.dict.msgIdInitialized = s'.msgId a :: s.dict.msgIdInitialized)
    (tsc : UInt64) :
    ∃ T', T.tryEmplace ((prog a).descriptor tsc (s'.msgId a)).message = .ok T'
      ∧ Table prog s' T' := by
  have hhas := fun b (hb : s'.hasMsgId b = true) => hasMsgId_of_marks hids hne hothers hmarks hb
  have hstays : ∀ b, s.hasMsgId b = true → s'.msgId b = s.msgId b ∧ s'.hasMsgId b = true := by
    intro b hb
    obtain ⟨hbne, hbmem⟩ := State.hasMsgId_iff.mp hb
    have heq := hkeeps b hbne
    refine ⟨heq, State.hasMsgId_iff.mpr ⟨by rw [heq]; exact hbne, ?_⟩⟩
    rw [heq, hmarks]
    exact List.mem_cons_of_mem _ hbmem
  have hnew : T.messages (s'.msgId a).toNat = none := by
    rcases hT : T.messages (s'.msgId a).toNat with _ | mf
    · rfl
    · obtain ⟨b, hid, hb⟩ := h.only _ mf hT
      have hba : b = a := id_inj hids hne (by rw [(hstays b hb).1, hid])
      rw [hba, ha] at hb
      cases hb
  have hkey := ofTypes_eq (prog a).key_eq
  obtain ⟨mf, reg', hinit, hsp⟩ :=
    init_spelled h.reg (prog a).lineno_ne (prog a).tokens (prog a).scalar
  rw [← hkey] at hinit
  have hof : (prog a).FormatterOf mf := ⟨⟨_, _, h.reg, hinit⟩, hsp⟩
  refine ⟨⟨reg', Function.update T.messages (s'.msgId a).toNat (some mf)⟩, ?_, .init h.reg hinit,
    fun b hb => ?_, fun id mf' hmf' => ?_⟩
  · rw [Statement.descriptor_message, MessageTable.tryEmplace]
    simp only [hnew, Option.isSome_none, Bool.false_eq_true, if_false, hinit]
    rfl
  · rcases hhas b hb with rfl | hb'
    · exact ⟨mf, Function.update_self .., hof⟩
    · obtain ⟨mf', hmf', hof'⟩ := h.owned b hb'
      refine ⟨mf', ?_, hof'⟩
      dsimp only
      rw [(hstays b hb').1]
      refine (Function.update_of_ne ?_ ..).trans hmf'
      rw [← (hstays b hb').1]
      intro heq
      rw [id_inj hids hne heq, ha] at hb'
      cases hb'
  · by_cases hid : id = (s'.msgId a).toNat
    · refine ⟨a, hid.symm, State.hasMsgId_iff.mpr ⟨hne, ?_⟩⟩
      rw [hmarks]
      exact List.mem_cons_self
    · have hmf' : T.messages id = some mf' := (Function.update_of_ne hid ..).symm.trans hmf'
      obtain ⟨b, hb, hhasb⟩ := h.only id mf' hmf'
      exact ⟨b, by rw [(hstays b hhasb).1, hb], (hstays b hhasb).2⟩

/-- What a statement does to a file before it traces: the file has its
descriptor, and the ones it had. -/
theorem describe_spec (hk : k < 2 ^ 31 - 1) (h : Ok prog th s) (a : Fin k) (descTsc : UInt64) :
    Grows s (describe prog s a descTsc) ∧ (describe prog s a descTsc).hasMsgId a = true
      ∧ (Apart Finset.univ (describe prog s a descTsc).msgId (fun _ => ())
          fun _ => (describe prog s a descTsc).nextMsgId)
      ∧ Dictionary prog (describe prog s a descTsc) := by
  unfold describe
  split
  · rename_i hhas
    exact ⟨⟨fun b hb => ⟨rfl, hb⟩, rfl, rfl⟩, hhas, h.ids, h.dict⟩
  · rename_i hhas
    have hhas : s.hasMsgId a = false := by simpa using hhas
    have hw := writeMsgDesc_spec prog hk h.ids a descTsc
    obtain ⟨ds, T, hds, hT, htable⟩ := h.dict
    obtain ⟨T', hT', htable'⟩ := htable.extend hhas (writeMsgDesc prog s a descTsc) hw.ids
      hw.has hw.others hw.keeps hw.marks descTsc
    refine ⟨⟨fun b hb => ?_, hw.tf, hw.traced⟩, ?_, hw.ids, ?_⟩
    · obtain ⟨hbne, hbmem⟩ := State.hasMsgId_iff.mp hb
      have heq := hw.keeps b hbne
      refine ⟨heq, State.hasMsgId_iff.mpr ⟨by rw [heq]; exact hbne, ?_⟩⟩
      rw [heq, hw.marks]
      exact List.mem_cons_of_mem _ hbmem
    · refine State.hasMsgId_iff.mpr ⟨hw.has, ?_⟩
      rw [hw.marks]
      exact List.mem_cons_self
    · refine ⟨ds ++ [(prog a).descriptor descTsc ((writeMsgDesc prog s a descTsc).msgId a)], T',
        ?_, ?_, htable'⟩
      · rw [List.flatMap_append, List.flatMap_singleton, ← hds, hw.bytes]
      · rw [List.map_append, MessageTable.addAll_append, hT, ok_bind, List.map_singleton,
          MessageTable.addAll, List.foldlM_cons]
        exact congrArg (· >>= pure) hT'

/-- The step lemma for descriptors. -/
theorem ok_describe (hk : k < 2 ^ 31 - 1) (h : Ok prog th s) (a : Fin k) (descTsc : UInt64) :
    Ok prog th (describe prog s a descTsc) := by
  obtain ⟨hg, -, hids, hdict⟩ := describe_spec hk h a descTsc
  refine ⟨hids, hdict, ?_, fun i => ?_, fun i => ?_, fun i x hx => ?_⟩
  · rw [hg.tf]
    exact h.inv
  · rw [hg.tf]
    exact h.log i
  · rw [hg.tf, hg.traced, ← h.traced i]
    refine List.map_congr_left fun x hx => ?_
    rw [State.hit, State.hit, (hg.keeps x.stmt (h.owned i x hx).described).1]
  · rw [hg.traced] at hx
    have ho := h.owned i x hx
    exact ⟨(hg.keeps x.stmt ho.described).2, ho.types⟩

/-! ## A message is recorded -/

/-- The step lemma for messages. -/
theorem ok_record (h : Ok prog th s) {level : Fin NumTraceLevels} {x : Traced k}
    (hhas : s.hasMsgId x.stmt = true) (hr : RecordOk prog th s level x) :
    Ok prog th (record th s level x) := by
  have hlog : ∀ i, ((s.tf.trace th.n level (s.hit x)).ring i).log
      = if i = level ∧ s.tf.cs.off (s.hit x).id = false
        then (s.tf.ring i).log ++ [⟨(s.tf.ring i).rb.startPos, s.hit x⟩]
        else (s.tf.ring i).log := by
    intro i
    by_cases hi : i = level
    · rw [hi, TraceFile.trace_ring_self, trace_log]
      cases hoff : s.tf.cs.off (s.hit x).id with
      | true => simp [show (s.tf.ring level).cs = s.tf.cs from rfl, hoff]
      | false => simp [show (s.tf.ring level).cs = s.tf.cs from rfl, hoff]
    · rw [TraceFile.ring_trace_ne hi, if_neg fun h' => hi h'.1]
      rfl
  have htraced : ∀ i, (record th s level x).traced i
      = if i = level ∧ s.tf.cs.off (s.hit x).id = false
        then s.traced i ++ [x] else s.traced i := by
    intro i
    unfold record
    dsimp only
    cases hoff : s.tf.cs.off (s.hit x).id with
    | true => simp
    | false =>
      by_cases hi : i = level
      · simp [hi]
      · simp [hi]
  refine ⟨h.ids, h.dict.congr rfl rfl, h.inv.trace _ fun hoff => (hr.each hoff).fits,
    fun i => ?_, fun i => ?_, fun i y hy => ?_⟩
  · show LogOk _ ((s.tf.trace th.n level (s.hit x)).ring i).log
    by_cases hi : i = level
    · rw [hi, TraceFile.trace_ring_self]
      exact logOk_trace (h.log _) hr.each
    · rw [hlog, if_neg fun h' => hi h'.1]
      exact h.log i
  · show (_ : List (Traced k)).map s.hit
      = ((s.tf.trace th.n level (s.hit x)).ring i).log.map Recorded.hit
    rw [hlog, htraced]
    split
    · rw [List.map_append, List.map_append, h.traced i]
      rfl
    · exact h.traced i
  · rw [htraced] at hy
    have hold : y ∈ s.traced i → Owned prog (record th s level x) y := fun hy =>
      ⟨(h.owned i y hy).described, (h.owned i y hy).types⟩
    split at hy
    · rcases List.mem_append.mp hy with hy | hy
      · exact hold hy
      · rw [List.mem_singleton.mp hy]
        exact ⟨hhas, hr.types⟩
    · exact hold hy

/-! ## Every run -/

/-- The run lemma. -/
theorem ok_run (hk : k < 2 ^ 31 - 1) : ∀ (as : List (Action k)) {s : State k}, Ok prog th s →
    Allowed prog th s as → Ok prog th (run prog th s as)
  | [], _, h, _ => h
  | .trace a level args descTsc tsc :: as, s, h, ha => by
      refine ok_run hk as ?_ ha.2
      exact ok_record (ok_describe hk h a descTsc) (describe_spec hk h a descTsc).2.1 ha.1
  | .prof a descTsc :: as, s, h, ha => ok_run hk as (ok_describe hk h a descTsc) ha.2
  | .ctl counter :: as, s, h, ha =>
      ok_run hk as ⟨h.ids, h.dict.congr rfl rfl, h.inv.ctl counter, h.log, h.traced, fun i x hx =>
        ⟨(h.owned i x hx).described, (h.owned i x hx).types⟩⟩ ha.2

end Program

end QuickTrace
