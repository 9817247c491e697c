/-
QuickTrace.Handle.Tailable — a program whose file is tailed.

The dictionary of the file grows while qttail reads it: a statement writes its
descriptor when it is first reached, and qttail parses what is new when it
meets an id it does not know. `Descriptors` says what is in the dictionary,
`Stored` how much of it the class `Messages` has parsed. `Stored.get` is the
look-up: whatever was parsed before, it finds what a table of the whole
dictionary has.

`Permitted` says what such a program may do. A statement that is off must not
wrap its level: the last message before such a wrap is not recognised until
another one is recorded.
-/
import QuickTrace.Handle.Program
import QuickTrace.Tail.Lookup
import QuickTrace.Tail.Unseen

namespace QuickTrace

open QuickTrace.Lib RingBuf Level Printf
open ForeverLog.TraceHandle (mapped_length)

namespace Program

variable {k : Nat} (prog : Fin k → Statement) (th : ForeverLog.TraceHandle)

/-! ## The program -/

/-- What a statement may record: a message fits and is the youngest of all
levels, and a statement that is off finds room. -/
structure Recordable (s : State k) (level : Fin NumTraceLevels) (x : Traced k) : Prop where
  types : x.args.map Arg.ty = (prog x.stmt).types
  on : s.tf.cs.off (s.hit x).id = false → TraceFile.WriteOk (fun _ => True) th.n s.tf (s.hit x)
  off : s.tf.cs.off (s.hit x).id = true →
    (s.tf.ring level).rb.ptr < (s.tf.ring level).rb.bufEnd

/-- How much a dictionary may grow in the mapping of a reader. -/
def dictRoom : Nat := 128 * 1024

/-- What the program may do. -/
def Permitted (s : State k) (a : Action k) : Prop :=
  (step prog th s a).dict.bytes.length ≤ dictRoom
    ∧ match a with
      | .trace a level args descTsc tsc =>
        Recordable prog th (describe prog s a descTsc) level ⟨a, tsc, args⟩
      | _ => True

/-- The states after any number of actions. -/
def Runs : State k → State k → Prop :=
  Relation.ReflTransGen fun s s' => ∃ a, Permitted prog th s a ∧ s' = step prog th s a

/-- The descriptors in the file: each is one of a statement, with its id, and
no statement that has described itself is missing. -/
structure Descriptors (s : State k) (ds : List Descriptor) : Prop where
  bytes : s.dict.bytes = Mapping.bytesOf ds
  of : ∀ d ∈ ds, ∃ a tsc, s.hasMsgId a = true ∧ d = (prog a).descriptor tsc (s.msgId a)
  all : ∀ a, s.hasMsgId a = true → ∃ d ∈ ds, d.msgId = s.msgId a

/-- The invariant of a run. -/
structure Tailable (s : State k) : Prop where
  ok : Ok prog th s
  started : ∀ i, (s.tf.ring i).cur = [] → (s.tf.ring i).log = []
  room : s.dict.bytes.length ≤ dictRoom

/-- What an action leaves of the state before: ids, descriptors and what was
traced. -/
structure Extends (s s' : State k) : Prop where
  keeps : ∀ b, s.hasMsgId b = true → s'.msgId b = s.msgId b ∧ s'.hasMsgId b = true
  traced : ∀ i, s.traced i <+: s'.traced i

variable {prog th} {s s' : State k} {a : Fin k} {x : Traced k} {ds : List Descriptor}

theorem Tailable.writer (h : Tailable prog th s) :
    TraceFile.WriterOk (fun _ => True) th.n th.spec th.logStart s.tf :=
  ⟨h.ok.inv, h.ok.log, h.started⟩

/-- A message is of the same statement ever after. -/
theorem Extends.owned (h : Extends s s') (ho : Owned prog s x) :
    s'.hit x = s.hit x ∧ Owned prog s' x := by
  obtain ⟨hid, hhas⟩ := h.keeps x.stmt ho.described
  exact ⟨by rw [State.hit, State.hit, hid], hhas, ho.types⟩

theorem tailable_start (cs : MsgCounters) : Tailable prog th (start th cs) where
  ok := ok_start prog th cs
  started := fun _ _ => rfl
  room := Nat.zero_le _

theorem descriptors_start (cs : MsgCounters) : Descriptors prog (start th cs) [] where
  bytes := rfl
  of := fun d hd => by cases hd
  all := fun a ha => by simp [start, State.hasMsgId] at ha

theorem Descriptors.congr (h : Descriptors prog s ds) (hid : s'.msgId = s.msgId)
    (hdict : s'.dict = s.dict) : Descriptors prog s' ds := by
  have hhas : s'.hasMsgId = s.hasMsgId := by
    funext a
    rw [State.hasMsgId, State.hasMsgId, hid, hdict]
  refine ⟨hdict ▸ h.bytes, ?_, ?_⟩
  · rw [hid, hhas]
    exact h.of
  · rw [hid, hhas]
    exact h.all

/-- A statement that describes itself appends its descriptor. -/
theorem descriptors_describe (hk : k < 2 ^ 31 - 1) (h : Ok prog th s)
    (hds : Descriptors prog s ds) (a : Fin k) (descTsc : UInt64) :
    ∃ new, Descriptors prog (describe prog s a descTsc) (ds ++ new) := by
  have hg := (describe_spec hk h a descTsc).1
  unfold describe at hg ⊢
  split
  · exact ⟨[], by rwa [List.append_nil]⟩
  · rename_i hhas
    rw [if_neg hhas] at hg
    have hw := writeMsgDesc_spec prog hk h.ids a descTsc
    have hself : (writeMsgDesc prog s a descTsc).hasMsgId a = true := by
      refine State.hasMsgId_iff.mpr ⟨hw.has, ?_⟩
      rw [hw.marks]
      exact List.mem_cons_self
    refine ⟨[(prog a).descriptor descTsc ((writeMsgDesc prog s a descTsc).msgId a)], ?_,
      fun d hd => ?_, fun b hb => ?_⟩
    · rw [Mapping.bytesOf, List.flatMap_append, List.flatMap_singleton, ← Mapping.bytesOf,
        ← hds.bytes, hw.bytes]
    · rcases List.mem_append.mp hd with hd | hd
      · obtain ⟨b, tsc, hb, rfl⟩ := hds.of d hd
        obtain ⟨hid, hb'⟩ := hg.keeps b hb
        exact ⟨b, tsc, hb', by rw [hid]⟩
      · exact ⟨a, descTsc, hself, List.mem_singleton.mp hd⟩
    · rcases hasMsgId_of_marks hw.ids hw.has hw.others hw.marks hb with rfl | hold
      · exact ⟨_, List.mem_append_right _ (List.mem_singleton_self _), rfl⟩
      · obtain ⟨d, hd, hid⟩ := hds.all b hold
        exact ⟨d, List.mem_append_left _ hd, by rw [hid, (hg.keeps b hold).1]⟩

/-- A statement that was reached has described itself before it records. -/
theorem tailable_describe (hk : k < 2 ^ 31 - 1) (h : Tailable prog th s) (a : Fin k)
    (descTsc : UInt64) (hroom : (describe prog s a descTsc).dict.bytes.length ≤ dictRoom) :
    Tailable prog th (describe prog s a descTsc) := by
  refine ⟨ok_describe hk h.ok a descTsc, ?_, hroom⟩
  rw [(describe_spec hk h.ok a descTsc).1.tf]
  exact h.started

theorem tailable_record (h : Tailable prog th s) {level : Fin NumTraceLevels}
    (hhas : s.hasMsgId x.stmt = true) (hr : Recordable prog th s level x) :
    Tailable prog th (record th s level x) := by
  refine ⟨ok_record h.ok hhas ⟨hr.types, fun hoff => ?_⟩, ?_, h.room⟩
  · have ho := hr.on hoff
    exact ⟨ho.fits, ho.later level, ho.pos, ho.small, trivial⟩
  · show ∀ i, ((s.tf.trace th.n level (s.hit x)).ring i).cur = []
      → ((s.tf.trace th.n level (s.hit x)).ring i).log = []
    cases hoff : s.tf.cs.off (s.hit x).id with
    | false => exact (TraceFile.writerOk_trace h.writer level (hr.on hoff)).started
    | true => exact (h.writer.idle (TraceFile.idle_trace hoff (hr.off hoff))).started

/-- The step lemma. -/
theorem tailable_step (hk : k < 2 ^ 31 - 1) (h : Tailable prog th s) {a : Action k}
    (ha : Permitted prog th s a) : Tailable prog th (step prog th s a) := by
  obtain ⟨hroom, ha⟩ := ha
  cases a with
  | trace a level args descTsc tsc =>
    exact tailable_record (tailable_describe hk h a descTsc hroom)
      (describe_spec hk h.ok a descTsc).2.1 ha
  | prof a descTsc => exact tailable_describe hk h a descTsc hroom
  | ctl counter =>
    refine ⟨⟨h.ok.ids, h.ok.dict.congr rfl rfl, h.ok.inv.ctl counter, h.ok.log, h.ok.traced,
      fun i x hx => ?_⟩, h.started, h.room⟩
    exact ⟨(h.ok.owned i x hx).described, (h.ok.owned i x hx).types⟩

theorem extends_step (hk : k < 2 ^ 31 - 1) (h : Ok prog th s) (a : Action k) :
    Extends s (step prog th s a) := by
  cases a with
  | trace a level args descTsc tsc =>
    have hg := (describe_spec hk h a descTsc).1
    refine ⟨hg.keeps, fun i => ?_⟩
    rw [← hg.traced]
    show _ <+: (record th (describe prog s a descTsc) level ⟨a, tsc, args⟩).traced i
    unfold record
    dsimp only
    split
    · exact List.prefix_refl _
    · by_cases hi : i = level
      · rw [hi, Function.update_self]
        exact List.prefix_append _ _
      · rw [Function.update_of_ne hi]
  | prof a descTsc =>
    have hg := (describe_spec hk h a descTsc).1
    exact ⟨hg.keeps, fun i => by rw [step, hg.traced]⟩
  | ctl counter => exact ⟨fun b hb => ⟨rfl, hb⟩, fun i => List.prefix_refl _⟩

theorem descriptors_step (hk : k < 2 ^ 31 - 1) (h : Ok prog th s) (hds : Descriptors prog s ds)
    (a : Action k) : ∃ new, Descriptors prog (step prog th s a) (ds ++ new) := by
  cases a with
  | trace a level args descTsc tsc =>
    obtain ⟨new, hnew⟩ := descriptors_describe hk h hds a descTsc
    exact ⟨new, hnew.congr rfl rfl⟩
  | prof a descTsc => exact descriptors_describe hk h hds a descTsc
  | ctl counter => exact ⟨[], by rw [List.append_nil]; exact hds.congr rfl rfl⟩

/-- The run lemma. -/
theorem tailable_runs (hk : k < 2 ^ 31 - 1) {cs : MsgCounters}
    (hr : Runs prog th (start th cs) s) :
    Tailable prog th s ∧ ∃ ds, Descriptors prog s ds := by
  induction hr with
  | refl => exact ⟨tailable_start cs, [], descriptors_start cs⟩
  | tail _ hstep ih =>
    obtain ⟨a, ha, rfl⟩ := hstep
    obtain ⟨h, ds, hds⟩ := ih
    obtain ⟨new, hnew⟩ := descriptors_step hk h.ok hds a
    exact ⟨tailable_step hk h ha, _, hnew⟩

/-! ## The table of a reader -/

theorem Descriptors.supported (h : Descriptors prog s ds) : ∀ d ∈ ds, Lookup.Supported d := by
  intro d hd
  obtain ⟨a, tsc, -, rfl⟩ := h.of d hd
  exact ⟨((prog a).types.map Ty.base).map .base,
    (ofTypes_eq (prog a).key_eq).trans (joinCodes_base (prog a).scalar).symm⟩

theorem Descriptors.buildable (h : Descriptors prog s ds) : ∀ d ∈ ds, Lookup.Buildable d := by
  intro d hd
  refine (Lookup.buildable_iff (h.supported d hd) .initial).mp ?_
  obtain ⟨a, tsc, -, rfl⟩ := h.of d hd
  obtain ⟨mf, reg', hinit, -⟩ :=
    init_spelled .initial (prog a).lineno_ne (prog a).tokens (prog a).scalar
  refine ⟨(mf, reg'), ?_⟩
  rw [← ofTypes_eq (prog a).key_eq, ← (prog a).text_eq] at hinit
  exact hinit

theorem builds_of : ∀ (new : List Descriptor) {seen : List Descriptor},
    (∀ d ∈ new, Lookup.Buildable d) → Lookup.Builds seen new
  | [], _, _ => trivial
  | d :: new, seen, h => by
      obtain ⟨hd, hnew⟩ := List.forall_mem_cons.mp h
      exact ⟨fun _ => hd, builds_of new hnew⟩

/-- The first descriptor with the id of a statement is its own. -/
theorem Descriptors.first (h : Descriptors prog s ds) (hok : Ok prog th s)
    (ha : s.hasMsgId a = true) : ∃ tsc, Lookup.first ds (s.msgId a)
      = some ((prog a).descriptor tsc (s.msgId a)) := by
  cases hfirst : Lookup.first ds (s.msgId a) with
  | none =>
    obtain ⟨d, hd, hid⟩ := h.all a ha
    have hnone := List.find?_eq_none.mp hfirst d hd
    exact absurd (decide_eq_true hid) hnone
  | some d =>
    have hid : d.msgId = s.msgId a := by simpa using List.find?_some hfirst
    obtain ⟨b, tsc, hb, rfl⟩ := h.of d (List.mem_of_find?_eq_some hfirst)
    have hba : b = a := id_inj hok.ids (State.hasMsgId_iff.mp ha).1
      (congrArg UInt32.toNat (show s.msgId b = s.msgId a from hid))
    subst hba
    exact ⟨tsc, rfl⟩

/-- A formatter that was built from the descriptor of a statement is one of
the statement. -/
theorem formatterOf_built {tsc : UInt64} {msgId : UInt32} {mf : MessageFormatter}
    (h : Lookup.BuiltFrom ((prog a).descriptor tsc msgId) mf) : (prog a).FormatterOf mf := by
  obtain ⟨reg, reg', hreg, hinit⟩ := h
  have hinit : MessageFormatter.init reg (prog a).lineno.toUInt32.toNat (spell (prog a).tokens)
      (prog a).key = .ok (mf, reg') := by
    rw [← (prog a).text_eq]
    exact hinit
  obtain ⟨mf', reg'', hinit', hsp⟩ :=
    init_spelled hreg (prog a).lineno_ne (prog a).tokens (prog a).scalar
  rw [← ofTypes_eq (prog a).key_eq, hinit] at hinit'
  cases hinit'
  exact ⟨⟨reg, reg', hreg, hinit⟩, hsp⟩

/-- A table of part of the dictionary in front of one of all of it. -/
def patch (M T : MessageTable) : MessageTable where
  reg := T.reg
  messages := fun id =>
    if id < 2 ^ 32 ∧ (M.messages id).isSome then M.messages id else T.messages id

/-- It is a table of all of it, which has the formatters of the part. -/
theorem Table.patch {M T : MessageTable} {seen new : List Descriptor} (h : Table prog s T)
    (hok : Ok prog th s) (hds : Descriptors prog s (seen ++ new)) (hM : Lookup.TableOf seen M) :
    Table prog s (patch M T) := by
  -- what the part has was built from the descriptor of a statement
  have hpart : ∀ id : UInt32, (M.messages id.toNat).isSome = true → ∃ d,
      Lookup.first seen id = some d ∧ ∃ mf, M.messages id.toNat = some mf
        ∧ Lookup.BuiltFrom d mf := by
    intro id hsome
    rw [hM.isSome_iff] at hsome
    obtain ⟨d, hd⟩ := Option.isSome_iff_exists.mp hsome
    exact ⟨d, hd, hM.present id d hd⟩
  refine ⟨h.reg, fun a ha => ?_, fun id mf hmf => ?_⟩
  · have hlt : (s.msgId a).toNat < 2 ^ 32 := (s.msgId a).toNat_lt
    by_cases hsome : (M.messages (s.msgId a).toNat).isSome = true
    · obtain ⟨d, hd, mf, hmf, hbuilt⟩ := hpart _ hsome
      obtain ⟨tsc, hfirst⟩ := hds.first hok ha
      rw [Lookup.first_append, hd, Option.some_or, Option.some.injEq] at hfirst
      subst hfirst
      exact ⟨mf, (if_pos ⟨hlt, hsome⟩).trans hmf, formatterOf_built hbuilt⟩
    · obtain ⟨mf, hmf, hof⟩ := h.owned a ha
      exact ⟨mf, (if_neg fun hp => hsome hp.2).trans hmf, hof⟩
  · by_cases hsome : id < 2 ^ 32 ∧ (M.messages id).isSome = true
    · obtain ⟨hlt, hsome⟩ := hsome
      have hid : (UInt32.ofNat id).toNat = id := UInt32.toNat_ofNat_of_lt' hlt
      rw [← hid] at hsome ⊢
      obtain ⟨d, hd, -⟩ := hpart _ hsome
      obtain ⟨b, tsc, hb, rfl⟩ := hds.of d
        (List.mem_append_left _ (List.mem_of_find?_eq_some hd))
      have hdid : ((prog b).descriptor tsc (s.msgId b)).msgId = UInt32.ofNat id := by
        simpa using List.find?_some hd
      exact ⟨b, congrArg UInt32.toNat hdid, hb⟩
    · exact h.only id mf ((if_neg hsome).symm.trans hmf)

/-- A table of the whole dictionary is not changed: an id without a descriptor
is in no table. -/
theorem Table.patch_eq {M T : MessageTable} (h : Table prog s T) (hok : Ok prog th s)
    (hds : Descriptors prog s ds) (hM : Lookup.TableOf ds M) (msgId : UInt32) :
    (Program.patch M T).messages msgId.toNat = M.messages msgId.toNat := by
  by_cases hsome : (M.messages msgId.toNat).isSome = true
  · exact if_pos ⟨msgId.toNat_lt, hsome⟩
  · refine (if_neg fun hp => hsome hp.2).trans ?_
    rw [Option.not_isSome_iff_eq_none.mp hsome]
    cases hT : T.messages msgId.toNat with
    | none => rfl
    | some mf =>
      obtain ⟨a, hid, ha⟩ := h.only _ mf hT
      obtain ⟨tsc, hfirst⟩ := hds.first hok ha
      rw [UInt32.toNat_inj.mp hid] at hfirst
      rw [hM.isSome_iff, hfirst] at hsome
      exact absurd rfl hsome

end Program

/-! ## Looking for a descriptor -/

namespace Lookup

/-- The static tables belong to all files; what the others have left in them
is open. -/
def Store.withReg (M : Store) (reg : Registry) : Store := { M with table := { M.table with reg } }

theorem Holds.withReg {mapped : List UInt8} {seen : List Descriptor} {M : Store}
    (h : Holds mapped seen M) {reg : Registry} (hreg : reg.Reachable) :
    Holds mapped seen (M.withReg reg) :=
  ⟨h.version, h.p, hreg, h.table.absent, h.table.present⟩

/-- The parser does not look at the bytes in front of the dictionary. -/
theorem Holds.congr {mapped mapped' : List UInt8} {seen : List Descriptor} {M : Store}
    (h : Holds mapped seen M) (hlength : mapped'.length = mapped.length) : Holds mapped' seen M :=
  ⟨h.version, by rw [hlength]; exact h.p, h.table⟩

/-- One round for each new descriptor is enough, and one more. -/
theorem parse_new {size n : Nat} {mapped : List UInt8} {seen new : List Descriptor} {M : Store}
    (h : Holds mapped seen M) (hnew : ∀ d ∈ new, Supported d) (hp : Parses size mapped seen new)
    (hn : new.length + 1 ≤ n) :
    ∃ M', parse size (mapped ++ Mapping.bytesOf (seen ++ new)) n M = some M' := by
  obtain ⟨hfits, hbuilds⟩ := hp
  obtain ⟨T', hT'⟩ := (useAll_iff new h.table hnew).mpr hbuilds
  obtain ⟨i, rfl⟩ := Nat.exists_eq_add_of_le hn
  obtain ⟨index, hrounds⟩ := MessageParser.rounds_descriptors (i + 1) new
    (M.parser.recheck (mapped ++ Mapping.bytesOf (seen ++ new))) h.version (h.shown hfits)
    (Nat.le_of_eq h.end_eq) hT'
  refine ⟨⟨T', { M.parser.recheck (mapped ++ Mapping.bytesOf (seen ++ new)) with
    index, p := (mapped ++ Mapping.bytesOf (seen ++ new)).length }⟩, ?_⟩
  have hend : (M.parser.recheck (mapped ++ Mapping.bytesOf (seen ++ new))).p
      + (new.flatMap Descriptor.bytes).length
        = (mapped ++ Mapping.bytesOf (seen ++ new)).length := h.end_eq
  rw [parse, show new.length + 1 + i = new.length + (i + 1) from by omega, hrounds,
    MessageParser.rounds, if_neg, hend]
  rw [hend]
  simp [MessageParser.more, MessageParser.recheck]

end Lookup

namespace Program

variable {k : Nat} (prog : Fin k → Statement) (th : ForeverLog.TraceHandle)

/-- The class `Messages` of a reader that has mapped `size` bytes of the file:
it has parsed the first descriptors. -/
structure Stored (s : State k) (size : Nat) (M : Lookup.Store) : Prop where
  size : th.mappedSize + FileTrailerSize ≤ size
  parsed : ∃ seen new, Descriptors prog s (seen ++ new)
    ∧ ∀ header m, Lookup.Holds (th.mapped header m) seen M

variable {prog th} {s : State k} {size : Nat} {M : Lookup.Store}

/-- Everything that is in the file can be parsed. -/
theorem Tailable.parses (h : Tailable prog th s) (hsize : th.mappedSize + FileTrailerSize ≤ size)
    {seen new : List Descriptor} (hds : Descriptors prog s (seen ++ new)) (header : Nat → UInt8) :
    Lookup.Parses size (th.mapped header s.tf.mem) seen new := by
  refine ⟨.inr ?_, builds_of new fun d hd => hds.buildable d (List.mem_append_right _ hd)⟩
  have hroom := h.room
  rw [hds.bytes] at hroom
  rw [List.length_append, mapped_length, Mapping.mapSize]
  unfold dictRoom at hroom
  omega

/-- `parse` returns and has parsed everything. -/
theorem Stored.parse (hs : Stored prog th s size M) (h : Tailable prog th s)
    (header : Nat → UInt8) : ∃ M' ds, Lookup.parse size (th.bytes header s.tf.mem s.dict)
        ((th.bytes header s.tf.mem s.dict).length + 1) M = some M'
      ∧ Descriptors prog s ds ∧ Lookup.TableOf ds M'.table ∧ Stored prog th s size M' := by
  obtain ⟨seen, new, hds, hholds⟩ := hs.parsed
  have hsup := fun d hd => hds.supported d (List.mem_append_right seen hd)
  have hbytes : th.bytes header s.tf.mem s.dict
      = th.mapped header s.tf.mem ++ Mapping.bytesOf (seen ++ new) := by
    rw [ForeverLog.TraceHandle.bytes, hds.bytes]
  have hle : new.length + 1 ≤ (th.bytes header s.tf.mem s.dict).length + 1 := by
    have hcount := MessageParser.length_le_bytes new
    rw [hbytes, List.length_append, Mapping.bytesOf_append, List.length_append]
    exact Nat.succ_le_succ (Nat.le_trans hcount (Nat.le_add_left_of_le (Nat.le_add_left _ _)))
  obtain ⟨M', hM'⟩ := Lookup.parse_new (hholds header s.tf.mem) hsup
    (h.parses hs.size hds header) hle
  obtain ⟨-, h'⟩ := Lookup.parse_eq_some (hholds header s.tf.mem) hsup hM'
  refine ⟨M', seen ++ new, by rw [← hbytes] at hM'; exact hM', hds, h'.table, hs.size, seen ++ new,
    [], by rwa [List.append_nil], fun header' m' => h'.congr ?_⟩
  rw [mapped_length, mapped_length]

/-- The static tables may have changed. -/
theorem Stored.withReg (hs : Stored prog th s size M) {reg : Registry} (hreg : reg.Reachable) :
    Stored prog th s size (M.withReg reg) := by
  obtain ⟨seen, new, hds, hholds⟩ := hs.parsed
  exact ⟨hs.size, seen, new, hds, fun header m => (hholds header m).withReg hreg⟩

/-- The look-up of the reader: it returns, and a table of the whole dictionary
has the same for the id. -/
theorem Stored.get (hs : Stored prog th s size M) (h : Tailable prog th s)
    (header : Nat → UInt8) {reg : Registry} (hreg : reg.Reachable) (msgId : UInt32) :
    ∃ r M', Lookup.get size (th.bytes header s.tf.mem s.dict)
        ((th.bytes header s.tf.mem s.dict).length + 1) (M.withReg reg) msgId = some (r, M')
      ∧ Stored prog th s size M'
      ∧ ∃ T, Table prog s T ∧ T.messages msgId.toNat = M'.table.messages msgId.toNat := by
  obtain ⟨-, T, -, -, htable⟩ := h.ok.dict
  obtain ⟨seen, new, hds, hholds⟩ := hs.parsed
  have hs' := hs.withReg hreg
  have htableOf := (hholds header s.tf.mem).table
  have hlt : msgId.toNat < 2 ^ 32 := msgId.toNat_lt
  by_cases hsome : (M.table.messages msgId.toNat).isSome = true
  · refine ⟨_, _, if_pos hsome, hs', Program.patch M.table T, htable.patch h.ok hds htableOf, ?_⟩
    exact if_pos ⟨hlt, hsome⟩
  · obtain ⟨M', ds, hM', hds', htable', hs''⟩ := hs'.parse h header
    exact ⟨_, M', (if_neg hsome).trans (by rw [hM']; rfl), hs'', Program.patch M'.table T,
      htable.patch h.ok (by rwa [← List.append_nil ds] at hds') htable',
      htable.patch_eq h.ok hds' htable' msgId⟩

/-- An action of the program leaves what was parsed. -/
theorem Stored.step (hs : Stored prog th s size M) (hk : k < 2 ^ 31 - 1) (h : Ok prog th s)
    (a : Action k) : Stored prog th (step prog th s a) size M := by
  obtain ⟨seen, new, hds, hholds⟩ := hs.parsed
  obtain ⟨new', hds'⟩ := descriptors_step hk h hds a
  exact ⟨hs.size, seen, new ++ new', by rwa [← List.append_assoc], hholds⟩

end Program

end QuickTrace
