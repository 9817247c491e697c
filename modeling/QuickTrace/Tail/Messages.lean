/-
QuickTrace.Tail.Messages — the descriptors of a file as `qttail` holds them.

`Messages::parse` reads every descriptor it finds and keeps a formatter for
each id, the first one if there are several. What is in the table stays
(`Extends`), so that a statement that is described once is described from
then on. `readMessages_eq` says what comes of a file whose descriptors were
written completely.
-/
import QuickTrace.Tail.RingBufferTheorems
import QuickTrace.Dict.FailedWrite
import Mathlib.Logic.Function.Basic

namespace QuickTrace

open QuickTrace.Lib RingBuf

/-- The class `Messages`: the formatters, and the tables they are built
with. -/
structure MessageTable where
  reg : Registry
  messages : Messages

namespace MessageTable

/-- No descriptor yet. -/
def initial : MessageTable := ⟨Registry.initial, fun _ => none⟩

/-- `try_emplace`: a formatter is only built for a new id. -/
def tryEmplace (T : MessageTable) (msg : Message) : Except FormatError MessageTable :=
  if (T.messages msg.msgId.toNat).isSome then .ok T
  else
    (MessageFormatter.init T.reg msg.lineno.toNat msg.msg msg.fmt).map fun r =>
      ⟨r.2, Function.update T.messages msg.msgId.toNat (some r.1)⟩

/-- The loop of `parse`. -/
def addAll (T : MessageTable) (msgs : List Message) : Except FormatError MessageTable :=
  msgs.foldlM tryEmplace T

end MessageTable

/-- `initialize` and `parse` on a file whose header says how much of it is
mapped; `none` if the parser does not come to an end or a formatter cannot be
built. -/
def readMessages (mappedSize : Nat) (file : List UInt8) : Option Messages :=
  ((MessageParser.initialized (.ofSize mappedSize) file).parseNew file).bind fun r =>
    (MessageTable.initial.addAll r.1).toOption.map MessageTable.messages

/-! ## What stays in the table -/

/-- Every formatter is kept. -/
def Messages.Extends (msgs msgs' : Messages) : Prop :=
  ∀ id mf, msgs id = some mf → msgs' id = some mf

theorem Messages.Extends.refl (msgs : Messages) : msgs.Extends msgs := fun _ _ h => h

theorem Messages.Extends.trans {a b c : Messages} (h : a.Extends b) (h' : b.Extends c) :
    a.Extends c := fun id mf hid => h' id mf (h id mf hid)

/-- A statement that is described stays described. -/
theorem Described.mono {msgs msgs' : Messages} (he : msgs.Extends msgs') {h : Hit}
    (hd : Described msgs h) : Described msgs' h := by
  obtain ⟨reg, reg', lineno, text, key, mf, hreg, hkey, htext, hinit, hmsgs⟩ := hd
  exact ⟨reg, reg', lineno, text, key, mf, hreg, hkey, htext, hinit, he _ _ hmsgs⟩

namespace MessageTable

theorem tryEmplace_extends {T T' : MessageTable} {msg : Message}
    (h : T.tryEmplace msg = .ok T') : T.messages.Extends T'.messages := by
  unfold tryEmplace at h
  split at h
  · cases h
    exact .refl _
  · rename_i hnone
    obtain ⟨r, -, rfl⟩ := map_eq_ok.mp h
    intro id mf hid
    have hne : id ≠ msg.msgId.toNat := by
      rintro rfl
      rw [hid] at hnone
      exact hnone rfl
    exact (Function.update_of_ne hne ..).trans hid

/-- The first descriptor of an id, written from the text and the key of a
statement, describes it. -/
theorem tryEmplace_described {T T' : MessageTable} {msg : Message} {h : Hit}
    (hreg : T.reg.Reachable) (hnew : T.messages msg.msgId.toNat = none)
    (hT : T.tryEmplace msg = .ok T') (hid : h.id = msg.msgId)
    (hkey : MsgFormatString.ofTypes (h.args.map Arg.ty) = some msg.fmt) (htext : msg.msg ≠ []) :
    Described T'.messages h := by
  unfold tryEmplace at hT
  rw [hnew] at hT
  obtain ⟨r, hinit, rfl⟩ := map_eq_ok.mp hT
  refine ⟨T.reg, r.2, msg.lineno.toNat, msg.msg, msg.fmt, r.1, hreg, hkey, htext, hinit, ?_⟩
  rw [hid]
  exact Function.update_self ..

theorem addAll_append (T : MessageTable) (ms ms' : List Message) :
    T.addAll (ms ++ ms') = T.addAll ms >>= fun T' => T'.addAll ms' :=
  List.foldlM_append

theorem addAll_extends : ∀ (ms : List Message) {T T' : MessageTable},
    T.addAll ms = .ok T' → T.messages.Extends T'.messages
  | [], _, _, h => by cases h; exact .refl _
  | msg :: ms, T, T', h => by
      rw [addAll, List.foldlM_cons] at h
      obtain ⟨T₁, h₁, h⟩ := bind_eq_ok.mp h
      exact (tryEmplace_extends h₁).trans (addAll_extends ms h)

end MessageTable

/-! ## A dictionary that was written completely -/

/-- The table of a list of descriptors. -/
def Messages.ofDescriptors (ds : List Descriptor) : Option Messages :=
  (MessageTable.initial.addAll (ds.map Descriptor.message)).toOption.map MessageTable.messages

/-- What is read of a file depends on its descriptors alone. -/
theorem readMessages_eq {mappedSize : Nat} {mapped : List UInt8}
    (hm : mapped.length = mappedSize + FileTrailerSize) (ds : List Descriptor) :
    readMessages mappedSize (mapped ++ ds.flatMap Descriptor.bytes) = Messages.ofDescriptors ds := by
  have hfuel := MessageParser.length_le_bytes ds
  obtain ⟨index, hloop⟩ := MessageParser.parseLoop_portion ds
    (MessageParser.initialized (.ofSize mappedSize) (mapped ++ ds.flatMap Descriptor.bytes)) mapped
    (mapped ++ ds.flatMap Descriptor.bytes).length
    (show 3 ≤ (5 : UInt32) by decide) (by rw [List.length_append]; omega) hm.symm rfl
  unfold readMessages
  rw [show (MessageParser.initialized (.ofSize mappedSize)
      (mapped ++ ds.flatMap Descriptor.bytes)).parseNew (mapped ++ ds.flatMap Descriptor.bytes) = _
    from hloop]
  rfl

theorem Messages.ofDescriptors_eq_some {ds : List Descriptor} {msgs : Messages} :
    ofDescriptors ds = some msgs ↔
      ∃ T, MessageTable.initial.addAll (ds.map Descriptor.message) = .ok T ∧ T.messages = msgs := by
  unfold ofDescriptors
  cases MessageTable.initial.addAll (ds.map Descriptor.message) with
  | error e => simp [Except.toOption]
  | ok T => simp [Except.toOption]

/-- The table of more descriptors extends the table. -/
theorem Messages.ofDescriptors_append {ds ds' : List Descriptor} {msgs msgs' : Messages}
    (h : ofDescriptors ds = some msgs) (h' : ofDescriptors (ds ++ ds') = some msgs') :
    msgs.Extends msgs' := by
  obtain ⟨T, hT, rfl⟩ := ofDescriptors_eq_some.mp h
  obtain ⟨T', hT', rfl⟩ := ofDescriptors_eq_some.mp h'
  rw [List.map_append, MessageTable.addAll_append, hT, ok_bind] at hT'
  exact MessageTable.addAll_extends _ hT'

end QuickTrace
