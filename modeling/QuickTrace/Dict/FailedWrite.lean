/-
QuickTrace.Dict.FailedWrite — descriptors on a disk that is full.

`MsgDesc::finish` appends a descriptor with one `write`. It looks at the
result only to report the first failure, and marks the id in any case. What
`write` has appended stays where it is, and the next descriptor starts behind
it.

A short write takes the start of the next descriptor into its own text or
its own length, and with that length the parser leaves the mapping
(`lost_behind_short_write`). The dictionary is readable and every marked id
resolved when all writes are complete, and, as a statement describes itself
only to a file that has not marked its id, only then (`dictionary_survives`).
-/
import QuickTrace.Dict.Mapping

namespace QuickTrace

open QuickTrace.Lib

/-! ## The file -/

/-- A call of `MsgDesc::finish` that returns: the descriptor, and how many of
its bytes `write` appends. A write that fails appends none. `MsgId` is an
`int`, and `msgIdInitializedIs` can resize its vector for no negative one. -/
structure DescWrite where
  desc : Descriptor
  written : Nat
  msgId_lt : desc.msgId.toNat < 2 ^ 31

namespace DescWrite

/-- The write is complete. -/
def Complete (w : DescWrite) : Prop := w.desc.bytes.length ≤ w.written

instance (w : DescWrite) : Decidable w.Complete := inferInstanceAs (Decidable (_ ≤ _))

/-- The bytes behind the end of the file. -/
def appended (w : DescWrite) : List UInt8 := w.desc.bytes.take w.written

theorem Complete.appended {w : DescWrite} (h : w.Complete) : w.appended = w.desc.bytes :=
  List.take_of_length_le h

end DescWrite

/-- What a `TraceFile` keeps of its descriptors: the bytes behind the mapped
part, the ids in `msgIdInitialized_`, and whether a failure was reported. -/
structure DictFile where
  bytes : List UInt8
  msgIdInitialized : List UInt32
  once : Bool

namespace DictFile

/-- A new file. -/
def new : DictFile := ⟨[], [], false⟩

/-- `finish`. -/
def finish (f : DictFile) (w : DescWrite) : DictFile where
  bytes := f.bytes ++ w.appended
  -- `n <= 0`
  once := f.once || w.appended.isEmpty
  msgIdInitialized := w.desc.msgId :: f.msgIdInitialized

/-- A sequence of calls. -/
def run (f : DictFile) (ws : List DescWrite) : DictFile := ws.foldl finish f

/-- The bytes of a sequence stand one behind the other. -/
theorem run_bytes : ∀ (ws : List DescWrite) (f : DictFile),
    (f.run ws).bytes = f.bytes ++ ws.flatMap DescWrite.appended
  | [], f => (List.append_nil _).symm
  | w :: ws, f => by
      rw [run, List.foldl_cons, ← run, run_bytes ws, finish, List.flatMap_cons, List.append_assoc]

/-- Every id is marked, whatever came of the write. -/
theorem mem_run_msgIdInitialized {msgId : UInt32} : ∀ (ws : List DescWrite) (f : DictFile),
    msgId ∈ (f.run ws).msgIdInitialized
      ↔ msgId ∈ f.msgIdInitialized ∨ ∃ w ∈ ws, w.desc.msgId = msgId
  | [], f => by simp [run]
  | w :: ws, f => by
      rw [run, List.foldl_cons, ← run, mem_run_msgIdInitialized ws, finish, List.mem_cons]
      constructor
      · rintro ((rfl | h) | ⟨x, hx, h⟩)
        · exact .inr ⟨w, List.mem_cons_self, rfl⟩
        · exact .inl h
        · exact .inr ⟨x, List.mem_cons_of_mem w hx, h⟩
      · rintro (h | ⟨x, hx, h⟩)
        · exact .inl (.inr h)
        · rcases List.mem_cons.mp hx with rfl | hx
          · exact .inl (.inl h.symm)
          · exact .inr ⟨x, hx, h⟩

end DictFile

/-! ## What a reader needs -/

/-- The parser comes to the end of the file and returns every descriptor
whose write was complete; and an id is marked only if one of these is
there for it. `behind` is what can be read behind the end of the file. -/
structure Survives (mappedSize : Nat) (mapped behind : List UInt8) (ws : List DescWrite) :
    Prop where
  readable : ∃ n msgs ps', MessageParser.rounds
      (mapped ++ (DictFile.new.run ws).bytes ++ behind) Mapping.keep n []
      (.initialized (.ofSize mappedSize) (mapped ++ (DictFile.new.run ws).bytes)) = .ended msgs ps'
    ∧ ∀ w ∈ ws, w.Complete → w.desc.message ∈ msgs
  resolved : ∀ msgId ∈ (DictFile.new.run ws).msgIdInitialized,
    ∃ w ∈ ws, w.Complete ∧ w.desc.msgId = msgId

/-- Complete writes are descriptors, one behind the other. -/
theorem flatMap_appended {ws : List DescWrite} (h : ∀ w ∈ ws, w.Complete) :
    ws.flatMap DescWrite.appended = (ws.map DescWrite.desc).flatMap Descriptor.bytes := by
  induction ws with
  | nil => rfl
  | cons w ws ih =>
    obtain ⟨hw, hws⟩ := List.forall_mem_cons.mp h
    rw [List.map_cons, List.flatMap_cons, List.flatMap_cons, ih hws, hw.appended]

theorem survives_of_complete {mappedSize : Nat} {mapped : List UInt8}
    (hm : mapped.length = mappedSize + FileTrailerSize) (behind : List UInt8) {ws : List DescWrite}
    (h : ∀ w ∈ ws, w.Complete) : Survives mappedSize mapped behind ws := by
  have hbytes : (DictFile.new.run ws).bytes = (ws.map DescWrite.desc).flatMap Descriptor.bytes := by
    rw [DictFile.run_bytes, flatMap_appended h]
    rfl
  constructor
  · rw [hbytes]
    have hp : (MessageParser.initialized (.ofSize mappedSize)
        (mapped ++ (ws.map DescWrite.desc).flatMap Descriptor.bytes)).p = mapped.length := hm.symm
    have hshown : Shown (mapped ++ (ws.map DescWrite.desc).flatMap Descriptor.bytes ++ behind)
        (MessageParser.initialized (.ofSize mappedSize)
          (mapped ++ (ws.map DescWrite.desc).flatMap Descriptor.bytes)).p
        ((ws.map DescWrite.desc).flatMap Descriptor.bytes) :=
      Shown.of_append (by rw [hp, List.append_assoc, List.drop_left])
    obtain ⟨index, hloop⟩ := MessageParser.rounds_ended (ws.map DescWrite.desc) _
      (show 3 ≤ (5 : UInt32) by decide) hshown (by rw [hp, ← List.length_append]; rfl)
      (Mapping.useAll_keep _ [])
    refine ⟨_, _, _, hloop, fun w hw _ => ?_⟩
    exact List.mem_map_of_mem (List.mem_map_of_mem hw)
  · intro msgId hmarked
    rcases (DictFile.mem_run_msgIdInitialized ws .new).mp hmarked with hnew | ⟨w, hw, hid⟩
    · cases hnew
    · exact ⟨w, hw, h w hw, hid⟩

/-- Whatever the writes append, an id whose descriptor was never written
completely is marked all the same. -/
theorem complete_of_survives {mappedSize : Nat} {mapped behind : List UInt8} {ws : List DescWrite}
    (h : Survives mappedSize mapped behind ws) {w : DescWrite} (hw : w ∈ ws) :
    ∃ w' ∈ ws, w'.Complete ∧ w'.desc.msgId = w.desc.msgId :=
  h.resolved _ ((DictFile.mem_run_msgIdInitialized ws .new).mpr (.inr ⟨w, hw, rfl⟩))

/-- Calls that each describe an id the file has not marked, as the macros of
all trace statements do. -/
def Guarded (f : DictFile) : List DescWrite → Prop
  | [] => True
  | w :: ws => w.desc.msgId ∉ f.msgIdInitialized ∧ Guarded (f.finish w) ws

/-- Each id is described once. -/
theorem Guarded.nodup : ∀ {ws : List DescWrite} {f : DictFile}, Guarded f ws →
    (ws.map fun w => w.desc.msgId).Nodup ∧ ∀ w ∈ ws, w.desc.msgId ∉ f.msgIdInitialized
  | [], _, _ => ⟨List.nodup_nil, fun _ h => by cases h⟩
  | w :: ws, f, ⟨hw, hws⟩ => by
      obtain ⟨hnd, hnew⟩ := hws.nodup
      have hnew' : ∀ x ∈ ws, x.desc.msgId ≠ w.desc.msgId
          ∧ x.desc.msgId ∉ f.msgIdInitialized := by
        intro x hx
        exact not_or.mp fun h => hnew x hx (List.mem_cons.mpr h)
      refine ⟨List.nodup_cons.mpr ⟨fun hmem => ?_, hnd⟩, fun x hx => ?_⟩
      · obtain ⟨x, hx, hid⟩ := List.mem_map.mp hmem
        exact (hnew' x hx).1 hid
      · rcases List.mem_cons.mp hx with rfl | hx
        · exact hw
        · exact (hnew' x hx).2

/-- The descriptors of a sequence of calls can be read and all ids be
resolved if every write is complete; if they can, each id has a complete
descriptor; so for calls that are guarded they can exactly if every write is
complete. -/
theorem dictionary_survives {mappedSize : Nat} {mapped : List UInt8}
    (hm : mapped.length = mappedSize + FileTrailerSize) (behind : List UInt8)
    (ws : List DescWrite) :
    ((∀ w ∈ ws, w.Complete) → Survives mappedSize mapped behind ws)
    ∧ (Survives mappedSize mapped behind ws →
      ∀ w ∈ ws, ∃ w' ∈ ws, w'.Complete ∧ w'.desc.msgId = w.desc.msgId)
    ∧ (Guarded .new ws → (Survives mappedSize mapped behind ws ↔ ∀ w ∈ ws, w.Complete)) := by
  refine ⟨survives_of_complete hm behind, fun h w hw => complete_of_survives h hw,
    fun hg => ⟨fun h w hw => ?_, survives_of_complete hm behind⟩⟩
  obtain ⟨w', hw', hc, hid⟩ := complete_of_survives h hw
  rw [← List.inj_on_of_nodup_map hg.nodup.1 hw' hw hid]
  exact hc

/-- Two writes behind a file without levels; the second one is complete. -/
def twoWrites (written : Nat) : List DescWrite :=
  [⟨MessageParser.negativeDescriptor, written, by decide⟩,
    ⟨MessageParser.smallDescriptor, 1024, by decide⟩]

theorem dictionary_survives_two :
    Survives 0 (List.replicate 1024 0) (List.replicate 3015 0) (twoWrites 1024) :=
  ((dictionary_survives (by rw [List.length_replicate]; rfl) (List.replicate 3015 0)
    (twoWrites 1024)).2.2 ⟨List.not_mem_nil, by decide +kernel, trivial⟩).mpr (by decide +kernel)

/-- The first write is short by three bytes. The length of its key ends in the
second descriptor, which was written completely, and the parser leaves the
page with it; the ids of both are marked. -/
theorem lost_behind_short_write :
    Guarded .new (twoWrites 33)
    ∧ DescWrite.Complete ⟨MessageParser.smallDescriptor, 1024, by decide⟩
    ∧ (DictFile.new.run (twoWrites 33)).msgIdInitialized = [2, 0x40000001]
    ∧ ¬ Survives 0 (List.replicate 1024 0) (List.replicate 3018 0) (twoWrites 33) := by
  refine ⟨⟨List.not_mem_nil, by decide +kernel, trivial⟩, by decide +kernel, by decide +kernel,
    fun h => ?_⟩
  obtain ⟨n, msgs, ps', hended, -⟩ := h.readable
  have hstopped : MessageParser.rounds (List.replicate 1024 0
      ++ (DictFile.new.run (twoWrites 33)).bytes ++ List.replicate 3018 0) Mapping.keep 1 []
      (.initialized (.ofSize 0) (List.replicate 1024 0 ++ (DictFile.new.run (twoWrites 33)).bytes))
      = .stopped [] := by decide +kernel
  exact MessageParser.not_ended_of_stopped hstopped n _ _ hended

end QuickTrace
