/-
QuickTrace.Handle.Threads — ids that threads allocate at the same time.

The threads of one multi-threaded `TraceHandle` share the static ids of the
trace statements and the counter of the handle; each has a file of its own.
A statement looks at its id without the lock, and again under it, and reads
it two more times behind it. The steps of all threads interleave freely:
`Pc` is what a thread does next.

`Inv` says which ids a thread may rely on at each point. A statement keeps
its id once it has one, and while the counter has not gone through half its
range (`Shared`) no two statements have the same (`ids_safe`). A thread waits
only for one that can go on (`Inv.not_stuck`).
-/
import QuickTrace.Handle.MsgIds

namespace QuickTrace

open QuickTrace.Lib

/-! ## A thread and its file -/

/-- What a thread appends to its file, and the statements it has passed while
they were off. -/
inductive FileEntry where
  | msgDesc (e : DictEntry)
  | msg (msgId : UInt32) (s : Stmt)
  | off (msgId : UInt32) (s : Stmt)
  deriving DecidableEq

namespace FileEntry

/-- The descriptor in an entry. -/
def desc? : FileEntry → Option DictEntry
  | .msgDesc e => some e
  | .msg .. | .off .. => none

/-- The statement that ends with an entry, and the id it has used. -/
def done? : FileEntry → Option (UInt32 × Stmt)
  | .msgDesc _ => none
  | .msg msgId s | .off msgId s => some (msgId, s)

end FileEntry

/-- `TraceFile` of one thread. -/
structure ThreadFile where
  msgIdInitialized : UInt32 → Bool
  entries : List FileEntry

namespace ThreadFile

/-- The descriptors in the file. -/
def dict (f : ThreadFile) : List DictEntry := f.entries.filterMap FileEntry.desc?

/-- `msgIdInitialized`. -/
def hasMsgId (f : ThreadFile) (msgId : UInt32) : Bool := msgId != 0 && f.msgIdInitialized msgId

/-- `msgIdInitializedIs`. -/
def msgIdInitializedIs (f : ThreadFile) (msgId : UInt32) : ThreadFile :=
  { f with msgIdInitialized := Function.update f.msgIdInitialized msgId true }

/-- The next entry. -/
def append (f : ThreadFile) (x : FileEntry) : ThreadFile := { f with entries := f.entries ++ [x] }

theorem dict_append_msgDesc (f : ThreadFile) (e : DictEntry) :
    (f.append (.msgDesc e)).dict = f.dict ++ [e] := by
  simp [dict, append, FileEntry.desc?]

theorem dict_append_done (f : ThreadFile) {x : FileEntry} (h : x.desc? = none) :
    (f.append x).dict = f.dict := by
  simp [dict, append, h]

theorem mem_dict {f : ThreadFile} {e : DictEntry} : e ∈ f.dict ↔ .msgDesc e ∈ f.entries := by
  rw [dict, List.mem_filterMap]
  constructor
  · rintro ⟨x, hx, he⟩
    cases x with
    | msgDesc e' =>
      cases he
      exact hx
    | msg _ _ => cases he
    | off _ _ => cases he
  · exact fun h => ⟨_, h, rfl⟩

end ThreadFile

/-- What a thread does next. -/
inductive Pc where
  /-- outside of trace statements -/
  | idle
  /-- `msgIdInitialized( _msgId )` -/
  | check (s : Stmt)
  /-- `0 == *msgIdPtr` -/
  | construct (s : Stmt)
  /-- `msgIdAllocMutex.lock()` -/
  | lock (s : Stmt)
  /-- `0 != *msgIdPtr` -/
  | recheck (s : Stmt)
  /-- `*msgIdPtr = nextMsgId_++` -/
  | allocate (s : Stmt)
  /-- `msgIdAllocMutex.unlock()` -/
  | unlock (s : Stmt)
  /-- `id_ = *msgIdPtr` -/
  | load (s : Stmt)
  /-- `write` of the descriptor -/
  | write (e : DictEntry)
  /-- `msgIdInitializedIs( id_ )` -/
  | mark (e : DictEntry)
  /-- `startMsg( _qtf, _msgId )` -/
  | start (s : Stmt)
  /-- `endMsg()` -/
  | finish (msgId : UInt32) (s : Stmt) (off : Bool)
  deriving DecidableEq

namespace Pc

/-- The points between `lock` and `unlock`. -/
def locked : Pc → Bool
  | .recheck _ | .allocate _ | .unlock _ => true
  | _ => false

/-- The descriptor that is written and not yet marked. -/
def unmarked : Pc → Option DictEntry
  | .mark e => some e
  | _ => none

end Pc

/-! ## All threads -/

/-- The static ids, the counter and the lock of the handle, and the threads
with their files; `allocated` counts the ids given out. -/
structure Threads where
  msgId : Stmt → UInt32
  nextMsgId : UInt32
  allocated : Nat
  msgIdAllocMutex : Option Nat
  pc : Nat → Pc
  file : Nat → ThreadFile

namespace Threads

/-- A new handle: no statement has an id, no file a descriptor. -/
def init : Threads where
  msgId := fun _ => 0
  nextMsgId := 1
  allocated := 0
  msgIdAllocMutex := none
  pc := fun _ => .idle
  file := fun _ => ⟨fun _ => false, []⟩

def goto (p : Threads) (t : Nat) (pc : Pc) : Threads :=
  { p with pc := Function.update p.pc t pc }

def setFile (p : Threads) (t : Nat) (f : ThreadFile) : Threads :=
  { p with file := Function.update p.file t f }

/-- The id `allocateMsgId` gives out: zero is skipped. -/
def allocatedId (p : Threads) : UInt32 := if p.nextMsgId = 0 then p.nextMsgId + 1 else p.nextMsgId

/-- `allocateMsgId` under the lock. -/
def allocateMsgId (p : Threads) (s : Stmt) : Threads :=
  { p with
    msgId := Function.update p.msgId s p.allocatedId
    nextMsgId := p.allocatedId + 1
    allocated := p.allocated + 1 }

/-- The next step of a thread: `none` while it waits for the lock or for a
statement. `tsc` is the clock, `off` what the counters of the file say. -/
def advance (p : Threads) (t : Nat) (tsc : UInt64) (off : Bool) : Option Threads :=
  match p.pc t with
  | .idle => none
  | .check s =>
    some (p.goto t (if (p.file t).hasMsgId (p.msgId s) then .start s else .construct s))
  | .construct s => some (p.goto t (if p.msgId s = 0 then .lock s else .load s))
  | .lock s =>
    if p.msgIdAllocMutex = none then
      some { p.goto t (.recheck s) with msgIdAllocMutex := some t }
    else none
  | .recheck s => some (p.goto t (if p.msgId s = 0 then .allocate s else .unlock s))
  | .allocate s => some ((p.allocateMsgId s).goto t (.unlock s))
  | .unlock s => some { p.goto t (.load s) with msgIdAllocMutex := none }
  | .load s => some (p.goto t (.write ⟨tsc, p.msgId s, s⟩))
  | .write e => some ((p.setFile t ((p.file t).append (.msgDesc e))).goto t (.mark e))
  | .mark e =>
    some ((p.setFile t ((p.file t).msgIdInitializedIs e.msgId)).goto t (.start e.stmt))
  | .start s => some (p.goto t (.finish (p.msgId s) s off))
  | .finish msgId s off =>
    let x : FileEntry := if off then .off msgId s else .msg msgId s
    some ((p.setFile t ((p.file t).append x)).goto t .idle)

/-- One step: a thread comes to a statement, or goes on. -/
inductive Step (p : Threads) : Threads → Prop where
  | trace (t : Nat) (s : Stmt) (h : p.pc t = .idle) : Step p (p.goto t (.check s))
  | advance (t : Nat) (tsc : UInt64) (off : Bool) (q : Threads)
      (h : p.advance t tsc off = some q) : Step p q

/-- Any number of steps, of any threads. -/
def Runs : Threads → Threads → Prop := Relation.ReflTransGen Step

/-- The states of every interleaving. -/
def Reachable (p : Threads) : Prop := Runs init p


@[simp] theorem goto_pc_self (p : Threads) (t : Nat) (pc : Pc) : (p.goto t pc).pc t = pc :=
  Function.update_self ..

theorem goto_pc_ne (p : Threads) {t u : Nat} (h : u ≠ t) (pc : Pc) : (p.goto t pc).pc u = p.pc u :=
  Function.update_of_ne h ..

@[simp] theorem setFile_file_self (p : Threads) (t : Nat) (f : ThreadFile) :
    (p.setFile t f).file t = f := Function.update_self ..

theorem setFile_file_ne (p : Threads) {t u : Nat} (h : u ≠ t) (f : ThreadFile) :
    (p.setFile t f).file u = p.file u := Function.update_of_ne h ..

end Threads

/-! ## The invariant -/

/-- The statements that have an id keep it. -/
def KeepsIds (ids ids' : Stmt → UInt32) : Prop := ∀ s, ids s ≠ 0 → ids' s = ids s

theorem KeepsIds.refl (ids : Stmt → UInt32) : KeepsIds ids ids := fun _ _ => rfl

theorem KeepsIds.trans {a b c : Stmt → UInt32} (h : KeepsIds a b) (h' : KeepsIds b c) :
    KeepsIds a c := by
  intro s hs
  rw [h' s (by rwa [h s hs]), h s hs]

namespace ThreadFile

/-- The statement has a descriptor in the file. -/
def Describes (f : ThreadFile) (s : Stmt) : Prop := ∃ e ∈ f.dict, e.stmt = s

/-- Whatever is done in the file was described before. -/
def Ordered (f : ThreadFile) : Prop :=
  ∀ l x r, f.entries = l ++ x :: r → ∀ msgId s, x.done? = some (msgId, s) →
    ∃ e, .msgDesc e ∈ l ∧ e.msgId = msgId ∧ e.stmt = s

/-- The invariant of a file; `u` is the descriptor still to be marked. -/
structure Ok (ids : Stmt → UInt32) (u : Option DictEntry) (f : ThreadFile) : Prop where
  own : ∀ e ∈ f.dict, e.msgId ≠ 0 ∧ ids e.stmt = e.msgId
  nodup : (f.dict.map DictEntry.msgId).Nodup
  marked : ∀ k, f.msgIdInitialized k = true → ∃ e ∈ f.dict, e.msgId = k
  described : ∀ e ∈ f.dict, f.msgIdInitialized e.msgId = true ∨ u = some e
  ordered : f.Ordered

theorem Ok.keeps {ids ids' : Stmt → UInt32} {u : Option DictEntry} {f : ThreadFile}
    (hf : f.Ok ids u) (h : KeepsIds ids ids') : f.Ok ids' u :=
  { hf with
    own := fun e he => by
      obtain ⟨hne, hid⟩ := hf.own e he
      exact ⟨hne, by rw [h e.stmt (by rwa [hid]), hid]⟩ }

/-- An entry behind the others. -/
theorem Ordered.append {f : ThreadFile} (hf : f.Ordered) {x : FileEntry}
    (h : ∀ msgId s, x.done? = some (msgId, s) → ∃ e, .msgDesc e ∈ f.entries
      ∧ e.msgId = msgId ∧ e.stmt = s) : (f.append x).Ordered := by
  intro l y r heq msgId s hy
  rcases List.eq_nil_or_concat r with rfl | ⟨r', z, rfl⟩
  · have heq : f.entries ++ [x] = l ++ [y] := heq
    obtain ⟨rfl, hxy⟩ := List.append_inj' heq rfl
    cases hxy
    exact h msgId s hy
  · have heq : f.entries ++ [x] = (l ++ y :: r') ++ [z] := by
      simpa [ThreadFile.append] using heq
    exact hf l y r' (List.append_inj' heq rfl).1 msgId s hy

end ThreadFile

/-- What a thread relies on at each point. -/
def PcOk (ids : Stmt → UInt32) (f : ThreadFile) : Pc → Prop
  | .idle | .check _ => True
  | .construct s | .lock s | .recheck s | .allocate s => ¬ f.Describes s
  | .unlock s | .load s => ids s ≠ 0 ∧ ¬ f.Describes s
  | .write e => e.msgId ≠ 0 ∧ ids e.stmt = e.msgId ∧ ¬ f.Describes e.stmt
  | .mark e => e ∈ f.dict
  | .start s => f.Describes s
  | .finish msgId s _ => ∃ e ∈ f.dict, e.msgId = msgId ∧ e.stmt = s

theorem PcOk.keeps {ids ids' : Stmt → UInt32} {f : ThreadFile} {pc : Pc}
    (hpc : PcOk ids f pc) (h : KeepsIds ids ids') : PcOk ids' f pc := by
  cases pc with
  | unlock s => exact ⟨by rw [h s hpc.1]; exact hpc.1, hpc.2⟩
  | load s => exact ⟨by rw [h s hpc.1]; exact hpc.1, hpc.2⟩
  | write e =>
    obtain ⟨hne, hid, hnew⟩ := hpc
    exact ⟨hne, by rw [h e.stmt (by rwa [hid]), hid], hnew⟩
  | idle => exact hpc
  | check s => exact hpc
  | construct s => exact hpc
  | lock s => exact hpc
  | recheck s => exact hpc
  | allocate s => exact hpc
  | mark e => exact hpc
  | start s => exact hpc
  | finish msgId s off => exact hpc

namespace Threads

/-- What the threads share while fewer than 2^31 ids are allocated. -/
structure Shared (p : Threads) : Prop where
  next : p.nextMsgId.toNat = p.allocated + 1
  le : ∀ s, (p.msgId s).toNat ≤ p.allocated
  apart : ∀ s s', p.msgId s ≠ 0 → p.msgId s = p.msgId s' → s = s'

/-- The invariant of all interleavings. -/
structure Inv (p : Threads) : Prop where
  shared : p.Shared
  lock : ∀ t, (p.pc t).locked = true ↔ p.msgIdAllocMutex = some t
  allocate : ∀ t s, p.pc t = .allocate s → p.msgId s = 0
  pc : ∀ t, PcOk p.msgId (p.file t) (p.pc t)
  file : ∀ t, (p.file t).Ok p.msgId (p.pc t).unmarked

theorem inv_init : init.Inv where
  shared := ⟨rfl, fun _ => Nat.le_refl _, fun _ _ h => absurd rfl h⟩
  lock := fun _ => by simp [init, Pc.locked]
  allocate := fun _ _ h => by cases h
  pc := fun _ => trivial
  file := fun _ => by
    refine ⟨by simp [init, ThreadFile.dict], by simp [init, ThreadFile.dict], by simp [init],
      by simp [init, ThreadFile.dict], fun l x r h => ?_⟩
    simp [init] at h

/-- One thread moves, the shared part stays. -/
theorem Inv.move {p : Threads} (hp : p.Inv) {t : Nat} {f : ThreadFile} {pc : Pc}
    (hl : pc.locked = (p.pc t).locked) (ha : ∀ s, pc = .allocate s → p.msgId s = 0)
    (hpc : PcOk p.msgId f pc) (hf : f.Ok p.msgId pc.unmarked) :
    ((p.setFile t f).goto t pc).Inv where
  shared := ⟨hp.shared.next, hp.shared.le, hp.shared.apart⟩
  lock := fun u => by
    by_cases hu : u = t
    · subst hu
      rw [goto_pc_self, hl]
      exact hp.lock u
    · rw [goto_pc_ne _ hu]
      exact hp.lock u
  allocate := fun u s h => by
    by_cases hu : u = t
    · subst hu
      rw [goto_pc_self] at h
      exact ha s h
    · rw [goto_pc_ne _ hu] at h
      exact hp.allocate u s h
  pc := fun u => by
    by_cases hu : u = t
    · subst hu
      rw [goto_pc_self]
      exact (setFile_file_self p u f).symm ▸ hpc
    · rw [goto_pc_ne _ hu]
      exact (setFile_file_ne p hu f).symm ▸ hp.pc u
  file := fun u => by
    by_cases hu : u = t
    · subst hu
      rw [goto_pc_self]
      exact (setFile_file_self p u f).symm ▸ hf
    · rw [goto_pc_ne _ hu]
      exact (setFile_file_ne p hu f).symm ▸ hp.file u

/-- One thread moves without a look at its file. -/
theorem Inv.goto {p : Threads} (hp : p.Inv) {t : Nat} {pc : Pc}
    (hl : pc.locked = (p.pc t).locked) (ha : ∀ s, pc = .allocate s → p.msgId s = 0)
    (hpc : PcOk p.msgId (p.file t) pc) (hu : pc.unmarked = (p.pc t).unmarked) :
    (p.goto t pc).Inv := by
  have hself : p.setFile t (p.file t) = p := by
    rw [setFile, Function.update_eq_self]
  have h := hp.move (t := t) (f := p.file t) hl ha hpc (hu ▸ hp.file t)
  rwa [hself] at h

/-- A statement the file has marked is described in it. -/
theorem Inv.describes {p : Threads} (hp : p.Inv) {t : Nat} {s : Stmt}
    (h : (p.file t).hasMsgId (p.msgId s) = true) : (p.file t).Describes s := by
  rw [ThreadFile.hasMsgId, Bool.and_eq_true, bne_iff_ne] at h
  obtain ⟨e, he, hid⟩ := (hp.file t).marked _ h.2
  have hown := ((hp.file t).own e he).2
  exact ⟨e, he, (hp.shared.apart s e.stmt h.1 (by rw [hown, hid])).symm⟩

/-- A statement the file has not marked is not described in it, unless its
thread is about to mark it. -/
theorem Inv.not_describes {p : Threads} (hp : p.Inv) {t : Nat} {s : Stmt}
    (hu : (p.pc t).unmarked = none) (h : (p.file t).hasMsgId (p.msgId s) = false) :
    ¬ (p.file t).Describes s := by
  rintro ⟨e, he, rfl⟩
  obtain ⟨hne, hid⟩ := (hp.file t).own e he
  rcases (hp.file t).described e he with hm | hm
  · rw [ThreadFile.hasMsgId, hid, hm, Bool.and_true, bne_eq_false_iff_eq] at h
    exact hne h
  · rw [hu] at hm
    cases hm

/-- A descriptor is appended. -/
theorem Inv.write {p : Threads} (hp : p.Inv) {t : Nat} {e : DictEntry} (hpc : p.pc t = .write e) :
    ((p.file t).append (.msgDesc e)).Ok p.msgId (some e) := by
  have h := hp.pc t
  have hf := hp.file t
  rw [hpc] at h hf
  obtain ⟨hne, hid, hnew⟩ := h
  refine ⟨?_, ?_, ?_, ?_, ?_⟩
  · intro x hx
    rw [ThreadFile.dict_append_msgDesc] at hx
    rcases List.mem_append.mp hx with hx | hx
    · exact hf.own x hx
    · rw [List.mem_singleton.mp hx]
      exact ⟨hne, hid⟩
  · rw [ThreadFile.dict_append_msgDesc, List.map_append, List.map_cons, List.map_nil]
    refine List.nodup_append'.mpr ⟨hf.nodup, List.nodup_singleton _, ?_⟩
    -- an equal id is one of the same statement
    intro k hk hk'
    obtain ⟨x, hx, rfl⟩ := List.mem_map.mp hk
    have hx' := hf.own x hx
    have heq : p.msgId x.stmt = p.msgId e.stmt := by
      rw [hx'.2, hid, List.mem_singleton.mp hk']
    exact hnew ⟨x, hx, hp.shared.apart _ _ (by rw [hx'.2]; exact hx'.1) heq⟩
  · intro k hk
    obtain ⟨x, hx, hxk⟩ := hf.marked k hk
    exact ⟨x, by rw [ThreadFile.dict_append_msgDesc]; exact List.mem_append_left _ hx, hxk⟩
  · intro x hx
    rw [ThreadFile.dict_append_msgDesc] at hx
    rcases List.mem_append.mp hx with hx | hx
    · rcases hf.described x hx with h | h
      · exact .inl h
      · cases h
    · rw [List.mem_singleton.mp hx]
      exact .inr rfl
  · exact hf.ordered.append fun _ _ h => by cases h

/-- A descriptor is marked. -/
theorem Inv.mark {p : Threads} (hp : p.Inv) {t : Nat} {e : DictEntry} (hpc : p.pc t = .mark e) :
    ((p.file t).msgIdInitializedIs e.msgId).Ok p.msgId none := by
  have h : e ∈ (p.file t).dict := by
    have h := hp.pc t
    rwa [hpc] at h
  have hf := hp.file t
  rw [hpc] at hf
  refine ⟨hf.own, hf.nodup, ?_, ?_, hf.ordered⟩
  · intro k hk
    by_cases hke : k = e.msgId
    · exact ⟨e, h, hke.symm⟩
    · have hk : Function.update (p.file t).msgIdInitialized e.msgId true k = true := hk
      rw [Function.update_of_ne hke] at hk
      exact hf.marked k hk
  · intro x hx
    refine .inl ?_
    show Function.update (p.file t).msgIdInitialized e.msgId true x.msgId = true
    by_cases hxe : x.msgId = e.msgId
    · rw [hxe, Function.update_self]
    · rw [Function.update_of_ne hxe]
      rcases hf.described x hx with hm | hm
      · exact hm
      · cases hm
        exact absurd rfl hxe

/-- A statement ends. -/
theorem Inv.finish {p : Threads} (hp : p.Inv) {t : Nat} {msgId : UInt32} {s : Stmt} {off : Bool}
    (hpc : p.pc t = .finish msgId s off) {x : FileEntry} (hx : x.done? = some (msgId, s)) :
    ((p.file t).append x).Ok p.msgId none := by
  have h : ∃ e ∈ (p.file t).dict, e.msgId = msgId ∧ e.stmt = s := by
    have h := hp.pc t
    rwa [hpc] at h
  have hf := hp.file t
  rw [hpc] at hf
  have hdict : ((p.file t).append x).dict = (p.file t).dict := by
    refine ThreadFile.dict_append_done _ ?_
    cases x with
    | msgDesc e => cases hx
    | msg _ _ => rfl
    | off _ _ => rfl
  refine ⟨hdict ▸ hf.own, hdict ▸ hf.nodup, hdict ▸ hf.marked, hdict ▸ hf.described,
    hf.ordered.append fun id' s' h' => ?_⟩
  rw [hx] at h'
  cases h'
  obtain ⟨e, he, hid, hs⟩ := h
  exact ⟨e, ThreadFile.mem_dict.mp he, hid, hs⟩

/-! ## Each step -/

@[simp] theorem allocateMsgId_msgId_self (p : Threads) (s : Stmt) :
    (p.allocateMsgId s).msgId s = p.allocatedId := Function.update_self ..

theorem allocateMsgId_msgId_ne (p : Threads) {s s' : Stmt} (h : s' ≠ s) :
    (p.allocateMsgId s).msgId s' = p.msgId s' := Function.update_of_ne h ..

/-- Below 2^31 the counter does not come back to zero. -/
theorem Shared.allocatedId {p : Threads} (hp : p.Shared) (hb : p.allocated + 1 < 2 ^ 31) :
    p.allocatedId.toNat = p.allocated + 1
      ∧ (p.allocatedId + 1).toNat = p.allocated + 1 + 1 := by
  have hne : p.nextMsgId ≠ 0 := by
    intro h
    have hnext := hp.next
    rw [h] at hnext
    cases hnext
  rw [Threads.allocatedId, if_neg hne, UInt32.toNat_add, hp.next]
  exact ⟨rfl, Nat.mod_eq_of_lt (by simp only [UInt32.toNat_one]; omega)⟩

theorem keepsIds_allocateMsgId {p : Threads} {s : Stmt} (h : p.msgId s = 0) :
    KeepsIds p.msgId (p.allocateMsgId s).msgId := by
  intro s' hs'
  have hne : s' ≠ s := by
    rintro rfl
    exact hs' h
  exact allocateMsgId_msgId_ne p hne

/-- A new id is different from all others. -/
theorem Shared.allocateMsgId {p : Threads} (hp : p.Shared) (hb : p.allocated + 1 < 2 ^ 31)
    (s : Stmt) : (p.allocateMsgId s).Shared := by
  obtain ⟨hid, hnext⟩ := hp.allocatedId hb
  have hnew : ∀ s', p.msgId s' ≠ p.allocatedId := by
    intro s' h
    have hle := hp.le s'
    rw [h, hid] at hle
    omega
  refine ⟨hnext, fun s' => ?_, fun a b ha hab => ?_⟩
  · by_cases hs : s' = s
    · subst hs
      rw [allocateMsgId_msgId_self, hid]
      exact Nat.le_refl _
    · rw [allocateMsgId_msgId_ne p hs]
      exact Nat.le_succ_of_le (hp.le s')
  · by_cases has : a = s <;> by_cases hbs : b = s
    · rw [has, hbs]
    · subst has
      rw [allocateMsgId_msgId_self, allocateMsgId_msgId_ne p hbs] at hab
      exact absurd hab.symm (hnew b)
    · subst hbs
      rw [allocateMsgId_msgId_self, allocateMsgId_msgId_ne p has] at hab
      exact absurd hab (hnew a)
    · rw [allocateMsgId_msgId_ne p has] at ha hab
      rw [allocateMsgId_msgId_ne p hbs] at hab
      exact hp.apart a b ha hab

/-- Only the thread with the lock allocates. -/
theorem Inv.allocateMsgId {p : Threads} (hp : p.Inv) {t : Nat} {s : Stmt}
    (hpc : p.pc t = .allocate s) (hb : p.allocated + 1 < 2 ^ 31) :
    ((p.allocateMsgId s).goto t (.unlock s)).Inv := by
  have hs := hp.allocate t s hpc
  have hkeeps := keepsIds_allocateMsgId hs
  have hlock : p.msgIdAllocMutex = some t := (hp.lock t).mp (by rw [hpc]; rfl)
  have hnew : ¬ (p.file t).Describes s := by
    have h := hp.pc t
    rwa [hpc] at h
  have hshared := hp.shared.allocateMsgId hb s
  refine ⟨⟨hshared.next, hshared.le, hshared.apart⟩, fun u => ?_, fun u s' h => ?_, fun u => ?_,
    fun u => ?_⟩ <;> by_cases hu : u = t
  · subst hu
    rw [goto_pc_self]
    exact iff_of_true rfl hlock
  · rw [goto_pc_ne _ hu]
    exact hp.lock u
  · subst hu
    rw [goto_pc_self] at h
    cases h
  · rw [goto_pc_ne _ hu] at h
    have hmutex := (hp.lock u).mp (by rw [show p.pc u = .allocate s' from h]; rfl)
    rw [hlock] at hmutex
    exact absurd (Option.some.inj hmutex).symm hu
  · subst hu
    rw [goto_pc_self]
    refine ⟨fun h => ?_, hnew⟩
    have hid := (hp.shared.allocatedId hb).1
    have h : (p.allocateMsgId s).msgId s = 0 := h
    rw [allocateMsgId_msgId_self] at h
    rw [h] at hid
    cases hid
  · rw [goto_pc_ne _ hu]
    exact (hp.pc u).keeps hkeeps
  · subst hu
    rw [goto_pc_self]
    have hf := (hp.file u).keeps hkeeps
    rw [hpc] at hf
    exact hf
  · rw [goto_pc_ne _ hu]
    exact (hp.file u).keeps hkeeps

/-- The lock is taken, or given back. -/
theorem Inv.setMutex {p : Threads} (hp : p.Inv) {t : Nat} {pc : Pc} {m : Option Nat}
    (hl : ∀ u, (p.pc u).locked = true → u = t) (hm : m = if pc.locked then some t else none)
    (ha : ∀ s, pc = .allocate s → p.msgId s = 0) (hpc : PcOk p.msgId (p.file t) pc)
    (hu : pc.unmarked = (p.pc t).unmarked) :
    ({ p.goto t pc with msgIdAllocMutex := m } : Threads).Inv := by
  refine ⟨⟨hp.shared.next, hp.shared.le, hp.shared.apart⟩, fun u => ?_, fun u s h => ?_,
    fun u => ?_, fun u => ?_⟩ <;> by_cases hut : u = t
  · subst hut
    show ((p.goto u pc).pc u).locked = true ↔ m = some u
    rw [goto_pc_self, hm]
    split
    · rename_i h
      exact iff_of_true h rfl
    · rename_i h
      exact iff_of_false h (by simp)
  · show ((p.goto t pc).pc u).locked = true ↔ m = some u
    rw [goto_pc_ne _ hut, hm]
    refine iff_of_false (fun h => hut (hl u h)) fun h => ?_
    split at h
    · exact hut (Option.some.inj h).symm
    · cases h
  · subst hut
    have h : (p.goto u pc).pc u = .allocate s := h
    rw [goto_pc_self] at h
    exact ha s h
  · have h : (p.goto t pc).pc u = .allocate s := h
    rw [goto_pc_ne _ hut] at h
    exact hp.allocate u s h
  · subst hut
    show PcOk p.msgId (p.file u) ((p.goto u pc).pc u)
    rw [goto_pc_self]
    exact hpc
  · show PcOk p.msgId (p.file u) ((p.goto t pc).pc u)
    rw [goto_pc_ne _ hut]
    exact hp.pc u
  · subst hut
    show (p.file u).Ok p.msgId ((p.goto u pc).pc u).unmarked
    rw [goto_pc_self, hu]
    exact hp.file u
  · show (p.file u).Ok p.msgId ((p.goto t pc).pc u).unmarked
    rw [goto_pc_ne _ hut]
    exact hp.file u

/-- The step lemma of one thread: a case for each point. -/
theorem Inv.advance {p q : Threads} (hp : p.Inv) {t : Nat} {tsc : UInt64} {off : Bool}
    (h : p.advance t tsc off = some q) (hb : q.allocated < 2 ^ 31) : q.Inv := by
  have hpcok := hp.pc t
  unfold Threads.advance at h
  split at h <;> rename_i hpc <;> rw [hpc] at hpcok
  · cases h
  · rename_i s
    cases h
    split
    · rename_i hhas
      exact hp.goto (by rw [hpc]; rfl) (fun _ h => by cases h) (hp.describes hhas) (by rw [hpc]; rfl)
    · rename_i hhas
      exact hp.goto (by rw [hpc]; rfl) (fun _ h => by cases h)
        (hp.not_describes (by rw [hpc]; rfl) (Bool.eq_false_iff.mpr hhas)) (by rw [hpc]; rfl)
  · cases h
    split
    · exact hp.goto (by rw [hpc]; rfl) (fun _ h => by cases h) hpcok (by rw [hpc]; rfl)
    · rename_i hne
      exact hp.goto (by rw [hpc]; rfl) (fun _ h => by cases h) ⟨hne, hpcok⟩ (by rw [hpc]; rfl)
  · rename_i s
    split at h
    · rename_i hfree
      cases h
      refine hp.setMutex (fun u hu => ?_) rfl (fun _ h => by cases h) hpcok (by rw [hpc]; rfl)
      have hmutex := (hp.lock u).mp hu
      rw [hfree] at hmutex
      cases hmutex
    · cases h
  · rename_i s
    cases h
    split
    · rename_i hs
      exact hp.goto (by rw [hpc]; rfl) (fun _ h => by cases h; exact hs) hpcok (by rw [hpc]; rfl)
    · rename_i hne
      exact hp.goto (by rw [hpc]; rfl) (fun _ h => by cases h) ⟨hne, hpcok⟩ (by rw [hpc]; rfl)
  · cases h
    exact hp.allocateMsgId hpc hb
  · cases h
    refine hp.setMutex (fun u hu => ?_) rfl (fun _ h => by cases h) hpcok (by rw [hpc]; rfl)
    have hmutex := (hp.lock u).mp hu
    rw [(hp.lock t).mp (by rw [hpc]; rfl)] at hmutex
    exact (Option.some.inj hmutex).symm
  · cases h
    exact hp.goto (by rw [hpc]; rfl) (fun _ h => by cases h) ⟨hpcok.1, rfl, hpcok.2⟩
      (by rw [hpc]; rfl)
  · rename_i e
    cases h
    exact hp.move (by rw [hpc]; rfl) (fun _ h => by cases h)
      (by rw [PcOk, ThreadFile.dict_append_msgDesc]; exact List.mem_append_right _ (by simp))
      (hp.write hpc)
  · rename_i e
    cases h
    exact hp.move (by rw [hpc]; rfl) (fun _ h => by cases h) ⟨e, hpcok, rfl⟩ (hp.mark hpc)
  · rename_i s
    cases h
    obtain ⟨e, he, rfl⟩ := hpcok
    exact hp.goto (by rw [hpc]; rfl) (fun _ h => by cases h)
      ⟨e, he, (((hp.file t).own e he).2).symm, rfl⟩ (by rw [hpc]; rfl)
  · rename_i msgId s off'
    cases h
    cases off' with
    | true =>
      exact hp.move (by rw [hpc]; rfl) (fun _ h => by cases h) trivial (hp.finish hpc rfl)
    | false =>
      exact hp.move (by rw [hpc]; rfl) (fun _ h => by cases h) trivial (hp.finish hpc rfl)

/-! ## Every interleaving -/

/-- Only an allocation changes the ids. -/
theorem Step.ids {p q : Threads} (h : Step p q) :
    (q.msgId = p.msgId ∧ q.allocated = p.allocated)
      ∨ ∃ t s, p.pc t = .allocate s ∧ q.msgId = (p.allocateMsgId s).msgId
        ∧ q.allocated = p.allocated + 1 := by
  cases h with
  | trace t s h => exact .inl ⟨rfl, rfl⟩
  | advance t tsc off q h =>
    unfold Threads.advance at h
    split at h
    case h_4 s hpc =>
      split at h
      · cases h
        exact .inl ⟨rfl, rfl⟩
      · cases h
    case h_6 s hpc =>
      cases h
      exact .inr ⟨t, s, hpc, rfl, rfl⟩
    all_goals
      cases h
      try exact .inl ⟨rfl, rfl⟩

/-- No allocation is taken back. -/
theorem Step.allocated_le {p q : Threads} (h : Step p q) : p.allocated ≤ q.allocated := by
  rcases h.ids with ⟨-, ha⟩ | ⟨_, _, _, -, ha⟩ <;> omega

/-- A step keeps the ids there are. -/
theorem Step.keeps {p q : Threads} (hp : p.Inv) (h : Step p q) : KeepsIds p.msgId q.msgId := by
  rcases h.ids with ⟨hid, -⟩ | ⟨t, s, hpc, hid, -⟩
  · rw [hid]
    exact .refl _
  · rw [hid]
    exact keepsIds_allocateMsgId (hp.allocate t s hpc)

/-- The step lemma. -/
theorem Inv.step {p q : Threads} (hp : p.Inv) (h : Step p q) (hb : q.allocated < 2 ^ 31) :
    q.Inv := by
  cases h with
  | trace t s h =>
    exact hp.goto (by rw [h]; rfl) (fun _ h => by cases h) trivial (by rw [h]; rfl)
  | advance t tsc off q h => exact hp.advance h hb

/-- A thread in a statement can go on, or waits for the one that has the
lock, which can. -/
theorem Inv.not_stuck {p : Threads} (hp : p.Inv) {t : Nat} (h : p.pc t ≠ .idle) (tsc : UInt64)
    (off : Bool) : (∃ q, p.advance t tsc off = some q)
      ∨ ∃ u q, p.msgIdAllocMutex = some u ∧ p.advance u tsc off = some q := by
  unfold Threads.advance
  cases hpc : p.pc t with
  | idle => exact absurd hpc h
  | lock s =>
    cases hm : p.msgIdAllocMutex with
    | none => exact .inl ⟨_, if_pos rfl⟩
    | some u =>
      refine .inr ⟨u, ?_⟩
      have hu := (hp.lock u).mpr hm
      cases hpu : p.pc u with
      | recheck s => exact ⟨_, rfl, rfl⟩
      | allocate s => exact ⟨_, rfl, rfl⟩
      | unlock s => exact ⟨_, rfl, rfl⟩
      | _ =>
        rw [hpu] at hu
        cases hu
  | _ => exact .inl ⟨_, rfl⟩

/-- Along a run the invariant holds and ids stay, up to 2^31 allocations. -/
theorem Runs.inv {p q : Threads} (hp : p.Inv) (h : Runs p q) (hb : q.allocated < 2 ^ 31) :
    q.Inv ∧ KeepsIds p.msgId q.msgId := by
  induction h with
  | refl => exact ⟨hp, .refl _⟩
  | tail _ hstep ih =>
    obtain ⟨hr, hkeeps⟩ := ih (Nat.lt_of_le_of_lt hstep.allocated_le hb)
    exact ⟨hr.step hstep hb, hkeeps.trans (hstep.keeps hr)⟩

theorem Runs.allocated_le {p q : Threads} (h : Runs p q) : p.allocated ≤ q.allocated := by
  induction h with
  | refl => exact Nat.le_refl _
  | tail _ hstep ih => exact Nat.le_trans ih hstep.allocated_le

/-- A file in order has one descriptor for each id in it. -/
theorem one_descriptor {dict : List DictEntry} (h : (dict.map DictEntry.msgId).Nodup)
    {e : DictEntry} (he : e ∈ dict) :
    (dict.filter fun x => x.msgId == e.msgId).length = 1 := by
  have hcount := List.count_eq_one_of_mem h (List.mem_map_of_mem he)
  rw [List.count_eq_countP, List.countP_map, List.countP_eq_length_filter] at hcount
  exact hcount

/-- In every interleaving of any number of threads: a statement keeps its id,
no two have the same, every statement that is done has used its own, and in
front of every message there is its descriptor, the only one with its id. -/
theorem ids_safe {p q : Threads} (hp : Reachable p) (hpq : Runs p q)
    (hb : q.allocated < 2 ^ 31) :
    KeepsIds p.msgId q.msgId
    ∧ (∀ s s', q.msgId s ≠ 0 → q.msgId s = q.msgId s' → s = s')
    ∧ ∀ t,
      (∀ x ∈ (q.file t).entries, ∀ msgId s, x.done? = some (msgId, s) →
        msgId ≠ 0 ∧ msgId = q.msgId s)
      ∧ ∀ l r msgId s, (q.file t).entries = l ++ .msg msgId s :: r →
        ((q.file t).dict.filter fun e => e.msgId == msgId).length = 1
        ∧ ∃ e, .msgDesc e ∈ l ∧ e.msgId = msgId ∧ e.stmt = s := by
  obtain ⟨hpi, -⟩ := hp.inv inv_init (Nat.lt_of_le_of_lt hpq.allocated_le hb)
  obtain ⟨hq, hkeeps⟩ := hpq.inv hpi hb
  refine ⟨hkeeps, hq.shared.apart, fun t => ⟨fun x hx msgId s hdone => ?_,
    fun l r msgId s heq => ?_⟩⟩
  · obtain ⟨l, r, heq⟩ := List.append_of_mem hx
    obtain ⟨e, he, rfl, rfl⟩ := (hq.file t).ordered l x r heq msgId s hdone
    have hmem : e ∈ (q.file t).dict :=
      ThreadFile.mem_dict.mpr (by rw [heq]; exact List.mem_append_left _ he)
    obtain ⟨hne, hid⟩ := (hq.file t).own e hmem
    exact ⟨hne, hid.symm⟩
  · obtain ⟨e, he, rfl, rfl⟩ := (hq.file t).ordered l _ r heq msgId s rfl
    have hmem : e ∈ (q.file t).dict :=
      ThreadFile.mem_dict.mpr (by rw [heq]; exact List.mem_append_left _ he)
    exact ⟨one_descriptor (hq.file t).nodup hmem, e, he, rfl, rfl⟩

/-- What a schedule lets happen next. -/
inductive Move where
  | trace (t : Nat) (s : Stmt)
  | advance (t : Nat) (tsc : UInt64) (off : Bool)

/-- One move; a thread that cannot move stays where it is. -/
def move (p : Threads) : Move → Threads
  | .trace t s => if p.pc t = .idle then p.goto t (.check s) else p
  | .advance t tsc off => (p.advance t tsc off).getD p

/-- A schedule. -/
def run (p : Threads) (ms : List Move) : Threads := ms.foldl move p

/-- Every schedule is an interleaving. -/
theorem runs_run : ∀ (ms : List Move) (p : Threads), Runs p (p.run ms)
  | [], _ => .refl
  | m :: ms, p => by
      have hrest := runs_run ms (p.move m)
      cases m with
      | trace t s =>
        by_cases h : p.pc t = .idle
        · exact .head (by rw [move, if_pos h]; exact .trace t s h) hrest
        · rw [show p.move (.trace t s) = p from if_neg h] at hrest
          rw [run, List.foldl_cons, show p.move (.trace t s) = p from if_neg h]
          exact hrest
      | advance t tsc off =>
        cases h : p.advance t tsc off with
        | none =>
          have hmove : p.move (.advance t tsc off) = p := by rw [move, h]; rfl
          rw [hmove] at hrest
          rw [run, List.foldl_cons, hmove]
          exact hrest
        | some q =>
          have hmove : p.move (.advance t tsc off) = q := by rw [move, h]; rfl
          refine .head ?_ hrest
          rw [hmove]
          exact .advance t tsc off q h

/-- Two threads at one statement: both have seen no id, one allocates. -/
def twoThreads : List Move :=
  [.trace 0 (Process.stmt 1), .trace 1 (Process.stmt 1)] ++
    (List.replicate 13 [Move.advance 0 5 false, .advance 1 6 false]).flatten

/-- Both end with the id 1 and one descriptor each. -/
theorem ids_safe_two_threads :
    KeepsIds (init.run twoThreads).msgId ((init.run twoThreads).run twoThreads).msgId
    ∧ (∀ s s', ((init.run twoThreads).run twoThreads).msgId s ≠ 0 →
        ((init.run twoThreads).run twoThreads).msgId s
          = ((init.run twoThreads).run twoThreads).msgId s' → s = s')
    ∧ ∀ t,
      (∀ x ∈ (((init.run twoThreads).run twoThreads).file t).entries, ∀ msgId s,
        x.done? = some (msgId, s) →
          msgId ≠ 0 ∧ msgId = ((init.run twoThreads).run twoThreads).msgId s)
      ∧ ∀ l r msgId s, (((init.run twoThreads).run twoThreads).file t).entries
          = l ++ .msg msgId s :: r →
        ((((init.run twoThreads).run twoThreads).file t).dict.filter
          fun e => e.msgId == msgId).length = 1
        ∧ ∃ e, .msgDesc e ∈ l ∧ e.msgId = msgId ∧ e.stmt = s :=
  ids_safe (runs_run twoThreads init) (runs_run twoThreads _) (by decide +kernel)

example : ((init.run twoThreads).file 1).entries
    = [.msgDesc ⟨6, 1, Process.stmt 1⟩, .msg 1 (Process.stmt 1)] := by decide +kernel

end Threads

end QuickTrace
