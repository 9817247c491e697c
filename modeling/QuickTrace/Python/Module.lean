/-
QuickTrace.Python.Module — a Python program that traces into one file.

`tracef` looks its caller up in `_msgId`. At the first call `_createMsg` has
`messageIs` write a descriptor under a new id and remember the key; every call
then streams its objects by this key. The file is initialized before and not
closed, and the writes are complete.

`Sim` relates the module to a program of `Handle.Program`, whose statements
are those of the first calls and whose arguments are what the conversions
return (`values`). `cat_tells_python` is what `qttail -c` shows.
-/
import QuickTrace.Python.Trace
import QuickTrace.Handle.ProgramTheorems

namespace QuickTrace

namespace Python

open QuickTrace.Lib RingBuf Printf
open ForeverLog.TraceHandle (kibHandle)

variable {Obj : Type} [DecidableEq Obj]

namespace Module

/-! ## The module -/

/-- `_msgId` by call site, with zero for a missing entry; `msgFormatDict`; the
counter of the handle; and the file: its descriptors, levels and counters. -/
structure State (k : Nat) where
  msgId : Fin k → UInt32
  msgFormatDict : UInt32 → Option Text
  nextMsgId : UInt32
  dict : Text
  log : Fin NumTraceLevels → RingBuf
  cs : MsgCounters
  mem : Mem

variable {k : Nat} (type : Obj → PyType) (n : Nat)

/-- `messageIs`: the id, which is never zero. `none` is an exception, as
`PyArg_ParseTuple` takes no string with a NUL, or the end of the process: by a
descriptor that does not fit its buffer, or in `finish` by a negative id. -/
def messageIs (s : State k) (file : Text) (line : Int32) (msg fmt : Text) (tsc : UInt64) :
    Option (UInt32 × State k) :=
  let msgId := if s.nextMsgId = 0 then 1 else s.nextMsgId
  if 0 ∈ file ++ msg ++ fmt ∨ 2 ^ 31 ≤ msgId.toNat then none
  else
    (MsgDesc.write tsc file line msgId fmt [.cstr msg]).map fun bytes =>
      (msgId, { s with
        msgFormatDict := Function.update s.msgFormatDict msgId (some fmt)
        nextMsgId := msgId + 1
        dict := s.dict ++ bytes })

/-- A call of a trace function. `site` stands for the pair of code object and
line number that is the key in `_msgId`. -/
structure Call (Obj : Type) (k : Nat) where
  site : Fin k
  co_filename : Text
  f_lineno : Int32
  level : Fin NumTraceLevels
  args : List (TraceArg Obj)
  py : CPython Obj
  descTsc : UInt64
  tsc : UInt64

/-- The first half of `tracef`: the id of the caller. -/
def getMsgId (s : State k) (c : Call Obj k) : Option (UInt32 × State k) :=
  if s.msgId c.site = 0 then
    let m := createMsg type c.args
    (messageIs s c.co_filename c.f_lineno m.1 m.2 c.descTsc).map fun r =>
      (r.1, { r.2 with msgId := Function.update r.2.msgId c.site r.1 })
  else some (s.msgId c.site, s)

/-- `tracef`. An exception that `trace` raises leaves the record behind. -/
def tracef (s : State k) (c : Call Obj k) : Option (State k) :=
  (getMsgId type s c).bind fun (msgId, s) =>
    (trace c.py n s.msgFormatDict (s.log c.level) s.cs c.tsc msgId (vargs c.args)).map fun r =>
      { s with
        log := Function.update s.log c.level r.ringBuf
        cs := r.counters
        mem := s.mem.applyAll r.stores }

/-- What happens: a call, or another process writes the counters. -/
inductive Action (Obj : Type) (k : Nat) where
  | call (c : Call Obj k)
  | ctl (counter : Nat → MsgCounter)

/-- One action. -/
def step (s : State k) : Action Obj k → Option (State k)
  | .call c => tracef type n s c
  | .ctl counter => some { s with cs := { s.cs with counter } }

/-- A run. -/
def run (s : State k) : List (Action Obj k) → Option (State k)
  | [] => some s
  | a :: as => (step type n s a).bind fun s' => run s' as

/-- The module on a new file. -/
def start (th : ForeverLog.TraceHandle) (cs : MsgCounters) : State k :=
  let tf := TraceFile.create th.spec th.logStart cs
  { msgId := fun _ => 0
    msgFormatDict := fun _ => none
    nextMsgId := 1
    dict := []
    log := fun i => (tf.log i).rb
    cs := tf.cs
    mem := tf.mem }

/-- The bytes of the file. -/
def State.bytes (s : State k) (th : ForeverLog.TraceHandle) (header : Nat → UInt8) : List UInt8 :=
  th.mapped header s.mem ++ s.dict

/-! ## What it does -/

/-- The statement of a call site: that of the first call. -/
structure Site extends Statement where
  pyTypes : List PyType
  types_eq : types = pyTypes.map PyType.ty

/-- The key is the one of the types. -/
theorem Site.key_joinKeys (x : Site) : x.key = joinKeys (x.pyTypes.map PyType.ty) := by
  rw [ofTypes_eq x.key_eq, x.types_eq]

/-- A first call makes the site what it is. -/
structure Makes (c : Call Obj k) (x : Site) : Prop where
  filename : x.filename = c.co_filename
  lineno : x.lineno = c.f_lineno
  insertions : x.insertions = [.cstr (createMsg type c.args).1]
  pyTypes : x.pyTypes = (vargs c.args).map type
  noNul : 0 ∉ (createMsg type c.args).1

variable {type} in
omit [DecidableEq Obj] in
theorem Makes.key {c : Call Obj k} {x : Site} (h : Makes type c x) :
    (createMsg type c.args).2 = x.key := by
  rw [createMsg_key, x.key_joinKeys, h.pyTypes]

variable (sites : Fin k → Site) (th : ForeverLog.TraceHandle)

/-- The statements of the sites. -/
def prog (a : Fin k) : Statement := (sites a).toStatement

/-- The action of the program. -/
def Action.traces : Action Obj k → Program.Action k
  | .call c => .trace c.site c.level
      ((values c.py 0 (sites c.site).pyTypes (vargs c.args)).map .val) c.descTsc c.tsc
  | .ctl counter => .ctl counter

/-- What a call has to respect. The first one at a site makes it; no string
conversion fails; and a message that is recorded fits the trailer and is the
youngest of its level. -/
structure CallOk (s : Program.State k) (c : Call Obj k) : Prop where
  first : s.msgId c.site = 0 → Makes type c (sites c.site)
  shows : Shows c.py th.n 0 ((sites c.site).pyTypes.map PyType.fmt) (vargs c.args)
  record : let args := (values c.py 0 (sites c.site).pyTypes (vargs c.args)).map Arg.val
    let s' := Program.describe (prog sites) s c.site c.descTsc
    let h := s'.hit ⟨c.site, c.tsc, args⟩
    s'.tf.cs.off h.id = false →
      Level.RecordOk (fun _ => True) th.n (s'.tf.ring c.level) h

/-- What a run has to respect. -/
def Allowed (s : Program.State k) : List (Action Obj k) → Prop
  | [] => True
  | a :: as =>
    (match a with
      | .call c => CallOk type sites th s c
      | .ctl _ => True)
      ∧ Allowed (Program.step (prog sites) th s (a.traces sites)) as

/-- The module and the program have the same ids and the same file. -/
structure Sim (s : Program.State k) (p : State k) : Prop where
  msgId : p.msgId = s.msgId
  nextMsgId : p.nextMsgId = s.nextMsgId
  dict : p.dict = s.dict.bytes
  log : ∀ i, p.log i = (s.tf.log i).rb
  cs : p.cs = s.tf.cs
  mem : p.mem = s.tf.mem
  marked : ∀ a, s.msgId a ≠ 0 → s.hasMsgId a = true
  keys : ∀ a, s.msgId a ≠ 0 → p.msgFormatDict (s.msgId a) = some (sites a).key

variable {type sites th} {s : Program.State k} {p : State k}

theorem sim_start (cs : MsgCounters) : Sim sites (Program.start th cs) (start th cs) where
  msgId := rfl
  nextMsgId := rfl
  dict := rfl
  log := fun _ => rfl
  cs := rfl
  mem := rfl
  marked := fun _ h => absurd rfl h
  keys := fun _ h => absurd rfl h

/-! ## The steps -/

/-- The id that is given out next is not negative. -/
theorem nextMsgId_lt (hk : k < 2 ^ 31 - 1) {prog : Fin k → Statement} (h : Program.Ok prog th s)
    {a : Fin k} (hz : s.msgId a = 0) : s.nextMsgId.toNat < 2 ^ 31 := by
  have hlt := h.ids.next_lt (by rw [Finset.card_univ, Fintype.card_fin]; exact hk)
    (Finset.mem_univ a) hz ()
  omega

/-- What the program does at a statement that has no id. -/
theorem describe_new {prog : Fin k → Statement} (h : Program.Ok prog th s) {a : Fin k}
    (hz : s.msgId a = 0) (hlt : s.nextMsgId.toNat < 2 ^ 31) (descTsc : UInt64) :
    Program.describe prog s a descTsc = { s with
      msgId := Function.update s.msgId a s.nextMsgId
      nextMsgId := s.nextMsgId + 1
      dict := s.dict.finish ⟨(prog a).descriptor descTsc s.nextMsgId,
        ((prog a).descriptor descTsc s.nextMsgId).bytes.length, hlt⟩ } := by
  have hoff : s.hasMsgId a = false := by
    rw [Program.State.hasMsgId, hz]
    rfl
  have hne : s.nextMsgId ≠ 0 := h.ids.next_ne_zero ()
  rw [Program.describe, hoff, Program.writeMsgDesc, Program.allocateMsgId,
    if_neg (not_not.mpr hz), if_neg hne]
  simp only [Function.update_self]
  exact dif_pos hlt

omit [DecidableEq Obj] in
/-- The first call at a site writes the descriptor of its statement. -/
theorem getMsgId_first (h : Program.Ok (prog sites) th s) (hs : Sim sites s p) {c : Call Obj k}
    (hz : s.msgId c.site = 0) (hlt : s.nextMsgId.toNat < 2 ^ 31)
    (hm : Makes type c (sites c.site)) :
    getMsgId type p c = some (s.nextMsgId, { p with
      msgId := Function.update s.msgId c.site s.nextMsgId
      msgFormatDict := Function.update p.msgFormatDict s.nextMsgId (some (sites c.site).key)
      nextMsgId := s.nextMsgId + 1
      dict := s.dict.bytes ++ ((prog sites c.site).descriptor c.descTsc s.nextMsgId).bytes }) := by
  have hne : s.nextMsgId ≠ 0 := h.ids.next_ne_zero ()
  have hnul : 0 ∉ c.co_filename ++ (createMsg type c.args).1 ++ (sites c.site).key := by
    rw [List.mem_append, List.mem_append, not_or, not_or, ← hm.filename]
    exact ⟨⟨fun h0 => ((sites c.site).filename_graph 0 h0).2 rfl, hm.noNul⟩,
      fun h0 => ((prog sites c.site).descriptor c.descTsc s.nextMsgId).key_ne 0 h0 rfl⟩
  have hwrite : MsgDesc.write c.descTsc c.co_filename c.f_lineno s.nextMsgId
      (createMsg type c.args).2 [.cstr (createMsg type c.args).1]
      = some ((prog sites c.site).descriptor c.descTsc s.nextMsgId).bytes := by
    rw [hm.key, ← hm.filename, ← hm.lineno, ← hm.insertions]
    exact ((prog sites c.site).descriptor c.descTsc s.nextMsgId).written
  unfold getMsgId messageIs
  rw [hs.msgId, if_pos hz]
  dsimp only
  rw [hs.nextMsgId, if_neg hne, hwrite, hm.key,
    if_neg (not_or.mpr ⟨hnul, Nat.not_le.mpr hlt⟩), hs.dict]
  rfl

omit [DecidableEq Obj] in
/-- `_msgId` and `messageIs` do what the static id does. -/
theorem getMsgId_spec (hk : k < 2 ^ 31 - 1) (h : Program.Ok (prog sites) th s) (hs : Sim sites s p)
    {c : Call Obj k} (hfirst : s.msgId c.site = 0 → Makes type c (sites c.site)) :
    ∃ p', getMsgId type p c
        = some ((Program.describe (prog sites) s c.site c.descTsc).msgId c.site, p')
      ∧ Sim sites (Program.describe (prog sites) s c.site c.descTsc) p' := by
  by_cases hz : s.msgId c.site = 0
  · obtain ⟨hg, hhas, -, -⟩ := Program.describe_spec hk h c.site c.descTsc
    have hlt := nextMsgId_lt hk h hz
    rw [describe_new h hz hlt] at hg hhas ⊢
    dsimp only
    rw [Function.update_self]
    refine ⟨_, getMsgId_first h hs hz hlt (hfirst hz), rfl, rfl, ?_, hs.log, hs.cs, hs.mem,
      fun b hb => ?_, fun b hb => ?_⟩
    · exact congrArg (s.dict.bytes ++ ·) (List.take_length ..).symm
    · by_cases hba : b = c.site
      · rw [hba]
        exact hhas
      · dsimp only at hb
        rw [Function.update_of_ne hba] at hb
        exact (hg.keeps b (hs.marked b hb)).2
    · dsimp only at hb ⊢
      by_cases hba : b = c.site
      · rw [hba, Function.update_self, Function.update_self]
      · rw [Function.update_of_ne hba] at hb ⊢
        rw [Function.update_of_ne (h.ids.fresh rfl)]
        exact hs.keys b hb
  · have heq : Program.describe (prog sites) s c.site c.descTsc = s := by
      rw [Program.describe, if_pos (hs.marked c.site hz)]
    rw [heq]
    refine ⟨p, ?_, hs⟩
    rw [getMsgId, hs.msgId, if_neg hz]

/-- A call is a trace statement of the program. -/
theorem tracef_spec (hk : k < 2 ^ 31 - 1) (h : Program.Ok (prog sites) th s) (hs : Sim sites s p)
    {c : Call Obj k} (hc : CallOk type sites th s c) :
    ∃ p', tracef type th.n p c = some p'
      ∧ Sim sites (Program.step (prog sites) th s ((Action.call c).traces sites)) p' := by
  obtain ⟨p₁, hlook, hs₁⟩ := getMsgId_spec hk h hs hc.first
  have hne := (Program.State.hasMsgId_iff.mp
    (Program.describe_spec hk h c.site c.descTsc).2.1).1
  have hkey := hs₁.keys c.site hne
  rw [Site.key_joinKeys] at hkey
  obtain ⟨r, hr, heq⟩ := trace_values hc.shows (p₁.log c.level) p₁.cs c.tsc hne hkey
  have hcall : tracef type th.n p c = some { p₁ with
      log := Function.update p₁.log c.level r.ringBuf
      cs := r.counters
      mem := p₁.mem.applyAll r.stores } := by
    rw [tracef, hlook, Option.bind_some]
    dsimp only
    rw [hr]
    rfl
  refine ⟨_, hcall, ?_⟩
  rw [hs₁.log, hs₁.cs, Prod.ext_iff, Prod.ext_iff] at heq
  obtain ⟨hring, hcs, hstores⟩ := heq
  refine ⟨hs₁.msgId, hs₁.nextMsgId, hs₁.dict, fun i => ?_, hcs, ?_, hs₁.marked, hs₁.keys⟩
  · dsimp only [Program.step, Program.record, Action.traces, TraceFile.trace]
    by_cases hi : i = c.level
    · rw [hi, Function.update_self, Function.update_self]
      exact hring
    · rw [Function.update_of_ne hi, Function.update_of_ne hi]
      exact hs₁.log i
  · show p₁.mem.applyAll r.stores = _
    rw [hs₁.mem, show r.stores = _ from hstores]
    rfl

/-- The arguments of a call have the types of its statement. -/
theorem CallOk.recordOk {c : Call Obj k} (hc : CallOk type sites th s c) :
    Program.RecordOk (prog sites) th (Program.describe (prog sites) s c.site c.descTsc) c.level
      ⟨c.site, c.tsc, (values c.py 0 (sites c.site).pyTypes (vargs c.args)).map .val⟩ where
  types := (values_ty 0 (sites c.site).pyTypes (vargs c.args)).trans (sites c.site).types_eq.symm
  each := hc.record

/-- The step lemma. -/
theorem step_spec (hk : k < 2 ^ 31 - 1) (h : Program.Ok (prog sites) th s) (hs : Sim sites s p)
    {a : Action Obj k} {as : List (Action Obj k)} (ha : Allowed type sites th s (a :: as)) :
    ∃ p', step type th.n p a = some p'
      ∧ Sim sites (Program.step (prog sites) th s (a.traces sites)) p'
      ∧ Program.Ok (prog sites) th (Program.step (prog sites) th s (a.traces sites)) := by
  cases a with
  | call c =>
    obtain ⟨p', hp', hs'⟩ := tracef_spec hk h hs ha.1
    exact ⟨p', hp', hs', Program.ok_run hk [(Action.call c).traces sites] h
      ⟨ha.1.recordOk, trivial⟩⟩
  | ctl counter =>
    refine ⟨_, rfl, ⟨hs.msgId, hs.nextMsgId, hs.dict, hs.log, ?_, hs.mem, hs.marked, hs.keys⟩,
      Program.ok_run hk [.ctl counter] h ⟨trivial, trivial⟩⟩
    show ({ p.cs with counter } : MsgCounters) = { s.tf.cs with counter }
    rw [hs.cs]

/-- The run lemma. -/
theorem run_spec (hk : k < 2 ^ 31 - 1) : ∀ (as : List (Action Obj k)) {s : Program.State k}
    {p : State k}, Program.Ok (prog sites) th s → Sim sites s p → Allowed type sites th s as →
    ∃ p', run type th.n p as = some p'
      ∧ Sim sites (Program.run (prog sites) th s (as.map (Action.traces sites))) p'
      ∧ Program.Ok (prog sites) th (Program.run (prog sites) th s (as.map (Action.traces sites)))
  | [], _, _, h, hs, _ => ⟨_, rfl, hs, h⟩
  | a :: as, s, p, h, hs, ha => by
      obtain ⟨p₁, hp₁, hs₁, h₁⟩ := step_spec hk h hs ha
      obtain ⟨p', hp', hs', h'⟩ := run_spec hk as h₁ hs₁ ha.2
      exact ⟨p', by rw [run, hp₁]; exact hp', hs', h'⟩

/-- For every Python program whose call sites all get a positive id, every
interpreter, and every run in which no string conversion fails: the module
leaves the file of the program whose statements are those of the first calls
and whose arguments are what the conversions return, and at every moment
`qttail -c` shows of each level the youngest messages that were traced on it,
in their order and with the text of the first call at their site. -/
theorem cat_tells_python (hk : k < 2 ^ 31 - 1) (type : Obj → PyType) (sites : Fin k → Site)
    (th : ForeverLog.TraceHandle) (hn : th.n ≤ 80) (cs : MsgCounters)
    {as : List (Action Obj k)} (ha : Allowed type sites th (Program.start th cs) as)
    (header : Nat → UInt8) (levelEnabled : Fin NumTraceLevels → Bool) :
    ∃ p s, run type th.n (start th cs) as = some p
      ∧ s = Program.run (prog sites) th (Program.start th cs) (as.map (Action.traces sites))
      ∧ p.bytes th header = th.bytes header s.tf.mem s.dict
      ∧ Program.Told (prog sites) th s header levelEnabled := by
  obtain ⟨p, hp, hs, h⟩ := run_spec hk as (Program.ok_start (prog sites) th cs) (sim_start cs) ha
  refine ⟨p, _, hp, rfl, ?_, h.told hn header levelEnabled⟩
  rw [State.bytes, hs.mem, hs.dict]
  rfl

/-! ## A call site -/

theorem blank_ne_percent : (32 : UInt8) ≠ 37 := by decide

theorem blank_ne_nul : (32 : UInt8) ≠ 0 := by decide

/-- `trace( "up", Var( True ), Var( "a" ) )`. -/
def upSite : Site where
  filename := ascii ['m', '.', 'p', 'y']
  lineno := 7
  insertions := [.cstr (ascii ['u', 'p', ' ', '%', 's', ' ', '%', 's'])]
  tokens :=
    let s := Program.numberStatement.tokens.getLast Program.numberStatement.tokens_ne
    let blank : Token := .char 32 blank_ne_percent blank_ne_nul
    Program.plainStatement.tokens ++ [blank, s, blank, s]
  types := [.bool, .str]
  key := ascii ['b', ',', 'p']
  filename_ne := by decide
  filename_graph := forall_mem_text (by decide)
  lineno_ne := by decide
  text_eq := by decide
  tokens_ne := List.append_ne_nil_of_right_ne_nil _ (List.cons_ne_nil _ _)
  scalar := List.forall_mem_cons.mpr ⟨rfl, List.forall_mem_singleton.mpr rfl⟩
  key_eq := by decide
  fits := fun tsc msgId => MsgDesc.write_of_length (by decide) tsc 7 msgId
  pyTypes := [.bool, .str]
  types_eq := rfl

/-- A call at this site. -/
def upCall (args : List (TraceArg Sample)) (descTsc tsc : UInt64) : Action Sample 1 :=
  .call ⟨0, ascii ['m', '.', 'p', 'y'], 7, 2, args, Sample.python, descTsc, tsc⟩

/-- The site is called again with another text and other types, and then
without an object. -/
def upCalls : List (Action Sample 1) :=
  [upCall [.text (ascii ['u', 'p']), .var .true, .var (.text (ascii ['a']))] 7 8,
    upCall [.text (ascii ['d', 'o', 'w', 'n']), .var .none, .var .true] 9 10,
    .ctl fun _ => .zero, upCall [] 11 12]

theorem upCalls_shows {targs : List Sample}
    (h : ∃ c, shown Sample.python 1 (targs.tail.headD .none) = some c ∧ (cut 80 c).length ≤ 255) :
    Shows Sample.python 80 0 (upSite.pyTypes.map PyType.fmt) targs :=
  .cons (fun h => absurd h (by decide)) (.cons (fun _ => h) fun _ hk => by cases hk)

theorem upCalls_allowed : Allowed Sample.type (fun _ => upSite) kibHandle
    (Program.start kibHandle ⟨4, fun _ => .zero⟩) upCalls := by
  refine ⟨⟨fun _ => ⟨rfl, rfl, by decide, rfl, by decide⟩,
      upCalls_shows ⟨_, rfl, by decide⟩, fun _ => ?_⟩,
    ⟨fun h => ?_, upCalls_shows ⟨_, rfl, by decide⟩, fun _ => ?_⟩, trivial,
    ⟨fun h => ?_, upCalls_shows ⟨_, rfl, by decide⟩, fun _ => ?_⟩, trivial⟩
  · exact ⟨by decide +kernel, by decide +kernel, by decide, by decide, trivial⟩
  · exact absurd h (by decide)
  · exact ⟨by decide +kernel, by decide +kernel, by decide, by decide, trivial⟩
  · exact absurd h (by decide)
  · exact ⟨by decide +kernel, by decide +kernel, by decide, by decide, trivial⟩

theorem cat_tells_python_one : ∃ p s, run Sample.type 80 (start kibHandle
    ⟨4, fun _ => .zero⟩) upCalls = some p
    ∧ s = Program.run (prog fun _ => upSite) kibHandle
        (Program.start kibHandle ⟨4, fun _ => .zero⟩)
        (upCalls.map (Action.traces fun _ => upSite))
    ∧ p.bytes kibHandle (fun _ => 0)
      = kibHandle.bytes (fun _ => 0) s.tf.mem s.dict
    ∧ Program.Told (prog fun _ => upSite) kibHandle s (fun _ => 0) fun _ => true :=
  cat_tells_python (by decide) Sample.type (fun _ => upSite) kibHandle (by decide)
    ⟨4, fun _ => .zero⟩ upCalls_allowed (fun _ => 0) fun _ => true

end Module

end Python

end QuickTrace
