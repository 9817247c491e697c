/-
QuickTrace.Handle.ProgramTheorems — what `qttail -c` shows of a program.

The file is looked at between two actions of the program, as bytes: header
and levels, the trailer, and the descriptors. The reader makes its table of
the descriptors, so it has the formatter of every statement that was traced
(`Table.means`), rewinds the levels and merges them. `cat_tells_program` says
that the lines of a level are then the youngest messages that the program
traced on it, each with the text of its own statement and its own arguments,
and that the lines of all levels are in the order of time.
-/
import QuickTrace.Handle.Program
import QuickTrace.Tail.LineText

namespace QuickTrace

open QuickTrace.Lib RingBuf Level Printf
open ForeverLog.TraceHandle (kibHandle mem mem_bytes level_mapped readMessages_bytes)

/-- Reading a file whose levels are in order: the lines are those of the
selected levels, by time. -/
theorem cat_sorted {msgs : Messages} {n : Nat} (hn : n ≤ 80) {spec : SizeSpec} {logStart : Nat}
    {m : Mem} {r : Fin NumTraceLevels → Level} (h : LevelsOk (Described msgs) n spec logStart m r)
    {levelEnabled : Fin NumTraceLevels → Bool} {fuel : Nat} {t : Tail}
    (hrun : cat m msgs (spec.readers logStart levelEnabled) fuel = some (.done t)) :
    SortedBy Line.tsc t.out.lines
      ∧ ∀ l ∈ t.out.lines, ∃ i, levelEnabled i = true ∧ l.level = i.val := by
  have hlevel := fun i => rewind_yields i.val hn (spec.geometry i) (h.inv i) (h.log i)
  simp only [h.mem] at hlevel
  choose c ps hrew hyields hnone hsome using hlevel
  let file : OpenFile :=
    ⟨m, msgs, fun i => readerAt i (spec.levelStart logStart i) (spec.levelSize i) m (c i),
      fun _ => rfl⟩
  have hholds : (Argument.mk file levelEnabled).Holds ps := fun i _ => hyields i
  obtain ⟨fuel', t', hrun', hsorted, hlevels, -⟩ := mergesLevels_of_holds hholds
  unfold cat SizeSpec.readers at hrun
  rw [mapM_eq_some hrew] at hrun
  obtain rfl : t = t' := Tail.catOne_done_unique (Option.some.inj hrun) hrun'
  exact ⟨hsorted, hlevels⟩

namespace Program

variable {k : Nat} {prog : Fin k → Statement} {th : ForeverLog.TraceHandle} {s : State k}
  {T : MessageTable} {i : Fin NumTraceLevels} {x : Traced k}

/-! ## What has to be shown -/

/-- The line tells what was traced: the time, and the text of the statement
with the arguments as they were recorded. -/
structure Tells (prog : Fin k → Statement) (n : Nat) (l : Line) (x : Traced k) : Prop where
  tsc : l.tsc = x.tsc.toNat
  text : ∀ ft, l.text ft
    = meaning ft (prog x.stmt).tokens (x.args.map fun a => some (a.recovered n))

/-- The lines of a level tell the youngest messages traced on it: all since
the last wrap, and those before that the writer has not come near again. -/
structure LevelTold (prog : Fin k → Statement) (n : Nat) (s : State k) (i : Fin NumTraceLevels)
    (ls : List Line) : Prop where
  /-- In the one alignment the level is taken to be empty. -/
  aligned : Aligned (s.tf.ring i) → ls = []
  whole : ¬ Aligned (s.tf.ring i) → ∃ es xs, Whole (s.tf.ring i) es ∧ xs <:+ s.traced i
    ∧ xs.map s.hit = es.map Recorded.hit ∧ List.Forall₂ (Tells prog n) ls xs

/-- `qttail -c` on the bytes of the file ends, and the lines it has printed
are those of the selected levels by time. -/
def Told (prog : Fin k → Statement) (th : ForeverLog.TraceHandle) (s : State k)
    (header : Nat → UInt8) (levelEnabled : Fin NumTraceLevels → Bool) : Prop :=
  ∃ fuel msgs t, th.read levelEnabled (th.bytes header s.tf.mem s.dict) fuel = some (msgs, .done t)
    ∧ SortedBy Line.tsc t.out.lines
    ∧ (∀ l ∈ t.out.lines, ∃ i, levelEnabled i = true ∧ l.level = i.val)
    ∧ ∀ i, levelEnabled i = true →
      LevelTold prog th.n s i (t.out.lines.filter fun l => l.level = i.val)

/-! ## The table -/

theorem get_eq_some {msgs : Messages} {msgId : Nat} {mf : MessageFormatter}
    (h : msgs.get msgId = some mf) : msgs msgId = some mf := by
  rw [Messages.get, Option.filter_eq_some_iff] at h
  exact h.1

theorem Table.allSpelled (h : Table prog s T) : T.messages.AllSpelled := by
  intro msgId mf hget
  obtain ⟨a, rfl, ha⟩ := h.only msgId mf (get_eq_some hget)
  obtain ⟨mf', hmf', hof⟩ := h.owned a ha
  cases (get_eq_some hget).symm.trans hmf'
  exact ⟨_, _, hof.spelled⟩

/-- Every message of the file has the formatter of its statement. -/
theorem Table.means (h : Table prog s T) (ho : Owned prog s x) :
    Means T.messages (prog x.stmt) (s.hit x) :=
  ⟨ho.types, h.owned x.stmt ho.described⟩

/-- A line that shows the message tells it. -/
theorem Table.tells (h : Table prog s T) (ho : Owned prog s x) {n : Nat} {l : Line}
    (hl : l.Spelled T.messages) (hs : Shows T.messages n l (s.hit x)) : Tells prog n l x := by
  obtain ⟨mf, hget, hof⟩ := (h.means ho).get
  have hget' : T.messages.get l.msgId = some mf := by
    rw [hs.msgId]
    exact hget
  refine ⟨hs.tsc, fun ft => ?_⟩
  rw [hl mf _ _ hget' hof.spelled ft, hs.values mf hget', hof.shown, List.map_map]
  rfl

/-- A record of the file is one of a message that was traced. -/
theorem Ok.mem_traced (h : Ok prog th s) {e : Recorded} (he : e ∈ (s.tf.ring i).log) :
    ∃ x ∈ s.traced i, s.hit x = e.hit := by
  have hmem : e.hit ∈ (s.traced i).map s.hit := by
    rw [h.traced i]
    exact List.mem_map_of_mem he
  exact List.mem_map.mp hmem

/-- The log of a level, with the table of the file. -/
theorem Ok.described (h : Ok prog th s) (htable : Table prog s T) (i : Fin NumTraceLevels) :
    LogOk (Described T.messages) (s.tf.ring i).log := by
  refine ⟨(h.log i).sorted, (h.log i).pos, (h.log i).small, fun e he => ?_⟩
  obtain ⟨x, hx, hhit⟩ := h.mem_traced he
  rw [← hhit]
  exact (htable.means (h.owned i x hx)).described

/-! ## Reading the file -/

/-- A level of the file, in the memory of the reader. -/
def fileLevel (s : State k) (m : Mem) (i : Fin NumTraceLevels) : Level :=
  { s.tf.ring i with mem := m }

/-- A reader that maps the levels finds them in order. -/
theorem Ok.levels (h : Ok prog th s) (htable : Table prog s T) {m : Mem}
    (hm : ∀ x, th.logStart ≤ x → x < th.mappedSize → m x = s.tf.mem x) :
    LevelsOk (Described T.messages) th.n th.spec th.logStart m (fileLevel s m) where
  mem := fun _ => rfl
  inv := fun i => by
    refine (h.inv i).congr (th.spec.geometry i) _ fun x h1 h2 => ?_
    have hi := level_mapped th i
    exact hm x (Nat.le_trans hi.1 h1) (Nat.lt_of_lt_of_le h2 hi.2)
  log := fun i => h.described htable i

/-- What stands behind a part of the log was traced last. -/
theorem Ok.suffix (h : Ok prog th s) {es : List Recorded} (hes : es <:+ (s.tf.ring i).log) :
    ∃ xs, xs <:+ s.traced i ∧ xs.map s.hit = es.map Recorded.hit := by
  obtain ⟨pre, hpre⟩ := hes
  refine ⟨(s.traced i).drop pre.length, List.drop_suffix _ _, ?_⟩
  rw [List.map_drop, h.traced i, ← hpre, List.map_append]
  exact List.drop_left' (List.length_map _)

/-- The lines of a level, when they show a part of its log. -/
theorem Ok.levelTold (h : Ok prog th s) (htable : Table prog s T) {m : Mem} {n : Nat}
    {ls : List Line} (hl : ∀ l ∈ ls, l.Spelled T.messages)
    (hs : LevelShown T.messages n (fileLevel s m i) ls) : LevelTold prog n s i ls := by
  refine ⟨fun ha => hs.aligned ha, fun ha => ?_⟩
  obtain ⟨es, hshows, hwhole⟩ := hs.whole ha
  obtain ⟨xs, hsuffix, hhit⟩ := h.suffix hwhole.suffix
  refine ⟨es, xs, ⟨hwhole.suffix, hwhole.cur, hwhole.old⟩, hsuffix, hhit, ?_⟩
  rw [← hhit, List.forall₂_map_right_iff] at hshows
  have howned : ∀ x ∈ xs, Owned prog s x := fun x hx => h.owned i x (hsuffix.subset hx)
  clear hhit hsuffix hwhole hs ha
  induction hshows with
  | nil => exact .nil
  | cons hshow _ ih =>
    obtain ⟨hhead, htail⟩ := List.forall_mem_cons.mp hl
    obtain ⟨hx, hxs⟩ := List.forall_mem_cons.mp howned
    exact .cons (htable.tells hx hhead hshow) (ih htail hxs)

/-- The file of a program whose state is in order. -/
theorem Ok.told (hn : th.n ≤ 80) (h : Ok prog th s) (header : Nat → UInt8)
    (levelEnabled : Fin NumTraceLevels → Bool) : Told prog th s header levelEnabled := by
  obtain ⟨ds, T, hds, hT, htable⟩ := h.dict
  have hmsgs : Messages.ofDescriptors ds = some T.messages :=
    Messages.ofDescriptors_eq_some.mpr ⟨T, hT, rfl⟩
  have hlevels := h.levels htable (m := mem (th.bytes header s.tf.mem s.dict))
    fun x h1 h2 => mem_bytes h1 h2
  obtain ⟨fuel, t, hrun, hshown⟩ := cat_levels hn hlevels levelEnabled
  obtain ⟨hsorted, hselected⟩ := cat_sorted hn hlevels hrun
  have hspelled := cat_spelled htable.allSpelled hrun
  refine ⟨fuel, T.messages, t, ?_, hsorted, hselected, fun i hi => ?_⟩
  · rw [ForeverLog.TraceHandle.read, readMessages_bytes header _ hds, hmsgs,
      Option.bind_some, hrun]
    rfl
  · exact h.levelTold htable (fun l hl => hspelled l (List.mem_of_mem_filter hl)) (hshown i hi)

/-- For every program with fewer statements than positive ids and every run of it,
with statements that are switched on and off at any time: at every moment
`qttail -c` shows of each level the youngest messages the program has traced
on it, in their order and with the text of their own statement. -/
theorem cat_tells_program (hk : k < 2 ^ 31 - 1) (prog : Fin k → Statement)
    (th : ForeverLog.TraceHandle) (hn : th.n ≤ 80) (cs : MsgCounters) {as : List (Action k)}
    (ha : Allowed prog th (start th cs) as) (header : Nat → UInt8)
    (levelEnabled : Fin NumTraceLevels → Bool) :
    Told prog th (run prog th (start th cs) as) header levelEnabled :=
  (ok_run hk as (ok_start prog th cs) ha).told hn header levelEnabled

/-! ## A program of two statements -/

/-- `"x=" << x` of a number. -/
def numberStatement : Statement where
  filename := ascii ['m', '.', 'c']
  lineno := 3
  insertions := [.view (ascii ['x', '=']), .varg]
  tokens := [.char 120 (by decide) (by decide), .char 61 (by decide) (by decide),
    .conversion [] 115 (fun _ h => by cases h) (by decide) (by decide) (by decide)]
  types := [.u32]
  key := ascii ['i']
  filename_ne := by decide
  filename_graph := forall_mem_text (by decide)
  lineno_ne := by decide
  text_eq := by decide
  tokens_ne := List.cons_ne_nil _ _
  scalar := List.forall_mem_singleton.mpr rfl
  key_eq := by decide
  fits := fun tsc msgId => MsgDesc.write_of_length (by decide) tsc 3 msgId

/-- `"up"` without arguments. -/
def plainStatement : Statement where
  filename := ascii ['m', '.', 'c']
  lineno := 4
  insertions := [.cstr (ascii ['u', 'p'])]
  tokens := [.char 117 (by decide) (by decide), .char 112 (by decide) (by decide)]
  types := []
  key := []
  filename_ne := by decide
  filename_graph := forall_mem_text (by decide)
  lineno_ne := by decide
  text_eq := by decide
  tokens_ne := List.cons_ne_nil _ _
  scalar := fun t ht => by cases ht
  key_eq := rfl
  fits := fun tsc msgId => MsgDesc.write_of_length (by decide) tsc 4 msgId

/-- A program of both. -/
def twoStatements (a : Fin 2) : Statement := if a = 0 then numberStatement else plainStatement

/-- Both trace, the counters are cleared, and the first traces again. -/
def twoActions : List (Action 2) :=
  [.trace 0 2 [.val (.u32 5)] 7 8, .trace 1 0 [] 9 10, .prof 0 11, .ctl fun _ => .zero,
    .trace 0 2 [.val (.u32 6)] 0 12]

theorem twoActions_allowed : Allowed twoStatements kibHandle
    (start kibHandle ⟨4, fun _ => .zero⟩) twoActions := by
  refine ⟨⟨by decide, fun _ => ?_⟩, ⟨by decide, fun _ => ?_⟩, trivial, trivial,
    ⟨by decide, fun _ => ?_⟩, trivial⟩
  · exact ⟨by decide +kernel, by decide +kernel, by decide, by decide, trivial⟩
  · exact ⟨by decide +kernel, by decide +kernel, by decide, by decide, trivial⟩
  · exact ⟨by decide +kernel, by decide +kernel, by decide, by decide, trivial⟩

theorem cat_tells_program_two :
    Told twoStatements kibHandle
      (run twoStatements kibHandle (start kibHandle ⟨4, fun _ => .zero⟩) twoActions)
      (fun _ => 0) fun _ => true :=
  cat_tells_program (by decide) twoStatements kibHandle (by decide) ⟨4, fun _ => .zero⟩
    twoActions_allowed (fun _ => 0) fun _ => true

end Program

end QuickTrace
