/-
QuickTrace.Tail.LiveTail — programs that run, and one qttail.

The programs describe their statements when they first reach them, trace, and
are switched on and off by `qtctl`; meanwhile qttail tails their files. Of a
dictionary it knows what it has parsed: when it opened the file, and whenever
it looked for an id that it did not know (`fetch`). The static tables that
formatters are built from belong to all files; a look-up is given any tables
that can be reached.

`tails` holds the levels of the same files; `touch` and `sent` keep it in step
with the programs.
-/
import QuickTrace.Handle.ProgramTheorems
import QuickTrace.Handle.Tailable

namespace QuickTrace

open QuickTrace.Lib RingBuf Level Printf

/-- A program: its statements, and its handle. -/
structure TracedProgram where
  count : Nat
  prog : Fin count → Statement
  th : ForeverLog.TraceHandle

/-- The programs with the headers of their files, and qttail: how much it has
mapped of each file, the class `Messages` of each, and its tails. -/
structure LiveTail {k : Nat} (ps : Fin k → TracedProgram) where
  programs : (f : Fin k) → Program.State (ps f).count
  header : Fin k → Nat → UInt8
  size : Fin k → Nat
  messages : Fin k → Lookup.Store
  tails : TailMany k

/-- What an action of a program records. -/
def Program.recorded {k : Nat} (prog : Fin k → Statement) (s : State k) : Action k → List Sent
  | .trace a level args descTsc tsc =>
    let s := describe prog s a descTsc
    let hit := s.hit ⟨a, tsc, args⟩
    if s.tf.cs.off hit.id then [] else [(level, ⟨(s.tf.log level).rb.startPos, hit⟩)]
  | _ => []

/-- The file that is printed at the end of the round, its level, and the clock
of the round. -/
def TailMany.turn {k : Nat} (s : TailMany k) : Option (Fin k × Nat × UInt64) :=
  match s.loop with
  | .round r =>
    if r.looked < k then none else r.min.map fun c => (c.1, c.2, r.curTsc)
  | _ => none

namespace LiveTail

variable {k : Nat} {ps : Fin k → TracedProgram}

variable (ps) in
/-- The files as a reader with these tables knows them. -/
def cfg (T : Fin k → MessageTable) (f : Fin k) : TracedFile :=
  ⟨(T f).messages, (ps f).th.n, (ps f).th.spec, (ps f).th.logStart⟩

/-- The tables of what qttail has parsed. -/
def tables (s : LiveTail ps) (f : Fin k) : MessageTable := (s.messages f).table

/-- The bytes of a file. -/
def bytes (s : LiveTail ps) (f : Fin k) : List UInt8 :=
  (ps f).th.bytes (s.header f) (s.programs f).tf.mem (s.programs f).dict

/-- `Messages` has changed. -/
def parsed (f : Fin k) (M : Lookup.Store) (s : LiveTail ps) : LiveTail ps :=
  { s with messages := Function.update s.messages f M }

/-! ## One step -/

/-- An action of a program. -/
def program (f : Fin k) (a : Program.Action (ps f).count) (tsc1 : Nat) (header : Nat → UInt8)
    (s : LiveTail ps) : LiveTail ps :=
  let p := Program.step (ps f).prog (ps f).th (s.programs f) a
  { s with
    programs := Function.update s.programs f p
    header := Function.update s.header f header
    tails := { s.tails.touch f p.tf tsc1 with
      sent := s.tails.sent ++ (Program.recorded (ps f).prog (s.programs f) a).map fun x =>
        ⟨f, x, (s.tails.files f).tail.status = .deletePending⟩ } }

/-- `Messages::get`. A `parse` that fails ends the process. -/
def get (f : Fin k) (reg : Registry) (msgId : UInt32) (s : LiveTail ps) :
    Except Stop (LiveTail ps) :=
  match Lookup.get (s.size f) (s.bytes f) ((s.bytes f).length + 1) ((s.messages f).withReg reg)
      msgId with
  | none => .error .exit
  | some (_, M) => .ok (s.parsed f M)

/-- The look-up of `next` for the message at the cursor that is to be printed;
there is none when its timestamp is not valid. -/
def fetch (reg : Registry) (s : LiveTail ps) : Except Stop (LiveTail ps) :=
  match s.tails.turn with
  | none => .ok s
  | some (f, bufNum, curTsc) =>
    match (s.tails.files f).tail.tail.rbs[bufNum]? with
    | none => .ok s
    | some rb =>
      let m := (s.tails.files f).tf.mem
      let tsc := rb.nextTsc m
      if tsc = 0 ∨ rb.isValidTsc tsc curTsc.toNat = false then .ok s
      else s.get f reg (UInt32.ofNat (m.load (rb.cur + 8) 4))

/-- The end of a round. -/
def finish (reg : Registry) (s : LiveTail ps) : Except Stop (LiveTail ps) := do
  let s ← s.fetch reg
  (s.tails.finish (cfg ps s.tables)).map fun tails => { s with tails }

/-- Any other look-up that misses; the constructor of `CorruptionError` makes
one. -/
def parse (f : Fin k) (reg : Registry) (s : LiveTail ps) : Except Stop (LiveTail ps) :=
  match Lookup.parse (s.size f) (s.bytes f) ((s.bytes f).length + 1)
      ((s.messages f).withReg reg) with
  | none => .error .exit
  | some M => .ok (s.parsed f M)

/-- What happens. -/
inductive Action (ps : Fin k → TracedProgram) where
  | program (f : Fin k) (a : Program.Action (ps f).count) (tsc1 : Nat) (header : Nat → UInt8)
  | delete (f : Fin k)
  | begin (curTsc : UInt64)
  | look
  | finish (reg : Registry)
  | parse (f : Fin k) (reg : Registry)

/-- One step. -/
def step (s : LiveTail ps) : Action ps → Except Stop (LiveTail ps)
  | .program f a tsc1 header => .ok (s.program f a tsc1 header)
  | .delete f => (s.tails.delete f).map fun tails => { s with tails }
  | .begin curTsc => .ok { s with tails := s.tails.begin curTsc }
  | .look => (s.tails.look (cfg ps s.tables)).map fun tails => { s with tails }
  | .finish reg => s.finish reg
  | .parse f reg => s.parse f reg

/-- The programs have run for a while, and qttail has opened their files:
parsed the dictionaries, and skipped the messages. -/
structure Starts (ran : (f : Fin k) → Program.State (ps f).count) (s : LiveTail ps) : Prop where
  programs : s.programs = ran
  size : ∀ f, s.size f = (s.bytes f).length
  messages : ∀ f, ∃ reg, reg.Reachable
    ∧ Lookup.parse (s.size f) (s.bytes f) ((s.bytes f).length + 1)
        (.initialized reg (ps f).th.mappedSize (s.bytes f)) = some (s.messages f)
  tails : TailMany.Starts (cfg ps s.tables) (fun f => (ran f).tf) s.tails

/-- What the programs may do. -/
def Allowed (s : LiveTail ps) : Action ps → Prop
  | .program f a _ _ => Program.Permitted (ps f).prog (ps f).th (s.programs f) a
  | .finish reg => reg.Reachable
  | .parse _ reg => reg.Reachable
  | _ => True

/-- And if they spare what was not printed, and a round starts with a clock
that is later than what is recorded. -/
def Spared (s : LiveTail ps) (a : Action ps) : Prop :=
  Allowed s a ∧ match a with
    | .program f a _ _ => ∀ x ∈ Program.recorded (ps f).prog (s.programs f) a,
        System.Spares (ps f).th.n (s.tails.view f) (.write x.1 x.2.hit)
    | .begin curTsc => s.tails.Later curTsc
    | _ => True

/-- The states after any sequence of steps that are all `ok`. -/
def Runs (ok : LiveTail ps → Action ps → Prop) : LiveTail ps → LiveTail ps → Prop :=
  Relation.ReflTransGen fun s s' => ∃ a, ok s a ∧ s.step a = .ok s'

end LiveTail

/-! ## One look-up is enough -/

/-- The tables agree on the message at the cursor. -/
def RingBuffer.Agree (rb : RingBuffer) (m : Mem) (curTsc : Nat) (msgs msgs' : Messages) : Prop :=
  rb.nextTsc m ≠ 0 → rb.isValidTsc (rb.nextTsc m) curTsc = true →
    msgs.get (m.load (rb.cur + 8) 4) = msgs'.get (m.load (rb.cur + 8) 4)

section

variable {m : Mem} {msgs msgs' : Messages} {tail : Bool} {rb : RingBuffer} {orderTsc curTsc : Nat}

/-- `next` looks for no other id. -/
theorem RingBuffer.next_congr (h : rb.Agree m curTsc msgs msgs') :
    rb.next m msgs tail curTsc = rb.next m msgs' tail curTsc := by
  unfold next
  dsimp only
  by_cases hz : rb.nextTsc m = 0
  · rw [if_pos hz, if_pos hz]
  · cases hv : rb.isValidTsc (rb.nextTsc m) curTsc with
    | false => rfl
    | true => rw [h hz hv]

/-- What `next` returns stands at the cursor. -/
theorem RingBuffer.next_some {tsc msgId : Nat}
    (h : rb.next m msgs tail curTsc = .ok (some (tsc, msgId))) :
    rb.nextTsc m ≠ 0 ∧ rb.isValidTsc (rb.nextTsc m) curTsc = true
      ∧ msgId = m.load (rb.cur + 8) 4 := by
  have hreject : ∀ e, rb.reject e ≠ .ok (some (tsc, msgId)) := fun e he => by
    unfold reject at he
    split at he <;> cases he
  unfold next at h
  dsimp only at h
  by_cases hz : rb.nextTsc m = 0
  · rw [if_pos hz] at h
    cases h
  · rw [if_neg hz] at h
    cases hv : rb.isValidTsc (rb.nextTsc m) curTsc with
    | false =>
      rw [hv] at h
      exact absurd h (hreject _)
    | true =>
      rw [hv] at h
      refine ⟨hz, rfl, ?_⟩
      simp only [Bool.not_true, Bool.false_eq_true, if_false] at h
      split at h
      · exact absurd h (hreject _)
      · split at h
        · exact absurd h (hreject _)
        · split at h
          · exact absurd h (hreject _)
          · unfold checkFollowing at h
            split at h
            · exact absurd h (hreject _)
            · split at h
              · exact absurd h (hreject _)
              · cases h
                rfl

theorem RingBuffer.dump_congr (h : rb.Agree m curTsc msgs msgs') (out : Output) :
    rb.dump m msgs tail orderTsc curTsc out = rb.dump m msgs' tail orderTsc curTsc out := by
  unfold dump
  rw [next_congr h]
  cases hnext : rb.next m msgs' tail curTsc with
  | error e => rfl
  | ok r =>
    cases r with
    | none => rfl
    | some r =>
      obtain ⟨tsc, msgId⟩ := r
      obtain ⟨hz, hv, rfl⟩ := next_some hnext
      dsimp only
      rw [h hz hv]

theorem Tail.tailBuffer_congr {t : Tail} {bufNum : Nat}
    (h : ∀ rb, t.rbs[bufNum]? = some rb → rb.Agree m curTsc msgs msgs') :
    t.tailBuffer m msgs tail orderTsc curTsc bufNum
      = t.tailBuffer m msgs' tail orderTsc curTsc bufNum := by
  unfold tailBuffer
  cases hrb : t.rbs[bufNum]? with
  | none => rfl
  | some rb =>
    dsimp only
    rw [RingBuffer.dump_congr (h rb hrb)]

end

namespace TailMany

variable {k : Nat} {cfg cfg' : Fin k → TracedFile} {s s' : TailMany k} {f : Fin k}

/-- The levels are in the same places. -/
structure SameLevels (c c' : TracedFile) : Prop where
  spec : c'.spec = c.spec
  logStart : c'.logStart = c.logStart

/-- What is printed depends on the table for the message at the cursor. -/
theorem print_congr (hsame : SameLevels (cfg f) (cfg' f)) {minTsc bufNum : Nat} {curTsc : UInt64}
    (h : ∀ rb, (s.files f).tail.tail.rbs[bufNum]? = some rb →
      rb.Agree (s.files f).tf.mem curTsc.toNat (cfg f).msgs (cfg' f).msgs) :
    s.print cfg f minTsc curTsc bufNum = s.print cfg' f minTsc curTsc bufNum := by
  have htail : ∀ tail, ({ (s.files f).tail.tail with out := s.out } : Tail).tailBuffer
      (s.files f).tf.mem (cfg f).msgs tail minTsc curTsc.toNat bufNum
        = ({ (s.files f).tail.tail with out := s.out } : Tail).tailBuffer
      (s.files f).tf.mem (cfg' f).msgs tail minTsc curTsc.toNat bufNum := fun tail =>
    Tail.tailBuffer_congr h
  unfold print FileTail.header
  cases htfh : (s.files f).tail.tfh with
  | false => simp [htfh, bind, Except.bind]
  | true =>
    simp only [htfh, if_true, bind, Except.bind, contents, TracedFile.contents, htail, hsame.spec,
      hsame.logStart]

theorem finish_congr (hsame : ∀ f, SameLevels (cfg f) (cfg' f))
    (h : ∀ f bufNum curTsc, s.turn = some (f, bufNum, curTsc) → ∀ rb,
      (s.files f).tail.tail.rbs[bufNum]? = some rb →
        rb.Agree (s.files f).tf.mem curTsc.toNat (cfg f).msgs (cfg' f).msgs) :
    s.finish cfg = s.finish cfg' := by
  unfold finish
  cases hloop : s.loop with
  | watching => rfl
  | returned => rfl
  | round r =>
    dsimp only
    split
    · rfl
    · rename_i hlooked
      cases hmin : r.min with
      | none => rfl
      | some c =>
        obtain ⟨f, bufNum⟩ := c
        refine print_congr (hsame f) (h f bufNum r.curTsc ?_)
        rw [turn, hloop]
        dsimp only
        rw [if_neg hlooked, hmin]
        rfl

/-- A file that is asked for its message is not looked into for messages. -/
theorem Tracks.nextTsc_congr {t : FileTail} (h : Tracks t) {file file' : Contents}
    (hmem : file'.mem = file.mem) (htsc : file'.tsc1 = file.tsc1) :
    t.nextTsc file' = t.nextTsc file := by
  by_cases hnext : t.tail.next = none
  · cases ht : t.tfh with
    | false => rw [(h.nextTsc_unmapped ht file').1, (h.nextTsc_unmapped ht file).1]
    | true =>
      have hready : t.status ≠ .initializing := fun hs => by
        rcases h.status with ⟨h', -⟩ | h' <;> rw [hs] at h' <;> cases h'
      unfold FileTail.nextTsc FileTail.ready FileTail.choose FileTail.header
      simp [hnext, hready, ht, bind, Except.bind, hmem, htsc]
  · rw [(h.nextTsc_cached hnext file').1, (h.nextTsc_cached hnext file).1]

theorem look_congr (h : ∀ f, Tracks (s.files f).tail) : s.look cfg = s.look cfg' := by
  unfold look
  cases hloop : s.loop with
  | watching => rfl
  | returned => rfl
  | round r =>
    dsimp only
    split
    · rename_i hlt
      have heq : (s.files ⟨r.looked, hlt⟩).tail.nextTsc (s.contents cfg ⟨r.looked, hlt⟩)
          = (s.files ⟨r.looked, hlt⟩).tail.nextTsc (s.contents cfg' ⟨r.looked, hlt⟩) :=
        (h _).nextTsc_congr rfl rfl
      rw [heq]
    · rfl

/-! ## What a step leaves -/

/-- Nothing was printed or recorded. -/
structure Still (s s' : TailMany k) : Prop where
  tf : ∀ f, (s'.files f).tf = (s.files f).tf
  prints : s'.prints = s.prints
  out : s'.out = s.out

theorem still_setTail (f : Fin k) (t : FileTail) : Still s (s.setTail f t) where
  tf := fun g => by
    by_cases hg : g = f
    · subst hg; rw [setTail_self]
    · rw [setTail_ne hg]
  prints := rfl
  out := rfl

theorem still_delete (h : s.delete f = .ok s') : Still s s' := by
  unfold delete at h
  split at h
  · obtain ⟨t, -, rfl⟩ := map_eq_ok.mp h
    exact still_setTail f t
  · cases h
    exact ⟨fun _ => rfl, rfl, rfl⟩

theorem still_begin (s : TailMany k) (curTsc : UInt64) : Still s (s.begin curTsc) := by
  unfold begin
  split
  · exact ⟨fun _ => rfl, rfl, rfl⟩
  · exact ⟨fun _ => rfl, rfl, rfl⟩

theorem still_look (h : s.look cfg = .ok s') : Still s s' := by
  unfold look at h
  split at h
  · rename_i r _
    split at h
    · rename_i hlt
      obtain ⟨t, -, rfl⟩ := map_eq_ok.mp h
      have hstill : Still s (s.setTail ⟨r.looked, hlt⟩ t) := still_setTail _ t
      exact ⟨hstill.tf, hstill.prints, hstill.out⟩
    · cases h
      exact ⟨fun _ => rfl, rfl, rfl⟩
  · cases h
    exact ⟨fun _ => rfl, rfl, rfl⟩

/-- The lines that a round has printed are spelled, and leave no flag. -/
structure Prints (cfg : Fin k → TracedFile) (s s' : TailMany k) : Prop where
  tf : ∀ f, (s'.files f).tf = (s.files f).tf
  neutral : Neutral { s'.out.flags with width := 0 }
  prints : ∀ p ∈ s'.prints, p ∈ s.prints ∨ p.print.line.Spelled (cfg p.file).msgs

/-- A call of `print` with the same output as before. -/
theorem prints_print (hspelled : (cfg f).msgs.AllSpelled) (ht : Tracks (s.files f).tail)
    (hneutral : Neutral { s.out.flags with width := 0 }) {minTsc bufNum : Nat} {curTsc : UInt64}
    (h : s.print cfg f minTsc curTsc bufNum = .ok s') : Prints cfg s s' := by
  have hopt : (s.files f).tail.options.tail = true := by rw [ht.options]; rfl
  obtain ⟨ok, t', new, htail, hlines, hown⟩ := Tail.tailBuffer_lines
    { (s.files f).tail.tail with out := s.out } (s.files f).tf.mem (cfg f).msgs minTsc
    curTsc.toNat bufNum []
  have hnew := Tail.tailBuffer_spelled hspelled (⟨hneutral, fun l hl => by cases hl⟩ :
    Output.Spelled (cfg f).msgs { s.out with lines := [] }) hown
  unfold print FileTail.header at h
  cases htfh : (s.files f).tail.tfh with
  | false => simp [htfh, bind, Except.bind] at h
  | true =>
    simp only [htfh, if_true, bind, Except.bind, contents, TracedFile.contents, hopt, htail, hlines,
      List.drop_left, Except.ok.injEq] at h
    subst h
    refine ⟨(still_setTail f _).tf, hnew.neutral, fun p hp => ?_⟩
    rcases List.mem_append.mp hp with hp | hp
    · exact .inl hp
    · obtain ⟨q, hq, rfl⟩ := List.mem_map.mp hp
      obtain ⟨l, hl, rfl⟩ := List.mem_map.mp hq
      exact .inr (hnew.lines l (by rwa [List.nil_append]))

theorem prints_finish (hspelled : ∀ f, (cfg f).msgs.AllSpelled)
    (ht : ∀ f, Tracks (s.files f).tail) (hneutral : Neutral { s.out.flags with width := 0 })
    (h : s.finish cfg = .ok s') : Prints cfg s s' := by
  have hrefl : Prints cfg s s := ⟨fun _ => rfl, hneutral, fun p hp => .inl hp⟩
  unfold finish at h
  split at h
  · split at h
    · cases h
      exact hrefl
    · split at h
      · exact prints_print (hspelled _) (ht _) hneutral h
      · cases h
        exact ⟨fun _ => rfl, hneutral, fun p hp => .inl hp⟩
  · cases h
    exact hrefl

end TailMany

end QuickTrace
