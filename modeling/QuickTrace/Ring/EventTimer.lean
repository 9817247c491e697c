/-
QuickTrace.Ring.EventTimer — times that are taken over several events.

The QPROF_EVT macros keep three static variables for a symbol: when it was
started, when its clock was resumed, and the ticks that were summed up so far.
`QPROF_EVT_STOP` adds a time to the counter of the symbol and clears them.

An `Episode` is what has happened to a symbol since it was started. The ticks
that count are those between a resume and the pause directly behind it
(`measured`); an episode without any counts from its start. `Tracks` says that
the variables stand for the episode, `tracks_next` is the step lemma, and
`counters_run` says what a run of macros for any number of symbols makes of
the counters. The id of a symbol is the one its descriptor has got.
-/
import QuickTrace.Ring.BlockTimer

namespace QuickTrace.EventTimer

open BlockTimer.Blocks (ofNat_add ofNat_duration)

/-! ## The macros -/

/-- The static variables of `QPROF_EVT_INIT`, apart from id and text. -/
structure Timer where
  start : UInt64
  restart : UInt64
  sum : UInt64

/-- A macro for a symbol, with what `rdtsc` returns. `QPROF_EVT_STOP` reads
the clock for its pause, and once more if nothing was summed up. -/
inductive Macro where
  | start (tsc : UInt64)
  | maybeStart (startValue : UInt64)
  | pause (tsc : UInt64)
  | resume (tsc : UInt64)
  | reset
  | stop (tsc diffTsc : UInt64)

namespace Timer

/-- `QPROF_EVT_RESET_VALUE`, and what the variables are at first. -/
def reset : Timer := ⟨0, 0, 0⟩

/-- `QPROF_EVT_PAUSE_VALUE`. -/
def pause (t : Timer) (tsc : UInt64) : Timer :=
  if t.restart ≠ 0 then { t with sum := t.sum + (tsc - t.restart), restart := 0 } else t

/-- The difference in `QPROF_EVT_STOP_VALUE`, behind its pause. -/
def diff (t : Timer) (diffTsc : UInt64) : UInt64 :=
  if t.sum ≠ 0 then t.sum else diffTsc - t.start

/-- What each macro does to the variables. -/
def next (t : Timer) : Macro → Timer
  | .start tsc => { start := tsc, restart := 0, sum := 0 }
  | .maybeStart startValue =>
    if t.start = 0 then { start := startValue, restart := 0, sum := 0 } else t
  | .pause tsc => t.pause tsc
  | .resume tsc => { t with restart := tsc }
  | .reset => reset
  | .stop _ _ => reset

end Timer

/-- `QPROF_EVT_REPORT` with a trace file. -/
def report (msgId : UInt32) (startTime diff : UInt64) (cs : MsgCounters) : MsgCounters :=
  cs.modify msgId fun mc =>
    { mc with
      lastTsc := updateLastTsc mc.lastTsc startTime
      tscCount := mc.tscCount + diff
      count := mc.count + 1 }

variable {ι : Type}

/-- The variables of all symbols, and the counters of `theTraceFile`. -/
structure State (ι : Type) where
  timers : ι → Timer
  counters : Option MsgCounters

/-- One macro of one symbol. -/
def step [DecidableEq ι] (msgId : ι → UInt32) (s : State ι) : ι × Macro → State ι
  | (e, .stop tsc diffTsc) =>
    let t := (s.timers e).pause tsc
    { timers := Function.update s.timers e .reset
      counters := s.counters.map (report (msgId e) t.start (t.diff diffTsc)) }
  | (e, m) => { s with timers := Function.update s.timers e ((s.timers e).next m) }

/-- A run. -/
def run [DecidableEq ι] (msgId : ι → UInt32) (s : State ι) (as : List (ι × Macro)) : State ι :=
  as.foldl (step msgId) s

/-! ## Episodes -/

/-- The clock of a symbol was resumed or paused. -/
inductive Switch where
  | resume (tsc : UInt64)
  | pause (tsc : UInt64)

/-- The ticks between two switches that follow each other. -/
def Switch.until : Switch → Switch → Nat
  | .resume tsc, .pause tsc' => tsc'.toNat - tsc.toNat
  | _, _ => 0

/-- The ticks that count. -/
def measured : List Switch → Nat
  | x :: y :: rest => x.until y + measured (y :: rest)
  | _ => 0

/-- What has happened to a symbol since it was started; zero stands for a
symbol that was not. -/
structure Episode where
  begun : UInt64
  switches : List Switch

/-- A time that is added to a counter. -/
structure Report where
  msgId : UInt32
  begun : UInt64
  duration : UInt64

namespace Episode

/-- No episode. -/
def none : Episode := ⟨0, []⟩

/-- The episode behind a macro. -/
def next (e : Episode) : Macro → Episode
  | .start tsc => ⟨tsc, []⟩
  | .maybeStart startValue => if e.begun = 0 then ⟨startValue, []⟩ else e
  | .pause tsc => { e with switches := e.switches ++ [.pause tsc] }
  | .resume tsc => { e with switches := e.switches ++ [.resume tsc] }
  | .reset => none
  | .stop _ _ => none

/-- The time of an episode that is stopped: what was measured or, if that is
nothing, everything since the start. -/
def duration (e : Episode) (tsc diffTsc : UInt64) : UInt64 :=
  if measured (e.switches ++ [.pause tsc]) ≠ 0 then
    UInt64.ofNat (measured (e.switches ++ [.pause tsc]))
  else diffTsc - e.begun

end Episode

/-- The times of a run, in their order. -/
def reports [DecidableEq ι] (msgId : ι → UInt32) (episodes : ι → Episode) :
    List (ι × Macro) → List Report
  | [] => []
  | (e, m) :: as =>
    (match m with
      | .stop tsc diffTsc => [⟨msgId e, (episodes e).begun, (episodes e).duration tsc diffTsc⟩]
      | _ => []) ++ reports msgId (Function.update episodes e ((episodes e).next m)) as

/-- The reading of the clock that switches a symbol on or off. -/
def Macro.reading : Macro → Option UInt64
  | .pause tsc => some tsc
  | .resume tsc => some tsc
  | .stop tsc _ => some tsc
  | _ => none

/-- The clock does not go back, and is never zero. -/
def Clock (as : List (ι × Macro)) : Prop :=
  (as.filterMap fun a => a.2.reading).Pairwise (· ≤ ·) ∧ ∀ a ∈ as, ∀ tsc ∈ a.2.reading, 0 < tsc

/-! ## The variables of a symbol -/

theorem measured_concat : ∀ (l : List Switch) (y : Switch),
    measured (l ++ [y]) = measured l + (l.getLast?.map (·.until y)).getD 0
  | [], y => rfl
  | [x], y => by simp [measured]
  | x :: x' :: l, y => by
      have ih := measured_concat (x' :: l) y
      simp only [List.cons_append, measured, List.getLast?_cons_cons] at ih ⊢
      omega

/-- When the clock of a symbol was resumed, if it was not paused since. -/
def openSince (l : List Switch) : UInt64 :=
  match l.getLast? with
  | some (.resume tsc) => tsc
  | _ => 0

/-- The variables stand for the episode. The ticks that count lie in front of
the last resume, so they do not overflow. -/
structure Tracks (now : UInt64) (t : Timer) (e : Episode) : Prop where
  start : t.start = e.begun
  restart : t.restart = openSince e.switches
  sum : t.sum = UInt64.ofNat (measured e.switches)
  positive : ∀ tsc, e.switches.getLast? = some (.resume tsc) → tsc ≠ 0
  past : measured e.switches ≤ now.toNat ∧ t.restart ≤ now
    ∧ (t.restart ≠ 0 → measured e.switches ≤ t.restart.toNat)

theorem tracks_new (now start : UInt64) : Tracks now ⟨start, 0, 0⟩ ⟨start, []⟩ where
  start := rfl
  restart := rfl
  sum := rfl
  positive := fun tsc h => by cases h
  past := ⟨Nat.zero_le _, UInt64.zero_le, fun h => absurd rfl h⟩

variable {now tsc : UInt64} {t : Timer} {e : Episode}

theorem Tracks.later (h : Tracks now t e) (hle : now ≤ tsc) : Tracks tsc t e where
  start := h.start
  restart := h.restart
  sum := h.sum
  positive := h.positive
  past := ⟨Nat.le_trans h.past.1 hle, UInt64.le_trans h.past.2.1 hle, h.past.2.2⟩

/-- A pause counts what has passed since the last resume. -/
theorem Tracks.measured_pause (h : Tracks now t e) (tsc : UInt64) :
    measured (e.switches ++ [.pause tsc])
      = measured e.switches + if t.restart ≠ 0 then tsc.toNat - t.restart.toNat else 0 := by
  rw [measured_concat, h.restart]
  have hpos := h.positive
  unfold openSince
  cases hlast : e.switches.getLast? with
  | none => simp
  | some x =>
    cases x with
    | pause tsc' => simp [Switch.until]
    | resume tsc' => simp [Switch.until, hpos tsc' hlast]

theorem Tracks.pause (h : Tracks now t e) (hle : now ≤ tsc) :
    Tracks tsc (t.pause tsc) (e.next (.pause tsc)) := by
  have hsum := h.measured_pause tsc
  have hlast : ∀ tsc', (e.switches ++ [Switch.pause tsc]).getLast? ≠ some (.resume tsc') := by
    simp
  have hopen : openSince (e.switches ++ [Switch.pause tsc]) = 0 := by simp [openSince]
  obtain ⟨hnow, hrestart, hroom⟩ := h.past
  have hle' : now.toNat ≤ tsc.toNat := hle
  by_cases hz : t.restart = 0
  · have hsame : t.pause tsc = t := if_neg fun hne => hne hz
    rw [if_neg fun hne => hne hz, Nat.add_zero] at hsum
    rw [hsame]
    refine ⟨h.start, hz.trans hopen.symm, ?_, fun tsc' h' => absurd h' (hlast tsc'), ?_, ?_, ?_⟩
    · exact h.sum.trans (congrArg UInt64.ofNat hsum.symm)
    · exact hsum ▸ Nat.le_trans hnow hle'
    · exact UInt64.le_trans hrestart hle
    · exact fun hne => absurd hz hne
  · have hpause : t.pause tsc = { t with sum := t.sum + (tsc - t.restart), restart := 0 } :=
      if_pos hz
    have hbefore : t.restart.toNat ≤ tsc.toNat := Nat.le_trans hrestart hle'
    rw [if_pos hz] at hsum
    rw [hpause]
    refine ⟨h.start, hopen.symm, ?_, fun tsc' h' => absurd h' (hlast tsc'), ?_,
      UInt64.zero_le, fun hne => absurd rfl hne⟩
    · show t.sum + (tsc - t.restart) = UInt64.ofNat (measured (e.switches ++ [.pause tsc]))
      have hticks := ofNat_duration hbefore
      rw [UInt64.ofNat_toNat, UInt64.ofNat_toNat] at hticks
      rw [hsum, ofNat_add, h.sum, hticks]
    · show measured (e.switches ++ [.pause tsc]) ≤ tsc.toNat
      have := hroom hz
      omega

/-- A resume counts nothing. -/
theorem Tracks.resume (h : Tracks now t e) (hle : now ≤ tsc) (hpos : 0 < tsc) :
    Tracks tsc (t.next (.resume tsc)) (e.next (.resume tsc)) := by
  have hsum : measured (e.switches ++ [.resume tsc]) = measured e.switches := by
    rw [measured_concat]
    cases e.switches.getLast? with
    | none => rfl
    | some x => cases x <;> rfl
  have hroom : measured e.switches ≤ tsc.toNat := Nat.le_trans h.past.1 hle
  refine ⟨h.start, ?_, ?_, fun tsc' h' => ?_, ?_, UInt64.le_refl _, fun _ => ?_⟩
  · simp [Timer.next, Episode.next, openSince]
  · exact h.sum.trans (congrArg UInt64.ofNat hsum.symm)
  · simp only [Episode.next, List.getLast?_append_of_ne_nil, ne_eq, List.cons_ne_nil,
      not_false_eq_true, List.getLast?_singleton, Option.some.injEq, Switch.resume.injEq] at h'
    subst h'
    exact fun hz => absurd hpos (hz ▸ UInt64.lt_irrefl 0)
  · exact hsum ▸ hroom
  · exact hsum ▸ hroom

/-- The step lemma. -/
theorem tracks_next (h : Tracks now t e) {m : Macro} (hle : ∀ tsc ∈ m.reading, now ≤ tsc)
    (hpos : ∀ tsc ∈ m.reading, 0 < tsc) :
    Tracks (m.reading.getD now) (t.next m) (e.next m) := by
  cases m with
  | start tsc => exact tracks_new now tsc
  | maybeStart startValue =>
    have hstart := h.start
    unfold Timer.next Episode.next
    dsimp only
    rw [hstart]
    split
    · exact tracks_new now startValue
    · exact h
  | pause tsc => exact h.pause (hle tsc rfl)
  | resume tsc => exact h.resume (hle tsc rfl) (hpos tsc rfl)
  | reset => exact tracks_new now 0
  | stop tsc diffTsc => exact tracks_new tsc 0

/-- The time that is reported is the one of the episode. -/
theorem Tracks.diff (h : Tracks now t e) (hle : now ≤ tsc) (diffTsc : UInt64) :
    (t.pause tsc).diff diffTsc = e.duration tsc diffTsc := by
  have hp := h.pause hle
  have hsmall : measured (e.switches ++ [.pause tsc]) < 2 ^ 64 :=
    Nat.lt_of_le_of_lt hp.past.1 tsc.toNat_lt
  have hsum : (t.pause tsc).sum = UInt64.ofNat (measured (e.switches ++ [.pause tsc])) := hp.sum
  have hstart : (t.pause tsc).start = e.begun := hp.start
  have hzero : UInt64.ofNat (measured (e.switches ++ [.pause tsc])) ≠ 0
      ↔ measured (e.switches ++ [.pause tsc]) ≠ 0 := by
    rw [← UInt64.toNat_inj.ne, UInt64.toNat_ofNat_of_lt' hsmall]
    exact Iff.rfl
  unfold Timer.diff Episode.duration
  simp only [hsum, hstart, hzero]

/-! ## The counters -/

/-- The times that go to a counter. -/
def mine (cs : MsgCounters) (i : Nat) (rs : List Report) : List Report :=
  rs.filter fun r => cs.index r.msgId = i

/-- All of some times. -/
def total : List Report → UInt64
  | [] => 0
  | r :: rs => r.duration + total rs

/-- What times do to the counters: each counter gets those whose id it has,
and the start of the last of them. No symbol is switched on or off. -/
structure Counts (cs : MsgCounters) (rs : List Report) (cs' : MsgCounters) : Prop where
  numMsgCounters : cs'.numMsgCounters = cs.numMsgCounters
  tscCount : ∀ i, (cs'.counter i).tscCount
    = (cs.counter i).tscCount + total (mine cs i rs)
  count : ∀ i, (cs'.counter i).count
    = (cs.counter i).count + UInt32.ofNat (mine cs i rs).length
  tscSelfCount : ∀ i, (cs'.counter i).tscSelfCount = (cs.counter i).tscSelfCount
  lastTsc : ∀ i, (cs'.counter i).lastTsc = (mine cs i rs).getLast?.elim (cs.counter i).lastTsc
    fun r => updateLastTsc (cs.counter i).lastTsc r.begun
  off : ∀ id, cs'.off id = cs.off id

theorem counts_nil (cs : MsgCounters) : Counts cs [] cs where
  numMsgCounters := rfl
  tscCount := fun i => by simp [mine, total]
  count := fun i => by simp [mine]
  tscSelfCount := fun i => rfl
  lastTsc := fun i => rfl
  off := fun id => rfl

/-- The hit time before does not matter. -/
theorem updateLastTsc_again (v : UInt32) (tsc tsc' : UInt64) :
    updateLastTsc (updateLastTsc v tsc) tsc' = updateLastTsc v tsc' := by
  have hoff := offBit_updateLastTsc v tsc
  unfold updateLastTsc at hoff ⊢
  rw [hoff]

/-- One time more. -/
theorem Counts.cons {cs cs' : MsgCounters} {r : Report} {rs : List Report}
    (h : Counts (report r.msgId r.begun r.duration cs) rs cs') : Counts cs (r :: rs) cs' := by
  have hmine : ∀ i, mine (report r.msgId r.begun r.duration cs) i rs = mine cs i rs :=
    fun i => rfl
  have hself : ∀ {i}, cs.index r.msgId = i →
      mine cs i (r :: rs) = r :: mine cs i rs
        ∧ (report r.msgId r.begun r.duration cs).counter i
          = { cs.counter i with
              lastTsc := updateLastTsc (cs.counter i).lastTsc r.begun
              tscCount := (cs.counter i).tscCount + r.duration
              count := (cs.counter i).count + 1 } := fun hi =>
    ⟨List.filter_cons_of_pos (decide_eq_true hi), if_pos hi.symm⟩
  have hother : ∀ {i}, cs.index r.msgId ≠ i → mine cs i (r :: rs) = mine cs i rs
      ∧ (report r.msgId r.begun r.duration cs).counter i = cs.counter i := fun hi =>
    ⟨List.filter_cons_of_neg (by simpa using hi), if_neg (Ne.symm hi)⟩
  refine ⟨h.numMsgCounters, fun i => ?_, fun i => ?_, fun i => ?_, fun i => ?_, fun id => ?_⟩
  · rw [h.tscCount, hmine]
    by_cases hi : cs.index r.msgId = i
    · rw [(hself hi).1, (hself hi).2, total, UInt64.add_assoc]
    · rw [(hother hi).1, (hother hi).2]
  · rw [h.count, hmine]
    by_cases hi : cs.index r.msgId = i
    · rw [(hself hi).1, (hself hi).2, List.length_cons, UInt32.ofNat_add]
      simp only [UInt32.add_assoc, UInt32.add_comm 1]
      rfl
    · rw [(hother hi).1, (hother hi).2]
  · rw [h.tscSelfCount]
    by_cases hi : cs.index r.msgId = i
    · rw [(hself hi).2]
    · rw [(hother hi).2]
  · rw [h.lastTsc, hmine]
    by_cases hi : cs.index r.msgId = i
    · rw [(hself hi).1, (hself hi).2, List.getLast?_cons]
      dsimp only
      cases (mine cs i rs).getLast? with
      | none => rfl
      | some r' => exact updateLastTsc_again _ _ _
    · rw [(hother hi).1, (hother hi).2]
  · have hid : (report r.msgId r.begun r.duration cs).off id = cs.off id := by
      unfold MsgCounters.off
      show (offBit ((report r.msgId r.begun r.duration cs).counter (cs.index id)).lastTsc != 0) = _
      by_cases hi : cs.index r.msgId = cs.index id
      · rw [(hself hi).2, offBit_updateLastTsc]
      · rw [(hother hi).2]
    rw [h.off, hid]

/-- What is left of a clock that was read. -/
theorem Clock.of_cons {a : ι × Macro} {as : List (ι × Macro)} (h : Clock (a :: as)) :
    Clock as ∧ ∀ tsc ∈ a.2.reading, ∀ b ∈ as, ∀ tsc' ∈ b.2.reading, tsc ≤ tsc' := by
  obtain ⟨hsorted, hpos⟩ := h
  have hpos' : ∀ b ∈ as, ∀ tsc ∈ b.2.reading, 0 < tsc := fun b hb =>
    hpos b (List.mem_cons_of_mem _ hb)
  cases hread : a.2.reading with
  | none =>
    simp only [List.filterMap_cons, hread] at hsorted
    exact ⟨⟨hsorted, hpos'⟩, fun tsc htsc => by cases htsc⟩
  | some tsc =>
    simp only [List.filterMap_cons, hread, List.pairwise_cons] at hsorted
    refine ⟨⟨hsorted.2, hpos'⟩, fun tsc' htsc' b hb later hlater => ?_⟩
    cases htsc'
    exact hsorted.1 later (List.mem_filterMap.mpr ⟨b, hb, hlater⟩)

/-- The run lemma. -/
theorem run_counts [DecidableEq ι] (msgId : ι → UInt32) : ∀ (as : List (ι × Macro))
    (now : UInt64) (timers : ι → Timer) (episodes : ι → Episode) (cs : MsgCounters),
    (∀ e, Tracks now (timers e) (episodes e)) → Clock as →
    (∀ a ∈ as, ∀ tsc ∈ a.2.reading, now ≤ tsc) →
    ∃ cs', (run msgId ⟨timers, some cs⟩ as).counters = some cs'
      ∧ Counts cs (reports msgId episodes as) cs'
  | [], now, timers, episodes, cs, _, _, _ => ⟨cs, rfl, counts_nil cs⟩
  | (e, m) :: as, now, timers, episodes, cs, htracks, hclock, hnow => by
      have hm : ∀ tsc ∈ m.reading, now ≤ tsc := hnow (e, m) List.mem_cons_self
      have hpos : ∀ tsc ∈ m.reading, 0 < tsc := hclock.2 (e, m) List.mem_cons_self
      obtain ⟨hclock', hafter⟩ := hclock.of_cons
      have hlater : now ≤ m.reading.getD now := by
        cases hread : m.reading with
        | none => exact UInt64.le_refl _
        | some tsc => exact hm tsc hread
      have htracks' : ∀ e', Tracks (m.reading.getD now)
          (Function.update timers e ((timers e).next m) e')
          (Function.update episodes e ((episodes e).next m) e') := fun e' => by
        by_cases he : e' = e
        · subst he
          rw [Function.update_self, Function.update_self]
          exact tracks_next (htracks e') hm hpos
        · rw [Function.update_of_ne he, Function.update_of_ne he]
          exact (htracks e').later hlater
      have hnow' : ∀ a ∈ as, ∀ tsc ∈ a.2.reading, m.reading.getD now ≤ tsc :=
        fun a ha tsc htsc => by
          cases hread : m.reading with
          | none => exact hnow a (List.mem_cons_of_mem _ ha) tsc htsc
          | some tsc' => exact hafter tsc' hread a ha tsc htsc
      cases m with
      | stop tsc diffTsc =>
        have hdiff := (htracks e).diff (hm tsc rfl) diffTsc
        have hstart : ((timers e).pause tsc).start = (episodes e).begun :=
          ((htracks e).pause (hm tsc rfl)).start
        let r : Report := ⟨msgId e, (episodes e).begun, (episodes e).duration tsc diffTsc⟩
        obtain ⟨cs', hrun, hcounts⟩ := run_counts msgId as _ _ _
          (report r.msgId r.begun r.duration cs) htracks' hclock' hnow'
        refine ⟨cs', ?_, hcounts.cons⟩
        rw [← hrun]
        show (run msgId ⟨_, some (report (msgId e) ((timers e).pause tsc).start
          (((timers e).pause tsc).diff diffTsc) cs)⟩ as).counters = _
        rw [hdiff, hstart]
        rfl
      | _ => exact run_counts msgId as _ _ _ cs htracks' hclock' hnow'

/-- For every run of the macros, for any number of symbols in any order, that
reads a clock which does not go back: each time that is added to a counter is
the time of its episode, and nothing else is done to the counters. -/
theorem counters_run [DecidableEq ι] (msgId : ι → UInt32) (cs : MsgCounters)
    {as : List (ι × Macro)} (h : Clock as) :
    ∃ cs', (run msgId ⟨fun _ => .reset, some cs⟩ as).counters = some cs'
      ∧ Counts cs (reports msgId (fun _ => .none) as) cs' :=
  run_counts msgId as 0 _ _ cs (fun _ => tracks_new 0 0) h fun _ _ _ _ => UInt64.zero_le

/-- Two symbols; one is resumed and paused, the other is not. -/
def twoSymbols : List (Bool × Macro) :=
  [(true, .start 5), (false, .start 6), (true, .resume 7), (true, .pause 9), (false, .stop 10 11),
    (true, .resume 12), (true, .stop 17 18)]

/-- Their ids. -/
def symbolId (symbol : Bool) : UInt32 := if symbol then 1 else 2

example : (reports symbolId (fun _ => .none) twoSymbols).map Report.duration = [5, 7] := by decide

theorem twoSymbols_clock : Clock twoSymbols := by
  constructor
  · simp [twoSymbols, Macro.reading]
  · simp [twoSymbols, Macro.reading]

theorem counters_run_two : ∃ cs', (run symbolId ⟨fun _ => .reset, some ⟨4, fun _ => .zero⟩⟩
      twoSymbols).counters = some cs'
    ∧ Counts ⟨4, fun _ => .zero⟩ (reports symbolId (fun _ => .none) twoSymbols) cs' :=
  counters_run symbolId ⟨4, fun _ => .zero⟩ twoSymbols_clock

end QuickTrace.EventTimer
