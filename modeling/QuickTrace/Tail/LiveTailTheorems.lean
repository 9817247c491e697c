/-
QuickTrace.Tail.LiveTailTheorems — what qttail prints of running programs.

A table of qttail has at any moment part of what is in the dictionary of a
file. The invariant is stated with tables of whole dictionaries instead
(`Whole`): what is known of `TailMany` holds with any of them (`Ok.tails`), and
it stays when a dictionary grows. What is printed is the same, as the look-up
in front of it has fetched what the message at the cursor needs (`ok_fetch`).

So the lines are the text of statements: of each message that was recorded
since qttail started at most one line, and if the programs spare what was not
printed, exactly one, in order.
-/
import QuickTrace.Tail.LiveTail

namespace QuickTrace

open QuickTrace.Lib RingBuf Level Printf
open ForeverLog.TraceHandle (mapped_length bytes_length)

/-! ## What an action of a program records -/

namespace Program

variable {k : Nat} (prog : Fin k → Statement) (th : ForeverLog.TraceHandle)

/-- A message is recorded, of a statement that has described itself, or
nothing happens that a reader sees. -/
inductive Records (s : State k) (a : Action k) : Prop where
  | idle (hrecorded : recorded prog s a = [])
      (htf : TraceFile.Idle s.tf (step prog th s a).tf)
  | writes (level : Fin NumTraceLevels) (x : Traced k)
      (hrecorded : recorded prog s a
        = [(level, ⟨(s.tf.log level).rb.startPos, (step prog th s a).hit x⟩)])
      (htf : (step prog th s a).tf = s.tf.trace th.n level ((step prog th s a).hit x))
      (hok : TraceFile.WriteOk (fun _ => True) th.n s.tf ((step prog th s a).hit x))
      (howned : Owned prog (step prog th s a) x)

variable {prog th} {s : State k} {a : Action k}

theorem records (hk : k < 2 ^ 31 - 1) (h : Ok prog th s) (ha : Permitted prog th s a) :
    Records prog th s a := by
  cases a with
  | trace a level args descTsc tsc =>
    obtain ⟨hg, hhas, -, -⟩ := describe_spec hk h a descTsc
    have hr : Recordable prog th (describe prog s a descTsc) level ⟨a, tsc, args⟩ := ha.2
    cases hoff : (describe prog s a descTsc).tf.cs.off
        ((describe prog s a descTsc).hit ⟨a, tsc, args⟩).id with
    | true =>
      refine .idle (if_pos hoff) ?_
      rw [← hg.tf]
      exact TraceFile.idle_trace hoff (hr.off hoff)
    | false =>
      have hok := hr.on hoff
      refine .writes level ⟨a, tsc, args⟩ ?_ ?_ ?_ ⟨hhas, hr.types⟩
      · refine (if_neg (by rw [hoff]; exact Bool.false_ne_true)).trans ?_
        rw [hg.tf]
        rfl
      · show (describe prog s a descTsc).tf.trace th.n level _ = _
        rw [hg.tf]
        rfl
      · rw [hg.tf] at hok
        exact hok
  | prof a descTsc =>
    refine .idle rfl ?_
    have htf : (step prog th s (.prof a descTsc)).tf = s.tf := (describe_spec hk h a descTsc).1.tf
    rw [htf]
    exact fun i => ⟨(s.tf.ring i).rb.msgStart, rfl⟩
  | ctl counter => exact .idle rfl (TraceFile.idle_ctl th.n counter)

/-! ## A file that is opened -/

/-- What qttail has parsed when it has opened the file. -/
structure Opened (prog : Fin k → Statement) (th : ForeverLog.TraceHandle) (s : State k)
    (size : Nat) (M : Lookup.Store) : Prop where
  stored : Stored prog th s size M
  means : ∀ x, Owned prog s x → Means M.table.messages (prog x.stmt) (s.hit x)

theorem Tailable.opened (h : Tailable prog th s) {ds : List Descriptor}
    (hds : Descriptors prog s ds) (header : Nat → UInt8) {reg : Registry}
    (hreg : reg.Reachable) :
    ∃ M, Lookup.parse (th.bytes header s.tf.mem s.dict).length
        (th.bytes header s.tf.mem s.dict) ((th.bytes header s.tf.mem s.dict).length + 1)
        (.initialized reg th.mappedSize (th.bytes header s.tf.mem s.dict)) = some M
      ∧ Opened prog th s (th.bytes header s.tf.mem s.dict).length M := by
  have hstart : Stored prog th s (th.bytes header s.tf.mem s.dict).length
      (.initialized reg th.mappedSize (th.bytes header s.tf.mem s.dict)) := by
    refine ⟨?_, [], ds, hds, fun header' m => Lookup.holds_initialized (mapped_length _ _) hreg _⟩
    rw [bytes_length]
    exact Nat.le_add_right _ _
  obtain ⟨M, ds', hM, hds', htableOf, hstored⟩ := hstart.parse h header
  refine ⟨M, hM, hstored, fun x hx => ?_⟩
  obtain ⟨-, T, -, -, htable⟩ := h.ok.dict
  obtain ⟨htypes, mf, hmf, hof⟩ :=
    (htable.patch h.ok (by rwa [← List.append_nil ds'] at hds') htableOf).means hx
  exact ⟨htypes, mf, (htable.patch_eq h.ok hds' htableOf _).symm.trans hmf, hof⟩

/-- The messages in the file have descriptors in what was parsed. -/
theorem Opened.writer {size : Nat} {M : Lookup.Store} (ho : Opened prog th s size M)
    (h : Tailable prog th s) : TraceFile.WriterOk (Described M.table.messages) th.n th.spec
      th.logStart s.tf := by
  refine ⟨h.ok.inv, fun i => ?_, h.started⟩
  have hl := h.ok.log i
  refine ⟨hl.sorted, hl.pos, hl.small, fun e he => ?_⟩
  obtain ⟨x, hx, hhit⟩ := h.ok.mem_traced he
  rw [← hhit]
  exact (ho.means x (h.ok.owned i x hx)).described

end Program

namespace LiveTail

variable {k : Nat} {ps : Fin k → TracedProgram} {s s' : LiveTail ps}
  {P : (Fin k → TracedFile) → TailMany k → Prop}

/-! ## What is stated -/

/-- The line tells something that its program has traced on this level. -/
def Tells (s : LiveTail ps) (p : PrintOf k) (x : Sent) : Prop :=
  p.print.line.level = x.1.val ∧ ∃ y ∈ (s.programs p.file).traced x.1,
    (s.programs p.file).hit y = x.2.hit
      ∧ Program.Tells (ps p.file).prog (ps p.file).th.n p.print.line y

/-- A line that was read from a standing record tells what was traced; that
was recorded since qttail opened the file, and there is one such line of
it. -/
structure Once (s : LiveTail ps) : Prop where
  lines : s.tails.out.lines = s.tails.prints.map fun p => p.print.line
  tells : ∀ p ∈ s.tails.prints, ∀ x, p.print.origin = some x → s.Tells p x
  sent : ∀ x ∈ s.tails.origins, ∃ m ∈ s.tails.sent, (m.file, m.msg) = x
  nodup : s.tails.origins.Nodup

/-- The lines of several files, when nothing is overwritten too early. -/
structure InOrder (s : LiveTail ps) : Prop where
  corruptions : ∀ f, (s.tails.files f).tail.tail.corruptions = []
  lines : s.tails.out.lines = s.tails.prints.map fun p => p.print.line
  tells : ∀ p ∈ s.tails.prints, ∃ x, p.print.origin = some x ∧ s.Tells p x
  files : ∀ f, List.IsPrefix (s.tails.view f).origins (s.tails.sentTo f)
  order : s.tails.prints.Pairwise fun p q => ∀ x y, p.print.origin = some x →
    q.print.origin = some y → s.tails.Early p.begun q.file y →
    x.2.hit.tsc.toNat ≤ y.2.hit.tsc.toNat
  returned : s.tails.loop = .returned → ∀ f, (s.tails.files f).tail.status = .deletePending
    ∧ ∀ m ∈ s.tails.sent, m.file = f → m.late = false → m.msg ∈ (s.tails.view f).origins

/-! ## The invariant -/

/-- Tables of the whole dictionaries. -/
def Whole (s : LiveTail ps) (T : Fin k → MessageTable) : Prop :=
  ∀ f, Program.Table (ps f).prog (s.programs f) (T f)

/-- The invariant of a run, over one of the tails. -/
structure Ok (P : (Fin k → TracedFile) → TailMany k → Prop) (s : LiveTail ps) : Prop where
  programs : ∀ f, Program.Tailable (ps f).prog (ps f).th (s.programs f)
  same : ∀ f, (s.tails.files f).tf = (s.programs f).tf
  stored : ∀ f, Program.Stored (ps f).prog (ps f).th (s.programs f) (s.size f) (s.messages f)
  tails : ∀ T, s.Whole T → P (cfg ps T) s.tails
  neutral : Neutral { s.tails.out.flags with width := 0 }
  tells : ∀ p ∈ s.tails.prints, ∀ x, p.print.origin = some x → s.Tells p x

/-- An invariant of the tails that can be carried along: the table does not
matter, nor what a reader does not see. -/
structure Carried (P : (Fin k → TracedFile) → TailMany k → Prop)
    (A : (Fin k → TracedFile) → TailMany k → TailMany.Action k → Prop) : Prop where
  live : ∀ {cfg s}, P cfg s → TailMany.Live cfg s
  change : ∀ {cfg cfg' s}, P cfg s → TailMany.SameFiles cfg cfg' s → P cfg' s
  idle : ∀ {cfg s f tf'}, P cfg s → TraceFile.Idle (s.files f).tf tf' →
    ∀ tsc1, P cfg (s.touch f tf' tsc1)
  step : ∀ {cfg s a}, (∀ f, (cfg f).n ≤ 80) → P cfg s → A cfg s a →
    ∃ s', s.step cfg a = .ok s' ∧ P cfg s'
  starts : ∀ {cfg tfs s}, (∀ f, (cfg f).n ≤ 80) →
    (∀ f, TraceFile.WriterOk (Described (cfg f).msgs) (cfg f).n (cfg f).spec (cfg f).logStart
      (tfs f)) → TailMany.Starts cfg tfs s → P cfg s

/-- What an action asks of the tails. -/
def Asks (A : (Fin k → TracedFile) → TailMany k → TailMany.Action k → Prop) (s : LiveTail ps)
    (T : Fin k → MessageTable) : Action ps → Prop
  | .program f a tsc1 _ => ∀ x ∈ Program.recorded (ps f).prog (s.programs f) a,
      TraceFile.WriteOk (Described (T f).messages) (ps f).th.n (s.tails.files f).tf x.2.hit →
        A (cfg ps T) s.tails (.write f x.1 x.2.hit tsc1)
  | .delete f => A (cfg ps T) s.tails (.delete f)
  | .begin curTsc => A (cfg ps T) s.tails (.begin curTsc)
  | .look => A (cfg ps T) s.tails .look
  | .finish _ => A (cfg ps T) s.tails .finish
  | .parse _ _ => True

theorem live_carried : Carried (k := k) TailMany.Live TailMany.Allowed where
  live := id
  change := TailMany.Live.change
  idle := TailMany.live_idle
  step := fun hn h ha => TailMany.live_step hn h ha
  starts := TailMany.live_starts

theorem kept_carried : Carried (k := k) TailMany.Kept TailMany.Spared where
  live := TailMany.Kept.live
  change := TailMany.Kept.change
  idle := TailMany.kept_idle
  step := fun hn h ha => TailMany.kept_step hn h ha
  starts := TailMany.kept_starts

/-! ## Growing dictionaries -/

theorem Ok.whole (h : Ok P s) : ∃ T, s.Whole T := by
  have hall := fun f => (h.programs f).ok.dict
  choose ds T hds hT htable using hall
  exact ⟨T, htable⟩

/-- The tables mean the same by what is in the files. -/
theorem Whole.sameFiles {T T' : Fin k → MessageTable} (hT : s.Whole T) (hT' : s'.Whole T')
    (hext : ∀ f, Program.Extends (s.programs f) (s'.programs f))
    (hok : ∀ f, Program.Ok (ps f).prog (ps f).th (s.programs f)) {tails : TailMany k}
    (htf : ∀ f, (tails.files f).tf = (s.programs f).tf) :
    TailMany.SameFiles (cfg ps T) (cfg ps T') tails := by
  refine ⟨fun _ => rfl, fun _ => rfl, fun _ => rfl, fun f i e he => ?_⟩
  rw [htf] at he
  obtain ⟨x, hx, hhit⟩ := (hok f).mem_traced he
  have hown := (hok f).owned i x hx
  obtain ⟨hsame, hown'⟩ := (hext f).owned hown
  have hmeans := (hT f).means hown
  have hmeans' := (hT' f).means hown'
  rw [hhit] at hmeans hsame
  rw [hsame] at hmeans'
  exact ⟨(ps f).prog x.stmt, hmeans, hmeans'⟩

/-- What was told stays told. -/
theorem Tells.extends {p : PrintOf k} {x : Sent} (h : s.Tells p x)
    (hext : ∀ f, Program.Extends (s.programs f) (s'.programs f))
    (hok : ∀ f, Program.Ok (ps f).prog (ps f).th (s.programs f)) : s'.Tells p x := by
  obtain ⟨hlevel, y, hy, hhit, ht⟩ := h
  have hown := (hok p.file).owned x.1 y hy
  exact ⟨hlevel, y, ((hext p.file).traced x.1).subset hy, ((hext p.file).owned hown).1.trans hhit,
    ht⟩

/-! ## A program goes on -/

section

variable {A : (Fin k → TracedFile) → TailMany k → TailMany.Action k → Prop} {f : Fin k}

theorem extends_program (hk : (ps f).count < 2 ^ 31 - 1)
    (h : Program.Ok (ps f).prog (ps f).th (s.programs f)) (a : Program.Action (ps f).count)
    (tsc1 : Nat) (header : Nat → UInt8) (g : Fin k) :
    Program.Extends (s.programs g) ((s.program f a tsc1 header).programs g) := by
  refine (Function.forall_update_iff s.programs fun g p =>
    Program.Extends (s.programs g) p).mpr ⟨Program.extends_step hk h a, fun g _ => ?_⟩ g
  exact ⟨fun b hb => ⟨rfl, hb⟩, fun i => List.prefix_refl _⟩

theorem tails_program (f : Fin k) (a : Program.Action (ps f).count) (tsc1 : Nat)
    (header : Nat → UInt8) : (s.program f a tsc1 header).tails
      = { s.tails.touch f (Program.step (ps f).prog (ps f).th (s.programs f) a).tf tsc1 with
          sent := s.tails.sent ++ (Program.recorded (ps f).prog (s.programs f) a).map fun x =>
            ⟨f, x, (s.tails.files f).tail.status = .deletePending⟩ } := rfl

/-- The step lemma for the programs. -/
theorem ok_program (hC : Carried P A) (hk : (ps f).count < 2 ^ 31 - 1)
    (hn : ∀ f, (ps f).th.n ≤ 80) (h : Ok P s) {a : Program.Action (ps f).count} (tsc1 : Nat)
    (header : Nat → UInt8) (ha : Program.Permitted (ps f).prog (ps f).th (s.programs f) a)
    (hask : ∀ T, Asks A s T (.program f a tsc1 header)) : Ok P (s.program f a tsc1 header) := by
  have hok := fun g => (h.programs g).ok
  have hext := extends_program hk (hok f) a tsc1 header
  refine ⟨?_, fun g => ?_, ?_, fun T' hT' => ?_, h.neutral, fun p hp x hx => ?_⟩
  · exact (Function.forall_update_iff s.programs fun g p =>
      Program.Tailable (ps g).prog (ps g).th p).mpr
        ⟨Program.tailable_step hk (h.programs f) ha, fun g _ => h.programs g⟩
  · show ((s.tails.touch f _ tsc1).files g).tf = (Function.update s.programs f _ g).tf
    by_cases hg : g = f
    · subst hg
      rw [TailMany.touch_self, Function.update_self]
    · rw [TailMany.touch_ne hg, Function.update_of_ne hg]
      exact h.same g
  · exact (Function.forall_update_iff s.programs fun g p =>
      Program.Stored (ps g).prog (ps g).th p (s.size g) (s.messages g)).mpr
        ⟨(h.stored f).step hk (hok f) a, fun g _ => h.stored g⟩
  · obtain ⟨T, hT⟩ := h.whole
    have hP : P (cfg ps T') s.tails :=
      hC.change (h.tails T hT) (hT.sameFiles hT' hext hok h.same)
    cases Program.records hk (hok f) ha with
    | idle hrecorded htf =>
      rw [← h.same f] at htf
      have heq : (s.program f a tsc1 header).tails
          = s.tails.touch f (Program.step (ps f).prog (ps f).th (s.programs f) a).tf tsc1 := by
        rw [tails_program, hrecorded, List.map_nil, List.append_nil]
        rfl
      rw [heq]
      exact hC.idle hP htf tsc1
    | writes level x hrecorded htf hok' howned =>
      have heq : (s.program f a tsc1 header).tails = s.tails.write (cfg ps T') f level
          ((Program.step (ps f).prog (ps f).th (s.programs f) a).hit x) tsc1 := by
        rw [tails_program, hrecorded, htf]
        unfold TailMany.write TailMany.touch
        rw [h.same f]
        rfl
      have htable : Program.Table (ps f).prog
          (Program.step (ps f).prog (ps f).th (s.programs f) a) (T' f) := by
        have hf := hT' f
        rwa [show (s.program f a tsc1 header).programs f = _ from Function.update_self ..] at hf
      rw [← h.same f] at hok'
      have hwrite := hask T' (level, ⟨_, _⟩) (by rw [hrecorded]; exact List.mem_singleton_self _)
        ⟨hok'.on, hok'.fits, hok'.later, hok'.pos, hok'.small, (htable.means howned).described⟩
      obtain ⟨tails, heq', hP'⟩ := hC.step hn hP hwrite
      cases heq'
      rw [heq]
      exact hP'
  · exact (h.tells p hp x hx).extends hext hok

/-! ## Look-ups -/

/-- Nothing is printed or recorded. -/
theorem Ok.still (h : Ok P s) {tails : TailMany k} (hst : TailMany.Still s.tails tails)
    (hP : ∀ T, s.Whole T → P (cfg ps T) tails) : Ok P { s with tails } where
  programs := h.programs
  same := fun f => (hst.tf f).trans (h.same f)
  stored := h.stored
  tails := hP
  neutral := by
    show Neutral { tails.out.flags with width := 0 }
    rw [hst.out]
    exact h.neutral
  tells := fun p hp => h.tells p (hst.prints ▸ hp)

/-- `Messages` has changed. -/
theorem Ok.parsed (h : Ok P s) {M : Lookup.Store}
    (hM : Program.Stored (ps f).prog (ps f).th (s.programs f) (s.size f) M) :
    Ok P (s.parsed f M) where
  programs := h.programs
  same := h.same
  stored := (Function.forall_update_iff s.messages fun g M =>
    Program.Stored (ps g).prog (ps g).th (s.programs g) (s.size g) M).mpr
      ⟨hM, fun g _ => h.stored g⟩
  tails := h.tails
  neutral := h.neutral
  tells := h.tells

theorem ok_parse (h : Ok P s) (f : Fin k) {reg : Registry} (hreg : reg.Reachable) :
    ∃ s', s.parse f reg = .ok s' ∧ Ok P s' := by
  obtain ⟨M, ds, hM, -, -, hs⟩ :=
    ((h.stored f).withReg hreg).parse (h.programs f) (s.header f)
  refine ⟨s.parsed f M, ?_, h.parsed hs⟩
  unfold parse bytes
  rw [hM]

/-- Behind the look-up the message at the cursor is what it is in some tables
of the whole dictionaries. -/
theorem ok_fetch (h : Ok P s) {reg : Registry} (hreg : reg.Reachable) :
    ∃ s₁ T, s.fetch reg = .ok s₁ ∧ Ok P s₁ ∧ s₁.tails = s.tails ∧ s₁.programs = s.programs
      ∧ s₁.Whole T ∧ ∀ f bufNum curTsc, s.tails.turn = some (f, bufNum, curTsc) → ∀ rb,
        (s.tails.files f).tail.tail.rbs[bufNum]? = some rb →
          rb.Agree (s.tails.files f).tf.mem curTsc.toNat (s₁.tables f).messages
            (T f).messages := by
  obtain ⟨T, hT⟩ := h.whole
  unfold fetch
  cases hturn : s.tails.turn with
  | none => exact ⟨s, T, rfl, h, rfl, rfl, hT, fun f bufNum curTsc h' => by cases h'⟩
  | some turn =>
    obtain ⟨f, bufNum, curTsc⟩ := turn
    dsimp only
    cases hrb : (s.tails.files f).tail.tail.rbs[bufNum]? with
    | none =>
      refine ⟨s, T, rfl, h, rfl, rfl, hT, fun g b c h' rb hrb' => ?_⟩
      cases h'
      cases hrb.symm.trans hrb'
    | some rb =>
      dsimp only
      split
      · rename_i hinvalid
        refine ⟨s, T, rfl, h, rfl, rfl, hT, fun g b c h' rb' hrb' => ?_⟩
        cases h'
        cases hrb.symm.trans hrb'
        intro hz hv
        rcases hinvalid with h0 | hv'
        · exact absurd h0 hz
        · rw [hv] at hv'
          cases hv'
      · obtain ⟨r, M, hM, hs, Tf, hTf, heq⟩ := (h.stored f).get (h.programs f) (s.header f) hreg
          (UInt32.ofNat ((s.tails.files f).tf.mem.load (rb.cur + 8) 4))
        refine ⟨s.parsed f M, Function.update T f Tf, ?_, h.parsed hs, rfl, rfl,
          (Function.forall_update_iff T fun g Tg =>
            Program.Table (ps g).prog (s.programs g) Tg).mpr ⟨hTf, fun g _ => hT g⟩,
          fun g b c h' rb' hrb' => ?_⟩
        · unfold get bytes
          rw [hM]
        · cases h'
          cases hrb.symm.trans hrb'
          intro hz hv
          have hid : (UInt32.ofNat ((s.tails.files f).tf.mem.load (rb.cur + 8) 4)).toNat
              = (s.tails.files f).tf.mem.load (rb.cur + 8) 4 :=
            UInt32.toNat_ofNat_of_lt' (Mem.load_lt _ _ 4)
          rw [hid] at heq
          have htable : (s.parsed f M).tables f = M.table :=
            congrArg Lookup.Store.table (Function.update_self ..)
          unfold Messages.get
          rw [htable, Function.update_self, heq]

/-! ## A round -/

/-- A step that reads no message does not depend on the tables. -/
theorem ok_still (hC : Carried P A) (hn : ∀ f, (ps f).th.n ≤ 80) (h : Ok P s)
    {a : TailMany.Action k} (hask : ∀ T, A (cfg ps T) s.tails a)
    (hsame : ∀ T, s.tails.step (cfg ps s.tables) a = s.tails.step (cfg ps T) a)
    (hstill : ∀ tails, s.tails.step (cfg ps s.tables) a = .ok tails →
      TailMany.Still s.tails tails) :
    ∃ tails, s.tails.step (cfg ps s.tables) a = .ok tails ∧ Ok P { s with tails } := by
  obtain ⟨T, hT⟩ := h.whole
  obtain ⟨tails, heq, -⟩ := hC.step hn (h.tails T hT) (hask T)
  rw [← hsame T] at heq
  refine ⟨tails, heq, h.still (hstill tails heq) fun T' hT' => ?_⟩
  obtain ⟨tails', heq', hP'⟩ := hC.step hn (h.tails T' hT') (hask T')
  rw [← hsame T', heq] at heq'
  cases heq'
  exact hP'

/-- A new line that was read from a standing record tells it. -/
theorem tells_of_spelled {T : Fin k → MessageTable} (hT : s.Whole T)
    (hok : ∀ f, Program.Ok (ps f).prog (ps f).th (s.programs f))
    (hsame : ∀ f, (s.tails.files f).tf = (s.programs f).tf)
    (hlive : TailMany.Live (cfg ps T) s.tails) {p : PrintOf k} (hp : p ∈ s.tails.prints)
    {x : Sent} (hx : p.print.origin = some x)
    (hl : p.print.line.Spelled (T p.file).messages) : s.Tells p x := by
  obtain ⟨hlevel, hshows⟩ := hlive.once.shows p hp x hx
  have horigin : (p.file, x) ∈ s.tails.origins :=
    List.mem_filterMap.mpr ⟨p, hp, by rw [hx]; rfl⟩
  obtain ⟨m, hm, hmsg⟩ := hlive.once.sent _ horigin
  have hlog := hlive.mem_log hm
  obtain ⟨hfile, rfl⟩ := Prod.mk.inj hmsg
  rw [hsame, hfile] at hlog
  obtain ⟨y, hy, hhit⟩ := (hok p.file).mem_traced hlog
  refine ⟨hlevel, y, hy, hhit, (hT p.file).tells ((hok p.file).owned _ y hy) hl ?_⟩
  rw [hhit]
  exact hshows

/-- The step lemma for the end of a round: the tails come to the same with
some tables of the whole dictionaries. -/
theorem ok_finish (hC : Carried P A) (hn : ∀ f, (ps f).th.n ≤ 80) (h : Ok P s) {reg : Registry}
    (hreg : reg.Reachable) (hask : ∀ T, A (cfg ps T) s.tails .finish) :
    ∃ s' T, s.finish reg = .ok s' ∧ Ok P s' ∧ s'.programs = s.programs ∧ s.Whole T
      ∧ s.tails.finish (cfg ps T) = .ok s'.tails := by
  obtain ⟨s₁, T, hfetch, h₁, htails, hprograms, hT, hagree⟩ := ok_fetch h hreg
  have hwhole : s.Whole T := fun f => hprograms ▸ hT f
  have hP := h₁.tails T hT
  rw [← htails] at hask hagree
  obtain ⟨tails, hfinish, hP'⟩ := hC.step hn hP (hask T)
  have hcongr : s₁.tails.finish (cfg ps s₁.tables) = s₁.tails.finish (cfg ps T) :=
    TailMany.finish_congr (fun _ => ⟨rfl, rfl⟩) hagree
  have hprints := TailMany.prints_finish (fun f => (hT f).allSpelled) (hC.live hP).tracks
    h₁.neutral hfinish
  have hok := fun f => (h₁.programs f).ok
  have hsame : ∀ f, (tails.files f).tf = (s₁.programs f).tf := fun f =>
    (hprints.tf f).trans (h₁.same f)
  refine ⟨{ s₁ with tails }, T, ?_, ⟨h₁.programs, hsame, h₁.stored, fun T' hT' => ?_,
    hprints.neutral, fun p hp x hx => ?_⟩, hprograms, hwhole, htails ▸ hfinish⟩
  · unfold finish
    rw [hfetch, ok_bind, hcongr]
    exact map_eq_ok.mpr ⟨tails, hfinish, rfl⟩
  · exact hC.change hP' (hT.sameFiles hT'
      (fun f => ⟨fun b hb => ⟨rfl, hb⟩, fun i => List.prefix_refl _⟩) hok hsame)
  · rcases hprints.prints p hp with hold | hnew
    · exact h₁.tells p hold x hx
    · exact @tells_of_spelled k ps { s₁ with tails } T hT hok hsame (hC.live hP') p hp x hx hnew

/-! ## Every run -/

/-- The step lemma: the process is not stopped. -/
theorem ok_step (hC : Carried P A) (hcount : ∀ f, (ps f).count < 2 ^ 31 - 1)
    (hn : ∀ f, (ps f).th.n ≤ 80) (h : Ok P s) {a : Action ps} (ha : Allowed s a)
    (hask : ∀ T, Asks A s T a) : ∃ s', s.step a = .ok s' ∧ Ok P s' := by
  cases a with
  | program f a tsc1 header =>
    exact ⟨_, rfl, ok_program hC (hcount f) hn h tsc1 header ha hask⟩
  | delete f =>
    obtain ⟨tails, heq, h'⟩ := ok_still hC hn h hask (fun _ => rfl)
      fun _ => TailMany.still_delete
    exact ⟨_, map_eq_ok.mpr ⟨tails, heq, rfl⟩, h'⟩
  | begin curTsc =>
    obtain ⟨tails, heq, h'⟩ := ok_still hC hn h hask (fun _ => rfl)
      fun tails heq => by cases heq; exact TailMany.still_begin s.tails curTsc
    cases heq
    exact ⟨_, rfl, h'⟩
  | look =>
    obtain ⟨T, hT⟩ := h.whole
    obtain ⟨tails, heq, h'⟩ := ok_still hC hn h hask
      (fun T' => TailMany.look_congr (hC.live (h.tails T hT)).tracks)
      fun _ => TailMany.still_look
    exact ⟨_, map_eq_ok.mpr ⟨tails, heq, rfl⟩, h'⟩
  | finish reg =>
    have hreg : reg.Reachable := ha
    have hfinish : ∀ T, A (cfg ps T) s.tails .finish := hask
    obtain ⟨s', T, heq, h', -⟩ := ok_finish hC hn h hreg hfinish
    exact ⟨s', heq, h'⟩
  | parse f reg =>
    have hreg : reg.Reachable := ha
    obtain ⟨s', heq, h'⟩ := ok_parse h f hreg
    exact ⟨s', by rw [step, heq], h'⟩

/-- The run lemma. -/
theorem ok_runs (hC : Carried P A) (hcount : ∀ f, (ps f).count < 2 ^ 31 - 1)
    (hn : ∀ f, (ps f).th.n ≤ 80) {B : LiveTail ps → Action ps → Prop}
    (hB : ∀ s a, B s a → Allowed s a ∧ ∀ T, Asks A s T a) {s₀ : LiveTail ps} (h : Ok P s₀)
    (hr : Runs B s₀ s) : Ok P s := by
  induction hr with
  | refl => exact h
  | tail _ hstep ih =>
    obtain ⟨a, ha, heq⟩ := hstep
    obtain ⟨s', heq', h'⟩ := ok_step hC hcount hn ih (hB _ a ha).1 (hB _ a ha).2
    cases heq.symm.trans heq'
    exact h'

theorem asks_allowed {a : Action ps} (h : Allowed s a) :
    Allowed s a ∧ ∀ T, Asks TailMany.Allowed s T a := by
  refine ⟨h, fun T => ?_⟩
  cases a with
  | program f a tsc1 header => exact fun _ _ hw => hw
  | delete f => trivial
  | begin curTsc => trivial
  | look => trivial
  | finish reg => trivial
  | parse f reg => trivial

theorem asks_spared {a : Action ps} (h : Spared s a) :
    Allowed s a ∧ ∀ T, Asks TailMany.Spared s T a := by
  refine ⟨h.1, fun T => ?_⟩
  cases a with
  | program f a tsc1 header => exact fun x hx hw => ⟨hw, h.2 x hx⟩
  | delete f => trivial
  | begin curTsc => exact h.2
  | look => trivial
  | finish reg => trivial
  | parse f reg => trivial

/-! ## The start -/

/-- What qttail has parsed when it starts. -/
theorem Starts.opened {ran : (f : Fin k) → Program.State (ps f).count} (hs : Starts ran s)
    (hran : ∀ f, Program.Tailable (ps f).prog (ps f).th (ran f)
      ∧ ∃ ds, Program.Descriptors (ps f).prog (ran f) ds) (f : Fin k) :
    Program.Opened (ps f).prog (ps f).th (s.programs f) (s.size f) (s.messages f) := by
  obtain ⟨ht, ds, hds⟩ := hran f
  rw [← hs.programs] at ht hds
  obtain ⟨reg, hreg, hparse⟩ := hs.messages f
  obtain ⟨M, hM, ho⟩ := ht.opened hds (s.header f) hreg
  rw [hs.size f] at hparse ⊢
  cases hM.symm.trans hparse
  exact ho

/-- The invariant holds when qttail starts. -/
theorem ok_starts (hC : Carried P A) (hn : ∀ f, (ps f).th.n ≤ 80)
    {ran : (f : Fin k) → Program.State (ps f).count}
    (hran : ∀ f, Program.Tailable (ps f).prog (ps f).th (ran f)
      ∧ ∃ ds, Program.Descriptors (ps f).prog (ran f) ds) (hs : Starts ran s) : Ok P s := by
  have hopened := hs.opened hran
  obtain ⟨hprograms, -, -, htails⟩ := hs
  subst hprograms
  have hok := fun f => (hran f).1.ok
  have hP : P (cfg ps s.tables) s.tails :=
    hC.starts hn (fun f => (hopened f).writer (hran f).1) htails
  refine ⟨fun f => (hran f).1, htails.tf, fun f => (hopened f).stored, fun T hT => ?_, ?_,
    fun p hp => ?_⟩
  · refine hC.change hP ⟨fun _ => rfl, fun _ => rfl, fun _ => rfl, fun f i e he => ?_⟩
    rw [htails.tf f] at he
    obtain ⟨x, hx, hhit⟩ := (hok f).mem_traced he
    have hown := (hok f).owned i x hx
    rw [← hhit]
    exact ⟨_, (hopened f).means x hown, (hT f).means hown⟩
  · rw [htails.out]
    exact ⟨rfl, rfl, rfl, rfl, rfl⟩
  · rw [htails.prints] at hp
    cases hp

/-- qttail can be started. -/
theorem starts_exists (hn : ∀ f, (ps f).th.n ≤ 80)
    {ran : (f : Fin k) → Program.State (ps f).count}
    (hran : ∀ f, Program.Tailable (ps f).prog (ps f).th (ran f)
      ∧ ∃ ds, Program.Descriptors (ps f).prog (ran f) ds) : ∃ s : LiveTail ps, Starts ran s := by
  have hall := fun f => (hran f).1.opened (hran f).2.choose_spec (fun _ => 0) .initial
  choose M hM hopened using hall
  obtain ⟨tails, htails⟩ := @TailMany.starts_exists k (cfg ps fun f => (M f).table)
    (fun f => (ran f).tf) hn fun f => (hopened f).writer (hran f).1
  refine ⟨⟨ran, fun _ _ => 0,
    fun f => ((ps f).th.bytes (fun _ => 0) (ran f).tf.mem (ran f).dict).length, M, tails⟩, rfl,
    fun f => ?_, fun f => ⟨Registry.initial, .initial, ?_⟩, htails⟩
  · simp only [bytes]
  · simp only [bytes]
    exact hM f

end

/-! ## Main results -/

theorem Ok.once (h : Ok TailMany.Live s) : Once s := by
  obtain ⟨T, hT⟩ := h.whole
  have honce := (h.tails T hT).once
  exact ⟨honce.lines, h.tells, honce.sent, honce.nodup⟩

theorem Ok.inOrder (h : Ok TailMany.Kept s) : InOrder s := by
  obtain ⟨T, hT⟩ := h.whole
  have hin := (h.tails T hT).inOrder
  refine ⟨hin.corruptions, hin.lines, fun p hp => ?_, hin.files, hin.order, hin.returned⟩
  obtain ⟨x, hx, -⟩ := hin.shows p hp
  exact ⟨x, hx, h.tells p hp x hx⟩

/-- Any number of programs that have run for a while when qttail is started,
and that go on in any interleaving with it: they describe statements when they
first reach them, trace, and are switched on and off. qttail can be started
and is not stopped, and a line that it has read from a standing record is the
text of the statement that was traced, with its arguments; there is at most
one such line of each message, and none of one recorded before. -/
theorem live_tail_tells (ps : Fin k → TracedProgram) (hcount : ∀ f, (ps f).count < 2 ^ 31 - 1)
    (hn : ∀ f, (ps f).th.n ≤ 80) {cs : Fin k → MsgCounters}
    {ran : (f : Fin k) → Program.State (ps f).count}
    (hran : ∀ f, Program.Runs (ps f).prog (ps f).th (Program.start (ps f).th (cs f)) (ran f)) :
    (∃ s₀ : LiveTail ps, Starts ran s₀) ∧ ∀ s₀ s : LiveTail ps, Starts ran s₀ →
      Runs Allowed s₀ s → Once s ∧ ∀ a, Allowed s a → ∃ s', s.step a = .ok s' := by
  have htailable := fun f => Program.tailable_runs (hcount f) (hran f)
  refine ⟨starts_exists hn htailable, fun s₀ s hs hr => ?_⟩
  have h := ok_runs live_carried hcount hn (fun _ _ => asks_allowed)
    (ok_starts live_carried hn htailable hs) hr
  refine ⟨h.once, fun a ha => ?_⟩
  obtain ⟨s', heq, -⟩ := ok_step live_carried hcount hn h ha (asks_allowed ha).2
  exact ⟨s', heq⟩

/-- Two programs of two statements. -/
def twoPrograms : Fin 2 → TracedProgram := fun _ =>
  ⟨2, Program.twoStatements, ForeverLog.TraceHandle.kibHandle⟩

/-- The new handle of each. -/
def newProgram : Program.State 2 :=
  Program.start ForeverLog.TraceHandle.kibHandle ⟨4, fun _ => .zero⟩

/-- The first statement traces a number. -/
def traceFive : Program.Action 2 := .trace ⟨0, Nat.two_pos⟩ 2 [.val (.u32 5)] 7 8

/-- Then it has described itself. -/
def tracedFive : Program.State 2 :=
  Program.step Program.twoStatements ForeverLog.TraceHandle.kibHandle newProgram traceFive

theorem traceFive_permitted : Program.Permitted Program.twoStatements
    ForeverLog.TraceHandle.kibHandle newProgram traceFive := by
  refine ⟨by decide +kernel, by decide, fun _ => ⟨by decide +kernel, by decide +kernel,
    fun i e he => ?_, by decide, by decide, trivial⟩, fun hoff => ?_⟩
  · cases he
  · exact absurd hoff (by decide +kernel)

theorem live_tail_tells_two :
    (∃ s₀ : LiveTail twoPrograms, Starts (fun _ => tracedFive) s₀) ∧
    ∀ s₀ s : LiveTail twoPrograms, Starts (fun _ => tracedFive) s₀ → Runs Allowed s₀ s →
        Once s ∧ ∀ a, Allowed s a → ∃ s', s.step a = .ok s' :=
  @live_tail_tells 2 twoPrograms (fun _ => (by decide : 2 < 2 ^ 31 - 1)) (fun _ => Nat.le_refl 80)
    (fun _ => ⟨4, fun _ => .zero⟩) (fun _ => tracedFive)
    fun _ => .single ⟨traceFive, traceFive_permitted, rfl⟩

/-- If they spare what was not printed yet, and no message is younger than the
clock when a round begins, every line tells what was traced, the lines of a
file are in the order in which its program has traced, without a gap, and when
qttail returns nothing is missing that was recorded before it learned of the
deletion. -/
theorem live_tail_in_order (ps : Fin k → TracedProgram)
    (hcount : ∀ f, (ps f).count < 2 ^ 31 - 1) (hn : ∀ f, (ps f).th.n ≤ 80)
    {cs : Fin k → MsgCounters} {ran : (f : Fin k) → Program.State (ps f).count}
    (hran : ∀ f, Program.Runs (ps f).prog (ps f).th (Program.start (ps f).th (cs f)) (ran f))
    {s₀ s : LiveTail ps} (hs : Starts ran s₀) (hr : Runs Spared s₀ s) : InOrder s := by
  have htailable := fun f => Program.tailable_runs (hcount f) (hran f)
  exact (ok_runs kept_carried hcount hn (fun _ _ => asks_spared)
    (ok_starts kept_carried hn htailable hs) hr).inOrder

end LiveTail

end QuickTrace
