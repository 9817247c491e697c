/-
QuickTrace.Tail.LiveTailRounds — qttail when the programs have stopped.

A round of `LiveTail` is a round of its tails, in some tables of the whole
dictionaries (`round_tails`): the look-ups have fetched what is printed. So
what `TailManyRounds` says of rounds holds here, and everything that the
programs have traced can be printed (`drained_exists`).
-/
import QuickTrace.Tail.LiveTailTheorems
import QuickTrace.Tail.TailManyRounds

namespace QuickTrace

open QuickTrace.Lib RingBuf Level Printf

namespace LiveTail

variable {k : Nat} {ps : Fin k → TracedProgram} {s s' : LiveTail ps} {f : Fin k}

/-! ## A round -/

/-- The files are asked. -/
theorem looks_tails (hn : ∀ f, (ps f).th.n ≤ 80) (m : Nat) (h : Ok TailMany.Kept s) :
    ∃ s', Runs Spared s s' ∧ Ok TailMany.Kept s' ∧ s'.programs = s.programs
      ∧ ∀ T, (List.replicate m TailMany.Action.look).foldlM (TailMany.step (cfg ps T)) s.tails
        = .ok s'.tails := by
  induction m generalizing s with
  | zero => exact ⟨s, .refl, h, rfl, fun _ => rfl⟩
  | succ m ih =>
    obtain ⟨T, hT⟩ := h.whole
    have hsame : ∀ T', s.tails.step (cfg ps s.tables) .look = s.tails.step (cfg ps T') .look :=
      fun T' => TailMany.look_congr (h.tails T hT).live.tracks
    obtain ⟨tails, heq, h₁⟩ := ok_still (a := .look) kept_carried hn h (fun _ => trivial) hsame
      fun _ => TailMany.still_look
    obtain ⟨s', hruns, h', hprograms, hlooks⟩ := ih h₁
    refine ⟨s', .head ⟨.look, ⟨trivial, trivial⟩, map_eq_ok.mpr ⟨tails, heq, rfl⟩⟩ hruns, h',
      hprograms, fun T' => ?_⟩
    rw [List.replicate_succ, List.foldlM_cons, ← hsame T', heq]
    exact hlooks T'

/-- A round of qttail is one of its tails. -/
theorem round_tails (hn : ∀ f, (ps f).th.n ≤ 80) (h : Ok TailMany.Kept s) {curTsc : UInt64}
    (hlater : s.tails.Later curTsc) : ∃ s' T, Runs Spared s s' ∧ Ok TailMany.Kept s'
      ∧ s'.programs = s.programs ∧ s.Whole T
      ∧ s.tails.round (cfg ps T) curTsc = .ok s'.tails := by
  obtain ⟨tails, heq, h₁⟩ := ok_still (a := .begin curTsc) kept_carried hn h (fun _ => hlater)
    (fun _ => rfl) fun tails heq => by cases heq; exact TailMany.still_begin s.tails curTsc
  cases heq
  obtain ⟨s₂, hruns, h₂, hprograms, hlooks⟩ := looks_tails hn k h₁
  obtain ⟨s₃, T, hfinish, h₃, hprograms₃, hT, htails⟩ :=
    ok_finish kept_carried hn h₂ .initial fun _ => trivial
  refine ⟨s₃, T, .tail (.head ⟨.begin curTsc, ⟨trivial, hlater⟩, rfl⟩ hruns)
    ⟨.finish Registry.initial, ⟨.initial, trivial⟩, hfinish⟩, h₃, hprograms₃.trans hprograms,
    fun f => hprograms ▸ hT f, ?_⟩
  change (List.replicate k TailMany.Action.look ++ [TailMany.Action.finish]).foldlM
    (TailMany.step (cfg ps T)) (s.tails.begin curTsc) = _
  rw [List.foldlM_append, hlooks T]
  change s₂.tails.finish (cfg ps T) >>= pure = _
  rw [htails]
  rfl

/-! ## Several rounds -/

/-- When the programs stop, some rounds print all that they have traced into
the files that qttail has not given up. -/
theorem drained_exists (hn : ∀ f, (ps f).th.n ≤ 80) (h : Ok TailMany.Kept s)
    (hloop : s.tails.loop = .watching) {curTsc : UInt64} (hlater : s.tails.Later curTsc) :
    ∃ s', Runs Spared s s' ∧ TailMany.Quiet s.tails s'.tails ∧ Ok TailMany.Kept s'
      ∧ ∀ g, (s'.tails.files g).tail.tfh = true → s'.tails.pending g = [] := by
  induction hleft : s.tails.left using Nat.strong_induction_on generalizing s with
  | h N ih =>
    obtain ⟨s₁, T, hruns, h₁, -, hT, hround⟩ := round_tails hn h hlater
    obtain ⟨tails, hround', -, hquiet, hends⟩ :=
      TailMany.round_spec hn (h.tails T hT) hloop hlater
    obtain rfl : s₁.tails = tails := Except.ok.inj (hround.symm.trans hround')
    cases hends with
    | nothing _ hnil _ => exact ⟨s₁, hruns, hquiet, h₁, hnil⟩
    | prints hwatching f hlt =>
      have hless : s₁.tails.left < s.tails.left :=
        Finset.sum_lt_sum (fun g _ => hquiet.pending g) ⟨f, Finset.mem_univ f, hlt⟩
      obtain ⟨s₂, hruns₂, hquiet₂, h₂, hnil⟩ :=
        ih _ (hleft ▸ hless) h₁ hwatching (hlater.quiet hquiet) rfl
      exact ⟨s₂, .trans hruns hruns₂, hquiet.trans hquiet₂, h₂, hnil⟩

/-! ## Two programs go on -/

/-- The first messages of a file overwrite nothing. -/
theorem spared_program {a : Program.Action (ps f).count} (hsent : s.tails.sentTo f = [])
    (ha : Program.Permitted (ps f).prog (ps f).th (s.programs f) a) (tsc1 : Nat)
    (header : Nat → UInt8) : Spared s (.program f a tsc1 header) := by
  refine ⟨ha, fun x hx p hp => ?_⟩
  rw [show (s.tails.view f).sent = s.tails.sentTo f from rfl, hsent] at hp
  cases hp

section

variable (a : Program.Action (ps f).count) (tsc1 : Nat) (header : Nat → UInt8)

theorem programs_program_self : (s.program f a tsc1 header).programs f
    = Program.step (ps f).prog (ps f).th (s.programs f) a :=
  Function.update_self ..

theorem programs_program_ne {g : Fin k} (hg : g ≠ f) :
    (s.program f a tsc1 header).programs g = s.programs g :=
  Function.update_of_ne hg ..

theorem sentTo_program_self : (s.program f a tsc1 header).tails.sentTo f
    = s.tails.sentTo f ++ Program.recorded (ps f).prog (s.programs f) a := by
  rw [tails_program]
  unfold TailMany.sentTo
  rw [List.filter_append, List.map_append]
  simp [List.filter_map, Function.comp_def]

theorem sentTo_program_ne {g : Fin k} (hg : g ≠ f) :
    (s.program f a tsc1 header).tails.sentTo g = s.tails.sentTo g := by
  rw [tails_program]
  unfold TailMany.sentTo
  rw [List.filter_append, List.map_append]
  simp [List.filter_map, Function.comp_def, hg.symm]

theorem tail_program (g : Fin k) :
    ((s.program f a tsc1 header).tails.files g).tail = (s.tails.files g).tail :=
  TailMany.tail_touch _ _ g

end

/-- Two programs act behind the start. -/
theorem Starts.both {ps : Fin 2 → TracedProgram} (hn : ∀ f, (ps f).th.n ≤ 80)
    {ran : (f : Fin 2) → Program.State (ps f).count}
    (hran : ∀ f, Program.Tailable (ps f).prog (ps f).th (ran f)
      ∧ ∃ ds, Program.Descriptors (ps f).prog (ran f) ds)
    {s₀ : LiveTail ps} (hs : Starts ran s₀) {a : (f : Fin 2) → Program.Action (ps f).count}
    (ha : ∀ f, Program.Permitted (ps f).prog (ps f).th (ran f) (a f)) :
    ∃ s, Runs Spared s₀ s ∧ s.tails.loop = .watching ∧ ∀ f,
      s.programs f = Program.step (ps f).prog (ps f).th (ran f) (a f)
        ∧ s.tails.sentTo f = Program.recorded (ps f).prog (ran f) (a f)
        ∧ (s.tails.files f).tail.tfh = true := by
  have hsent := hs.tails.sentTo_nil
  have hprograms : ∀ f, s₀.programs f = ran f := fun f => congrFun hs.programs f
  have hwriter : ∀ f, TraceFile.WriterOk (Described (s₀.messages f).table.messages) (ps f).th.n
      (ps f).th.spec (ps f).th.logStart (ran f).tf := fun f => by
    have hw := (hs.opened hran f).writer ((hprograms f).symm ▸ (hran f).1)
    rwa [hprograms f] at hw
  have hone : (1 : Fin 2) ≠ 0 := by decide
  let header : Nat → UInt8 := fun _ => 0
  let s₁ := s₀.program 0 (a 0) 0 header
  have hprogram₁ : s₁.programs 1 = ran 1 :=
    (programs_program_ne (a 0) 0 header hone).trans (hprograms 1)
  have hsent₁ : s₁.tails.sentTo 1 = [] :=
    (sentTo_program_ne (a 0) 0 header hone).trans (hsent 1)
  have hspared₀ : Spared s₀ (.program 0 (a 0) 0 header) :=
    spared_program (hsent 0) ((hprograms 0).symm ▸ ha 0) 0 header
  have hspared₁ : Spared s₁ (.program 1 (a 1) 0 header) :=
    spared_program hsent₁ (hprogram₁.symm ▸ ha 1) 0 header
  refine ⟨s₁.program 1 (a 1) 0 header, .tail (.single ⟨_, hspared₀, rfl⟩) ⟨_, hspared₁, rfl⟩,
    hs.tails.loop, fun f => ⟨?_, ?_, ?_⟩⟩
  · by_cases hf : f = 1
    · subst hf
      rw [programs_program_self, hprogram₁]
    · obtain rfl : f = 0 := by omega
      rw [programs_program_ne _ _ _ hf, programs_program_self, hprograms]
  · by_cases hf : f = 1
    · subst hf
      rw [sentTo_program_self, hsent₁, hprogram₁, List.nil_append]
    · obtain rfl : f = 0 := by omega
      rw [sentTo_program_ne _ _ _ hf, sentTo_program_self, hsent, hprograms, List.nil_append]
  · rw [tail_program, tail_program]
    exact (TailMany.starts_mapped hn hwriter hs.tails f).1

/-! ## Messages of two programs -/

/-- The statement traces another number. -/
def traceSix : Program.Action 2 := .trace ⟨0, Nat.two_pos⟩ 2 [.val (.u32 6)] 9 10

def tracedSix : Program.State 2 :=
  Program.step Program.twoStatements ForeverLog.TraceHandle.kibHandle tracedFive traceSix

theorem traceSix_permitted : Program.Permitted Program.twoStatements
    ForeverLog.TraceHandle.kibHandle tracedFive traceSix := by
  refine ⟨by decide +kernel, by decide, fun _ => ⟨by decide +kernel, by decide +kernel,
    by decide +kernel, by decide, by decide, trivial⟩, fun hoff => ?_⟩
  exact absurd hoff (by decide +kernel)

theorem tracedSix_recorded :
    (Program.recorded Program.twoStatements tracedFive traceSix).length = 1 := by
  decide +kernel

theorem tracedSix_log : ∀ i, ∀ e ∈ (tracedSix.tf.ring i).log, e.hit.tsc.toNat < 12 := by
  decide +kernel

/-- A state in which each program has traced once more. -/
theorem traceSix_run : ∃ s₀ s : LiveTail twoPrograms, Starts (fun _ => tracedFive) s₀
    ∧ Runs Spared s₀ s ∧ Ok TailMany.Kept s ∧ s.tails.loop = .watching ∧ s.tails.Later 12
    ∧ ∀ f, (s.tails.sentTo f).length = 1 ∧ (s.tails.files f).tail.tfh = true := by
  have hn : ∀ f, (twoPrograms f).th.n ≤ 80 := fun _ => Nat.le_refl 80
  have hcount : ∀ f, (twoPrograms f).count < 2 ^ 31 - 1 := fun _ => (by decide : 2 < 2 ^ 31 - 1)
  have hran : ∀ f : Fin 2, Program.Runs (twoPrograms f).prog (twoPrograms f).th
      (Program.start (twoPrograms f).th ⟨4, fun _ => .zero⟩) tracedFive := fun _ =>
    .single ⟨traceFive, traceFive_permitted, rfl⟩
  have htailable := fun f => Program.tailable_runs (hcount f) (hran f)
  have hexists : ∃ s₀ : LiveTail twoPrograms, Starts (fun _ => tracedFive) s₀ :=
    starts_exists hn htailable
  obtain ⟨s₀, hs⟩ := hexists
  obtain ⟨s, hr, hloop, hboth⟩ := hs.both hn htailable (a := fun _ => traceSix)
    fun _ => traceSix_permitted
  have hok := ok_runs kept_carried hcount hn (fun _ _ => asks_spared)
    (ok_starts kept_carried hn htailable hs) hr
  refine ⟨s₀, s, hs, hr, hok, hloop, fun f i e he => ?_, fun f => ⟨?_, (hboth f).2.2⟩⟩
  · rw [hok.same f, (hboth f).1] at he
    exact tracedSix_log i e he
  · rw [(hboth f).2.1]
    exact tracedSix_recorded

/-- Both messages are printed. -/
theorem live_tail_in_order_two : ∃ s₀ s : LiveTail twoPrograms, Starts (fun _ => tracedFive) s₀
    ∧ Runs Spared s₀ s ∧ (∀ f, (s.tails.view f).origins.length = 1) ∧ InOrder s := by
  obtain ⟨s₀, s, hs, hr, hok, hloop, hlater, hsent⟩ := traceSix_run
  obtain ⟨s', hr', hquiet, hok', hnil⟩ := drained_exists (fun _ => Nat.le_refl 80) hok hloop hlater
  refine ⟨s₀, s', hs, .trans hr hr', fun f => ?_, @live_tail_in_order 2 twoPrograms
    (fun _ => (by decide : 2 < 2 ^ 31 - 1)) (fun _ => Nat.le_refl 80)
    (fun _ => ⟨4, fun _ => .zero⟩) (fun _ => tracedFive)
    (fun _ => .single ⟨traceFive, traceFive_permitted, rfl⟩) s₀ s' hs (.trans hr hr')⟩
  have hpend : s'.tails.pending f = [] := (hquiet.mapped f (hsent f).2).elim (hnil f) id
  obtain ⟨T, hT⟩ := hok'.whole
  have hsplit := ((hok'.tails T hT).synced f).sent
  rw [hpend, List.append_nil] at hsplit
  rw [← hsplit]
  show (s'.tails.sentTo f).length = 1
  unfold TailMany.sentTo
  rw [hquiet.sent]
  exact (hsent f).1

end LiveTail

end QuickTrace
