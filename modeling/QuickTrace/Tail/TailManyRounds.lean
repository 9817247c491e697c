/-
QuickTrace.Tail.TailManyRounds — what `tailMany` does when the writers have
stopped.

A round that starts with a clock later than everything that was recorded
prints one message, or finds that there is none (`round_spec`). So after as
many rounds as there are messages everything is printed, in the order of the
timestamps over all files, and the next round returns exactly if all files
were deleted.
-/
import QuickTrace.Tail.TailManyOrder
import Mathlib.Algebra.Order.BigOperators.Group.Finset

namespace QuickTrace

open QuickTrace.Lib RingBuf Level

namespace TailMany

variable {k : Nat} {cfg : Fin k → TracedFile} {s s' s'' : TailMany k} {f g : Fin k}

/-- One round of `tailMany`. -/
def round (cfg : Fin k → TracedFile) (curTsc : UInt64) (s : TailMany k) :
    Except Stop (TailMany k) :=
  (.begin curTsc :: (List.replicate k .look ++ [.finish])).foldlM (step cfg) s

/-- Several rounds; each reads the clock. -/
def rounds (cfg : Fin k → TracedFile) (rdtsc : Nat → UInt64) : Nat → TailMany k →
    Except Stop (TailMany k)
  | 0, s => .ok s
  | m + 1, s => s.round cfg (rdtsc 0) >>= rounds cfg (fun i => rdtsc (i + 1)) m

/-- What is left of a round that has begun. -/
def endRound (cfg : Fin k → TracedFile) (s : TailMany k) : Except Stop (TailMany k) :=
  match s.loop with
  | .round r => (List.replicate (k - r.looked) Action.look ++ [Action.finish]).foldlM (step cfg) s
  | _ => .ok s

/-- The calls of a round are steps of a run. -/
theorem runs_foldlM {as : List (Action k)} (has : ∀ a ∈ as, a = .look ∨ a = .finish)
    (h : as.foldlM (step cfg) s = .ok s') : Runs cfg (Spared cfg) s s' := by
  induction as generalizing s with
  | nil =>
    cases h
    exact .refl
  | cons a as ih =>
    rw [List.foldlM_cons] at h
    obtain ⟨s₁, hstep, h⟩ := bind_eq_ok.mp h
    refine .head ⟨a, ?_, hstep⟩ (ih (fun b hb => has b (List.mem_cons_of_mem a hb)) h)
    rcases has a List.mem_cons_self with rfl | rfl
    · trivial
    · trivial

theorem runs_round {curTsc : UInt64} (hlater : s.Later curTsc)
    (h : s.round cfg curTsc = .ok s') : Runs cfg (Spared cfg) s s' := by
  unfold round at h
  rw [List.foldlM_cons] at h
  refine .head ⟨.begin curTsc, hlater, rfl⟩ (runs_foldlM (fun a ha => ?_) h)
  rw [List.mem_append, List.mem_replicate, List.mem_singleton] at ha
  exact ha.imp_left And.right

/-! ## While nobody writes -/

/-- What qttail does to the state. -/
structure Quiet (s s' : TailMany k) : Prop where
  tf : ∀ g, (s'.files g).tf = (s.files g).tf
  status : ∀ g, (s'.files g).tail.status = (s.files g).tail.status
  sent : s'.sent = s.sent
  pending : ∀ g, (s'.pending g).length ≤ (s.pending g).length
  mapped : ∀ g, (s.files g).tail.tfh = true →
    (s'.files g).tail.tfh = true ∨ s'.pending g = []
  prints : ∃ new, s'.prints = s.prints ++ new ∧ ∀ p ∈ new, p.begun = s.sent.length

/-- Only the local variables of the loop have changed. -/
theorem Quiet.same (hfiles : s'.files = s.files) (hsent : s'.sent = s.sent)
    (hprints : s'.prints = s.prints) : Quiet s s' where
  tf := fun g => by rw [hfiles]
  status := fun g => by rw [hfiles]
  sent := hsent
  pending := fun g => by
    have hsame : s'.pending g = s.pending g :=
      pending_congr (by unfold sentTo; rw [hsent]) (by unfold printsOf; rw [hprints])
    rw [hsame]
  mapped := fun g ht => .inl (by rw [hfiles]; exact ht)
  prints := ⟨[], by rw [hprints, List.append_nil], fun p hp => by cases hp⟩

theorem Quiet.trans (h : Quiet s s') (h' : Quiet s' s'') : Quiet s s'' where
  tf := fun g => (h'.tf g).trans (h.tf g)
  status := fun g => (h'.status g).trans (h.status g)
  sent := h'.sent.trans h.sent
  pending := fun g => Nat.le_trans (h'.pending g) (h.pending g)
  mapped := fun g ht => by
    rcases h.mapped g ht with ht' | hnil
    · exact h'.mapped g ht'
    · have hle := h'.pending g
      rw [hnil] at hle
      exact Or.inr (List.eq_nil_of_length_eq_zero (Nat.le_zero.mp hle))
  prints := by
    obtain ⟨new, hnew, hbegun⟩ := h.prints
    obtain ⟨new', hnew', hbegun'⟩ := h'.prints
    refine ⟨new ++ new', by rw [hnew', hnew, List.append_assoc], fun p hp => ?_⟩
    rcases List.mem_append.mp hp with hp | hp
    · exact hbegun p hp
    · rw [hbegun' p hp, h.sent]

theorem Later.quiet {curTsc : UInt64} (h : s.Later curTsc) (hq : Quiet s s') : s'.Later curTsc := by
  intro f i e he
  rw [hq.tf f] at he
  exact h f i e he

/-! ## A round -/

/-- Where the round is when some files were asked. -/
structure Looked (cfg : Fin k → TracedFile) (curTsc : UInt64) (s : TailMany k) (j : Nat)
    (s' : TailMany k) : Prop where
  kept : Kept cfg s'
  quiet : Quiet s s'
  begun : s'.begun = s.sent.length
  prints : s'.prints = s.prints
  at_ : ∃ r, s'.loop = .round r ∧ r.looked = j ∧ r.curTsc = curTsc
    ∧ ((∀ g, (s.files g).tail.status = .deletePending) → r.allFilesDeleted = true)

theorem see_looked (r : Round k) (f : Fin k) (t : FileTail) :
    (r.see f t).looked = r.looked + 1 := by
  unfold Round.see
  split
  · rfl
  · split <;> rfl

theorem see_deleted {r : Round k} {f : Fin k} {t : FileTail} (hr : r.allFilesDeleted = true)
    (ht : t.status = .deletePending) : (r.see f t).allFilesDeleted = true := by
  unfold Round.see
  split
  · simp [hr, ht]
  · split <;> exact hr

/-- The next file is asked. -/
theorem look_asked (h : Kept cfg s) {r : Round k} (hloop : s.loop = .round r)
    (hlt : r.looked < k) : ∃ f t, s.look cfg = .ok (s.asked f t r) ∧ Kept cfg (s.asked f t r)
      ∧ Quiet s (s.asked f t r) ∧ t.status = (s.files f).tail.status := by
  obtain ⟨s', heq, hkept⟩ := kept_look h
  have hlook := heq
  unfold look at hlook
  rw [hloop] at hlook
  dsimp only at hlook
  rw [dif_pos hlt] at hlook
  generalize (⟨r.looked, hlt⟩ : Fin k) = f at hlook
  obtain ⟨t, hnext, ha⟩ := (h.live.tracks f).nextTsc (s.contents cfg f)
  rw [hnext] at hlook
  cases hlook
  refine ⟨f, t, heq, hkept, ⟨fun g => ?_, fun g => ?_, rfl,
    fun g => Nat.le_of_eq (by rw [pending_asked]), fun g ht => ?_, [], (List.append_nil _).symm,
    fun p hp => by cases hp⟩, ha.status⟩
  · by_cases hg : g = f
    · subst hg; simp [asked]
    · rw [files_asked_ne hg]
  · by_cases hg : g = f
    · subst hg; rw [files_asked_self]; exact ha.status
    · rw [files_asked_ne hg]
  · by_cases hg : g = f
    · subst hg
      rw [files_asked_self, pending_asked]
      cases htfh : t.tfh with
      | true => exact Or.inl rfl
      | false => exact Or.inr (h.pending_nil ha ht (ha.tracks.choice htfh))
    · rw [files_asked_ne hg]
      exact Or.inl ht

/-- One more file is asked. -/
theorem Looked.succ {curTsc : UInt64} {j : Nat} (h : Looked cfg curTsc s j s') (hj : j < k) :
    ∃ s'', s'.look cfg = .ok s'' ∧ Looked cfg curTsc s (j + 1) s'' := by
  obtain ⟨r, hloop, rfl, hcur, hdel⟩ := h.at_
  obtain ⟨f, t, heq, hkept, hquiet, hstatus⟩ := look_asked h.kept hloop hj
  refine ⟨_, heq, hkept, h.quiet.trans hquiet, h.begun, h.prints, r.see f t, rfl,
    see_looked r f t, (see_curTsc r f t).trans hcur, fun hall => see_deleted (hdel hall) ?_⟩
  rw [hstatus, h.quiet.status]
  exact hall f

theorem look_all {curTsc : UInt64} (m : Nat) {j : Nat} (hj : j + m = k)
    (h : Looked cfg curTsc s j s') : ∃ s'', (List.replicate m Action.look).foldlM (step cfg) s'
      = .ok s'' ∧ Looked cfg curTsc s k s'' := by
  induction m generalizing j s' with
  | zero =>
    obtain rfl : j = k := hj
    exact ⟨s', rfl, h⟩
  | succ m ih =>
    obtain ⟨s₁, heq, h₁⟩ := h.succ (by omega)
    obtain ⟨s₂, heq₂, h₂⟩ := ih (by omega) h₁
    refine ⟨s₂, ?_, h₂⟩
    rw [List.replicate_succ, List.foldlM_cons, step, heq]
    exact heq₂

/-- What a round comes to: no mapped file has a message, and it returns if all
were deleted, or one message is printed. -/
inductive RoundEnds (s s' : TailMany k) : Prop where
  | nothing (hprints : s'.prints = s.prints)
      (hnil : ∀ g, (s'.files g).tail.tfh = true → s'.pending g = [])
      (hloop : s'.loop = .returned ↔ ∀ g, (s.files g).tail.status = .deletePending)
  | prints (hloop : s'.loop = .watching) (f : Fin k)
      (hlt : (s'.pending f).length < (s.pending f).length)

/-- A chosen message is printed when the clock is late enough. -/
theorem print_quiet (hn : ∀ f, (cfg f).n ≤ 80) (h : Kept cfg s) {r : Round k}
    (hloop : s.loop = .round r) {bufNum : Nat} (hmin : r.min = some (f, bufNum))
    (hlater : s.Later r.curTsc) (hbegun : s.begun = s.sent.length) {s' : TailMany k}
    (hp : Printed cfg f r.curTsc s s') :
    Quiet s s' ∧ (s'.pending f).length < (s.pending f).length := by
  obtain ⟨i, e, rest, hpend, rfl, -, hturn⟩ := h.turn hn hloop hmin hp
  have hown : s'.pending f = rest := by
    cases hturn with
    | prints _ hs rb hrbs hzero => exact hs.split.2.symm
    | waits href rb hk heq =>
      obtain ⟨x, hx, hle⟩ := exists_of_refused href
      have hx' : x ∈ System.ofLevel i (s.pending f) := by
        rw [hpend, System.ofLevel_cons, if_pos rfl]
        exact List.mem_of_mem_take hx
      have hmem := h.live.mem_pending (System.mem_ofLevel.mp hx')
      exact absurd (hlater f i x hmem) (Nat.not_lt.mpr hle)
  have hlt : (s'.pending f).length < (s.pending f).length := by
    rw [hown, hpend, List.length_cons]
    exact Nat.lt_succ_self _
  obtain ⟨tail, htail⟩ := hp.tail
  obtain ⟨ps, hps, -, -⟩ := hp.prints
  refine ⟨⟨fun g => ?_, fun g => ?_, hp.sent, fun g => ?_, fun g ht => ?_, _, hps, ?_⟩, hlt⟩
  · by_cases hg : g = f
    · subst hg; exact congrArg System.tf hp.view |>.trans (System.step_tailBuffer_tf _ _)
    · rw [hp.files g hg]
  · by_cases hg : g = f
    · subst hg; rw [htail]
    · rw [hp.files g hg]
  · by_cases hg : g = f
    · subst hg; exact Nat.le_of_lt hlt
    · rw [hp.pending_ne hg]
  · by_cases hg : g = f
    · subst hg; rw [htail]; exact Or.inl ht
    · rw [hp.files g hg]; exact Or.inl ht
  · intro p hmem
    obtain ⟨q, -, rfl⟩ := List.mem_map.mp hmem
    exact hbegun

/-- One round. -/
theorem round_spec (hn : ∀ f, (cfg f).n ≤ 80) (h : Kept cfg s) (hloop : s.loop = .watching)
    {curTsc : UInt64} (hlater : s.Later curTsc) :
    ∃ s', s.round cfg curTsc = .ok s' ∧ Kept cfg s' ∧ Quiet s s' ∧ RoundEnds s s' := by
  have hbegin : s.begin curTsc
      = { s with loop := .round ⟨curTsc, 0, true, UINT64_MAX, none⟩, begun := s.sent.length } := by
    unfold begin
    rw [hloop]
  have hstart : Looked cfg curTsc s 0 (s.begin curTsc) := by
    refine ⟨kept_begin h hlater, ?_, ?_, ?_, ⟨curTsc, 0, true, UINT64_MAX, none⟩, ?_, rfl, rfl,
      fun _ => rfl⟩
    · rw [hbegin]
      exact .same rfl rfl rfl
    · rw [hbegin]
    · rw [hbegin]
    · rw [hbegin]
  obtain ⟨s₁, hlooks, hlooked⟩ := look_all k (Nat.zero_add k) hstart
  obtain ⟨r, hr, hk, rfl, hdel⟩ := hlooked.at_
  obtain ⟨s₂, hfinish, hkept⟩ := kept_finish hn hlooked.kept
  have hrun : s.round cfg r.curTsc = .ok s₂ := by
    unfold round
    change (List.replicate k Action.look ++ [Action.finish]).foldlM (step cfg)
      (s.begin r.curTsc) = _
    rw [List.foldlM_append, hlooks]
    change s₁.finish cfg >>= pure = _
    rw [hfinish]
    rfl
  refine ⟨s₂, hrun, hkept, ?_⟩
  have hround := hlooked.kept.round r hr
  have hlater₁ := hlater.quiet hlooked.quiet
  unfold finish at hfinish
  rw [hr] at hfinish
  dsimp only at hfinish
  rw [if_neg (by omega)] at hfinish
  cases hmin : r.min with
  | some c =>
    obtain ⟨f, bufNum⟩ := c
    rw [hmin] at hfinish
    obtain ⟨s', heq, hp⟩ := print_spec cfg (hlooked.kept.live.tracks f)
      (hlooked.kept.live.choice r hr f bufNum hmin) r.curTsc
    obtain rfl : s₂ = s' := Except.ok.inj (hfinish.symm.trans heq)
    obtain ⟨hquiet, hlt⟩ := print_quiet hn hlooked.kept hr hmin hlater₁
      (hlooked.begun.trans (congrArg List.length hlooked.quiet.sent.symm)) hp
    exact ⟨hlooked.quiet.trans hquiet, .prints hp.loop f
      (Nat.lt_of_lt_of_le hlt (hlooked.quiet.pending f))⟩
  | none =>
    rw [hmin] at hfinish
    cases hfinish
    have hall : ∀ g : Fin k, g.val < r.looked := fun g => by have := g.isLt; omega
    refine ⟨hlooked.quiet.trans (.same rfl rfl rfl),
      .nothing hlooked.prints (fun g ht => ?_) ?_⟩
    · -- a pending message would have been chosen
      refine List.eq_nil_iff_forall_not_mem.mpr fun y hy => ?_
      have hy' : y ∈ s₁.pending g := hy
      have hearly : s₁.Early s₁.begun g y := by
        obtain ⟨m, hm, hmsg⟩ := mem_sentTo.mp (mem_pending hy')
        refine ⟨m, ?_, (Prod.mk.inj hmsg).1, (Prod.mk.inj hmsg).2⟩
        rwa [hlooked.begun, ← hlooked.quiet.sent, List.take_length]
      have hle := hround.least g (hall g) ht y hy' hearly
      rw [(hround.nothing hmin).1] at hle
      have hsmall := ((hlooked.kept.live.lapped g).writer.log y.1).small y.2
        (hlooked.kept.live.mem_pending hy')
      unfold UINT64_MAX at hle
      omega
    · dsimp only
      constructor
      · intro hret g
        split at hret
        · rename_i hdeleted
          rw [← hlooked.quiet.status]
          exact (hround.deleted hmin hdeleted g (hall g)).1
        · cases hret
      · intro hstatus
        rw [if_pos (hdel hstatus)]

/-! ## The rest of a round -/

/-- The round is over, and what was recorded stands where it stood. -/
structure Settled (s s' : TailMany k) : Prop where
  tf : ∀ g, (s'.files g).tf = (s.files g).tf
  status : ∀ g, (s'.files g).tail.status = (s.files g).tail.status
  sent : s'.sent = s.sent
  loop : s'.loop = .watching
    ∨ s'.loop = .returned ∧ ∀ g, (s'.files g).tail.status = .deletePending
      ∧ (s'.files g).tail.tfh = false

theorem looks_left (m : Nat) (h : Kept cfg s) {r : Round k} (hloop : s.loop = .round r)
    (hm : k - r.looked = m) : ∃ s' r', (List.replicate m Action.look).foldlM (step cfg) s = .ok s'
      ∧ Kept cfg s' ∧ Quiet s s' ∧ s'.loop = .round r' ∧ ¬ r'.looked < k := by
  induction m generalizing s r with
  | zero => exact ⟨s, r, rfl, h, .same rfl rfl rfl, hloop, by omega⟩
  | succ m ih =>
    obtain ⟨f, t, heq, hkept, hquiet, -⟩ := look_asked h hloop (by omega)
    have hlooked := see_looked r f t
    obtain ⟨s', r', hlooks, hkept', hquiet', hloop', hlast⟩ :=
      ih hkept (show (s.asked f t r).loop = .round (r.see f t) from rfl) (by omega)
    refine ⟨s', r', ?_, hkept', hquiet.trans hquiet', hloop', hlast⟩
    rw [List.replicate_succ, List.foldlM_cons, step, heq]
    exact hlooks

/-- The end of a round. -/
theorem settled_finish (hn : ∀ f, (cfg f).n ≤ 80) (h : Kept cfg s) {r : Round k}
    (hloop : s.loop = .round r) (hlast : ¬ r.looked < k) :
    ∃ s', s.finish cfg = .ok s' ∧ Kept cfg s' ∧ Settled s s' := by
  obtain ⟨s', heq, hkept⟩ := kept_finish hn h
  refine ⟨s', heq, hkept, ?_⟩
  unfold finish at heq
  rw [hloop] at heq
  dsimp only at heq
  rw [if_neg hlast] at heq
  cases hmin : r.min with
  | some c =>
    obtain ⟨f, bufNum⟩ := c
    rw [hmin] at heq
    obtain ⟨s'', heq', hp⟩ := print_spec cfg (h.live.tracks f)
      (h.live.choice r hloop f bufNum hmin) r.curTsc
    obtain rfl : s' = s'' := Except.ok.inj (heq.symm.trans heq')
    obtain ⟨tail, htail⟩ := hp.tail
    refine ⟨fun g => ?_, fun g => ?_, hp.sent, .inl hp.loop⟩
    · by_cases hg : g = f
      · subst hg; exact congrArg System.tf hp.view |>.trans (System.step_tailBuffer_tf _ _)
      · rw [hp.files g hg]
    · by_cases hg : g = f
      · subst hg; rw [htail]
      · rw [hp.files g hg]
  | none =>
    rw [hmin] at heq
    cases heq
    refine ⟨fun _ => rfl, fun _ => rfl, rfl, ?_⟩
    cases hall : r.allFilesDeleted with
    | false => exact .inl (by simp)
    | true =>
      exact .inr ⟨by simp, fun g => (h.round r hloop).deleted hmin hall g
        (by have := g.isLt; omega)⟩

/-- A round that has begun comes to its end. -/
theorem endRound_spec (hn : ∀ f, (cfg f).n ≤ 80) (h : Kept cfg s) :
    ∃ s', s.endRound cfg = .ok s' ∧ Kept cfg s' ∧ Settled s s' := by
  unfold endRound
  cases hloop : s.loop with
  | watching => exact ⟨s, rfl, h, fun _ => rfl, fun _ => rfl, rfl, .inl hloop⟩
  | returned => exact ⟨s, rfl, h, fun _ => rfl, fun _ => rfl, rfl, .inr ⟨hloop, h.returned hloop⟩⟩
  | round r =>
    dsimp only
    obtain ⟨s₁, r₁, hlooks, hkept, hquiet, hloop₁, hlast⟩ := looks_left _ h hloop rfl
    obtain ⟨s₂, hfinish, hkept₂, hs⟩ := settled_finish hn hkept hloop₁ hlast
    refine ⟨s₂, ?_, hkept₂, fun g => (hs.tf g).trans (hquiet.tf g),
      fun g => (hs.status g).trans (hquiet.status g), hs.sent.trans hquiet.sent, hs.loop⟩
    rw [List.foldlM_append, hlooks]
    change s₁.finish cfg >>= pure = _
    rw [hfinish]
    rfl

/-! ## Several rounds -/

/-- How many messages are pending. -/
def left (s : TailMany k) : Nat := ∑ f, (s.pending f).length

/-- After some rounds nothing is pending in a mapped file, and one more round
prints nothing. -/
theorem rounds_spec (hn : ∀ f, (cfg f).n ≤ 80) {rdtsc : Nat → UInt64} {N : Nat}
    (h : Kept cfg s) (hN : s.left ≤ N) (hloop : s.loop = .watching)
    (hlater : ∀ i, s.Later (rdtsc i)) :
    ∃ m s' s'', m ≤ N ∧ s.rounds cfg rdtsc m = .ok s' ∧ s'.round cfg (rdtsc m) = .ok s''
      ∧ Kept cfg s'' ∧ Quiet s s'' ∧ Runs cfg (Spared cfg) s s'' ∧ s''.prints = s'.prints
      ∧ (∀ g, (s''.files g).tail.tfh = true → s''.pending g = [])
      ∧ (s''.loop = .returned ↔ ∀ g, (s.files g).tail.status = .deletePending) := by
  induction N generalizing s rdtsc with
  | zero =>
    obtain ⟨s', hround, hkept, hquiet, hends⟩ := round_spec hn h hloop (hlater 0)
    cases hends with
    | nothing hprints hnil hret =>
      exact ⟨0, s, s', Nat.le_refl _, rfl, hround, hkept, hquiet, runs_round (hlater 0) hround,
        hprints, hnil, hret⟩
    | prints hwatching f hlt =>
      have hle := Finset.single_le_sum (f := fun g => (s.pending g).length)
        (fun g _ => Nat.zero_le _) (Finset.mem_univ f)
      have hsum : s.left = 0 := Nat.le_zero.mp hN
      unfold left at hsum
      omega
  | succ N ih =>
    obtain ⟨s', hround, hkept, hquiet, hends⟩ := round_spec hn h hloop (hlater 0)
    cases hends with
    | nothing hprints hnil hret =>
      exact ⟨0, s, s', Nat.zero_le _, rfl, hround, hkept, hquiet, runs_round (hlater 0) hround,
        hprints, hnil, hret⟩
    | prints hwatching f hlt =>
      have hless : s'.left < s.left :=
        Finset.sum_lt_sum (fun g _ => hquiet.pending g) ⟨f, Finset.mem_univ f, hlt⟩
      obtain ⟨m, s₁, s₂, hm, hrounds, hlast, hkept₂, hquiet₂, hruns, hprints, hnil, hret⟩ :=
        ih hkept (by omega) hwatching fun i => (hlater (i + 1)).quiet hquiet
      refine ⟨m + 1, s₁, s₂, Nat.succ_le_succ hm, ?_, hlast, hkept₂, hquiet.trans hquiet₂,
        .trans (runs_round (hlater 0) hround) hruns, hprints, hnil, ?_⟩
      · rw [rounds, hround]
        exact hrounds
      · rw [hret]
        simp only [hquiet.status]

/-- The lines of a quiet qttail are in the order of the timestamps. -/
theorem quiet_sorted (h : Kept cfg s') (hq : Quiet s s') {new : List (PrintOf k)}
    (hnew : s'.prints = s.prints ++ new) (hbegun : ∀ p ∈ new, p.begun = s.sent.length) :
    new.Pairwise fun p q => ∀ x y, p.print.origin = some x → q.print.origin = some y →
      x.2.hit.tsc.toNat ≤ y.2.hit.tsc.toNat := by
  have horder := h.order
  rw [hnew, List.pairwise_append] at horder
  refine horder.2.1.imp_of_mem fun {p q} hp hq' hpq x y hx hy => hpq x y hx hy ?_
  have hmem : (q.file, y) ∈ s'.origins := by
    rw [origins, List.mem_filterMap]
    exact ⟨q, by rw [hnew]; exact List.mem_append_right _ hq', by rw [hy]; rfl⟩
  obtain ⟨m, hm, hmsg⟩ := h.live.once.sent _ hmem
  refine ⟨m, ?_, (Prod.mk.inj hmsg).1, (Prod.mk.inj hmsg).2⟩
  rw [hbegun p hp, ← hq.sent, List.take_length]
  exact hm

/-- The rounds print everything that was not printed yet of every file that was
not given up, in the order of the timestamps over all files; one more round
prints nothing, and returns exactly if all files were deleted. -/
structure Drains (cfg : Fin k → TracedFile) (rdtsc : Nat → UInt64) (s : TailMany k) (m : Nat)
    (s' s'' : TailMany k) : Prop where
  few : m ≤ s.left
  rounds : s.rounds cfg rdtsc m = .ok s'
  last : s'.round cfg (rdtsc m) = .ok s''
  prints : s''.prints = s'.prints
  all : ∀ f, (s.files f).tail.tfh = true → (s''.view f).origins = s.sentTo f
  order : ∃ new, s'.prints = s.prints ++ new ∧ new.Pairwise fun p q => ∀ x y,
    p.print.origin = some x → q.print.origin = some y → x.2.hit.tsc.toNat ≤ y.2.hit.tsc.toNat
  returned : s''.loop = .returned ↔ ∀ f, (s.files f).tail.status = .deletePending

theorem drains (hn : ∀ f, (cfg f).n ≤ 80) (h : Kept cfg s) (hloop : s.loop = .watching)
    {rdtsc : Nat → UInt64} (hlater : ∀ i, s.Later (rdtsc i)) :
    ∃ m s' s'', Drains cfg rdtsc s m s' s'' ∧ Kept cfg s'' ∧ Runs cfg (Spared cfg) s s'' := by
  obtain ⟨m, s', s'', hm, hrounds, hround, hkept, hquiet, hruns, hprints, hnil, hret⟩ :=
    rounds_spec hn h (Nat.le_refl _) hloop hlater
  refine ⟨m, s', s'', ⟨hm, hrounds, hround, hprints, fun f ht => ?_, ?_, hret⟩, hkept, hruns⟩
  · have hpend : s''.pending f = [] := (hquiet.mapped f ht).elim (hnil f) id
    have hsent := (hkept.synced f).sent
    rw [hpend, List.append_nil] at hsent
    refine hsent.symm.trans ?_
    unfold view sentTo
    rw [hquiet.sent]
  · obtain ⟨new, hnew, hbegun⟩ := hquiet.prints
    exact ⟨new, hprints.symm.trans hnew, quiet_sorted hkept hquiet hnew hbegun⟩

/-- Once the writers of all files have stopped, `tailMany` ends the round that
has begun; then it has returned, or some rounds print all that is left, each
with its own reading of the clock. -/
theorem tailMany_drains (hn : ∀ f, (cfg f).n ≤ 80) {cs : Fin k → MsgCounters}
    {tfs : Fin k → TraceFile} (hw : ∀ f, TraceFile.Written (Described (cfg f).msgs) (cfg f).n
      (cfg f).spec (cfg f).logStart (cs f) (tfs f)) {s₀ : TailMany k} (hs : Starts cfg tfs s₀)
    (hr : Runs cfg (Spared cfg) s₀ s) {rdtsc : Nat → UInt64} (hlater : ∀ i, s.Later (rdtsc i)) :
    ∃ s₁, s.endRound cfg = .ok s₁ ∧ Settled s s₁
      ∧ (s₁.loop = .watching → ∃ m s' s'', Drains cfg rdtsc s₁ m s' s'') := by
  have hkept := kept_runs hn (kept_starts hn (fun f => TraceFile.writerOk_written (hw f)) hs) hr
  obtain ⟨s₁, hend, hkept₁, hsettled⟩ := endRound_spec hn hkept
  refine ⟨s₁, hend, hsettled, fun hloop => ?_⟩
  have hlater₁ : ∀ i, s₁.Later (rdtsc i) := fun i f j e he => by
    rw [hsettled.tf f] at he
    exact hlater i f j e he
  obtain ⟨m, s', s'', hdrains, -, -⟩ := drains hn hkept₁ hloop hlater₁
  exact ⟨m, s', s'', hdrains⟩

/-! ## Messages in both of two files -/

/-- A clock that is read in each round. -/
def lateClock (i : Nat) : UInt64 := if i = 0 then 4 else 5

/-- A state in which one more message was recorded in each file. -/
theorem twoHits_run : ∃ s₀ s, Starts twoFiles usedFiles s₀ ∧ Runs twoFiles (Spared twoFiles) s₀ s
    ∧ (∀ f, (s.sentTo f).length = 1 ∧ (s.files f).tail.tfh = true) ∧ s.loop = .watching
    ∧ ∀ i, s.Later (lateClock i) := by
  obtain ⟨s₀, hstart⟩ := starts_exists (fun _ => Nat.le_refl 80) usedFiles_ok
  have hsent := hstart.sentTo_nil
  let s₁ := s₀.write twoFiles 0 0 (emptyHit 2) 0
  have hspared₀ : Spared twoFiles s₀ (.write 0 0 (emptyHit 2) 0) :=
    spared_first (hsent 0) (hstart.tf 0 ▸ System.emptyHit_ok (by decide) (by decide)) 0 0
  have hone : (1 : Fin 2) ≠ 0 := by decide
  have hspared₁ : Spared twoFiles s₁ (.write 1 1 (emptyHit 3) 0) := by
    refine spared_first ((sentTo_write_ne hone 0 _ 0).trans (hsent 1)) ?_ 1 0
    rw [write_ne hone, hstart.tf 1]
    exact System.emptyHit_ok (by decide) (by decide)
  refine ⟨s₀, s₁.write twoFiles 1 1 (emptyHit 3) 0, hstart,
    .tail (.single ⟨_, hspared₀, rfl⟩) ⟨_, hspared₁, rfl⟩, fun f => ⟨?_, ?_⟩, hstart.loop,
    fun i f j e he => ?_⟩
  · by_cases hf : f = 1
    · subst hf
      rw [sentTo_write_self, sentTo_write_ne hone, hsent]
      rfl
    · obtain rfl : f = 0 := by omega
      rw [sentTo_write_ne hf, sentTo_write_self, hsent]
      rfl
  · rw [tail_write, tail_write]
    exact (starts_mapped (fun _ => Nat.le_refl 80) usedFiles_ok hstart f).1
  · have hclock : 4 ≤ (lateClock i).toNat := by
      unfold lateClock
      split <;> decide
    refine Nat.lt_of_lt_of_le (Nat.lt_succ_of_le ?_) hclock
    by_cases hf : f = 1
    · subst hf
      rw [write_self, write_ne hone, hstart.tf 1] at he
      exact System.tsc_le_usedFile (by decide) (by decide) he
    · obtain rfl : f = 0 := by omega
      rw [write_ne hf, write_self, hstart.tf 0] at he
      exact Nat.le_trans (System.tsc_le_usedFile (by decide) (by decide) he) (by decide)

/-- Both messages are printed. -/
theorem twoHits_printed : ∃ s₀ s, Starts twoFiles usedFiles s₀
    ∧ Runs twoFiles (Spared twoFiles) s₀ s ∧ ∀ f, (s.view f).origins.length = 1 := by
  obtain ⟨s₀, s, hs, hr, hsent, hloop, hlater⟩ := twoHits_run
  have hn : ∀ f, (twoFiles f).n ≤ 80 := fun _ => Nat.le_refl 80
  obtain ⟨m, s', s'', hdrains, -, hruns⟩ :=
    drains hn (kept_runs hn (kept_starts hn usedFiles_ok hs) hr) hloop hlater
  refine ⟨s₀, s'', hs, .trans hr hruns, fun f => ?_⟩
  rw [hdrains.all f (hsent f).2]
  exact (hsent f).1

theorem tailMany_in_order_two : ∃ s₀ s, Starts twoFiles usedFiles s₀
    ∧ Runs twoFiles (Spared twoFiles) s₀ s ∧ (∀ f, (s.view f).origins.length = 1)
    ∧ InOrder twoFiles s := by
  obtain ⟨s₀, s, hs, hr, hprinted⟩ := twoHits_printed
  exact ⟨s₀, s, hs, hr, hprinted, tailMany_in_order (fun _ => Nat.le_refl 80)
    (fun _ => System.written_usedFile) hs hr⟩

theorem tailMany_drains_two : ∃ s₀ s, Starts twoFiles usedFiles s₀
    ∧ Runs twoFiles (Spared twoFiles) s₀ s
    ∧ (∀ f, (s.sentTo f).length = 1 ∧ (s.files f).tail.tfh = true) ∧ s.loop = .watching
    ∧ ∃ s₁, s.endRound twoFiles = .ok s₁ ∧ Settled s s₁
      ∧ (s₁.loop = .watching → ∃ m s' s'', Drains twoFiles lateClock s₁ m s' s'') := by
  obtain ⟨s₀, s, hs, hr, hsent, hloop, hlater⟩ := twoHits_run
  exact ⟨s₀, s, hs, hr, hsent, hloop, tailMany_drains (fun _ => Nat.le_refl 80)
    (fun _ => System.written_usedFile) hs hr hlater⟩

end TailMany

end QuickTrace
