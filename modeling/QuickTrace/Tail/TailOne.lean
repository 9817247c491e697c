/-
QuickTrace.Tail.TailOne — one file with its writer, and one qttail.

With one file `TailControl::tail` runs `tailOne`. Its loop calls `tail`, which
asks the file and prints what was chosen; when that returns false it looks at
the directory, or returns if the file was deleted, as "all messages have been
emitted". The state is that of `tailMany` with one file, of which `minTsc`,
`min` and `allFilesDeleted` are not used.

`tail` also returns false when the chosen message is refused, because it or
the one behind it was recorded after the clock was read. `tailMany` goes on
then. `tailOne` returns if the file was deleted, although the message may have
been recorded before (`tailOne_returns`).
-/
import QuickTrace.Tail.TailManyRounds

namespace QuickTrace

open QuickTrace.Lib RingBuf Level

namespace System

variable {msgs : Messages} {n : Nat} {spec : SizeSpec} {logStart : Nat} {s : System}
  {printed rest : List Sent}

/-- `tailBuffer` succeeds when the chosen message is not refused. -/
theorem Synced.tailBuffer_ok (hn : n ≤ 80) (h : Lapped msgs n spec logStart s)
    {i : Fin NumTraceLevels} {e : Recorded}
    (hs : Synced n spec logStart s printed ((i, e) :: rest))
    (hcor : ∀ rb, s.qttail.rbs[i.val]? = some rb →
      rb.corruption < RingBuffer.corruptionThreshold) (curTsc : Nat) :
    ∃ t, s.qttail.tailBuffer s.tf.mem msgs true e.hit.tsc.toNat curTsc i.val
      = some (!refused curTsc (ofLevel i ((i, e) :: rest)), t) := by
  obtain ⟨rb, hk, -, consumed, hf⟩ := hs.readers.get i
  have hpend : ofLevel i ((i, e) :: rest) = e :: ofLevel i rest := by
    rw [ofLevel_cons, if_pos rfl]
  rw [hpend] at hf ⊢
  have hi := h.writer.inv i
  have hl := h.writer.log i
  unfold Tail.tailBuffer
  rw [hk]
  cases href : refused curTsc (e :: ofLevel i rest) with
  | false =>
    obtain ⟨l, out', hdump, -⟩ := hf.dump_taken hn hi hl (h.writer.started i) href s.qttail.out
    rw [show (s.tf.ring i).mem = s.tf.mem from rfl] at hdump
    simp only [hdump]
    exact ⟨_, rfl⟩
  | true =>
    have hdump := hf.dump_refused hn hi hl (h.writer.started i) (hcor rb hk) href s.qttail.out
    rw [show (s.tf.ring i).mem = s.tf.mem from rfl] at hdump
    simp only [hdump]
    exact ⟨_, rfl⟩

end System

namespace TailOne

/-- The only file. -/
def only : Fin 1 := ⟨0, Nat.one_pos⟩

theorem eq_only (f : Fin 1) : f = only := Subsingleton.elim f only

variable (cfg : Fin 1 → TracedFile)

/-- `tailBuffer`, with its result. -/
def tailBuffer (minTsc : Nat) (curTsc : UInt64) (bufNum : Nat) (s : TailMany 1) :
    Except Stop (Bool × TailMany 1) := do
  let t := (s.files only).tail
  let tfh ← t.header (s.contents cfg only)
  match ({ t.tail with out := s.out } : Tail).tailBuffer tfh.mem tfh.msgs t.options.tail minTsc
      curTsc.toNat bufNum with
  | none => .error .exit
  | some (ok, tail) =>
    .ok (ok, s.printed only tail ((tail.out.lines.drop s.out.lines.length).map fun line =>
      ⟨line, (s.view only).origin (cfg only).spec (cfg only).logStart bufNum⟩))

/-- "No next message available, time to do other work": `tailOne` returns if
the file was deleted. -/
def otherWork (s : TailMany 1) : TailMany 1 :=
  { s with
    loop := if (s.files only).tail.status = .deletePending then .returned else .watching }

/-- The rest of `tail`, and what `tailOne` does with its result. -/
def finish (s : TailMany 1) : Except Stop (TailMany 1) :=
  match s.loop with
  | .round r =>
    if r.looked < 1 then .ok s
    else
      match (s.files only).tail.tail.next with
      | some (minTsc, bufNum) =>
        (tailBuffer cfg minTsc r.curTsc bufNum s).map fun p => if p.1 then p.2 else otherWork p.2
      | none => .ok (otherWork s)
  | _ => .ok s

/-- One step: the writer, an IN_DELETE in `watch`, `rdtsc`, `nextTsc`, and the
rest of the iteration. -/
def step (s : TailMany 1) : TailMany.Action 1 → Except Stop (TailMany 1)
  | .finish => finish cfg s
  | a => TailMany.step cfg s a

/-- The states after any sequence of steps that are all `ok`. -/
def Runs (ok : TailMany 1 → TailMany.Action 1 → Prop) : TailMany 1 → TailMany 1 → Prop :=
  Relation.ReflTransGen fun s s' => ∃ a, ok s a ∧ step cfg s a = .ok s'

/-! ## What is stated -/

/-- The first pending message is refused. -/
def Refuses (curTsc : UInt64) (s : TailMany 1) : Prop :=
  ∃ i e rest, s.pending only = (i, e) :: rest
    ∧ refused curTsc.toNat (System.ofLevel i (s.pending only)) = true

/-- The lines of the file: each shows a message, and they are the first that
were recorded, in order and without a gap. -/
structure InOrder (s : TailMany 1) : Prop where
  corruptions : (s.files only).tail.tail.corruptions = []
  lines : s.out.lines = s.prints.map fun p => p.print.line
  shows : ∀ p ∈ s.prints, ∃ x, p.print.origin = some x
    ∧ System.ShowsSent (cfg only).msgs (cfg only).n p.print.line x
  first : List.IsPrefix (s.view only).origins (s.sentTo only)

/-- The end of an iteration. It returns if the file was deleted and no message
was chosen or the chosen one is refused. In the first case nothing is missing
that was recorded before the deletion was noticed; in the second, something
was recorded since the clock was read, and what was pending stays so. -/
structure Ends (r : TailMany.Round 1) (s s' : TailMany 1) : Prop where
  returned : s'.loop = .returned ↔ (s.files only).tail.status = .deletePending
    ∧ ((s.files only).tail.tail.next = none ∨ Refuses r.curTsc s)
  complete : (s.files only).tail.tail.next = none →
    (s.files only).tail.status = .deletePending →
      ∀ m ∈ s.sent, m.late = false → m.msg ∈ (s.view only).origins
  refused : (s.files only).tail.tail.next ≠ none → Refuses r.curTsc s →
    s'.pending only = s.pending only ∧ s'.prints = s.prints
      ∧ ∃ m ∈ s.sent.drop s.begun, m.msg ∈ s.pending only
  taken : (s.files only).tail.tail.next ≠ none → ¬ Refuses r.curTsc s →
    ∃ x, s.pending only = x :: s'.pending only

/-! ## The invariant -/

/-- The loop as if it had not returned. -/
def reopen (s : TailMany 1) : TailMany 1 :=
  match s.loop with
  | .returned => { s with loop := .watching }
  | _ => s

/-- The invariant of a spared run. -/
structure Inv (s : TailMany 1) : Prop where
  kept : TailMany.Kept cfg (reopen s)
  returned : s.loop = .returned → (s.files only).tail.status = .deletePending
  early : ∀ r, s.loop = .round r → ∀ m ∈ s.sent.take s.begun,
    m.msg.2.hit.tsc.toNat < r.curTsc.toNat
  gone : ∀ r, s.loop = .round r → 1 ≤ r.looked → (s.files only).tail.tail.next = none →
    (s.files only).tail.status = .deletePending → (s.files only).tail.tfh = false

variable {cfg} {s s' : TailMany 1}

theorem reopen_eq (h : s.loop ≠ .returned) : reopen s = s := by
  unfold reopen
  split
  · contradiction
  · rfl

@[simp] theorem reopen_files : (reopen s).files = s.files := by unfold reopen; split <;> rfl

@[simp] theorem reopen_sent : (reopen s).sent = s.sent := by unfold reopen; split <;> rfl

@[simp] theorem reopen_begun : (reopen s).begun = s.begun := by unfold reopen; split <;> rfl

@[simp] theorem reopen_view (f : Fin 1) : (reopen s).view f = s.view f := by
  unfold reopen; split <;> rfl

@[simp] theorem reopen_pending (f : Fin 1) : (reopen s).pending f = s.pending f := by
  unfold reopen; split <;> rfl

theorem reopen_write (f : Fin 1) (i : Fin NumTraceLevels) (h : Hit) (tsc1 : Nat) :
    reopen (s.write cfg f i h tsc1) = (reopen s).write cfg f i h tsc1 := by
  obtain ⟨files, out, loop, sent, prints, begun⟩ := s
  cases loop <;> rfl

/-- While it runs, the invariant of `tailMany` holds. -/
theorem Inv.running (h : Inv cfg s) (hloop : s.loop ≠ .returned) : TailMany.Kept cfg s := by
  rw [← reopen_eq hloop]
  exact h.kept

/-- Between two iterations the invariant is that of `tailMany`. -/
theorem Inv.of_watching (h : TailMany.Kept cfg s) (hloop : s.loop = .watching) : Inv cfg s := by
  refine ⟨?_, fun hr => ?_, fun r hr => ?_, fun r hr => ?_⟩
  · rwa [reopen_eq (by rw [hloop]; exact fun h => by cases h)]
  all_goals rw [hloop] at hr; cases hr

/-- A round is given up. -/
theorem kept_watching (h : TailMany.Kept cfg s) :
    TailMany.Kept cfg { s with loop := .watching } where
  live := ⟨h.live.lapped, h.live.tracks, h.live.lines, fun r hr => by cases hr⟩
  synced := h.synced
  patient := fun f i rb hk => by
    have hclock : s.clock ≤ 2 ^ 64 := by
      unfold TailMany.clock
      split
      · exact Nat.le_of_lt (UInt64.toNat_lt _)
      · exact Nat.le_refl _
    exact Nat.le_trans (h.patient f i rb hk) (patience_later hclock _)
  late := h.late
  begun := h.begun
  round := fun r hr => by cases hr
  printed := h.printed
  order := h.order
  returned := fun hr => by cases hr

theorem otherWork_returned :
    (otherWork s).loop = .returned ↔ (s.files only).tail.status = .deletePending := by
  unfold otherWork
  dsimp only
  split
  · rename_i hs
    exact iff_of_true rfl hs
  · rename_i hs
    exact iff_of_false (fun h => by cases h) hs

/-- The other work. -/
theorem inv_otherWork (h : TailMany.Kept cfg s) : Inv cfg (otherWork s) := by
  have hround : ∀ r, (otherWork s).loop ≠ .round r := fun r hr => by
    unfold otherWork at hr
    dsimp only at hr
    split at hr <;> cases hr
  refine ⟨?_, fun hr => ?_, fun r hr => absurd hr (hround r), fun r hr => absurd hr (hround r)⟩
  · have hopen : reopen (otherWork s) = { s with loop := .watching } := by
      unfold reopen otherWork
      dsimp only
      split
      · rfl
      · rename_i hne
        split at hne
        · exact absurd rfl hne
        · rename_i hs
          rw [if_neg hs]
    rw [hopen]
    exact kept_watching h
  · exact otherWork_returned.mp hr

/-! ## The steps -/

theorem inv_write (h : Inv cfg s) {f : Fin 1} {i : Fin NumTraceLevels} {hit : Hit} (tsc1 : Nat)
    (ha : TailMany.Spared cfg s (.write f i hit tsc1)) : Inv cfg (s.write cfg f i hit tsc1) where
  kept := by
    rw [reopen_write]
    refine TailMany.kept_write h.kept tsc1 ?_ ?_
    · rw [reopen_files]
      exact ha.1
    · rw [reopen_view]
      exact ha.2
  returned := fun hr => by
    rw [TailMany.tail_write]
    exact h.returned hr
  early := fun r hr m hm => by
    refine h.early r hr m ?_
    have hle := h.kept.begun.1
    rw [reopen_begun, reopen_sent] at hle
    rwa [show (s.write cfg f i hit tsc1).sent = s.sent ++ _ from rfl,
      show (s.write cfg f i hit tsc1).begun = s.begun from rfl,
      List.take_append_of_le_length hle] at hm
  gone := fun r hr => by
    rw [TailMany.tail_write]
    exact h.gone r hr

theorem inv_delete (h : Inv cfg s) (f : Fin 1) : ∃ s', s.delete f = .ok s' ∧ Inv cfg s' := by
  cases hloop : s.loop with
  | watching =>
    have hk := h.running (by rw [hloop]; exact fun h => by cases h)
    obtain ⟨s', heq, hk'⟩ := TailMany.kept_delete hk f
    refine ⟨s', heq, .of_watching hk' ?_⟩
    unfold TailMany.delete at heq
    rw [hloop] at heq
    dsimp only at heq
    rw [(hk.live.tracks f).delete] at heq
    cases heq
    exact hloop
  | round r => exact ⟨s, by unfold TailMany.delete; rw [hloop], h⟩
  | returned => exact ⟨s, by unfold TailMany.delete; rw [hloop], h⟩

theorem inv_begin (h : Inv cfg s) {curTsc : UInt64} (ha : TailMany.Spared cfg s (.begin curTsc)) :
    Inv cfg (s.begin curTsc) := by
  cases hloop : s.loop with
  | watching =>
    have hk := h.running (by rw [hloop]; exact fun h => by cases h)
    have hkept := TailMany.kept_begin hk ha
    have hbegin : s.begin curTsc = { s with
        loop := .round ⟨curTsc, 0, true, UINT64_MAX, none⟩, begun := s.sent.length } := by
      unfold TailMany.begin
      rw [hloop]
    rw [hbegin] at hkept ⊢
    refine ⟨hkept, (fun hr => by cases hr), fun r hr m hm => ?_, fun r hr hlooked => ?_⟩
    · cases hr
      exact ha m.file m.msg.1 m.msg.2 (hk.live.mem_log (List.mem_of_mem_take hm))
    · cases hr
      exact absurd hlooked (Nat.not_succ_le_zero 0)
  | round r => rwa [show s.begin curTsc = s by unfold TailMany.begin; rw [hloop]]
  | returned => rwa [show s.begin curTsc = s by unfold TailMany.begin; rw [hloop]]

theorem inv_look (h : Inv cfg s) : ∃ s', s.look cfg = .ok s' ∧ Inv cfg s' := by
  cases hloop : s.loop with
  | watching => exact ⟨s, by unfold TailMany.look; rw [hloop], h⟩
  | returned => exact ⟨s, by unfold TailMany.look; rw [hloop], h⟩
  | round r =>
    have hk := h.running (by rw [hloop]; exact fun h => by cases h)
    obtain ⟨s', heq, hk'⟩ := TailMany.kept_look hk
    refine ⟨s', heq, ?_⟩
    unfold TailMany.look at heq
    rw [hloop] at heq
    dsimp only at heq
    split at heq
    swap
    · cases heq
      exact h
    · rename_i hlt
      rw [eq_only ⟨r.looked, hlt⟩] at heq
      obtain ⟨t, hnext, ha⟩ := (hk.live.tracks only).nextTsc (s.contents cfg only)
      rw [hnext] at heq
      cases heq
      refine ⟨hk', (fun hr => by cases hr), fun r' hr m hm => ?_, fun r' hr _ hnone hdel => ?_⟩
      · cases hr
        rw [TailMany.see_curTsc]
        exact h.early r hloop m hm
      · rw [TailMany.files_asked_self] at hnone hdel ⊢
        exact ha.gone hnone (ha.status.symm.trans hdel)

/-! ## The end of an iteration -/

theorem refuses_iff {curTsc : UInt64} {i : Fin NumTraceLevels} {e : Recorded} {rest : List Sent}
    (hp : s.pending only = (i, e) :: rest) : Refuses curTsc s
      ↔ refused curTsc.toNat (System.ofLevel i (s.pending only)) = true := by
  constructor
  · rintro ⟨i', e', rest', hp', href⟩
    rw [hp, List.cons.injEq, Prod.mk.injEq] at hp'
    rw [hp'.1.1]
    exact href
  · exact fun href => ⟨i, e, rest, hp, href⟩

/-- `tailBuffer` is what `tailMany` calls, and succeeds when the message is
not refused. -/
theorem tailBuffer_spec (hn : (cfg only).n ≤ 80) (h : TailMany.Kept cfg s)
    {minTsc bufNum : Nat} (hnext : (s.files only).tail.tail.next = some (minTsc, bufNum))
    (curTsc : UInt64) : ∃ ok s', tailBuffer cfg minTsc curTsc bufNum s = .ok (ok, s')
      ∧ s.print cfg only minTsc curTsc bufNum = .ok s' ∧ (ok = false ↔ Refuses curTsc s) := by
  have ht := h.live.tracks only
  have htfh : (s.files only).tail.tfh = true := by
    by_contra hf
    rw [ht.choice (by simpa using hf)] at hnext
    cases hnext
  have hopt : (s.files only).tail.options.tail = true := by rw [ht.options]; rfl
  obtain ⟨i, e, rest, hpend, rfl, rfl⟩ := h.head hnext
  have hcor : ∀ rb, (s.view only).qttail.rbs[i.val]? = some rb →
      rb.corruption < RingBuffer.corruptionThreshold := fun rb hk => by
    have h1 := h.patient only i rb hk
    have h2 := patience_le_two s.clock (System.ofLevel i (s.pending only))
    unfold RingBuffer.corruptionThreshold
    omega
  have hsynced := h.synced only
  rw [hpend] at hsynced
  obtain ⟨t, hok⟩ := hsynced.tailBuffer_ok hn (h.live.lapped only) hcor curTsc.toNat
  obtain ⟨ok, t', new, htail, -, hown⟩ := Tail.tailBuffer_lines
    { (s.files only).tail.tail with out := s.out } (s.files only).tf.mem (cfg only).msgs
    e.hit.tsc.toNat curTsc.toNat i.val ((s.printsOf only).map Print.line)
  have hsame : ok = !refused curTsc.toNat (System.ofLevel i (s.pending only)) := by
    rw [hpend]
    exact congrArg Prod.fst (Option.some.inj (hown.symm.trans hok))
  refine ⟨ok, s.printed only t' ((t'.out.lines.drop s.out.lines.length).map fun line =>
    ⟨line, (s.view only).origin (cfg only).spec (cfg only).logStart i.val⟩), ?_, ?_, ?_⟩
  · unfold tailBuffer FileTail.header
    simp only [htfh, if_true, bind, Except.bind, TailMany.contents, TracedFile.contents, hopt,
      htail]
  · unfold TailMany.print FileTail.header
    simp only [htfh, if_true, bind, Except.bind, TailMany.contents, TracedFile.contents, hopt,
      htail]
  · rw [hsame, refuses_iff hpend, Bool.not_eq_false']

/-- The choice of the file is the one of the round. -/
theorem min_eq (h : TailMany.Kept cfg s) {r : TailMany.Round 1} (hloop : s.loop = .round r)
    (hlooked : 1 ≤ r.looked) {minTsc bufNum : Nat}
    (hnext : (s.files only).tail.tail.next = some (minTsc, bufNum)) :
    r.min = some (only, bufNum) ∧ r.minTsc = minTsc := by
  cases hmin : r.min with
  | none =>
    rw [((h.round r hloop).nothing hmin).2 only hlooked] at hnext
    cases hnext
  | some c =>
    obtain ⟨f, b⟩ := c
    obtain rfl := eq_only f
    have hchoice := h.live.choice r hloop only b hmin
    rw [hnext, Option.some.injEq, Prod.mk.injEq] at hchoice
    exact ⟨by rw [hchoice.2], hchoice.1.symm⟩

/-- What makes `tailBuffer` refuse a message was recorded in the round. -/
theorem Inv.recorded (h : Inv cfg s) {r : TailMany.Round 1} (hloop : s.loop = .round r)
    (href : Refuses r.curTsc s) : ∃ m ∈ s.sent.drop s.begun, m.msg ∈ s.pending only := by
  obtain ⟨i, e, rest, hpend, href⟩ := href
  obtain ⟨x, hx, hle⟩ := exists_of_refused href
  have hmem : (i, x) ∈ s.pending only := System.mem_ofLevel.mp (List.mem_of_mem_take hx)
  obtain ⟨m, hm, hmsg⟩ := List.mem_map.mp (TailMany.mem_pending hmem)
  have hsent := (List.mem_filter.mp hm).1
  rw [← List.take_append_drop s.begun s.sent, List.mem_append] at hsent
  refine ⟨m, hsent.resolve_left fun htake => ?_, hmsg ▸ hmem⟩
  have hlt := h.early r hloop m htake
  rw [hmsg] at hlt
  exact absurd hlt (Nat.not_lt.mpr hle)

/-- Nothing is missing in a file that was given up. -/
theorem Inv.complete (h : Inv cfg s) (ht : (s.files only).tail.tfh = false) {m : SentTo 1}
    (hm : m ∈ s.sent) (hlate : m.late = false) : m.msg ∈ (s.view only).origins := by
  have hsent : m.msg ∈ (s.view only).sent :=
    List.mem_map.mpr ⟨m, List.mem_filter.mpr ⟨hm, decide_eq_true (eq_only _)⟩, rfl⟩
  have hsynced := h.kept.synced only
  rw [reopen_view, reopen_pending] at hsynced
  rw [hsynced.sent, List.mem_append] at hsent
  refine hsent.resolve_right fun hp => ?_
  have hlast := h.kept.late only (by rwa [reopen_files]) m (by rwa [reopen_sent]) (eq_only _)
    (by rwa [reopen_pending])
  rw [hlast] at hlate
  cases hlate

/-- The chosen message has its turn. -/
theorem Inv.turn (hn : (cfg only).n ≤ 80) (h : Inv cfg s) {r : TailMany.Round 1}
    (hloop : s.loop = .round r) (hlooked : 1 ≤ r.looked) {minTsc bufNum : Nat}
    (hnext : (s.files only).tail.tail.next = some (minTsc, bufNum)) :
    ∃ ok s' i e rest, tailBuffer cfg minTsc r.curTsc bufNum s = .ok (ok, s')
      ∧ TailMany.Kept cfg s' ∧ TailMany.Printed cfg only r.curTsc s s'
      ∧ s.pending only = (i, e) :: rest
      ∧ System.Turn (cfg only).n (cfg only).spec (cfg only).logStart (s.view only)
        (s.view only).origins i e rest r.curTsc.toNat (s'.view only)
      ∧ (ok = false ↔ Refuses r.curTsc s) := by
  have hk := h.running (by rw [hloop]; exact fun h => by cases h)
  have hn' : ∀ f, (cfg f).n ≤ 80 := fun f => eq_only f ▸ hn
  obtain ⟨hmin, rfl⟩ := min_eq hk hloop hlooked hnext
  obtain ⟨ok, s', htail, hprint, hok⟩ := tailBuffer_spec hn hk hnext r.curTsc
  obtain ⟨s₁, hprint₁, hk'⟩ := TailMany.kept_print hn' hk hloop (Nat.not_lt.mpr hlooked) hmin
  obtain rfl : s' = s₁ := Except.ok.inj (hprint.symm.trans hprint₁)
  obtain ⟨s₁, hprint₁, hp⟩ := TailMany.print_spec cfg (hk.live.tracks only) hnext r.curTsc
  obtain rfl : s' = s₁ := Except.ok.inj (hprint.symm.trans hprint₁)
  obtain ⟨i, e, rest, hpend, -, -, hturn⟩ := hk.turn hn' hloop hmin hp
  exact ⟨ok, s', i, e, rest, htail, hk', hp, hpend, hturn, hok⟩

/-- The end of an iteration. -/
theorem finish_spec (hn : (cfg only).n ≤ 80) (h : Inv cfg s) {r : TailMany.Round 1}
    (hloop : s.loop = .round r) (hlooked : 1 ≤ r.looked) :
    ∃ s', finish cfg s = .ok s' ∧ Inv cfg s' ∧ Ends r s s' := by
  unfold finish
  rw [hloop]
  dsimp only
  rw [if_neg (Nat.not_lt.mpr hlooked)]
  cases hnext : (s.files only).tail.tail.next with
  | none =>
    have hk := h.running (by rw [hloop]; exact fun h => by cases h)
    refine ⟨_, rfl, inv_otherWork hk, ⟨?_, fun _ hdel m hm hlate => ?_, fun hne => absurd hnext hne,
      fun hne => absurd hnext hne⟩⟩
    · exact otherWork_returned.trans ⟨fun hs => ⟨hs, .inl hnext⟩, And.left⟩
    · exact h.complete (h.gone r hloop hlooked hnext hdel) hm hlate
  | some c =>
    obtain ⟨ok, s₁, i, e, rest, htail, hk₁, hp, hpend, hturn, hok⟩ := h.turn hn hloop hlooked hnext
    have hlevel : System.ofLevel i (s.pending only) = e :: System.ofLevel i rest := by
      rw [hpend, System.ofLevel_cons, if_pos rfl]
    have hsome : (s.files only).tail.tail.next ≠ none := by
      rw [hnext]
      exact fun h => by cases h
    dsimp only
    rw [htail]
    cases hturn with
    | prints href hs rb hrbs hcor =>
      have hnot : ¬ Refuses r.curTsc s := by
        rw [refuses_iff hpend, hlevel, href]
        exact Bool.false_ne_true
      obtain rfl : ok = true := by simpa using mt hok.mp hnot
      refine ⟨s₁, rfl, .of_watching hk₁ hp.loop, ⟨?_, fun h => absurd h hsome,
        fun _ h => absurd h hnot, fun _ _ => ⟨(i, e), ?_⟩⟩⟩
      · rw [hp.loop]
        exact ⟨fun h => (by cases h), fun h => absurd h.2 (not_or.mpr ⟨hsome, hnot⟩)⟩
      · rw [hpend]
        exact congrArg _ hs.split.2
    | waits href rb hk' heq =>
      have hyes : Refuses r.curTsc s := by
        rw [refuses_iff hpend, hlevel]
        exact href
      obtain rfl := hok.mpr hyes
      have hprintsOf : s₁.printsOf only = s.printsOf only := congrArg System.prints heq
      obtain ⟨ps, hps, -, hown⟩ := hp.prints
      have hnil : ps = [] := by
        rw [hown] at hprintsOf
        exact List.append_right_eq_self.mp hprintsOf
      refine ⟨otherWork s₁, rfl, inv_otherWork hk₁, ⟨?_, fun h => absurd h hsome,
        fun _ _ => ⟨?_, ?_, h.recorded hloop hyes⟩, fun _ h => absurd hyes h⟩⟩
      · obtain ⟨tail, htail⟩ := hp.tail
        rw [otherWork_returned, htail]
        exact ⟨fun hs => ⟨hs, .inr hyes⟩, And.left⟩
      · exact TailMany.pending_congr (hp.sentTo only) hprintsOf
      · rw [show (otherWork s₁).prints = s₁.prints from rfl, hps, hnil]
        exact List.append_nil _

/-! ## Every run -/

/-- The step lemma. -/
theorem inv_step (hn : (cfg only).n ≤ 80) (h : Inv cfg s) {a : TailMany.Action 1}
    (ha : TailMany.Spared cfg s a) : ∃ s', step cfg s a = .ok s' ∧ Inv cfg s' := by
  cases a with
  | write f i hit tsc1 => exact ⟨_, rfl, inv_write h tsc1 ha⟩
  | delete f => exact inv_delete h f
  | begin curTsc => exact ⟨_, rfl, inv_begin h ha⟩
  | look => exact inv_look h
  | finish =>
    cases hloop : s.loop with
    | watching => exact ⟨s, by unfold step finish; rw [hloop], h⟩
    | returned => exact ⟨s, by unfold step finish; rw [hloop], h⟩
    | round r =>
      by_cases hlooked : r.looked < 1
      · refine ⟨s, ?_, h⟩
        unfold step finish
        rw [hloop]
        exact if_pos hlooked
      · obtain ⟨s', heq, hinv, -⟩ := finish_spec hn h hloop (Nat.not_lt.mp hlooked)
        exact ⟨s', heq, hinv⟩

/-- The run lemma. -/
theorem inv_runs (hn : (cfg only).n ≤ 80) {s₀ : TailMany 1} (h : Inv cfg s₀)
    (hr : Runs cfg (TailMany.Spared cfg) s₀ s) : Inv cfg s := by
  induction hr with
  | refl => exact h
  | tail _ hstep ih =>
    obtain ⟨a, ha, heq⟩ := hstep
    obtain ⟨s', heq', h'⟩ := inv_step hn ih ha
    rw [heq, Except.ok.injEq] at heq'
    rwa [heq']

theorem Inv.inOrder (h : Inv cfg s) : InOrder cfg s := by
  obtain ⟨hcor, hlines, hshows, hfiles, -, -⟩ := h.kept.inOrder
  have hout : (reopen s).out = s.out ∧ (reopen s).prints = s.prints := by
    unfold reopen
    split <;> exact ⟨rfl, rfl⟩
  rw [hout.1, hout.2] at hlines
  rw [hout.2] at hshows
  refine ⟨?_, hlines, fun p hp => ?_, ?_⟩
  · have := hcor only
    rwa [reopen_files] at this
  · have := hshows p hp
    rwa [eq_only p.file] at this
  · have := hfiles only
    unfold TailMany.sentTo at this
    rwa [reopen_view, reopen_sent] at this

/-- One file whose writer spares what was not printed yet, in any interleaving
with `tailOne`, whose clock may be overtaken by the writer in an iteration. The
lines are the messages recorded in the file, in order and without a gap, and no
corruption is reported. An iteration returns exactly if the file was deleted
and no message was chosen or the chosen one is refused. Nothing that was
recorded before the deletion was noticed is missing in the first case, and in
the second only if something was recorded since the clock was read. -/
theorem tailOne_returns (hn : (cfg only).n ≤ 80) {cs : MsgCounters} {tf : TraceFile}
    (hw : TraceFile.Written (Described (cfg only).msgs) (cfg only).n (cfg only).spec
      (cfg only).logStart cs tf) {s₀ : TailMany 1} (hs : TailMany.Starts cfg (fun _ => tf) s₀)
    (hr : Runs cfg (TailMany.Spared cfg) s₀ s) :
    InOrder cfg s ∧ ∀ r, s.loop = .round r → 1 ≤ r.looked →
      ∃ s', finish cfg s = .ok s' ∧ Ends r s s' := by
  have hkept := TailMany.kept_starts (fun f => eq_only f ▸ hn)
    (fun f => eq_only f ▸ TraceFile.writerOk_written hw) hs
  have hinv := inv_runs hn (.of_watching hkept hs.loop) hr
  refine ⟨hinv.inOrder, fun r hloop hlooked => ?_⟩
  obtain ⟨s', heq, -, hends⟩ := finish_spec hn hinv hloop hlooked
  exact ⟨s', heq, hends⟩

/-! ## A message that is missing -/

/-- In a spared run the deletion is noticed, and the file is asked. -/
theorem noticed (h : Inv cfg s) (hloop : s.loop = .watching) {curTsc : UInt64}
    (hlater : s.Later curTsc) : ∃ s' r, Runs cfg (TailMany.Spared cfg) s s'
      ∧ s'.loop = .round r ∧ r.looked = 1 ∧ r.curTsc = curTsc
      ∧ (s'.files only).tail.status = .deletePending ∧ (s'.files only).tf = (s.files only).tf
      ∧ s'.sent = s.sent ∧ s'.prints = s.prints := by
  have hk := h.running (by rw [hloop]; exact fun h => by cases h)
  let s₂ := s.setTail only { (s.files only).tail with status := .deletePending }
  have hdelete : s.delete only = .ok s₂ := by
    unfold TailMany.delete
    rw [hloop]
    dsimp only
    rw [(hk.live.tracks only).delete]
    rfl
  obtain ⟨s', heq, hinv₂⟩ := inv_delete h only
  obtain rfl : s₂ = s' := Except.ok.inj (hdelete.symm.trans heq)
  have htf : (s₂.files only).tf = (s.files only).tf := by simp [s₂]
  have hlater₂ : s₂.Later curTsc := fun f i e he => by
    obtain rfl := eq_only f
    rw [htf] at he
    exact hlater only i e he
  let r : TailMany.Round 1 := ⟨curTsc, 0, true, UINT64_MAX, none⟩
  have hloop₃ : (s₂.begin curTsc).loop = .round r := by
    unfold TailMany.begin
    rw [show s₂.loop = .watching from hloop]
  have hsame : (s₂.begin curTsc).files = s₂.files ∧ (s₂.begin curTsc).sent = s.sent
      ∧ (s₂.begin curTsc).prints = s.prints := by
    unfold TailMany.begin
    rw [show s₂.loop = .watching from hloop]
    exact ⟨rfl, rfl, rfl⟩
  have hinv₃ := inv_begin hinv₂ hlater₂
  have hk₃ := hinv₃.running (by rw [hloop₃]; exact fun h => by cases h)
  obtain ⟨t, hnext, ha⟩ := (hk₃.live.tracks only).nextTsc ((s₂.begin curTsc).contents cfg only)
  have hlook : (s₂.begin curTsc).look cfg = .ok ((s₂.begin curTsc).asked only t r) := by
    unfold TailMany.look
    rw [hloop₃]
    dsimp only
    rw [dif_pos (show r.looked < 1 from Nat.one_pos), eq_only ⟨r.looked, Nat.one_pos⟩, hnext]
    rfl
  refine ⟨_, r.see only t, .tail (.tail (.single ⟨.delete only, trivial, hdelete⟩)
    ⟨.begin curTsc, hlater₂, rfl⟩) ⟨.look, trivial, hlook⟩, rfl, TailMany.see_looked r only t,
    TailMany.see_curTsc r only t, ?_, ?_, hsame.2.1, hsame.2.2⟩
  · rw [TailMany.files_asked_self, ha.status, hsame.1]
    simp [s₂]
  · simp [TailMany.asked, hsame.1, htf]

def oneFile : Fin 1 → TracedFile := fun _ => ⟨textTable, 80, TraceFile.kibSpec, 128⟩

def emptyTrace : TraceFile := .create TraceFile.kibSpec 128 TraceFile.oneCounter

/-- A message is recorded, the deletion is noticed, the clock is read, the
message is chosen, and another one is recorded behind it. -/
theorem refused_run : ∃ s₀ s r, TailMany.Starts oneFile (fun _ => emptyTrace) s₀
    ∧ Runs oneFile (TailMany.Spared oneFile) s₀ s ∧ s.loop = .round r ∧ 1 ≤ r.looked
    ∧ (s.files only).tail.status = .deletePending ∧ Refuses r.curTsc s
    ∧ ∃ m ∈ s.sent, m.late = false ∧ m.msg ∈ s.pending only := by
  have hw : ∀ _ : Fin 1, TraceFile.WriterOk (Described textTable) 80 TraceFile.kibSpec 128
      emptyTrace := fun _ => TraceFile.writerOk_create _
  have hexists : ∃ s₀, TailMany.Starts oneFile (fun _ => emptyTrace) s₀ :=
    TailMany.starts_exists (fun _ => Nat.le_refl 80) hw
  obtain ⟨s₀, hstart⟩ := hexists
  have hinv₀ : Inv oneFile s₀ :=
    .of_watching (TailMany.kept_starts (fun _ => Nat.le_refl 80) hw hstart) hstart.loop
  have hstatus := (TailMany.starts_mapped (fun _ => Nat.le_refl 80) hw hstart only).2
  have hsent₀ := hstart.sentTo_nil only
  have hspared : TailMany.Spared oneFile s₀ (.write only 0 (emptyHit 1) 0) :=
    TailMany.spared_first hsent₀ (hstart.tf only ▸ System.firstHit_ok) 0 0
  let s₁ := s₀.write oneFile only 0 (emptyHit 1) 0
  have hinv₁ : Inv oneFile s₁ := inv_write hinv₀ 0 hspared
  have htf₁ : (s₁.files only).tf = emptyTrace.trace 80 0 (emptyHit 1) := by
    rw [TailMany.write_self, hstart.tf only]
    rfl
  have hlog₁ : ∀ i, ∀ e ∈ ((emptyTrace.trace 80 0 (emptyHit 1)).ring i).log,
      e.hit = emptyHit 1 := fun _ _ he => System.hit_usedFile he
  have hlater : s₁.Later 2 := fun f i e he => by
    obtain rfl := eq_only f
    rw [htf₁] at he
    rw [hlog₁ i e he]
    decide
  obtain ⟨s₂, r, hrun, hloop, hlooked, hcur, hdel, htf, hsent, hprints⟩ :=
    noticed hinv₁ hstart.loop hlater
  rw [htf₁] at htf
  -- the first message and the one behind it
  let e : Recorded := ⟨(emptyTrace.log 0).rb.startPos, emptyHit 1⟩
  have hsent₂ : s₂.sentTo only = [(0, e)] := by
    rw [show s₂.sentTo only = s₁.sentTo only by unfold TailMany.sentTo; rw [hsent],
      TailMany.sentTo_write_self, hsent₀, hstart.tf only]
    rfl
  have ho₂ : TraceFile.WriteOk (Described textTable) 80 (s₂.files only).tf (emptyHit 5) := by
    rw [htf]
    exact ⟨by decide, by decide, fun i x hx => (by rw [hlog₁ i x hx]; decide), by decide,
      by decide, described_text 5 rfl⟩
  have hspared₂ : TailMany.Spared oneFile s₂ (.write only 0 (emptyHit 5) 0) := by
    refine ⟨ho₂, fun p hp _ => ?_⟩
    rw [show (s₂.view only).sent = s₂.sentTo only from rfl, hsent₂, List.mem_singleton] at hp
    rw [hp, show (s₂.view only).tf = (s₂.files only).tf from rfl, htf]
    exact untouched_of_le (by decide) (by decide) (by decide)
  have hprints₂ : (s₂.write oneFile only 0 (emptyHit 5) 0).printsOf only = [] := by
    unfold TailMany.printsOf
    rw [show (s₂.write oneFile only 0 (emptyHit 5) 0).prints = s₂.prints from rfl, hprints,
      show s₁.prints = s₀.prints from rfl, hstart.prints]
    rfl
  have hpending : ∃ x, (s₂.write oneFile only 0 (emptyHit 5) 0).pending only
      = [(0, e), (0, ⟨x, emptyHit 5⟩)] := by
    unfold TailMany.pending System.origins
    rw [show ((s₂.write oneFile only 0 (emptyHit 5) 0).view only).prints
      = (s₂.write oneFile only 0 (emptyHit 5) 0).printsOf only from rfl, hprints₂,
      TailMany.sentTo_write_self, hsent₂]
    exact ⟨_, rfl⟩
  obtain ⟨x, hx⟩ := hpending
  refine ⟨s₀, s₂.write oneFile only 0 (emptyHit 5) 0, r, hstart,
    .tail (.trans (.single ⟨.write only 0 (emptyHit 1) 0, hspared, rfl⟩) hrun)
      ⟨.write only 0 (emptyHit 5) 0, hspared₂, rfl⟩, hloop, Nat.le_of_eq hlooked.symm, ?_,
    ⟨0, e, _, hx, ?_⟩, ⟨only, (0, e), false⟩, ?_, rfl, ?_⟩
  · rw [TailMany.tail_write]
    exact hdel
  · rw [hx, hcur]
    exact refused_cons.mpr (.inr (show (2 : UInt64).toNat < (emptyHit 5).tsc.toNat by decide))
  · have hmem : s₁.sent = [⟨only, (0, e), false⟩] := by
      show s₀.sent ++ _ = _
      rw [hstart.sent, hstart.tf only, hstatus]
      rfl
    refine List.mem_append_left _ ?_
    rw [hsent, hmem]
    exact List.mem_singleton_self _
  · rw [hx]
    exact List.mem_cons_self

theorem tailOne_returns_early : ∃ s₀ s r, TailMany.Starts oneFile (fun _ => emptyTrace) s₀
    ∧ Runs oneFile (TailMany.Spared oneFile) s₀ s ∧ s.loop = .round r ∧ 1 ≤ r.looked
    ∧ (s.files only).tail.status = .deletePending ∧ Refuses r.curTsc s
    ∧ (∃ m ∈ s.sent, m.late = false ∧ m.msg ∈ s.pending only)
    ∧ InOrder oneFile s ∧ ∃ s', finish oneFile s = .ok s' ∧ Ends r s s' := by
  obtain ⟨s₀, s, r, hs, hr, hloop, hlooked, hdel, href, hm⟩ := refused_run
  obtain ⟨horder, hends⟩ := @tailOne_returns oneFile s (Nat.le_refl 80) _ emptyTrace .refl s₀ hs hr
  exact ⟨s₀, s, r, hs, hr, hloop, hlooked, hdel, href, hm, horder, hends r hloop hlooked⟩

end TailOne

end QuickTrace
