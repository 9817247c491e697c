/-
QuickTrace.Tail.TailManyOrder — the order in which qttail prints several
files.

When the writers spare what was not printed yet, every line shows a message,
the lines of one file are the first part of what was recorded in it, and a
message is only printed too late if it was recorded after the round had begun
that printed a younger one of another file (`InOrder`). When `tailMany`
returns, all files were deleted and nothing is missing that was recorded
before.

`Kept` is the invariant: what each file has pending is what its readers will
show, the choice of a round is not younger than any pending message that was
there when the round began, and no reader has failed often enough to give up.
-/
import QuickTrace.Tail.TailManyTheorems

namespace QuickTrace

open QuickTrace.Lib RingBuf Level

namespace System

variable {msgs : Messages} {n : Nat} {spec : SizeSpec} {logStart : Nat} {s : System}
  {printed rest : List Sent}

/-! ## One call of tailBuffer with any clock -/

/-- What a call of `tailBuffer` comes to: the chosen message is printed, or it
is refused. -/
inductive Turn (n : Nat) (spec : SizeSpec) (logStart : Nat) (s : System) (printed : List Sent)
    (i : Fin NumTraceLevels) (e : Recorded) (rest : List Sent) (curTsc : Nat) (s' : System) :
    Prop where
  | prints (href : refused curTsc (e :: ofLevel i rest) = false)
      (hs : Synced n spec logStart s' (printed ++ [(i, e)]) rest) (rb : RingBuffer)
      (hrbs : s'.qttail.rbs = s.qttail.rbs.set i.val rb) (hcor : rb.corruption = 0)
  | waits (href : refused curTsc (e :: ofLevel i rest) = true) (rb : RingBuffer)
      (hk : s.qttail.rbs[i.val]? = some rb)
      (heq : s' = { s with qttail := { s.qttail with
        rbs := s.qttail.rbs.set i.val { rb with corruption := rb.corruption + 1 } } })

/-- A reader fails once more. -/
theorem Synced.retry (hs : Synced n spec logStart s printed rest) {i : Fin NumTraceLevels}
    {rb : RingBuffer} (hk : s.qttail.rbs[i.val]? = some rb) (corruption : Nat) :
    Synced n spec logStart { s with qttail := { s.qttail with
      rbs := s.qttail.rbs.set i.val { rb with corruption } } } printed rest := by
  obtain ⟨hlevel, consumed, hf⟩ := hs.readers.each i rb hk
  exact ⟨hs.sent, hs.origins, hs.corruptions,
    hs.readers.set i ⟨hlevel, consumed, hf.retry corruption⟩ fun _ _ _ h => h, hs.next⟩

/-- `tailBuffer` with any clock. -/
theorem Synced.turn (hn : n ≤ 80) (h : Lapped msgs n spec logStart s) {i : Fin NumTraceLevels}
    {e : Recorded} (hs : Synced n spec logStart s printed ((i, e) :: rest))
    (hnext : s.qttail.next = some (e.hit.tsc.toNat, i.val))
    (hcor : ∀ rb, s.qttail.rbs[i.val]? = some rb →
      rb.corruption < RingBuffer.corruptionThreshold) (curTsc : UInt64) :
    Turn n spec logStart s printed i e rest curTsc.toNat
      (s.step msgs n spec logStart (.tailBuffer curTsc)) := by
  obtain ⟨rb, hk, hlevel, consumed, hf⟩ := hs.readers.get i
  have hi := h.writer.inv i
  have hl := h.writer.log i
  have hpend : ofLevel i ((i, e) :: rest) = e :: ofLevel i rest := by
    rw [ofLevel_cons, if_pos rfl]
  rw [hpend] at hf
  have hmem : ∀ x ∈ ofLevel i rest, x.hit.tsc.toNat ≤ UINT64_MAX := fun x hx =>
    Nat.le_of_lt (hl.small x (by rw [hf.log]; simp [hx]))
  obtain ⟨hcur, hstand, -⟩ := hf.head hi hl (h.writer.started i) UINT64_MAX hmem
  have horigin : s.origin spec logStart i.val = some (i, e) := by
    rw [origin_eq spec logStart hk, hcur, hstand.recordAt_eq hi]
    rfl
  cases href : refused curTsc.toNat (e :: ofLevel i rest) with
  | false =>
    obtain ⟨l, out', hdump, hlines, -⟩ :=
      hf.dump_taken hn hi hl (h.writer.started i) href s.qttail.out
    rw [show (s.tf.ring i).mem = s.tf.mem from rfl] at hdump
    refine .prints href ?_ (rb.advance e.hit.tsc.toNat (encodeArgs n e.hit.args).length) ?_ rfl
    · simp only [step, hnext, Tail.tailBuffer, hk, hdump, hlines, List.drop_left,
        List.map_singleton, horigin, if_true]
      refine ⟨hs.sent.trans (by simp), by simp [hs.origins], hs.corruptions,
        hs.readers.set i ⟨hlevel, consumed ++ [e], hf.advance hi⟩ ?_, by simp⟩
      rintro j rb' hij ⟨hlevel', consumed', hf'⟩
      rw [ofLevel_cons, if_neg (fun h => hij h.symm)] at hf'
      exact ⟨hlevel', consumed', hf'⟩
    · simp only [step, hnext, Tail.tailBuffer, hk, hdump]
  | true =>
    have hdump := hf.dump_refused hn hi hl (h.writer.started i) (hcor rb hk) href s.qttail.out
    rw [show (s.tf.ring i).mem = s.tf.mem from rfl] at hdump
    refine .waits href rb hk ?_
    simp only [step, hnext, Tail.tailBuffer, hk, hdump, List.drop_length, List.map_nil,
      List.append_nil, Bool.false_eq_true, if_false]

/-- What is printed and what is pending. -/
theorem Synced.split (hs : Synced n spec logStart s printed rest) :
    printed = s.origins ∧ rest = s.sent.drop s.origins.length := by
  have horigins := hs.origins_eq
  rw [horigins, hs.sent, List.drop_left]
  exact ⟨rfl, rfl⟩

end System

namespace TailMany

variable {k : Nat} {cfg : Fin k → TracedFile} {s s' : TailMany k} {f g : Fin k}

/-! ## What is stated -/

/-- What was recorded and not printed. -/
def pending (f : Fin k) (s : TailMany k) : List Sent :=
  (s.sentTo f).drop (s.view f).origins.length

/-- The message was among the first `begun` that were recorded. -/
def Early (s : TailMany k) (begun : Nat) (f : Fin k) (x : Sent) : Prop :=
  ∃ m ∈ s.sent.take begun, m.file = f ∧ m.msg = x

/-- The lines of several files. -/
structure InOrder (cfg : Fin k → TracedFile) (s : TailMany k) : Prop where
  corruptions : ∀ f, (s.files f).tail.tail.corruptions = []
  lines : s.out.lines = s.prints.map fun p => p.print.line
  shows : ∀ p ∈ s.prints, ∃ x, p.print.origin = some x
    ∧ System.ShowsSent (cfg p.file).msgs (cfg p.file).n p.print.line x
  files : ∀ f, List.IsPrefix (s.view f).origins (s.sentTo f)
  order : s.prints.Pairwise fun p q => ∀ x y, p.print.origin = some x →
    q.print.origin = some y → s.Early p.begun q.file y → x.2.hit.tsc.toNat ≤ y.2.hit.tsc.toNat
  returned : s.loop = .returned → ∀ f, (s.files f).tail.status = .deletePending
    ∧ ∀ m ∈ s.sent, m.file = f → m.late = false → m.msg ∈ (s.view f).origins

/-- The clock is later than everything that was recorded. -/
def Later (s : TailMany k) (curTsc : UInt64) : Prop :=
  ∀ f i, ∀ e ∈ ((s.files f).tf.ring i).log, e.hit.tsc.toNat < curTsc.toNat

/-- What the writers may record: they spare what was not printed. A round
reads a clock that is later than what is recorded by then. -/
def Spared (cfg : Fin k → TracedFile) (s : TailMany k) : Action k → Prop
  | .write f i h _ => TraceFile.WriteOk (Described (cfg f).msgs) (cfg f).n (s.files f).tf h
      ∧ System.Spares (cfg f).n (s.view f) (.write i h)
  | .begin curTsc => s.Later curTsc
  | _ => True

/-! ## The invariant -/

/-- The clock of the round, if there is one. -/
def clock (s : TailMany k) : Nat :=
  match s.loop with
  | .round r => r.curTsc.toNat
  | _ => 2 ^ 64

/-- What the round knows of the files that were asked. -/
structure RoundOk (s : TailMany k) (r : Round k) : Prop where
  nothing : r.min = none → r.minTsc = UINT64_MAX
    ∧ ∀ g : Fin k, g.val < r.looked → (s.files g).tail.tail.next = none
  least : ∀ g : Fin k, g.val < r.looked → (s.files g).tail.tfh = true → ∀ y ∈ s.pending g,
    s.Early s.begun g y → r.minTsc ≤ y.2.hit.tsc.toNat
  deleted : r.min = none → r.allFilesDeleted = true → ∀ g : Fin k, g.val < r.looked →
    (s.files g).tail.status = .deletePending ∧ (s.files g).tail.tfh = false

/-- The invariant of a spared run. -/
structure Kept (cfg : Fin k → TracedFile) (s : TailMany k) : Prop where
  live : Live cfg s
  synced : ∀ f, System.Synced (cfg f).n (cfg f).spec (cfg f).logStart (s.view f)
    (s.view f).origins (s.pending f)
  patient : ∀ f (i : Fin NumTraceLevels) rb, (s.files f).tail.tail.rbs[i.val]? = some rb →
    rb.corruption ≤ patience s.clock (System.ofLevel i (s.pending f))
  late : ∀ f, (s.files f).tail.tfh = false → ∀ m ∈ s.sent, m.file = f → m.msg ∈ s.pending f →
    m.late = true
  begun : s.begun ≤ s.sent.length ∧ ∀ p ∈ s.prints, p.begun ≤ s.sent.length
  round : ∀ r, s.loop = .round r → RoundOk s r
  printed : ∀ p ∈ s.prints, ∀ x, p.print.origin = some x → ∀ g, (s.files g).tail.tfh = true →
    ∀ y ∈ s.pending g, s.Early p.begun g y → x.2.hit.tsc.toNat ≤ y.2.hit.tsc.toNat
  order : s.prints.Pairwise fun p q => ∀ x y, p.print.origin = some x →
    q.print.origin = some y → s.Early p.begun q.file y → x.2.hit.tsc.toNat ≤ y.2.hit.tsc.toNat
  returned : s.loop = .returned → ∀ f, (s.files f).tail.status = .deletePending
    ∧ (s.files f).tail.tfh = false

/-- A message that was recorded is in the log of its level. -/
theorem Live.mem_log (h : Live cfg s) {m : SentTo k} (hm : m ∈ s.sent) :
    m.msg.2 ∈ ((s.files m.file).tf.ring m.msg.1).log := by
  refine (h.lapped m.file).sent_log m.msg ?_
  exact List.mem_map.mpr ⟨m, List.mem_filter.mpr ⟨hm, by simp⟩, rfl⟩

theorem mem_pending {x : Sent} (hx : x ∈ s.pending f) : x ∈ s.sentTo f := List.mem_of_mem_drop hx

theorem Live.mem_pending (h : Live cfg s) {x : Sent} (hx : x ∈ s.pending f) :
    x.2 ∈ ((s.files f).tf.ring x.1).log :=
  (h.lapped f).sent_log x (TailMany.mem_pending hx)

theorem Kept.inOrder (h : Kept cfg s) : InOrder cfg s where
  corruptions := fun f => (h.synced f).corruptions
  lines := h.live.lines
  shows := fun p hp => by
    have hmem : p.print.origin ∈ (s.view p.file).prints.map Print.origin :=
      List.mem_map.mpr ⟨p.print, List.mem_map.mpr ⟨p, List.mem_filter.mpr ⟨hp, by simp⟩, rfl⟩, rfl⟩
    rw [(h.synced p.file).origins] at hmem
    obtain ⟨x, -, hx⟩ := List.mem_map.mp hmem
    exact ⟨x, hx.symm, h.live.once.shows p hp x hx.symm⟩
  files := fun f => ⟨s.pending f, (h.synced f).sent.symm⟩
  order := h.order
  returned := fun hr f => by
    refine ⟨(h.returned hr f).1, fun m hm hf hlate => ?_⟩
    have hsent : m.msg ∈ (s.view f).sent :=
      List.mem_map.mpr ⟨m, List.mem_filter.mpr ⟨hm, by simpa using hf⟩, rfl⟩
    rw [(h.synced f).sent, List.mem_append] at hsent
    refine hsent.resolve_right fun hp => ?_
    rw [h.late f (h.returned hr f).2 m hm hf hp] at hlate
    cases hlate

/-! ## A message is recorded -/

theorem pending_congr (hsent : s'.sentTo f = s.sentTo f)
    (hprints : s'.printsOf f = s.printsOf f) : s'.pending f = s.pending f := by
  unfold pending System.origins view
  rw [hsent, hprints]

theorem pending_write_self (h : Kept cfg s) (i : Fin NumTraceLevels) (hit : Hit) (tsc1 : Nat) :
    (s.write cfg f i hit tsc1).pending f
      = s.pending f ++ [(i, ⟨((s.files f).tf.log i).rb.startPos, hit⟩)] := by
  have hle : (s.view f).origins.length ≤ (s.sentTo f).length := by
    have hsent := congrArg List.length (h.synced f).sent
    rw [List.length_append] at hsent
    exact Nat.le.intro hsent.symm
  unfold pending
  rw [sentTo_write_self]
  exact List.drop_append_of_le_length hle

theorem pending_write_ne (hg : g ≠ f) (i : Fin NumTraceLevels) (hit : Hit) (tsc1 : Nat) :
    (s.write cfg f i hit tsc1).pending g = s.pending g :=
  pending_congr (sentTo_write_ne hg i hit tsc1) rfl

/-- A new message is not among the earlier ones. -/
theorem not_early_new (h : Live cfg s) {i : Fin NumTraceLevels} {hit : Hit}
    (ho : TraceFile.WriteOk (Described (cfg f).msgs) (cfg f).n (s.files f).tf hit)
    {pos begun : Nat} :
    ¬ s.Early begun f (i, ⟨pos, hit⟩) := by
  rintro ⟨m, hm, hf, hmsg⟩
  have hlog := h.mem_log (List.mem_of_mem_take hm)
  rw [hf, hmsg] at hlog
  exact Nat.lt_irrefl _ (ho.later _ _ hlog)

theorem early_write {begun : Nat} (hle : begun ≤ s.sent.length) {i : Fin NumTraceLevels}
    {hit : Hit} {tsc1 : Nat} {y : Sent} (h : (s.write cfg f i hit tsc1).Early begun g y) :
    s.Early begun g y := by
  obtain ⟨m, hm, hmsg⟩ := h
  refine ⟨m, ?_, hmsg⟩
  rwa [show (s.write cfg f i hit tsc1).sent = s.sent ++ _ from rfl,
    List.take_append_of_le_length hle] at hm

/-- What was pending before and is still pending behind a write. -/
theorem pending_write (h : Kept cfg s) {i : Fin NumTraceLevels} {hit : Hit} {tsc1 begun : Nat}
    (ho : TraceFile.WriteOk (Described (cfg f).msgs) (cfg f).n (s.files f).tf hit)
    (hle : begun ≤ s.sent.length) {y : Sent} (hy : y ∈ (s.write cfg f i hit tsc1).pending g)
    (hearly : (s.write cfg f i hit tsc1).Early begun g y) :
    y ∈ s.pending g ∧ s.Early begun g y := by
  have hearly' := early_write hle hearly
  refine ⟨?_, hearly'⟩
  by_cases hg : g = f
  · subst hg
    rw [pending_write_self h, List.mem_append, List.mem_singleton] at hy
    refine hy.resolve_right fun hnew => not_early_new h.live ho (hnew ▸ hearly')
  · rwa [pending_write_ne hg] at hy

theorem RoundOk.write {r : Round k} (hr : RoundOk s r) (h : Kept cfg s) {i : Fin NumTraceLevels}
    {hit : Hit} {tsc1 : Nat}
    (ho : TraceFile.WriteOk (Described (cfg f).msgs) (cfg f).n (s.files f).tf hit) :
    RoundOk (s.write cfg f i hit tsc1) r where
  nothing := fun hmin => by
    simp only [tail_write]
    exact hr.nothing hmin
  least := fun g hg ht y hy hearly => by
    rw [tail_write] at ht
    obtain ⟨hy', hearly'⟩ := pending_write h ho h.begun.1 hy hearly
    exact hr.least g hg ht y hy' hearly'
  deleted := fun hmin hall => by
    simp only [tail_write]
    exact hr.deleted hmin hall

theorem kept_write (h : Kept cfg s) {i : Fin NumTraceLevels} {hit : Hit} (tsc1 : Nat)
    (ho : TraceFile.WriteOk (Described (cfg f).msgs) (cfg f).n (s.files f).tf hit)
    (hspare : System.Spares (cfg f).n (s.view f) (.write i hit)) :
    Kept cfg (s.write cfg f i hit tsc1) where
  live := live_write h.live tsc1 ho
  synced := fun g => by
    by_cases hg : g = f
    · subst hg
      rw [view_write_self, pending_write_self h]
      exact System.synced_write (h.live.lapped g) (h.synced g) ho hspare
    · rw [view_write_ne hg, pending_write_ne hg]
      exact h.synced g
  patient := fun g j rb hk => by
    rw [tail_write] at hk
    refine Nat.le_trans (h.patient g j rb hk) ?_
    by_cases hg : g = f
    · subst hg
      rw [pending_write_self h, System.ofLevel_concat]
      exact patience_mono (Nat.le_refl _) _ _
    · rw [pending_write_ne hg]
      exact Nat.le_refl _
  late := fun g ht m hm hf hp => by
    rw [tail_write] at ht
    rcases List.mem_append.mp hm with hm | hm
    · refine h.late g ht m hm hf ?_
      have hearly : (s.write cfg f i hit tsc1).Early s.sent.length g m.msg := by
        refine ⟨m, ?_, hf, rfl⟩
        rw [show (s.write cfg f i hit tsc1).sent = s.sent ++ _ from rfl,
          List.take_append_of_le_length (Nat.le_refl _), List.take_length]
        exact hm
      exact (pending_write h ho (Nat.le_refl _) hp hearly).1
    · rw [List.mem_singleton] at hm
      subst hm
      obtain rfl : f = g := hf
      have hs := (h.live.tracks f).status.resolve_left fun h' => by simp [ht] at h'
      exact decide_eq_true hs
  begun := by
    have hlen : (s.write cfg f i hit tsc1).sent.length = s.sent.length + 1 := by simp [write]
    rw [hlen]
    exact ⟨Nat.le_succ_of_le h.begun.1, fun p hp => Nat.le_succ_of_le (h.begun.2 p hp)⟩
  round := fun r hr => (h.round r hr).write h ho
  printed := fun p hp x hx g ht y hy hearly => by
    rw [tail_write] at ht
    obtain ⟨hy', hearly'⟩ := pending_write h ho (h.begun.2 p hp) hy hearly
    exact h.printed p hp x hx g ht y hy' hearly'
  order := by
    refine h.order.imp_of_mem fun {p q} hp _ hpq x y hx hy hearly => hpq x y hx hy ?_
    exact early_write (h.begun.2 p hp) hearly
  returned := fun hr g => by
    rw [tail_write]
    exact h.returned hr g

/-! ## A file is deleted, and a round begins -/

theorem kept_delete (h : Kept cfg s) (f : Fin k) :
    ∃ s', s.delete f = .ok s' ∧ Kept cfg s' := by
  unfold delete
  split
  · rename_i hloop
    have ht := h.live.tracks f
    rw [ht.delete]
    have hview : ∀ g, (s.setTail f { (s.files f).tail with status := .deletePending }).view g
        = s.view g := fun g => by
      by_cases hg : g = f
      · subst hg; exact view_setTail_self rfl
      · exact view_setTail_ne hg _
    have htail : ∀ g, ((s.setTail f { (s.files f).tail with status := .deletePending }).files
        g).tail.tail = (s.files g).tail.tail ∧ ((s.setTail f { (s.files f).tail with
        status := .deletePending }).files g).tail.tfh = (s.files g).tail.tfh := fun g => by
      by_cases hg : g = f
      · subst hg; rw [setTail_self]; exact ⟨rfl, rfl⟩
      · rw [setTail_ne hg]; exact ⟨rfl, rfl⟩
    refine ⟨_, rfl, live_setTail h.live ⟨ht.options, ht.fd, .inr rfl, ht.choice⟩ rfl, fun g => ?_,
      fun g i rb hk => ?_, fun g hf => ?_, h.begun, fun r hr => ?_, fun p hp x hx g hg => ?_,
      h.order, fun hr => ?_⟩
    · rw [hview]
      exact h.synced g
    · rw [(htail g).1] at hk
      exact h.patient g i rb hk
    · rw [(htail g).2] at hf
      exact h.late g hf
    · rw [show (s.setTail f _).loop = s.loop from rfl, hloop] at hr
      cases hr
    · rw [(htail g).2] at hg
      exact h.printed p hp x hx g hg
    · rw [show (s.setTail f _).loop = s.loop from rfl, hloop] at hr
      cases hr
  · exact ⟨s, rfl, h⟩

theorem kept_begin (h : Kept cfg s) {curTsc : UInt64} (ha : Spared cfg s (.begin curTsc)) :
    Kept cfg (s.begin curTsc) := by
  have hlive := live_begin h.live curTsc
  unfold begin at hlive ⊢
  split
  · rename_i hloop
    rw [hloop] at hlive
    refine ⟨hlive, h.synced, fun f i rb hk => ?_, h.late, ⟨Nat.le_refl _, h.begun.2⟩,
      fun r hr => ?_, h.printed, h.order, fun hr => by cases hr⟩
    · refine Nat.le_trans (h.patient f i rb hk) (patience_of_lt fun x hx => ?_)
      have hx' : (i, x) ∈ s.pending f := System.mem_ofLevel.mp hx
      exact ha f i x (h.live.mem_pending hx')
    · cases hr
      exact ⟨fun _ => ⟨rfl, fun g hg => absurd hg (Nat.not_lt_zero _)⟩,
        fun g hg => absurd hg (Nat.not_lt_zero _),
        fun _ _ g hg => absurd hg (Nat.not_lt_zero _)⟩
  · exact h

/-! ## A file is asked -/

/-- A file with a choice has it pending, in front of younger messages. -/
theorem Kept.head (h : Kept cfg s) {tsc bufNum : Nat}
    (hnext : (s.files f).tail.tail.next = some (tsc, bufNum)) :
    ∃ i e rest, s.pending f = (i, e) :: rest ∧ bufNum = i.val ∧ tsc = e.hit.tsc.toNat :=
  (h.synced f).next tsc bufNum hnext

/-- The first pending message is the oldest. -/
theorem Kept.head_le (h : Kept cfg s) {x : Sent} {rest : List Sent}
    (hp : s.pending f = x :: rest) : ∀ y ∈ s.pending f, x.2.hit.tsc.toNat ≤ y.2.hit.tsc.toNat := by
  intro y hy
  have hsorted := (h.synced f).rest_sorted (h.live.lapped f)
  rw [hp] at hsorted hy
  rcases List.mem_cons.mp hy with rfl | hy
  · exact Nat.le_refl _
  · exact Nat.le_of_lt ((List.pairwise_cons.mp hsorted).1 y hy)

/-- A mapped file that shows no message has none pending. -/
theorem Kept.pending_nil (h : Kept cfg s) {t : FileTail}
    (ha : Asked (s.files f).tf.mem (s.files f).tail t) (ht : (s.files f).tail.tfh = true)
    (hnext : t.tail.next = none) : s.pending f = [] := by
  rw [ha.tail, if_pos ht] at hnext
  have hold : (s.files f).tail.tail.next = none := by
    cases hc : (s.files f).tail.tail.next with
    | none => rfl
    | some c => rw [Tail.nextTsc_cached hc, hc] at hnext; cases hnext
  have hchoice := (h.synced f).choice (h.live.lapped f) hold
  have hview : ((s.view f).qttail.nextTsc (s.view f).tf.mem).next
      = ((s.files f).tail.tail.nextTsc (s.files f).tf.mem).next := by
    have hout := Tail.nextTsc_out (s.files f).tail.tail (s.files f).tf.mem (s.view f).qttail.out
    have hnext := congrArg Tail.next hout
    exact hnext
  rw [hview, hnext] at hchoice
  exact List.head?_eq_none_iff.mp (Option.map_eq_none_iff.mp hchoice.symm)

theorem pending_asked (t : FileTail) (r : Round k) (g : Fin k) :
    (s.asked f t r).pending g = s.pending g :=
  pending_congr rfl rfl

/-- The readers stay where they are. -/
theorem Asked.rbs {m : Mem} {t t' : FileTail} (h : Asked m t t') : t'.tail.rbs = t.tail.rbs := by
  rw [h.tail]
  split
  · rw [Tail.nextTsc_rest]
  · rfl

/-- The round behind the file. -/
theorem RoundOk.see {r : Round k} (hr : RoundOk s r) (h : Kept cfg s) (hf : f.val = r.looked)
    {t : FileTail} (ha : Asked (s.files f).tf.mem (s.files f).tail t)
    (hsynced : System.Synced (cfg f).n (cfg f).spec (cfg f).logStart ((s.asked f t r).view f)
      (s.view f).origins (s.pending f)) : RoundOk (s.asked f t r) (r.see f t) := by
  have hcases : ∀ g : Fin k, g.val < r.looked + 1 → g.val < r.looked ∧ g ≠ f ∨ g = f := by
    intro g hg
    rcases Nat.lt_or_ge g.val r.looked with hlt | hge
    · exact Or.inl ⟨hlt, fun h => by rw [h] at hlt; omega⟩
    · exact Or.inr (Fin.ext (by omega))
  have hmapped : (((s.asked f t r).files f).tail).tfh = true → (s.files f).tail.tfh = true := by
    rw [files_asked_self]
    exact ha.mapped
  unfold Round.see
  cases hnext : t.tail.next with
  | none =>
    refine ⟨fun hmin => ⟨(hr.nothing hmin).1, fun g hg => ?_⟩, fun g hg ht y hy hearly => ?_,
      fun hmin hall g hg => ?_⟩
    · rcases hcases g hg with ⟨hlt, hne⟩ | rfl
      · rw [files_asked_ne hne]
        exact (hr.nothing hmin).2 g hlt
      · rw [files_asked_self]
        exact hnext
    · rw [pending_asked] at hy
      rcases hcases g hg with ⟨hlt, hne⟩ | rfl
      · rw [files_asked_ne hne] at ht
        exact hr.least g hlt ht y hy hearly
      · rw [h.pending_nil ha (hmapped ht) hnext] at hy
        cases hy
    · rw [Bool.and_eq_true, decide_eq_true_eq] at hall
      rcases hcases g hg with ⟨hlt, hne⟩ | rfl
      · rw [files_asked_ne hne]
        exact hr.deleted hmin hall.1 g hlt
      · rw [files_asked_self]
        exact ⟨hall.2, ha.gone hnext (ha.status.symm.trans hall.2)⟩
  | some c =>
    obtain ⟨tsc, bufNum⟩ := c
    have hview : ((s.asked f t r).view f).qttail.next = t.tail.next := by
      rw [show ((s.asked f t r).view f).qttail.next = ((s.asked f t r).files f).tail.tail.next from
        rfl, files_asked_self]
    obtain ⟨i, e, rest, hpend, -, htsc⟩ := hsynced.next tsc bufNum (hview.trans hnext)
    have hhead := h.head_le hpend
    have hsmall : tsc < UINT64_MAX := by
      have hmem : (i, e) ∈ s.pending f := by rw [hpend]; simp
      have := ((h.live.lapped f).writer.log i).small e (h.live.mem_pending hmem)
      unfold UINT64_MAX
      omega
    have hleast : ∀ best, best ≤ r.minTsc → best ≤ tsc → ∀ g : Fin k, g.val < r.looked + 1 →
        ((s.asked f t r).files g).tail.tfh = true → ∀ y ∈ (s.asked f t r).pending g,
        (s.asked f t r).Early (s.asked f t r).begun g y → best ≤ y.2.hit.tsc.toNat := by
      intro best hbest htbest g hg ht y hy hearly
      rw [pending_asked] at hy
      rcases hcases g hg with ⟨hlt, hne⟩ | rfl
      · rw [files_asked_ne hne] at ht
        exact Nat.le_trans hbest (hr.least g hlt ht y hy hearly)
      · have := hhead y hy
        simp only at this
        omega
    dsimp only
    split
    · rename_i hlt
      exact ⟨fun hmin => (by cases hmin), hleast tsc (Nat.le_of_lt hlt) (Nat.le_refl _),
        fun hmin => (by cases hmin)⟩
    · rename_i hge
      have hmin : r.min ≠ none := fun hmin => by
        rw [(hr.nothing hmin).1] at hge
        exact hge hsmall
      exact ⟨fun h => absurd h hmin, hleast r.minTsc (Nat.le_refl _) (by omega),
        fun h => absurd h hmin⟩

theorem see_curTsc (r : Round k) (f : Fin k) (t : FileTail) : (r.see f t).curTsc = r.curTsc := by
  unfold Round.see
  split
  · rfl
  · split <;> rfl

theorem kept_look (h : Kept cfg s) : ∃ s', s.look cfg = .ok s' ∧ Kept cfg s' := by
  obtain ⟨s', heq, hlive⟩ := live_look h.live
  refine ⟨s', heq, ?_⟩
  unfold look at heq
  cases hloop : s.loop with
  | watching => rw [hloop] at heq; cases heq; exact h
  | returned => rw [hloop] at heq; cases heq; exact h
  | round r =>
    rw [hloop] at heq
    dsimp only at heq
    split at heq
    swap
    · cases heq; exact h
    rename_i hlt
    have hf : (⟨r.looked, hlt⟩ : Fin k).val = r.looked := rfl
    generalize (⟨r.looked, hlt⟩ : Fin k) = f at heq hf
    obtain ⟨t, hnext, ha⟩ := (h.live.tracks f).nextTsc (s.contents cfg f)
    rw [hnext] at heq
    cases heq
    have hsynced : ∀ g, System.Synced (cfg g).n (cfg g).spec (cfg g).logStart
        ((s.asked f t r).view g) (s.view g).origins (s.pending g) := fun g => by
      by_cases hg : g = f
      · subst hg
        rw [view_asked_self cfg ha]
        split
        · exact System.synced_nextTsc (h.live.lapped g) (h.synced g)
        · exact h.synced g
      · rw [view_asked_ne hg]
        exact h.synced g
    have hmapped : ∀ g, ((s.asked f t r).files g).tail.tfh = true → (s.files g).tail.tfh = true :=
      fun g ht => by
        by_cases hg : g = f
        · subst hg
          rw [files_asked_self] at ht
          exact ha.mapped ht
        · rwa [files_asked_ne hg] at ht
    have hclock : (s.asked f t r).clock = s.clock := by
      unfold clock
      rw [show (s.asked f t r).loop = .round (r.see f t) from rfl, hloop]
      exact congrArg UInt64.toNat (see_curTsc r f t)
    refine ⟨hlive, fun g => ?_, fun g i rb hk => ?_, fun g ht m hm hmf hp => ?_, h.begun,
      fun r' hr' => ?_, fun p hp x hx g ht y hy => ?_, h.order, fun hr => by cases hr⟩
    · rw [pending_asked]
      exact hsynced g
    · rw [hclock, pending_asked]
      by_cases hg : g = f
      · subst hg
        rw [files_asked_self, ha.rbs] at hk
        exact h.patient g i rb hk
      · rw [files_asked_ne hg] at hk
        exact h.patient g i rb hk
    · rw [pending_asked] at hp
      by_cases hold : (s.files g).tail.tfh = true
      · -- the file is given up now, as nothing is pending in it
        by_cases hg : g = f
        · subst hg
          rw [files_asked_self] at ht
          rw [h.pending_nil ha hold (ha.tracks.choice ht)] at hp
          cases hp
        · rw [files_asked_ne hg, hold] at ht
          cases ht
      · exact h.late g (by simpa using hold) m hm hmf hp
    · cases hr'
      exact (h.round r hloop).see h hf ha (hsynced f)
    · rw [pending_asked] at hy
      exact h.printed p hp x hx g (hmapped g ht) y hy

/-! ## The end of a round -/

/-- The messages of the others are not concerned. -/
theorem Printed.sentTo {curTsc : UInt64} (hp : Printed cfg f curTsc s s') (g : Fin k) :
    s'.sentTo g = s.sentTo g := by
  unfold TailMany.sentTo
  rw [hp.sent]

theorem Printed.pending_ne {curTsc : UInt64} (hp : Printed cfg f curTsc s s') (hg : g ≠ f) :
    s'.pending g = s.pending g :=
  pending_congr (hp.sentTo g) (congrArg System.prints (hp.others g hg))

/-- What the printed file sees: its first pending message has its turn. -/
theorem Kept.turn (hn : ∀ f, (cfg f).n ≤ 80) (h : Kept cfg s) {r : Round k}
    (hloop : s.loop = .round r) {bufNum : Nat} (hmin : r.min = some (f, bufNum))
    (hp : Printed cfg f r.curTsc s s') : ∃ i e rest, s.pending f = (i, e) :: rest
      ∧ bufNum = i.val ∧ r.minTsc = e.hit.tsc.toNat
      ∧ System.Turn (cfg f).n (cfg f).spec (cfg f).logStart (s.view f) (s.view f).origins i e rest
        r.curTsc.toNat (s'.view f) := by
  have hnext := h.live.choice r hloop f bufNum hmin
  obtain ⟨i, e, rest, hpend, rfl, htsc⟩ := h.head hnext
  have hsynced := h.synced f
  have hcor : ∀ rb, (s.view f).qttail.rbs[i.val]? = some rb →
      rb.corruption < RingBuffer.corruptionThreshold := fun rb hk => by
    have h1 := h.patient f i rb hk
    have h2 := patience_le_two s.clock (System.ofLevel i (s.pending f))
    unfold RingBuffer.corruptionThreshold
    omega
  rw [hpend] at hsynced
  have hturn := hsynced.turn (hn f) (h.live.lapped f) (htsc ▸ hnext) hcor r.curTsc
  rw [← hp.view] at hturn
  exact ⟨i, e, rest, hpend, rfl, htsc, hturn⟩

/-- What a call of `print` does to the invariant, apart from the file that is
printed. -/
theorem kept_printed (hn : ∀ f, (cfg f).n ≤ 80) (h : Kept cfg s) {r : Round k}
    (hloop : s.loop = .round r) (hlooked : ¬ r.looked < k) {x : Sent}
    (hpend : x ∈ s.pending f) (htsc : r.minTsc = x.2.hit.tsc.toNat) {curTsc : UInt64}
    (hp : Printed cfg f curTsc s s') {ps : List Print}
    (hps : s'.prints = s.prints ++ ps.map fun p => ⟨f, p, s.begun⟩)
    (horigin : ∀ p ∈ ps, p.origin = some x) (hlen : ps.length ≤ 1)
    (hsub : ∀ y ∈ s'.pending f, y ∈ s.pending f)
    (hsynced : System.Synced (cfg f).n (cfg f).spec (cfg f).logStart (s'.view f)
      (s'.view f).origins (s'.pending f))
    (hpatient : ∀ (i : Fin NumTraceLevels) rb, (s'.view f).qttail.rbs[i.val]? = some rb →
      rb.corruption ≤ patience (2 ^ 64) (System.ofLevel i (s'.pending f))) : Kept cfg s' := by
  have hpending : ∀ g, ∀ y ∈ s'.pending g, y ∈ s.pending g := fun g y hy => by
    by_cases hg : g = f
    · subst hg; exact hsub y hy
    · rwa [hp.pending_ne hg] at hy
  have hmapped : ∀ g, (s'.files g).tail.tfh = (s.files g).tail.tfh := fun g => by
    by_cases hg : g = f
    · subst hg
      obtain ⟨tail, htail⟩ := hp.tail
      rw [htail]
    · rw [hp.files g hg]
  have hearly : ∀ {begun g y}, s'.Early begun g y → s.Early begun g y := fun hy => by
    unfold Early at hy ⊢
    rwa [hp.sent] at hy
  have hclock : s'.clock = 2 ^ 64 := by
    unfold clock
    rw [hp.loop]
  have hround := h.round r hloop
  refine ⟨live_printed hn h.live hp, fun g => ?_, fun g i rb hk => ?_, fun g ht m hm hf hy => ?_,
    ⟨?_, fun p hmem => ?_⟩, fun r' hr' => ?_, fun p hmem y hy g hg z hz hz' => ?_, ?_, fun hr => ?_⟩
  · by_cases hg : g = f
    · subst hg
      exact hsynced
    · have hold := h.synced g
      rw [hp.others g hg, hp.pending_ne hg]
      exact ⟨hold.sent, hold.origins, hold.corruptions, hold.readers, hold.next⟩
  · rw [hclock]
    by_cases hg : g = f
    · subst hg
      exact hpatient i rb hk
    · rw [hp.files g hg] at hk
      rw [hp.pending_ne hg]
      have hle := patience_later (Nat.le_of_lt r.curTsc.toNat_lt) (System.ofLevel i (s.pending g))
      have hcor := h.patient g i rb hk
      unfold clock at hcor
      rw [hloop] at hcor
      exact Nat.le_trans hcor hle
  · rw [hmapped] at ht
    rw [hp.sent] at hm
    exact h.late g ht m hm hf (hpending g _ hy)
  · rw [hp.begun, hp.sent]
    exact h.begun.1
  · rw [hp.sent]
    rw [hps, List.mem_append, List.mem_map] at hmem
    rcases hmem with hmem | ⟨q, -, rfl⟩
    · exact h.begun.2 p hmem
    · exact h.begun.1
  · rw [hp.loop] at hr'
    cases hr'
  · rw [hmapped] at hg
    rw [hps, List.mem_append, List.mem_map] at hmem
    rcases hmem with hmem | ⟨q, hq, rfl⟩
    · exact h.printed p hmem y hy g hg z (hpending g z hz) (hearly hz')
    · rw [horigin q hq, Option.some.injEq] at hy
      subst hy
      rw [← htsc]
      exact hround.least g (by have := g.isLt; omega) hg z (hpending g z hz) (hearly hz')
  · rw [hps, List.pairwise_append]
    refine ⟨h.order.imp fun hpq y z hy hz hz' => hpq y z hy hz (hearly hz'), ?_, ?_⟩
    · rcases ps with _ | ⟨p, _ | ⟨q, ps⟩⟩
      · exact List.Pairwise.nil
      · exact List.pairwise_singleton _ _
      · simp at hlen
    · intro p hmem q hq y z hy hz hz'
      obtain ⟨q', hq', rfl⟩ := List.mem_map.mp hq
      rw [horigin q' hq', Option.some.injEq] at hz
      subst hz
      exact h.printed p hmem y hy f hp.mapped x hpend (hearly hz')
  · rw [hp.loop] at hr
    cases hr

/-- The chosen message is printed, or waits for a later clock. -/
theorem kept_print (hn : ∀ f, (cfg f).n ≤ 80) (h : Kept cfg s) {r : Round k}
    (hloop : s.loop = .round r) (hlooked : ¬ r.looked < k) {bufNum : Nat}
    (hmin : r.min = some (f, bufNum)) :
    ∃ s', s.print cfg f r.minTsc r.curTsc bufNum = .ok s' ∧ Kept cfg s' := by
  have hnext := h.live.choice r hloop f bufNum hmin
  obtain ⟨s', heq, hp⟩ := print_spec cfg (h.live.tracks f) hnext r.curTsc
  refine ⟨s', heq, ?_⟩
  obtain ⟨i, e, rest, hpend, rfl, htsc, hturn⟩ := h.turn hn hloop hmin hp
  have hsynced := h.synced f
  rw [hpend] at hsynced
  obtain ⟨ps, hps, -, hown⟩ := hp.prints
  have hbound : s.clock = r.curTsc.toNat := by
    unfold clock
    rw [hloop]
  cases hturn with
  | prints _ hs rb hrbs hzero =>
    obtain ⟨horigins, hrest⟩ := hs.split
    have hpend' : s'.pending f = rest := hrest.symm
    have hall : ps.map Print.origin = [some (i, e)] := by
      have h1 := hs.origins
      rw [show (s'.view f).prints = s'.printsOf f from rfl, hown, List.map_append, List.map_append,
        show (s.printsOf f).map Print.origin = _ from hsynced.origins] at h1
      exact List.append_cancel_left h1
    have hlen : ps.length = 1 := by
      have := congrArg List.length hall
      simpa using this
    refine kept_printed hn h hloop hlooked (x := (i, e)) (by rw [hpend]; simp) htsc hp hps
      (fun p hmem => ?_) (Nat.le_of_eq hlen) (fun y hy => ?_) ?_ fun j rb' hk => ?_
    · have hmem' : p.origin ∈ ps.map Print.origin := List.mem_map_of_mem hmem
      rw [hall] at hmem'
      exact List.mem_singleton.mp hmem'
    · rw [hpend'] at hy
      rw [hpend]
      exact List.mem_cons_of_mem _ hy
    · rw [← horigins, hpend']
      exact hs
    · rw [hpend']
      rw [hrbs, List.getElem?_set] at hk
      split at hk
      · split at hk
        · cases hk
          rw [hzero]
          exact Nat.zero_le _
        · cases hk
      · rename_i hij
        have hold := h.patient f j rb' hk
        rw [hpend, System.ofLevel_cons, if_neg (fun h => hij (congrArg Fin.val h))] at hold
        have hle := patience_later (Nat.le_of_lt r.curTsc.toNat_lt) (System.ofLevel j rest)
        rw [hbound] at hold
        exact Nat.le_trans hold hle
  | waits href rb hk heq' =>
    have hprints' : s'.printsOf f = s.printsOf f := congrArg System.prints heq'
    have hnil : ps = [] := by
      rw [hown] at hprints'
      exact List.append_right_eq_self.mp hprints'
    have hpend' : s'.pending f = s.pending f :=
      pending_congr (hp.sentTo f) hprints'
    have horigins : (s'.view f).origins = (s.view f).origins := by
      unfold System.origins
      rw [heq']
    refine kept_printed hn h hloop hlooked (x := (i, e)) (by rw [hpend]; simp) htsc hp hps
      (fun p hmem => ?_) (by rw [hnil]; exact Nat.zero_le _) (fun y hy => hpend' ▸ hy) ?_
      fun j rb' hk' => ?_
    · rw [hnil] at hmem
      cases hmem
    · rw [horigins, hpend', hpend, heq']
      exact hsynced.retry hk _
    · rw [hpend']
      rw [heq'] at hk'
      have hlast : ∀ j rb', (s.view f).qttail.rbs[j.val]? = some rb' →
          rb'.corruption ≤ patience r.curTsc.toNat (System.ofLevel j (s.pending f)) :=
        fun j rb' hk => hbound ▸ h.patient f j rb' hk
      simp only [List.getElem?_set] at hk'
      split at hk'
      · rename_i hij
        obtain rfl : i = j := Fin.ext hij
        split at hk'
        · cases hk'
          have hone : System.ofLevel i (s.pending f) = e :: System.ofLevel i rest := by
            rw [hpend, System.ofLevel_cons, if_pos rfl]
          have hold := hlast i rb hk
          obtain ⟨x, hx, hle⟩ := exists_of_refused href
          have hlt : _ ≤ patience (2 ^ 64) _ := patience_lt hx hle x.hit.tsc.toNat_lt
          rw [hone] at hold ⊢
          dsimp only
          omega
        · cases hk'
      · have hle' := patience_later (Nat.le_of_lt r.curTsc.toNat_lt)
          (System.ofLevel j (s.pending f))
        exact Nat.le_trans (hlast j rb' hk') hle'

theorem kept_finish (hn : ∀ f, (cfg f).n ≤ 80) (h : Kept cfg s) :
    ∃ s', s.finish cfg = .ok s' ∧ Kept cfg s' := by
  obtain ⟨s', heq, hlive⟩ := live_finish hn h.live
  refine ⟨s', heq, ?_⟩
  unfold finish at heq
  cases hloop : s.loop with
  | watching => rw [hloop] at heq; cases heq; exact h
  | returned => rw [hloop] at heq; cases heq; exact h
  | round r =>
    rw [hloop] at heq
    dsimp only at heq
    split at heq
    · cases heq
      exact h
    rename_i hlooked
    cases hmin : r.min with
    | some c =>
      obtain ⟨f, bufNum⟩ := c
      rw [hmin] at heq
      obtain ⟨s'', heq', h'⟩ := kept_print hn h hloop hlooked hmin
      cases heq.symm.trans heq'
      exact h'
    | none =>
      rw [hmin] at heq
      cases heq
      have hround := h.round r hloop
      have hclock : s.clock ≤ 2 ^ 64 := by
        unfold clock
        rw [hloop]
        exact Nat.le_of_lt r.curTsc.toNat_lt
      refine ⟨hlive, h.synced, fun f i rb hk => ?_, h.late, h.begun, fun r' hr' => ?_, h.printed,
        h.order, fun hr g => ?_⟩
      · have hclock' : ∀ b : Bool, ({ s with loop := if b then .returned else .watching } :
            TailMany k).clock = 2 ^ 64 := fun b => by cases b <;> rfl
        rw [hclock']
        exact Nat.le_trans (h.patient f i rb hk) (patience_later hclock _)
      · dsimp only at hr'
        split at hr' <;> cases hr'
      · dsimp only at hr
        split at hr
        · rename_i hall
          exact hround.deleted hmin hall g (by have := g.isLt; omega)
        · cases hr

/-! ## Every run -/

/-- The step lemma. -/
theorem kept_step (hn : ∀ f, (cfg f).n ≤ 80) (h : Kept cfg s) {a : Action k}
    (ha : Spared cfg s a) : ∃ s', s.step cfg a = .ok s' ∧ Kept cfg s' := by
  cases a with
  | write f i hit tsc1 => exact ⟨_, rfl, kept_write h tsc1 ha.1 ha.2⟩
  | delete f => exact kept_delete h f
  | begin curTsc => exact ⟨_, rfl, kept_begin h ha⟩
  | look => exact kept_look h
  | finish => exact kept_finish hn h

/-- The run lemma. -/
theorem kept_runs (hn : ∀ f, (cfg f).n ≤ 80) {s₀ : TailMany k} (h : Kept cfg s₀)
    (hr : Runs cfg (Spared cfg) s₀ s) : Kept cfg s := by
  induction hr with
  | refl => exact h
  | tail _ hstep ih =>
    obtain ⟨a, ha, heq⟩ := hstep
    obtain ⟨s', heq', h'⟩ := kept_step hn ih ha
    rw [heq, Except.ok.injEq] at heq'
    rwa [heq']

/-- The invariant holds when all files are opened. -/
theorem kept_starts {tfs : Fin k → TraceFile}
    (hn : ∀ f, (cfg f).n ≤ 80)
    (hw : ∀ f, TraceFile.WriterOk (Described (cfg f).msgs) (cfg f).n (cfg f).spec (cfg f).logStart
      (tfs f)) (h : Starts cfg tfs s) : Kept cfg s := by
  have htail := starts_tail hn hw h
  have hpending : ∀ f, s.pending f = [] := fun f => by
    unfold pending
    rw [h.sentTo_nil]
    exact List.drop_nil
  refine ⟨live_starts hn hw h, fun f => ?_, fun f i rb hk => ?_, fun f hf => ?_, ⟨?_, ?_⟩,
    fun r hr => ?_, fun p hp => ?_, ?_, fun hr => ?_⟩
  · obtain ⟨rbs, -, hview, hr, -⟩ := htail f
    rw [hpending, hview]
    exact ⟨rfl, rfl, rfl, hr.imp fun i rb hf => ⟨hf.1, _, hf.2⟩, fun _ _ h => by cases h⟩
  · obtain ⟨rbs, heq, -, -, hcor⟩ := htail f
    rw [heq] at hk
    rw [hcor rb (List.mem_of_getElem? hk)]
    exact Nat.zero_le _
  · obtain ⟨rbs, heq, -⟩ := htail f
    rw [heq] at hf
    cases hf
  · rw [h.begun]
    exact Nat.zero_le _
  · rw [h.prints]
    exact fun p hp => by cases hp
  · rw [h.loop] at hr
    cases hr
  · rw [h.prints] at hp
    cases hp
  · rw [h.prints]
    exact List.Pairwise.nil
  · rw [h.loop] at hr
    cases hr

/-- Any number of files whose writers spare what was not printed yet, in any
interleaving with `tailMany`, whose clock may be overtaken by the writers in a
round: the lines of each file are the messages recorded in it, in order and
without a gap; a message is printed behind a younger one only if it was
recorded after the round of that one had begun; no corruption is reported; and
when `tailMany` returns, all files were deleted and nothing is missing that was
recorded before qttail learned of it. -/
theorem tailMany_in_order (hn : ∀ f, (cfg f).n ≤ 80) {cs : Fin k → MsgCounters}
    {tfs : Fin k → TraceFile} (hw : ∀ f, TraceFile.Written (Described (cfg f).msgs) (cfg f).n
      (cfg f).spec (cfg f).logStart (cs f) (tfs f)) {s₀ : TailMany k} (hs : Starts cfg tfs s₀)
    (hr : Runs cfg (Spared cfg) s₀ s) : InOrder cfg s :=
  (kept_runs hn (kept_starts hn (fun f => TraceFile.writerOk_written (hw f)) hs) hr).inOrder

/-- The first message of a file overwrites nothing. -/
theorem spared_first (hsent : s.sentTo f = []) {h : Hit}
    (ho : TraceFile.WriteOk (Described (cfg f).msgs) (cfg f).n (s.files f).tf h)
    (i : Fin NumTraceLevels) (tsc1 : Nat) : Spared cfg s (.write f i h tsc1) := by
  refine ⟨ho, fun p hp => ?_⟩
  rw [show (s.view f).sent = s.sentTo f from rfl, hsent] at hp
  cases hp

end TailMany

end QuickTrace
