/-
QuickTrace.Tail.ExactlyOnce — what a tailing reader prints.

`Once` holds in every run: no message is printed twice from its own record,
and none that was recorded before the fast-forward, even when the writer laps
the reader. Its invariant (`Lapped`) is that every message which must not be
printed is behind the reader of its level.

`InOrder` holds when the writer spares what was not printed yet: the printed
messages are the first part of what was sent, and the rest of it is what the
readers of the levels have pending (`Synced`), so that the choice of `nextTsc`
falls on the next message of all levels.
-/
import QuickTrace.Tail.System

namespace QuickTrace

open QuickTrace.Lib RingBuf Level

/-! ## The levels of the file -/

namespace TraceFile

variable {n : Nat} {tf : TraceFile}

/-- The log of a level behind a message. -/
theorem log_trace {i : Fin NumTraceLevels} {h : Hit} (hon : tf.cs.off h.id = false)
    (j : Fin NumTraceLevels) : ((tf.trace n i h).ring j).log
      = (tf.ring j).log ++ if j = i then [⟨(tf.log i).rb.startPos, h⟩] else [] := by
  by_cases hij : j = i
  · subst hij
    have hon' : (tf.ring j).cs.off h.id = false := hon
    rw [trace_ring_self, trace_log, hon', if_pos rfl]
    rfl
  · rw [ring_trace_ne hij, if_neg hij, List.append_nil]
    rfl

/-- What the log of a level holds behind a message. -/
theorem mem_log_trace {i j : Fin NumTraceLevels} {h : Hit} (hon : tf.cs.off h.id = false)
    {e : Recorded} (he : e ∈ ((tf.trace n i h).ring j).log) : e ∈ (tf.ring j).log ∨ e.hit = h := by
  rw [log_trace hon, List.mem_append] at he
  refine he.imp_right fun hnew => ?_
  split at hnew
  · rw [List.mem_singleton.mp hnew]
  · cases hnew

end TraceFile

namespace System

variable {msgs : Messages} {n : Nat} {spec : SizeSpec} {logStart : Nat} {s : System}

/-! ## What is stated -/

/-- The line shows the message. -/
def ShowsSent (msgs : Messages) (n : Nat) (l : Line) (p : Sent) : Prop :=
  l.level = p.1.val ∧ Shows msgs n l p.2.hit

instance (msgs : Messages) (n : Nat) (l : Line) (p : Sent) : Decidable (ShowsSent msgs n l p) :=
  inferInstanceAs (Decidable (_ ∧ _))

/-- A line that was read from a standing record shows its message; such a
message was recorded since the fast-forward, and there is one such line of
it. -/
structure Once (msgs : Messages) (n : Nat) (s : System) : Prop where
  lines : s.qttail.out.lines = s.prints.map Print.line
  shows : ∀ p ∈ s.prints, ∀ x, p.origin = some x → ShowsSent msgs n p.line x
  sent : ∀ x ∈ s.origins, x ∈ s.sent
  nodup : s.origins.Nodup

/-- The lines show the messages in the order in which they were recorded, up
to some message, and all of them when no next one is found; no corruption was
reported. -/
structure InOrder (msgs : Messages) (n : Nat) (s : System) : Prop where
  corruptions : s.qttail.corruptions = []
  lines : ∃ printed rest, s.sent = printed ++ rest
    ∧ List.Forall₂ (ShowsSent msgs n) s.qttail.out.lines printed
    ∧ ((s.qttail.nextTsc s.tf.mem).next = none → rest = [])

/-! ## The invariant of every run -/

/-- What must not be printed any more is behind the reader. -/
structure Behind (n : Nat) (spec : SizeSpec) (logStart : Nat) (s : System)
    (i : Fin NumTraceLevels) (rb : RingBuffer) : Prop where
  reader : ReaderOf (spec.levelStart logStart i) (spec.levelSize i) rb
  level : rb.level = i.val
  past : ∀ e ∈ (s.tf.ring i).log, (i, e) ∉ s.sent ∨ (i, e) ∈ s.origins →
    Past n (spec.levelStart logStart i) (spec.levelSize i) (s.tf.ring i) rb e

/-- The invariant of a reader that may be lapped. -/
structure Lapped (msgs : Messages) (n : Nat) (spec : SizeSpec) (logStart : Nat) (s : System) :
    Prop where
  once : Once msgs n s
  writer : TraceFile.WriterOk (Described msgs) n spec logStart s.tf
  sent_log : ∀ x ∈ s.sent, x.2 ∈ (s.tf.ring x.1).log
  sorted : s.sent.Pairwise fun x y => x.2.hit.tsc.toNat < y.2.hit.tsc.toNat
  readers : Readers (Behind n spec logStart s) s.qttail.rbs

theorem Past.frame {base size : Nat} {r : Level} {rb : RingBuffer} {e : Recorded}
    (h : Past n base size r rb e) (cs : MsgCounters) (m : Mem) :
    Past n base size { r with cs := cs, mem := m } rb e := by
  cases h with
  | older h => exact .older h
  | overwritten h => exact .overwritten h
  | last htsc hcur => exact .last htsc hcur

/-- A message of the writer keeps the invariant. -/
theorem lapped_write (h : Lapped msgs n spec logStart s) {i : Fin NumTraceLevels} {hit : Hit}
    (ho : TraceFile.WriteOk (Described msgs) n s.tf hit) :
    Lapped msgs n spec logStart (s.step msgs n spec logStart (.write i hit)) := by
  have hlog := TraceFile.log_trace (n := n) (i := i) ho.on
  refine ⟨⟨h.once.lines, h.once.shows, fun x hx => List.mem_append_left _ (h.once.sent x hx),
    h.once.nodup⟩, TraceFile.writerOk_trace h.writer i ho, fun x hx => ?_, ?_, ?_⟩
  · simp only [step] at hx ⊢
    rw [hlog x.1]
    rcases List.mem_append.mp hx with hx | hx
    · exact List.mem_append_left _ (h.sent_log x hx)
    · rw [List.mem_singleton.mp hx, if_pos rfl]
      exact List.mem_append_right _ (List.mem_singleton_self _)
  · simp only [step]
    rw [List.pairwise_append]
    refine ⟨h.sorted, List.pairwise_singleton _ _, fun x hx y hy => ?_⟩
    rw [List.mem_singleton.mp hy]
    exact ho.later x.1 x.2 (h.sent_log x hx)
  · refine h.readers.imp fun j rb hb => ⟨hb.reader, hb.level, fun e he hnot => ?_⟩
    simp only [step] at he hnot ⊢
    rw [hlog j, List.mem_append] at he
    by_cases hold : e ∈ (s.tf.ring j).log
    · have hpast := hb.past e hold (hnot.imp (fun h1 h2 => h1 (List.mem_append_left _ h2)) id)
      by_cases hij : j = i
      · subst hij
        rw [TraceFile.trace_ring_self]
        exact hpast.trace (h.writer.inv j) ho.on (ho.later j e hold)
      · rw [TraceFile.ring_trace_ne hij]
        exact Past.frame hpast _ _
    · -- the new message was sent, and not printed
      have hnew := he.resolve_left hold
      split at hnew
      · rename_i hij
        subst hij
        rw [List.mem_singleton] at hnew
        subst hnew
        rcases hnot with hnot | hnot
        · exact absurd (List.mem_append_right _ (List.mem_singleton_self _)) hnot
        · exact absurd (h.sent_log _ (h.once.sent _ hnot)) hold
      · cases hnew

theorem lapped_nextTsc (h : Lapped msgs n spec logStart s) :
    Lapped msgs n spec logStart (s.step msgs n spec logStart .nextTsc) := by
  simp only [step]
  rw [Tail.nextTsc_rest]
  refine ⟨⟨h.once.lines, h.once.shows, h.once.sent, h.once.nodup⟩, h.writer, h.sent_log, h.sorted,
    h.readers.imp fun j rb hb => ⟨hb.reader, hb.level, hb.past⟩⟩

/-- A step of one reader that keeps what is behind it, together with the
lines it prints. -/
theorem lapped_move (h : Lapped msgs n spec logStart s) {i : Fin NumTraceLevels}
    {rb rb' : RingBuffer} (hb : Behind n spec logStart s i rb)
    (hkeeps : Keeps n (spec.levelStart logStart i) (spec.levelSize i) (s.tf.ring i) rb rb')
    {next : Option (Nat × Nat)} {out : Output} {corruptions : List CorruptionError}
    {ps : List Print} (hlines : out.lines = s.qttail.out.lines ++ ps.map Print.line)
    (hshows : ∀ p ∈ ps, ∀ x, p.origin = some x → ShowsSent msgs n p.line x)
    (hnodup : (ps.filterMap Print.origin).Nodup)
    (hnew : ∀ x ∈ ps.filterMap Print.origin, x ∈ s.sent ∧ x ∉ s.origins ∧ x.1 = i
      ∧ Past n (spec.levelStart logStart i) (spec.levelSize i) (s.tf.ring i) rb' x.2) :
    Lapped msgs n spec logStart
      { s with qttail := ⟨s.qttail.rbs.set i rb', next, out, corruptions⟩,
               prints := s.prints ++ ps } := by
  refine ⟨⟨?_, ?_, ?_, ?_⟩, h.writer, h.sent_log, h.sorted, h.readers.set i ?_ ?_⟩
  · rw [hlines, h.once.lines, List.map_append]
  · intro p hp
    exact (List.mem_append.mp hp).elim (h.once.shows p) (hshows p)
  · intro x hx
    rw [origins, List.filterMap_append, List.mem_append] at hx
    exact hx.elim (h.once.sent x) fun hx => (hnew x hx).1
  · rw [origins, List.filterMap_append, List.nodup_append]
    exact ⟨h.once.nodup, hnodup, fun x hx y hy hxy => (hnew y hy).2.1 (hxy ▸ hx)⟩
  · refine ⟨hkeeps.reader, hkeeps.level.trans hb.level, fun e he hnot => ?_⟩
    rw [origins, List.filterMap_append, List.mem_append, ← or_assoc] at hnot
    rcases hnot with hnot | hnot
    · exact hkeeps.past e (hb.past e he hnot)
    · exact (hnew _ hnot).2.2.2
  · intro j rb'' hij hb''
    refine ⟨hb''.reader, hb''.level, fun e he hnot => hb''.past e he ?_⟩
    rw [origins, List.filterMap_append, List.mem_append, ← or_assoc] at hnot
    exact hnot.resolve_right fun hx => hij (hnew _ hx).2.2.1

/-- What stands at the cursor of a reader. -/
theorem origin_eq (spec : SizeSpec) (logStart : Nat) {i : Fin NumTraceLevels} {rb : RingBuffer}
    (hk : s.qttail.rbs[i.val]? = some rb) : s.origin spec logStart i.val
      = (recordAt (spec.levelStart logStart i) (s.tf.ring i) rb.cur).map (Prod.mk i) := by
  rw [origin, dif_pos i.isLt, hk]
  rfl

/-- A standing record at the cursor was sent and not printed yet. -/
theorem Lapped.unread (h : Lapped msgs n spec logStart s) {i : Fin NumTraceLevels}
    {rb : RingBuffer} (hb : Behind n spec logStart s i rb) {e : Recorded}
    (hrec : recordAt (spec.levelStart logStart i) (s.tf.ring i) rb.cur = some e)
    (hle : rb.lastTsc ≤ e.hit.tsc.toNat) : (i, e) ∈ s.sent ∧ (i, e) ∉ s.origins := by
  obtain ⟨hstand, hstart⟩ := standing_of_recordAt hrec
  by_contra hcon
  have hpast := hb.past e hstand.mem_log (by
    by_cases hsent : (i, e) ∈ s.sent
    · exact Or.inr (Classical.not_not.mp fun hno => hcon ⟨hsent, hno⟩)
    · exact Or.inl hsent)
  exact hpast.cur_ne (spec.geometry i) (h.writer.inv i) hstand hle hstart.symm

/-- One call of `tailBuffer` keeps the invariant. -/
theorem lapped_tailBuffer (hn : n ≤ 80) (h : Lapped msgs n spec logStart s) (curTsc : UInt64) :
    Lapped msgs n spec logStart (s.step msgs n spec logStart (.tailBuffer curTsc)) := by
  cases hnext : s.qttail.next with
  | none => simpa only [step, hnext] using h
  | some next =>
  obtain ⟨tsc, bufNum⟩ := next
  cases hk : s.qttail.rbs[bufNum]? with
  | none =>
    simp only [step, hnext, Tail.tailBuffer_none hk, List.drop_length, List.map_nil,
      List.append_nil]
    exact h
  | some rb =>
  obtain ⟨i, rfl, hb⟩ := h.readers.index hk
  have hdump := dump_read hn (spec.geometry i) (h.writer.inv i) (h.writer.log i)
    (h.writer.started i) hb.reader tsc curTsc.toNat s.qttail.out
  obtain ⟨ok, next', corruptions', htail⟩ := Tail.tailBuffer_eq s.tf.mem msgs tsc curTsc.toNat hk
  rw [show (s.tf.ring i).mem = s.tf.mem from rfl] at hdump
  generalize rb.dump s.tf.mem msgs true tsc curTsc.toNat s.qttail.out = d at hdump htail
  generalize rb.afterDump d.1 = rb' at hdump htail
  obtain ⟨ls, hlines, hkeeps, hread⟩ := hdump
  simp only [step, hnext, htail, hlines, List.drop_left, origin_eq spec logStart hk]
  have hmap : ∀ o, d.2.lines = s.qttail.out.lines
      ++ (ls.map fun line => (⟨line, o⟩ : Print)).map Print.line := fun o => by
    rw [hlines, List.map_map]
    exact congrArg _ (List.map_id ls).symm
  cases hread with
  | nothing _ => exact lapped_move h hb hkeeps (hmap _) (by simp) (by simp) (by simp)
  | foreign _ l hrec =>
    rw [hrec]
    exact lapped_move h hb hkeeps (hmap _) (by simp) (by simp) (by simp)
  | own e l hrec hle hlevel hs =>
    obtain ⟨hsent, hnot⟩ := h.unread hb hrec hle
    rw [hrec]
    refine lapped_move h hb hkeeps (hmap _) ?_ (by simp) ?_
    · intro p hp x hx
      rw [List.map_singleton, List.mem_singleton] at hp
      subst hp
      cases hx
      exact ⟨hlevel.trans hb.level, hs⟩
    · intro x hx
      obtain rfl : x = (i, e) := by simpa using hx
      exact ⟨hsent, hnot, rfl, past_advance hb.reader (standing_of_recordAt hrec).2.symm⟩

/-- The step lemma. -/
theorem lapped_step (hn : n ≤ 80) (h : Lapped msgs n spec logStart s) {a : Action}
    (ha : Allowed msgs n s a) : Lapped msgs n spec logStart (s.step msgs n spec logStart a) := by
  cases a with
  | write i hit => exact lapped_write h ha
  | nextTsc => exact lapped_nextTsc h
  | tailBuffer curTsc => exact lapped_tailBuffer hn h curTsc

/-! ## The start -/

/-- A map over a list that succeeds everywhere. -/
theorem mapM_some {α β : Type} {f : α → Option β} {g : α → β} : ∀ (l : List α),
    (∀ a ∈ l, f a = some (g a)) → l.mapM f = some (l.map g)
  | [], _ => rfl
  | a :: l, h => by
      rw [List.mapM_cons, h a (by simp), mapM_some l fun x hx => h x (by simp [hx])]
      rfl

/-- The reader of a level follows it, with nothing pending. -/
def Fresh (n : Nat) (spec : SizeSpec) (logStart : Nat) (tf : TraceFile) (i : Fin NumTraceLevels)
    (rb : RingBuffer) : Prop :=
  rb.level = i.val ∧ Follows n (spec.levelStart logStart i) (spec.levelSize i) (tf.ring i) rb
    (tf.ring i).log []

/-- The fast-forward succeeds. -/
theorem start_eq (hn : n ≤ 80) {tf : TraceFile}
    (hw : TraceFile.WriterOk (Described msgs) n spec logStart tf) :
    ∃ rbs, start msgs spec logStart tf = some ⟨tf, ⟨rbs, none, Output.empty, []⟩, [], []⟩
      ∧ Readers (Fresh n spec logStart tf) rbs := by
  have hall := fun i : Fin NumTraceLevels => follows_fastforward hn (spec.geometry i) (hw.inv i)
    (hw.log i) (hw.started i) i.val
  choose f hf hlevel hfollows using hall
  refine ⟨(List.finRange NumTraceLevels).map f, ?_, by simp, fun i rb hk => ?_⟩
  · rw [start, mapM_some (g := f) _ fun i _ => ?_]
    · rfl
    · have hi : (RingBuffer.create i.val (spec.levelStart logStart i)
          (spec.levelEnd logStart i)).fastforward tf.mem msgs true (spec.levelSize i)
          = .ok (some (f i)) := hf i
      rw [hi]
  · rw [List.getElem?_map, List.getElem?_eq_getElem (by simp), List.getElem_finRange] at hk
    cases hk
    exact ⟨hlevel i, hfollows i⟩

/-- The invariant holds when the fast-forward is done. -/
theorem lapped_start {tf : TraceFile} {rbs : List RingBuffer}
    (hw : TraceFile.WriterOk (Described msgs) n spec logStart tf)
    (hr : Readers (Fresh n spec logStart tf) rbs) :
    Lapped msgs n spec logStart ⟨tf, ⟨rbs, none, Output.empty, []⟩, [], []⟩ where
  once := ⟨rfl, by simp, by simp [origins], by simp [origins]⟩
  writer := hw
  sent_log := by simp
  sorted := List.Pairwise.nil
  readers := hr.imp fun i rb hf => by
    refine ⟨hf.2.reader, hf.1, fun e _ _ => ?_⟩
    by_cases hs : Standing (spec.levelStart logStart i) (tf.ring i) e
    · exact hf.2.past (hw.inv i) (hw.log i) (hw.started i) hs
    · exact .overwritten hs

/-! ## The invariant of a spared run -/

/-- The messages of one level. -/
def ofLevel (i : Fin NumTraceLevels) (ps : List Sent) : List Recorded :=
  ps.filterMap fun p => if p.1 = i then some p.2 else none

@[simp] theorem ofLevel_nil (i : Fin NumTraceLevels) : ofLevel i [] = [] := rfl

theorem ofLevel_cons (i : Fin NumTraceLevels) (p : Sent) (ps : List Sent) :
    ofLevel i (p :: ps) = if p.1 = i then p.2 :: ofLevel i ps else ofLevel i ps := by
  unfold ofLevel
  rw [List.filterMap_cons]
  split <;> simp_all

theorem ofLevel_concat (i : Fin NumTraceLevels) (ps : List Sent) (p : Sent) :
    ofLevel i (ps ++ [p]) = ofLevel i ps ++ if p.1 = i then [p.2] else [] := by
  unfold ofLevel
  rw [List.filterMap_append]
  congr 1
  split <;> simp_all

theorem mem_ofLevel {i : Fin NumTraceLevels} {ps : List Sent} {e : Recorded} :
    e ∈ ofLevel i ps ↔ (i, e) ∈ ps := by
  unfold ofLevel
  rw [List.mem_filterMap]
  constructor
  · rintro ⟨⟨j, x⟩, hp, hx⟩
    split at hx
    · rename_i hij
      cases hx
      exact hij ▸ hp
    · cases hx
  · intro hp
    exact ⟨(i, e), hp, if_pos rfl⟩

/-- The reader of a level follows it, with its part of `rest` pending. -/
def Keeping (n : Nat) (spec : SizeSpec) (logStart : Nat) (tf : TraceFile) (rest : List Sent)
    (i : Fin NumTraceLevels) (rb : RingBuffer) : Prop :=
  rb.level = i.val ∧ ∃ consumed, Follows n (spec.levelStart logStart i) (spec.levelSize i)
    (tf.ring i) rb consumed (ofLevel i rest)

/-- The messages sent are those printed and the rest, which the readers of the
levels have pending; a cached choice is the first of the rest. -/
structure Synced (n : Nat) (spec : SizeSpec) (logStart : Nat) (s : System)
    (printed rest : List Sent) : Prop where
  sent : s.sent = printed ++ rest
  origins : s.prints.map Print.origin = printed.map some
  corruptions : s.qttail.corruptions = []
  readers : Readers (Keeping n spec logStart s.tf rest) s.qttail.rbs
  next : ∀ tsc bufNum, s.qttail.next = some (tsc, bufNum) →
    ∃ i e rest', rest = (i, e) :: rest' ∧ bufNum = i.val ∧ tsc = e.hit.tsc.toNat

section

variable {printed rest : List Sent}

/-- What was printed from a standing record is the first part of what was
sent. -/
theorem Synced.origins_eq (hs : Synced n spec logStart s printed rest) : s.origins = printed := by
  have hmap : (s.prints.map Print.origin).filterMap id = (printed.map some).filterMap id :=
    congrArg _ hs.origins
  rw [List.filterMap_map, List.filterMap_map] at hmap
  exact hmap.trans List.filterMap_some

/-- What is pending was not printed. -/
theorem Synced.not_mem (h : Lapped msgs n spec logStart s)
    (hs : Synced n spec logStart s printed rest) {x : Sent} (hx : x ∈ rest) : x ∉ s.origins := by
  have hsorted := h.sorted
  rw [hs.sent, List.pairwise_append] at hsorted
  rw [hs.origins_eq]
  exact fun hp => Nat.lt_irrefl _ (hsorted.2.2 x hp x hx)

/-- A message that spares what is pending is pending behind it. -/
theorem synced_write (h : Lapped msgs n spec logStart s)
    (hs : Synced n spec logStart s printed rest) {i : Fin NumTraceLevels} {hit : Hit}
    (ho : TraceFile.WriteOk (Described msgs) n s.tf hit)
    (hspare : Spares n s (.write i hit)) :
    Synced n spec logStart (s.step msgs n spec logStart (.write i hit)) printed
      (rest ++ [(i, ⟨(s.tf.log i).rb.startPos, hit⟩)]) := by
  refine ⟨?_, hs.origins, hs.corruptions, hs.readers.imp ?_, fun tsc bufNum hnext => ?_⟩
  · simp only [step]
    rw [hs.sent, List.append_assoc]
  · rintro j rb ⟨hlevel, consumed, hf⟩
    refine ⟨hlevel, consumed, ?_⟩
    simp only [step]
    rw [ofLevel_concat]
    by_cases hij : j = i
    · subst hij
      rw [TraceFile.trace_ring_self, if_pos rfl]
      refine hf.trace (spec.geometry j) (h.writer.inv j) ho.on fun e he => ?_
      have hrest := mem_ofLevel.mp he
      exact hspare (j, e) (by rw [hs.sent]; exact List.mem_append_right _ hrest)
        (hs.not_mem h hrest)
    · rw [TraceFile.ring_trace_ne hij, if_neg (fun h => hij h.symm), List.append_nil]
      exact hf.frame _ _
  · obtain ⟨j, e, rest', hrest, hb, ht⟩ := hs.next tsc bufNum hnext
    exact ⟨j, e, rest' ++ [(i, ⟨(s.tf.log i).rb.startPos, hit⟩)], by rw [hrest]; rfl, hb, ht⟩

/-- The first pending message of a level shows at its reader. -/
theorem nextTsc_keeping (h : Lapped msgs n spec logStart s) {i : Fin NumTraceLevels}
    {rb : RingBuffer} (hk : Keeping n spec logStart s.tf rest i rb) {e : Recorded}
    {es : List Recorded} (hpend : ofLevel i rest = e :: es) :
    rb.nextTsc s.tf.mem = e.hit.tsc.toNat := by
  obtain ⟨-, consumed, hf⟩ := hk
  rw [hpend] at hf
  have hmem : ∀ x ∈ es, x ∈ (s.tf.ring i).log := fun x hx => by rw [hf.log]; simp [hx]
  have hmax : ∀ x ∈ es, x.hit.tsc.toNat ≤ UINT64_MAX := fun x hx =>
    Nat.le_of_lt ((h.writer.log i).small x (hmem x hx))
  obtain ⟨hcur, hstand, -⟩ :=
    hf.head (h.writer.inv i) (h.writer.log i) (h.writer.started i) UINT64_MAX hmax
  have hintact := hstand.intact (h.writer.inv i) (h.writer.log i)
  rw [← hcur] at hintact
  exact RingBuffer.nextTsc_intact hintact
    (Nat.le_of_lt (hf.last_lt (h.writer.log i) (by simp)))

/-- A level without a pending message shows none. -/
theorem nextTsc_drained_level (h : Lapped msgs n spec logStart s) {i : Fin NumTraceLevels}
    {rb : RingBuffer} (hk : Keeping n spec logStart s.tf rest i rb)
    (hpend : ofLevel i rest = []) : rb.nextTsc s.tf.mem = 0 := by
  obtain ⟨-, consumed, hf⟩ := hk
  rw [hpend] at hf
  have hz := hf.drained (spec.geometry i) (h.writer.inv i) (h.writer.log i) (h.writer.started i)
  rwa [show (s.tf.ring i).mem = s.tf.mem from rfl] at hz

/-- What is pending is older than what is pending behind it. -/
theorem Synced.rest_sorted (h : Lapped msgs n spec logStart s)
    (hs : Synced n spec logStart s printed rest) :
    rest.Pairwise fun x y => x.2.hit.tsc.toNat < y.2.hit.tsc.toNat := by
  have hsorted := h.sorted
  rw [hs.sent, List.pairwise_append] at hsorted
  exact hsorted.2.1

/-- A new choice falls on the first of the rest, on no level if there is
none. -/
theorem Synced.choice (h : Lapped msgs n spec logStart s)
    (hs : Synced n spec logStart s printed rest) (hnext : s.qttail.next = none) :
    (s.qttail.nextTsc s.tf.mem).next
      = rest.head?.map fun p => (p.2.hit.tsc.toNat, p.1.val) := by
  have hc := Tail.choice (m := s.tf.mem) hnext
  generalize (s.qttail.nextTsc s.tf.mem).next = chosen at hc
  rcases rest with _ | ⟨⟨i, e⟩, rest⟩
  · cases hc with
    | nothing _ => rfl
    | level k rb hk hpos _ =>
      obtain ⟨j, rfl, hj⟩ := hs.readers.index hk
      exact absurd (nextTsc_drained_level h hj rfl) hpos
  · obtain ⟨rb, hk, hkeep⟩ := hs.readers.get i
    have hpend : ofLevel i ((i, e) :: rest) = e :: ofLevel i rest := by
      rw [ofLevel_cons, if_pos rfl]
    have htsc := nextTsc_keeping h hkeep hpend
    have hmem : e ∈ (s.tf.ring i).log := h.sent_log (i, e) (by rw [hs.sent]; simp)
    have hpos := (h.writer.log i).pos e hmem
    have hsmall := (h.writer.log i).small e hmem
    cases hc with
    | nothing hall =>
      have := hall i.val rb hk
      unfold UINT64_MAX at this
      omega
    | level k rb' hk' hpos' hmin =>
      obtain ⟨j, rfl, hj⟩ := hs.readers.index hk'
      have hle := hmin i.val rb hk (by omega)
      by_cases hij : j = i
      · subst hij
        rw [hk, Option.some.injEq] at hk'
        subst hk'
        rw [htsc]
        rfl
      · -- another level has only younger messages
        have hskip : ofLevel j ((i, e) :: rest) = ofLevel j rest := by
          rw [ofLevel_cons, if_neg (fun h => hij h.symm)]
        cases hother : ofLevel j rest with
        | nil => exact absurd (nextTsc_drained_level h hj (hskip.trans hother)) hpos'
        | cons x xs =>
          have hx : (j, x) ∈ rest := mem_ofLevel.mp (by rw [hother]; simp)
          have hlt := (List.pairwise_cons.mp (hs.rest_sorted h)).1 (j, x) hx
          have := nextTsc_keeping h hj (hskip.trans hother)
          simp only at hlt
          omega

theorem synced_nextTsc (h : Lapped msgs n spec logStart s)
    (hs : Synced n spec logStart s printed rest) :
    Synced n spec logStart (s.step msgs n spec logStart .nextTsc) printed rest := by
  simp only [step]
  rw [Tail.nextTsc_rest]
  refine ⟨hs.sent, hs.origins, hs.corruptions, hs.readers, fun tsc bufNum hnext => ?_⟩
  cases hold : s.qttail.next with
  | some next =>
    refine hs.next tsc bufNum (hold.trans ?_)
    rw [← hnext]
    simp only [Tail.nextTsc, hold]
  | none =>
    simp only at hnext
    rw [hs.choice h hold] at hnext
    rcases rest with _ | ⟨⟨i, e⟩, rest⟩
    · cases hnext
    · cases hnext
      exact ⟨i, e, rest, rfl, rfl, rfl⟩

/-- The chosen message is printed. -/
theorem synced_tailBuffer (hn : n ≤ 80) (h : Lapped msgs n spec logStart s)
    (hs : Synced n spec logStart s printed rest) {curTsc : UInt64}
    (ha : Allowed msgs n s (.tailBuffer curTsc)) :
    (s.qttail.next = none ∧ s.step msgs n spec logStart (.tailBuffer curTsc) = s)
      ∨ ∃ p rest', rest = p :: rest'
        ∧ Synced n spec logStart (s.step msgs n spec logStart (.tailBuffer curTsc))
            (printed ++ [p]) rest' := by
  cases hnext : s.qttail.next with
  | none => exact Or.inl ⟨rfl, by simp only [step, hnext]⟩
  | some next =>
  obtain ⟨tsc, bufNum⟩ := next
  obtain ⟨i, e, rest', rfl, rfl, rfl⟩ := hs.next tsc bufNum hnext
  refine Or.inr ⟨(i, e), rest', rfl, ?_⟩
  obtain ⟨rb, hk, hlevel, consumed, hf⟩ := hs.readers.get i
  have hi := h.writer.inv i
  have hl := h.writer.log i
  have hpend : ofLevel i ((i, e) :: rest') = e :: ofLevel i rest' := by
    rw [ofLevel_cons, if_pos rfl]
  rw [hpend] at hf
  have hmem : ∀ x ∈ e :: ofLevel i rest', x ∈ (s.tf.ring i).log := fun x hx => by
    rw [hf.log]; exact List.mem_append_right _ hx
  obtain ⟨hcur, hstand, hplausible⟩ := hf.head hi hl (h.writer.started i) curTsc.toNat
    fun x hx => Nat.le_of_lt (ha i x (hmem x (by simp [hx])))
  have hintact := hstand.intact hi hl
  rw [← hcur] at hintact
  have hexpects : rb.Expects curTsc.toNat e.hit :=
    ⟨Nat.le_of_lt (hf.last_lt hl (by simp)), hl.pos e (hmem e (by simp)),
      ha i e (hmem e (by simp))⟩
  obtain ⟨l, out', hdump, hlines, -, -⟩ :=
    RingBuffer.dump_intact hn hintact hexpects hplausible s.qttail.out
  have hdump' : rb.dump s.tf.mem msgs true e.hit.tsc.toNat curTsc.toNat s.qttail.out = _ := hdump
  have horigin : s.origin spec logStart i.val = some (i, e) := by
    rw [origin_eq spec logStart hk, hcur, hstand.recordAt_eq hi]
    rfl
  simp only [step, hnext, Tail.tailBuffer, hk, hdump', hlines, List.drop_left, List.map_singleton,
    horigin, if_true]
  refine ⟨hs.sent.trans (by simp), by simp [hs.origins], hs.corruptions,
    hs.readers.set i ⟨hlevel, consumed ++ [e], hf.advance hi⟩ ?_, by simp⟩
  rintro j rb' hij ⟨hlevel', consumed', hf'⟩
  rw [ofLevel_cons, if_neg (fun h => hij h.symm)] at hf'
  exact ⟨hlevel', consumed', hf'⟩

/-- The step lemma of a spared run. -/
theorem synced_step (hn : n ≤ 80) (h : Lapped msgs n spec logStart s)
    (hs : Synced n spec logStart s printed rest) {a : Action} (ha : Allowed msgs n s a)
    (hspare : Spares n s a) : ∃ printed' rest',
    Synced n spec logStart (s.step msgs n spec logStart a) printed' rest' := by
  cases a with
  | write i hit => exact ⟨_, _, synced_write h hs ha hspare⟩
  | nextTsc => exact ⟨_, _, synced_nextTsc h hs⟩
  | tailBuffer curTsc =>
    rcases synced_tailBuffer hn h hs ha with ⟨-, heq⟩ | ⟨p, rest', -, hs'⟩
    · exact ⟨_, _, heq ▸ hs⟩
    · exact ⟨_, _, hs'⟩

/-- A call of `nextTsc` and a call of `tailBuffer`. -/
def round (msgs : Messages) (n : Nat) (spec : SizeSpec) (logStart : Nat) (curTsc : UInt64)
    (s : System) : System :=
  (s.step msgs n spec logStart .nextTsc).step msgs n spec logStart (.tailBuffer curTsc)

theorem step_tailBuffer_tf (s : System) (curTsc : UInt64) :
    (s.step msgs n spec logStart (.tailBuffer curTsc)).tf = s.tf := by
  simp only [step]
  split
  · rfl
  · split <;> rfl

/-- One round of qttail prints the next message. -/
theorem Synced.round (hn : n ≤ 80) (h : Lapped msgs n spec logStart s) {p : Sent}
    (hs : Synced n spec logStart s printed (p :: rest)) {curTsc : UInt64}
    (ha : Allowed msgs n s (.tailBuffer curTsc)) :
    Synced n spec logStart (s.round msgs n spec logStart curTsc) (printed ++ [p]) rest := by
  have hs' := synced_nextTsc h hs
  rcases synced_tailBuffer hn (lapped_nextTsc h) hs' (show Allowed msgs n _ (.tailBuffer curTsc)
    from ha) with ⟨hnone, -⟩ | ⟨p', rest', hrest, hstep⟩
  · have hnext : (s.qttail.nextTsc s.tf.mem).next = none := hnone
    cases hold : s.qttail.next with
    | none =>
      rw [hs.choice h hold] at hnext
      cases hnext
    | some next =>
      simp only [Tail.nextTsc, hold] at hnext
      cases hnext
  · cases hrest
    exact hstep

/-- Once the writer has stopped, as many rounds as there are messages print
them all. -/
theorem Synced.rounds (hn : n ≤ 80) {curTsc : UInt64} : ∀ (rest : List Sent) {s : System}
    {printed : List Sent}, Lapped msgs n spec logStart s →
    Synced n spec logStart s printed rest → Allowed msgs n s (.tailBuffer curTsc) →
    Synced n spec logStart ((System.round msgs n spec logStart curTsc)^[rest.length] s)
      (printed ++ rest) []
  | [], s, printed, _, hs, _ => by simpa using hs
  | p :: rest, s, printed, h, hs, ha => by
      have hround := hs.round hn h ha
      have hlapped := lapped_tailBuffer hn (lapped_nextTsc h) curTsc
      have htf : (s.round msgs n spec logStart curTsc).tf = s.tf := step_tailBuffer_tf _ curTsc
      have ha' : Allowed msgs n (s.round msgs n spec logStart curTsc) (.tailBuffer curTsc) :=
        fun i e he => ha i e (by rwa [htf] at he)
      have hrest := Synced.rounds hn rest hlapped hround ha'
      rw [List.append_assoc] at hrest
      exact hrest

/-- The lines of prints whose origins are known. -/
theorem lines_of_origins : ∀ (ps : List Print) (xs : List Sent),
    (∀ p ∈ ps, ∀ x, p.origin = some x → ShowsSent msgs n p.line x) →
    ps.map Print.origin = xs.map some → List.Forall₂ (ShowsSent msgs n) (ps.map Print.line) xs
  | [], [], _, _ => .nil
  | [], _ :: _, _, h => by cases h
  | _ :: _, [], _, h => by cases h
  | p :: ps, x :: xs, hall, h => by
      rw [List.map_cons, List.map_cons, List.cons.injEq] at h
      exact .cons (hall p (by simp) x h.1)
        (lines_of_origins ps xs (fun q hq => hall q (by simp [hq])) h.2)

theorem Synced.inOrder (h : Lapped msgs n spec logStart s)
    (hs : Synced n spec logStart s printed rest) : InOrder msgs n s := by
  refine ⟨hs.corruptions, printed, rest, hs.sent, ?_, fun hnone => ?_⟩
  · rw [h.once.lines]
    exact lines_of_origins _ _ h.once.shows hs.origins
  · cases hold : s.qttail.next with
    | none =>
      rw [hs.choice h hold] at hnone
      exact List.head?_eq_none_iff.mp (Option.map_eq_none_iff.mp hnone)
    | some next =>
      simp only [Tail.nextTsc, hold] at hnone
      cases hnone

end

/-! ## Every run -/

theorem lapped_runs (hn : n ≤ 80) {s₀ : System} (h : Lapped msgs n spec logStart s₀)
    (hr : Runs msgs n spec logStart (Allowed msgs n) s₀ s) : Lapped msgs n spec logStart s := by
  induction hr with
  | refl => exact h
  | tail _ hstep ih =>
    obtain ⟨a, ha, rfl⟩ := hstep
    exact lapped_step hn ih ha

theorem synced_runs (hn : n ≤ 80) {s₀ : System} (h : Lapped msgs n spec logStart s₀)
    (hs : Synced n spec logStart s₀ [] [])
    (hr : Runs msgs n spec logStart (fun s a => Allowed msgs n s a ∧ Spares n s a) s₀ s) :
    Lapped msgs n spec logStart s
      ∧ ∃ printed rest, Synced n spec logStart s printed rest := by
  induction hr with
  | refl => exact ⟨h, [], [], hs⟩
  | tail _ hstep ih =>
    obtain ⟨a, ⟨ha, hspare⟩, rfl⟩ := hstep
    obtain ⟨hlapped, printed, rest, hs⟩ := ih
    exact ⟨lapped_step hn hlapped ha, synced_step hn hlapped hs ha hspare⟩

/-- A qttail that starts on any file, with any interleaving of its steps and
those of the writer, prints no message twice from its own record and none
that was recorded before; and if the writer spares what was not printed yet,
it prints the messages in the order in which they were recorded. -/
theorem tail_exactly_once (hn : n ≤ 80) {cs : MsgCounters} {tf : TraceFile}
    (hw : TraceFile.Written (Described msgs) n spec logStart cs tf) :
    ∃ s₀, start msgs spec logStart tf = some s₀
      ∧ (∀ s, Runs msgs n spec logStart (Allowed msgs n) s₀ s → Once msgs n s)
      ∧ ∀ s, Runs msgs n spec logStart (fun s a => Allowed msgs n s a ∧ Spares n s a) s₀ s →
          InOrder msgs n s := by
  have hok := TraceFile.writerOk_written hw
  obtain ⟨rbs, hstart, hreaders⟩ := start_eq hn hok
  have hlapped := lapped_start hok hreaders
  refine ⟨_, hstart, fun s hr => (lapped_runs hn hlapped hr).once, fun s hr => ?_⟩
  have hsynced : Synced n spec logStart ⟨tf, ⟨rbs, none, Output.empty, []⟩, [], []⟩ [] [] :=
    ⟨rfl, rfl, rfl, hreaders.imp fun i rb hf => ⟨hf.1, _, hf.2⟩, fun _ _ h => by cases h⟩
  obtain ⟨hlapped', printed, rest, hs⟩ := synced_runs hn hlapped hsynced hr
  exact hs.inOrder hlapped'

/-! ## A file with a message -/

theorem fits_emptyHit (tsc : UInt64) : FitsTrailer 80 (emptyHit tsc) :=
  (by decide : 13 + 1 + 8 ≤ TrailerSize)

theorem firstHit_ok : TraceFile.WriteOk (Described textTable) 80
    (.create TraceFile.kibSpec 128 TraceFile.oneCounter) (emptyHit 1) :=
  ⟨rfl, fits_emptyHit 1, fun _ _ he => (by cases he), by decide, by decide, described_text 1 rfl⟩

/-- A message is recorded in a new file. -/
def usedFile : TraceFile :=
  (TraceFile.create TraceFile.kibSpec 128 TraceFile.oneCounter).trace 80 0 (emptyHit 1)

theorem written_usedFile : TraceFile.Written (Described textTable) 80 TraceFile.kibSpec 128
    TraceFile.oneCounter usedFile :=
  .single ⟨0, emptyHit 1, firstHit_ok, rfl⟩

theorem hit_usedFile {i : Fin NumTraceLevels} {e : Recorded} (he : e ∈ (usedFile.ring i).log) :
    e.hit = emptyHit 1 :=
  (TraceFile.mem_log_trace firstHit_ok.on he).resolve_left fun h => by cases h

/-- Another one may follow. -/
theorem emptyHit_ok {tsc : UInt64} (h1 : 1 < tsc.toNat) (h2 : tsc.toNat < 2 ^ 64 - 1) :
    TraceFile.WriteOk (Described textTable) 80 usedFile (emptyHit tsc) :=
  ⟨(by decide +kernel : usedFile.cs.off 1 = false), fits_emptyHit tsc,
    fun i e he => by rw [hit_usedFile he]; exact h1,
    Nat.lt_trans Nat.one_pos h1, h2, described_text tsc rfl⟩

/-- Nothing in the file is younger than this one. -/
theorem tsc_le_usedFile {tsc : UInt64} (h1 : 1 < tsc.toNat) (h2 : tsc.toNat < 2 ^ 64 - 1)
    {i j : Fin NumTraceLevels} {e : Recorded}
    (he : e ∈ ((usedFile.trace 80 i (emptyHit tsc)).ring j).log) :
    e.hit.tsc.toNat ≤ tsc.toNat := by
  rcases TraceFile.mem_log_trace (emptyHit_ok h1 h2).on he with he | he
  · rw [hit_usedFile he]
    exact Nat.le_of_lt h1
  · rw [he]
    rfl

/-- A qttail that starts on this file. -/
theorem tail_exactly_once_used : (usedFile.ring 0).log ≠ [] ∧ ∃ s₀,
    start textTable TraceFile.kibSpec 128 usedFile = some s₀
      ∧ (∀ s, Runs textTable 80 TraceFile.kibSpec 128 (Allowed textTable 80) s₀ s →
          Once textTable 80 s)
      ∧ ∀ s, Runs textTable 80 TraceFile.kibSpec 128
          (fun s a => Allowed textTable 80 s a ∧ Spares 80 s a) s₀ s → InOrder textTable 80 s :=
  ⟨by decide +kernel, tail_exactly_once (by decide) written_usedFile⟩

/-! ## A reader that is lapped -/

/-- What is asked of a step, apart from the descriptor. -/
def Timely (n : Nat) (s : System) : Action → Prop
  | .write _ h => s.tf.cs.off h.id = false ∧ FitsTrailer n h
      ∧ (∀ i, ∀ e ∈ (s.tf.ring i).log, e.hit.tsc.toNat < h.tsc.toNat)
      ∧ 0 < h.tsc.toNat ∧ h.tsc.toNat < 2 ^ 64 - 1
  | .nextTsc => True
  | .tailBuffer curTsc => ∀ i, ∀ e ∈ (s.tf.ring i).log, e.hit.tsc.toNat < curTsc.toNat

instance (n : Nat) (s : System) : ∀ a, Decidable (Timely n s a)
  | .write _ _ => inferInstanceAs (Decidable (_ ∧ _))
  | .nextTsc => inferInstanceAs (Decidable True)
  | .tailBuffer _ => inferInstanceAs (Decidable (∀ _, _))

/-- What is asked of each of several steps. -/
def AllTimely (msgs : Messages) (n : Nat) (spec : SizeSpec) (logStart : Nat) :
    System → List Action → Prop
  | _, [] => True
  | s, a :: as => Timely n s a ∧ AllTimely msgs n spec logStart (s.step msgs n spec logStart a) as

instance decidableAllTimely (msgs : Messages) (n : Nat) (spec : SizeSpec) (logStart : Nat) :
    ∀ (as : List Action) (s : System), Decidable (AllTimely msgs n spec logStart s as)
  | [], _ => inferInstanceAs (Decidable True)
  | a :: as, s =>
    have := decidableAllTimely msgs n spec logStart as (s.step msgs n spec logStart a)
    inferInstanceAs (Decidable (_ ∧ _))

theorem runs_of_allTimely : ∀ (as : List Action) {s₀ s : System},
    Runs msgs n spec logStart (Allowed msgs n) s₀ s →
    (∀ i h, .write i h ∈ as → Described msgs h) → AllTimely msgs n spec logStart s as →
    Runs msgs n spec logStart (Allowed msgs n) s₀ (as.foldl (step msgs n spec logStart) s)
  | [], _, _, hr, _, _ => hr
  | a :: as, s₀, s, hr, hd, ht => by
      refine runs_of_allTimely as (hr.tail ⟨a, ?_, rfl⟩) (fun i h hm => hd i h (by simp [hm])) ht.2
      have ht1 := ht.1
      cases a with
      | write i h =>
        obtain ⟨h1, h2, h3, h4, h5⟩ := ht1
        exact ⟨h1, h2, h3, h4, h5, hd i h (by simp)⟩
      | nextTsc => trivial
      | tailBuffer curTsc => exact ht1

/-- A table with one descriptor, whose id is four times the same byte. -/
def onesTable : Messages := fun msgId =>
  if msgId = 0x01010101 then
    (MessageFormatter.init Registry.initial 7 (ascii ['%', 's']) (ascii ['p'])).toOption.map
      Prod.fst
  else none

/-- A message with a long string. -/
def onesMessage (tsc : UInt64) (x : Text) : Hit := ⟨tsc, 0x01010101, [.longStr x]⟩

theorem described_ones (tsc : UInt64) (x : Text) : Described onesTable (onesMessage tsc x) :=
  ⟨Registry.initial, _, 7, ascii ['%', 's'], ascii ['p'], _, .initial, rfl, by decide, rfl, rfl⟩

/-- A message is read; three more fill the level; the string of the last one
holds a copy of the first message where the reader waits. -/
def lapping : List Action :=
  [.write 0 (onesMessage 0x0101010101010101 (List.replicate 7 1)),
    .nextTsc, .tailBuffer 0x0101010101010102,
    .write 0 (onesMessage 0x0101010101010102 (List.replicate 234 97)),
    .write 0 (onesMessage 0x0101010101010103 (List.replicate 234 97)),
    .write 0 (onesMessage 0x0101010101010104 (List.replicate 234 97)),
    .write 0 (onesMessage 0x0101010101010105
      (List.replicate 20 1 ++ [7] ++ List.replicate 7 1 ++ [20] ++ List.replicate 8 1)),
    .nextTsc, .tailBuffer 0x0101010101010106]

/-- Two lines show the first message. -/
theorem shown_twice : ∃ s₀ s p,
    start onesTable TraceFile.kibSpec 128 (.create TraceFile.kibSpec 128 TraceFile.oneCounter)
        = some s₀
      ∧ Runs onesTable 80 TraceFile.kibSpec 128 (Allowed onesTable 80) s₀ s ∧ p ∈ s.sent
      ∧ s.qttail.out.lines.length = 2
      ∧ ∀ l ∈ s.qttail.out.lines, ShowsSent onesTable 80 l p := by
  have hall : ∀ s₀ ∈ start onesTable TraceFile.kibSpec 128
      (.create TraceFile.kibSpec 128 TraceFile.oneCounter),
      AllTimely onesTable 80 TraceFile.kibSpec 128 s₀ lapping
        ∧ (lapping.foldl (step onesTable 80 TraceFile.kibSpec 128) s₀).sent.head?
          = some (0, ⟨132, onesMessage 0x0101010101010101 (List.replicate 7 1)⟩)
        ∧ (lapping.foldl (step onesTable 80 TraceFile.kibSpec 128) s₀).qttail.out.lines.length = 2
        ∧ ∀ l ∈ (lapping.foldl (step onesTable 80 TraceFile.kibSpec 128) s₀).qttail.out.lines,
          ShowsSent onesTable 80 l
            (0, ⟨132, onesMessage 0x0101010101010101 (List.replicate 7 1)⟩) := by
    decide +kernel
  obtain ⟨s₀, hs₀⟩ := Option.isSome_iff_exists.mp (show (start onesTable TraceFile.kibSpec 128
    (.create TraceFile.kibSpec 128 TraceFile.oneCounter)).isSome by decide +kernel)
  obtain ⟨htimely, hsent, hlen, hshow⟩ := hall s₀ hs₀
  refine ⟨s₀, _, _, hs₀, runs_of_allTimely lapping .refl ?_ htimely, List.mem_of_head? hsent, hlen,
    hshow⟩
  intro i h hmem
  simp only [lapping, List.mem_cons, List.not_mem_nil, or_false, Action.write.injEq, reduceCtorEq,
    false_or] at hmem
  rcases hmem with ⟨-, rfl⟩ | ⟨-, rfl⟩ | ⟨-, rfl⟩ | ⟨-, rfl⟩ | ⟨-, rfl⟩ <;> exact described_ones _ _

end System

end QuickTrace
