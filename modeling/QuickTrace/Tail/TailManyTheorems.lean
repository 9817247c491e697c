/-
QuickTrace.Tail.TailManyTheorems — what qttail prints of several files.

`Live` holds in every run: each of the files, seen alone, is one of the states
of `Lapped`, and what `tailMany` has chosen is still chosen when it comes to
print it. So no call stops the process, and `Once` holds over all files.
-/
import QuickTrace.Tail.TailMany
import QuickTrace.Tail.ExactlyOnce

namespace QuickTrace

open QuickTrace.Lib RingBuf Level

/-! ## Lines that were printed before -/

/-- What `dump` does depends on the flags and on the last timestamp, and not
on the lines that were printed before. -/
theorem RingBuffer.dump_lines (rb : RingBuffer) (m : Mem) (msgs : Messages) (tail : Bool)
    (orderTsc curTsc : Nat) (out : Output) (ls : List Line) :
    ∃ new, (rb.dump m msgs tail orderTsc curTsc out).2.lines = out.lines ++ new
      ∧ rb.dump m msgs tail orderTsc curTsc { out with lines := ls }
        = ((rb.dump m msgs tail orderTsc curTsc out).1,
            { (rb.dump m msgs tail orderTsc curTsc out).2 with lines := ls ++ new }) := by
  unfold RingBuffer.dump
  split
  · exact ⟨[], by simp, by simp⟩
  · exact ⟨[], by simp, by simp⟩
  · split
    · exact ⟨[], by simp, by simp⟩
    · split
      · exact ⟨[], by simp, by simp⟩
      · dsimp only
        split
        · exact ⟨_, rfl, rfl⟩
        · split
          · exact ⟨_, rfl, rfl⟩
          · exact ⟨_, rfl, rfl⟩

namespace Tail

/-- `nextTsc` does not look at the output. -/
theorem nextTsc_out (t : Tail) (m : Mem) (out : Output) :
    ({ t with out } : Tail).nextTsc m = { t.nextTsc m with out } := by
  obtain ⟨rbs, next, out', corruptions⟩ := t
  cases next <;> rfl

/-- What `tailBuffer` does does not depend on the lines either. -/
theorem tailBuffer_lines (t : Tail) (m : Mem) (msgs : Messages) (tsc curTsc bufNum : Nat)
    (ls : List Line) : ∃ ok t' new, t.tailBuffer m msgs true tsc curTsc bufNum = some (ok, t')
      ∧ t'.out.lines = t.out.lines ++ new
      ∧ ({ t with out := { t.out with lines := ls } } : Tail).tailBuffer m msgs true tsc curTsc
          bufNum = some (ok, { t' with out := { t'.out with lines := ls ++ new } }) := by
  unfold tailBuffer
  dsimp only
  cases hk : t.rbs[bufNum]? with
  | none => exact ⟨false, t, [], rfl, by simp, by simp⟩
  | some rb =>
    obtain ⟨new, hnew, heq⟩ := rb.dump_lines m msgs true tsc curTsc t.out ls
    dsimp only
    rw [heq]
    generalize rb.dump m msgs true tsc curTsc t.out = d at hnew
    obtain ⟨r, out⟩ := d
    cases r with
    | error e => exact ⟨_, _, new, rfl, hnew, rfl⟩
    | ok r => exact ⟨_, _, new, rfl, hnew, rfl⟩

end Tail

namespace System

/-- Another file was printed meanwhile. -/
def othersPrint (s : System) (flags : Flags) (lastPrintedTsc : Nat) : System :=
  { s with qttail := { s.qttail with out := { s.qttail.out with flags, lastPrintedTsc } } }

theorem Lapped.othersPrint {msgs : Messages} {n : Nat} {spec : SizeSpec} {logStart : Nat}
    {s : System} (h : Lapped msgs n spec logStart s) (flags : Flags) (lastPrintedTsc : Nat) :
    Lapped msgs n spec logStart (s.othersPrint flags lastPrintedTsc) :=
  ⟨⟨h.once.lines, h.once.shows, h.once.sent, h.once.nodup⟩, h.writer, h.sent_log, h.sorted,
    h.readers.imp fun _ _ hb => ⟨hb.reader, hb.level, hb.past⟩⟩

end System

namespace TailMany

variable {k : Nat} {cfg : Fin k → TracedFile} {s s' : TailMany k} {f g : Fin k}

/-! ## What is printed -/

/-- What `print` leaves behind: new lines of one file, which sees one call of
its `tailBuffer`. -/
structure Printed (cfg : Fin k → TracedFile) (f : Fin k) (curTsc : UInt64) (s s' : TailMany k) :
    Prop where
  view : s'.view f = (s.view f).step (cfg f).msgs (cfg f).n (cfg f).spec (cfg f).logStart
    (.tailBuffer curTsc)
  others : ∀ g, g ≠ f → s'.view g = (s.view g).othersPrint s'.out.flags s'.out.lastPrintedTsc
  files : ∀ g, g ≠ f → s'.files g = s.files g
  tail : ∃ tail, (s'.files f).tail = { (s.files f).tail with tail }
  mapped : (s.files f).tail.tfh = true
  prints : ∃ ps : List Print, s'.prints = s.prints ++ ps.map (fun p => ⟨f, p, s.begun⟩)
    ∧ s'.out.lines = s.out.lines ++ ps.map Print.line ∧ s'.printsOf f = s.printsOf f ++ ps
  loop : s'.loop = .watching
  sent : s'.sent = s.sent
  begun : s'.begun = s.begun

theorem printsOf_printed_self (tail : Tail) (ps : List Print) :
    (s.printed f tail ps).printsOf f = s.printsOf f ++ ps := by
  unfold printsOf printed
  rw [List.filter_append, List.map_append, List.filter_map, List.map_map]
  congr 1
  simp [Function.comp_def]

theorem printsOf_printed_ne (hg : g ≠ f) (tail : Tail) (ps : List Print) :
    (s.printed f tail ps).printsOf g = s.printsOf g := by
  unfold printsOf printed
  rw [List.filter_append, List.map_append, List.filter_map]
  simp [Function.comp_def, Ne.symm hg]

/-- The view of the file that is printed. -/
theorem view_printed_self (tail : Tail) (ps : List Print) : (s.printed f tail ps).view f
    = { s.view f with
        qttail := { tail with
          out := { tail.out with lines := (s.printsOf f ++ ps).map Print.line } }
        prints := s.printsOf f ++ ps } := by
  unfold view
  rw [printsOf_printed_self]
  simp [printed, sentTo, setTail]

/-- The view of the others. -/
theorem view_printed_ne (hg : g ≠ f) (tail : Tail) (ps : List Print) :
    (s.printed f tail ps).view g
      = (s.view g).othersPrint tail.out.flags tail.out.lastPrintedTsc := by
  unfold view System.othersPrint
  rw [printsOf_printed_ne hg]
  simp [printed, sentTo, setTail, hg]

variable (cfg) in
/-- `print` of a mapped file with the choice of its tail. -/
theorem print_spec (ht : Tracks (s.files f).tail) {minTsc minBufNum : Nat}
    (hnext : (s.files f).tail.tail.next = some (minTsc, minBufNum)) (curTsc : UInt64) :
    ∃ s', s.print cfg f minTsc curTsc minBufNum = .ok s' ∧ Printed cfg f curTsc s s' := by
  have htfh : (s.files f).tail.tfh = true := by
    by_contra h
    rw [ht.choice (by simpa using h)] at hnext
    cases hnext
  obtain ⟨ok, t', new, htail, hlines, hown⟩ := Tail.tailBuffer_lines
    { (s.files f).tail.tail with out := s.out } (s.files f).tf.mem (cfg f).msgs minTsc
    curTsc.toNat minBufNum ((s.printsOf f).map Print.line)
  have hopt : (s.files f).tail.options.tail = true := by rw [ht.options]; rfl
  have hprint : s.print cfg f minTsc curTsc minBufNum = .ok (s.printed f t' (new.map fun line =>
      ⟨line, (s.view f).origin (cfg f).spec (cfg f).logStart minBufNum⟩)) := by
    unfold print FileTail.header
    simp only [htfh, if_true, bind, Except.bind, contents, TracedFile.contents, hopt, htail, hlines,
      List.drop_left]
  refine ⟨_, hprint, ?_, fun g hg => view_printed_ne hg _ _, fun g hg => setTail_ne hg _,
    ⟨t', by simp [printed]⟩, htfh, ⟨_, rfl, ?_, printsOf_printed_self _ _⟩, rfl, rfl, rfl⟩
  · have hnext' : (s.view f).qttail.next = some (minTsc, minBufNum) := hnext
    have hstep : (s.view f).qttail.tailBuffer (s.view f).tf.mem (cfg f).msgs true minTsc
        curTsc.toNat minBufNum = _ := hown
    rw [view_printed_self]
    unfold System.step
    dsimp only
    rw [hnext']
    dsimp only
    rw [hstep]
    dsimp only
    rw [show (s.view f).qttail.out.lines = (s.printsOf f).map Print.line from rfl, List.drop_left,
      List.map_append, List.map_map]
    simp [Function.comp_def, view]
  · rw [show (s.printed f t' _).out.lines = t'.out.lines from rfl, hlines, List.map_map]
    simp [Function.comp_def]

/-! ## The invariant of every run -/

/-- What the writers may record. -/
def Allowed (cfg : Fin k → TracedFile) (s : TailMany k) : Action k → Prop
  | .write f _ h _ => TraceFile.WriteOk (Described (cfg f).msgs) (cfg f).n (s.files f).tf h
  | _ => True

/-- Each file is in order, and the choice of a round still stands. -/
structure Live (cfg : Fin k → TracedFile) (s : TailMany k) : Prop where
  lapped : ∀ f, System.Lapped (cfg f).msgs (cfg f).n (cfg f).spec (cfg f).logStart (s.view f)
  tracks : ∀ f, Tracks (s.files f).tail
  lines : s.out.lines = s.prints.map fun p => p.print.line
  choice : ∀ r, s.loop = .round r → ∀ f bufNum, r.min = some (f, bufNum) →
    (s.files f).tail.tail.next = some (r.minTsc, bufNum)

theorem live_write (h : Live cfg s) {i : Fin NumTraceLevels} {hit : Hit} (tsc1 : Nat)
    (ho : TraceFile.WriteOk (Described (cfg f).msgs) (cfg f).n (s.files f).tf hit) :
    Live cfg (s.write cfg f i hit tsc1) where
  lapped := fun g => by
    by_cases hg : g = f
    · subst hg
      rw [view_write_self]
      exact System.lapped_write (h.lapped g) ho
    · rw [view_write_ne hg]
      exact h.lapped g
  tracks := fun g => by
    rw [tail_write]
    exact h.tracks g
  lines := h.lines
  choice := fun r hr g bufNum hmin => by
    rw [tail_write]
    exact h.choice r hr g bufNum hmin

/-- The tail of one file changes, and does not read. -/
theorem live_setTail (h : Live cfg s) {t : FileTail} (ht : Tracks t)
    (htail : t.tail = (s.files f).tail.tail) : Live cfg (s.setTail f t) where
  lapped := fun g => by
    by_cases hg : g = f
    · subst hg
      rw [view_setTail_self htail]
      exact h.lapped g
    · rw [view_setTail_ne hg]
      exact h.lapped g
  tracks := fun g => by
    by_cases hg : g = f
    · subst hg
      rw [setTail_self]
      exact ht
    · rw [setTail_ne hg]
      exact h.tracks g
  lines := h.lines
  choice := fun r hr g bufNum hmin => by
    by_cases hg : g = f
    · subst hg
      rw [setTail_self, htail]
      exact h.choice r hr g bufNum hmin
    · rw [setTail_ne hg]
      exact h.choice r hr g bufNum hmin

theorem live_delete (h : Live cfg s) (f : Fin k) :
    ∃ s', s.delete f = .ok s' ∧ Live cfg s' := by
  unfold delete
  split
  · have ht := h.tracks f
    rw [ht.delete]
    exact ⟨_, rfl, live_setTail h ⟨ht.options, ht.fd, .inr rfl, ht.choice⟩ rfl⟩
  · exact ⟨s, rfl, h⟩

theorem live_begin (h : Live cfg s) (curTsc : UInt64) : Live cfg (s.begin curTsc) := by
  unfold begin
  split
  · refine ⟨h.lapped, h.tracks, h.lines, fun r hr f bufNum hmin => ?_⟩
    cases hr
    cases hmin
  · exact h

variable (cfg) in
/-- What the file sees when it is asked. -/
theorem view_asked_self {t : FileTail} (ha : Asked (s.files f).tf.mem (s.files f).tail t)
    (r : Round k) : (s.asked f t r).view f
      = if (s.files f).tail.tfh then
          (s.view f).step (cfg f).msgs (cfg f).n (cfg f).spec (cfg f).logStart .nextTsc
        else s.view f := by
  have hview : (s.asked f t r).view f
      = { s.view f with qttail := { t.tail with out := (s.view f).qttail.out } } := by
    unfold view
    simp [asked, setTail, sentTo, printsOf]
  rw [hview, ha.tail]
  split
  · rw [System.step, ← Tail.nextTsc_out]
    rfl
  · rfl

theorem view_asked_ne (hg : g ≠ f) (t : FileTail) (r : Round k) :
    (s.asked f t r).view g = s.view g :=
  view_congr (setTail_ne hg t) rfl rfl rfl

theorem files_asked_self (t : FileTail) (r : Round k) :
    ((s.asked f t r).files f).tail = t := by
  simp [asked]

theorem files_asked_ne (hg : g ≠ f) (t : FileTail) (r : Round k) :
    (s.asked f t r).files g = s.files g :=
  setTail_ne hg t

/-- The choice of a round after one more file. -/
theorem see_choice {r : Round k} {t : FileTail} {bufNum : Nat}
    (h : (r.see f t).min = some (g, bufNum)) :
    (r.see f t).minTsc = r.minTsc ∧ r.min = some (g, bufNum)
      ∨ g = f ∧ t.tail.next = some ((r.see f t).minTsc, bufNum) := by
  unfold Round.see at h ⊢
  cases hnext : t.tail.next with
  | none =>
    rw [hnext] at h
    exact Or.inl ⟨rfl, h⟩
  | some c =>
    obtain ⟨tsc, b⟩ := c
    rw [hnext] at h
    simp only at h ⊢
    split at h
    · rename_i hlt
      rw [if_pos hlt]
      cases h
      exact Or.inr ⟨rfl, rfl⟩
    · rename_i hlt
      rw [if_neg hlt]
      exact Or.inl ⟨rfl, h⟩

/-- A choice that is there stays. -/
theorem Asked.choice {m : Mem} {t t' : FileTail} (h : Asked m t t') {c : Nat × Nat}
    (hnext : t.tail.next = some c) : t'.tail.next = some c := by
  rw [h.tail, Tail.nextTsc_cached hnext, ite_self]
  exact hnext

theorem live_look (h : Live cfg s) : ∃ s', s.look cfg = .ok s' ∧ Live cfg s' := by
  unfold look
  cases hloop : s.loop with
  | watching => exact ⟨s, rfl, h⟩
  | returned => exact ⟨s, rfl, h⟩
  | round r =>
    dsimp only
    split
    · rename_i hlt
      generalize (⟨r.looked, hlt⟩ : Fin k) = f
      obtain ⟨t, heq, ha⟩ := (h.tracks f).nextTsc (s.contents cfg f)
      rw [heq]
      refine ⟨s.asked f t r, rfl, fun g => ?_, fun g => ?_, h.lines, fun r' hr' g bufNum hmin => ?_⟩
      · by_cases hg : g = f
        · subst hg
          rw [view_asked_self cfg ha]
          split
          · exact System.lapped_nextTsc (h.lapped g)
          · exact h.lapped g
        · rw [view_asked_ne hg]
          exact h.lapped g
      · by_cases hg : g = f
        · subst hg
          rw [files_asked_self]
          exact ha.tracks
        · rw [files_asked_ne hg]
          exact h.tracks g
      · cases hr'
        rcases see_choice hmin with ⟨htsc, hold⟩ | ⟨rfl, hnew⟩
        · rw [htsc]
          have hnext := h.choice r hloop g bufNum hold
          by_cases hg : g = f
          · subst hg
            rw [files_asked_self]
            exact ha.choice hnext
          · rw [files_asked_ne hg]
            exact hnext
        · rw [files_asked_self]
          exact hnew
    · exact ⟨s, rfl, h⟩

/-- A printed line, and the other files. -/
theorem live_printed (hn : ∀ f, (cfg f).n ≤ 80) (h : Live cfg s) {curTsc : UInt64}
    (hp : Printed cfg f curTsc s s') : Live cfg s' where
  lapped := fun g => by
    by_cases hg : g = f
    · subst hg
      rw [hp.view]
      exact System.lapped_tailBuffer (hn g) (h.lapped g) curTsc
    · rw [hp.others g hg]
      exact (h.lapped g).othersPrint _ _
  tracks := fun g => by
    by_cases hg : g = f
    · subst hg
      obtain ⟨tail, htail⟩ := hp.tail
      have ht := h.tracks g
      rw [htail]
      exact ⟨ht.options, ht.fd, ht.status, fun hf => by simp [hp.mapped] at hf⟩
    · rw [hp.files g hg]
      exact h.tracks g
  lines := by
    obtain ⟨ps, hprints, hlines, -⟩ := hp.prints
    rw [hlines, hprints, h.lines, List.map_append, List.map_map]
    rfl
  choice := fun r hr => by
    rw [hp.loop] at hr
    cases hr

/-- The end of a round does not stop the process. -/
theorem live_finish (hn : ∀ f, (cfg f).n ≤ 80) (h : Live cfg s) :
    ∃ s', s.finish cfg = .ok s' ∧ Live cfg s' := by
  unfold finish
  split
  · rename_i r hloop
    split
    · exact ⟨s, rfl, h⟩
    · split
      · rename_i f minBufNum hmin
        obtain ⟨s', heq, hp⟩ := print_spec cfg (h.tracks f)
          (h.choice r hloop f minBufNum hmin) r.curTsc
        exact ⟨s', heq, live_printed hn h hp⟩
      · refine ⟨_, rfl, h.lapped, h.tracks, h.lines, fun r' hr' => ?_⟩
        dsimp only at hr'
        split at hr' <;> cases hr'
  · exact ⟨s, rfl, h⟩

/-- The step lemma: no call stops the process. -/
theorem live_step (hn : ∀ f, (cfg f).n ≤ 80) (h : Live cfg s) {a : Action k}
    (ha : Allowed cfg s a) : ∃ s', s.step cfg a = .ok s' ∧ Live cfg s' := by
  cases a with
  | write f i hit tsc1 => exact ⟨_, rfl, live_write h tsc1 ha⟩
  | delete f => exact live_delete h f
  | begin curTsc => exact ⟨_, rfl, live_begin h curTsc⟩
  | look => exact live_look h
  | finish => exact live_finish hn h

/-- The run lemma. -/
theorem live_runs (hn : ∀ f, (cfg f).n ≤ 80) {s₀ : TailMany k} (h : Live cfg s₀)
    (hr : Runs cfg (Allowed cfg) s₀ s) : Live cfg s := by
  induction hr with
  | refl => exact h
  | tail _ hstep ih =>
    obtain ⟨a, ha, heq⟩ := hstep
    obtain ⟨s', heq', h'⟩ := live_step hn ih ha
    rw [heq, Except.ok.injEq] at heq'
    rwa [heq']

/-! ## The start -/

/-- The KiB in front of a level, as `initialize` adds them up. -/
theorem sum_logSizes (c : TracedFile) (tf : TraceFile) (tsc1 : Nat) {i : Nat}
    (hi : i ≤ NumTraceLevels) :
    ((List.range i).map fun j => (c.contents tf tsc1).logSizes j * 1024).sum
      = addLevelSizes c.spec.sz i * 1024 := by
  induction i with
  | zero => simp [addLevelSizes]
  | succ i ih =>
    have hsucc := SizeSpec.addLevelSizes_succ c.spec.sz ⟨i, hi⟩
    have hsize : (c.contents tf tsc1).logSizes i = c.spec.sz ⟨i, hi⟩ := dif_pos hi
    rw [List.range_succ, List.map_append, List.sum_append, ih (Nat.le_of_succ_le hi),
      List.map_singleton, List.sum_singleton, hsize, hsucc, Nat.add_mul]

/-- The readers of all levels. -/
theorem readers_eq (c : TracedFile) (tf : TraceFile) (tsc1 : Nat) :
    (c.contents tf tsc1).readers allLevels
      = (List.finRange NumTraceLevels).map fun i : Fin NumTraceLevels =>
      RingBuffer.create i (c.spec.levelStart c.logStart i) (c.spec.levelEnd c.logStart i) := by
  unfold Contents.readers
  have hall : (List.range (c.contents tf tsc1).logCount).filter allLevels.levelEnabled
      = (List.finRange NumTraceLevels).map Fin.val := by
    rw [List.map_coe_finRange_eq_range]
    exact List.filter_eq_self.mpr fun _ _ => rfl
  rw [hall, List.map_map]
  refine List.map_congr_left fun i _ => ?_
  have hsize : (c.contents tf tsc1).logSizes i = c.spec.sz i := dif_pos i.isLt
  simp only [Function.comp_apply, sum_logSizes c tf tsc1 (Nat.le_of_lt i.isLt), hsize]
  rfl

/-- A level has fewer messages than there are bytes in front of its end. -/
theorem length_lt_end {n base size : Nat} {es : List Recorded} (hg : Geometry size)
    (h : Generation n base size es) : es.length < base + size - 256 := by
  have hend := h.end_le hg
  have hkib := hg.kib
  have hlen : 13 * es.length ≤ (es.flatMap (Recorded.bytes n)).length := length_le_bytes es
  unfold genEnd endOf at hend
  simp only [headerSize] at hend
  omega

/-- A new tail on a file that was written correctly. -/
theorem create_spec {c : TracedFile} {tf : TraceFile} (hn : c.n ≤ 80)
    (hw : TraceFile.WriterOk (Described c.msgs) c.n c.spec c.logStart tf) (tsc1 : Nat) :
    ∃ rbs, FileTail.create allLevels true (c.contents tf tsc1)
        = .ok ⟨allLevels, true, true, .active, tsc1, ⟨rbs, none, Output.empty, []⟩⟩
      ∧ Readers (System.Fresh c.n c.spec c.logStart tf) rbs
      ∧ ∀ rb ∈ rbs, rb.corruption = 0 := by
  have hall := fun i : Fin NumTraceLevels => follows_fastforward hn (c.spec.geometry i) (hw.inv i)
    (hw.log i) (hw.started i) i.val
  choose rb hrb hlevel hfollows using hall
  have hrb' : ∀ i : Fin NumTraceLevels, (RingBuffer.create i (c.spec.levelStart c.logStart i)
      (c.spec.levelEnd c.logStart i)).fastforward tf.mem c.msgs true
      (c.spec.levelEnd c.logStart i - 256) = .ok (some (rb i)) := fun i =>
    (fastforward_fuel hn (hw.inv i) (hw.log i) (hw.started i) i.val
      (length_lt_end (c.spec.geometry i) (hw.inv i).cur_gen)
      (length_lt_size (c.spec.geometry i) (hw.inv i).cur_gen)).trans (hrb i)
  have hpos : (c.contents tf tsc1).position allLevels true
      = some ((List.finRange NumTraceLevels).map rb) := by
    unfold Contents.position
    rw [if_pos rfl, readers_eq, List.mapM_map]
    refine System.mapM_some _ fun i _ => ?_
    have hi := hrb' i
    unfold RingBuffer.create at hi ⊢
    simp only [Function.comp_apply, TracedFile.contents, allLevels, hi]
    rfl
  refine ⟨(List.finRange NumTraceLevels).map rb, ?_, ⟨by simp, fun i r hk => ?_⟩, fun r hr => ?_⟩
  · have hload : ∀ t : FileTail, t.options = allLevels → t.status = .initializing →
        t.load (c.contents tf tsc1) true = .ok { t with
          tail := { t.tail with rbs := (List.finRange NumTraceLevels).map rb }, tsc1,
          status := .active } := fun t hoptions hstatus => by
      unfold FileTail.load
      have hversion : ¬ (c.contents tf tsc1).version < minimumVersionSupported :=
        show ¬ (5 : UInt32) < minimumVersionSupported by decide
      have hcount : ¬ NumTraceLevels < (c.contents tf tsc1).logCount := Nat.lt_irrefl _
      rw [if_neg hversion, if_neg hcount, hoptions, hpos]
      exact FileTail.statusIs_active hstatus
    unfold FileTail.create FileTail.initializeFile
    dsimp only
    rw [FileTail.statusIs_initializing (.inr rfl)]
    simp only [bind, Except.bind, FileTail.openFile, FileTail.header, Bool.not_false, if_true]
    rw [if_pos (show (c.contents tf tsc1).usable = true from rfl), hload _ rfl rfl]
    rfl
  · rw [List.getElem?_map, List.getElem?_eq_getElem (by simp), List.getElem_finRange] at hk
    cases hk
    exact ⟨hlevel i, hfollows i⟩
  · obtain ⟨i, -, rfl⟩ := List.mem_map.mp hr
    exact RingBuffer.fastforward_corruption (hrb i)

/-- The tails when all files are opened. -/
theorem starts_tail {tfs : Fin k → TraceFile}
    (hn : ∀ f, (cfg f).n ≤ 80)
    (hw : ∀ f, TraceFile.WriterOk (Described (cfg f).msgs) (cfg f).n (cfg f).spec (cfg f).logStart
      (tfs f)) (h : Starts cfg tfs s) (f : Fin k) : ∃ rbs, (s.files f).tail
        = ⟨allLevels, true, true, .active, (s.files f).tsc1, ⟨rbs, none, Output.empty, []⟩⟩
      ∧ s.view f = ⟨tfs f, ⟨rbs, none, Output.empty, []⟩, [], []⟩
      ∧ Readers (System.Fresh (cfg f).n (cfg f).spec (cfg f).logStart (tfs f)) rbs
      ∧ ∀ rb ∈ rbs, rb.corruption = 0 := by
  obtain ⟨rbs, heq, hr, hcor⟩ := create_spec (hn f) (hw f) (s.files f).tsc1
  have hcreate := h.create f
  rw [contents, h.tf f, heq, Except.ok.injEq] at hcreate
  refine ⟨rbs, hcreate.symm, ?_, hr, hcor⟩
  unfold view
  simp only [h.tf, ← hcreate, h.out, printsOf, sentTo, h.prints, h.sent]
  rfl

/-- A file that is opened is mapped. -/
theorem starts_mapped {tfs : Fin k → TraceFile} (hn : ∀ f, (cfg f).n ≤ 80)
    (hw : ∀ f, TraceFile.WriterOk (Described (cfg f).msgs) (cfg f).n (cfg f).spec (cfg f).logStart
      (tfs f)) (h : Starts cfg tfs s) (f : Fin k) :
    (s.files f).tail.tfh = true ∧ (s.files f).tail.status = .active := by
  obtain ⟨rbs, heq, -⟩ := starts_tail hn hw h f
  rw [heq]
  exact ⟨rfl, rfl⟩

/-- The invariant holds when all files are opened. -/
theorem live_starts {tfs : Fin k → TraceFile}
    (hn : ∀ f, (cfg f).n ≤ 80)
    (hw : ∀ f, TraceFile.WriterOk (Described (cfg f).msgs) (cfg f).n (cfg f).spec (cfg f).logStart
      (tfs f)) (h : Starts cfg tfs s) : Live cfg s := by
  have htail := starts_tail hn hw h
  refine ⟨fun f => ?_, fun f => ?_, by rw [h.out, h.prints]; rfl, fun r hr => ?_⟩
  · obtain ⟨rbs, -, hview, hr, -⟩ := htail f
    rw [hview]
    exact System.lapped_start (hw f) hr
  · obtain ⟨rbs, heq, -⟩ := htail f
    rw [heq]
    exact ⟨rfl, rfl, .inl ⟨rfl, rfl⟩, fun _ => rfl⟩
  · rw [h.loop] at hr
    cases hr

/-- The files can be opened. -/
theorem starts_exists {tfs : Fin k → TraceFile}
    (hn : ∀ f, (cfg f).n ≤ 80)
    (hw : ∀ f, TraceFile.WriterOk (Described (cfg f).msgs) (cfg f).n (cfg f).spec (cfg f).logStart
      (tfs f)) : ∃ s, Starts cfg tfs s := by
  have hall := fun f => create_spec (hn f) (hw f) 0
  choose rbs heq hr using hall
  exact ⟨⟨fun f => ⟨tfs f, 0, ⟨allLevels, true, true, .active, 0, ⟨rbs f, none, Output.empty, []⟩⟩⟩,
    Output.empty, .watching, [], [], 0⟩, ⟨heq, fun _ => rfl, rfl, rfl, rfl, rfl, rfl⟩⟩

/-! ## Over all files -/

/-- The messages that were printed from their own records. -/
def origins (s : TailMany k) : List (Fin k × Sent) :=
  s.prints.filterMap fun p => p.print.origin.map (Prod.mk p.file)

/-- A line that was read from a standing record shows its message; such a
message was recorded in that file since qttail opened it, and there is one
such line of it. -/
structure Once (cfg : Fin k → TracedFile) (s : TailMany k) : Prop where
  lines : s.out.lines = s.prints.map fun p => p.print.line
  shows : ∀ p ∈ s.prints, ∀ x, p.print.origin = some x →
    System.ShowsSent (cfg p.file).msgs (cfg p.file).n p.print.line x
  sent : ∀ x ∈ s.origins, ∃ m ∈ s.sent, (m.file, m.msg) = x
  nodup : s.origins.Nodup

/-- A list without duplicates under each key. -/
theorem nodup_of_filter {ι α : Type} [DecidableEq ι] (key : α → ι) {l : List α}
    (h : ∀ i, (l.filter fun a => key a = i).Nodup) : l.Nodup := by
  induction l with
  | nil => exact List.nodup_nil
  | cons a l ih =>
    have hsub : ∀ i, List.Sublist (l.filter fun b => key b = i)
        ((a :: l).filter fun b => key b = i) := fun i => (List.sublist_cons_self a l).filter _
    rw [List.nodup_cons]
    refine ⟨fun hmem => ?_, ih fun i => (h i).sublist (hsub i)⟩
    have ha := h (key a)
    rw [List.filter_cons_of_pos (by simp), List.nodup_cons] at ha
    exact ha.1 (List.mem_filter.mpr ⟨hmem, by simp⟩)

/-- What was printed of one file. -/
theorem filter_origins (s : TailMany k) (f : Fin k) :
    (s.origins.filter fun x => x.1 = f) = (s.view f).origins.map (Prod.mk f) := by
  unfold origins System.origins view printsOf
  induction s.prints with
  | nil => rfl
  | cons p ps ih =>
    by_cases hf : p.file = f
    · cases ho : p.print.origin with
      | none => simpa [hf, ho] using ih
      | some x => simpa [hf, ho] using ih
    · cases ho : p.print.origin with
      | none => simpa [hf, ho] using ih
      | some x => simpa [hf, ho] using ih

theorem mem_sentTo {x : Sent} : x ∈ s.sentTo f ↔ ∃ m ∈ s.sent, (m.file, m.msg) = (f, x) := by
  unfold sentTo
  simp only [List.mem_map, List.mem_filter, decide_eq_true_eq, Prod.mk.injEq, and_assoc]

theorem Live.once (h : Live cfg s) : Once cfg s where
  lines := h.lines
  shows := fun p hp x hx => by
    have hmem : p.print ∈ (s.view p.file).prints :=
      List.mem_map.mpr ⟨p, List.mem_filter.mpr ⟨hp, by simp⟩, rfl⟩
    exact (h.lapped p.file).once.shows p.print hmem x hx
  sent := fun ⟨f, x⟩ hx => by
    have hx' : (f, x) ∈ s.origins.filter fun y => y.1 = f := List.mem_filter.mpr ⟨hx, by simp⟩
    rw [filter_origins] at hx'
    obtain ⟨y, hy, heq⟩ := List.mem_map.mp hx'
    cases heq
    exact mem_sentTo.mp ((h.lapped f).once.sent x hy)
  nodup := by
    refine nodup_of_filter Prod.fst fun f => ?_
    rw [filter_origins]
    exact ((h.lapped f).once.nodup).map fun x y hxy => (Prod.mk.inj hxy).2

/-- Any number of files, any interleaving of their writers, of deletions and
of the calls of `tailMany`, whatever the clock says: qttail is not stopped,
and it prints no message twice from its own record, none that was recorded
before it started, and each as a line of the file it was recorded in. -/
theorem tailMany_once (hn : ∀ f, (cfg f).n ≤ 80) {cs : Fin k → MsgCounters}
    {tfs : Fin k → TraceFile} (hw : ∀ f, TraceFile.Written (Described (cfg f).msgs) (cfg f).n
      (cfg f).spec (cfg f).logStart (cs f) (tfs f)) :
    (∃ s₀, Starts cfg tfs s₀) ∧ ∀ s₀ s, Starts cfg tfs s₀ → Runs cfg (Allowed cfg) s₀ s →
      Once cfg s ∧ ∀ a, Allowed cfg s a → ∃ s', s.step cfg a = .ok s' := by
  have hok := fun f => TraceFile.writerOk_written (hw f)
  refine ⟨starts_exists hn hok, fun s₀ s hs hr => ?_⟩
  have hlive := live_runs hn (live_starts hn hok hs) hr
  refine ⟨hlive.once, fun a ha => ?_⟩
  obtain ⟨s', heq, -⟩ := live_step hn hlive ha
  exact ⟨s', heq⟩

/-! ## Two files with a message each -/

/-- Two programs with one descriptor each. -/
def twoFiles : Fin 2 → TracedFile := fun _ => ⟨textTable, 80, TraceFile.kibSpec, 128⟩

/-- What they have recorded when qttail is started. -/
def usedFiles : Fin 2 → TraceFile := fun _ => System.usedFile

theorem usedFiles_ok (f : Fin 2) : TraceFile.WriterOk (Described (twoFiles f).msgs) (twoFiles f).n
    (twoFiles f).spec (twoFiles f).logStart (usedFiles f) :=
  TraceFile.writerOk_written System.written_usedFile

theorem tailMany_once_two : (∀ f, ((usedFiles f).ring 0).log ≠ [])
    ∧ (∃ s₀, Starts twoFiles usedFiles s₀) ∧ ∀ s₀ s,
    Starts twoFiles usedFiles s₀ → Runs twoFiles (Allowed twoFiles) s₀ s →
      Once twoFiles s ∧ ∀ a, Allowed twoFiles s a → ∃ s', s.step twoFiles a = .ok s' :=
  ⟨fun _ => (by decide +kernel : (System.usedFile.ring 0).log ≠ []),
    tailMany_once (fun _ => Nat.le_refl 80) fun _ => System.written_usedFile⟩

end TailMany

end QuickTrace
