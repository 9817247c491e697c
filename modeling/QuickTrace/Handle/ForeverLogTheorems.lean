/-
QuickTrace.Handle.ForeverLogTheorems — what the forever log keeps.

A copy is read like the file it is of: its levels are those of the writer
(`copied_levels`), the one that has wrapped among them, and so it shows the
generation that is over (`shown_of_wrap`). The copy is exact when what was in
its place is not longer (`copy_eq_iff`). `Ok` is the invariant of a run,
`Ok.step` the step lemma and `forever_log_keeps` the run.
-/
import QuickTrace.Handle.ForeverLog

namespace QuickTrace.ForeverLog.TraceHandle

open QuickTrace.Lib RingBuf Level

variable {th : TraceHandle} {s : State}

/-! ## The bytes of the file -/

theorem mapped_length (header : Nat → UInt8) (m : Mem) :
    (th.mapped header m).length = th.mappedSize + FileTrailerSize := by
  rw [mapped, List.length_append, List.length_map, List.length_range, List.length_replicate]

theorem bytes_length (header : Nat → UInt8) (m : Mem) (dict : DictFile) :
    (th.bytes header m dict).length
      = th.mappedSize + FileTrailerSize + dict.bytes.length := by
  rw [bytes, List.length_append, mapped_length]

/-- A reader finds the levels as they are. -/
theorem mem_bytes {header : Nat → UInt8} {m : Mem} {dict : DictFile} {x : Nat}
    (h1 : th.logStart ≤ x) (h2 : x < th.mappedSize) : mem (th.bytes header m dict) x = m x := by
  unfold mem bytes mapped
  have hlen : x < ((List.range th.mappedSize).map fun x =>
      if x < th.logStart then header x else m x).length := by simpa using h2
  rw [List.append_assoc, List.getD_eq_getElem?_getD, List.getElem?_append_left hlen,
    List.getElem?_eq_getElem hlen, Option.getD_some, List.getElem_map, List.getElem_range,
    if_neg (Nat.not_lt.mpr h1)]

/-- A level lies in the mapped part, behind header and counters. -/
theorem level_mapped (th : TraceHandle) (i : Fin NumTraceLevels) :
    th.logStart ≤ th.spec.levelStart th.logStart i
    ∧ th.spec.levelEnd th.logStart i ≤ th.mappedSize := by
  have h1 := SizeSpec.addLevelSizes_succ th.spec.sz i
  have h2 := SizeSpec.addLevelSizes_mono th.spec.sz (show i.val + 1 ≤ NumTraceLevels from i.isLt)
  unfold SizeSpec.levelEnd SizeSpec.levelStart SizeSpec.levelSize mappedSize
  omega

/-- The descriptors of the file, whatever else is in it. -/
theorem readMessages_bytes (header : Nat → UInt8) (m : Mem) {dict : DictFile} {ds : List Descriptor}
    (hds : dict.bytes = ds.flatMap Descriptor.bytes) :
    readMessages th.mappedSize (th.bytes header m dict) = Messages.ofDescriptors ds := by
  rw [bytes, hds]
  exact readMessages_eq (mapped_length header m) ds

/-! ## Reading a copy -/

/-- Level `j` of a copy made when level `i` has wrapped. -/
def copiedLevel (tf : TraceFile) (i : Fin NumTraceLevels) (m : Mem) (j : Fin NumTraceLevels) :
    Level :=
  { (if j = i then (tf.ring i).wrap else tf.ring j) with mem := m }

/-- The levels of a copy satisfy the invariant of the writer. -/
theorem copied_levels {P : Hit → Prop} {tf : TraceFile}
    (hinv : TraceFile.AllInv th.n th.spec th.logStart tf)
    (hlog : ∀ i, LogOk P (tf.ring i).log) (i : Fin NumTraceLevels) {m : Mem}
    (hm : ∀ x, th.logStart ≤ x → x < th.mappedSize → m x = (tf.ring i).wrap.mem x) :
    LevelsOk P th.n th.spec th.logStart m (copiedLevel tf i m) where
  mem := fun _ => rfl
  inv := fun j => by
    have hmem : ∀ x, th.spec.levelStart th.logStart j ≤ x → x < th.spec.levelEnd th.logStart j →
        m x = (tf.ring i).wrap.mem x := by
      intro x h1 h2
      have hj := level_mapped th j
      exact hm x (Nat.le_trans hj.1 h1) (Nat.lt_of_lt_of_le h2 hj.2)
    by_cases hij : j = i
    · subst hij
      rw [copiedLevel, if_pos rfl]
      exact (inv_wrap (th.spec.geometry j) (hinv j)).congr (th.spec.geometry j) _ hmem
    · rw [copiedLevel, if_neg hij]
      refine (hinv j).congr (th.spec.geometry j) _ fun x h1 h2 => ?_
      exact (hmem x h1 h2).trans (hinv.wrap_mem_ne hij h1 h2)
  log := fun j => by
    by_cases hij : j = i
    · subst hij
      have h := hlog j
      rw [← wrap_log] at h
      rw [copiedLevel, if_pos rfl]
      exact h
    · rw [copiedLevel, if_neg hij]
      exact hlog j

/-- A wrapped level has nothing of its new generation. -/
theorem wrap_cur {r : Level} (h : r.rb.bufEnd ≤ r.rb.ptr) :
    r.wrap.cur = [] ∧ r.wrap.old = r.cur ∧ r.wrap.lost = r.lost ++ r.old := by
  unfold wrap
  rw [if_pos h]
  exact ⟨rfl, rfl, rfl⟩

/-- A copy made when a level has wrapped shows the generation that is
over. -/
theorem shown_of_wrap (hn : th.n ≤ 80) {tf : TraceFile}
    (hinv : TraceFile.AllInv th.n th.spec th.logStart tf) {ds : List Descriptor} {msgs : Messages}
    {dict : DictFile} (hds : dict.bytes = ds.flatMap Descriptor.bytes)
    (hmsgs : Messages.ofDescriptors ds = some msgs)
    (hlog : ∀ i, LogOk (Described msgs) (tf.ring i).log) {i : Fin NumTraceLevels}
    (hwrap : (tf.ring i).rb.bufEnd ≤ (tf.ring i).rb.ptr) (header : Nat → UInt8)
    (backup : Option (Text × List UInt8)) :
    th.Shown ⟨i, (tf.ring i).wrap.old, backup⟩
      (th.bytes header (tf.ring i).wrap.mem dict) := by
  intro levelEnabled hi
  have hm : ∀ x, th.logStart ≤ x → x < th.mappedSize →
      mem (th.bytes header (tf.ring i).wrap.mem dict) x = (tf.ring i).wrap.mem x :=
    fun x h1 h2 => mem_bytes h1 h2
  obtain ⟨fuel, t, hrun, hshown⟩ := cat_levels hn (copied_levels hinv hlog i hm) levelEnabled
  refine ⟨fuel, msgs, t, ?_, ?_⟩
  · rw [read, readMessages_bytes header _ hds, hmsgs, Option.bind_some, hrun]
    rfl
  · have hshows := hshown i hi
    rw [copiedLevel, if_pos rfl] at hshows
    exact hshows.wrapped (wrap_cur hwrap).1

/-! ## The destination -/

/-- A copy is exact exactly if nothing longer was there. -/
theorem copy_eq_iff {newPath : Text} (hne : newPath ≠ th.fileName) (bytes : List UInt8)
    (files : Files Text) :
    th.copy newPath bytes files newPath = some bytes
      ↔ ∀ content, files newPath = some content → content.length ≤ bytes.length := by
  rw [copy, if_neg hne, FileOp.apply, Function.update_self, Option.some.injEq,
    List.append_right_eq_self, List.drop_eq_nil_iff]
  cases files newPath with
  | none => simp
  | some content => simp

/-- Other files are left alone. -/
theorem copy_ne {newPath name : Text} (hne : name ≠ newPath) (bytes : List UInt8)
    (files : Files Text) : th.copy newPath bytes files name = files name := by
  unfold copy
  split
  · rfl
  · exact Function.update_of_ne hne ..

/-- A destination that is only opened keeps its bytes. -/
theorem copy_nil {newPath name : Text} {bytes : List UInt8} {files : Files Text}
    (h : files name = some bytes) : th.copy newPath [] files name = some bytes := by
  by_cases hne : name = newPath
  · subst hne
    unfold copy
    split
    · exact h
    · rw [FileOp.apply, Function.update_self, h]
      rfl
  · rw [copy_ne hne, h]

/-- What `maybeBackupBuffer` comes to: the index stays, and files keep what
they have; or a copy is made and the index incremented. -/
inductive Backup (th : TraceHandle) (s : State) (bytes : List UInt8) (o : Outcome) :
    State × Option (Text × List UInt8) → Prop where
  | none (files : Files Text)
    (h : ∀ name content, s.files name = some content → files name = some content) :
    Backup th s bytes o ({ s with files }, none)
  | copied (ho : o = .copied) (hpath : th.foreverLogPath.isEmpty = false)
    (hnull : th.backupsDisabled = false) :
    Backup th s bytes o
      ({ s with
          files := th.copy (th.newPath s.foreverLogIndex) bytes s.files
          foreverLogIndex := s.foreverLogIndex + 1 },
        some (th.newPath s.foreverLogIndex, bytes))

theorem backup_cases (th : TraceHandle) (s : State) (bytes : List UInt8) (o : Outcome) :
    Backup th s bytes o (th.maybeBackupBuffer s bytes o) := by
  unfold maybeBackupBuffer
  split
  · exact .none s.files fun _ _ => id
  · split
    · exact .none s.files fun _ _ => id
    · rename_i hpath hnull
      cases o with
      | openFailed => exact .none s.files fun _ _ => id
      | fstatFailed => exact .none s.files fun _ _ => id
      | destFailed => exact .none s.files fun _ _ => id
      | sendfileFailed => exact .none _ fun _ _ => copy_nil
      | copied => exact .copied rfl (by simpa using hpath) (by simpa using hnull)

/-! ## One event -/

/-- The invariant of a run: the levels are in order, the descriptors were
written completely and describe every message, and the backups are kept. -/
structure Ok (th : TraceHandle) (s : State) : Prop where
  inv : TraceFile.AllInv th.n th.spec th.logStart s.tf
  dict : ∃ ds msgs, s.dict.bytes = ds.flatMap Descriptor.bytes
    ∧ Messages.ofDescriptors ds = some msgs ∧ ∀ i, LogOk (Described msgs) (s.tf.ring i).log
  keeps : th.Keeps s

theorem messages_eq {dict : DictFile} {ds : List Descriptor}
    (hds : dict.bytes = ds.flatMap Descriptor.bytes) :
    th.messages dict = Messages.ofDescriptors ds := readMessages_bytes _ _ hds

theorem Ok.start (th : TraceHandle) (cs : MsgCounters) (foreverLogIndex : Int32)
    (files : Files Text) : Ok th (th.start cs foreverLogIndex files) where
  inv := (TraceFile.writerOk_create (P := fun _ => True) cs).inv
  dict := ⟨[], fun _ => none, rfl, rfl, fun _ => logOk_nil _⟩
  keeps := ⟨nofun, nofun, fun _ => rfl⟩

/-- A new descriptor. -/
theorem Ok.desc (h : Ok th s) {w : DescWrite} (ho : th.EventOk s (.desc w)) :
    Ok th (th.step s (.desc w)) := by
  unfold step
  dsimp only
  split
  · exact h
  · rename_i hnew
    obtain ⟨hc, hsome⟩ := ho hnew
    obtain ⟨ds, msgs, hds, hmsgs, hlog⟩ := h.dict
    have hds' : (s.dict.finish w).bytes = (ds ++ [w.desc]).flatMap Descriptor.bytes := by
      rw [DictFile.finish, hc.appended, hds, List.flatMap_append, List.flatMap_singleton]
    obtain ⟨msgs', hmsgs'⟩ := Option.isSome_iff_exists.mp hsome
    rw [messages_eq hds'] at hmsgs'
    have hext := Messages.ofDescriptors_append hmsgs hmsgs'
    exact ⟨h.inv, ⟨_, msgs', hds', hmsgs', fun i => (hlog i).imp fun _ => Described.mono hext⟩,
      ⟨h.keeps.bytes, h.keeps.shown, h.keeps.generations⟩⟩

/-- The generations of a level that are over, behind a statement. -/
theorem trace_generations (n : Nat) (tf : TraceFile) (i : Fin NumTraceLevels) (h : Hit)
    (j : Fin NumTraceLevels) :
    ((tf.trace n i h).ring j).lost ++ ((tf.trace n i h).ring j).old
      = (tf.ring j).lost ++ (tf.ring j).old
        ++ if (tf.ring i).rb.bufEnd ≤ (tf.ring i).rb.ptr ∧ i = j then (tf.ring i).wrap.old
          else [] := by
  by_cases hij : j = i
  · subst hij
    rw [TraceFile.trace_ring_self]
    show (tf.ring j).wrap.lost ++ (tf.ring j).wrap.old = _
    rcases Nat.lt_or_ge (tf.ring j).rb.ptr (tf.ring j).rb.bufEnd with hlt | hle
    · rw [wrap_of_lt hlt, if_neg fun h' => Nat.not_le.mpr hlt h'.1, List.append_nil]
    · rw [if_pos ⟨hle, rfl⟩, (wrap_cur hle).2.2]
  · rw [TraceFile.ring_trace_ne hij, if_neg fun h' => hij h'.2.symm, List.append_nil]

/-- One more wrap. -/
theorem Keeps.wrap (h : th.Keeps s) {s' : State} {w : Wrap} (hwraps : s'.wraps = s.wraps ++ [w])
    (hfiles : ∀ w ∈ s.wraps, ∀ b, w.backup = some b → s'.files b.1 = some b.2)
    (hbytes : ∀ b, w.backup = some b → s'.files b.1 = some b.2)
    (hshown : ∀ b, w.backup = some b → th.Shown w b.2)
    (hgen : ∀ i, (s'.tf.ring i).lost ++ (s'.tf.ring i).old
      = (s.tf.ring i).lost ++ (s.tf.ring i).old ++ if w.level = i then w.generation else []) :
    th.Keeps s' where
  bytes := by
    rw [hwraps]
    exact List.forall_mem_append.mpr ⟨hfiles, List.forall_mem_singleton.mpr hbytes⟩
  shown := by
    rw [hwraps]
    exact List.forall_mem_append.mpr ⟨h.shown, List.forall_mem_singleton.mpr hshown⟩
  generations := fun i => by
    rw [hgen i, h.generations i, hwraps, List.filter_append, List.flatMap_append]
    congr 1
    by_cases hi : w.level = i
    · simp [hi]
    · simp [hi]

/-- A statement that wraps, makes a backup, and is recorded. -/
theorem Ok.hit (hn : th.n ≤ 80) (hs : Ok th s) {i : Fin NumTraceLevels} {h : Hit}
    {header : Nat → UInt8} {o : Outcome} (ho : th.EventOk s (.hit i h header o)) :
    Ok th (th.hit s i h header o) := by
  obtain ⟨hrecord, hdest⟩ := ho
  obtain ⟨ds, msgs, hds, hmsgs, hlog⟩ := hs.dict
  have hrecord : s.tf.cs.off h.id = false → RecordOk (Described msgs) th.n (s.tf.ring i) h := by
    intro hoff
    obtain ⟨msgs', hmsgs', hok⟩ := hrecord hoff
    rw [messages_eq hds, hmsgs] at hmsgs'
    cases hmsgs'
    exact hok
  have hinv := hs.inv.trace i fun hoff => (hrecord hoff).fits
  have hlog' : ∀ j, LogOk (Described msgs) ((s.tf.trace th.n i h).ring j).log := by
    intro j
    by_cases hij : j = i
    · subst hij
      rw [TraceFile.trace_ring_self]
      exact logOk_trace (hlog j) hrecord
    · rw [TraceFile.ring_trace_ne hij]
      exact hlog j
  have hgen := trace_generations th.n s.tf i h
  unfold TraceHandle.hit
  dsimp only
  split
  · rename_i hwrap
    have hshown := fun backup =>
      shown_of_wrap hn hs.inv hds hmsgs hlog (i := i) hwrap header backup
    simp only [hwrap, true_and] at hgen
    have hcases := backup_cases th s (th.bytes header (s.tf.ring i).wrap.mem s.dict) o
    generalize th.maybeBackupBuffer s (th.bytes header (s.tf.ring i).wrap.mem s.dict) o = b at hcases
    cases hcases with
    | none files hfiles =>
      exact ⟨hinv, ⟨ds, msgs, hds, hmsgs, hlog'⟩, hs.keeps.wrap rfl
        (fun w hw b hb => hfiles _ _ (hs.keeps.bytes w hw b hb)) nofun nofun hgen⟩
    | copied hcopied hpath hnull =>
      have hd := hdest hwrap hcopied hpath hnull
      refine ⟨hinv, ⟨ds, msgs, hds, hmsgs, hlog'⟩, hs.keeps.wrap rfl (fun w hw b hb => ?_)
        (fun b hb => ?_) (fun b hb => ?_) hgen⟩
      · exact (copy_ne (hd.ne_backup w hw b hb) ..).trans (hs.keeps.bytes w hw b hb)
      · cases hb
        refine (copy_eq_iff hd.ne_file _ _).mpr fun content hcontent => ?_
        rw [bytes_length]
        exact hd.length content hcontent
      · cases hb
        exact hshown _
  · rename_i hstay
    refine ⟨hinv, ⟨ds, msgs, hds, hmsgs, hlog'⟩, hs.keeps.bytes, hs.keeps.shown, fun j => ?_⟩
    rw [hgen j, if_neg fun h' => hstay h'.1, List.append_nil]
    exact hs.keeps.generations j

/-- The step lemma. -/
theorem Ok.step (hn : th.n ≤ 80) (h : Ok th s) {e : Event} (ho : th.EventOk s e) :
    Ok th (th.step s e) := by
  cases e with
  | desc w => exact h.desc ho
  | hit i x header o => exact h.hit hn ho
  | ctl counter =>
    exact ⟨h.inv.ctl counter, h.dict, h.keeps.bytes, h.keeps.shown, h.keeps.generations⟩

/-- The run lemma. -/
theorem Ok.run (hn : th.n ≤ 80) : ∀ (es : List Event) {s : State}, Ok th s → th.Allowed s es →
    Ok th (th.run s es)
  | [], _, h, _ => h
  | _ :: es, _, h, ha => Ok.run hn es (h.step hn ha.1) ha.2

/-! ## Every run -/

/-- Every message of a generation that is over is found in a backup. -/
def Complete (th : TraceHandle) (s : State) : Prop :=
  ∀ i, ∀ e ∈ (s.tf.ring i).lost ++ (s.tf.ring i).old, ∃ w ∈ s.wraps, ∃ b,
    w.backup = some b ∧ w.level = i ∧ e ∈ w.generation ∧ s.files b.1 = some b.2 ∧ th.Shown w b.2

/-- When no wrap went without a backup, nothing is missing. -/
theorem Keeps.complete (h : th.Keeps s) (hall : ∀ w ∈ s.wraps, w.backup ≠ none) :
    th.Complete s := by
  intro i e he
  rw [h.generations i] at he
  obtain ⟨w, hw, he⟩ := List.mem_flatMap.mp he
  obtain ⟨hmem, hi⟩ := List.mem_filter.mp hw
  obtain ⟨b, hb⟩ := Option.ne_none_iff_exists'.mp (hall w hmem)
  exact ⟨w, hmem, b, hb, of_decide_eq_true hi, he, h.bytes w hmem b hb, h.shown w hmem b hb⟩

/-- The backups that are made behind a wrap. -/
theorem hit_of_wrap {i : Fin NumTraceLevels} (hwrap : (s.tf.ring i).rb.bufEnd ≤ (s.tf.ring i).rb.ptr)
    (hpath : th.foreverLogPath.isEmpty = false) (hnull : th.backupsDisabled = false) (h : Hit)
    (header : Nat → UInt8) :
    th.hit s i h header .copied =
      { tf := s.tf.trace th.n i h, dict := s.dict, foreverLogIndex := s.foreverLogIndex + 1
        files := th.copy (th.newPath s.foreverLogIndex)
          (th.bytes header (s.tf.ring i).wrap.mem s.dict) s.files
        wraps := s.wraps ++ [⟨i, (s.tf.ring i).wrap.old, some (th.newPath s.foreverLogIndex,
          th.bytes header (s.tf.ring i).wrap.mem s.dict)⟩] } := by
  simp only [hit, if_pos hwrap, maybeBackupBuffer, hpath, hnull, Bool.false_eq_true, if_false]

/-- What a backup is exact for: the files behind a wrap are kept exactly if
nothing longer was in the place of the backup. -/
def ExactIff (th : TraceHandle) (s : State) : Prop :=
  ∀ i h header, (s.tf.ring i).rb.bufEnd ≤ (s.tf.ring i).rb.ptr →
    th.foreverLogPath.isEmpty = false → th.backupsDisabled = false →
    th.newPath s.foreverLogIndex ≠ th.fileName →
    ((th.hit s i h header .copied).files (th.newPath s.foreverLogIndex)
        = some (th.bytes header (s.tf.ring i).wrap.mem s.dict)
      ↔ ∀ content, s.files (th.newPath s.foreverLogIndex) = some content →
          content.length ≤ th.mappedSize + FileTrailerSize + s.dict.bytes.length)

theorem exactIff (th : TraceHandle) (s : State) : th.ExactIff s := by
  intro i h header hwrap hpath hnull hne
  rw [hit_of_wrap hwrap hpath hnull, copy_eq_iff hne, bytes_length]

/-- In every run in which each event is in order, every backup has the bytes
the trace file had and shows the generation it was made for, and if every
wrap made a backup every message of a generation that is over is found in
one. In each state the next backup is exact exactly if nothing longer is in
its place. -/
theorem forever_log_keeps (hn : th.n ≤ 80) (cs : MsgCounters) (foreverLogIndex : Int32)
    (files : Files Text) {es : List Event}
    (ha : th.Allowed (th.start cs foreverLogIndex files) es) :
    th.Keeps (th.run (th.start cs foreverLogIndex files) es)
      ∧ ((∀ w ∈ (th.run (th.start cs foreverLogIndex files) es).wraps, w.backup ≠ none) →
        th.Complete (th.run (th.start cs foreverLogIndex files) es))
      ∧ th.ExactIff (th.run (th.start cs foreverLogIndex files) es) := by
  have hok := Ok.run hn es (Ok.start th cs foreverLogIndex files) ha
  exact ⟨hok.keeps, hok.keeps.complete, exactIff th _⟩

/-! ## Two runs -/

theorem run_concat (s : State) (es : List Event) (e : Event) :
    th.run s (es ++ [e]) = th.step (th.run s es) e := by
  rw [run, List.foldl_append]
  rfl

theorem allowed_concat {e : Event} : ∀ {es : List Event} {s : State}, th.Allowed s es →
    th.EventOk (th.run s es) e → th.Allowed s (es ++ [e])
  | [], _, _, he => ⟨he, trivial⟩
  | _ :: _, _, h, he => ⟨h.1, allowed_concat h.2 he⟩

/-- Files change with a wrap only. -/
theorem step_wraps (th : TraceHandle) (s : State) (e : Event) :
    ((th.step s e).wraps = s.wraps ∧ (th.step s e).files = s.files)
      ∨ s.wraps.length < (th.step s e).wraps.length := by
  cases e with
  | desc w =>
    unfold step
    dsimp only
    split <;> exact .inl ⟨rfl, rfl⟩
  | ctl counter => exact .inl ⟨rfl, rfl⟩
  | hit i h header o =>
    unfold step hit
    dsimp only
    split
    · refine .inr ?_
      rw [List.length_append]
      exact Nat.lt_succ_self _
    · exact .inl ⟨rfl, rfl⟩

theorem run_wraps : ∀ (es : List Event) (s : State),
    s.wraps.length ≤ (th.run s es).wraps.length
      ∧ ((th.run s es).wraps.length = s.wraps.length → (th.run s es).files = s.files)
  | [], _ => ⟨Nat.le_refl _, fun _ => rfl⟩
  | e :: es, s => by
      obtain ⟨hle, hfiles⟩ := run_wraps es (th.step s e)
      rw [run, List.foldl_cons, ← run]
      rcases step_wraps th s e with ⟨hw, hf⟩ | hlt
      · rw [hw] at hle hfiles
        exact ⟨hle, fun h => (hfiles h).trans hf⟩
      · exact ⟨by omega, fun h => by omega⟩

theorem key_ne_p : ∀ c ∈ ascii ['p'], c ≠ 0 :=
  List.forall_mem_singleton.mpr (by decide)

/-- A descriptor of a statement with one string. -/
def textDescriptor : Descriptor where
  tsc := 7
  filename := ascii ['l', 'o', 'g', '.', 'c']
  lineno := 3
  msgId := 1
  insertions := [.varg]
  key := ascii ['p']
  bytes := (MsgDesc.write 7 (ascii ['l', 'o', 'g', '.', 'c']) 3 1 (ascii ['p']) [.varg]).getD []
  filename_ne := by decide
  filename_graph := forall_mem_text (by decide)
  key_ne := key_ne_p
  written := by decide +kernel

/-- A handle with levels of a KiB whose backups are `b.0`, `b.1` and so on. -/
def kibHandle : TraceHandle := ⟨ascii ['a'], ascii ['b'], TraceFile.kibSpec, 128, 80⟩

/-- A string of 234 characters on level 0. -/
def longHit (tsc : UInt64) : Event := .hit 0 (textMessage tsc 234) (fun _ => 0) .copied

/-- Its descriptor is written completely. -/
def textWrite : DescWrite := ⟨textDescriptor, 1024, by decide⟩

/-- A descriptor and the four messages that fit a level of a KiB. -/
def filling : List Event :=
  [.desc textWrite, longHit 1, longHit 2, longHit 3, longHit 4]

/-- Before the first statement. -/
def kibStart (files : Files Text) : State :=
  kibHandle.start ⟨4, fun _ => .zero⟩ 0 files

theorem described_longHit : ∃ msgs, Messages.ofDescriptors [textDescriptor] = some msgs
    ∧ ∀ tsc, Described msgs (textMessage tsc 234) := by
  have hT : (MessageTable.initial.tryEmplace textDescriptor.message).toOption.isSome = true := by
    decide +kernel
  cases hT' : MessageTable.initial.tryEmplace textDescriptor.message with
  | error e =>
    rw [hT'] at hT
    cases hT
  | ok T =>
    refine ⟨T.messages, Messages.ofDescriptors_eq_some.mpr ⟨T, ?_, rfl⟩, fun tsc => ?_⟩
    · rw [List.map_singleton, MessageTable.addAll, List.foldlM_cons, hT']
      rfl
    · exact MessageTable.tryEmplace_described .initial rfl hT' rfl rfl (by decide +kernel)

/-- A message of 248 bytes that is younger than those in front of it. -/
theorem longHit_ok {s : State} {tsc : UInt64}
    (h : s.dict.bytes = textDescriptor.bytes ∧ 0 < tsc.toNat ∧ tsc.toNat < 2 ^ 64 - 1
      ∧ ∀ e ∈ (s.tf.ring 0).log, e.hit.tsc.toNat < tsc.toNat)
    (hdest : (s.tf.ring 0).rb.bufEnd ≤ (s.tf.ring 0).rb.ptr → kibHandle.DestinationOk s) :
    kibHandle.EventOk s (longHit tsc) := by
  obtain ⟨hdict, hpos, hsmall, hlater⟩ := h
  obtain ⟨msgs, hmsgs, hdescribed⟩ := described_longHit
  have hds : s.dict.bytes = [textDescriptor].flatMap Descriptor.bytes := by
    rw [hdict, List.flatMap_singleton]
  exact ⟨fun _ => ⟨msgs, (messages_eq hds).trans hmsgs, textMessage_fits tsc (by decide), hlater,
    hpos, hsmall, hdescribed tsc⟩, fun hwrap _ _ _ => hdest hwrap⟩

/-- The level is full, and no file has changed. -/
theorem files_filling (files : Files Text)
    (h : (kibHandle.run (kibStart files) filling).wraps.length = 0) :
    (kibHandle.run (kibStart files) filling).files = files :=
  (run_wraps filling (kibStart files)).2 h

/-- No files at all. -/
def noFiles : Files Text := fun _ => none

/-- A level that fills up and wraps, with no files around. -/
theorem filling_allowed : kibHandle.Allowed (kibStart noFiles) (filling ++ [longHit 5]) := by
  have hdesc : kibHandle.EventOk (kibStart noFiles) (.desc textWrite) := by
    intro _
    have hds : ((kibStart noFiles).dict.finish textWrite).bytes
        = [textDescriptor].flatMap Descriptor.bytes := by decide +kernel
    obtain ⟨msgs, hmsgs, -⟩ := described_longHit
    refine ⟨by decide +kernel, ?_⟩
    rw [messages_eq hds, hmsgs]
    rfl
  have hdest : kibHandle.DestinationOk (kibHandle.run (kibStart noFiles) filling) := by
    have hwraps : (kibHandle.run (kibStart noFiles) filling).wraps.length = 0 := by decide +kernel
    refine ⟨fun content hcontent => ?_, by decide +kernel, ?_⟩
    · rw [files_filling noFiles hwraps] at hcontent
      cases hcontent
    · rw [List.length_eq_zero_iff.mp hwraps]
      exact nofun
  refine allowed_concat ?_ (longHit_ok (by decide +kernel) fun _ => hdest)
  exact ⟨hdesc, longHit_ok (by decide +kernel) fun h => absurd h (by decide +kernel),
    longHit_ok (by decide +kernel) fun h => absurd h (by decide +kernel),
    longHit_ok (by decide +kernel) fun h => absurd h (by decide +kernel),
    longHit_ok (by decide +kernel) fun h => absurd h (by decide +kernel), trivial⟩

theorem forever_log_keeps_filling :
    kibHandle.Keeps (kibHandle.run (kibStart noFiles) (filling ++ [longHit 5]))
      ∧ ((∀ w ∈ (kibHandle.run (kibStart noFiles) (filling ++ [longHit 5])).wraps,
          w.backup ≠ none) →
        kibHandle.Complete (kibHandle.run (kibStart noFiles) (filling ++ [longHit 5])))
      ∧ kibHandle.ExactIff (kibHandle.run (kibStart noFiles) (filling ++ [longHit 5])) :=
  forever_log_keeps (by decide) ⟨4, fun _ => .zero⟩ 0 noFiles filling_allowed

/-- There is one backup, and it is of four messages. -/
example : (kibHandle.run (kibStart noFiles) (filling ++ [longHit 5])).wraps.map
      (fun w => (w.level, w.generation.length, w.backup.map Prod.fst))
    = [(0, 4, some (ascii ['b', '.', '0']))] := by decide +kernel

/-- What stood in the place of the first backup: an older file with larger
levels. -/
def olderBackup : Files Text :=
  Function.update noFiles (ascii ['b', '.', '0']) (some (List.replicate 20000 0))

/-- A backup that meets something longer is not kept. -/
theorem not_keeps_of_longer {i : Fin NumTraceLevels} {h : Hit} {header : Nat → UInt8}
    (hwrap : (s.tf.ring i).rb.bufEnd ≤ (s.tf.ring i).rb.ptr)
    (hpath : th.foreverLogPath.isEmpty = false) (hnull : th.backupsDisabled = false)
    (hne : th.newPath s.foreverLogIndex ≠ th.fileName) (content : List UInt8)
    (hold : s.files (th.newPath s.foreverLogIndex) = some content)
    (hlong : th.mappedSize + FileTrailerSize + s.dict.bytes.length < content.length) :
    ¬ th.Keeps (th.step s (.hit i h header .copied)) := by
  intro hkeeps
  have hexact := (exactIff th s i h header hwrap hpath hnull hne).mp ?_ content hold
  · omega
  · refine hkeeps.bytes ⟨i, (s.tf.ring i).wrap.old, some (th.newPath s.foreverLogIndex,
      th.bytes header (s.tf.ring i).wrap.mem s.dict)⟩ ?_ (th.newPath s.foreverLogIndex, _) rfl
    rw [step, hit_of_wrap hwrap hpath hnull]
    exact List.mem_append_right _ List.mem_cons_self

/-- The same run, which is in order without files, where the first backup
meets a longer file: the backup keeps the end of that file. -/
theorem older_backup_shows_through :
    kibHandle.Allowed (kibStart noFiles) (filling ++ [longHit 5])
      ∧ ¬ kibHandle.Keeps (kibHandle.run (kibStart olderBackup) (filling ++ [longHit 5])) := by
  refine ⟨filling_allowed, ?_⟩
  have hname : kibHandle.newPath (kibHandle.run (kibStart olderBackup) filling).foreverLogIndex
      = ascii ['b', '.', '0'] := by decide +kernel
  have hlen : (kibHandle.run (kibStart olderBackup) filling).dict.bytes.length < 1000 := by
    decide +kernel
  have hsize : kibHandle.mappedSize = 10368 := by decide
  rw [run_concat]
  refine not_keeps_of_longer (by decide +kernel) rfl (by decide +kernel) (by rw [hname]; decide)
    (List.replicate 20000 0) ?_ ?_
  · rw [files_filling olderBackup (by decide +kernel), hname]
    exact Function.update_self ..
  · rw [List.length_replicate, hsize, FileTrailerSize]
    omega

end QuickTrace.ForeverLog.TraceHandle
