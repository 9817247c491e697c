/-
QuickTrace.Tail.Follows — a reader that keeps up with the writer of its level.

`Follows` splits the log into what the reader has consumed and what is
pending, and says where its cursor stands: behind a part of the current
generation, or in what is left of the previous one. The first pending message
can be printed (`Follows.head`); without one the reader sees none
(`Follows.drained`). Printing moves the split (`Follows.advance`), and a
message of the writer is appended to what is pending as long as it does not
touch it (`Follows.trace`). The fast-forward establishes the relation with
nothing pending (`follows_fastforward`).
-/
import QuickTrace.Tail.Standing

namespace QuickTrace

open QuickTrace.Lib RingBuf

namespace Level

variable {msgs : Messages} {n base size : Nat} {r : Level} {rb : RingBuffer}
  {e : Recorded} {consumed pending es : List Recorded}

/-! ## The relation -/

/-- Where the cursor stands when `pending` is to be read next. -/
inductive CursorAt (n base size : Nat) (r : Level) (pending : List Recorded) (c : Nat) : Prop where
  | cur (done : List Recorded) (hcur : r.cur = done ++ pending)
      (hc : c = wrapPos base size (genEnd n base done))
  | old (done post : List Recorded) (hold : r.old = done ++ post) (hpost : post ≠ [])
      (hpend : pending = post ++ r.cur) (hc : c = genEnd n base done)
      (hlim : intactFrom base r ≤ genEnd n base done)

/-- The reader has consumed the first part of the log. -/
structure Follows (n base size : Nat) (r : Level) (rb : RingBuffer)
    (consumed pending : List Recorded) : Prop where
  reader : ReaderOf base size rb
  log : r.log = consumed ++ pending
  last : rb.lastTsc = lastTscOf 0 consumed
  cursor : CursorAt n base size r pending rb.cur

/-- The relation does not look at the file. -/
theorem Follows.frame (h : Follows n base size r rb consumed pending) (cs : MsgCounters)
    (m : Mem) : Follows n base size { r with cs := cs, mem := m } rb consumed pending where
  reader := h.reader
  log := h.log
  last := h.last
  cursor := by
    cases h.cursor with
    | cur done hcur hc => exact .cur done hcur hc
    | old done post hold hpost hpend hc hlim => exact .old done post hold hpost hpend hc hlim

theorem lastTscOf_concat (t : Nat) (es : List Recorded) (e : Recorded) :
    lastTscOf t (es ++ [e]) = e.hit.tsc.toNat := by
  simp [lastTscOf]

/-- A level that has recorded nothing since the last wrap is new. -/
theorem old_nil (hstarted : r.cur = [] → r.log = []) (hnil : r.cur = []) : r.old = [] := by
  have hlog : r.lost ++ r.old ++ r.cur = [] := hstarted hnil
  exact (List.append_eq_nil_iff.mp (List.append_eq_nil_iff.mp hlog).1).2

/-- What is pending is younger than what is consumed. -/
theorem Follows.last_lt (hl : LogOk (Described msgs) r.log)
    (h : Follows n base size r rb consumed pending) (he : e ∈ pending) :
    rb.lastTsc < e.hit.tsc.toNat := by
  have hlog := h.log
  rw [h.last]
  rcases List.eq_nil_or_concat consumed with hnil | ⟨pre, x, hx⟩
  · rw [hnil]
    exact hl.pos e (by rw [hlog]; exact List.mem_append_right _ he)
  · have hsorted := hl.sorted
    rw [hlog, List.pairwise_append] at hsorted
    rw [hx, List.concat_eq_append, lastTscOf_concat]
    exact hsorted.2.2 x (by rw [hx]; simp) e he

theorem wrapPos_of_lt {q : Nat} (h : q < areaEnd base size) : wrapPos base size q = q :=
  if_neg (by omega)

theorem wrapPos_start : wrapPos base size (base + headerSize) = base + headerSize := ite_self _

/-- Where a message in the middle of a generation starts. -/
theorem Generation.start_eq (h : Generation n base size es) {pre post : List Recorded}
    (hes : es = pre ++ e :: post) :
    e.start = genEnd n base pre ∧ e.start < areaEnd base size := by
  have hlaid := h.laid
  have hlt := h.start_lt e (by rw [hes]; simp)
  rw [hes] at hlaid
  exact ⟨hlaid.start_eq, hlt⟩

/-! ## What the reader sees -/

/-- With nothing pending the cursor is behind the last message. -/
theorem Follows.cur_drained (h : Follows n base size r rb consumed []) :
    rb.cur = wrapPos base size (genEnd n base r.cur) := by
  cases h.cursor with
  | old _ _ _ hpost hpend _ _ =>
    exact absurd (List.append_eq_nil_iff.mp hpend.symm).1 hpost
  | cur done hcur hc =>
    rw [List.append_nil] at hcur
    rw [hcur, hc]

theorem log_concat {pre : List Recorded} {x : Recorded} (hx : r.cur = pre ++ [x]) :
    r.log = r.lost ++ r.old ++ pre ++ [x] := by
  rw [List.append_assoc (r.lost ++ r.old), ← hx]
  rfl

/-- With nothing pending the last message was read last. -/
theorem Follows.last_drained (h : Follows n base size r rb consumed []) {pre : List Recorded}
    {x : Recorded} (hx : r.cur = pre ++ [x]) : rb.lastTsc = x.hit.tsc.toNat := by
  rw [h.last, ← List.append_nil consumed, ← h.log, log_concat hx, lastTscOf_concat]

/-- With nothing pending the reader sees no message. -/
theorem Follows.drained (hg : Geometry size) (hi : Inv n base size r)
    (hl : LogOk (Described msgs) r.log) (hstarted : r.cur = [] → r.log = [])
    (h : Follows n base size r rb consumed []) : rb.nextTsc r.mem = 0 := by
  have hc := h.cur_drained
  rcases List.eq_nil_or_concat r.cur with hnil | ⟨pre, x, hx⟩
  · -- nothing was ever recorded: the zero mark of a new level
    have hz := load_mark hi (Or.inr (old_nil hstarted hnil))
    rw [hi.ptr_eq, hnil] at hz
    rw [hnil, show genEnd n base [] = base + headerSize from rfl, wrapPos_start] at hc
    unfold RingBuffer.nextTsc
    simp only [hc, show r.mem.load (base + headerSize) 8 = 0 from hz]
    split <;> rfl
  · rw [List.concat_eq_append] at hx
    refine nextTsc_drained hg hi hl h.reader hx (h.last_drained hx) ?_
    rw [hc, last_end hi.cur_gen hx]
    rfl

/-- A standing message behind another one is plausible there. -/
theorem Standing.plausible (hi : Inv n base size r) (hl : LogOk (Described msgs) r.log)
    (hr : ReaderOf base size rb) {x : Recorded} (hx : Standing base r x) {q tsc curTsc : Nat}
    (hq : x.start = q ∧ q < areaEnd base size) (hle : tsc ≤ x.hit.tsc.toNat)
    (hcur : x.hit.tsc.toNat ≤ curTsc) (tailing : Bool) :
    RingBuffer.Plausible rb r.mem tailing curTsc tsc q := by
  have hload := (hx.intact hi hl).load_tsc
  rw [hq.1] at hload
  refine ⟨x.hit.tsc.toNat, ?_, Or.inr ⟨hle, hcur⟩⟩
  unfold RingBuffer.followingTsc
  simp only [hload, hr.end_]
  rw [if_neg (by omega)]

/-- A pending message of the current generation. -/
theorem plausible_cur (hi : Inv n base size r) (hl : LogOk (Described msgs) r.log)
    (hr : ReaderOf base size rb) {curTsc : Nat} {done : List Recorded}
    (hcur : r.cur = done ++ e :: es) (hall : ∀ x ∈ es, x.hit.tsc.toNat ≤ curTsc)
    (tailing : Bool) : RingBuffer.Plausible rb r.mem tailing curTsc e.hit.tsc.toNat
      (e.start + e.hit.size n) := by
  rcases es with _ | ⟨x, es⟩
  · -- the zero mark
    have hz := load_mark hi (Or.inl (by rw [hcur]; simp))
    rw [hi.ptr_eq, last_end hi.cur_gen hcur] at hz
    exact ⟨0, by simp [RingBuffer.followingTsc, hz], Or.inl rfl⟩
  · have hsorted := (hl.sublist (sublist_cur r)).sorted
    rw [hcur, List.pairwise_append, List.pairwise_cons] at hsorted
    have hlt := hsorted.2.1.1 x (by simp)
    have hx : Standing base r x := Or.inl (by rw [hcur]; simp)
    exact hx.plausible hi hl hr (next_start hi.cur_gen hcur) (Nat.le_of_lt hlt)
      (hall x (by simp)) tailing

/-- A pending message of the previous generation: behind the last of them
stands the mark of ones, and a tailing reader looks at the start. -/
theorem plausible_old (hi : Inv n base size r) (hl : LogOk (Described msgs) r.log)
    (hstarted : r.cur = [] → r.log = []) (hr : ReaderOf base size rb) {curTsc : Nat}
    {done : List Recorded} (hold : r.old = done ++ e :: es)
    (hlim : intactFrom base r ≤ e.start)
    (hall : ∀ x ∈ es ++ r.cur, x.hit.tsc.toNat ≤ curTsc) :
    RingBuffer.Plausible rb r.mem true curTsc e.hit.tsc.toNat (e.start + e.hit.size n) := by
  rcases es with _ | ⟨x, es⟩
  · have hne : r.old ≠ [] := by rw [hold]; simp
    have hend := last_end hi.old_gen hold
    have hfull := hi.old_full hne
    have hones := load_ones hi hne (by omega)
    rw [hend] at hones hfull
    have hcur : r.cur ≠ [] := fun hnil => by
      have hmem : e ∈ r.log := (sublist_old r).subset (by rw [hold]; simp)
      rw [hstarted hnil] at hmem
      cases hmem
    obtain ⟨x, xs, hxs⟩ := List.exists_cons_of_ne_nil hcur
    have hsorted := hl.sorted
    rw [log, hold, hxs, List.pairwise_append] at hsorted
    have hlt := hsorted.2.2 e (by simp) x (by simp)
    have hle := hall x (by rw [hxs]; simp)
    refine ⟨x.hit.tsc.toNat, ?_, Or.inr ⟨Nat.le_of_lt hlt, hle⟩⟩
    unfold RingBuffer.followingTsc
    simp only [hones, hr.end_, hr.start, if_true, load_first hi hl hxs]
    rw [if_pos ⟨by decide, hfull⟩]
  · have hsorted := (hl.sublist (sublist_old r)).sorted
    rw [hold, List.pairwise_append, List.pairwise_cons] at hsorted
    have hlt := hsorted.2.1.1 x (by simp)
    have hstart := next_start hi.old_gen hold
    have hx : Standing base r x := Or.inr ⟨by rw [hold]; simp, by omega⟩
    exact hx.plausible hi hl hr hstart (Nat.le_of_lt hlt) (hall x (by simp)) true

/-- The first pending message stands at the cursor, and what follows it is
plausible. -/
theorem Follows.head (hi : Inv n base size r) (hl : LogOk (Described msgs) r.log)
    (hstarted : r.cur = [] → r.log = [])
    (h : Follows n base size r rb consumed (e :: es)) (curTsc : Nat)
    (hall : ∀ x ∈ es, x.hit.tsc.toNat ≤ curTsc) :
    rb.cur = e.start ∧ Standing base r e
      ∧ RingBuffer.Plausible rb r.mem true curTsc e.hit.tsc.toNat (rb.cur + e.hit.size n) := by
  cases h.cursor with
  | cur _ hcur hc =>
    obtain ⟨hstart, hlt⟩ := hi.cur_gen.start_eq hcur
    rw [← hstart, wrapPos_of_lt hlt] at hc
    rw [hc]
    exact ⟨rfl, Or.inl (by rw [hcur]; simp), plausible_cur hi hl h.reader hcur hall true⟩
  | old done post hold hpost hpend hc hlim =>
    obtain ⟨x, post, rfl⟩ := List.exists_cons_of_ne_nil hpost
    rw [List.cons_append, List.cons.injEq] at hpend
    obtain ⟨rfl, rfl⟩ := hpend
    obtain ⟨hstart, -⟩ := hi.old_gen.start_eq hold
    rw [← hstart] at hc hlim
    rw [hc]
    exact ⟨rfl, Or.inr ⟨by rw [hold]; simp, hlim⟩,
      plausible_old hi hl hstarted h.reader hold hlim hall⟩

/-! ## What the reader does -/

/-- Printing the first pending message consumes it. -/
theorem Follows.advance (hi : Inv n base size r)
    (h : Follows n base size r rb consumed (e :: es)) :
    Follows n base size r (rb.advance e.hit.tsc.toNat (encodeArgs n e.hit.args).length)
      (consumed ++ [e]) es := by
  have hq : ∀ c, c + 13 + (encodeArgs n e.hit.args).length = c + e.hit.size n := fun c => by
    rw [Intact.size_eq]; omega
  have hmove : (rb.advance e.hit.tsc.toNat (encodeArgs n e.hit.args).length).cur
      = wrapPos base size (rb.cur + e.hit.size n) := by
    simp only [RingBuffer.advance, hq, h.reader.start, h.reader.end_]
    rfl
  refine ⟨⟨h.reader.start, h.reader.end_⟩, by rw [h.log]; simp, (lastTscOf_concat 0 _ _).symm, ?_⟩
  rw [hmove]
  cases h.cursor with
  | cur done hcur hc =>
    obtain ⟨hstart, hlt⟩ := hi.cur_gen.start_eq hcur
    rw [← hstart, wrapPos_of_lt hlt] at hc
    refine .cur (done ++ [e]) (by rw [hcur]; simp) ?_
    rw [genEnd_concat, ← hstart, hc]
  | old done post hold hpost hpend hc hlim =>
    obtain ⟨x, post, rfl⟩ := List.exists_cons_of_ne_nil hpost
    rw [List.cons_append, List.cons.injEq] at hpend
    obtain ⟨rfl, rfl⟩ := hpend
    have hend : rb.cur + e.hit.size n = genEnd n base (done ++ [e]) := by
      rw [genEnd_concat, hc]
    rcases post with _ | ⟨y, post⟩
    · -- the previous generation is read, and the cursor goes to the start
      have hfull := hi.old_full (by rw [hold]; simp)
      rw [hold, ← hend] at hfull
      refine .cur [] rfl ?_
      rw [show genEnd n base [] = base + headerSize from rfl, wrapPos_start]
      exact if_pos hfull
    · have hlt := (next_start hi.old_gen hold).2
      obtain ⟨hstart, -⟩ := hi.old_gen.start_eq hold
      rw [hc, ← hstart, wrapPos_of_lt hlt]
      refine .old (done ++ [e]) (y :: post) (by rw [hold]; simp) (by simp) rfl
        (by rw [genEnd_concat, ← hstart]) ?_
      rw [genEnd_concat]
      omega

/-! ## What the writer does -/

/-- None of the stores changes a byte of the message. -/
def Untouched (n : Nat) (ss : List Store) (e : Recorded) : Prop :=
  ∀ s ∈ ss, ∀ x, e.start ≤ x → x < e.start + e.hit.size n → ¬ s.Touches x

/-- A message that starts behind the writer and is not touched lies behind
the new message and its end mark. -/
theorem Untouched.le_start {h : Hit} (hon : r.cs.off h.id = false)
    (hu : Untouched n (r.rb.trace n r.cs h).2.2 e) (hge : r.rb.startPos ≤ e.start) :
    r.rb.startPos + h.size n + 8 ≤ e.start := by
  by_contra hlt
  obtain ⟨s, hs, ht⟩ := trace_covers hon hge (by omega : e.start < r.rb.startPos + h.size n + 8)
  exact hu s hs e.start (Nat.le_refl _) (Nat.lt_add_of_pos_right (Nat.lt_of_lt_of_le (by omega)
    (Nat.le_add_right 13 _))) ht

/-- A message in front of a writer that does not wrap is not touched. -/
theorem untouched_of_le {w : RingBuf} {cs : MsgCounters} {h : Hit} (hon : cs.off h.id = false)
    (hlt : w.ptr < w.bufEnd) (hle : e.start + e.hit.size n ≤ w.ptr) :
    Untouched n (w.trace n cs h).2.2 e := by
  intro s hs x h1 h2 ht
  rcases trace_within hon hs with hs | hs
  · rw [maybeWrap_stay hlt] at hs
    cases hs
  · have hpos : w.startPos = w.ptr := by rw [startPos, if_neg (by omega)]
    have hstart := hs.1
    unfold Store.Touches at ht
    omega

/-- A message of the writer is pending behind the others. -/
theorem Follows.trace (hg : Geometry size) (hi : Inv n base size r) {h : Hit}
    (hon : r.cs.off h.id = false) (hf : Follows n base size r rb consumed pending)
    (hu : ∀ e ∈ pending, Untouched n (r.rb.trace n r.cs h).2.2 e) :
    Follows n base size (r.trace n h) rb consumed (pending ++ [⟨r.rb.startPos, h⟩]) := by
  have hcur' : (r.trace n h).cur = r.wrap.cur ++ [⟨r.rb.startPos, h⟩] := by simp [Level.trace, hon]
  have hold' : (r.trace n h).old = r.wrap.old := rfl
  have hfrom : intactFrom base (r.trace n h) = r.rb.startPos + h.size n + 8 := by
    have hptr : (r.trace n h).rb.ptr = r.rb.startPos + h.size n := by
      simp only [Level.trace, trace_ring hon, after]
    rw [intactFrom, hcur', if_neg (by simp), hptr]
  refine ⟨hf.reader, ?_, hf.last, ?_⟩
  · rw [trace_log, hon, hf.log]
    simp
  rcases Nat.lt_or_ge r.rb.ptr r.rb.bufEnd with hlt | hle
  · have hpos : r.rb.startPos = r.rb.ptr := by rw [startPos, if_neg (by omega)]
    rw [wrap_of_lt hlt] at hcur' hold'
    cases hf.cursor with
    | cur done hcur hc => exact .cur done (by rw [hcur', hcur, List.append_assoc]) hc
    | old done post hold hpost hpend hc hlim =>
      refine .old done post (hold'.trans hold) hpost
        (by rw [hcur', hpend, List.append_assoc]) hc ?_
      -- the first of what is left of the previous generation is not touched
      obtain ⟨x, post, rfl⟩ := List.exists_cons_of_ne_nil hpost
      obtain ⟨hstart, -⟩ := hi.old_gen.start_eq hold
      have hge : r.rb.startPos ≤ x.start := by
        have hptr := hi.ptr_eq
        rw [hpos]
        unfold intactFrom at hlim
        split at hlim
        · rename_i hnil
          rw [hnil] at hptr
          rw [hptr, hstart]
          exact hlim
        · omega
      rw [hfrom, ← hstart]
      exact (hu x (by rw [hpend]; simp)).le_start hon hge
  · have hpos : r.rb.startPos = base + headerSize := by
      rw [startPos, if_pos hle, hi.pointers.buf]
    have hfull : areaEnd base size ≤ genEnd n base r.cur := by
      have hb := hi.pointers.bufEnd
      have hptr := hi.ptr_eq
      unfold areaEnd
      omega
    have hw1 : r.wrap.cur = [] := by unfold wrap; rw [if_pos hle]
    have hw2 : r.wrap.old = r.cur := by unfold wrap; rw [if_pos hle]
    rw [hw1] at hcur'
    rw [hw2] at hold'
    cases hf.cursor with
    | cur done hcur hc =>
      rcases pending with _ | ⟨x, pending⟩
      · -- the reader is at the start already
        refine .cur [] hcur' ?_
        rw [List.append_nil] at hcur
        rw [show genEnd n base [] = base + headerSize from rfl, wrapPos_start, hc, ← hcur]
        exact if_pos hfull
      · obtain ⟨hstart, hlt⟩ := hi.cur_gen.start_eq hcur
        refine .old done _ (hold'.trans hcur) (by simp) (by rw [hcur', List.nil_append]) ?_ ?_
        · rw [hc, ← hstart, wrapPos_of_lt hlt]
        · rw [hfrom, ← hstart]
          refine (hu x (by simp)).le_start hon ?_
          rw [hpos, hstart]
          exact le_endOf _ _
    | old done post hold hpost hpend hc hlim =>
      -- the writer would have come over what is left of the previous generation
      obtain ⟨x, post, rfl⟩ := List.exists_cons_of_ne_nil hpost
      obtain ⟨hstart, hlt⟩ := hi.old_gen.start_eq hold
      have hcur : r.cur ≠ [] := Generation.ne_nil hg hfull
      have hptr := hi.ptr_eq
      rw [intactFrom, if_neg hcur] at hlim
      omega

/-! ## The fast-forward -/

end Level

namespace RingBuffer

open Level

variable {msgs : Messages} {n : Nat} {m : Mem} {tailing : Bool}

/-- The loop of `fastforward` over a run of messages. -/
theorem skipAll_segment (hn : n ≤ 80) : ∀ (es : List Recorded) (rb : RingBuffer),
    Segment msgs n m rb.cur rb.end_ es → (∀ e ∈ es, rb.lastTsc ≤ e.hit.tsc.toNat) →
    rb.EndOk m n tailing UINT64_MAX rb.cur es → ∀ fuel,
    rb.skipAll m msgs tailing (fuel + es.length)
      = ({ rb with cur := endOf (Recorded.bytes n) rb.cur es, lastTsc := lastTscOf rb.lastTsc es }
          : RingBuffer).skipAll m msgs tailing fuel
  | [], rb, _, _, _, fuel => rfl
  | e :: es, rb, hs, hlast, he, fuel => by
      have hmax : ∀ x ∈ es, x.hit.tsc.toNat ≤ UINT64_MAX := fun x hx =>
        Nat.le_of_lt (hs.log.small x (by simp [hx]))
      have hstep := skip_intact hn hs.head_intact (hs.expects (hlast e (by simp)))
        (he.head hs hmax)
      have ih := skipAll_segment hn es (rb.past n e.hit) hs.tail
        (fun x hx => Nat.le_of_lt (hs.lt_of_mem hx)) (he.tail rfl rfl) fuel
      rw [List.length_cons, ← Nat.add_assoc, skipAll]
      simp only [hstep, bind, Except.bind]
      rw [ih, endOf_cons, Recorded.bytes_length]
      rfl

/-- The loop ends where no timestamp stands. -/
theorem skipAll_stop (rb : RingBuffer) (h : rb.nextTsc m = 0) (fuel : Nat) :
    rb.skipAll m msgs tailing (fuel + 1) = .ok (some rb) := by
  have hnext : rb.next m msgs tailing UINT64_MAX = .ok none := by
    unfold next
    simp only [h, if_true]
  rw [skipAll, skip]
  simp only [hnext, bind, Except.bind]
  rfl

end RingBuffer

namespace Level

variable {msgs : Messages} {n base size : Nat} {r : Level}

/-- A level has more bytes than messages. -/
theorem length_lt_size (hg : Geometry size) {es : List Recorded}
    (h : Generation n base size es) : es.length < size := by
  have hend := h.end_le hg
  have hlen : 13 * es.length ≤ (es.flatMap (Recorded.bytes n)).length := length_le_bytes es
  unfold genEnd endOf at hend
  simp only [headerSize] at hend
  omega

/-- A reader that starts with a fast-forward follows, with nothing
pending. -/
theorem follows_fastforward (hn : n ≤ 80) (hg : Geometry size) (hi : Inv n base size r)
    (hl : LogOk (Described msgs) r.log) (hstarted : r.cur = [] → r.log = []) (level : Nat) :
    ∃ rb, (RingBuffer.create level base (base + size)).fastforward r.mem msgs true size
        = .ok (some rb)
      ∧ rb.level = level ∧ Follows n base size r rb r.log [] := by
  obtain ⟨fuel, hfuel⟩ := Nat.exists_eq_add_of_lt (length_lt_size hg hi.cur_gen)
  have hmark : r.mem.load (genEnd n base r.cur) 8 = 0 := by
    rw [← hi.ptr_eq]
    exact load_mark hi ((Classical.em (r.cur = [])).elim (fun h => Or.inr (old_nil hstarted h)) Or.inl)
  have hstop : (⟨0, level, base + headerSize, areaEnd base size, genEnd n base r.cur,
      lastTscOf 0 r.cur⟩ : RingBuffer).nextTsc r.mem = 0 := by
    unfold RingBuffer.nextTsc
    simp only [hmark]
    split <;> rfl
  have hloop : (RingBuffer.create level base (base + size)).skipAll r.mem msgs true
      (fuel + 1 + r.cur.length) = _ :=
    RingBuffer.skipAll_segment hn r.cur (RingBuffer.create level base (base + size))
      (cur_segment hi hl) (fun e _ => Nat.zero_le _) (cur_endOk hi) (fuel + 1)
  rw [show fuel + 1 + r.cur.length = size by omega] at hloop
  have hrun := hloop.trans (RingBuffer.skipAll_stop _ hstop fuel)
  refine ⟨⟨0, level, base + headerSize, areaEnd base size,
    wrapPos base size (genEnd n base r.cur), lastTscOf 0 r.cur⟩, ?_, rfl, ⟨rfl, rfl⟩, by simp, ?_,
    .cur r.cur (by simp) (by dsimp only)⟩
  · unfold RingBuffer.fastforward
    rw [hrun]
    simp only [Except.map, Option.map_some, Except.ok.injEq, Option.some.injEq]
    unfold wrapPos
    split <;> rfl
  · rcases List.eq_nil_or_concat r.cur with hnil | ⟨pre, x, hx⟩
    · rw [hstarted hnil, hnil]
    · rw [log, hx, List.concat_eq_append, ← List.append_assoc]
      simp only [lastTscOf_concat]

/-- Every message consumed before the reader started is behind it. -/
theorem Follows.past (hi : Inv n base size r) (hl : LogOk (Described msgs) r.log)
    (hstarted : r.cur = [] → r.log = []) {rb : RingBuffer} {consumed : List Recorded} {e : Recorded}
    (h : Follows n base size r rb consumed []) (hs : Standing base r e) :
    Past n base size r rb e := by
  have hmem := hs.mem_log
  rcases List.eq_nil_or_concat r.cur with hnil | ⟨pre, x, hx⟩
  · rw [hstarted hnil] at hmem
    cases hmem
  rw [List.concat_eq_append] at hx
  have hlast := h.last_drained hx
  have hsorted := hl.sorted
  rw [log_concat hx, List.pairwise_append] at hsorted
  rw [log_concat hx, List.mem_append, List.mem_singleton] at hmem
  rcases hmem with hmem | rfl
  · exact .older (by rw [hlast]; exact hsorted.2.2 e hmem x (by simp))
  · refine .last hlast.symm ?_
    rw [h.cur_drained, last_end hi.cur_gen hx]
    rfl

end Level

end QuickTrace
