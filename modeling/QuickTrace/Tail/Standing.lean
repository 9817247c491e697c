/-
QuickTrace.Tail.Standing — which messages a reader can still come to.

A recorded message is `Standing` as long as the writer has not come to it
again. `Past` is what holds of a standing message the reader has behind it:
it is older than the last one, or it is the last one and the cursor stands
behind it. No write brings such a message back (`Past.trace`), and neither
does a step of the reader, whatever it makes of the bytes at its cursor
(`Past.advance`, `Past.reset`): behind the last message stands a younger one,
no message, or, at the start, an older one.
-/
import QuickTrace.Tail.LevelSegment

namespace QuickTrace

open QuickTrace.Lib RingBuf

namespace Level

variable {msgs : Messages} {n base size : Nat} {r : Level} {e : Recorded}

/-! ## Standing messages -/

/-- The record of the message has not been written over since. -/
def Standing (base : Nat) (r : Level) (e : Recorded) : Prop :=
  e ∈ r.cur ∨ e ∈ r.old ∧ intactFrom base r ≤ e.start

/-- The standing message that starts at an address. -/
def recordAt (base : Nat) (r : Level) (a : Nat) : Option Recorded :=
  (r.cur ++ r.old.filter fun e => intactFrom base r ≤ e.start).find? fun e => e.start = a

theorem Standing.mem_log (h : Standing base r e) : e ∈ r.log :=
  h.elim (fun h => (sublist_cur r).subset h) fun h => (sublist_old r).subset h.1

theorem standing_of_recordAt {a : Nat} (h : recordAt base r a = some e) :
    Standing base r e ∧ e.start = a := by
  have hmem := List.mem_of_find?_eq_some h
  have hstart := List.find?_some h
  rw [decide_eq_true_eq] at hstart
  refine ⟨?_, hstart⟩
  rcases List.mem_append.mp hmem with hmem | hmem
  · exact Or.inl hmem
  · have := List.mem_filter.mp hmem
    exact Or.inr ⟨this.1, of_decide_eq_true this.2⟩

/-- The messages of a generation start at different addresses. -/
theorem Generation.start_inj {es : List Recorded} (h : Generation n base size es) {x : Recorded}
    (he : e ∈ es) (hx : x ∈ es) (hs : x.start = e.start) : x = e := by
  obtain ⟨pre, post, rfl⟩ := List.append_of_mem he
  have hl := (laid_append _ _ _).mp h.laid
  have hstart : e.start = genEnd n base pre := hl.2.1
  rcases List.mem_append.mp hx with hx | hx
  · have hend := hl.1.end_le hx
    rw [Recorded.bytes_length, Hit.size] at hend
    unfold genEnd at hstart
    omega
  rcases List.mem_cons.mp hx with rfl | hx
  · rfl
  · have hge := hl.2.2.start_ge hx
    rw [Recorded.bytes_length, Hit.size] at hge
    unfold genEnd at hstart
    omega

/-- A message since the last wrap starts in front of what is left of the
previous generation. -/
theorem start_lt_intactFrom (hi : Inv n base size r) (he : e ∈ r.cur) :
    e.start < intactFrom base r := by
  have hend := hi.cur_gen.laid.end_le he
  have hptr := hi.ptr_eq
  rw [intactFrom, if_neg (List.ne_nil_of_mem he)]
  unfold genEnd at hptr
  omega

/-- A standing message is the one that is found where it starts. -/
theorem Standing.recordAt_eq (hi : Inv n base size r) (h : Standing base r e) :
    recordAt base r e.start = some e := by
  have hfound : (recordAt base r e.start).isSome := by
    rw [recordAt, List.find?_isSome]
    refine ⟨e, ?_, decide_eq_true rfl⟩
    rcases h with h | ⟨h, hlim⟩
    · exact List.mem_append_left _ h
    · exact List.mem_append_right _ (List.mem_filter.mpr ⟨h, decide_eq_true hlim⟩)
  obtain ⟨x, hx⟩ := Option.isSome_iff_exists.mp hfound
  obtain ⟨hstand, hstart⟩ := standing_of_recordAt hx
  rw [hx, Option.some.injEq]
  rcases hstand with hxc | ⟨hxo, hxl⟩
  · rcases h with h | ⟨_, hlim⟩
    · exact hi.cur_gen.start_inj h hxc hstart
    · have := start_lt_intactFrom hi hxc
      omega
  · rcases h with h | ⟨h, _⟩
    · have := start_lt_intactFrom hi h
      omega
    · exact hi.old_gen.start_inj h hxo hstart

theorem Standing.intact (hi : Inv n base size r) (hl : LogOk (Described msgs) r.log)
    (h : Standing base r e) : Intact msgs n r.mem e.start e.hit := by
  have hd := hl.each e h.mem_log
  rcases h with h | ⟨h, hlim⟩
  · exact ⟨hi.cur_gen.laid.holds hi.cur_bytes h, hi.cur_gen.fits e h, hd⟩
  · have hne := List.ne_nil_of_mem h
    exact ⟨hi.old_gen.laid.holds_above (hi.old_bytes hne).left h hlim, hi.old_gen.fits e h, hd⟩

/-- A message that stands behind a write stood before, or is the new one. -/
theorem standing_of_trace (hi : Inv n base size r) {h : Hit} (hon : r.cs.off h.id = false)
    (hs : Standing base (r.trace n h) e) :
    Standing base r e ∨ e = ⟨r.rb.startPos, h⟩ := by
  have hcur : (r.trace n h).cur = r.wrap.cur ++ [⟨r.rb.startPos, h⟩] := by
    simp [trace, hon]
  have hold : (r.trace n h).old = r.wrap.old := rfl
  have hptr : (r.trace n h).rb.ptr = r.rb.startPos + h.size n := by
    simp only [trace, trace_ring hon, after]
  have hfrom : intactFrom base (r.trace n h) = r.rb.startPos + h.size n + 8 := by
    rw [intactFrom, hcur, if_neg (by simp), hptr]
  unfold Standing at hs
  rw [hcur, hold, hfrom] at hs
  rcases Nat.lt_or_ge r.rb.ptr r.rb.bufEnd with hlt | hle
  · rw [wrap_of_lt hlt, startPos, if_neg (by omega), List.mem_append, List.mem_singleton] at hs
    rw [startPos, if_neg (by omega)]
    rcases hs with (hs | hs) | ⟨hs, hlim⟩
    · exact Or.inl (Or.inl hs)
    · exact Or.inr hs
    · refine Or.inl (Or.inr ⟨hs, ?_⟩)
      have hge : base + headerSize ≤ r.rb.ptr := by rw [hi.ptr_eq]; exact le_endOf _ _
      unfold intactFrom
      split <;> omega
  · have h1 : r.wrap.cur = [] := by unfold wrap; rw [if_pos hle]
    have h2 : r.wrap.old = r.cur := by unfold wrap; rw [if_pos hle]
    rw [h1, h2, List.nil_append, List.mem_singleton] at hs
    rcases hs with hs | ⟨hs, -⟩
    · exact Or.inr hs
    · exact Or.inl (Or.inl hs)

/-! ## Messages the reader has behind it -/

/-- Where the reader goes from a message that ends at `q`: there, or back to
the start. -/
def wrapPos (base size q : Nat) : Nat := if areaEnd base size ≤ q then base + headerSize else q

/-- Where the reader goes from a message. -/
def behindPos (n base size : Nat) (e : Recorded) : Nat :=
  wrapPos base size (e.start + e.hit.size n)

/-- The reader of a level has the bounds the level has. -/
structure ReaderOf (base size : Nat) (rb : RingBuffer) : Prop where
  start : rb.start = base + headerSize
  end_ : rb.end_ = areaEnd base size

/-- The reader does not come to the message again. -/
inductive Past (n base size : Nat) (r : Level) (rb : RingBuffer) (e : Recorded) : Prop where
  | older (h : e.hit.tsc.toNat < rb.lastTsc)
  | overwritten (h : ¬ Standing base r e)
  | last (htsc : e.hit.tsc.toNat = rb.lastTsc) (hcur : rb.cur = behindPos n base size e)

theorem Past.trace (hi : Inv n base size r) {rb : RingBuffer} (hp : Past n base size r rb e)
    {h : Hit} (hon : r.cs.off h.id = false) (hlt : e.hit.tsc.toNat < h.tsc.toNat) :
    Past n base size (r.trace n h) rb e := by
  cases hp with
  | older h => exact .older h
  | last htsc hcur => exact .last htsc hcur
  | overwritten hnot =>
    refine .overwritten fun hs => ?_
    rcases standing_of_trace hi hon hs with hs | rfl
    · exact hnot hs
    · exact Nat.lt_irrefl _ hlt

/-- A short message does not reach from the start to the trailer. -/
theorem behindPos_ne (hg : Geometry size) (hfit : FitsTrailer n e.hit) :
    behindPos n base size e ≠ e.start := by
  have hkib := hg.kib
  have hshort : e.hit.size n + 8 ≤ 256 := hfit
  have hsize : 13 ≤ e.hit.size n := Nat.le_add_right _ _
  unfold behindPos wrapPos areaEnd headerSize TrailerSize
  split <;> omega

theorem fits_of_standing (hi : Inv n base size r) (h : Standing base r e) :
    FitsTrailer n e.hit :=
  h.elim (fun h => hi.cur_gen.fits e h) fun h => hi.old_gen.fits e h.1

/-- A message the reader has behind it does not stand at the cursor. -/
theorem Past.cur_ne (hg : Geometry size) (hi : Inv n base size r) {rb : RingBuffer}
    (hp : Past n base size r rb e) (hs : Standing base r e) (hle : rb.lastTsc ≤ e.hit.tsc.toNat) :
    rb.cur ≠ e.start := by
  cases hp with
  | older h => omega
  | overwritten h => exact absurd hs h
  | last _ hcur => rw [hcur]; exact behindPos_ne hg (fits_of_standing hi hs)

/-- A reset makes every message older. -/
theorem Past.reset {rb rb' : RingBuffer} (hp : Past n base size r rb e)
    (h : rb.reset = some rb') : Past n base size r rb' e := by
  unfold RingBuffer.reset at h
  split at h
  · cases h
  · cases h
    cases hp with
    | older h => exact .older (by simp only; omega)
    | overwritten h => exact .overwritten h
    | last htsc _ => exact .older (by simp only; omega)

/-! ## Behind the last message -/

/-- The message at the start of a generation is the first of it. -/
theorem load_first (hi : Inv n base size r) (hl : LogOk (Described msgs) r.log) {x : Recorded}
    {es : List Recorded} (hcur : r.cur = x :: es) :
    r.mem.load (base + headerSize) 8 = x.hit.tsc.toNat := by
  have hs := cur_segment hi hl
  rw [hcur] at hs
  exact hs.head_intact.load_tsc

/-- Where the next message stands. -/
theorem next_start {es pre post : List Recorded} {x : Recorded} (h : Generation n base size es)
    (hes : es = pre ++ e :: x :: post) : x.start = e.start + e.hit.size n
      ∧ e.start + e.hit.size n < areaEnd base size := by
  have hlaid := h.laid
  rw [hes, laid_append] at hlaid
  have hx := hlaid.2.2.1
  rw [Recorded.bytes_length, ← hlaid.2.1] at hx
  have hlt := h.start_lt x (by rw [hes]; simp)
  unfold areaEnd
  omega

/-- Where a generation ends. -/
theorem last_end {es pre : List Recorded} (h : Generation n base size es)
    (hes : es = pre ++ [e]) : genEnd n base es = e.start + e.hit.size n := by
  have hlaid := h.laid
  rw [hes] at hlaid
  have hstart : e.start = genEnd n base pre := hlaid.start_eq
  rw [hes, genEnd_concat, ← hstart]

/-- Behind the last message of the current generation stands the zero mark,
or the cursor is at the start, where an older message stands. -/
theorem nextTsc_drained (hg : Geometry size) (hi : Inv n base size r)
    (hl : LogOk (Described msgs) r.log) {rb : RingBuffer} (hr : ReaderOf base size rb)
    {pre : List Recorded} (hcur : r.cur = pre ++ [e]) (htsc : rb.lastTsc = e.hit.tsc.toNat)
    (hc : rb.cur = behindPos n base size e) : rb.nextTsc r.mem = 0 := by
  have hkib := hg.kib
  have hend := last_end hi.cur_gen hcur
  have hmem : e ∈ r.cur := by rw [hcur]; simp
  unfold RingBuffer.nextTsc
  unfold behindPos wrapPos at hc
  rcases Nat.lt_or_ge (e.start + e.hit.size n) (areaEnd base size) with hlt | hge
  · rw [if_neg (by omega), ← hend, ← hi.ptr_eq] at hc
    have hz := load_mark hi (Or.inl (List.ne_nil_of_mem hmem))
    simp only [hc, hz]
    split <;> rfl
  · rw [if_pos hge] at hc
    -- the generation has several messages, and the first is older
    rcases pre with _ | ⟨x, pre⟩
    · have hstart : e.start = base + headerSize := by
        have := hi.cur_gen.laid
        rw [hcur] at this
        exact this.1
      have hshort : e.hit.size n + 8 ≤ 256 := hi.cur_gen.fits e hmem
      unfold areaEnd TrailerSize at hge
      unfold headerSize at hstart
      omega
    · have hload := load_first hi hl (show r.cur = x :: (pre ++ [e]) from hcur)
      have hsorted := (hl.sublist (sublist_cur r)).sorted
      rw [hcur, List.cons_append, List.pairwise_cons] at hsorted
      have hlt := hsorted.1 e (by simp)
      simp only [hc, hload, hr.start]
      rw [if_pos ⟨trivial, by omega⟩]

/-- Behind a message stands the next one of its generation. -/
theorem nextTsc_next (hi : Inv n base size r) (hl : LogOk (Described msgs) r.log)
    {rb : RingBuffer} {x : Recorded} {es pre post : List Recorded}
    (hgen : Generation n base size es) (hes : es = pre ++ e :: x :: post)
    (hx : Standing base r x) (hlt : e.hit.tsc.toNat < x.hit.tsc.toNat)
    (htsc : rb.lastTsc = e.hit.tsc.toNat) (hc : rb.cur = behindPos n base size e) :
    rb.nextTsc r.mem = x.hit.tsc.toNat := by
  obtain ⟨hstart, hin⟩ := next_start hgen hes
  rw [behindPos, wrapPos, if_neg (by omega), ← hstart] at hc
  have hintact := hx.intact hi hl
  rw [← hc] at hintact
  exact RingBuffer.nextTsc_intact hintact (by omega)

/-- Behind the last message the reader has read no message shows that is not
younger. -/
theorem nextTsc_behind (hg : Geometry size) (hi : Inv n base size r)
    (hl : LogOk (Described msgs) r.log) (hstarted : r.cur = [] → r.log = []) {rb : RingBuffer}
    (hr : ReaderOf base size rb) (hs : Standing base r e)
    (htsc : e.hit.tsc.toNat = rb.lastTsc) (hc : rb.cur = behindPos n base size e) :
    rb.nextTsc r.mem = 0 ∨ rb.lastTsc < rb.nextTsc r.mem := by
  rcases hs with hs | ⟨hs, hlim⟩
  · obtain ⟨pre, post, hcur⟩ := List.append_of_mem hs
    rcases post with _ | ⟨x, post⟩
    · exact Or.inl (nextTsc_drained hg hi hl hr hcur htsc.symm hc)
    · have hsorted := (hl.sublist (sublist_cur r)).sorted
      rw [hcur, List.pairwise_append, List.pairwise_cons] at hsorted
      have hlt := hsorted.2.1.1 x (by simp)
      have hx : Standing base r x := Or.inl (by rw [hcur]; simp)
      have := nextTsc_next hi hl hi.cur_gen hcur hx hlt htsc.symm hc
      omega
  · obtain ⟨pre, post, hold⟩ := List.append_of_mem hs
    rcases post with _ | ⟨x, post⟩
    · -- the previous generation ends here, and the cursor is at the start
      have hne := List.ne_nil_of_mem hs
      have hfull := hi.old_full hne
      rw [last_end hi.old_gen hold] at hfull
      rw [behindPos, wrapPos, if_pos (show areaEnd base size ≤ _ from hfull)] at hc
      have hcur : r.cur ≠ [] := fun h => by
        have := (sublist_old r).subset hs
        rw [hstarted h] at this
        cases this
      obtain ⟨x, es, hxs⟩ := List.exists_cons_of_ne_nil hcur
      have hsorted := hl.sorted
      rw [log, hold, hxs, List.pairwise_append] at hsorted
      have hlt := hsorted.2.2 e (by simp) x (by simp)
      have hx : Standing base r x := Or.inl (by rw [hxs]; simp)
      have hstart : x.start = base + headerSize := by
        have := hi.cur_gen.laid
        rw [hxs] at this
        exact this.1
      have hintact := hx.intact hi hl
      rw [hstart, ← hc] at hintact
      have := RingBuffer.nextTsc_intact hintact (by omega)
      omega
    · have hsorted := (hl.sublist (sublist_old r)).sorted
      rw [hold, List.pairwise_append, List.pairwise_cons] at hsorted
      have hlt := hsorted.2.1.1 x (by simp)
      have hxs := (next_start hi.old_gen hold).1
      have hx : Standing base r x := Or.inr ⟨by rw [hold]; simp, by omega⟩
      have := nextTsc_next hi hl hi.old_gen hold hx hlt htsc.symm hc
      omega

/-- What the reader takes for the next message leaves it behind the messages
it has behind it. -/
theorem Past.advance (hg : Geometry size) (hi : Inv n base size r)
    (hl : LogOk (Described msgs) r.log) (hstarted : r.cur = [] → r.log = []) {rb : RingBuffer}
    (hr : ReaderOf base size rb) (hp : Past n base size r rb e) (hpos : rb.nextTsc r.mem ≠ 0)
    (hle : rb.lastTsc ≤ rb.nextTsc r.mem) (length : Nat) :
    Past n base size r (rb.advance (rb.nextTsc r.mem) length) e := by
  by_cases hs : Standing base r e
  · refine .older ?_
    simp only [RingBuffer.advance]
    cases hp with
    | older h => omega
    | overwritten h => exact absurd hs h
    | last htsc hcur =>
      have := nextTsc_behind hg hi hl hstarted hr hs htsc hcur
      omega
  · exact .overwritten hs

/-- The message the reader has just printed is behind it. -/
theorem past_advance {rb : RingBuffer} (hr : ReaderOf base size rb) (hc : rb.cur = e.start) :
    Past n base size r (rb.advance e.hit.tsc.toNat (encodeArgs n e.hit.args).length) e := by
  have hq : e.start + 13 + (encodeArgs n e.hit.args).length = e.start + e.hit.size n := by
    rw [Intact.size_eq]; omega
  refine .last rfl ?_
  simp only [RingBuffer.advance, behindPos, wrapPos, hc, hq, hr.start, hr.end_]

end Level

/-! ## What the reader makes of the bytes at its cursor -/

/-- The reader behind a call of `dump`: an error resets it. -/
def RingBuffer.afterDump (rb : RingBuffer) :
    Except CorruptionError (Bool × RingBuffer) → RingBuffer
  | .ok (_, rb') => rb'
  | .error _ => rb.reset.getD rb

namespace Level

variable {msgs : Messages} {n base size : Nat} {r : Level} {rb : RingBuffer}

/-- The lines of a call of `dump`: none, one that is decoded from no standing
record, or the one that shows the message standing at the cursor. -/
inductive Read (msgs : Messages) (n base : Nat) (r : Level) (rb : RingBuffer) :
    RingBuffer → List Line → Prop where
  | nothing (rb' : RingBuffer) : Read msgs n base r rb rb' []
  | foreign (rb' : RingBuffer) (l : Line) (hrec : recordAt base r rb.cur = none) :
      Read msgs n base r rb rb' [l]
  | own (e : Recorded) (l : Line) (hrec : recordAt base r rb.cur = some e)
      (hle : rb.lastTsc ≤ e.hit.tsc.toNat) (hlevel : l.level = rb.level)
      (hs : Shows msgs n l e.hit) :
      Read msgs n base r rb
        (rb.advance e.hit.tsc.toNat (encodeArgs n e.hit.args).length) [l]

/-- What a step of the reader keeps: its bounds, and what it has behind it. -/
structure Keeps (n base size : Nat) (r : Level) (rb rb' : RingBuffer) : Prop where
  reader : ReaderOf base size rb'
  level : rb'.level = rb.level
  past : ∀ e, Past n base size r rb e → Past n base size r rb' e

theorem keeps_reset (hr : ReaderOf base size rb) :
    Keeps n base size r rb (rb.reset.getD rb) := by
  cases h : rb.reset with
  | none => exact ⟨hr, rfl, fun _ hp => hp⟩
  | some rb' =>
    refine ⟨?_, ?_, fun e hp => hp.reset h⟩ <;> unfold RingBuffer.reset at h <;> split at h <;>
      cases h
    · exact ⟨hr.start, hr.end_⟩
    · rfl

theorem keeps_waits (hr : ReaderOf base size rb) :
    Keeps n base size r rb { rb with corruption := rb.corruption + 1 } := by
  refine ⟨⟨hr.start, hr.end_⟩, rfl, fun e hp => ?_⟩
  cases hp with
  | older h => exact .older h
  | overwritten h => exact .overwritten h
  | last htsc hcur => exact .last htsc hcur

theorem keeps_advance (hg : Geometry size) (hi : Inv n base size r)
    (hl : LogOk (Described msgs) r.log) (hstarted : r.cur = [] → r.log = [])
    (hr : ReaderOf base size rb) {tail : Bool} {curTsc : Nat} {mf : MessageFormatter}
    {length nt : Nat} (ha : rb.Accepts r.mem msgs tail curTsc mf length nt) (k : Nat) :
    Keeps n base size r rb (rb.advance (rb.nextTsc r.mem) k) := by
  have hvalid := ha.valid
  rw [RingBuffer.isValidTsc, Bool.and_eq_true, Bool.and_eq_true, decide_eq_true_eq,
    decide_eq_true_eq] at hvalid
  exact ⟨⟨hr.start, hr.end_⟩, rfl,
    fun e hp => hp.advance hg hi hl hstarted hr ha.pos hvalid.1.2 k⟩

/-- Whatever stands at the cursor, a call of `dump` leaves behind what was
behind the reader, and prints a recorded message only from its standing
record. -/
theorem dump_read (hn : n ≤ 80) (hg : Geometry size) (hi : Inv n base size r)
    (hl : LogOk (Described msgs) r.log) (hstarted : r.cur = [] → r.log = [])
    (hr : ReaderOf base size rb) (orderTsc curTsc : Nat) (out : Output) :
    ∃ ls, (rb.dump r.mem msgs true orderTsc curTsc out).2.lines = out.lines ++ ls
      ∧ Keeps n base size r rb (rb.afterDump (rb.dump r.mem msgs true orderTsc curTsc out).1)
      ∧ Read msgs n base r rb
          (rb.afterDump (rb.dump r.mem msgs true orderTsc curTsc out).1) ls := by
  have hd := RingBuffer.dump_cases rb r.mem msgs true orderTsc curTsc out
  generalize hres : rb.dump r.mem msgs true orderTsc curTsc out = d at hd
  -- the record at the cursor, if there is one, decides what is printed
  have hown : ∀ {mf length nt}, rb.Accepts r.mem msgs true curTsc mf length nt →
      orderTsc = rb.nextTsc r.mem → ∀ {e}, recordAt base r rb.cur = some e →
      ∃ l out', d = (.ok (true, rb.advance e.hit.tsc.toNat (encodeArgs n e.hit.args).length), out')
        ∧ out'.lines = out.lines ++ [l] ∧ rb.lastTsc ≤ e.hit.tsc.toNat
        ∧ Shows msgs n l e.hit ∧ l.level = rb.level := by
    intro mf length nt ha ho e he
    obtain ⟨hstand, hstart⟩ := standing_of_recordAt he
    have hintact := hstand.intact hi hl
    rw [hstart] at hintact
    obtain ⟨htsc, hexp, hpl⟩ := ha.of_intact hn hintact
    obtain ⟨l, out', hdump, hlines, hsh, hlevel⟩ := RingBuffer.dump_intact hn hintact hexp hpl out
    rw [← htsc, ← ho, hres, ho, htsc] at hdump
    exact ⟨l, out', hdump, hlines, hexp.last, hsh, hlevel⟩
  cases hd with
  | waits ok => exact ⟨[], (List.append_nil _).symm, keeps_waits hr, .nothing _⟩
  | fails err => exact ⟨[], (List.append_nil _).symm, keeps_reset hr, .nothing _⟩
  | printed k l out' ha ho hlines =>
    have hkeeps := keeps_advance hg hi hl hstarted hr ha k
    refine ⟨[l], hlines, hkeeps, ?_⟩
    cases hrec : recordAt base r rb.cur with
    | none => exact .foreign _ l hrec
    | some e =>
      obtain ⟨l', out'', heq, hlines', hle, hsh, hlevel⟩ := hown ha ho hrec
      simp only [Prod.mk.injEq, Except.ok.injEq, true_and] at heq
      obtain ⟨hadv, rfl⟩ := heq
      rw [hlines] at hlines'
      obtain rfl : l = l' := by simpa using hlines'
      show Read msgs n base r rb (rb.advance (rb.nextTsc r.mem) k) [l]
      rw [hadv]
      exact .own e l hrec hle hlevel hsh
  | broken err l out' ha ho hlines =>
    refine ⟨[l], hlines, keeps_reset hr, ?_⟩
    cases hrec : recordAt base r rb.cur with
    | none => exact .foreign _ l hrec
    | some e =>
      obtain ⟨_, _, heq, -⟩ := hown ha ho hrec
      cases heq

end Level

end QuickTrace
