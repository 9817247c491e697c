/-
QuickTrace.Tail.CatTheorems — `qttail -c` on one level.

`rewind_cases` says where the reader finds the first message; `start_yields`,
`split_yields` and `behind_yields` say what the level yields from there.
Together (`rewind_yields`, `cat_complete_iff`): nothing that is intact is lost, but in one alignment,
when the last message of the previous generation starts exactly eight bytes
behind the writer, nothing is printed at all.
-/
import QuickTrace.Tail.LevelSegment

namespace QuickTrace

open QuickTrace.Lib RingBuf

namespace Level

variable {msgs : Messages} {n base size : Nat} {r : Level}

/-! ## The last timestamp of a run -/

theorem le_lastTscOf {P : Hit → Prop} : ∀ {es : List Recorded} {e : Recorded},
    LogOk P (e :: es) → ∀ x ∈ e :: es, x.hit.tsc.toNat ≤ lastTscOf e.hit.tsc.toNat es
  | [], e, _, x, hx => by rw [List.mem_singleton.mp hx]; exact Nat.le_refl _
  | y :: es, e, h, x, hx => by
      have hrest := le_lastTscOf (h.sublist (List.sublist_cons_self e (y :: es)))
      rcases List.mem_cons.mp hx with rfl | hx
      · have hlt := (List.pairwise_cons.mp h.sorted).1 y (by simp)
        exact Nat.le_trans (Nat.le_of_lt hlt) (hrest y (by simp))
      · exact hrest x hx

/-- The first of several messages is older than the last. -/
theorem lt_lastTscOf {P : Hit → Prop} {e y : Recorded} {es : List Recorded}
    (h : LogOk P (e :: y :: es)) :
    e.hit.tsc.toNat < lastTscOf e.hit.tsc.toNat (y :: es) :=
  Nat.lt_of_lt_of_le ((List.pairwise_cons.mp h.sorted).1 y (by simp))
    (le_lastTscOf (h.sublist (List.sublist_cons_self _ _)) y (by simp))

/-- The last timestamp of a run is that of one of its messages. -/
theorem lastTscOf_mem : ∀ (es : List Recorded) (e : Recorded),
    ∃ x ∈ e :: es, lastTscOf e.hit.tsc.toNat es = x.hit.tsc.toNat
  | [], e => ⟨e, by simp, rfl⟩
  | y :: es, e => by
      obtain ⟨x, hx, h⟩ := lastTscOf_mem es y
      exact ⟨x, List.mem_cons_of_mem _ hx, h⟩

/-- A generation that reaches the trailer has several messages. -/
theorem Generation.two {es : List Recorded} {e : Recorded} (hg : Geometry size)
    (h : Generation n base size (e :: es)) (hfull : areaEnd base size ≤ genEnd n base (e :: es)) :
    es ≠ [] := by
  rintro rfl
  have hkib := hg.kib
  have hfit := h.fits e (by simp)
  unfold FitsTrailer at hfit
  unfold areaEnd genEnd at hfull
  rw [endOf_cons, endOf_nil, Recorded.bytes_length] at hfull
  simp only [headerSize, TrailerSize] at hfull hfit
  omega

/-! ## After the last message -/

/-- Behind a generation that was read from the start there is nothing to
read: a zero mark, or an old timestamp at the start. -/
theorem generation_drained (hg : Geometry size) {es : List Recorded} {e : Recorded}
    {m : Mem} {rb : RingBuffer} {s : Nat} (pre : List Recorded)
    (hgen : Generation n base size (pre ++ e :: es))
    (hlog : LogOk (Described msgs) (pre ++ e :: es))
    (hcur : rb.cur = genEnd n base pre) (hstart : rb.start = base + headerSize)
    (hend : rb.end_ = areaEnd base size) (hs : s = genEnd n base (pre ++ e :: es))
    (hload : s < areaEnd base size → m.load s 8 = 0)
    (hfirst : ∀ x, (pre ++ e :: es).head? = some x →
      m.load (base + headerSize) 8 = x.hit.tsc.toNat) :
    (Tail.behind n rb e es).nextTsc m = 0 := by
  have hq : endOf (Recorded.bytes n) rb.cur (e :: es) = s := by
    rw [hcur, hs]; exact (endOf_append _ _ _).symm
  unfold RingBuffer.nextTsc Tail.behind
  simp only [hq, hend]
  rcases Nat.lt_or_ge s (areaEnd base size) with hlt | hge
  · have hc : (if areaEnd base size ≤ s then rb.start else s) = s := if_neg (by omega)
    simp only [hc, hload hlt]
    split <;> rfl
  · simp only [hstart, if_pos hge]
    rcases pre with _ | ⟨x, pre⟩
    · -- the run is the whole generation, and stands at the start
      have htwo := Generation.two hg hgen (hs ▸ hge)
      obtain ⟨y, es', rfl⟩ := List.exists_cons_of_ne_nil htwo
      rw [hfirst e rfl, if_pos ⟨trivial, lt_lastTscOf hlog⟩]
    · have hpw := (List.pairwise_cons.mp hlog.sorted).1
      obtain ⟨y, hy, hly⟩ := lastTscOf_mem es e
      have hlt := hpw y (List.mem_append_right _ hy)
      rw [hfirst x rfl, if_pos ⟨trivial, by rw [hly]; exact hlt⟩]

end Level

/-! ## The loops of `rewind` -/

namespace RingBuffer

open Level

variable {msgs : Messages} {n : Nat} {m : Mem}

/-- The forward loop stops at the end of the area or in front of no
message. -/
theorem forward_stop (rb : RingBuffer) (h : rb.end_ ≤ rb.cur ∨ rb.nextTsc m = 0)
    (tailing : Bool) (fuel : Nat) : rb.forward m msgs tailing fuel = some rb := by
  cases fuel with
  | zero => rfl
  | succ fuel =>
    rw [forward]
    split
    · rename_i hlt
      have hz : rb.nextTsc m = 0 := by omega
      have : rb.next m msgs tailing UINT64_MAX = .ok none := by
        unfold next
        simp only [hz, if_true]
      simp only [this]
    · rfl

theorem walkBack_stop {splitPoint : Nat} {w : Walk} (h : w.p ≤ splitPoint) (fuel : Nat) :
    walkBack m splitPoint fuel w = w := by
  cases fuel with
  | zero => rfl
  | succ fuel => rw [walkBack, if_neg (by omega)]

/-- The length byte of the last record of a layout. -/
theorem last_length_byte {a lim : Nat} {ys : List Recorded} {y : Recorded}
    (hl : Laid (Recorded.bytes n) Recorded.start a (ys ++ [y]))
    (hm : m.HoldsAbove lim a ((ys ++ [y]).flatMap (Recorded.bytes n)))
    (hfit : FitsTrailer n y.hit) (hlim : lim < y.start + y.hit.size n) :
    1 + (m (y.start + y.hit.size n - 1)).toNat = y.hit.size n := by
  unfold FitsTrailer at hfit
  simp only [TrailerSize] at hfit
  have hsize : y.hit.size n = (y.hit.payload n).length + 1 := by
    simp only [Hit.size, Hit.payload_length]; omega
  rw [List.flatMap_append, List.flatMap_cons, List.flatMap_nil, List.append_nil] at hm
  have hstart : y.start = a + (ys.flatMap (Recorded.bytes n)).length := hl.start_eq
  have hbyte := hm.right (y.hit.payload n).length (UInt8.ofNat (y.hit.payload n).length)
    (by simp [Recorded.bytes, Hit.record]) (by rw [← hstart]; omega)
  rw [← hstart] at hbyte
  have haddr : y.start + y.hit.size n - 1 = y.start + (y.hit.payload n).length := by omega
  rw [haddr, hbyte, toNat_length_byte (by omega)]
  omega

/-- The backward loop goes from boundary to boundary and ends at the message
that contains the split point, having counted it and those behind it. -/
theorem walkBack_spec {a lim : Nat} (hal : a ≤ lim) (pre : List Recorded) :
    Laid (Recorded.bytes n) Recorded.start a pre →
    m.HoldsAbove lim a (pre.flatMap (Recorded.bytes n)) → (∀ e ∈ pre, FitsTrailer n e.hit) →
    lim < endOf (Recorded.bytes n) a pre → ∀ (fuel c k : Nat), pre.length ≤ fuel →
    ∃ pre' x post, pre = pre' ++ x :: post ∧ x.start ≤ lim ∧ lim < x.start + x.hit.size n
      ∧ walkBack m lim fuel ⟨endOf (Recorded.bytes n) a pre, c, k⟩
          = ⟨x.start, x.start + x.hit.size n, k + 1 + post.length⟩ := by
  induction pre using List.reverseRecOn with
  | nil =>
    intro _ _ _ hlt
    rw [endOf_nil] at hlt
    omega
  | append_singleton ys y ih =>
    intro hl hm hfit hlt fuel c k hfuel
    have hstart := hl.start_eq
    have hend : endOf (Recorded.bytes n) a (ys ++ [y]) = y.start + y.hit.size n := by
      rw [endOf_append, endOf_cons, endOf_nil, Recorded.bytes_length, hstart]
    rw [hend] at hlt ⊢
    have hbyte := last_length_byte hl hm (hfit y (by simp)) hlt
    cases fuel with
    | zero => simp at hfuel
    | succ fuel =>
      rw [walkBack]
      simp only
      rw [if_pos hlt, hbyte, Nat.add_sub_cancel]
      rcases Nat.lt_or_ge lim y.start with hback | hstop
      · have hm' : m.HoldsAbove lim a (ys.flatMap (Recorded.bytes n)) := by
          rw [List.flatMap_append] at hm
          exact hm.left
        rw [List.length_append, List.length_singleton] at hfuel
        obtain ⟨pre', x, post, hys, h1, h2, h3⟩ :=
          ih ((laid_append _ _ _).mp hl).1 hm' (fun e he => hfit e (by simp [he]))
            (by rw [← hstart]; exact hback) fuel (y.start + y.hit.size n) (k + 1) (by omega)
        refine ⟨pre', x, post ++ [y], by rw [hys]; simp, h1, h2, ?_⟩
        rw [← hstart] at h3
        rw [h3, List.length_append, List.length_singleton]
        congr 1
        omega
      · exact ⟨ys, y, [], rfl, hstop, hlt, by rw [walkBack_stop hstop]; rfl⟩

end RingBuffer

namespace Level

open RingBuffer

variable {msgs : Messages} {n base size level : Nat} {r : Level}

/-! ## Where the reader starts -/

/-- The reader of the level. -/
def reader (level base size : Nat) : RingBuffer := RingBuffer.create level base (base + size)

/-- The reader at the message it starts with. -/
def readerAt (level base size : Nat) (m : Mem) (c : Nat) : RingBuffer :=
  ⟨0, level, base + headerSize, areaEnd base size, c, m.load c 8⟩

/-- The reader while `rewind` looks for that message. -/
def rewinding (level base size c t : Nat) : RingBuffer :=
  ⟨corruptionThreshold, level, base + headerSize, areaEnd base size, c, t⟩

/-- The last message of the previous generation starts exactly eight bytes
behind the writer. -/
def Aligned (r : Level) : Prop :=
  ∃ e, r.old.getLast? = some e ∧ e.start = r.rb.ptr + 8

instance (r : Level) : Decidable (Aligned r) :=
  match h : r.old.getLast? with
  | none => isFalse fun ⟨_, h', _⟩ => nomatch h.symm.trans h'
  | some e => decidable_of_iff (e.start = r.rb.ptr + 8)
      ⟨fun hs => ⟨e, h, hs⟩, fun ⟨_, h', hs⟩ => by cases h.symm.trans h'; exact hs⟩

theorem rewind_eq (m : Mem) :
    (reader level base size).rewind m msgs false
      = ((if m.load base 4 = 0 then some (rewinding level base size (base + headerSize) 0)
          else ((rewinding level base size (base + headerSize) 0).forward m msgs false
            (areaEnd base size)).map (seek m · (m.load base 4))).map fun rb =>
        { rb with lastTsc := m.load rb.cur 8, corruption := 0 }) := rfl

theorem rewind_unwrapped (h : r.mem.load base 4 = 0) :
    (reader level base size).rewind r.mem msgs false
      = some (readerAt level base size r.mem (base + headerSize)) := by
  rw [rewind_eq, if_pos h]
  rfl

/-- `seek` moves the cursor and nothing else. -/
theorem seek_fields (m : Mem) (rb : RingBuffer) (e : Nat) :
    seek m rb e = { rb with cur := (seek m rb e).cur } := by
  unfold seek
  dsimp only
  split
  · rfl
  · split <;> rfl

/-- A wrapped ring: `seek` decides from the end of the forward loop. -/
theorem rewind_wrapped {q t : Nat} (h : r.mem.load base 4 ≠ 0)
    (hf : (rewinding level base size (base + headerSize) 0).forward r.mem msgs false
        (areaEnd base size) = some (rewinding level base size q t)) :
    (reader level base size).rewind r.mem msgs false
      = some (readerAt level base size r.mem
          (seek r.mem (rewinding level base size q t) (r.mem.load base 4)).cur) := by
  rw [rewind_eq, if_neg h, hf, Option.map_some, Option.map_some, seek_fields]
  rfl

theorem Generation.length_le (hg : Geometry size) {es : List Recorded}
    (h : Generation n base size es) : es.length ≤ areaEnd base size := by
  have h1 := length_le_bytes (n := n) es
  have h2 := h.end_le hg
  have h3 := hg.kib
  unfold genEnd endOf at h2
  simp only [areaEnd, TrailerSize, headerSize] at h2 ⊢
  omega

/-- The forward loop over a generation that stands at the start. -/
theorem forward_generation (level : Nat) (hn : n ≤ 80) (hg : Geometry size) {es : List Recorded}
    (hgen : Generation n base size es)
    (hs : Segment msgs n r.mem (base + headerSize) (areaEnd base size) es)
    (he : (rewinding level base size (base + headerSize) 0).EndOk r.mem n false UINT64_MAX
      (base + headerSize) es)
    (hstop : areaEnd base size ≤ genEnd n base es ∨ r.mem.load (genEnd n base es) 8 = 0) :
    ∃ t, (rewinding level base size (base + headerSize) 0).forward r.mem msgs false
        (areaEnd base size) = some (rewinding level base size (genEnd n base es) t) := by
  obtain ⟨fuel, hfuel⟩ := Nat.exists_eq_add_of_le' (hgen.length_le hg)
  refine ⟨lastTscOf 0 es, ?_⟩
  rw [hfuel]
  rw [forward_segment hn es (rewinding level base size (base + headerSize) 0) hs
    (fun e _ => Nat.zero_le _) he fuel]
  refine forward_stop (rewinding level base size (genEnd n base es) (lastTscOf 0 es))
    (hstop.imp id fun hz => ?_) false fuel
  unfold RingBuffer.nextTsc rewinding
  simp only [hz]
  split <;> rfl

/-- Where the first message is found: at the start, with nothing older
behind the writer; at a message of the previous generation; or, in the one
alignment, behind the last of them. -/
inductive Found (n base : Nat) (r : Level) (c : Nat) : Prop where
  | start (hc : c = base + headerSize) (ha : ¬ Aligned r)
    (h : r.cur ≠ [] → ∀ e ∈ r.old, e.start ≤ r.rb.ptr + 8)
  | split {pre post : List Recorded} (hold : r.old = pre ++ post) (hpost : post ≠ [])
    (hc : c = genEnd n base pre) (hlt : r.rb.ptr + 8 < c) (hcur : r.cur ≠ [])
    (h : ∀ e ∈ pre, e.start ≤ r.rb.ptr + 8) (ha : ¬ Aligned r)
  | behind (hc : c = genEnd n base r.old) (hlt : r.rb.ptr + 8 < c) (hcur : r.cur ≠ [])
    (ha : Aligned r)

/-- An old message that starts where the writer has not come ends behind
it. -/
theorem aligned_lt (hi : Inv n base size r) (ha : Aligned r) :
    r.rb.ptr + 8 < genEnd n base r.old := by
  obtain ⟨e, he, hs⟩ := ha
  have hmem := List.mem_of_getLast? he
  have hend := hi.old_gen.laid.end_le hmem
  rw [Recorded.bytes_length, Hit.size] at hend
  unfold genEnd
  omega

/-- A level whose current generation is empty is not aligned. -/
theorem not_aligned_of_empty (hg : Geometry size) (hi : Inv n base size r)
    (hcur : r.cur = []) : ¬ Aligned r := by
  rintro ⟨e, he, hs⟩
  have hmem := List.mem_of_getLast? he
  have hne : r.old ≠ [] := List.ne_nil_of_mem hmem
  have hfull := hi.old_full hne
  have hkib := hg.kib
  have hfit := hi.old_gen.fits e hmem
  obtain ⟨pre, hpre⟩ := List.getLast?_eq_some_iff.mp he
  have hstart : e.start = genEnd n base pre := by
    have := hi.old_gen.laid
    rw [hpre] at this
    exact this.start_eq
  have hend : genEnd n base r.old = e.start + e.hit.size n := by
    rw [hpre, genEnd_concat, ← hstart]
  have hptr := hi.ptr_eq
  rw [hcur] at hptr
  simp only [genEnd, endOf_nil] at hptr
  unfold FitsTrailer at hfit
  simp only [TrailerSize, headerSize] at *
  omega

/-- Where `seek` goes when messages of the previous generation stand behind
the writer. -/
theorem seek_behind {m : Mem} {q t e p x k : Nat} (hp : p = base + headerSize - 4 + e)
    (hlt : q + 8 < p) {c : Nat}
    (hw : walkBack m (q + 8) p ⟨p, q, 0⟩ = ⟨x, c, k⟩) :
    (seek m (rewinding level base size q t) e).cur
      = if x < q + 8 ∧ k = 1 then base + headerSize else c := by
  unfold seek
  simp only [rewinding, ← hp, if_neg (Nat.not_le.mpr hlt), hw]
  split <;> rfl

theorem Generation.start_le {es : List Recorded} (h : Generation n base size es)
    {pre post : List Recorded} {x : Recorded} (hes : es = pre ++ x :: post) :
    ∀ e ∈ pre, e.start ≤ x.start := by
  intro e he
  have hl := h.laid
  rw [hes, laid_append] at hl
  have h1 := hl.1.end_le he
  have h2 : x.start = genEnd n base pre := hl.2.1
  rw [h2]
  exact Nat.le_trans (Nat.le_add_right _ _) h1

/-- The reader finds a first message. -/
theorem rewind_cases (level : Nat) (hn : n ≤ 80) (hg : Geometry size) (hi : Inv n base size r)
    (hl : LogOk (Described msgs) r.log) :
    ∃ c, (reader level base size).rewind r.mem msgs false
        = some (readerAt level base size r.mem c) ∧ Found n base r c := by
  by_cases hold : r.old = []
  · refine ⟨_, rewind_unwrapped (hi.fresh hold), .start rfl ?_ fun _ e he => ?_⟩
    · rintro ⟨e, he, -⟩
      rw [hold] at he
      cases he
    · rw [hold] at he
      cases he
  have htail := hi.tail hold
  have hge : base + headerSize ≤ genEnd n base r.old := le_endOf _ _
  have hp : genEnd n base r.old = base + headerSize - 4 + r.mem.load base 4 := by
    rw [htail]
    simp only [headerSize] at hge ⊢
    omega
  have hne : r.mem.load base 4 ≠ 0 := by
    rw [htail]
    simp only [headerSize] at hge
    omega
  by_cases hcur : r.cur = []
  · -- nothing of the current generation: the forward loop reads the previous one
    have hfrom : intactFrom base r = base + headerSize := if_pos hcur
    have hs := old_segment hi hl (List.nil_append r.old).symm hold
      (by rw [hfrom]; exact Nat.le_refl _)
    have he : (rewinding level base size (base + headerSize) 0).EndOk r.mem n false UINT64_MAX
        (genEnd n base []) r.old :=
      old_endOk hi (show (rewinding level base size (base + headerSize) 0).end_ = _ from rfl)
        (List.nil_append r.old).symm hold (by rw [hfrom]; exact hge)
    obtain ⟨t, hf⟩ := forward_generation level hn hg hi.old_gen hs he
      (Or.inl (hi.old_full hold))
    refine ⟨base + headerSize, ?_, .start rfl (not_aligned_of_empty hg hi hcur)
      fun h => absurd hcur h⟩
    rw [rewind_wrapped hne hf]
    have hseek : (seek r.mem (rewinding level base size (genEnd n base r.old) t)
        (r.mem.load base 4)).cur = base + headerSize := by
      unfold seek
      simp only [rewinding, ← hp, if_pos (Nat.le_add_right (genEnd n base r.old) 8)]
    rw [hseek]
  · have hmark := load_mark hi (Or.inl hcur)
    rw [hi.ptr_eq] at hmark
    obtain ⟨t, hf⟩ := forward_generation level hn hg hi.cur_gen (cur_segment hi hl)
      (cur_endOk hi) (Or.inr hmark)
    rw [← hi.ptr_eq] at hf
    refine ⟨_, rewind_wrapped hne hf, ?_⟩
    rcases Nat.lt_or_ge (r.rb.ptr + 8) (genEnd n base r.old) with hlt | hle
    · -- the backward loop goes to the message that contains the split point
      have hfrom : intactFrom base r = r.rb.ptr + 8 := if_neg hcur
      have hptr : base + headerSize ≤ r.rb.ptr + 8 := by
        have : base + headerSize ≤ r.rb.ptr := by rw [hi.ptr_eq]; exact le_endOf _ _
        omega
      have hbytes := (hi.old_bytes hold).left
      rw [hfrom] at hbytes
      have hfuel : r.old.length ≤ genEnd n base r.old := by
        have := length_le_bytes (n := n) r.old
        unfold genEnd endOf
        omega
      obtain ⟨pre, x, post, hsplit, hx, hxe, hw⟩ := walkBack_spec hptr r.old hi.old_gen.laid
        hbytes hi.old_gen.fits hlt (genEnd n base r.old) r.rb.ptr 0 hfuel
      have hgen := hi.old_gen
      have hstart : x.start = genEnd n base pre := by
        have := hgen.laid
        rw [hsplit, laid_append] at this
        exact this.2.1
      have hpre : ∀ e ∈ pre, e.start ≤ r.rb.ptr + 8 := fun e he =>
        Nat.le_trans (hgen.start_le hsplit e he) hx
      rw [seek_behind hp hlt hw]
      cases post with
      | nil =>
        have hlast : r.old.getLast? = some x := by rw [hsplit]; simp
        have hend : x.start + x.hit.size n = genEnd n base r.old := by
          rw [hsplit, genEnd_concat, hstart]
        rcases Nat.lt_or_eq_of_le hx with hx | hx
        · rw [if_pos ⟨hx, rfl⟩]
          refine .start rfl ?_ fun _ e he => ?_
          · rintro ⟨e, he, hs⟩
            cases hlast.symm.trans he
            omega
          · rw [hsplit] at he
            rcases List.mem_append.mp he with he | he
            · exact hpre e he
            · rw [List.mem_singleton.mp he]; omega
        · rw [if_neg (by omega)]
          exact .behind hend (by omega) hcur ⟨x, hlast, hx⟩
      | cons y post =>
        rw [if_neg (by simp only [List.length_cons]; omega)]
        have hold' : r.old = (pre ++ [x]) ++ (y :: post) := by rw [hsplit]; simp
        have hend : x.start + x.hit.size n = genEnd n base (pre ++ [x]) := by
          rw [genEnd_concat, hstart]
        refine .split hold' (by simp) hend hxe hcur (fun e he => ?_) ?_
        · rcases List.mem_append.mp he with he | he
          · exact hpre e he
          · rw [List.mem_singleton.mp he]; exact hx
        · -- the last message is one behind the split point
          rintro ⟨e, he, hs⟩
          have hmem : e ∈ y :: post := by
            rw [hold', List.getLast?_append_of_ne_nil _ (by simp)] at he
            exact List.mem_of_getLast? he
          have hl := hgen.laid
          rw [hold', laid_append] at hl
          have := hl.2.start_ge hmem
          rw [← genEnd, ← hend] at this
          omega
    · -- nothing older stands behind the writer
      have hseek : (seek r.mem (rewinding level base size r.rb.ptr t)
          (r.mem.load base 4)).cur = base + headerSize := by
        unfold seek
        simp only [rewinding, ← hp, if_pos hle]
      rw [hseek]
      refine .start rfl (fun ha => ?_) fun _ e he => ?_
      · have := aligned_lt hi ha
        omega
      · have := hi.old_gen.laid.end_le he
        unfold genEnd at hle
        omega

/-! ## What is printed -/

theorem LogOk.last_lt {P : Hit → Prop} {pre post : List Recorded} (h : LogOk P (pre ++ post))
    {e x : Recorded} {es : List Recorded} (hpre : pre = e :: es) (hx : x ∈ post) :
    lastTscOf e.hit.tsc.toNat es < x.hit.tsc.toNat := by
  obtain ⟨y, hy, hly⟩ := lastTscOf_mem es e
  rw [hly]
  exact (List.pairwise_append.mp h.sorted).2.2 y (hpre ▸ hy) x hx

/-- The current generation, and nothing after it. -/
theorem yields_cur (hn : n ≤ 80) (hg : Geometry size) (hi : Inv n base size r)
    (hl : LogOk (Described msgs) r.log) (hcur : r.cur ≠ []) (rb : RingBuffer)
    (hstart : rb.start = base + headerSize) (hend : rb.end_ = areaEnd base size)
    (hc : rb.cur = base + headerSize) (hlast : ∀ e ∈ r.cur, rb.lastTsc ≤ e.hit.tsc.toNat) :
    ∃ ps, List.Forall₂ (Printed.Shows msgs n) ps (r.cur.map Recorded.hit)
      ∧ rb.Yields r.mem msgs ps := by
  obtain ⟨e, es, hes⟩ := List.exists_cons_of_ne_nil hcur
  have hs := cur_segment hi hl
  rw [hes, ← hc, ← hend] at hs
  have he : rb.EndOk r.mem n false UINT64_MAX rb.cur (e :: es) := by
    rw [hc, ← hes]
    exact cur_endOk hi
  obtain ⟨qs, hqs, hrest⟩ := Tail.yields_segment hn es e rb hs (hlast e (by rw [hes]; simp)) he
  have hfirst : r.mem.load (base + headerSize) 8 = e.hit.tsc.toNat := by
    rw [← hc]
    exact hs.head_intact.load_tsc
  have hdone : (Tail.behind n rb e es).nextTsc r.mem = 0 := generation_drained hg []
    (by rw [List.nil_append, ← hes]; exact hi.cur_gen)
    (by rw [List.nil_append, ← hes]; exact hl.sublist (sublist_cur r)) hc hstart hend
    (by rw [List.nil_append, ← hes]; exact hi.ptr_eq) (fun _ => load_mark hi (Or.inl hcur))
    (fun x hx => by cases hx; exact hfirst)
  have hyields := hrest [] (.nil (Or.inl hdone))
  rw [List.append_nil] at hyields
  exact ⟨qs, hes ▸ hqs, hyields⟩

/-- The messages of the previous generation from `post` on, with the reader
going back to the start behind them. -/
theorem yields_old (hn : n ≤ 80) (hi : Inv n base size r) (hl : LogOk (Described msgs) r.log)
    {pre post : List Recorded} {e : Recorded} (hold : r.old = pre ++ e :: post)
    (hlim : intactFrom base r ≤ genEnd n base pre) (rb : RingBuffer)
    (hend : rb.end_ = areaEnd base size) (hc : rb.cur = genEnd n base pre)
    (hlast : rb.lastTsc ≤ e.hit.tsc.toNat) :
    ∃ qs, List.Forall₂ (Printed.Shows msgs n) qs ((e :: post).map Recorded.hit)
      ∧ (Tail.behind n rb e post).cur = rb.start
      ∧ ∀ ps, (Tail.behind n rb e post).Yields r.mem msgs ps →
          rb.Yields r.mem msgs (qs ++ ps) := by
  have hne : r.old ≠ [] := by rw [hold]; simp
  have hs := old_segment hi hl hold hne hlim
  have hgen : genEnd n base pre ≤ genEnd n base r.old := by
    rw [hold, genEnd, genEnd, endOf_append]
    exact le_endOf _ _
  have he : rb.EndOk r.mem n false UINT64_MAX (genEnd n base pre) (e :: post) :=
    old_endOk hi hend hold hne (Nat.le_trans hlim hgen)
  rw [← hc] at hs he
  rw [← hend] at hs
  obtain ⟨qs, hqs, hrest⟩ := Tail.yields_segment hn post e rb hs hlast he
  refine ⟨qs, hqs, ?_, hrest⟩
  have hq : endOf (Recorded.bytes n) rb.cur (e :: post) = genEnd n base r.old := by
    rw [hc, hold]; exact (endOf_append _ _ _).symm
  have hfull := hi.old_full hne
  simp only [Tail.behind, hq, hend]
  exact if_pos hfull

/-- A level that has just wrapped yields the generation that is over. -/
theorem yields_wrapped (level : Nat) (hn : n ≤ 80) (hg : Geometry size) (hi : Inv n base size r)
    (hl : LogOk (Described msgs) r.log) (hcur : r.cur = []) :
    ∃ ps, List.Forall₂ (Printed.Shows msgs n) ps (r.old.map Recorded.hit)
      ∧ (readerAt level base size r.mem (base + headerSize)).Yields r.mem msgs ps := by
  rcases hold : r.old with _ | ⟨e, es⟩
  · -- nothing is recorded at all
    have hz := load_mark hi (Or.inr hold)
    rw [hi.ptr_eq, hcur] at hz
    have hdone : (readerAt level base size r.mem (base + headerSize)).nextTsc r.mem = 0 := by
      unfold RingBuffer.nextTsc readerAt
      simp only [show r.mem.load (base + headerSize) 8 = 0 from hz, Nat.lt_irrefl, and_false,
        if_false]
    exact ⟨[], .nil, .nil (Or.inl hdone)⟩
  · have hfrom : intactFrom base r = base + headerSize := if_pos hcur
    have hne : r.old ≠ [] := by rw [hold]; simp
    have hs := old_segment hi hl (List.nil_append r.old).symm hne
      (by rw [hfrom]; exact Nat.le_refl _)
    rw [hold] at hs
    have hfirst : r.mem.load (base + headerSize) 8 = e.hit.tsc.toNat := hs.head_intact.load_tsc
    obtain ⟨qs, hqs, -, hrest⟩ := yields_old hn hi hl
      (hold.trans (List.nil_append _).symm) (by rw [hfrom]; exact Nat.le_refl _)
      (readerAt level base size r.mem (base + headerSize)) rfl rfl (Nat.le_of_eq hfirst)
    have hdone : (Tail.behind n (readerAt level base size r.mem (base + headerSize)) e
        es).nextTsc r.mem = 0 := generation_drained hg []
      (by rw [List.nil_append, ← hold]; exact hi.old_gen)
      (by rw [List.nil_append, ← hold]; exact hl.sublist (sublist_old r)) rfl rfl rfl
      (by rw [List.nil_append, hold])
      (fun hlt => absurd hlt (Nat.not_lt.mpr (hi.old_full hne)))
      (fun x hx => by cases hx; exact hfirst)
    have hyields := hrest [] (.nil (Or.inl hdone))
    rw [List.append_nil] at hyields
    exact ⟨qs, hqs, hyields⟩

/-- What `qttail -c` has to print: a suffix of the log, each message once and
in order, with everything recorded since the last wrap and every message of
the previous generation that starts more than eight bytes behind the
writer. -/
structure Complete (msgs : Messages) (n : Nat) (r : Level) (ls : List Line)
    (es : List Recorded) : Prop where
  suffix : es <:+ r.log
  shows : List.Forall₂ (Shows msgs n) ls (es.map Recorded.hit)
  cur : ∀ e ∈ r.cur, e ∈ es
  old : ∀ e ∈ r.old, r.rb.ptr + 8 < e.start → e ∈ es

/-- The messages a reading of the level has to find, whatever it prints. -/
structure Whole (r : Level) (es : List Recorded) : Prop where
  suffix : es <:+ r.log
  cur : ∀ e ∈ r.cur, e ∈ es
  old : ∀ e ∈ r.old, r.rb.ptr + 8 < e.start → e ∈ es

/-- Reading the level succeeds and prints what it has to. -/
def CatComplete (msgs : Messages) (n level base size : Nat) (r : Level) : Prop :=
  ∃ fuel t es, cat r.mem msgs [reader level base size] fuel = some (.done t)
    ∧ Complete msgs n r t.out.lines es

theorem cat_reader {c : Nat}
    (h : (reader level base size).rewind r.mem msgs false
      = some (readerAt level base size r.mem c)) (fuel : Nat) :
    cat r.mem msgs [reader level base size] fuel
      = some (Tail.catOne r.mem msgs fuel
          (Tail.single (readerAt level base size r.mem c) Output.empty)) := by
  unfold cat
  rw [List.mapM_cons, h]
  rfl

/-- A level whose messages are known is read. -/
theorem cat_yields {c : Nat} {ps : List Printed}
    (hrew : (reader level base size).rewind r.mem msgs false
      = some (readerAt level base size r.mem c))
    (h : (readerAt level base size r.mem c).Yields r.mem msgs ps) :
    ∃ fuel t, cat r.mem msgs [reader level base size] fuel = some (.done t)
      ∧ t.out.lines.map Line.printed = ps := by
  obtain ⟨fuel, t, ls, hrun, hls, hmap⟩ := Tail.catOne_yields h Output.empty
  refine ⟨fuel, t, (cat_reader hrew fuel).trans (congrArg some hrun), ?_⟩
  rw [hls, ← hmap]
  rfl

/-- A reader at the start finds the current generation or, when a disabled
statement has just wrapped, the whole previous one. -/
theorem start_yields (level : Nat) (hn : n ≤ 80) (hg : Geometry size) (hi : Inv n base size r)
    (hl : LogOk (Described msgs) r.log)
    (h : r.cur ≠ [] → ∀ e ∈ r.old, e.start ≤ r.rb.ptr + 8) :
    ∃ ps es, List.Forall₂ (Printed.Shows msgs n) ps (es.map Recorded.hit) ∧ Whole r es
      ∧ (readerAt level base size r.mem (base + headerSize)).Yields r.mem msgs ps
      ∧ (r.cur = [] → es = r.old) := by
  by_cases hcur : r.cur = []
  · obtain ⟨ps, hps, hyields⟩ := yields_wrapped level hn hg hi hl hcur
    refine ⟨ps, r.old, hps, ⟨⟨r.lost, ?_⟩, by simp [hcur], fun e he _ => he⟩, hyields, fun _ => rfl⟩
    simp [log, hcur]
  · have hfirst : ∀ e ∈ r.cur, r.mem.load (base + headerSize) 8 ≤ e.hit.tsc.toNat := by
      obtain ⟨x, xs, hxs⟩ := List.exists_cons_of_ne_nil hcur
      have hs := cur_segment hi hl
      rw [hxs] at hs ⊢
      have hx := hs.head_intact.load_tsc
      intro e he
      rw [hx]
      rcases List.mem_cons.mp he with rfl | he
      · exact Nat.le_refl _
      · exact Nat.le_of_lt (hs.lt_of_mem he)
    obtain ⟨ps, hps, hyields⟩ := yields_cur hn hg hi hl hcur
      (readerAt level base size r.mem (base + headerSize)) rfl rfl rfl hfirst
    refine ⟨ps, r.cur, hps, ⟨List.suffix_append _ _, fun e he => he, fun e he hlt => ?_⟩, hyields,
      fun h' => absurd h' hcur⟩
    exact absurd (h hcur e he) (by omega)

/-- A reader at a message of the previous generation finds the rest of it
and then the current generation. -/
theorem split_yields (level : Nat) (hn : n ≤ 80) (hg : Geometry size) (hi : Inv n base size r)
    (hl : LogOk (Described msgs) r.log) {pre post : List Recorded} (hold : r.old = pre ++ post)
    (hpost : post ≠ []) (hlt : r.rb.ptr + 8 < genEnd n base pre) (hcur : r.cur ≠ [])
    (h : ∀ e ∈ pre, e.start ≤ r.rb.ptr + 8) :
    ∃ ps es, List.Forall₂ (Printed.Shows msgs n) ps (es.map Recorded.hit) ∧ Whole r es
      ∧ (readerAt level base size r.mem (genEnd n base pre)).Yields r.mem msgs ps := by
  obtain ⟨e, es, rfl⟩ := List.exists_cons_of_ne_nil hpost
  have hfrom : intactFrom base r = r.rb.ptr + 8 := if_neg hcur
  have hlim : intactFrom base r ≤ genEnd n base pre := by rw [hfrom]; omega
  have hs := old_segment hi hl hold (by rw [hold]; simp) hlim
  obtain ⟨ps₁, hps₁, hback, hrest⟩ := yields_old hn hi hl hold hlim
    (readerAt level base size r.mem (genEnd n base pre)) rfl rfl
    (Nat.le_of_eq hs.head_intact.load_tsc)
  have hlog : LogOk (Described msgs) ((e :: es) ++ r.cur) := by
    refine hl.sublist ?_
    rw [log, hold, List.append_assoc, List.append_assoc]
    exact (List.sublist_append_right pre _).trans (List.sublist_append_right _ _)
  obtain ⟨ps₂, hps₂, hyields⟩ := yields_cur hn hg hi hl hcur
    (Tail.behind n (readerAt level base size r.mem (genEnd n base pre)) e es) rfl rfl hback
    (fun x hx => Nat.le_of_lt (hlog.last_lt rfl hx))
  refine ⟨ps₁ ++ ps₂, (e :: es) ++ r.cur, ?_, ⟨⟨r.lost ++ pre, ?_⟩, fun x hx => ?_,
    fun x hx hlt' => ?_⟩, hrest ps₂ hyields⟩
  · rw [List.map_append]
    exact List.rel_append hps₁ hps₂
  · simp [log, hold]
  · exact List.mem_append_right _ hx
  · rw [hold] at hx
    rcases List.mem_append.mp hx with hx | hx
    · exact absurd (h x hx) (by omega)
    · exact List.mem_append_left _ hx

/-- A reader behind the last message finds a mark of ones and stops. -/
theorem behind_yields (hi : Inv n base size r) (hold : r.old ≠ []) (hcur : r.cur ≠ [])
    (hlt : r.rb.ptr + 8 < genEnd n base r.old) :
    (readerAt level base size r.mem (genEnd n base r.old)).Yields r.mem msgs [] := by
  have hload := load_ones hi hold (by rw [intactFrom, if_neg hcur]; omega)
  refine .nil (Or.inr ?_)
  unfold RingBuffer.nextTsc readerAt
  simp only [hload, Nat.lt_irrefl, and_false, if_false]
  exact Nat.le_refl _

/-- What a reader of the level yields: a whole suffix of the log or, in the
one alignment, nothing; and of a level that has just wrapped the generation
that is over. -/
theorem rewind_yields (level : Nat) (hn : n ≤ 80) (hg : Geometry size) (hi : Inv n base size r)
    (hl : LogOk (Described msgs) r.log) :
    ∃ c ps, (reader level base size).rewind r.mem msgs false
        = some (readerAt level base size r.mem c)
      ∧ (readerAt level base size r.mem c).Yields r.mem msgs ps
      ∧ (Aligned r → ps = [] ∧ r.cur ≠ [])
      ∧ (¬ Aligned r → ∃ es, List.Forall₂ (Printed.Shows msgs n) ps (es.map Recorded.hit)
          ∧ Whole r es ∧ (r.cur = [] → es = r.old)) := by
  obtain ⟨c, hrew, hf⟩ := rewind_cases level hn hg hi hl
  cases hf with
  | start hc ha h =>
    subst hc
    obtain ⟨ps, es, hps, hwhole, hyields, hold⟩ := start_yields level hn hg hi hl h
    exact ⟨_, ps, hrew, hyields, fun ha' => absurd ha' ha, fun _ => ⟨es, hps, hwhole, hold⟩⟩
  | split hold hpost hc hlt hcur h ha =>
    subst hc
    obtain ⟨ps, es, hps, hwhole, hyields⟩ :=
      split_yields level hn hg hi hl hold hpost hlt hcur h
    exact ⟨_, ps, hrew, hyields, fun ha' => absurd ha' ha,
      fun _ => ⟨es, hps, hwhole, fun h' => absurd h' hcur⟩⟩
  | behind hc hlt hcur ha =>
    subst hc
    have hold : r.old ≠ [] := by
      obtain ⟨e, he, -⟩ := ha
      exact List.ne_nil_of_mem (List.mem_of_getLast? he)
    exact ⟨_, [], hrew, behind_yields hi hold hcur hlt, fun _ => ⟨rfl, hcur⟩,
      fun ha' => absurd ha ha'⟩

/-- In the one alignment nothing is printed. -/
theorem not_complete_of_aligned (hn : n ≤ 80) (hg : Geometry size) (hi : Inv n base size r)
    (hl : LogOk (Described msgs) r.log) (ha : Aligned r) :
    ¬ CatComplete msgs n level base size r := by
  rintro ⟨fuel, t, printed, hrun, hc⟩
  obtain ⟨c, ps, hrew, hyields, hnone, -⟩ := rewind_yields level hn hg hi hl
  obtain ⟨rfl, hcur⟩ := hnone ha
  obtain ⟨fuel', t', hrun', hlines⟩ := cat_yields hrew hyields
  rw [cat_reader hrew, Option.some.injEq] at hrun hrun'
  obtain rfl := Tail.catOne_done_unique hrun hrun'
  obtain ⟨e, es, hes⟩ := List.exists_cons_of_ne_nil hcur
  have hlen := hc.shows.length_eq
  rw [List.map_eq_nil_iff.mp hlines, List.length_map] at hlen
  have := List.length_pos_of_mem (hc.cur e (by rw [hes]; simp))
  simp only [List.length_nil] at hlen
  omega

/-- In every other one what has to be printed is printed. -/
theorem complete_of_not_aligned (hn : n ≤ 80) (hg : Geometry size) (hi : Inv n base size r)
    (hl : LogOk (Described msgs) r.log) (ha : ¬ Aligned r) :
    CatComplete msgs n level base size r := by
  obtain ⟨c, ps, hrew, hyields, -, hsome⟩ := rewind_yields level hn hg hi hl
  obtain ⟨es, hps, hwhole, -⟩ := hsome ha
  obtain ⟨fuel, t, hrun, hlines⟩ := cat_yields hrew hyields
  rw [← hlines, List.forall₂_map_left_iff] at hps
  exact ⟨fuel, t, es, hrun, hwhole.suffix, hps.imp fun _ _ => shows_of_printed, hwhole.cur,
    hwhole.old⟩

/-- Reading a level is complete in every reachable state but one alignment:
when the last message of the previous generation starts exactly eight bytes
behind the writer, the backward loop stops at that message with the cursor
behind it, on the mark of ones. -/
theorem cat_complete_iff (hn : n ≤ 80) (hg : Geometry size)
    (hr : Reachable n base size (RecordOk (Described msgs) n) r) :
    CatComplete msgs n level base size r ↔ ¬ Aligned r := by
  have hi := inv_reachable hg (fun _ _ ho => ho.fits) hr
  have hl := logOk_reachable hr
  exact ⟨fun h ha => not_complete_of_aligned hn hg hi hl ha h,
    fun ha => complete_of_not_aligned hn hg hi hl ha⟩

/-! ## Two runs -/

/-- A message with a long string of `k` characters. -/
def textMessage (tsc : UInt64) (k : Nat) : Hit := ⟨tsc, 1, [.longStr (List.replicate k 97)]⟩

theorem textMessage_fits (tsc : UInt64) {k : Nat} (hk : k ≤ 234) :
    FitsTrailer 80 (textMessage tsc k) := by
  have hlen : (cut LONGSTRING_LIMIT (List.replicate k 97)).length ≤ k := by
    simp only [cut, List.length_take]
    have := (List.takeWhile_sublist (fun c : UInt8 => c != 0) (l := List.replicate k 97)).length_le
    rw [List.length_replicate] at this
    omega
  have harg : (textMessage tsc k).argBytes 80
      = encodeString LONGSTRING_LIMIT (List.replicate k 97) := by
    simp [Hit.argBytes, textMessage, encodeArgs, Arg.encode]
  unfold FitsTrailer Hit.size TrailerSize
  rw [harg, encodeString, List.length_cons]
  omega

/-- A level of a KiB that has recorded strings of these lengths. -/
def textRun (ks : List Nat) : Level :=
  (Level.init 0 1024 ⟨4, fun _ => .zero⟩ fun _ => 0).traceAll 80
    (ks.mapIdx fun i k => textMessage (UInt64.ofNat (i + 1)) k)

theorem reachable_textRun {ks : List Nat} (hk : ∀ k ∈ ks, k ≤ 234) (hlen : ks.length < 2 ^ 32) :
    Reachable 80 0 1024 (RecordOk (Described textTable) 80) (textRun ks) := by
  have htsc : ∀ i < ks.length, (UInt64.ofNat (i + 1)).toNat = i + 1 := fun i hi => by
    rw [UInt64.toNat_ofNat_of_lt' (by simp only [UInt64.size]; omega)]
  refine reachable_traceAll_ok _ ⟨_, _, .refl⟩ ?_ fun h hh => ?_
  · rw [show ((Level.init 0 1024 ⟨4, fun _ => .zero⟩ fun _ => 0).log.map Recorded.hit) = [] from rfl,
      List.nil_append, List.pairwise_iff_getElem]
    intro i j hi hj hij
    rw [List.length_mapIdx] at hi hj
    simp only [List.getElem_mapIdx, textMessage, htsc i hi, htsc j hj]
    omega
  · obtain ⟨i, hi, rfl⟩ := List.mem_mapIdx.mp hh
    have hk := hk _ (List.getElem_mem hi)
    refine ⟨textMessage_fits _ hk, ?_, ?_, described_text _ rfl⟩
    · simp only [textMessage, htsc i hi]
      omega
    · simp only [textMessage, htsc i hi]
      omega

/-- A wrapped level of which everything intact is printed. -/
theorem cat_complete_one : CatComplete textTable 80 3 0 1024 (textRun [234, 234, 234, 6, 100]) :=
  (cat_complete_iff (by decide) ⟨by decide, by decide⟩
    (reachable_textRun (by decide) (by decide))).mpr (by decide +kernel)

/-- Messages of 248, 248, 248 and 20 bytes fill a level of a KiB, three of
248, 248 and 240 bytes wrap and end eight bytes in front of the last of
them: nothing is printed. -/
theorem aligned_prints_nothing :
    Reachable 80 0 1024 (RecordOk (Described textTable) 80)
        (textRun [234, 234, 234, 6, 234, 234, 226])
      ∧ ¬ CatComplete textTable 80 3 0 1024 (textRun [234, 234, 234, 6, 234, 234, 226]) := by
  have hr := reachable_textRun
    (show ∀ k ∈ [234, 234, 234, 6, 234, 234, 226], k ≤ 234 by decide) (by decide)
  exact ⟨hr, not_complete_of_aligned (by decide) ⟨by decide, by decide⟩
    (inv_reachable ⟨by decide, by decide⟩ (fun _ _ ho => ho.fits) hr) (logOk_reachable hr)
    (by decide +kernel)⟩

end Level

end QuickTrace
