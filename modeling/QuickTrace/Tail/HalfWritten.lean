/-
QuickTrace.Tail.HalfWritten — a tailing reader at a message that is being
written.

The reader looks at the level between two stores of a message whose length
byte is still missing. Where nothing has been stored yet a level that has not
wrapped holds zeros, or the ones of the trailer, and neither is what the
checks of `next` expect. The one thing that can be mistaken for a length byte
is a character of a string (`StringPos.Confusing`): the characters are stored
in front of the length byte of their string, which still reads zero, so that
the types behind the string are decoded from its characters.
-/
import QuickTrace.Tail.LevelSegment
import QuickTrace.Ring.PartialWrite
import QuickTrace.Ring.Unwrapped

namespace QuickTrace

open QuickTrace.Lib RingBuf Level

/-! ## Characters that pass for a length byte -/

/-- A memory that starts with these characters. -/
def charMem (cs : Text) : Mem := fun x => cs.getD x 0

/-- How many bytes the types behind a string take when they are decoded from
its characters. -/
def RingBuf.StringPos.shift (s : StringPos) : Nat := extents (charMem s.chars) 0 s.behind

/-- The character there is the length the message would have. -/
def RingBuf.StringPos.Confusing (s : StringPos) : Prop :=
  s.chars[s.shift]?.map UInt8.toNat = some (13 + s.before.length + s.shift)

instance (s : StringPos) : Decidable s.Confusing := inferInstanceAs (Decidable (_ = _))

/-! ## The situation -/

/-- The stores of a message up to its last argument: all but the length byte
and the end mark. -/
def frontStores (n : Nat) (r : Level) (h : Hit) : List Store :=
  (r.rb.trace n r.cs h).2.2.dropLast.dropLast

/-- A level that has not wrapped is about to record a message, and a reader
waits for it. -/
structure Waiting (msgs : Messages) (n base size : Nat) (r : Level) (h : Hit)
    (rb : RingBuffer) : Prop where
  geometry : Geometry size
  reachable : FreshReachable n base size (RecordOk (Described msgs) n) r
  unwrapped : Unwrapped r
  room : r.rb.ptr < r.rb.bufEnd
  on : r.cs.off h.id = false
  later : ∀ e ∈ r.log, e.hit.tsc.toNat < h.tsc.toNat
  start : rb.start = base + headerSize
  end_ : rb.end_ = r.rb.bufEnd
  cur : rb.cur = r.rb.ptr

/-- Between any two stores before the length byte the reader takes no
message. -/
def NeverTaken (msgs : Messages) (n : Nat) (h : Hit) : Prop :=
  ∀ (base size : Nat) (r : Level) (rb : RingBuffer) (curTsc : Nat) (ss : List Store),
    Waiting msgs n base size r h rb → h.tsc.toNat < curTsc → curTsc ≤ UINT64_MAX →
    ss <+: frontStores n r h →
    rb.NotTaken (rb.next (r.mem.applyAll ss) msgs true curTsc)

theorem frontStores_eq {n : Nat} {r : Level} {h : Hit} (hroom : r.rb.ptr < r.rb.bufEnd)
    (hon : r.cs.off h.id = false) : frontStores n r h = (r.rb.opened.putPayload n h).2 := by
  rw [frontStores, trace_on hon, maybeWrap_stay hroom, endMsg_stores, List.nil_append]
  rw [List.dropLast_append_of_ne_nil (by simp), List.dropLast_cons_cons, List.dropLast_singleton,
    List.dropLast_concat]

/-- The memory with the timestamp and the id of the message. -/
def withHeader (m : Mem) (a : Nat) (h : Hit) : Mem :=
  (m.store a (leBytes 8 h.tsc.toNat)).store (a + 8) (leBytes 4 h.id.toNat)

/-- How far the writer has come. -/
theorem front_cases {n : Nat} (hn : n ≤ 80) {r : Level} {h : Hit}
    (hroom : r.rb.ptr < r.rb.bufEnd) (hon : r.cs.off h.id = false) {ss : List Store}
    (hss : ss <+: frontStores n r h) :
    r.mem.applyAll ss = r.mem
      ∨ r.mem.applyAll ss = r.mem.store r.rb.ptr (leBytes 8 h.tsc.toNat)
      ∨ ∃ ts, Partly (r.rb.ptr + 12) (h.args.map Arg.ty) (argStrings n h.args) ts
          ∧ r.mem.applyAll ss = (withHeader r.mem r.rb.ptr h).applyAll ts := by
  have hst : r.rb.startPos = r.rb.ptr := by rw [startPos, if_neg (by omega)]
  rw [frontStores_eq hroom hon] at hss
  rcases prefix_append_cases hss with hss | ⟨ts, rfl, hts⟩
  · rcases List.prefix_concat_iff.mp hss with rfl | hss
    · refine Or.inr (Or.inr ⟨[], .nothing _ _ _, ?_⟩)
      simp only [opened, hst, push, withHeader, leBytes_length, List.cons_append, List.nil_append,
        Mem.applyAll_cons, Mem.applyAll_nil]
    · rcases prefix_singleton_cases hss with rfl | rfl
      · refine Or.inr (Or.inl ?_)
        simp only [opened, hst, Mem.applyAll_cons, Mem.applyAll_nil]
      · exact Or.inl rfl
  · refine Or.inr (Or.inr ⟨ts, ?_, ?_⟩)
    · have := partly_putArgs (by omega) h.args rfl hts
      simpa only [opened, hst, push, leBytes_length, Nat.add_assoc] using this
    · rw [Mem.applyAll_append]
      simp only [opened, hst, push, withHeader, leBytes_length, List.cons_append, List.nil_append,
        Mem.applyAll_cons, Mem.applyAll_nil]

namespace Waiting

variable {msgs : Messages} {n base size : Nat} {r : Level} {h : Hit} {rb : RingBuffer}

theorem inv (hw : Waiting msgs n base size r h rb) : Inv n base size r :=
  inv_reachable hw.geometry (fun _ _ ho => ho.fits) hw.reachable.reachable

theorem blank (hw : Waiting msgs n base size r h rb) {x : Nat} (h1 : r.rb.ptr + 8 ≤ x)
    (h2 : x < base + size) : r.mem x = if x < r.rb.bufEnd then 0 else 0xff :=
  blank_reachable hw.geometry (fun _ _ ho => ho.fits) hw.reachable hw.unwrapped x h1 h2

theorem bufEnd (hw : Waiting msgs n base size r h rb) : r.rb.bufEnd + 256 = base + size := by
  have := hw.geometry.kib
  rw [hw.inv.pointers.bufEnd]
  simp only [TrailerSize]
  omega

/-- In front of the trailer there is an earlier message, whose timestamp
stands at the start. -/
theorem first (hw : Waiting msgs n base size r h rb) (hfar : r.rb.bufEnd ≤ r.rb.ptr + 255) :
    ∃ e ∈ r.cur, base + headerSize + 8 ≤ r.rb.ptr
      ∧ r.mem.load (base + headerSize) 8 = e.hit.tsc.toNat := by
  have hi := hw.inv
  have hl := logOk_reachable hw.reachable.reachable
  have hend := hw.bufEnd
  have hkib := hw.geometry.kib
  have hne : r.cur ≠ [] := by
    intro hcur
    have hptr := hi.ptr_eq
    rw [hcur, genEnd, endOf_nil] at hptr
    simp only [headerSize] at hptr
    omega
  obtain ⟨e, es, hes⟩ := List.exists_cons_of_ne_nil hne
  have hs := cur_segment hi hl
  rw [hes] at hs
  refine ⟨e, by rw [hes]; simp, ?_, hs.head_intact.load_tsc⟩
  simp only [headerSize]
  omega

end Waiting

/-! ## What is rejected -/

section

variable {msgs : Messages} {n base size : Nat} {r : Level} {h : Hit} {rb : RingBuffer}
  {curTsc : Nat} {mf : MessageFormatter} {length nt : Nat} {m : Mem}

/-- Where no timestamp is stored yet, the end mark reads as none. -/
theorem not_accepts_empty (hw : Waiting msgs n base size r h rb) :
    ¬ rb.Accepts r.mem msgs true curTsc mf length nt := by
  intro ha
  have hz : r.mem.load rb.cur 8 = 0 := by
    rw [hw.cur]
    exact load_mark hw.inv (Or.inr hw.unwrapped.old)
  refine ha.pos ?_
  unfold RingBuffer.nextTsc
  simp only [hz]
  split <;> rfl

/-- Where the byte behind the arguments was never written, the message is not
accepted. -/
theorem not_accepts_blank (hw : Waiting msgs n base size r h rb)
    (hbelow : ∀ x, x < r.rb.ptr → m x = r.mem x) (htsc : m.load r.rb.ptr 8 = h.tsc.toNat)
    (hsame : ∀ x, r.rb.ptr + 12 + length ≤ x → m x = r.mem x) :
    ¬ rb.Accepts m msgs true curTsc mf length nt := by
  intro ha
  have hroom := hw.room
  have hend := hw.bufEnd
  have hbyte := ha.byte
  have hlt := (m (rb.cur + 12 + length)).toNat_lt
  rw [hw.cur] at hbyte hlt
  have hval := hsame (r.rb.ptr + 12 + length) (Nat.le_refl _)
  rw [hw.blank (by omega) (by omega)] at hval
  rcases Nat.lt_or_ge (r.rb.ptr + 12 + length) r.rb.bufEnd with hin | hout
  · rw [if_pos hin] at hval
    rw [hval, show UInt8.toNat 0 = 0 from rfl] at hbyte
    omega
  · -- a length byte of ones: what follows lies in the trailer
    rw [if_neg (by omega)] at hval
    rw [hval, show UInt8.toNat 0xff = 255 from rfl] at hbyte
    have hones : m (r.rb.ptr + 13 + length) = 0xff := by
      rw [hsame _ (by omega), hw.blank (by omega) (by omega), if_neg (by omega)]
    have hne : m.load (r.rb.ptr + 13 + length) 8 ≠ 0 :=
      Mem.load_ne_zero (Nat.le_refl _) (by omega) (by rw [hones]; decide)
    have hfol := ha.following
    unfold RingBuffer.followingTsc at hfol
    rw [hw.cur, hw.end_, hw.start] at hfol
    simp only at hfol
    rw [if_pos ⟨hne, by omega⟩] at hfol
    split at hfol
    · obtain ⟨e, he, hfirst, hload⟩ := hw.first (by omega)
      have hkeep : m.load (base + headerSize) 8 = r.mem.load (base + headerSize) 8 :=
        Mem.load_congr fun x _ hx => hbelow x (by omega)
      simp only [if_true, hkeep, hload, Option.some.injEq] at hfol
      have hlog := logOk_reachable hw.reachable.reachable
      have hmem : e ∈ r.log := (sublist_cur r).subset he
      have hpos := hlog.pos e hmem
      have hlater := hw.later e hmem
      have hnext : rb.nextTsc m = h.tsc.toNat := by
        have hp := ha.pos
        unfold RingBuffer.nextTsc at hp ⊢
        rw [hw.cur, htsc] at hp ⊢
        dsimp only at hp ⊢
        split
        · rename_i hc
          rw [if_pos hc] at hp
          exact absurd rfl hp
        · rfl
      have hrange := ha.range
      rw [hnext] at hrange
      omega
    · cases hfol

/-- The header of the message is there. -/
theorem withHeader_loads (a : Nat) (h : Hit) :
    (withHeader m a h).load a 8 = h.tsc.toNat ∧ (withHeader m a h).load (a + 8) 4 = h.id.toNat := by
  have h1 : (withHeader m a h).Holds a (leBytes 8 h.tsc.toNat) :=
    (Mem.holds_store m a _).store (Or.inl (by rw [leBytes_length]))
  have h2 : (withHeader m a h).Holds (a + 8) (leBytes 4 h.id.toNat) := Mem.holds_store _ _ _
  exact ⟨load_word h1 h.tsc.toNat_lt, load_word h2 h.id.toNat_lt⟩

theorem withHeader_other {a x : Nat} {h : Hit} (hx : x < a ∨ a + 12 ≤ x) :
    withHeader m a h x = m x := by
  unfold withHeader
  rcases hx with hx | hx
  · rw [Mem.store_lt (by omega), Mem.store_lt hx]
  · rw [Mem.store_ge (by rw [leBytes_length]; omega), Mem.store_ge (by rw [leBytes_length]; omega)]

/-- With the header in place it is the descriptor of the message that counts,
and `length` is what its types take. -/
theorem accepts_length (hd : Described msgs h) (hcur : rb.cur = r.rb.ptr)
    (hid : m.load (r.rb.ptr + 8) 4 = h.id.toNat)
    (ha : rb.Accepts m msgs true curTsc mf length nt) :
    length = extents m (r.rb.ptr + 12) (h.args.map Arg.ty) := by
  obtain ⟨mf', hget, hdesc⟩ := hd.get
  have hmf := ha.get
  rw [hcur, hid, hget] at hmf
  cases hmf
  have := ha.measured
  rw [hcur, hdesc.length_eq] at this
  exact (Option.some.inj this).symm

/-- The bytes of `charMem`. -/
theorem charMem_eq {cs : Text} {x : Nat} (hx : x < cs.length) : charMem cs x = cs[x] := by
  rw [charMem, List.getD_eq_getElem?_getD, List.getElem?_eq_getElem hx, Option.getD_some]

/-- Characters in memory decode as they would on their own. -/
theorem extents_charMem {cs : Text} {p : Nat} {ts : List Ty} (hm : m.Holds p cs)
    (hlt : extents m p ts < cs.length) : extents (charMem cs) 0 ts = extents m p ts := by
  rw [← Nat.add_zero p, ← extents_shift m p ts 0]
  refine extents_congr fun x _ hx => ?_
  rw [extents_shift, Nat.add_zero] at hx
  have hx' : x < cs.length := by omega
  have hbyte := hm.getElem? (List.getElem?_eq_getElem hx')
  rw [charMem_eq hx', ← hbyte]

/-- A memory that differs behind the header only. -/
theorem front_loads {a : Nat} {h : Hit} (m' : Mem)
    (hfront : ∀ x, x < a + 12 → m' x = withHeader m a h x) :
    m'.load a 8 = h.tsc.toNat ∧ m'.load (a + 8) 4 = h.id.toNat ∧ ∀ x, x < a → m' x = m x := by
  obtain ⟨h1, h2⟩ := withHeader_loads (m := m) a h
  refine ⟨?_, ?_, fun x hx => ?_⟩
  · rw [← h1]
    exact Mem.load_congr fun x _ hx => hfront x (by omega)
  · rw [← h2]
    exact Mem.load_congr fun x _ hx => hfront x (by omega)
  · rw [hfront x (by omega), withHeader_other (Or.inl hx)]

/-- The first characters of a string decode like all of them. -/
theorem shift_take {s : StringPos} {j : Nat}
    (hlt : extents (charMem (s.chars.take j)) 0 s.behind < (s.chars.take j).length) :
    s.shift = extents (charMem (s.chars.take j)) 0 s.behind := by
  refine extents_congr fun x _ hx => ?_
  have hx' : x < (s.chars.take j).length := by omega
  have hx'' : x < s.chars.length := by rw [List.length_take] at hx'; omega
  rw [charMem_eq hx', charMem_eq hx'', List.getElem_take]

/-- No number of stores of the arguments makes a message acceptable, unless a
string is confusing. -/
theorem not_accepts_args (hn : n ≤ 80) (hw : Waiting msgs n base size r h rb)
    (hd : Described msgs h) (hno : ∀ s ∈ argStrings n h.args, ¬ s.Confusing)
    {ss : List Store} (hss : Partly (r.rb.ptr + 12) (h.args.map Arg.ty) (argStrings n h.args) ss) :
    ¬ rb.Accepts ((withHeader r.mem r.rb.ptr h).applyAll ss) msgs true curTsc mf length nt := by
  intro ha
  have hroom := hw.room
  have hend := hw.bufEnd
  cases hss with
  | front bs hm hext =>
    rw [hm] at ha
    obtain ⟨htsc, hid, hbelow⟩ := front_loads (m := r.mem) (a := r.rb.ptr) (h := h)
      ((withHeader r.mem r.rb.ptr h).store (r.rb.ptr + 12) bs)
      fun x hx => Mem.store_lt hx
    have hlen := accepts_length hd hw.cur hid ha
    have hle := hext _ _ (Mem.holds_store (withHeader r.mem r.rb.ptr h) (r.rb.ptr + 12) bs)
    refine not_accepts_blank hw hbelow htsc (fun x hx => ?_) ha
    rw [Mem.store_ge (by omega), withHeader_other (Or.inr (by omega))]
  | gap s hs j hm =>
    generalize hm' : s.partly j (withHeader r.mem r.rb.ptr h) (r.rb.ptr + 12) = m' at hm
    rw [hm, hm'] at ha
    -- what stands where
    have hbefore : m'.Holds (r.rb.ptr + 12) s.before := by
      rw [← hm']
      exact (Mem.holds_store _ _ _).store (Or.inl (by omega))
    have hchars : m'.Holds (r.rb.ptr + 12 + s.before.length + 1) (s.chars.take j) := by
      rw [← hm']
      exact Mem.holds_store _ _ _
    have hgap : m' (r.rb.ptr + 12 + s.before.length)
        = r.mem (r.rb.ptr + 12 + s.before.length) := by
      rw [← hm', StringPos.partly, Mem.store_lt (by omega), Mem.store_ge (by omega),
        withHeader_other (Or.inr (by omega))]
    have hrest : ∀ x, r.rb.ptr + 12 + s.before.length + 1 + (s.chars.take j).length ≤ x →
        m' x = r.mem x := fun x hx => by
      rw [← hm', StringPos.partly, Mem.store_ge hx, Mem.store_ge (by omega),
        withHeader_other (Or.inr (by omega))]
    obtain ⟨htsc, hid, hbelow⟩ := front_loads (m := r.mem) (a := r.rb.ptr) (h := h) m'
      fun x hx => by rw [← hm', s.partly_lt j _ hx]
    have hlen := accepts_length hd hw.cur hid ha
    rw [argStrings_extent (by omega) h.args hs hbefore, extents, Ty.extent] at hlen
    have hbyte := ha.byte
    have hlt := (m' (rb.cur + 12 + length)).toNat_lt
    -- the length byte of the string is still blank, and reads zero
    have hzero : (m' (r.rb.ptr + 12 + s.before.length)).toNat = 0 := by
      rw [hgap, hw.blank (by omega) (by omega)]
      split
      · rfl
      · rename_i hout
        rw [hgap, hw.blank (by omega) (by omega), if_neg hout,
          show UInt8.toNat 0xff = 255 from rfl] at hlen
        omega
    rw [hzero, Nat.add_zero] at hlen
    rcases Nat.lt_or_ge (extents m' (r.rb.ptr + 12 + s.before.length + 1) s.behind)
      (s.chars.take j).length with hin | hout
    · have hshift := extents_charMem hchars hin
      have hfull := shift_take (s := s) (j := j) (by rw [hshift]; exact hin)
      rw [hshift] at hfull
      refine hno s hs ?_
      have hin' := hin
      rw [List.length_take] at hin'
      have hget := hchars.getElem? (List.getElem?_eq_getElem hin)
      rw [List.getElem_take] at hget
      have haddr : rb.cur + 12 + length = r.rb.ptr + 12 + s.before.length + 1
          + extents m' (r.rb.ptr + 12 + s.before.length + 1) s.behind := by
        rw [hw.cur, hlen]
        omega
      rw [haddr, hget] at hbyte
      rw [StringPos.Confusing, hfull, List.getElem?_eq_getElem (by omega), Option.map_some,
        ← hbyte, hlen]
      exact congrArg some (by omega)
    · refine not_accepts_blank hw hbelow htsc (fun x hx => hrest x ?_) ha
      omega

/-- Without a confusing string the message is never taken. -/
theorem neverTaken_of_not_confusing (hn : n ≤ 80) (hd : Described msgs h)
    (hno : ∀ s ∈ argStrings n h.args, ¬ s.Confusing) :
    NeverTaken msgs n h := by
  intro base size r rb curTsc ss hw _ _ hss
  rcases RingBuffer.next_cases rb (r.mem.applyAll ss) msgs true curTsc with hnot | hacc
  · exact hnot
  obtain ⟨mf, length, nt, ha⟩ := hacc
  rcases front_cases hn hw.room hw.on hss with hm | hm | ⟨ts, hts, hm⟩
  · rw [hm] at ha
    exact absurd ha (not_accepts_empty hw)
  · rw [hm] at ha
    refine absurd ha (not_accepts_blank hw (fun x hx => Mem.store_lt hx)
      (load_word (Mem.holds_store _ _ _) h.tsc.toNat_lt) fun x hx => ?_)
    exact Mem.store_ge (by rw [leBytes_length]; omega)
  · rw [hm] at ha
    exact absurd ha (not_accepts_args hn hw hd hno hts)

/-- A message without a timestamp is not seen. -/
theorem neverTaken_of_zero (hn : n ≤ 80) (htsc : h.tsc.toNat = 0) : NeverTaken msgs n h := by
  intro base size r rb curTsc ss hw _ _ hss
  rcases RingBuffer.next_cases rb (r.mem.applyAll ss) msgs true curTsc with hnot | hacc
  · exact hnot
  obtain ⟨mf, length, nt, ha⟩ := hacc
  have hz : (r.mem.applyAll ss).load rb.cur 8 = 0 := by
    rw [hw.cur]
    rcases front_cases hn hw.room hw.on hss with hm | hm | ⟨ts, hts, hm⟩
    · rw [hm]
      exact load_mark hw.inv (Or.inr hw.unwrapped.old)
    · rw [hm, ← htsc]
      exact load_word (Mem.holds_store _ _ _) h.tsc.toNat_lt
    · rw [hm, ← htsc, (front_loads (h := h) _ fun x hx => hts.applyAll_lt _ hx).1]
  refine absurd ?_ ha.pos
  unfold RingBuffer.nextTsc
  simp only [hz]
  split <;> rfl

end

/-! ## A confusing string -/

/-- A level of a KiB in a new file, with all statements on. -/
def newLevel : Level := Level.init 0 1024 ⟨4, fun _ => .zero⟩ fun _ => 0

/-- Its reader. -/
def newReader : RingBuffer := RingBuffer.create 0 0 1024

theorem waiting_new (msgs : Messages) (n : Nat) (h : Hit) :
    Waiting msgs n 0 1024 newLevel h newReader where
  geometry := ⟨by decide, by decide⟩
  reachable := ⟨_, _, fun _ _ _ => rfl, .refl⟩
  unwrapped := ⟨rfl, rfl⟩
  room := by decide
  on := show (offBit MsgCounter.zero.lastTsc != 0) = false by decide
  later := fun _ he => by cases he
  start := rfl
  end_ := rfl
  cur := rfl

section

variable {msgs : Messages} {n : Nat} {h : Hit}

/-- The stores up to some characters of a string. -/
theorem frontStores_partly {s : StringPos} (hs : s ∈ argStrings n h.args) (j : Nat) :
    ∃ ss, ss <+: frontStores n newLevel h
      ∧ newLevel.mem.applyAll ss = s.partly j (withHeader newLevel.mem 4 h) 16 := by
  have hw := waiting_new (fun _ => none) n h
  obtain ⟨ts, hpre, hm⟩ := argStrings_partly h.args
    (show ((newLevel.rb.opened.push (leBytes 8 h.tsc.toNat)).1.push
      (leBytes 4 h.id.toNat)).1.enabled = true from rfl) hs j
  refine ⟨[⟨4, leBytes 8 h.tsc.toNat⟩, ⟨12, leBytes 4 h.id.toNat⟩] ++ ts, ?_, ?_⟩
  · rw [frontStores_eq hw.room hw.on]
    exact (List.prefix_append_right_inj _).mpr hpre
  · rw [Mem.applyAll_append, hm]
    rfl

/-- In a new level everything behind the end mark reads zero. -/
theorem newLevel_blank {x : Nat} (h1 : 12 ≤ x) (h2 : x < 768) : newLevel.mem x = 0 := by
  have hw := waiting_new (fun _ => none) 80 ⟨0, 0, []⟩
  exact (hw.blank (x := x) h1 (by omega)).trans (if_pos h2)

/-- With a character stored that passes for the length byte the message is
taken. -/
theorem taken_of_confusing (hn : n ≤ 80) (hd : Described msgs h) (htsc : h.tsc.toNat ≠ 0)
    (hmax : h.tsc.toNat < UINT64_MAX) {s : StringPos} (hs : s ∈ argStrings n h.args)
    (hc : s.Confusing) : ¬ NeverTaken msgs n h := by
  intro hnever
  obtain ⟨c, hget, hval⟩ := Option.map_eq_some_iff.mp hc
  obtain ⟨hbound, -⟩ := List.getElem?_eq_some_iff.mp hget
  have hsmall := c.toNat_lt
  obtain ⟨ss, hpre, hm⟩ := frontStores_partly hs (s.shift + 1)
  have hnot := hnever _ _ _ _ (h.tsc.toNat + 1) ss (waiting_new msgs n h) (by omega) (by omega)
    hpre
  rw [hm] at hnot
  generalize hm' : s.partly (s.shift + 1) (withHeader newLevel.mem 4 h) 16 = m at hnot
  -- what stands where
  have htake : (s.chars.take (s.shift + 1)).length = s.shift + 1 := by
    rw [List.length_take]
    omega
  obtain ⟨hload, hid, -⟩ := front_loads (m := newLevel.mem) (a := 4) (h := h) m
    fun x hx => by rw [← hm', s.partly_lt _ _ hx]
  have hbefore : m.Holds 16 s.before := by
    rw [← hm']
    exact (Mem.holds_store _ _ _).store (Or.inl (by omega))
  have hchars : ∀ x ≤ s.shift, s.chars[x]? = some (m (17 + s.before.length + x)) := fun x hx => by
    have hin : x < (s.chars.take (s.shift + 1)).length := by omega
    have hholds : m.Holds (16 + s.before.length + 1) (s.chars.take (s.shift + 1)) := by
      rw [← hm']
      exact Mem.holds_store _ _ _
    have := hholds.getElem? (List.getElem?_eq_getElem hin)
    rw [show 17 + s.before.length + x = 16 + s.before.length + 1 + x by omega, this,
      List.getElem_take, List.getElem?_eq_getElem (by omega)]
  have hgap : m (16 + s.before.length) = 0 := by
    rw [← hm', StringPos.partly, Mem.store_lt (by omega), Mem.store_ge (by omega),
      withHeader_other (Or.inr (by omega)), newLevel_blank (by omega) (by omega)]
  have hrest : m.Holds (18 + s.before.length + s.shift) (List.replicate 8 0) := by
    refine Mem.holds_replicate.mpr fun x h1 h2 => ?_
    rw [← hm', StringPos.partly, Mem.store_ge (by omega), Mem.store_ge (by omega),
      withHeader_other (Or.inr (by omega)), newLevel_blank (by omega) (by omega)]
  -- what the reader measures
  have hshift : extents m (17 + s.before.length) s.behind = s.shift := by
    rw [← Nat.add_zero (17 + s.before.length), ← extents_shift m (17 + s.before.length) s.behind 0]
    refine extents_congr fun x _ hx => ?_
    have := hchars x (by rw [StringPos.shift]; omega)
    rw [charMem, List.getD_eq_getElem?_getD, this]
    rfl
  have hlen : extents m 16 (h.args.map Arg.ty) = s.before.length + 1 + s.shift := by
    rw [argStrings_extent (by omega) h.args hs hbefore, extents, Ty.extent, hgap,
      show 16 + s.before.length + (1 + UInt8.toNat 0) = 17 + s.before.length by
        simp only [show UInt8.toNat 0 = 0 from rfl]; omega, hshift]
    simp only [show UInt8.toNat 0 = 0 from rfl]
    omega
  have hnext : newReader.nextTsc m = h.tsc.toNat := by
    unfold RingBuffer.nextTsc
    rw [show newReader.cur = 4 from rfl, hload]
    exact if_neg fun hlt => absurd hlt.2 (Nat.not_lt_zero _)
  obtain ⟨mf, hmf, hdesc⟩ := hd.get
  have haccepts : newReader.Accepts m msgs true (h.tsc.toNat + 1) mf
      (s.before.length + 1 + s.shift) 0 := by
    refine ⟨by rw [hnext]; exact htsc, ?_, ?_, ?_, ?_, ?_, Or.inl rfl⟩
    · have hlast : newReader.lastTsc = 0 := rfl
      rw [hnext, RingBuffer.isValidTsc, hlast]
      simp only [Bool.and_eq_true, decide_eq_true_eq]
      omega
    · exact hid ▸ hmf
    · rw [← hlen]
      exact hdesc.length_eq m 16
    · have hbyte := hchars s.shift (Nat.le_refl _)
      rw [hget, Option.some.injEq] at hbyte
      rw [show newReader.cur + 12 + (s.before.length + 1 + s.shift)
        = 17 + s.before.length + s.shift by
          rw [show newReader.cur = 4 from rfl]; omega, ← hbyte, hval]
      omega
    · have hq : newReader.cur + 13 + (s.before.length + 1 + s.shift)
          = 18 + s.before.length + s.shift := by
        rw [show newReader.cur = 4 from rfl]; omega
      unfold RingBuffer.followingTsc
      simp only [hq, Mem.load_zero_of_holds hrest, ne_eq, not_true_eq_false, false_and, if_false]
  rw [haccepts.next_eq] at hnot
  rcases hnot with hnone | ⟨_, _, herr⟩
  · cases hnone
  · cases herr

/-- A half-written message is never taken for a complete one if and only if
none of its strings is confusing. -/
theorem neverTaken_iff (hn : n ≤ 80) (hd : Described msgs h) (hmax : h.tsc.toNat < UINT64_MAX) :
    NeverTaken msgs n h
      ↔ h.tsc.toNat = 0 ∨ ∀ s ∈ argStrings n h.args, ¬ s.Confusing := by
  constructor
  · intro hnever
    by_contra hcon
    obtain ⟨htsc, hsome⟩ := not_or.mp hcon
    obtain ⟨s, hs, hc⟩ : ∃ s ∈ argStrings n h.args, s.Confusing := by simpa using hsome
    exact taken_of_confusing hn hd htsc hmax hs hc hnever
  · rintro (htsc | hno)
    · exact neverTaken_of_zero hn htsc
    · exact neverTaken_of_not_confusing hn hd hno

end

/-! ## Two strings -/

/-- A word is not taken before its length is there. -/
theorem neverTaken_word :
    NeverTaken textTable 80 ⟨1, 1, [.val (.str (ascii ['w', 'o', 'r', 'd']))]⟩ :=
  (neverTaken_iff (by decide) (described_text _ rfl) (by decide)).mpr (Or.inr (by decide))

/-- A carriage return is: thirteen bytes, what the message would take if the
string were empty. -/
theorem carriage_return_taken : ¬ NeverTaken textTable 80 ⟨1, 1, [.val (.str [13])]⟩ :=
  taken_of_confusing (by decide) (described_text _ rfl) (by decide) (by decide)
    (List.mem_singleton_self _) (by decide)


end QuickTrace
