/-
QuickTrace.Python.Matches — which calls of a Python program leave a record
that its key describes.

`Matches` is what readers rely on: every code consumes what has been streamed
for it, the formatter of the message measures the arguments up to the length
byte, and a reader that has come to the record prints its values and stands
in front of the next one. `matches_iff` names the calls for which this is so:
every string is shown, and the length byte holds the length.
-/
import QuickTrace.Python.Trace
import QuickTrace.Format.Spelled
import QuickTrace.Tail.RingBufferTheorems

namespace QuickTrace

namespace Python

open QuickTrace.Lib RingBuf

variable {Obj : Type} [DecidableEq Obj] (py : CPython Obj) (n : Nat)

/-! ## What readers rely on -/

/-- Of the record a call has written, `length` of a formatter for the key
consumes all argument bytes: those between the message id and the length
byte. -/
def LengthMatches (key : Text) (start : Nat) (m : Mem) (r : Called) : Prop :=
  ∀ (reg reg' : Registry) (lineno : Nat) (text : Text) (mf : MessageFormatter),
    reg.Reachable → MessageFormatter.init reg lineno text key = .ok (mf, reg') →
      ∃ k, mf.length (m.applyAll r.stores) (start + 12) = some k
        ∧ r.ringBuf.ptr = start + 12 + k + 1

/-- The reader of the level stands where the next record of the ring starts
and takes a message of this time. -/
structure Awaits (rb : RingBuffer) (ringBuf : RingBuf) (tsc : UInt64) (curTsc : Nat) : Prop where
  start : rb.start = ringBuf.buf + headerSize
  end_ : rb.end_ = ringBuf.bufEnd
  cur : rb.cur = ringBuf.startPos
  last : rb.lastTsc ≤ tsc.toNat
  pos : 0 < tsc.toNat
  past : tsc.toNat < curTsc

/-- A reader that awaits the record, with a formatter for the key in its
table, takes the record for a message, prints a line with its values and
awaits the records that follow. -/
def Readable (key : Text) (ringBuf : RingBuf) (m : Mem) (h : Hit) (r : Called) : Prop :=
  ∀ (reg reg' : Registry) (lineno : Nat) (text : Text) (mf : MessageFormatter) (msgs : Messages)
    (tail : Bool) (rb : RingBuffer) (curTsc : Nat) (out : Output),
    reg.Reachable → MessageFormatter.init reg lineno text key = .ok (mf, reg') → text ≠ [] →
    msgs h.id.toNat = some mf → Awaits rb ringBuf h.tsc curTsc →
    rb.next (m.applyAll r.stores) msgs tail curTsc = .ok (some (h.tsc.toNat, h.id.toNat))
      ∧ ∃ l rb' out', rb.dump (m.applyAll r.stores) msgs tail h.tsc.toNat curTsc out
            = (.ok (true, rb'), out')
          ∧ out'.lines = out.lines ++ [l] ∧ QuickTrace.Shows msgs n l h
          ∧ ∀ (tsc : UInt64) (curTsc' : Nat), h.tsc.toNat ≤ tsc.toNat → tsc.toNat < curTsc' →
              Awaits rb' r.ringBuf tsc curTsc'

/-- Every enabled call for the message of a first call, whatever the ring and
the file were, records arguments that match the key, code by code and
altogether, in a record that readers can read. -/
def Matches (type : Obj → PyType) (args : List (TraceArg Obj)) (targs : List Obj) : Prop :=
  let key := (createMsg type args).2
  ∀ (msgFormatDict : UInt32 → Option Text) (ringBuf : RingBuf) (cs : MsgCounters) (tsc : UInt64)
    (mid : UInt32) (m : Mem), mid ≠ 0 → msgFormatDict mid = some key → cs.off mid = false →
    ∃ r, trace py n msgFormatDict ringBuf cs tsc mid targs = some r
      ∧ Consumed py n (m.applyAll r.stores) 0 (codes key) targs
          ⟨(ringBuf.startMsg cs tsc mid).1, false, 0⟩
      ∧ LengthMatches key ringBuf.startPos m r
      ∧ Readable n key ringBuf m
          ⟨tsc, mid, (values py 0 ((vargs args).map type) targs).map .val⟩ r

/-- How many bytes the arguments of a call take: one for `'b'`, the length
and the kept characters for `'p'`, eight for a number. -/
def argBytes : Nat → Text → List Obj → Nat
  | _, [], _ => 0
  | i, code :: cs, targs =>
    (if code = 98 then 1
      else if code = 112 then
        1 + (cut n ((shown py i (targs.headD py.Py_None)).getD [])).length
      else 8)
    + argBytes (i + 1) cs targs.tail

/-! ## The bytes of the values -/

variable {py n}

theorem length_encode_value (i : Nat) (t : PyType) (o : Obj) :
    ((value py i t o).encode n).length
      = if t.fmt = 98 then 1
        else if t.fmt = 112 then 1 + (cut n ((shown py i o).getD [])).length
        else 8 := by
  cases t with
  | str | other =>
    rw [value, Value.encode, encodeString, List.length_cons, Nat.add_comm]
    rfl
  | bool => rfl
  | float | int => exact leBytes_length _ _

theorem argBytes_eq : ∀ (i : Nat) (ts : List PyType) (targs : List Obj),
    argBytes py n i (ts.map PyType.fmt) targs
      = (encodeArgs n ((values py i ts targs).map .val)).length
  | _, [], _ => rfl
  | i, t :: ts, targs => by
      rw [values, List.map_cons, List.map_cons, encodeArgs_cons, List.length_append, argBytes,
        argBytes_eq (i + 1) ts targs.tail, ← length_encode_value]
      rfl

/-! ## Long limits

A limit beyond 255 makes no difference to strings that fit their length
byte. -/

theorem cut_min {c : Text} (h : (cut n c).length ≤ 255) : cut (min n 255) c = cut n c := by
  unfold cut at h ⊢
  rw [Nat.min_comm, ← List.take_take]
  exact List.take_of_length_le h

theorem value_min {t : PyType} {i : Nat} {o : Obj}
    (h : t.fmt = 112 → ∃ c, shown py i o = some c ∧ (cut n c).length ≤ 255) :
    (value py i t o).encode (min n 255) = (value py i t o).encode n
      ∧ (value py i t o).recovered (min n 255) = (value py i t o).recovered n := by
  cases t with
  | str | other =>
    obtain ⟨c, hc, hlen⟩ := h rfl
    rw [value, hc, Option.getD_some]
    simp only [Value.encode, encodeString, Value.recovered, cut_min hlen, and_self]
  | bool | float | int => exact ⟨rfl, rfl⟩

theorem encodeArgs_min : ∀ {ts : List PyType} {i : Nat} {targs : List Obj},
    Shows py n i (ts.map PyType.fmt) targs →
    encodeArgs (min n 255) ((values py i ts targs).map .val)
      = encodeArgs n ((values py i ts targs).map .val)
  | [], _, _, _ => rfl
  | t :: ts, i, targs, h => by
      rw [values, List.map_cons, encodeArgs_cons, encodeArgs_cons, encodeArgs_min h.tail]
      exact congrArg (· ++ _) (value_min h.first).1

theorem recovered_min : ∀ {ts : List PyType} {i : Nat} {targs : List Obj},
    Shows py n i (ts.map PyType.fmt) targs →
    ((values py i ts targs).map Arg.val).map (Arg.recovered (min n 255))
      = ((values py i ts targs).map Arg.val).map (Arg.recovered n)
  | [], _, _, _ => rfl
  | t :: ts, i, targs, h => by
      rw [values, List.map_cons, List.map_cons, List.map_cons, recovered_min h.tail]
      exact congrArg (· :: _) (value_min h.first).2

theorem record_min {h : Hit} (hargs : encodeArgs (min n 255) h.args = encodeArgs n h.args) :
    h.record (min n 255) = h.record n := by
  simp only [Hit.record, Hit.payload, Hit.argBytes, hargs]

theorem shown_min {args : List Arg}
    (h : args.map (Arg.recovered (min n 255)) = args.map (Arg.recovered n))
    (mf : MessageFormatter) : mf.shown (min n 255) args = mf.shown n args := by
  unfold MessageFormatter.shown
  split
  · rw [List.map_drop, h, List.map_drop]
  · exact h

/-! ## Reading the record of a call -/

/-- The record of an enabled message and the end mark behind it. -/
theorem holds_record {ringBuf : RingBuf} {cs : MsgCounters} {h : Hit}
    (hon : cs.off h.id = false) (m : Mem) :
    (m.applyAll (ringBuf.trace n cs h).2.2).Holds ringBuf.startPos (h.record n ++ zeros) := by
  rw [trace_mem hon]
  exact Mem.holds_store _ _ _

/-- Behind a record the reader awaits what the ring writes next. -/
theorem Awaits.advance {rb : RingBuffer} {ringBuf : RingBuf} {h : Hit} {curTsc : Nat}
    (ha : Awaits rb ringBuf h.tsc curTsc) {tsc : UInt64} {curTsc' : Nat}
    (hle : h.tsc.toNat ≤ tsc.toNat) (hlt : tsc.toNat < curTsc') :
    Awaits (rb.advance h.tsc.toNat (encodeArgs n h.args).length) (ringBuf.after n h) tsc
      curTsc' := by
  have hpos := ha.pos
  have hq : rb.cur + 13 + (encodeArgs n h.args).length = ringBuf.startPos + h.size n := by
    rw [ha.cur, Intact.size_eq]
    omega
  refine ⟨ha.start, ha.end_, ?_, hle, by omega, hlt⟩
  simp only [RingBuffer.advance, hq, ha.start, ha.end_]
  rfl

/-- A record whose length fits its length byte is readable. -/
theorem readable_of_record {ts : List Ty} {h : Hit} (hts : h.args.map Arg.ty = ts)
    (hargs : encodeArgs (min n 255) h.args = encodeArgs n h.args)
    (hrecovered : h.args.map (Arg.recovered (min n 255)) = h.args.map (Arg.recovered n))
    (hsize : 12 + (encodeArgs n h.args).length ≤ 255) {ringBuf : RingBuf} {m : Mem} {r : Called}
    (hring : r.ringBuf = ringBuf.after n h)
    (hm : (m.applyAll r.stores).Holds ringBuf.startPos (h.record n ++ zeros)) :
    Readable n (joinKeys ts) ringBuf m h r := by
  intro reg reg' lineno text mf msgs tail rb curTsc out hreg hinit htext hmsgs ha
  have hn : min n 255 ≤ 255 := Nat.min_le_right _ _
  rw [← ha.cur, Mem.holds_append, Hit.record_length, ← record_min hargs] at hm
  have hdesc : mf.Describes (h.args.map Arg.ty) :=
    hts ▸ (MessageFormatter.init_sound hreg.ok hinit).2.1
  have hget : msgs.get h.id.toNat = some mf := by
    have hne : mf.msg.isEmpty = false := by
      rw [MessageFormatter.init_msg hinit, List.isEmpty_eq_false_iff]
      exact htext
    simp [Messages.get, hmsgs, Option.filter, hne]
  have hend : rb.cur + h.size (min n 255) = rb.cur + h.size n := by
    rw [Intact.size_eq, Intact.size_eq, hargs]
  -- the end mark is all that stands behind the record
  have hfollowing : rb.followingTsc (m.applyAll r.stores) tail
      (rb.cur + h.size (min n 255)) = some 0 := by
    have hzero : (m.applyAll r.stores).load (rb.cur + h.size n) 8 = 0 :=
      Mem.load_leBytes (v := 0) hm.2
    rw [hend, RingBuffer.followingTsc, hzero]
    rfl
  obtain ⟨htsc, hacc⟩ := RingBuffer.Accepts.of_record hn hm.1 (by rwa [hargs]) hget hdesc
    ⟨ha.last, ha.pos, ha.past⟩ hfollowing (Or.inl rfl)
  have hid := Hit.load_id hm.1
  refine ⟨by rw [hacc.next_eq, htsc, hid], ?_⟩
  obtain ⟨l, out', hdump, hlines, hl⟩ := hacc.dump_eq
    (fun os => (hdesc.extent hn (Hit.holds_args hm.1) os).2) out
  rw [htsc] at hdump hl
  rw [hid] at hl
  have hshows := RingBuffer.shows_line hn hm.1 hget hdesc out
  rw [← hl] at hshows
  refine ⟨l, _, out', hdump, hlines, ⟨hshows.tsc, hshows.msgId, fun mf' hmf' => ?_⟩,
    fun tsc curTsc' hle hlt => ?_⟩
  · rw [hshows.values mf' hmf', shown_min hrecovered]
  · rw [hring, hargs]
    exact ha.advance hle hlt

/-! ## Which calls match -/

/-- A string code that consumes what was streamed for it has been given a
string. -/
theorem shown_of_consumed {i : Nat} {o : Obj} {s : Frame} (he : s.ringBuf.enabled = true)
    {m : Mem} {l : Length} (hl : lengthsById.lookup [112] = some l)
    (h : (round py n i 112 o s).1.ringBuf.ptr = s.ringBuf.ptr + l.run m s.ringBuf.ptr) :
    ∃ c, shown py i o = some c ∧ (cut n c).length ≤ 255 := by
  cases hl
  rw [Length.run] at h
  cases hs : shown py i o with
  | none =>
    rw [round_not_shown hs] at h
    omega
  | some c =>
    have hbyte := UInt8.toNat_lt (m s.ringBuf.ptr)
    rw [(round_shown hs).1, (Writes.putArg n (.val (.str c)) he).ptr] at h
    simp only [Arg.encode, Value.encode, encodeString, List.length_cons] at h
    exact ⟨c, rfl, by omega⟩

/-- A call whose codes consume what was streamed has shown its strings. -/
theorem shows_of_consumed {m : Mem} : ∀ {ts : List PyType} {i : Nat} {targs : List Obj}
    {s : Frame}, s.ringBuf.enabled = true → Consumed py n m i (ts.map PyType.fmt) targs s →
    Shows py n i (ts.map PyType.fmt) targs
  | [], _, _, _, _, _ => fun k hk => by simp at hk
  | t :: ts, i, targs, s, he, h => by
      rw [List.map_cons, Consumed] at h
      obtain ⟨⟨l, hl, hptr⟩, htail⟩ := h
      rw [List.map_cons]
      refine Shows.cons (fun ht => ?_) (shows_of_consumed (round_enabled he) htail)
      rw [ht] at hl hptr
      exact shown_of_consumed he hl hptr

/-- A record that a reader takes for a message has a length that fits its
length byte. -/
theorem length_le_of_readable {ts : List Ty} (hs : ∀ t ∈ ts, t.optDepth = 0) {h : Hit}
    {ringBuf : RingBuf} {m : Mem} {r : Called} (hpos : 0 < h.tsc.toNat)
    (hlength : LengthMatches (joinKeys ts) ringBuf.startPos m r)
    (hptr : r.ringBuf.ptr = ringBuf.startPos + h.size n)
    (hread : Readable n (joinKeys ts) ringBuf m h r) :
    12 + (encodeArgs n h.args).length ≤ 255 := by
  -- a reader whose table has the text "x" for every message
  obtain ⟨mf, reg', hinit, -⟩ := Printf.init_spelled .initial Nat.one_ne_zero
    [.char 120 (by decide) (by decide)] hs
  obtain ⟨k, hk, hend⟩ := hlength _ _ _ _ _ .initial hinit
  obtain ⟨hnext, -⟩ := hread _ _ _ _ mf (fun _ => some mf) false
    ⟨0, 0, ringBuf.buf + headerSize, ringBuf.bufEnd, ringBuf.startPos, 0⟩ (h.tsc.toNat + 1)
    Output.empty .initial hinit (by decide) rfl
    ⟨rfl, rfl, rfl, Nat.zero_le _, hpos, Nat.lt_succ_self _⟩
  rcases RingBuffer.next_cases _ _ _ _ _ with hnot | ⟨mf', length, nt, ha⟩
  · rcases hnot with hnone | ⟨-, e, herr⟩
    · exact absurd (hnext.symm.trans hnone) (by simp)
    · exact absurd (hnext.symm.trans herr) (by simp)
  · have hmf : mf' = mf := by
      have hget := ha.get
      simp only [Messages.get, Option.filter] at hget
      split at hget
      · exact (Option.some.inj hget).symm
      · cases hget
    have hlen : length = k := by
      have hmeasured := ha.measured
      rw [hmf, hk, Option.some.injEq] at hmeasured
      exact hmeasured.symm
    have hbyte := ha.byte
    have hlt := UInt8.toNat_lt (m.applyAll r.stores (ringBuf.startPos + 12 + length))
    rw [Intact.size_eq] at hptr
    simp only at hbyte
    omega

theorem optDepth_ty (ts : List PyType) : ∀ t ∈ ts.map PyType.ty, t.optDepth = 0 := by
  intro t ht
  obtain ⟨u, -, rfl⟩ := List.mem_map.mp ht
  cases u <;> rfl

/-- The calls whose records match the key of the message. -/
theorem matches_iff (type : Obj → PyType) (args : List (TraceArg Obj)) (targs : List Obj) :
    Matches py n type args targs
      ↔ Shows py n 0 (codes (createMsg type args).2) targs
        ∧ 12 + argBytes py n 0 (codes (createMsg type args).2) targs ≤ 255 := by
  unfold Matches
  dsimp only
  rw [createMsg_key, codes_joinKeys, argBytes_eq]
  generalize (vargs args).map type = ts
  constructor
  · intro h
    obtain ⟨r, htrace, hcons, hlength, hread⟩ := h (fun _ => some _) ⟨4, none, 1000, 0⟩
      ⟨1, fun _ => MsgCounter.zero⟩ 1 1 (fun _ => 0) (by decide) rfl rfl
    have hshows := shows_of_consumed rfl hcons
    obtain ⟨r', htrace', hring, -, -⟩ := @trace_stream _ py n _ ts targs hshows
      (fun _ => some _) ⟨4, none, 1000, 0⟩ ⟨1, fun _ => MsgCounter.zero⟩ 1 1 (by decide) rfl rfl
    cases htrace.symm.trans htrace'
    have hon : (⟨1, fun _ => MsgCounter.zero⟩ : MsgCounters).off 1 = false := rfl
    have hpos : 0 < (1 : UInt64).toNat := by decide
    refine ⟨hshows, length_le_of_readable (optDepth_ty ts) hpos hlength ?_ hread⟩
    rw [hring, @trace_ring n ⟨4, none, 1000, 0⟩ _ ⟨1, 1, _⟩ hon]
    rfl
  · rintro ⟨hshows, hsize⟩ msgFormatDict ringBuf cs tsc mid m hmid hfmt hon
    obtain ⟨r, htrace, hring, hstores, hcons⟩ := trace_stream hshows ringBuf tsc hmid hfmt hon
    have hrecord := @holds_record n ringBuf cs
      ⟨tsc, mid, (values py 0 ts targs).map .val⟩ hon m
    rw [← hstores] at hrecord
    have hargs := Hit.holds_args ((Mem.holds_append _ _ _ _).mp hrecord).1
    rw [@trace_ring n ringBuf cs ⟨tsc, mid, (values py 0 ts targs).map .val⟩ hon] at hring
    refine ⟨r, htrace, ?_, ?_, readable_of_record (values_ty 0 ts targs) (encodeArgs_min hshows)
      (recovered_min hshows) hsize hring hrecord⟩
    · exact hcons _ hargs
    · intro reg reg' lineno text mf hreg hinit
      have hlen := (MessageFormatter.init_sound hreg.ok hinit).2.1.length_eq
        (m.applyAll r.stores) (ringBuf.startPos + 12)
      refine ⟨_, hlen, ?_⟩
      have hptr : r.ringBuf.ptr
          = ringBuf.startPos + (13 + (encodeArgs n ((values py 0 ts targs).map .val)).length) := by
        rw [hring]
        rfl
      rw [extents_fitting (fitting_values hshows) hargs, hptr]
      omega

/-! ## An object without a string -/

/-- A key with a code takes at least one byte. -/
theorem length_ne_zero {mf : MessageFormatter} {t : Ty} {ts : List Ty}
    (h : mf.Describes (t :: ts)) (m : Mem) (buf : Nat) : mf.length m buf ≠ some 0 := by
  have hpos := t.extent_pos m buf
  rw [h.length_eq, extents, Ne, Option.some.injEq]
  omega

/-- The first call at a line, with the object whose `__str__` raises: the
key has one code and the record no argument at all. -/
theorem trace_raising :
    ∃ r, trace Sample.python 24 (fun _ => some (createMsg Sample.type [.var .raising]).2)
        ⟨4, none, 1000, 0⟩ ⟨1, fun _ => MsgCounter.zero⟩ 0 1 (vargs [.var .raising]) = some r
      ∧ ¬ LengthMatches (createMsg Sample.type [.var .raising]).2 4 (fun _ => 0) r := by
  refine ⟨_, rfl, fun h => ?_⟩
  have hinit : MessageFormatter.init Registry.initial 1 (ascii ['%', 's']) (joinKeys [.str])
      = .ok (⟨1, ascii ['%', 's'], ascii ['p'], [.param .string], [.string]⟩,
          Registry.initial) := rfl
  obtain ⟨k, hlen, hptr⟩ := h _ _ _ _ _ .initial hinit
  have hk : 17 = 4 + 12 + k + 1 := hptr
  have hzero : k = 0 := by omega
  rw [hzero] at hlen
  exact length_ne_zero (MessageFormatter.init_sound Registry.ok_initial hinit).2.1 _ _ hlen

end Python

end QuickTrace
