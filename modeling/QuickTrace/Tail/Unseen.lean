/-
QuickTrace.Tail.Unseen — changes of a file that its reader does not see.

A statement that is off writes its counter and nothing else, unless it wraps
its level; `qtctl` writes counters too (`TraceFile.Idle`). And a reader may be
given another table of descriptors, if the new one has a formatter of the same
statement for every message of the file (`Means`). The invariants of the
reader survive both.
-/
import QuickTrace.Handle.Program
import QuickTrace.Tail.TailManyOrder

namespace QuickTrace

open QuickTrace.Lib RingBuf Level

/-! ## Counters -/

namespace Level

variable {n base size : Nat} {r : Level}

/-- Another message has begun, or none, and the counters are others. -/
def idle (r : Level) (msgStart : Option Nat) (cs : MsgCounters) : Level :=
  { r with rb := { r.rb with msgStart }, cs }

/-- The invariant looks at the pointers and at the bytes. -/
theorem Inv.idle (h : Inv n base size r) (msgStart : Option Nat) (cs : MsgCounters) :
    Inv n base size (r.idle msgStart cs) where
  pointers := ⟨h.pointers.buf, h.pointers.bufEnd⟩
  cur_gen := h.cur_gen
  ptr_eq := h.ptr_eq
  cur_bytes := h.cur_bytes
  mark := h.mark
  fresh := h.fresh
  old_gen := h.old_gen
  old_full := h.old_full
  tail := h.tail
  old_bytes := h.old_bytes

theorem Past.idle {rb : RingBuffer} {e : Recorded}
    (h : Past n base size r rb e) (msgStart : Option Nat) (cs : MsgCounters) :
    Past n base size (r.idle msgStart cs) rb e := by
  cases h with
  | older h => exact .older h
  | overwritten h => exact .overwritten h
  | last htsc hcur => exact .last htsc hcur

theorem Follows.idle {rb : RingBuffer} {consumed pending : List Recorded}
    (h : Follows n base size r rb consumed pending)
    (msgStart : Option Nat) (cs : MsgCounters) :
    Follows n base size (r.idle msgStart cs) rb consumed pending where
  reader := h.reader
  log := h.log
  last := h.last
  cursor := by
    cases h.cursor with
    | cur done hcur hc => exact .cur done hcur hc
    | old done post hold hpost hpend hc hlim => exact .old done post hold hpost hpend hc hlim

end Level

namespace TraceFile

variable {n : Nat} {spec : SizeSpec} {logStart : Nat} {tf tf' : TraceFile}

/-- Only the counters have changed, and which message has begun. -/
def Idle (tf tf' : TraceFile) : Prop :=
  ∀ i, ∃ msgStart, tf'.ring i = (tf.ring i).idle msgStart tf'.cs

theorem Idle.log (h : Idle tf tf') (i : Fin NumTraceLevels) :
    (tf'.ring i).log = (tf.ring i).log := by
  obtain ⟨msgStart, heq⟩ := h i
  rw [heq]
  rfl

/-- A statement that is off, when its level has room. -/
theorem idle_trace {i : Fin NumTraceLevels} {h : Hit} (hoff : tf.cs.off h.id = true)
    (hroom : (tf.ring i).rb.ptr < (tf.ring i).rb.bufEnd) : Idle tf (tf.trace n i h) := by
  have hwrap : (tf.ring i).wrap = tf.ring i := if_neg (Nat.not_le.mpr hroom)
  have htrace : (tf.ring i).trace n h
      = (tf.ring i).idle none ((tf.ring i).cs.hit h.id h.tsc) := by
    rw [trace_eq_wrap (show (tf.ring i).cs.off h.id = true from hoff), hwrap]
    rfl
  have hcs : (tf.trace n i h).cs = (tf.ring i).cs.hit h.id h.tsc := congrArg Level.cs htrace
  have hmem : (tf.trace n i h).mem = tf.mem := congrArg Level.mem htrace
  intro j
  by_cases hij : j = i
  · subst hij
    exact ⟨none, by rw [trace_ring_self, htrace, hcs]⟩
  · exact ⟨(tf.ring j).rb.msgStart, by rw [ring_trace_ne hij, hmem]; rfl⟩

/-- Another process writes the counters. -/
theorem idle_ctl (n : Nat) (counter : Nat → MsgCounter) : Idle tf (tf.step n (.ctl counter)) :=
  fun i => ⟨(tf.ring i).rb.msgStart, rfl⟩

theorem WriterOk.idle {P : Hit → Prop} (h : WriterOk P n spec logStart tf) (hi : Idle tf tf') :
    WriterOk P n spec logStart tf' where
  inv := fun i => by
    obtain ⟨msgStart, heq⟩ := hi i
    rw [heq]
    exact (h.inv i).idle _ _
  log := fun i => by
    rw [hi.log i]
    exact h.log i
  started := fun i hcur => by
    obtain ⟨msgStart, heq⟩ := hi i
    rw [heq] at hcur ⊢
    exact h.started i hcur

end TraceFile

namespace System

variable {msgs : Messages} {n : Nat} {spec : SizeSpec} {logStart : Nat} {s : System}
  {tf' : TraceFile} {printed rest : List Sent}

theorem lapped_idle (h : Lapped msgs n spec logStart s) (hi : TraceFile.Idle s.tf tf') :
    Lapped msgs n spec logStart { s with tf := tf' } where
  once := ⟨h.once.lines, h.once.shows, h.once.sent, h.once.nodup⟩
  writer := h.writer.idle hi
  sent_log := fun x hx => by
    show x.2 ∈ (tf'.ring x.1).log
    rw [hi.log]
    exact h.sent_log x hx
  sorted := h.sorted
  readers := h.readers.imp fun i rb hb => by
    refine ⟨hb.reader, hb.level, fun e he hnot => ?_⟩
    have he : e ∈ (tf'.ring i).log := he
    rw [hi.log] at he
    obtain ⟨msgStart, heq⟩ := hi i
    show Past n _ _ (tf'.ring i) rb e
    rw [heq]
    exact (hb.past e he hnot).idle _ _

theorem synced_idle (h : Synced n spec logStart s printed rest) (hi : TraceFile.Idle s.tf tf') :
    Synced n spec logStart { s with tf := tf' } printed rest := by
  refine ⟨h.sent, h.origins, h.corruptions, h.readers.imp fun i rb hk => ?_, h.next⟩
  obtain ⟨hlevel, consumed, hf⟩ := hk
  obtain ⟨msgStart, heq⟩ := hi i
  refine ⟨hlevel, consumed, ?_⟩
  show Follows n _ _ (tf'.ring i) rb consumed _
  rw [heq]
  exact hf.idle _ _

end System

namespace TailMany

variable {k : Nat} {cfg : Fin k → TracedFile} {s : TailMany k} {f g : Fin k} {tf' : TraceFile}

/-- A file that has changed, and its header. -/
def touch (f : Fin k) (tf : TraceFile) (tsc1 : Nat) (s : TailMany k) : TailMany k :=
  { s with files := Function.update s.files f { s.files f with tf, tsc1 } }

theorem touch_self (tf : TraceFile) (tsc1 : Nat) :
    (s.touch f tf tsc1).files f = { s.files f with tf, tsc1 } :=
  Function.update_self ..

theorem touch_ne (hg : g ≠ f) (tf : TraceFile) (tsc1 : Nat) :
    (s.touch f tf tsc1).files g = s.files g :=
  Function.update_of_ne hg ..

theorem tail_touch (tf : TraceFile) (tsc1 : Nat) (g : Fin k) :
    ((s.touch f tf tsc1).files g).tail = (s.files g).tail := by
  by_cases hg : g = f
  · subst hg; rw [touch_self]
  · rw [touch_ne hg]

theorem view_touch_self (tf : TraceFile) (tsc1 : Nat) :
    (s.touch f tf tsc1).view f = { s.view f with tf } := by
  unfold view
  rw [touch_self]
  rfl

theorem view_touch_ne (hg : g ≠ f) (tf : TraceFile) (tsc1 : Nat) :
    (s.touch f tf tsc1).view g = s.view g :=
  view_congr (touch_ne hg tf tsc1) rfl rfl rfl

theorem live_idle (h : Live cfg s) (hi : TraceFile.Idle (s.files f).tf tf') (tsc1 : Nat) :
    Live cfg (s.touch f tf' tsc1) where
  lapped := fun g => by
    by_cases hg : g = f
    · subst hg
      rw [view_touch_self]
      exact System.lapped_idle (h.lapped g) hi
    · rw [view_touch_ne hg]
      exact h.lapped g
  tracks := fun g => by
    rw [tail_touch]
    exact h.tracks g
  lines := h.lines
  choice := fun r hr g bufNum hmin => by
    rw [tail_touch]
    exact h.choice r hr g bufNum hmin

theorem kept_idle (h : Kept cfg s) (hi : TraceFile.Idle (s.files f).tf tf') (tsc1 : Nat) :
    Kept cfg (s.touch f tf' tsc1) where
  live := live_idle h.live hi tsc1
  synced := fun g => by
    by_cases hg : g = f
    · subst hg
      rw [view_touch_self]
      exact System.synced_idle (h.synced g) hi
    · rw [view_touch_ne hg]
      exact h.synced g
  patient := fun g i rb hk => by
    rw [tail_touch] at hk
    exact h.patient g i rb hk
  late := fun g hf => by
    rw [tail_touch] at hf
    exact h.late g hf
  begun := h.begun
  round := fun r hr => by
    have hround := h.round r hr
    refine ⟨fun hmin => ?_, fun g hg ht => ?_, fun hmin hall => ?_⟩
    · simp only [tail_touch]
      exact hround.nothing hmin
    · rw [tail_touch] at ht
      exact hround.least g hg ht
    · simp only [tail_touch]
      exact hround.deleted hmin hall
  printed := fun p hp x hx g ht => by
    rw [tail_touch] at ht
    exact h.printed p hp x hx g ht
  order := h.order
  returned := fun hr g => by
    rw [tail_touch]
    exact h.returned hr g

end TailMany

/-! ## Tables -/

namespace System

variable {msgs msgs' : Messages} {n : Nat} {spec : SizeSpec} {logStart : Nat} {s : System}

/-- The invariant under another table. -/
theorem Lapped.change (h : Lapped msgs n spec logStart s)
    (hmeans : ∀ i, ∀ e ∈ (s.tf.ring i).log, ∃ st, Means msgs st e.hit ∧ Means msgs' st e.hit) :
    Lapped msgs' n spec logStart s where
  once := ⟨h.once.lines, fun p hp x hx => by
    have hmem : x ∈ s.origins := List.mem_filterMap.mpr ⟨p, hp, hx⟩
    obtain ⟨st, hm, hm'⟩ := hmeans x.1 x.2 (h.sent_log x (h.once.sent x hmem))
    obtain ⟨hlevel, hs⟩ := h.once.shows p hp x hx
    exact ⟨hlevel, hm.shows hm' hs⟩, h.once.sent, h.once.nodup⟩
  writer := by
    refine ⟨h.writer.inv, fun i => ?_, h.writer.started⟩
    have hl := h.writer.log i
    refine ⟨hl.sorted, hl.pos, hl.small, fun e he => ?_⟩
    obtain ⟨st, -, hm'⟩ := hmeans i e he
    exact hm'.described
  sent_log := h.sent_log
  sorted := h.sorted
  readers := h.readers.imp fun _ _ hb => ⟨hb.reader, hb.level, hb.past⟩

end System

namespace TailMany

variable {k : Nat} {cfg cfg' : Fin k → TracedFile} {s : TailMany k}

/-- The same files, and tables that mean the same. -/
structure SameFiles (cfg cfg' : Fin k → TracedFile) (s : TailMany k) : Prop where
  n : ∀ f, (cfg' f).n = (cfg f).n
  spec : ∀ f, (cfg' f).spec = (cfg f).spec
  logStart : ∀ f, (cfg' f).logStart = (cfg f).logStart
  means : ∀ f i, ∀ e ∈ ((s.files f).tf.ring i).log,
    ∃ st, Means (cfg f).msgs st e.hit ∧ Means (cfg' f).msgs st e.hit

theorem Live.change (h : Live cfg s) (hsame : SameFiles cfg cfg' s) : Live cfg' s := by
  refine ⟨fun f => ?_, h.tracks, h.lines, h.choice⟩
  rw [hsame.n, hsame.spec, hsame.logStart]
  exact (h.lapped f).change (hsame.means f)

theorem Kept.change (h : Kept cfg s) (hsame : SameFiles cfg cfg' s) : Kept cfg' s := by
  refine ⟨h.live.change hsame, fun f => ?_, h.patient, h.late, h.begun, h.round, h.printed, h.order,
    h.returned⟩
  rw [hsame.n, hsame.spec, hsame.logStart]
  exact h.synced f

end TailMany

end QuickTrace
