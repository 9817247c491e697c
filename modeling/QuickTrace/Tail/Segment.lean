/-
QuickTrace.Tail.Segment — reading a run of messages.

A `Segment` is a run of intact messages, one behind the other, each starting
in the usable area. The loops of the reader go over it message by message:
`forward_segment` for the loop of `rewind`, `yields_segment` for what is
printed. Behind each message but the last stands the next one; what stands
behind the last is up to the caller.
-/
import QuickTrace.Tail.CatOne
import QuickTrace.Ring.LevelLog

namespace QuickTrace

open QuickTrace.Lib RingBuf Level

/-- A run of intact messages from `a` on, each starting before `b`. -/
structure Segment (msgs : Messages) (n : Nat) (m : Mem) (a b : Nat) (es : List Recorded) :
    Prop where
  laid : Laid (Recorded.bytes n) Recorded.start a es
  intact : ∀ e ∈ es, Intact msgs n m e.start e.hit
  start_lt : ∀ e ∈ es, e.start < b
  log : LogOk (Described msgs) es

namespace Segment

variable {msgs : Messages} {n : Nat} {m : Mem} {a b : Nat} {e : Recorded} {es : List Recorded}

theorem start_eq (h : Segment msgs n m a b (e :: es)) : e.start = a := h.laid.1

theorem tail (h : Segment msgs n m a b (e :: es)) :
    Segment msgs n m (a + e.hit.size n) b es := by
  have hl := h.laid.2
  rw [Recorded.bytes_length] at hl
  exact ⟨hl, fun x hx => h.intact x (by simp [hx]), fun x hx => h.start_lt x (by simp [hx]),
    h.log.sublist (List.sublist_cons_self e es)⟩

theorem head_intact (h : Segment msgs n m a b (e :: es)) : Intact msgs n m a e.hit := by
  have := h.intact e (by simp)
  rwa [h.start_eq] at this

theorem lt_of_mem (h : Segment msgs n m a b (e :: es)) {x : Recorded} (hx : x ∈ es) :
    e.hit.tsc.toNat < x.hit.tsc.toNat :=
  (List.pairwise_cons.mp h.log.sorted).1 x hx

/-- Behind a message that is not the last stands the next one. -/
theorem plausible_next {x : Recorded} (h : Segment msgs n m a b (e :: x :: es)) {rb : RingBuffer}
    (hend : rb.end_ = b) (tailing : Bool) {curTsc : Nat} (hcur : x.hit.tsc.toNat ≤ curTsc) :
    RingBuffer.Plausible rb m tailing curTsc e.hit.tsc.toNat (a + e.hit.size n) := by
  have hx := h.tail.head_intact
  have hlt := h.tail.start_lt x (by simp)
  rw [h.tail.start_eq] at hlt
  have hord := h.lt_of_mem (x := x) (by simp)
  refine ⟨x.hit.tsc.toNat, ?_, Or.inr ⟨by omega, hcur⟩⟩
  unfold RingBuffer.followingTsc
  simp only [hx.load_tsc]
  rw [if_neg (by omega)]

theorem expects (h : Segment msgs n m a b (e :: es)) {rb : RingBuffer}
    (hlast : rb.lastTsc ≤ e.hit.tsc.toNat) : rb.Expects UINT64_MAX e.hit :=
  ⟨hlast, h.log.pos e (by simp), h.log.small e (by simp)⟩

end Segment

/-- The timestamp of the last message, or that of the reader. -/
def lastTscOf (t : Nat) (es : List Recorded) : Nat :=
  es.foldl (fun _ e => e.hit.tsc.toNat) t

namespace RingBuffer

variable {msgs : Messages} {n : Nat} {m : Mem} {tailing : Bool}

/-- What is behind the last message of a run is plausible. -/
def EndOk (rb : RingBuffer) (m : Mem) (n : Nat) (tailing : Bool) (curTsc a : Nat)
    (es : List Recorded) : Prop :=
  ∀ e, es.getLast? = some e →
    rb.Plausible m tailing curTsc e.hit.tsc.toNat (endOf (Recorded.bytes n) a es)

/-- The checks look at the two ends of the area only. -/
theorem Plausible.congr {rb rb' : RingBuffer} {curTsc tsc q : Nat}
    (h : rb.Plausible m tailing curTsc tsc q) (h1 : rb'.start = rb.start)
    (h2 : rb'.end_ = rb.end_) : rb'.Plausible m tailing curTsc tsc q := by
  unfold Plausible followingTsc at *
  rwa [h1, h2]

/-- The head of a run is followed by something plausible. -/
theorem EndOk.head {rb : RingBuffer} {a curTsc : Nat} {e : Recorded} {es : List Recorded}
    (hs : Segment msgs n m a rb.end_ (e :: es)) (he : rb.EndOk m n tailing curTsc a (e :: es))
    (hcur : ∀ x ∈ es, x.hit.tsc.toNat ≤ curTsc) :
    rb.Plausible m tailing curTsc e.hit.tsc.toNat (a + e.hit.size n) := by
  cases es with
  | nil =>
    have := he e rfl
    rwa [endOf_cons, endOf_nil, Recorded.bytes_length] at this
  | cons x es => exact hs.plausible_next rfl tailing (hcur x (by simp))

theorem EndOk.tail {rb rb' : RingBuffer} {a curTsc : Nat} {e : Recorded} {es : List Recorded}
    (he : rb.EndOk m n tailing curTsc a (e :: es)) (h1 : rb'.start = rb.start)
    (h2 : rb'.end_ = rb.end_) : rb'.EndOk m n tailing curTsc (a + e.hit.size n) es := by
  intro x hx
  have hlast : (e :: es).getLast? = some x := by
    cases es with
    | nil => cases hx
    | cons y es => rwa [List.getLast?_cons_cons]
  have := he x hlast
  rw [endOf_cons, Recorded.bytes_length] at this
  exact this.congr h1 h2

/-- The loop of `rewind` over a run of messages. -/
theorem forward_segment (hn : n ≤ 80) : ∀ (es : List Recorded) (rb : RingBuffer),
    Segment msgs n m rb.cur rb.end_ es → (∀ e ∈ es, rb.lastTsc ≤ e.hit.tsc.toNat) →
    rb.EndOk m n tailing UINT64_MAX rb.cur es → ∀ fuel,
    rb.forward m msgs tailing (fuel + es.length)
      = ({ rb with cur := endOf (Recorded.bytes n) rb.cur es, lastTsc := lastTscOf rb.lastTsc es }
          : RingBuffer).forward m msgs tailing fuel
  | [], rb, _, _, _, fuel => rfl
  | e :: es, rb, hs, hlast, he, fuel => by
      have hlt := hs.start_lt e (by simp)
      rw [hs.start_eq] at hlt
      have hmax : ∀ x ∈ es, x.hit.tsc.toNat ≤ UINT64_MAX := fun x hx =>
        Nat.le_of_lt (hs.log.small x (by simp [hx]))
      have hstep := forward_intact hn hs.head_intact (hs.expects (hlast e (by simp)))
        (he.head hs hmax) hlt (fuel + es.length)
      have ih := forward_segment hn es (rb.past n e.hit) hs.tail
        (fun x hx => Nat.le_of_lt (hs.lt_of_mem hx)) (he.tail rfl rfl) fuel
      rw [List.length_cons, ← Nat.add_assoc, hstep, ih, endOf_cons, Recorded.bytes_length]
      rfl

end RingBuffer

/-! ## Printing -/

namespace Tail

variable {msgs : Messages} {n : Nat} {m : Mem}

/-- The reader behind a run of messages: at the end of the usable area it
goes back to the start. -/
def behind (n : Nat) (rb : RingBuffer) (e : Recorded) (es : List Recorded) : RingBuffer :=
  let q := endOf (Recorded.bytes n) rb.cur (e :: es)
  { rb with
    cur := if rb.end_ ≤ q then rb.start else q
    lastTsc := lastTscOf e.hit.tsc.toNat es
    corruption := 0 }

/-- A level yields a run of messages, each once and in order, and then what
it yields behind them. -/
theorem yields_segment (hn : n ≤ 80) : ∀ (es : List Recorded) (e : Recorded)
    (rb : RingBuffer), Segment msgs n m rb.cur rb.end_ (e :: es) →
    rb.lastTsc ≤ e.hit.tsc.toNat → rb.EndOk m n false UINT64_MAX rb.cur (e :: es) →
    ∃ qs, List.Forall₂ (Printed.Shows msgs n) qs ((e :: es).map Recorded.hit)
      ∧ ∀ ps, (behind n rb e es).Yields m msgs ps → rb.Yields m msgs (qs ++ ps)
  | [], e, rb, hs, hlast, he => by
      obtain ⟨p, hp, hsh⟩ := RingBuffer.Readable.of_intact hn hs.head_intact
        (hs.expects hlast) (he.head hs (by simp))
      refine ⟨[p], .cons hsh .nil, fun ps hps => .cons hp ?_⟩
      have hq : rb.cur + 13 + (encodeArgs n e.hit.args).length = rb.cur + e.hit.size n := by
        rw [Intact.size_eq]; omega
      simp only [RingBuffer.advance, hq]
      simp only [behind, endOf_cons, endOf_nil, Recorded.bytes_length] at hps
      exact hps
  | x :: es, e, rb, hs, hlast, he => by
      have hmax : ∀ y ∈ x :: es, y.hit.tsc.toNat ≤ UINT64_MAX := fun y hy =>
        Nat.le_of_lt (hs.log.small y (List.mem_cons_of_mem _ hy))
      obtain ⟨p, hp, hsh⟩ := RingBuffer.Readable.of_intact hn hs.head_intact
        (hs.expects hlast) (he.head hs hmax)
      have hq : rb.cur + 13 + (encodeArgs n e.hit.args).length = rb.cur + e.hit.size n := by
        rw [Intact.size_eq]; omega
      -- the next message starts in the usable area, so the cursor stays
      have hlt := hs.tail.start_lt x (by simp)
      rw [hs.tail.start_eq] at hlt
      have hadv : rb.advance e.hit.tsc.toNat (encodeArgs n e.hit.args).length
          = { rb with cur := rb.cur + e.hit.size n, lastTsc := e.hit.tsc.toNat,
                      corruption := 0 } := by
        simp only [RingBuffer.advance, hq]
        rw [if_neg (by omega)]
      rw [hadv] at hp
      obtain ⟨qs, hqs, hrest⟩ := yields_segment hn es x
        { rb with cur := rb.cur + e.hit.size n, lastTsc := e.hit.tsc.toNat,
                  corruption := 0 } hs.tail
        (Nat.le_of_lt (hs.lt_of_mem (by simp))) (he.tail rfl rfl)
      refine ⟨p :: qs, .cons hsh hqs, fun ps hps => .cons hp (hrest ps ?_)⟩
      simp only [behind, endOf_cons, Recorded.bytes_length] at hps ⊢
      exact hps

end Tail

end QuickTrace
