/-
QuickTrace.Tail.LineText — the text of the printed lines.

The formatters of a file all write to the same stream, so what a line looks
like depends on the flags that the lines before it have left. When every
formatter of the table was built from a text of tokens (`AllSpelled`), no
flag is ever left: `Output.Spelled` is the invariant, `dump_spelled` the step
lemma, and `catOne_spelled` the run. A line is then the text of its
descriptor with the values it shows.
-/
import QuickTrace.Format.Spelled
import QuickTrace.Tail.Tail

namespace QuickTrace

open QuickTrace.Lib Printf

/-! ## Lines -/

/-- The characters of the message in a line. -/
def Line.text (ft : FloatText) (l : Line) : Text := l.body.flatMap fun fp => fp.2.rendered ft fp.1

/-- Every descriptor of the table has a text of tokens and scalar types. -/
def Messages.AllSpelled (msgs : Messages) : Prop :=
  ∀ msgId mf, msgs.get msgId = some mf → ∃ tokens types, Spelled mf tokens types

/-- The line is the text of its descriptor with the values it shows. -/
def Line.Spelled (msgs : Messages) (l : Line) : Prop :=
  ∀ mf tokens types, msgs.get l.msgId = some mf → Printf.Spelled mf tokens types →
    ∀ ft, l.text ft = meaning ft tokens (l.values.map some)

/-- No manipulator is in force, and every line so far is its text. The width
never reaches the next line. -/
structure Output.Spelled (msgs : Messages) (out : Output) : Prop where
  neutral : Neutral { out.flags with width := 0 }
  lines : ∀ l ∈ out.lines, l.Spelled msgs

theorem Output.spelled_empty (msgs : Messages) : Output.empty.Spelled msgs :=
  ⟨⟨rfl, rfl, rfl, rfl, rfl⟩, fun l hl => by cases hl⟩

variable {m : Mem} {msgs : Messages}

/-! ## One message -/

/-- The step lemma: whatever `dump` prints is the text of its message. -/
theorem RingBuffer.dump_spelled (h : msgs.AllSpelled) (rb : RingBuffer) (tail : Bool)
    (orderTsc curTsc : Nat) {out : Output} (ho : out.Spelled msgs) :
    (rb.dump m msgs tail orderTsc curTsc out).2.Spelled msgs := by
  unfold RingBuffer.dump
  split
  · exact ho
  · exact ho
  · rename_i tsc msgId hnext
    split
    · exact ho
    · split
      · exact ho
      · rename_i mf hget
        obtain ⟨tokens, types, hsp⟩ := h msgId mf hget
        obtain ⟨n, os', hrun, hneutral, ps, hvalues, -⟩ :=
          hsp.format m (rb.cur + 12) ⟨{ out.flags with width := 0 }, []⟩ ho.neutral
        -- the line that is appended, whichever descriptor of tokens it is read with
        have hline : (rb.line out tsc msgId os').Spelled msgs := by
          intro mf' tokens' types' hget' hsp' ft
          cases hget.symm.trans hget'
          obtain ⟨n', os'', hrun', -, ps', hvalues', htext⟩ :=
            hsp'.format m (rb.cur + 12) ⟨{ out.flags with width := 0 }, []⟩ ho.neutral
          cases hrun.symm.trans hrun'
          have hps : (rb.line out tsc msgId os').values = ps' := by
            rw [OStream.values] at hvalues'
            exact hvalues'
          rw [hps]
          exact htext ft
        have hout : Output.Spelled msgs
            { flags := { os'.flags with width := 0 }, lastPrintedTsc := tsc
              lines := out.lines ++ [rb.line out tsc msgId os'] } := by
          refine ⟨⟨hneutral.hex, hneutral.showbase, hneutral.showpos, hneutral.fixed, rfl⟩, ?_⟩
          intro l hl
          rcases List.mem_append.mp hl with hl | hl
          · exact ho.lines l hl
          · rw [List.mem_singleton.mp hl]
            exact hline
        simp only [hrun]
        split
        · exact hout
        · exact hout

namespace Tail

variable {tail : Bool}

theorem tailBuffer_spelled (h : msgs.AllSpelled) {t : Tail} {tsc curTsc bufNum : Nat}
    {r : Bool × Tail} (ho : t.out.Spelled msgs)
    (hr : t.tailBuffer m msgs tail tsc curTsc bufNum = some r) : r.2.out.Spelled msgs := by
  unfold tailBuffer at hr
  split at hr
  · cases hr
    exact ho
  · rename_i rb hrb
    have hdump := rb.dump_spelled (m := m) h tail tsc curTsc ho
    split at hr
    · rename_i ok rb' out hres
      rw [hres] at hdump
      cases hr
      exact hdump
    · rename_i e out hres
      rw [hres] at hdump
      split at hr
      · cases hr
        exact hdump
      · cases hr

theorem tailOnce_spelled (h : msgs.AllSpelled) {t : Tail} {curTsc : Nat} {r : Bool × Tail}
    (ho : t.out.Spelled msgs) (hr : t.tailOnce m msgs tail curTsc = some r) :
    r.2.out.Spelled msgs := by
  have hout : (t.nextTsc m).out = t.out := by
    unfold nextTsc
    split <;> rfl
  unfold tailOnce at hr
  dsimp only at hr
  split at hr
  · exact tailBuffer_spelled h (by rw [hout]; exact ho) hr
  · cases hr
    rw [hout]
    exact ho

/-- The run lemma. -/
theorem catOne_spelled (h : msgs.AllSpelled) : ∀ (fuel : Nat) {t t' : Tail}, t.out.Spelled msgs →
    catOne m msgs fuel t = .done t' → t'.out.Spelled msgs
  | 0, _, _, _, hrun => by cases hrun
  | fuel + 1, t, t', ho, hrun => by
      rw [catOne] at hrun
      rcases hres : t.tailOnce m msgs false UINT64_MAX with _ | ⟨_ | _, t₁⟩
      · simp only [hres] at hrun
        cases hrun
      · simp only [hres] at hrun
        cases hrun
        exact tailOnce_spelled h ho hres
      · simp only [hres] at hrun
        exact catOne_spelled h fuel (tailOnce_spelled h ho hres) hrun

end Tail

/-- Every line of `qttail -c` is the text of its descriptor. -/
theorem cat_spelled (h : msgs.AllSpelled) {rbs : List RingBuffer} {fuel : Nat} {t : Tail}
    (hrun : cat m msgs rbs fuel = some (.done t)) : ∀ l ∈ t.out.lines, l.Spelled msgs := by
  unfold cat at hrun
  obtain ⟨rbs', -, hcat⟩ := Option.map_eq_some_iff.mp hrun
  exact (Tail.catOne_spelled h fuel (Output.spelled_empty msgs) hcat).lines

end QuickTrace
