/-
QuickTrace.Ring.LevelLog — the messages of a level in memory and in time.

`RecordOk` is what a recording has to respect: the message fits, and its
timestamp is larger than all before. `LogOk` is the resulting order of the
log (`logOk_reachable`).
-/
import QuickTrace.Ring.LevelTheorems

namespace QuickTrace

open QuickTrace.Lib RingBuf

namespace Level

/-- The log behind a trace statement. -/
theorem trace_log (n : Nat) (r : Level) (h : Hit) :
    (r.trace n h).log
      = if r.cs.off h.id then r.log else r.log ++ [⟨r.rb.startPos, h⟩] := by
  have hw := wrap_log r
  unfold log at hw
  unfold trace log
  dsimp only
  split
  · exact hw
  · rw [← hw]; simp only [List.append_assoc]

/-- What holds of every recorded message, beyond its bytes: `P`, and a
timestamp that is neither zero nor the largest word. -/
structure LogOk (P : Hit → Prop) (es : List Recorded) : Prop where
  sorted : es.Pairwise fun a b => a.hit.tsc.toNat < b.hit.tsc.toNat
  pos : ∀ e ∈ es, 0 < e.hit.tsc.toNat
  small : ∀ e ∈ es, e.hit.tsc.toNat < 2 ^ 64 - 1
  each : ∀ e ∈ es, P e.hit

theorem LogOk.sublist {P : Hit → Prop} {es fs : List Recorded} (h : LogOk P fs)
    (hs : es.Sublist fs) : LogOk P es :=
  ⟨h.sorted.sublist hs, fun e he => h.pos e (hs.subset he),
    fun e he => h.small e (hs.subset he), fun e he => h.each e (hs.subset he)⟩

theorem LogOk.imp {P Q : Hit → Prop} {es : List Recorded} (h : LogOk P es)
    (hpq : ∀ x, P x → Q x) : LogOk Q es :=
  ⟨h.sorted, h.pos, h.small, fun e he => hpq _ (h.each e he)⟩

/-- What a recording has to respect. -/
structure RecordOk (P : Hit → Prop) (n : Nat) (r : Level) (h : Hit) : Prop where
  fits : FitsTrailer n h
  later : ∀ e ∈ r.log, e.hit.tsc.toNat < h.tsc.toNat
  pos : 0 < h.tsc.toNat
  small : h.tsc.toNat < 2 ^ 64 - 1
  each : P h

theorem LogOk.concat {P : Hit → Prop} {n : Nat} {r : Level} {h : Hit} (hl : LogOk P r.log)
    (ho : RecordOk P n r h) (a : Nat) : LogOk P (r.log ++ [⟨a, h⟩]) := by
  refine ⟨?_, fun e he => ?_, fun e he => ?_, fun e he => ?_⟩
  · rw [List.pairwise_append]
    refine ⟨hl.sorted, List.pairwise_singleton _ _, fun x hx y hy => ?_⟩
    rw [List.mem_singleton.mp hy]
    exact ho.later x hx
  all_goals rcases List.mem_append.mp he with he | he
  · exact hl.pos e he
  · rw [List.mem_singleton.mp he]; exact ho.pos
  · exact hl.small e he
  · rw [List.mem_singleton.mp he]; exact ho.small
  · exact hl.each e he
  · rw [List.mem_singleton.mp he]; exact ho.each

theorem logOk_trace {P : Hit → Prop} {n : Nat} {r : Level} (hl : LogOk P r.log) {h : Hit}
    (ho : r.cs.off h.id = false → RecordOk P n r h) : LogOk P (r.trace n h).log := by
  rw [trace_log]
  cases hoff : r.cs.off h.id with
  | true => exact hl
  | false => exact hl.concat (ho hoff) _

theorem logOk_nil (P : Hit → Prop) : LogOk P [] :=
  ⟨List.Pairwise.nil, by simp, by simp, by simp⟩

theorem logOk_reachable {P : Hit → Prop} {n base size : Nat} {r : Level}
    (hr : Reachable n base size (RecordOk P n) r) : LogOk P r.log := by
  refine hr.induction (P := fun r => LogOk P r.log) (fun _ _ => logOk_nil P) ?_
  intro r r' hl hs
  cases hs with
  | trace h ho => exact logOk_trace hl ho
  | ctl counter => exact hl

/-- A sequence of messages that may be recorded one behind the other. -/
theorem reachable_traceAll_ok {P : Hit → Prop} {n base size : Nat} (hs : List Hit) :
    ∀ {r : Level}, Reachable n base size (RecordOk P n) r →
      (r.log.map Recorded.hit ++ hs).Pairwise (fun a b => a.tsc.toNat < b.tsc.toNat) →
      (∀ h ∈ hs, FitsTrailer n h ∧ 0 < h.tsc.toNat ∧ h.tsc.toNat < 2 ^ 64 - 1 ∧ P h) →
      Reachable n base size (RecordOk P n) (r.traceAll n hs) := by
  induction hs with
  | nil => exact fun hr _ _ => hr
  | cons h hs ih =>
    intro r hr hpw hall
    obtain ⟨hfit, hpos, hsmall, hP⟩ := hall h (by simp)
    have hbefore := (List.pairwise_append.mp hpw).2.2
    have hok : RecordOk P n r h :=
      ⟨hfit, fun e he => hbefore _ (List.mem_map_of_mem he) h (by simp), hpos, hsmall, hP⟩
    have hr' : Reachable n base size (RecordOk P n) (r.trace n h) := by
      obtain ⟨cs, mem, hr⟩ := hr
      exact ⟨cs, mem, hr.tail (.trace h fun _ => hok)⟩
    refine ih hr' ?_ fun x hx => hall x (by simp [hx])
    rw [trace_log]
    split
    · exact hpw.sublist (List.Sublist.append (.refl _) (List.sublist_cons_self h hs))
    · rw [List.map_append, List.append_assoc]
      exact hpw

end Level

end QuickTrace
