/-
QuickTrace.Tail.CatLevels — `qttail -c` on a file as its writer leaves it.

Every level of the file satisfies the invariant of the writer, at whatever
moment the file is looked at. Then each of the selected levels is rewound,
and the lines of a level are what that level yields on its own (`cat_levels`);
of a level that has just wrapped they are the messages of the generation that
is over.
-/
import QuickTrace.Tail.CatMany
import QuickTrace.Tail.CatTheorems
import QuickTrace.Ring.TraceFileTheorems

namespace QuickTrace

open QuickTrace.Lib RingBuf Level

/-- The levels `qttail` reads of a file, in front of `rewind`. -/
def SizeSpec.readers (spec : SizeSpec) (logStart : Nat)
    (levelEnabled : Fin NumTraceLevels → Bool) : List RingBuffer :=
  ((List.finRange NumTraceLevels).filter levelEnabled).map fun i =>
    reader i.val (spec.levelStart logStart i) (spec.levelSize i)

/-- Levels in the same memory that satisfy the invariant of the writer. -/
structure LevelsOk (P : Hit → Prop) (n : Nat) (spec : SizeSpec) (logStart : Nat) (m : Mem)
    (r : Fin NumTraceLevels → Level) : Prop where
  mem : ∀ i, (r i).mem = m
  inv : ∀ i, Inv n (spec.levelStart logStart i) (spec.levelSize i) (r i)
  log : ∀ i, LogOk P (r i).log

/-- What the lines of a level show. -/
structure LevelShown (msgs : Messages) (n : Nat) (r : Level) (ls : List Line) : Prop where
  /-- In the one alignment the level is taken to be empty. -/
  aligned : Aligned r → ls = []
  whole : ¬ Aligned r → ∃ es, List.Forall₂ (Shows msgs n) ls (es.map Recorded.hit) ∧ Whole r es
  wrapped : r.cur = [] → List.Forall₂ (Shows msgs n) ls (r.old.map Recorded.hit)

theorem mapM_eq_some {ι α β : Type} {f : α → Option β} {g : ι → α}
    {h : ι → β} (hf : ∀ i, f (g i) = some (h i)) :
    ∀ l : List ι, (l.map g).mapM f = some (l.map h)
  | [] => rfl
  | i :: l => by
      rw [List.map_cons, List.mapM_cons, hf i, mapM_eq_some hf l]
      rfl

/-- Reading a file whose levels are in order: every selected level is shown,
whichever they are. -/
theorem cat_levels {msgs : Messages} {n : Nat} (hn : n ≤ 80) {spec : SizeSpec} {logStart : Nat}
    {m : Mem} {r : Fin NumTraceLevels → Level} (h : LevelsOk (Described msgs) n spec logStart m r)
    (levelEnabled : Fin NumTraceLevels → Bool) :
    ∃ fuel t, cat m msgs (spec.readers logStart levelEnabled) fuel = some (.done t)
      ∧ ∀ i, levelEnabled i = true →
        LevelShown msgs n (r i) (t.out.lines.filter fun l => l.level = i.val) := by
  have hlevel := fun i => rewind_yields i.val hn (spec.geometry i) (h.inv i) (h.log i)
  simp only [h.mem] at hlevel
  choose c ps hrew hyields hnone hsome using hlevel
  let file : OpenFile :=
    ⟨m, msgs, fun i => readerAt i (spec.levelStart logStart i) (spec.levelSize i) m (c i),
      fun _ => rfl⟩
  have hholds : (Argument.mk file levelEnabled).Holds ps := fun i _ => hyields i
  obtain ⟨zs, -, -, -, hfilter, fuel, t, hrun, hlines⟩ := hholds.catOne
  refine ⟨fuel, t, ?_, fun i hi => ?_⟩
  · unfold cat SizeSpec.readers
    rw [mapM_eq_some hrew]
    exact congrArg some hrun
  · have hps : (t.out.lines.filter fun l => l.level = i.val).map Line.printed = ps i := by
      rw [← hfilter i hi, ← hlines, List.filter_map]
      rfl
    have hshows : ∀ es : List Recorded,
        List.Forall₂ (Printed.Shows msgs n) (ps i) (es.map Recorded.hit) →
        List.Forall₂ (Shows msgs n) (t.out.lines.filter fun l => l.level = i.val)
          (es.map Recorded.hit) := by
      intro es hes
      rw [← hps, List.forall₂_map_left_iff] at hes
      exact hes.imp fun _ _ => shows_of_printed
    refine ⟨fun ha => ?_, fun ha => ?_, fun hcur => ?_⟩
    · rw [(hnone i ha).1] at hps
      exact List.map_eq_nil_iff.mp hps
    · obtain ⟨es, hes, hwhole, -⟩ := hsome i ha
      exact ⟨es, hshows es hes, hwhole⟩
    · obtain ⟨es, hes, -, hold⟩ :=
        hsome i (not_aligned_of_empty (spec.geometry i) (h.inv i) hcur)
      rw [← hold hcur]
      exact hshows es hes

end QuickTrace
