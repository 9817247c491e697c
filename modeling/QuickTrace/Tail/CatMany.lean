/-
QuickTrace.Tail.CatMany — `qttail -c` merges.

The queue of `catMany` is in order (`InOrder`) behind its first entry, and
the first entry is not later than the second, although its file number may
be the larger one when the timestamps are equal. That is enough: the first
entry is always one of the earliest, and an entry is only inserted into the
part that is sorted. `catRound_ok` is the step lemma, `catLoop_merges` the
run, and `cat_merges` puts it together with what `catOne` prints.
-/
import QuickTrace.Tail.CatControl
import QuickTrace.Tail.CatOne
import QuickTrace.Ring.TraceFile
import Mathlib.Algebra.Order.BigOperators.Group.Finset

namespace QuickTrace

open QuickTrace.Lib RingBuffer

/-! ## The order of the queue -/

namespace QueueKey

theorem Lt.trans {a b c : QueueKey} (h : a.Lt b) (h' : b.Lt c) : a.Lt c := by
  unfold Lt at *
  split at h <;> split at h' <;> split <;> omega

theorem Lt.tsc_le {a b : QueueKey} (h : a.Lt b) : a.tsc ≤ b.tsc := by
  unfold Lt at h
  split at h <;> omega

theorem lt_of_not_lt {a b : QueueKey} (h : ¬ a.Lt b) (hne : a.fileNum ≠ b.fileNum) : b.Lt a := by
  unfold Lt at *
  split at h <;> split <;> omega

end QueueKey

namespace FileQueue

/-- The keys increase. -/
def Sorted (q : FileQueue) : Prop := q.Pairwise fun a b => a.key.Lt b.key

/-- Behind the first entry the keys increase, and it is not later than the
second. -/
def InOrder (q : FileQueue) : Prop :=
  Sorted q.tail ∧ ∀ e ∈ q.head?, ∀ x ∈ q.tail.head?, e.key.tsc ≤ x.key.tsc

theorem Sorted.inOrder {q : FileQueue} (h : Sorted q) : InOrder q := by
  cases q with
  | nil => exact ⟨h, fun e he => by cases he⟩
  | cons e rest =>
    obtain ⟨hall, hrest⟩ := List.pairwise_cons.mp h
    refine ⟨hrest, fun e' he x hx => ?_⟩
    cases he
    exact (hall x (List.mem_of_mem_head? hx)).tsc_le

/-- The first entry is one of the earliest. -/
theorem InOrder.head_le {e : Queued} {rest : FileQueue} (h : InOrder (e :: rest)) {x : Queued}
    (hx : x ∈ rest) : e.key.tsc ≤ x.key.tsc := by
  obtain ⟨hsorted, hhead⟩ := h
  cases rest with
  | nil => cases hx
  | cons y others =>
    have hy := hhead e rfl y rfl
    rcases List.mem_cons.mp hx with rfl | hx
    · exact hy
    · exact Nat.le_trans hy ((List.pairwise_cons.mp hsorted).1 x hx).tsc_le

/-- A new key is inserted. -/
theorem insert_perm {e : Queued} : ∀ {q : FileQueue},
    (∀ x ∈ q, x.key.fileNum ≠ e.key.fileNum) → (insert e q).Perm (e :: q)
  | [], _ => .refl _
  | x :: q, h => by
      rw [insert]
      split
      · exact .refl _
      · rename_i hnot
        obtain ⟨hx, hq⟩ := List.forall_mem_cons.mp h
        rw [if_pos (QueueKey.lt_of_not_lt hnot (Ne.symm hx))]
        exact ((insert_perm hq).cons x).trans (.swap e x q)

/-- It is inserted at its place. -/
theorem insert_sorted {e : Queued} : ∀ {q : FileQueue},
    (∀ x ∈ q, x.key.fileNum ≠ e.key.fileNum) → Sorted q → Sorted (insert e q)
  | [], _, _ => List.pairwise_singleton _ _
  | x :: q, h, hs => by
      obtain ⟨hall, hq⟩ := List.pairwise_cons.mp hs
      obtain ⟨hx, hne⟩ := List.forall_mem_cons.mp h
      rw [insert]
      split
      · rename_i hlt
        refine List.pairwise_cons.mpr ⟨fun y hy => ?_, hs⟩
        rcases List.mem_cons.mp hy with rfl | hy
        · exact hlt
        · exact hlt.trans (hall y hy)
      · rename_i hnot
        have hlt := QueueKey.lt_of_not_lt hnot (Ne.symm hx)
        rw [if_pos hlt]
        refine List.pairwise_cons.mpr ⟨fun y hy => ?_, insert_sorted hne hq⟩
        rcases List.mem_cons.mp ((insert_perm hne).mem_iff.mp hy) with rfl | hy
        · exact hlt
        · exact hall y hy

end FileQueue

/-! ## What the queue holds -/

/-- The file of the entry emits `z` and then `zs`, and the entry knows about
`z`. -/
structure Queued.Holds (e : Queued) (z : Nat × Printed) (zs : List (Nat × Printed)) : Prop where
  emits : Tail.Emits e.file.mem e.file.msgs e.file.tail.rbs (z :: zs)
  next : e.file.tail.next = some (z.2.tsc, z.1)
  bufNum : e.bufNum = z.1
  tsc : e.key.tsc = z.2.tsc

/-- The queue has an entry for each of the first `n` files that have messages
left; `xs` are the messages left of each file. -/
structure QueueOk (n : Nat) (xs : Nat → List Printed) (q : FileQueue) : Prop where
  holds : ∀ e ∈ q, ∃ z zs, e.Holds z zs ∧ xs e.file.index = (z :: zs).map Prod.snd
  others : ∀ i < n, (∀ e ∈ q, e.file.index ≠ i) → xs i = []
  lt : ∀ e ∈ q, e.file.index < n
  indices : (q.map fun e => e.file.index).Nodup
  nums : (q.map fun e => e.key.fileNum).Nodup

namespace QueueOk

variable {n : Nat} {xs : Nat → List Printed} {q q' : FileQueue}

theorem perm (h : QueueOk n xs q) (hp : q'.Perm q) : QueueOk n xs q' where
  holds := fun e he => h.holds e (hp.mem_iff.mp he)
  others := fun i hi hall => h.others i hi fun e he => hall e (hp.mem_iff.mpr he)
  lt := fun e he => h.lt e (hp.mem_iff.mp he)
  indices := (hp.map _).nodup_iff.mpr h.indices
  nums := (hp.map _).nodup_iff.mpr h.nums

/-- The first file has printed its last message. -/
theorem erase {e : Queued} {rest : FileQueue} (h : QueueOk n xs (e :: rest)) :
    QueueOk n (Function.update xs e.file.index []) rest := by
  have hne : ∀ x ∈ rest, x.file.index ≠ e.file.index := fun x hx heq =>
    (List.nodup_cons.mp h.indices).1 (List.mem_map.mpr ⟨x, hx, heq⟩)
  constructor
  · intro x hx
    rw [Function.update_of_ne (hne x hx)]
    exact h.holds x (List.mem_cons_of_mem e hx)
  · intro i hi hall
    by_cases heq : i = e.file.index
    · rw [heq, Function.update_self]
    · rw [Function.update_of_ne heq]
      exact h.others i hi (List.forall_mem_cons.mpr ⟨Ne.symm heq, hall⟩)
  · exact fun x hx => h.lt x (List.mem_cons_of_mem e hx)
  · exact (List.nodup_cons.mp h.indices).2
  · exact (List.nodup_cons.mp h.nums).2

/-- The first file has printed a message and has more of them. -/
theorem replace {e e' : Queued} {rest : FileQueue} (h : QueueOk n xs (e :: rest))
    {z : Nat × Printed} {zs : List (Nat × Printed)} (hz : e'.Holds z zs)
    (hindex : e'.file.index = e.file.index) (hnum : e'.key.fileNum = e.key.fileNum) :
    QueueOk n (Function.update xs e.file.index ((z :: zs).map Prod.snd)) (e' :: rest) := by
  have hne : ∀ x ∈ rest, x.file.index ≠ e.file.index := fun x hx heq =>
    (List.nodup_cons.mp h.indices).1 (List.mem_map.mpr ⟨x, hx, heq⟩)
  constructor
  · intro x hx
    rcases List.mem_cons.mp hx with rfl | hx
    · exact ⟨z, zs, hz, by rw [hindex, Function.update_self]⟩
    · rw [Function.update_of_ne (hne x hx)]
      exact h.holds x (List.mem_cons_of_mem e hx)
  · intro i hi hall
    obtain ⟨hfirst, hrest⟩ := List.forall_mem_cons.mp hall
    rw [hindex] at hfirst
    rw [Function.update_of_ne (Ne.symm hfirst)]
    exact h.others i hi (List.forall_mem_cons.mpr ⟨hfirst, hrest⟩)
  · refine List.forall_mem_cons.mpr ⟨?_, fun x hx => h.lt x (List.mem_cons_of_mem e hx)⟩
    rw [hindex]
    exact h.lt e List.mem_cons_self
  · have hnd := h.indices
    rw [List.map_cons] at hnd ⊢
    rwa [hindex]
  · have hnd := h.nums
    rw [List.map_cons] at hnd ⊢
    rwa [hnum]

end QueueOk

/-! ## One round -/

/-- A file with a choice is left alone by `nextTsc`. -/
theorem Queued.Holds.nextTsc_eq {e : Queued} {z : Nat × Printed} {zs : List (Nat × Printed)}
    (h : e.Holds z zs) : e.file.nextTsc = e.file := by
  unfold CatFile.nextTsc
  rw [Tail.nextTsc_cached h.next]

theorem Queued.Holds.chosenTsc_eq {e : Queued} {z : Nat × Printed} {zs : List (Nat × Printed)}
    (h : e.Holds z zs) : e.file.chosenTsc = e.key.tsc := by
  rw [CatFile.chosenTsc, h.next, h.tsc]
  rfl

/-- `requeue` keeps the entries, and the queue is in order. -/
theorem requeue_ok {e : Queued} {rest : FileQueue} (hs : FileQueue.Sorted rest)
    (hholds : ∀ x ∈ rest, ∃ z zs, x.Holds z zs)
    (hne : ∀ x ∈ rest, x.key.fileNum ≠ e.key.fileNum) :
    (requeue e rest).Perm (e :: rest) ∧ FileQueue.InOrder (requeue e rest) := by
  unfold requeue
  cases rest with
  | nil => exact ⟨.refl _, (show FileQueue.Sorted [e] from List.pairwise_singleton _ _).inOrder⟩
  | cons x others =>
    obtain ⟨z, zs, hx⟩ := hholds x List.mem_cons_self
    simp only [hx.nextTsc_eq, hx.chosenTsc_eq]
    split
    · exact ⟨FileQueue.insert_perm hne, (FileQueue.insert_sorted hne hs).inOrder⟩
    · rename_i hle
      refine ⟨.refl _, hs, fun e' he' x' hx' => ?_⟩
      cases he'
      cases hx'
      exact Nat.le_of_not_lt hle

/-- The first file has printed a message, has more of them and is put back. -/
theorem QueueOk.requeue {n : Nat} {xs : Nat → List Printed} {e e' : Queued} {rest : FileQueue}
    (h : QueueOk n xs (e :: rest)) (ho : FileQueue.InOrder (e :: rest)) {z : Nat × Printed}
    {zs : List (Nat × Printed)} (hz : e'.Holds z zs) (hindex : e'.file.index = e.file.index)
    (hnum : e'.key.fileNum = e.key.fileNum) :
    QueueOk n (Function.update xs e.file.index ((z :: zs).map Prod.snd)) (requeue e' rest)
      ∧ FileQueue.InOrder (requeue e' rest) := by
  have hsorted : FileQueue.Sorted rest := ho.1
  have hholds : ∀ x ∈ rest, ∃ z zs, x.Holds z zs := fun x hx =>
    (h.holds x (List.mem_cons_of_mem e hx)).imp fun _ h => h.imp fun _ h => h.1
  have hne : ∀ x ∈ rest, x.key.fileNum ≠ e'.key.fileNum := fun x hx heq =>
    (List.nodup_cons.mp h.nums).1 (List.mem_map.mpr ⟨x, hx, heq.trans hnum⟩)
  obtain ⟨hperm, horder⟩ := requeue_ok hsorted hholds hne
  exact ⟨(h.replace hz hindex hnum).perm hperm, horder⟩

/-- `tailBuffer` of a queued file prints the message it holds. -/
theorem Queued.Holds.tailBuffer_eq {e : Queued} {z : Nat × Printed} {zs : List (Nat × Printed)}
    (h : e.Holds z zs) (s : Screen) : ∃ t out l, e.file.tailBuffer s e.key.tsc e.bufNum
        = some ({ e.file with tail := t }, ⟨out, s.printed ++ [(e.file.index, l)]⟩)
      ∧ l.printed = z.2 ∧ t.next = none ∧ Tail.Emits e.file.mem e.file.msgs t.rbs zs := by
  have hemits := h.emits
  cases hemits with
  | @cons _ rb rb' k p _ hk hp hc hs =>
    obtain ⟨l, out', hbuf, hl, hprinted⟩ := Tail.tailBuffer_readable
      (t := { e.file.tail with out := s.out }) hk hp
    refine ⟨{ e.file.tail with rbs := e.file.tail.rbs.set k rb', out := out', next := none },
      out', l, ?_, hprinted, rfl, hs⟩
    unfold CatFile.tailBuffer
    rw [h.tsc, h.bufNum, hbuf, Option.map_some]
    simp only [hl, List.drop_left, List.map_cons, List.map_nil]

/-- One round prints one of the earliest messages. -/
theorem catRound_ok {n : Nat} {xs : Nat → List Printed} {e : Queued} {rest : FileQueue}
    (hq : QueueOk n xs (e :: rest)) (ho : FileQueue.InOrder (e :: rest)) (s : Screen) :
    ∃ p y q' s' l, catRound e rest s = some (q', s') ∧ xs e.file.index = p :: y
      ∧ s'.printed = s.printed ++ [(e.file.index, l)] ∧ l.printed = p
      ∧ QueueOk n (Function.update xs e.file.index y) q' ∧ FileQueue.InOrder q'
      ∧ ∀ j < n, ∀ b, (xs j).head? = some b → p.tsc ≤ b.tsc := by
  obtain ⟨z, zs, hz, hxs⟩ := hq.holds e List.mem_cons_self
  obtain ⟨t, out, l, hbuf, hprinted, hnext, hemits⟩ := hz.tailBuffer_eq s
  have hmin : ∀ j < n, ∀ b, (xs j).head? = some b → z.2.tsc ≤ b.tsc := by
    intro j hj b hb
    by_cases hex : ∀ x ∈ e :: rest, x.file.index ≠ j
    · rw [hq.others j hj hex] at hb
      cases hb
    · push Not at hex
      obtain ⟨x, hx, rfl⟩ := hex
      obtain ⟨z', zs', hz', hxs'⟩ := hq.holds x hx
      rw [hxs'] at hb
      cases hb
      rw [← hz.tsc, ← hz'.tsc]
      rcases List.mem_cons.mp hx with rfl | hx
      · exact Nat.le_refl _
      · exact ho.head_le hx
  unfold catRound
  simp only [hbuf, Option.map_some, CatFile.nextTsc, Tail.nextTsc_eq hnext]
  cases zs with
  | nil =>
    simp only [hemits.chosen_nil]
    exact ⟨z.2, [], _, _, l, rfl, hxs, rfl, hprinted, hq.erase,
      (show FileQueue.Sorted rest from ho.1).inOrder, hmin⟩
  | cons z' zs =>
    simp only [hemits.chosen_cons]
    have hholds : (Queued.mk ⟨z'.2.tsc, e.key.fileNum⟩
        { e.file with tail := { t with next := some (z'.2.tsc, z'.1) } } z'.1).Holds z' zs :=
      ⟨hemits, rfl, rfl, rfl⟩
    obtain ⟨hq', ho'⟩ := hq.requeue ho hholds rfl rfl
    exact ⟨z.2, _, _, _, l, rfl, hxs, rfl, hprinted, hq', ho', hmin⟩

/-! ## The loop -/

/-- The number of messages left. -/
def left (n : Nat) (xs : Nat → List Printed) : Nat := ∑ i ∈ Finset.range n, (xs i).length

theorem left_update_lt {n i : Nat} {xs : Nat → List Printed} {p : Printed} {y : List Printed}
    (hi : i < n) (h : xs i = p :: y) : left n (Function.update xs i y) < left n xs := by
  refine Finset.sum_lt_sum (fun j _ => ?_) ⟨i, Finset.mem_range.mpr hi, ?_⟩
  · by_cases hj : j = i
    · subst hj
      rw [Function.update_self, h, List.length_cons]
      exact Nat.le_succ _
    · rw [Function.update_of_ne hj]
  · rw [Function.update_self, h, List.length_cons]
    exact Nat.lt_succ_self _

/-- The loop comes to an end and prints a merge of what the files have
left. -/
theorem catLoop_merges {n : Nat} {xs : Nat → List Printed} {q : FileQueue}
    (hq : QueueOk n xs q) (ho : FileQueue.InOrder q) (hs : ∀ j, SortedBy Printed.tsc (xs j))
    (hout : ∀ j, n ≤ j → xs j = []) (s : Screen) :
    ∃ fuel s' ls, catLoop fuel q s = .done s' ∧ s'.printed = s.printed ++ ls
      ∧ Merges Printed.tsc xs (ls.map fun l => (l.1, l.2.printed)) := by
  induction hN : left n xs using Nat.strong_induction_on generalizing xs q s with
  | _ N ih =>
    rcases q with _ | ⟨e, rest⟩
    · refine ⟨0, s, [], rfl, (List.append_nil _).symm, .nil fun j => ?_⟩
      rcases Nat.lt_or_ge j n with hj | hj
      · exact hq.others j hj fun e he => by cases he
      · exact hout j hj
    · obtain ⟨p, y, q', s', l, hround, hxs, hprinted, rfl, hq', ho', hmin⟩ := catRound_ok hq ho s
      have hlt := hq.lt e List.mem_cons_self
      have hsorted : ∀ j, SortedBy Printed.tsc (Function.update xs e.file.index y j) := by
        intro j
        by_cases hj : j = e.file.index
        · have htail := hs e.file.index
          rw [hxs] at htail
          rw [hj, Function.update_self]
          exact (List.pairwise_cons.mp htail).2
        · rw [Function.update_of_ne hj]
          exact hs j
      have hrest : ∀ j, n ≤ j → Function.update xs e.file.index y j = [] := by
        intro j hj
        rw [Function.update_of_ne (by omega)]
        exact hout j hj
      obtain ⟨fuel, s'', ls, hrun, hls, hmerges⟩ :=
        ih _ (hN ▸ left_update_lt hlt hxs) hq' ho' hsorted hrest s' rfl
      refine ⟨fuel + 1, s'', (e.file.index, l) :: ls, ?_, ?_, ?_⟩
      · rw [catLoop, hround]
        exact hrun
      · rw [hls, hprinted, List.append_assoc]
        rfl
      · refine .cons hxs hs (fun j b hb => ?_) hmerges
        rcases Nat.lt_or_ge j n with hj | hj
        · exact hmin j hj b hb
        · rw [hout j hj] at hb
          cases hb

/-! ## The start -/

/-- The files in front of the loop: the `i`-th of them emits `zs i`. -/
def Emitting (zs : Nat → List (Nat × Printed)) (i : Nat) (files : List CatFile) : Prop :=
  ∀ k f, files[k]? = some f → f.index = i + k ∧ f.tail.next = none
    ∧ Tail.Emits f.mem f.msgs f.tail.rbs (zs (i + k))

/-- A file without messages is left out. -/
theorem QueueOk.skip {n : Nat} {xs : Nat → List Printed} {q : FileQueue} (h : QueueOk n xs q)
    (hn : xs n = []) : QueueOk (n + 1) xs q where
  holds := h.holds
  others := fun i hi hall => by
    rcases Nat.lt_succ_iff_lt_or_eq.mp hi with hi | rfl
    · exact h.others i hi hall
    · exact hn
  lt := fun e he => Nat.lt_succ_of_lt (h.lt e he)
  indices := h.indices
  nums := h.nums

/-- A file with messages is taken in under a new number. -/
theorem QueueOk.cons {n k : Nat} {xs : Nat → List Printed} {q : FileQueue} (h : QueueOk n xs q)
    (hk : ∀ x ∈ q, x.key.fileNum < k) {e : Queued} {z : Nat × Printed}
    {zs : List (Nat × Printed)} (hz : e.Holds z zs) (hxs : xs n = (z :: zs).map Prod.snd)
    (hindex : e.file.index = n) (hnum : e.key.fileNum = k) : QueueOk (n + 1) xs (e :: q) where
  holds := List.forall_mem_cons.mpr ⟨⟨z, zs, hz, hindex ▸ hxs⟩, h.holds⟩
  others := fun i hi hall => by
    obtain ⟨hne, hall⟩ := List.forall_mem_cons.mp hall
    exact h.others i (by omega) hall
  lt := List.forall_mem_cons.mpr
    ⟨by omega, fun x hx => Nat.lt_succ_of_lt (h.lt x hx)⟩
  indices := by
    refine List.nodup_cons.mpr ⟨fun hmem => ?_, h.indices⟩
    obtain ⟨x, hx, heq⟩ := List.mem_map.mp hmem
    exact absurd (heq.trans hindex) (Nat.ne_of_lt (h.lt x hx))
  nums := by
    refine List.nodup_cons.mpr ⟨fun hmem => ?_, h.nums⟩
    obtain ⟨x, hx, heq⟩ := List.mem_map.mp hmem
    exact absurd (heq.trans hnum) (Nat.ne_of_lt (hk x hx))

/-- It is inserted at its place. -/
theorem QueueOk.insert {n k : Nat} {xs : Nat → List Printed} {q : FileQueue} (h : QueueOk n xs q)
    (hs : FileQueue.Sorted q) (hk : ∀ x ∈ q, x.key.fileNum < k) {e : Queued} {z : Nat × Printed}
    {zs : List (Nat × Printed)} (hz : e.Holds z zs) (hxs : xs n = (z :: zs).map Prod.snd)
    (hindex : e.file.index = n) (hnum : e.key.fileNum = k) :
    QueueOk (n + 1) xs (FileQueue.insert e q) ∧ FileQueue.Sorted (FileQueue.insert e q)
      ∧ ∀ x ∈ FileQueue.insert e q, x.key.fileNum < k + 1 := by
  have hne : ∀ x ∈ q, x.key.fileNum ≠ e.key.fileNum := fun x hx =>
    hnum ▸ Nat.ne_of_lt (hk x hx)
  have hperm := FileQueue.insert_perm hne
  refine ⟨(h.cons hk hz hxs hindex hnum).perm hperm, FileQueue.insert_sorted hne hs,
    fun x hx => ?_⟩
  rcases List.mem_cons.mp (hperm.mem_iff.mp hx) with rfl | hx
  · rw [hnum]
    exact Nat.lt_succ_self k
  · exact Nat.lt_succ_of_lt (hk x hx)

/-- `populateQueue` takes in every file that has messages. -/
theorem populateQueue_ok {zs : Nat → List (Nat × Printed)} : ∀ (files : List CatFile) (i k : Nat)
    (q : FileQueue), Emitting zs i files → QueueOk i (fun j => (zs j).map Prod.snd) q →
    FileQueue.Sorted q → (∀ e ∈ q, e.key.fileNum < k) →
    QueueOk (i + files.length) (fun j => (zs j).map Prod.snd) (populateQueue files k q)
      ∧ FileQueue.Sorted (populateQueue files k q)
  | [], i, k, q, _, hq, hs, _ => ⟨hq, hs⟩
  | f :: files, i, k, q, hf, hq, hs, hk => by
      obtain ⟨hindex, hnext, hemits⟩ := hf 0 f rfl
      rw [Nat.add_zero] at hindex hemits
      have hfiles : Emitting zs (i + 1) files := fun j g hg => by
        have := hf (j + 1) g hg
        rwa [← Nat.add_assoc, Nat.add_right_comm] at this
      rw [List.length_cons, ← Nat.add_assoc, Nat.add_right_comm]
      unfold populateQueue
      simp only [CatFile.nextTsc, Tail.nextTsc_eq hnext]
      rcases hz : zs i with _ | ⟨z, zs'⟩
      · rw [hz] at hemits
        simp only [hemits.chosen_nil]
        exact populateQueue_ok files (i + 1) k q hfiles (hq.skip (by simp only [hz]; rfl)) hs hk
      · rw [hz] at hemits
        simp only [hemits.chosen_cons]
        have hholds : (Queued.mk ⟨z.2.tsc, k⟩
            { f with tail := { f.tail with next := some (z.2.tsc, z.1) } } z.1).Holds z zs' :=
          ⟨hemits, rfl, rfl, rfl⟩
        obtain ⟨hq', hs', hk'⟩ := hq.insert hs hk hholds (by simp only [hz]) hindex rfl
        exact populateQueue_ok files (i + 1) (k + 1) _ hfiles hq' hs' hk'

/-- `catMany` comes to an end and prints a merge of what the files emit. -/
theorem catMany_merges {zs : Nat → List (Nat × Printed)} {files : List CatFile}
    (hf : Emitting zs 0 files) (hs : ∀ j, SortedBy Printed.tsc ((zs j).map Prod.snd))
    (hout : ∀ j, files.length ≤ j → zs j = []) :
    ∃ fuel s, catMany fuel files = .done s
      ∧ Merges Printed.tsc (fun j => (zs j).map Prod.snd)
          (s.printed.map fun l => (l.1, l.2.printed)) := by
  have hempty : QueueOk 0 (fun j => (zs j).map Prod.snd) [] :=
    ⟨(fun e he => by cases he), (fun i hi => by omega), (fun e he => by cases he),
      List.nodup_nil, List.nodup_nil⟩
  obtain ⟨hq, hsorted⟩ := populateQueue_ok files 0 0 [] hf hempty List.Pairwise.nil
    fun e he => by cases he
  obtain ⟨fuel, s, ls, hrun, hls, hmerges⟩ := catLoop_merges hq hsorted.inOrder hs
    (fun j hj => by simp only [hout j (by omega)]; rfl) ⟨Output.empty, []⟩
  rw [List.nil_append] at hls
  exact ⟨fuel, s, hrun, hls ▸ hmerges⟩

/-! ## Levels and files -/

/-- Each enabled level holds messages, one behind the other, up to its
end. -/
def Argument.Holds (a : Argument) (ys : Fin NumTraceLevels → List Printed) : Prop :=
  ∀ i, a.levelEnabled i = true → (a.file.readers i).Yields a.file.mem a.file.msgs (ys i)

namespace Argument

variable {a : Argument} {ys : Fin NumTraceLevels → List Printed}

/-- The enabled levels. -/
def levels (a : Argument) : List (Fin NumTraceLevels) :=
  (List.finRange NumTraceLevels).filter a.levelEnabled

theorem mem_levels {i : Fin NumTraceLevels} : i ∈ a.levels ↔ a.levelEnabled i = true := by
  simp [levels, List.mem_filter]

theorem levels_nodup (a : Argument) : a.levels.Nodup := (List.nodup_finRange _).filter _

theorem Holds.yieldsAll (h : a.Holds ys) :
    Tail.YieldsAll a.file.mem a.file.msgs (a.file.tail a.levelEnabled).rbs (a.levels.map ys) :=
  List.forall₂_map_left_iff.mpr (List.forall₂_map_right_iff.mpr
    (List.forall₂_same.mpr fun i hi => h i (mem_levels.mp hi)))

/-- A merge of the enabled levels has the messages of each level under its
number. -/
theorem Holds.level_filter (h : a.Holds ys) {zs : List (Nat × Printed)}
    (hm : Merges Printed.tsc (Tail.sequence (a.levels.map ys)) zs) :
    (∀ p ∈ zs.map Prod.snd, ∃ i, a.levelEnabled i = true ∧ p.level = i.val)
      ∧ ∀ i, a.levelEnabled i = true →
        (zs.map Prod.snd).filter (fun p => p.level = i.val) = ys i := by
  have hz : ∀ z ∈ zs, ∃ i, a.levels[z.1]? = some i ∧ z.2.level = i.val := by
    intro z hz
    have hmem := hm.mem hz
    rcases hk : a.levels[z.1]? with _ | i
    · rw [Tail.sequence, List.getD_eq_getElem?_getD, List.getElem?_map, hk] at hmem
      cases hmem
    · rw [Tail.sequence_eq (by rw [List.getElem?_map, hk, Option.map_some])] at hmem
      refine ⟨i, rfl, ?_⟩
      rw [(h i (mem_levels.mp (List.mem_of_getElem? hk))).level_eq _ hmem, a.file.level_eq]
  constructor
  · intro p hp
    obtain ⟨z, hmem, rfl⟩ := List.mem_map.mp hp
    obtain ⟨i, hk, hlevel⟩ := hz z hmem
    exact ⟨i, mem_levels.mp (List.mem_of_getElem? hk), hlevel⟩
  · intro i hi
    obtain ⟨k, hk⟩ := List.getElem?_of_mem (mem_levels.mpr hi)
    have hfilter : zs.filter (fun z => z.2.level = i.val) = zs.filter fun z => z.1 = k := by
      refine List.filter_congr fun z hmem => ?_
      obtain ⟨j, hj, hlevel⟩ := hz z hmem
      rw [hlevel, decide_eq_decide]
      constructor
      · intro heq
        obtain rfl := Fin.ext heq
        obtain ⟨h1, h1'⟩ := List.getElem?_eq_some_iff.mp hj
        obtain ⟨h2, h2'⟩ := List.getElem?_eq_some_iff.mp hk
        exact (a.levels_nodup.getElem_inj_iff).mp (h1'.trans h2'.symm)
      · intro heq
        rw [heq, hk] at hj
        cases hj
        rfl
    have hproj := hm.each k
    rw [Tail.sequence_eq (by rw [List.getElem?_map, hk, Option.map_some])] at hproj
    rw [List.filter_map, ← hproj, proj, ← hfilter]
    rfl

/-- What `catOne` prints of a file. -/
theorem Holds.catOne (h : a.Holds ys) : ∃ zs, Tail.Emits a.file.mem a.file.msgs
      (a.file.tail a.levelEnabled).rbs zs
    ∧ SortedBy Printed.tsc (zs.map Prod.snd)
    ∧ (∀ p ∈ zs.map Prod.snd, ∃ i, a.levelEnabled i = true ∧ p.level = i.val)
    ∧ (∀ i, a.levelEnabled i = true →
        (zs.map Prod.snd).filter (fun p => p.level = i.val) = ys i)
    ∧ ∃ fuel t, a.catOne fuel = .done t ∧ t.out.lines.map Line.printed = zs.map Prod.snd := by
  obtain ⟨zs, hemits, hmerges⟩ := Tail.exists_emits h.yieldsAll
  obtain ⟨hlevels, hfilter⟩ := h.level_filter hmerges
  obtain ⟨t, ls, hrun, hls, hmap⟩ := Tail.catOne_emits hemits (a.file.tail a.levelEnabled) rfl rfl
  refine ⟨zs, hemits, hmerges.sorted, hlevels, hfilter, _, t, hrun, ?_⟩
  rw [hls, ← hmap]
  rfl

/-- The file with one level enabled. -/
def only (a : Argument) (i : Fin NumTraceLevels) : Argument :=
  ⟨a.file, fun j => decide (j = i)⟩

/-- A level on its own. -/
theorem Holds.only (h : a.Holds ys) {i : Fin NumTraceLevels} (hi : a.levelEnabled i = true) :
    ∃ fuel t, (a.only i).catOne fuel = .done t ∧ t.out.lines.map Line.printed = ys i := by
  have hone : (a.only i).Holds ys := fun j hj => by
    obtain rfl : j = i := of_decide_eq_true hj
    exact h j hi
  obtain ⟨zs, -, -, hlevels, hfilter, fuel, t, hrun, hlines⟩ := hone.catOne
  refine ⟨fuel, t, hrun, hlines.trans ?_⟩
  rw [← hfilter i (decide_eq_true rfl), List.filter_eq_self.mpr]
  intro p hp
  obtain ⟨j, hj, hlevel⟩ := hlevels p hp
  obtain rfl : j = i := of_decide_eq_true hj
  exact decide_eq_true hlevel

end Argument

/-- `catOne` prints the messages of the enabled levels by time, and those of
each level as `catOne` prints them when only that level is enabled. -/
def MergesLevels (a : Argument) (ys : Fin NumTraceLevels → List Printed) : Prop :=
  ∃ fuel t, a.catOne fuel = .done t ∧ SortedBy Line.tsc t.out.lines
    ∧ (∀ l ∈ t.out.lines, ∃ i, a.levelEnabled i = true ∧ l.level = i.val)
    ∧ ∀ i, a.levelEnabled i = true →
      (t.out.lines.filter fun l => l.level = i.val).map Line.printed = ys i
        ∧ ∃ fuel t', (a.only i).catOne fuel = .done t' ∧ t'.out.lines.map Line.printed = ys i

/-- `catMany` ends, having printed the messages of all files by time, and
those of each file as `catOne` prints them for that file. -/
def MergesFiles (args : List Argument) : Prop :=
  ∃ fuel s, catMany fuel (catFiles args) = .done s ∧ SortedBy Line.tsc (s.printed.map Prod.snd)
    ∧ (∀ l ∈ s.printed, l.1 < args.length)
    ∧ ∀ k a, args[k]? = some a → ∃ fuel t, a.catOne fuel = .done t
        ∧ (proj k s.printed).map Line.printed = t.out.lines.map Line.printed

theorem mergesLevels_of_holds {a : Argument} {ys : Fin NumTraceLevels → List Printed}
    (h : a.Holds ys) : MergesLevels a ys := by
  obtain ⟨zs, -, hsorted, hlevels, hfilter, fuel, t, hrun, hlines⟩ := h.catOne
  rw [← hlines] at hsorted hlevels hfilter
  have hsorted : SortedBy (Printed.tsc ∘ Line.printed) t.out.lines := sortedBy_map.mp hsorted
  refine ⟨fuel, t, hrun, hsorted, fun l hl => ?_, fun i hi => ⟨?_, h.only hi⟩⟩
  · exact hlevels l.printed (List.mem_map_of_mem hl)
  · rw [← hfilter i hi, List.filter_map]
    rfl

theorem mergesFiles_of_holds {args : List Argument}
    {ys : Argument → Fin NumTraceLevels → List Printed} (h : ∀ a ∈ args, a.Holds (ys a)) :
    MergesFiles args := by
  have hex : ∀ k : Nat, ∃ zs : List (Nat × Printed), (args[k]? = none → zs = [])
      ∧ SortedBy Printed.tsc (zs.map Prod.snd)
      ∧ ∀ a : Argument, args[k]? = some a →
        Tail.Emits a.file.mem a.file.msgs (a.file.tail a.levelEnabled).rbs zs
        ∧ ∃ fuel t, a.catOne fuel = .done t ∧ t.out.lines.map Line.printed = zs.map Prod.snd := by
    intro k
    rcases hk : args[k]? with _ | a
    · exact ⟨[], fun _ => rfl, List.Pairwise.nil, fun a ha => by cases ha⟩
    · obtain ⟨zs, hemits, hsorted, -, -, hrun⟩ := (h a (List.mem_of_getElem? hk)).catOne
      refine ⟨zs, (fun hnone => by cases hnone), hsorted, fun a' ha' => ?_⟩
      cases ha'
      exact ⟨hemits, hrun⟩
  choose zs hnone hsorted hsome using hex
  have hfiles : Emitting zs 0 (catFiles args) := by
    intro k f hf
    rw [catFiles, List.getElem?_mapIdx] at hf
    obtain ⟨a, ha, rfl⟩ := Option.map_eq_some_iff.mp hf
    rw [Nat.zero_add]
    exact ⟨rfl, rfl, (hsome k a ha).1⟩
  obtain ⟨fuel, s, hrun, hmerges⟩ := catMany_merges hfiles hsorted fun j hj => by
    rw [catFiles, List.length_mapIdx] at hj
    exact hnone j (List.getElem?_eq_none hj)
  have hlines := hmerges.sorted
  rw [List.map_map, sortedBy_map] at hlines
  refine ⟨fuel, s, hrun, ?_, fun l hl => ?_, fun k a ha => ?_⟩
  · exact sortedBy_map.mpr hlines
  · by_contra hge
    have hmem := hmerges.mem (List.mem_map_of_mem (f := fun l => (l.1, l.2.printed)) hl)
    simp only [hnone l.1 (List.getElem?_eq_none (Nat.le_of_not_lt hge))] at hmem
    cases hmem
  · obtain ⟨-, fuel', t, hrun', hlines⟩ := hsome k a ha
    refine ⟨fuel', t, hrun', ?_⟩
    rw [hlines, ← proj_map]
    exact hmerges.each k

/-- Reading one file merges its levels, and reading several merges the files,
also when timestamps are equal. -/
theorem cat_merges (args : List Argument) (ys : Argument → Fin NumTraceLevels → List Printed)
    (h : ∀ a ∈ args, a.Holds (ys a)) :
    (∀ a ∈ args, MergesLevels a (ys a)) ∧ MergesFiles args :=
  ⟨fun a ha => mergesLevels_of_holds (h a ha), mergesFiles_of_holds h⟩

/-- The record of a message with a string of one character. -/
def charRecord (tsc : Nat) : List UInt8 := leBytes 8 tsc ++ leBytes 4 1 ++ [1, 97, 14]

/-- A file with two levels of a KiB that have messages. -/
def twoLevels (first second : List Nat) : OpenFile where
  mem := Mem.applyAll (fun _ => 0)
    [⟨4, first.flatMap charRecord⟩, ⟨1028, second.flatMap charRecord⟩]
  msgs := textTable
  readers := fun i => RingBuffer.create i (1024 * i) (1024 * (i + 1))
  level_eq := fun _ => rfl

/-- Two files that have messages at the same time, the first of them also on
both of its levels. -/
def sameTimes : List Argument :=
  [⟨twoLevels [5, 7] [5], fun _ => true⟩, ⟨twoLevels [5] [6], fun _ => true⟩]

/-- What the levels of a file hold. -/
def Argument.held (a : Argument) (i : Fin NumTraceLevels) : List Printed :=
  (RingBuffer.readLevel a.file.mem a.file.msgs 3 (a.file.readers i)).getD []

theorem Argument.holds_held {a : Argument} (h : ∀ i,
    (RingBuffer.readLevel a.file.mem a.file.msgs 3 (a.file.readers i)).isSome = true) :
    a.Holds a.held := by
  intro i _
  obtain ⟨ps, hps⟩ := Option.isSome_iff_exists.mp (h i)
  rw [Argument.held, hps, Option.getD_some]
  exact RingBuffer.yields_of_readLevel hps

theorem cat_merges_same_times :
    (∀ a ∈ sameTimes, MergesLevels a a.held) ∧ MergesFiles sameTimes := by
  refine cat_merges sameTimes Argument.held fun a ha => Argument.holds_held ?_
  rcases List.mem_cons.mp ha with rfl | ha
  · decide +kernel
  · rw [List.mem_singleton.mp ha]
    decide +kernel

example : (match catMany 9 (catFiles sameTimes) with
    | .done s => s.printed.map fun l => (l.1, l.2.level, l.2.tsc)
    | _ => []) = [(0, 0, 5), (0, 1, 5), (1, 0, 5), (1, 1, 6), (0, 0, 7)] := by
  decide +kernel

end QuickTrace
