/-
QuickTrace.Ring.BlockTimer — the time of self-profiled blocks.

`BlockTimerSelf` and `BlockTimerSelfMsg` push a zero to `threadSubFuncStack`
when a block starts. When it ends its counter gets its duration without what
has come to the top of the stack in the meantime, and the block below gets
the whole duration. A run of a thread is a tree of blocks with the readings of
the clock; a block without a trace file does nothing, and the blocks inside it
count for the one outside.

`run_spec` says what a run does to the stack and the counters, by induction on
the tree. That the time inside a block is never more than its own comes from
the clock (`covered_of_increasing`).
-/
import QuickTrace.Ring.RingBuf
import Mathlib.Algebra.BigOperators.ModEq

namespace QuickTrace.BlockTimer

variable {ι : Type}

/-! ## The timers -/

/-- The two classes. -/
inductive Kind where
  | self
  | selfMsg
  deriving DecidableEq

/-- A thread, with the counters of the trace files; the top of
`threadSubFuncStack` comes first. -/
structure Thread (ι : Type) where
  msgCounters : ι → MsgCounters
  threadSubFuncStack : List UInt64

namespace Thread

/-- Both constructors. -/
def construct (t : Thread ι) (qtFile : Option ι) : Thread ι :=
  match qtFile with
  | none => t
  | some _ => { t with threadSubFuncStack := 0 :: t.threadSubFuncStack }

/-- What both destructors do with a trace file; `update` is for the counter.
`none` is `back` of an empty vector. -/
def leave [DecidableEq ι] (t : Thread ι) (file : ι) (msgId : UInt32) (delta : UInt64)
    (update : UInt64 → MsgCounter → MsgCounter) : Option (Thread ι) :=
  match t.threadSubFuncStack with
  | back :: top :: rest =>
    some
      { msgCounters := Function.update t.msgCounters file
          ((t.msgCounters file).modify msgId (update back))
        threadSubFuncStack := (top + delta) :: rest }
  | _ => none

/-- `~BlockTimerSelf`. -/
def destructSelf [DecidableEq ι] (t : Thread ι) (qtFile : Option ι) (msgId : UInt32)
    (tsc now : UInt64) : Option (Thread ι) :=
  match qtFile with
  | none => some t
  | some file =>
    let delta := now - tsc
    t.leave file msgId delta fun back mc =>
      { lastTsc := updateLastTsc mc.lastTsc now
        tscCount := mc.tscCount + delta
        count := mc.count + 1
        tscSelfCount := mc.tscSelfCount + delta - back }

/-- `~BlockTimerSelfMsg`. -/
def destructSelfMsg [DecidableEq ι] (t : Thread ι) (qtFile : Option ι) (msgId : UInt32)
    (tsc now : UInt64) : Option (Thread ι) :=
  match qtFile with
  | none => some t
  | some file =>
    let delta := now - tsc
    t.leave file msgId delta fun back mc =>
      { mc with
        tscCount := mc.tscCount + delta
        tscSelfCount := mc.tscSelfCount + delta - back }

/-- The destructor of one of them. -/
def destruct [DecidableEq ι] (t : Thread ι) : Kind → Option ι → UInt32 → UInt64 → UInt64 →
    Option (Thread ι)
  | .self => t.destructSelf
  | .selfMsg => t.destructSelfMsg

end Thread

/-! ## Runs -/

/-- Blocks one after the other. The readings of the clock are those of the
constructor, or of the message, and of the destructor. -/
inductive Blocks (ι : Type) where
  | nil
  | block (kind : Kind) (qtFile : Option ι) (msgId : UInt32) (start stop : Nat)
    (inner rest : Blocks ι)

namespace Blocks

/-- The blocks are run. -/
def run [DecidableEq ι] : Blocks ι → Thread ι → Option (Thread ι)
  | nil, t => some t
  | block kind qtFile msgId start stop inner rest, t => do
    let t ← inner.run (t.construct qtFile)
    let t ← t.destruct kind qtFile msgId (UInt64.ofNat start) (UInt64.ofNat stop)
    rest.run t

/-- The readings of the clock in their order. Without a trace file there is
one in the constructor of `BlockTimerSelf` only. -/
def readings : Blocks ι → List Nat
  | nil => []
  | block .self none _ start _ inner rest => start :: (inner.readings ++ rest.readings)
  | block .selfMsg none _ _ _ inner rest => inner.readings ++ rest.readings
  | block _ (some _) _ start stop inner rest =>
    start :: (inner.readings ++ stop :: rest.readings)

/-- The durations of the outermost blocks that have a trace file. -/
def outer : Blocks ι → Nat
  | nil => 0
  | block _ none _ _ _ inner rest => inner.outer + rest.outer
  | block _ (some _) _ start stop _ rest => stop - start + rest.outer

/-- The blocks nearest inside a block take no longer than the block. -/
def Covered : Blocks ι → Prop
  | nil => True
  | block _ none _ _ _ inner rest => inner.Covered ∧ rest.Covered
  | block _ (some _) _ start stop inner rest =>
    start + inner.outer ≤ stop ∧ inner.Covered ∧ rest.Covered

/-- The times without the blocks nearest inside, of the blocks whose counter
is the one with the index `i` in `file`. -/
def selfTime [DecidableEq ι] (cs : ι → MsgCounters) (file : ι) (i : Nat) : Blocks ι → Nat
  | nil => 0
  | block _ none _ _ _ inner rest => inner.selfTime cs file i + rest.selfTime cs file i
  | block _ (some f) msgId start stop inner rest =>
    (if f = file ∧ (cs file).index msgId = i then stop - start - inner.outer else 0)
      + inner.selfTime cs file i + rest.selfTime cs file i

/-- The trace files that are used. -/
def files : Blocks ι → List ι
  | nil => []
  | block _ none _ _ _ inner rest => inner.files ++ rest.files
  | block _ (some f) _ _ _ inner rest => f :: (inner.files ++ rest.files)

/-! ## The clock -/

/-- Between a bound in front of all readings and one behind the blocks there
is room for all of them. -/
theorem outer_le (f : Blocks ι) : ∀ (lo hi : Nat) (tail : List Nat),
    (∀ r ∈ f.readings ++ hi :: tail, lo ≤ r) → (f.readings ++ hi :: tail).Pairwise (· < ·) →
    lo + f.outer ≤ hi ∧ f.Covered := by
  induction f with
  | nil =>
    intro lo hi tail hlo _
    exact ⟨hlo hi (by simp [readings]), trivial⟩
  | block kind qtFile msgId start stop inner rest ihInner ihRest =>
    intro lo hi tail hlo h
    cases qtFile with
    | some f =>
      simp only [readings, List.cons_append, List.append_assoc] at hlo h
      obtain ⟨hstart, h⟩ := List.pairwise_cons.mp h
      obtain ⟨hin, hcovered⟩ := ihInner start stop (rest.readings ++ hi :: tail)
        (fun r hr => Nat.le_of_lt (hstart r hr)) h
      obtain ⟨hstop, hrest⟩ := List.pairwise_cons.mp (List.pairwise_append.mp h).2.1
      obtain ⟨hout, hcovered'⟩ := ihRest stop hi tail
        (fun r hr => Nat.le_of_lt (hstop r hr)) hrest
      have hle := hlo start List.mem_cons_self
      simp only [outer, Covered]
      exact ⟨by omega, by omega, hcovered, hcovered'⟩
    | none =>
      -- the first reading behind the inner blocks
      obtain ⟨y, ys, hy⟩ : ∃ y ys, rest.readings ++ hi :: tail = y :: ys :=
        List.exists_cons_of_ne_nil (by simp)
      have hboth : (∀ r ∈ inner.readings ++ y :: ys, lo ≤ r)
          ∧ (inner.readings ++ y :: ys).Pairwise (· < ·) := by
        rw [← hy, ← List.append_assoc]
        cases kind with
        | self =>
          simp only [readings, List.cons_append] at hlo h
          exact ⟨fun r hr => hlo r (List.mem_cons_of_mem _ hr), (List.pairwise_cons.mp h).2⟩
        | selfMsg => exact ⟨hlo, h⟩
      obtain ⟨hin, hcovered⟩ := ihInner lo y ys hboth.1 hboth.2
      have hrest := (List.pairwise_append.mp hboth.2).2.1
      have hfirst : ∀ r ∈ rest.readings ++ hi :: tail, y ≤ r := by
        rw [hy]
        intro r hr
        rcases List.mem_cons.mp hr with rfl | hr
        · exact Nat.le_refl _
        · exact Nat.le_of_lt ((List.pairwise_cons.mp hrest).1 r hr)
      obtain ⟨hout, hcovered'⟩ := ihRest y hi tail hfirst (hy ▸ hrest)
      simp only [outer, Covered]
      exact ⟨by omega, hcovered, hcovered'⟩

/-- No self time is negative. -/
theorem covered_of_increasing (f : Blocks ι) (h : f.readings.Pairwise (· < ·)) : f.Covered := by
  -- a reading that comes behind all others
  obtain ⟨hi, hhi⟩ : ∃ hi, ∀ r ∈ f.readings, r < hi := by
    induction f.readings with
    | nil => exact ⟨0, by simp⟩
    | cons r rs ih =>
      obtain ⟨hi, hhi⟩ := ih
      refine ⟨max (r + 1) hi, fun x hx => ?_⟩
      rcases List.mem_cons.mp hx with rfl | hx
      · omega
      · have := hhi x hx
        omega
  have hlast : (f.readings ++ [hi]).Pairwise (· < ·) := by
    refine List.pairwise_append.mpr ⟨h, List.pairwise_singleton _ _, fun a ha b hb => ?_⟩
    rw [List.mem_singleton.mp hb]
    exact hhi a ha
  exact (outer_le f 0 _ [] (fun _ _ => Nat.zero_le _) hlast).2

/-! ## The stack and the counters -/

theorem ofNat_add (a b : Nat) : UInt64.ofNat (a + b) = UInt64.ofNat a + UInt64.ofNat b := by
  simp

/-- A duration is exact. -/
theorem ofNat_duration {start stop : Nat} (h : start ≤ stop) :
    UInt64.ofNat stop - UInt64.ofNat start = UInt64.ofNat (stop - start) := by
  have hsplit : UInt64.ofNat stop = UInt64.ofNat (stop - start) + UInt64.ofNat start := by
    rw [← ofNat_add, Nat.sub_add_cancel h]
  rw [hsplit]
  exact UInt64.add_sub_cancel _ _

section

variable [DecidableEq ι]

/-- What blocks do to a thread: the stack is as deep as before, its top has
grown by the outermost durations, and each counter by its self times. -/
structure Charges (f : Blocks ι) (t t' : Thread ι) : Prop where
  stack : ∀ top rest, t.threadSubFuncStack = top :: rest →
    t'.threadSubFuncStack = (top + UInt64.ofNat f.outer) :: rest
  numMsgCounters : ∀ file, (t'.msgCounters file).numMsgCounters
    = (t.msgCounters file).numMsgCounters
  counters : ∀ file i, ((t'.msgCounters file).counter i).tscSelfCount
    = ((t.msgCounters file).counter i).tscSelfCount
      + UInt64.ofNat (f.selfTime t.msgCounters file i)

/-- The index of an id depends on the number of the counters only. -/
theorem selfTime_congr {cs cs' : ι → MsgCounters}
    (h : ∀ file, (cs' file).numMsgCounters = (cs file).numMsgCounters) (file : ι) (i : Nat)
    (f : Blocks ι) : f.selfTime cs' file i = f.selfTime cs file i := by
  have hindex : ∀ msgId, (cs' file).index msgId = (cs file).index msgId := fun msgId => by
    unfold MsgCounters.index
    rw [h file]
  induction f with
  | nil => rfl
  | block kind qtFile msgId start stop inner rest ihInner ihRest =>
    cases qtFile with
    | none => simp only [selfTime, ihInner, ihRest]
    | some f => simp only [selfTime, ihInner, ihRest, hindex]

end

end Blocks

/-- What both destructors come to: the durations of the block and of the ones
inside it go to the stack and to its counter. -/
theorem Thread.destruct_spec [DecidableEq ι] {t : Thread ι} {back top : UInt64}
    {rest : List UInt64} (h : t.threadSubFuncStack = back :: top :: rest) (kind : Kind) (f : ι)
    (msgId : UInt32) (tsc now : UInt64) :
    ∃ t', t.destruct kind (some f) msgId tsc now = some t'
      ∧ t'.threadSubFuncStack = (top + (now - tsc)) :: rest
      ∧ (∀ file, (t'.msgCounters file).numMsgCounters = (t.msgCounters file).numMsgCounters)
      ∧ ∀ file i, ((t'.msgCounters file).counter i).tscSelfCount
        = if f = file ∧ (t.msgCounters file).index msgId = i then
            ((t.msgCounters file).counter i).tscSelfCount + (now - tsc) - back
          else ((t.msgCounters file).counter i).tscSelfCount := by
  -- both destructors replace one counter
  have hleave : ∀ update : UInt64 → MsgCounter → MsgCounter,
      (∀ mc, (update back mc).tscSelfCount = mc.tscSelfCount + (now - tsc) - back) →
      ∃ t', t.leave f msgId (now - tsc) update = some t'
        ∧ t'.threadSubFuncStack = (top + (now - tsc)) :: rest
        ∧ (∀ file, (t'.msgCounters file).numMsgCounters = (t.msgCounters file).numMsgCounters)
        ∧ ∀ file i, ((t'.msgCounters file).counter i).tscSelfCount
          = if f = file ∧ (t.msgCounters file).index msgId = i then
              ((t.msgCounters file).counter i).tscSelfCount + (now - tsc) - back
            else ((t.msgCounters file).counter i).tscSelfCount := by
    intro update hupdate
    unfold Thread.leave
    rw [h]
    refine ⟨_, rfl, rfl, fun file => ?_, fun file i => ?_⟩
    · by_cases hf : file = f
      · subst hf
        simp [MsgCounters.modify]
      · simp [Function.update_of_ne hf]
    · by_cases hf : file = f
      · subst hf
        by_cases hi : i = (t.msgCounters file).index msgId
        · subst hi
          simp [MsgCounters.modify, hupdate]
        · simp [MsgCounters.modify, hi, Ne.symm hi]
      · simp [Function.update_of_ne hf, Ne.symm hf]
  cases kind with
  | self => exact hleave _ fun _ => rfl
  | selfMsg => exact hleave _ fun _ => rfl

namespace Blocks

variable [DecidableEq ι]

/-- The run lemma. -/
theorem run_spec (f : Blocks ι) : ∀ {t : Thread ι}, t.threadSubFuncStack ≠ [] → f.Covered →
    ∃ t', f.run t = some t' ∧ f.Charges t t' := by
  induction f with
  | nil =>
    intro t _ _
    exact ⟨t, rfl, fun top rest h => by simpa [outer] using h, fun _ => rfl,
      fun file i => by simp [selfTime]⟩
  | block kind qtFile msgId start stop inner rest ihInner ihRest =>
    intro t hstack hcovered
    obtain ⟨top, below, htop⟩ := List.exists_cons_of_ne_nil hstack
    cases qtFile with
    | none =>
      obtain ⟨t₁, hrun₁, h₁⟩ := ihInner hstack hcovered.1
      have hstack₁ := h₁.stack top below htop
      obtain ⟨t₂, hrun₂, h₂⟩ := ihRest (t := t₁) (by simp [hstack₁]) hcovered.2
      refine ⟨t₂, ?_, ⟨fun top' rest' h' => ?_, fun file => ?_, fun file i => ?_⟩⟩
      · simp only [run, Thread.construct, hrun₁, Option.bind_eq_bind, Option.bind_some]
        cases kind with
        | self => exact hrun₂
        | selfMsg => exact hrun₂
      · rw [h₂.stack _ _ (h₁.stack top' rest' h'), outer, ofNat_add, UInt64.add_assoc]
      · rw [h₂.numMsgCounters, h₁.numMsgCounters]
      · rw [h₂.counters, h₁.counters, selfTime_congr h₁.numMsgCounters, selfTime, ofNat_add,
          UInt64.add_assoc]
    | some f =>
      obtain ⟨hle, hin, hrest⟩ := hcovered
      obtain ⟨t₁, hrun₁, h₁⟩ := ihInner (t := t.construct (some f)) (by simp [Thread.construct]) hin
      have hstack₁ := h₁.stack 0 (top :: below) (by rw [← htop]; rfl)
      obtain ⟨t₂, hrun₂, hstack₂, hnum₂, hcounters₂⟩ := Thread.destruct_spec hstack₁ kind f msgId
        (UInt64.ofNat start) (UInt64.ofNat stop)
      obtain ⟨t₃, hrun₃, h₃⟩ := ihRest (t := t₂) (by simp [hstack₂]) hrest
      have hduration := ofNat_duration (show start ≤ stop by omega)
      have hnum : ∀ file, (t₂.msgCounters file).numMsgCounters
          = (t.msgCounters file).numMsgCounters := fun file => by
        rw [hnum₂, h₁.numMsgCounters]
        rfl
      refine ⟨t₃, ?_, ⟨fun top' rest' h' => ?_, fun file => ?_, fun file i => ?_⟩⟩
      · simp only [run, hrun₁, hrun₂, hrun₃, Option.bind_eq_bind, Option.bind_some]
      · cases htop.symm.trans h'
        rw [h₃.stack _ _ hstack₂, hduration, outer, ofNat_add, UInt64.add_assoc]
      · rw [h₃.numMsgCounters, hnum]
      · have hself : UInt64.ofNat (stop - start) - UInt64.ofNat inner.outer
            = UInt64.ofNat (stop - start - inner.outer) := ofNat_duration (by omega)
        have hcounter₁ := h₁.counters file i
        have hindex : (t₁.msgCounters file).index msgId = (t.msgCounters file).index msgId := by
          unfold MsgCounters.index
          rw [h₁.numMsgCounters]
          rfl
        rw [h₃.counters, selfTime_congr hnum, hcounters₂, hindex, hcounter₁, hduration, selfTime,
          ofNat_add, ofNat_add]
        split
        · rw [← hself]
          have hcs : (t.construct (some f)).msgCounters = t.msgCounters := rfl
          rw [hcs]
          grind
        · have hcs : (t.construct (some f)).msgCounters = t.msgCounters := rfl
          rw [hcs]
          grind

/-- All self times together are the outermost durations. -/
theorem sum_selfTime (cs : ι → MsgCounters) (fs : Finset ι)
    (hpos : ∀ file ∈ fs, 0 < (cs file).numMsgCounters) (f : Blocks ι) (hcovered : f.Covered)
    (hfs : ∀ file ∈ f.files, file ∈ fs) :
    ∑ file ∈ fs, ∑ i ∈ Finset.range (cs file).numMsgCounters, f.selfTime cs file i = f.outer := by
  induction f with
  | nil => simp [selfTime, outer]
  | block kind qtFile msgId start stop inner rest ihInner ihRest =>
    cases qtFile with
    | none =>
      have hin := ihInner hcovered.1 fun file h => hfs file (List.mem_append_left _ h)
      have hrest := ihRest hcovered.2 fun file h => hfs file (List.mem_append_right _ h)
      simp only [selfTime, outer, Finset.sum_add_distrib, hin, hrest]
    | some f =>
      obtain ⟨hle, hcovered₁, hcovered₂⟩ := hcovered
      have hin := ihInner hcovered₁ fun file h =>
        hfs file (List.mem_cons_of_mem _ (List.mem_append_left _ h))
      have hrest := ihRest hcovered₂ fun file h =>
        hfs file (List.mem_cons_of_mem _ (List.mem_append_right _ h))
      have hf : f ∈ fs := hfs f List.mem_cons_self
      -- one counter has the time of the block
      have hone : ∑ file ∈ fs, ∑ i ∈ Finset.range (cs file).numMsgCounters,
          (if f = file ∧ (cs file).index msgId = i then stop - start - inner.outer else 0)
          = stop - start - inner.outer := by
        rw [Finset.sum_eq_single_of_mem f hf, Finset.sum_eq_single_of_mem ((cs f).index msgId)]
        · simp
        · exact Finset.mem_range.mpr (Nat.mod_lt _ (hpos f hf))
        · intro i _ hi
          simp [Ne.symm hi]
        · intro file _ hfile
          simp [Ne.symm hfile]
      simp only [selfTime, outer, Finset.sum_add_distrib, hin, hrest, hone]
      omega

end Blocks

/-- A counter wraps at 64 bits. -/
theorem toNat_add_ofNat (x : UInt64) (k : Nat) :
    (x + UInt64.ofNat k).toNat ≡ x.toNat + k [MOD 2 ^ 64] := by
  rw [UInt64.toNat_add, UInt64.toNat_ofNat']
  exact (Nat.mod_modEq _ _).trans ((Nat.mod_modEq k (2 ^ 64)).add_left _)

/-- The self times of all counters of some trace files. -/
def Thread.selfTimes (t : Thread ι) (fs : Finset ι) : Nat :=
  ∑ file ∈ fs, ∑ i ∈ Finset.range (t.msgCounters file).numMsgCounters,
    ((t.msgCounters file).counter i).tscSelfCount.toNat

/-- A thread runs blocks that are nested in any way, and the clock goes
forward: the stack and each counter get the times they should, no time inside
a block is longer than the block, and all self times together have grown as
much as the top of the stack. -/
theorem conserves_time [DecidableEq ι] (f : Blocks ι) (hclock : f.readings.Pairwise (· < ·))
    (t : Thread ι) (hstack : t.threadSubFuncStack ≠ []) (fs : Finset ι)
    (hpos : ∀ file ∈ fs, 0 < (t.msgCounters file).numMsgCounters)
    (hfs : ∀ file ∈ f.files, file ∈ fs) :
    f.Covered ∧ ∃ t', f.run t = some t' ∧ f.Charges t t'
      ∧ t'.selfTimes fs ≡ t.selfTimes fs + f.outer [MOD 2 ^ 64] := by
  have hcovered := f.covered_of_increasing hclock
  obtain ⟨t', hrun, hcharges⟩ := f.run_spec hstack hcovered
  refine ⟨hcovered, t', hrun, hcharges, ?_⟩
  unfold Thread.selfTimes
  rw [← f.sum_selfTime t.msgCounters fs hpos hcovered hfs, ← Finset.sum_add_distrib]
  refine Nat.ModEq.sum fun file _ => ?_
  rw [← Finset.sum_add_distrib, hcharges.numMsgCounters]
  refine Nat.ModEq.sum fun i _ => ?_
  rw [hcharges.counters]
  exact toNat_add_ofNat _ _

/-- A block that calls itself from a block without a trace file. -/
def recursion : Blocks Unit :=
  .block .self (some ()) 7 10 100
    (.block .selfMsg none 7 0 0 (.block .selfMsg (some ()) 7 20 50 .nil .nil) .nil) .nil

/-- A new thread, and a file with one counter. -/
def newThread : Thread Unit := ⟨fun _ => ⟨1, fun _ => .zero⟩, [0]⟩

theorem conserves_time_recursion : recursion.Covered ∧ ∃ t', recursion.run newThread = some t'
    ∧ recursion.Charges newThread t'
    ∧ t'.selfTimes {()} ≡ newThread.selfTimes {()} + 90 [MOD 2 ^ 64] :=
  conserves_time recursion (by decide) newThread (by decide) {()} (by simp [newThread]) (by simp)

end QuickTrace.BlockTimer
