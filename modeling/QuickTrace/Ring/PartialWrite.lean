/-
QuickTrace.Ring.PartialWrite — a message of which only the first stores have
been done.

The stores of the arguments come in order, but the length byte of a string
comes behind its characters. So the first stores leave either some bytes in
front of what is missing, or some bytes, a gap of one, and the first
characters of a string (`partly_putArgs`). `argStrings` lists the strings of a
message with the bytes in front of them and the types of what follows.
-/
import QuickTrace.Format.Extent

namespace QuickTrace

open QuickTrace.Lib

/-! ## Stores of single characters -/

/-- One store for each character. -/
def charStores (a : Nat) : Text → List Store
  | [] => []
  | c :: cs => ⟨a, [c]⟩ :: charStores (a + 1) cs

theorem applyAll_charStores (m : Mem) : ∀ (cs : Text) (a : Nat),
    m.applyAll (charStores a cs) = m.store a cs := by
  intro cs
  induction cs generalizing m with
  | nil => simp [charStores]
  | cons c cs ih =>
    intro a
    rw [charStores, Mem.applyAll_cons, ih]
    exact Mem.store_append m a [c] cs

theorem charStores_take : ∀ (cs : Text) (a j : Nat),
    (charStores a cs).take j = charStores a (cs.take j)
  | [], _, j => by simp [charStores]
  | c :: cs, a, 0 => rfl
  | c :: cs, a, j + 1 => by
      rw [charStores, List.take_succ_cons, charStores_take cs, List.take_succ_cons, charStores]

theorem charStores_length : ∀ (cs : Text) (a : Nat), (charStores a cs).length = cs.length
  | [], _ => rfl
  | c :: cs, a => by rw [charStores, List.length_cons, charStores_length cs, List.length_cons]

namespace RingBuf

theorem copyLoop_stores (ptr1 : Nat) : ∀ (maxLen : Nat) (x : Text) (i : Nat),
    (copyLoop ptr1 maxLen x i).2 = charStores (ptr1 + i) (cut maxLen x)
  | 0, x, i => by rw [cut_zero]; rfl
  | maxLen + 1, [], i => by rw [cut_nil]; rfl
  | maxLen + 1, c :: cs, i => by
      rw [cut_cons, copyLoop]
      by_cases hc : c = 0
      · rw [if_pos hc, if_pos hc]
        rfl
      · simp only [if_neg hc]
        rw [copyLoop_stores ptr1 maxLen cs (i + 1), charStores]
        rfl

/-! ## The strings of a message -/

/-- A string among the arguments: the bytes in front of its length byte, its
characters, and the types of what comes behind it. -/
structure StringPos where
  before : List UInt8
  chars : Text
  behind : List Ty
  deriving DecidableEq

/-- More bytes in front. -/
def StringPos.after (bs : List UInt8) (s : StringPos) : StringPos :=
  { s with before := bs ++ s.before }

/-- The memory when `j` characters of the string are stored. -/
def StringPos.partly (s : StringPos) (j : Nat) (m : Mem) (p : Nat) : Mem :=
  (m.store p s.before).store (p + s.before.length + 1) (s.chars.take j)

theorem StringPos.partly_after (bs : List UInt8) (s : StringPos) (j : Nat) (m : Mem) (p : Nat) :
    (s.after bs).partly j m p = s.partly j (m.store p bs) (p + bs.length) := by
  simp only [partly, after, Mem.store_append, List.length_append, Nat.add_assoc]

/-- In front of the string nothing changes. -/
theorem StringPos.partly_lt (s : StringPos) (j : Nat) (m : Mem) {p x : Nat} (hx : x < p) :
    s.partly j m p x = m x := by
  rw [partly, Mem.store_lt (by omega), Mem.store_lt hx]

end RingBuf

open RingBuf

/-- The string inside a value. -/
def Value.strings (n : Nat) (behind : List Ty) : Value → List StringPos
  | .str x => [⟨[], cut n x, behind⟩]
  | .optSome v => (v.strings n behind).map (StringPos.after [1])
  | _ => []

namespace RingBuf

/-- The string inside an argument. -/
def Arg.strings (n : Nat) (behind : List Ty) : Arg → List StringPos
  | .val v => v.strings n behind
  | .longStr x => [⟨[], cut LONGSTRING_LIMIT x, behind⟩]

/-- The strings among the arguments of a message. -/
def argStrings (n : Nat) : List Arg → List StringPos
  | [] => []
  | a :: as => a.strings n (as.map Arg.ty) ++ (argStrings n as).map (StringPos.after (a.encode n))

end RingBuf

/-! ## Decoding up to a string -/

/-- Behind the bytes in front of a string decoding is at the string. -/
theorem Value.strings_extent {n : Nat} {behind : List Ty} {m : Mem} (v : Value) :
    ∀ {s : StringPos} {p : Nat}, s ∈ v.strings n behind → m.Holds p s.before →
      extents m p (v.ty :: behind)
        = s.before.length + extents m (p + s.before.length) (.str :: s.behind) := by
  induction v with
  | str x =>
    intro s p hs _
    rw [Value.strings, List.mem_singleton] at hs
    subst hs
    rw [List.length_nil, Nat.zero_add, Nat.add_zero, Value.ty]
  | optSome v ih =>
    intro s p hs h
    obtain ⟨s', hs', rfl⟩ := List.mem_map.mp hs
    have h1 : m p ≠ 0 := by rw [h.1]; decide
    have hin := ih hs' h.2
    have hlen : (StringPos.after [1] s').before.length = 1 + s'.before.length := by
      rw [StringPos.after, List.length_append, List.length_singleton]
    rw [extents] at hin
    rw [extents, Value.ty, Ty.extent, if_neg h1, hlen, ← Nat.add_assoc p, ← Nat.add_assoc p,
      Nat.add_assoc 1, hin, Nat.add_assoc 1]
    rfl
  | _ =>
    intro s p hs _
    cases hs

namespace RingBuf

theorem Arg.strings_extent {n : Nat} {behind : List Ty} {m : Mem} {a : Arg} {s : StringPos}
    {p : Nat} (hs : s ∈ a.strings n behind) (h : m.Holds p s.before) :
    extents m p (a.ty :: behind)
      = s.before.length + extents m (p + s.before.length) (.str :: s.behind) := by
  cases a with
  | val v => exact Value.strings_extent v hs h
  | longStr x => exact Value.strings_extent (n := LONGSTRING_LIMIT) (.str x) hs h

theorem argStrings_extent {n : Nat} (hn : n ≤ 255) {m : Mem} : ∀ (args : List Arg)
    {s : StringPos} {p : Nat}, s ∈ argStrings n args → m.Holds p s.before →
      extents m p (args.map Arg.ty)
        = s.before.length + extents m (p + s.before.length) (.str :: s.behind)
  | [], _, _, hs, _ => by cases hs
  | a :: args, s, p, hs, h => by
      rcases List.mem_append.mp hs with hs | hs
      · exact a.strings_extent hs h
      · obtain ⟨s', hs', rfl⟩ := List.mem_map.mp hs
        obtain ⟨h1, h2⟩ := (Mem.holds_append _ _ _ _).mp h
        have hin := argStrings_extent hn args hs' h2
        have hlen : (s'.after (a.encode n)).before.length
            = (a.encode n).length + s'.before.length := List.length_append
        rw [List.map_cons, extents, a.extent_encode hn h1, hin, hlen, Nat.add_assoc, Nat.add_assoc]
        rfl

/-! ## The first stores -/

/-- What the first stores leave in memory from `p` on: bytes in front of what
is missing, which decoding steps over first, or bytes, a gap, and some
characters of a string. -/
inductive Partly (p : Nat) (ts : List Ty) (strings : List StringPos) (ss : List Store) : Prop where
  | front (bs : List UInt8) (hm : ∀ m : Mem, m.applyAll ss = m.store p bs)
    (h : ∀ (m : Mem) (q : Nat), m.Holds q bs → bs.length ≤ extents m q ts)
  | gap (s : StringPos) (hs : s ∈ strings) (j : Nat)
    (hm : ∀ m : Mem, m.applyAll ss = s.partly j m p)

theorem Partly.applyAll_lt {p : Nat} {ts : List Ty} {strings : List StringPos} {ss : List Store}
    (h : Partly p ts strings ss) (m : Mem) {x : Nat} (hx : x < p) : m.applyAll ss x = m x := by
  cases h with
  | front bs hm _ => rw [hm, Mem.store_lt hx]
  | gap s _ j hm => rw [hm, s.partly_lt j m hx]

theorem Partly.nothing (p : Nat) (ts : List Ty) (strings : List StringPos) :
    Partly p ts strings [] :=
  .front [] (fun m => by simp) fun _ _ _ => Nat.zero_le _

/-- More stores, types and strings behind. -/
theorem Partly.weaken {p : Nat} {t : Ty} {ts : List Ty} {xs ys : List StringPos}
    {ss : List Store} (h : Partly p [t] xs ss) (hsub : ∀ s ∈ xs, s ∈ ys) :
    Partly p (t :: ts) ys ss := by
  cases h with
  | front bs hm h =>
    refine .front bs hm fun m q hq => Nat.le_trans (h m q hq) ?_
    rw [extents, extents, extents]
    omega
  | gap s hs j hm => exact .gap s (hsub s hs) j hm

/-- Complete bytes in front. -/
theorem Partly.after {p : Nat} {bs : List UInt8} {ts ts' : List Ty} {xs : List StringPos}
    {ss ss' : List Store} (h : Partly (p + bs.length) ts xs ss)
    (hss' : ∀ m : Mem, m.applyAll ss' = m.store p bs)
    (hts : ∀ (m : Mem) (q : Nat), m.Holds q bs →
      extents m q ts' = bs.length + extents m (q + bs.length) ts) :
    Partly p ts' (xs.map (StringPos.after bs)) (ss' ++ ss) := by
  cases h with
  | front cs hm h =>
    refine .front (bs ++ cs) (fun m => ?_) fun m q hq => ?_
    · rw [Mem.applyAll_append, hss', hm, Mem.store_append]
    · obtain ⟨h1, h2⟩ := (Mem.holds_append _ _ _ _).mp hq
      rw [hts m q h1, List.length_append]
      exact Nat.add_le_add_left (h m _ h2) _
  | gap s hs j hm =>
    refine .gap (s.after bs) (List.mem_map_of_mem hs) j fun m => ?_
    rw [Mem.applyAll_append, hss', hm, StringPos.partly_after]

theorem prefix_append_cases {α : Type} {ss xs ys : List α} (h : ss <+: xs ++ ys) :
    ss <+: xs ∨ ∃ t, ss = xs ++ t ∧ t <+: ys := by
  rcases Nat.le_total ss.length xs.length with hle | hle
  · exact Or.inl (List.prefix_of_prefix_length_le h (List.prefix_append xs ys) hle)
  · obtain ⟨t, rfl⟩ := List.prefix_of_prefix_length_le (List.prefix_append xs ys) h hle
    exact Or.inr ⟨t, rfl, (List.prefix_append_right_inj xs).mp h⟩

theorem prefix_singleton_cases {α : Type} {ss : List α} {x : α} (h : ss <+: [x]) :
    ss = [x] ∨ ss = [] := by
  rcases ss with _ | ⟨y, ss⟩
  · exact Or.inr rfl
  · obtain ⟨rfl, hss⟩ := List.cons_prefix_cons.mp h
    rw [List.prefix_nil.mp hss]
    exact Or.inl rfl

/-- All bytes of one value. -/
theorem Partly.all {p : Nat} {t : Ty} {bs : List UInt8} {ss : List Store} (xs : List StringPos)
    (hm : ∀ m : Mem, m.applyAll ss = m.store p bs)
    (h : ∀ (m : Mem) (q : Nat), m.Holds q bs → t.extent m q = bs.length) :
    Partly p [t] xs ss :=
  .front bs hm fun m q hq => by
    rw [extents, extents, h m q hq]
    exact Nat.le_refl _

/-- The characters of a string, then its length byte. -/
theorem partly_putWithMaxLen {n : Nat} (hn : n ≤ 255) {rb : RingBuf} {x : Text}
    {ss : List Store} (h : ss <+: (rb.putWithMaxLen x n).2) (ts : List Ty) :
    Partly rb.ptr [.str] [⟨[], cut n x, ts⟩] ss := by
  have hall := (Writes.putWithMaxLen rb x n).mem
  rcases List.prefix_concat_iff.mp h with rfl | h
  · exact .all _ hall fun m q hq => Value.extent_encode hn (.str x) hq
  · rw [copyLoop_stores, Nat.add_zero] at h
    refine .gap _ (List.mem_singleton_self _) ss.length fun m => ?_
    rw [List.prefix_iff_eq_take.mp h, charStores_take, applyAll_charStores]
    simp only [StringPos.partly, Mem.store_nil, List.length_nil, Nat.add_zero, charStores_length,
      List.length_take]
    congr 1
    rw [List.take_eq_take_iff]
    have := h.length_le
    rw [charStores_length] at this
    omega

/-- One store of all the bytes. -/
theorem partly_push {rb : RingBuf} {bs : List UInt8} {t : Ty} {ss : List Store}
    (h : ss <+: (rb.push bs).2) (xs : List StringPos)
    (hext : ∀ (m : Mem) (q : Nat), m.Holds q bs → t.extent m q = bs.length) :
    Partly rb.ptr [t] xs ss := by
  rcases prefix_singleton_cases h with rfl | rfl
  · exact .all xs (Writes.push rb bs).mem hext
  · exact .nothing _ _ _

theorem partly_put {n : Nat} (hn : n ≤ 255) (v : Value) : ∀ {rb : RingBuf} {ss : List Store}
    (ts : List Ty), ss <+: (rb.put n v).2 → Partly rb.ptr [v.ty] (v.strings n ts) ss := by
  induction v with
  | str x => exact fun ts h => partly_putWithMaxLen hn h ts
  | optSome v ih =>
    intro rb ss ts h
    rcases prefix_append_cases h with h | ⟨t, rfl, ht⟩
    · rcases prefix_singleton_cases h with rfl | rfl
      · refine .front [1] (Writes.push rb [1]).mem fun m q hq => ?_
        have := Ty.extent_pos m (Value.optSome v).ty q
        rw [extents, extents, List.length_singleton]
        omega
      · exact .nothing _ _ _
    · refine (show Partly (rb.ptr + [(1 : UInt8)].length) _ _ _ from ih ts ht).after
        (Writes.push rb [1]).mem fun m q hq => ?_
      have h1 : m q ≠ 0 := by rw [hq.1]; decide
      rw [extents, extents, Value.ty, Ty.extent, if_neg h1, extents, extents]
      rfl
  | optNone t =>
    intro rb ss ts h
    exact partly_push h _ fun m q hq => Value.extent_encode hn (.optNone t) hq
  | _ =>
    intro rb ss ts h
    exact partly_push h _ fun m q hq => rfl

theorem partly_putArg {n : Nat} (hn : n ≤ 255) {rb : RingBuf} (he : rb.enabled = true) {a : Arg}
    {ss : List Store} (ts : List Ty) (h : ss <+: (rb.putArg n a).2) :
    Partly rb.ptr [a.ty] (a.strings n ts) ss := by
  unfold putArg at h
  rw [if_pos he] at h
  cases a with
  | val v => exact partly_put hn v ts h
  | longStr x => exact partly_putWithMaxLen (n := LONGSTRING_LIMIT) (by decide) h ts

theorem partly_putArgs {n : Nat} (hn : n ≤ 255) : ∀ (args : List Arg) {rb : RingBuf}
    {ss : List Store}, rb.enabled = true → ss <+: (rb.putArgs n args).2 →
      Partly rb.ptr (args.map Arg.ty) (argStrings n args) ss
  | [], rb, ss, _, h => by
      rw [List.prefix_nil.mp h]
      exact .nothing _ _ _
  | a :: args, rb, ss, he, h => by
      have hw := Writes.putArg n a he
      rcases prefix_append_cases h with h | ⟨t, rfl, ht⟩
      · exact (partly_putArg hn he _ h).weaken fun s hs => List.mem_append_left _ hs
      · have he' : (rb.putArg n a).1.enabled = true := by rw [hw.ring]; exact he
        have ih := partly_putArgs hn args he' ht
        rw [hw.ptr] at ih
        have hafter := ih.after hw.mem fun m q hq =>
          show extents m q ((a :: args).map Arg.ty) = _ by
            rw [List.map_cons, extents, a.extent_encode hn hq]
        cases hafter with
        | front bs hm h => exact .front bs hm h
        | gap s hs j hm => exact .gap s (List.mem_append_right _ hs) j hm

/-! ## Every string is stored character by character -/

theorem putWithMaxLen_partly (rb : RingBuf) (x : Text) (n j : Nat) (ts : List Ty) :
    ∃ ss, ss <+: (rb.putWithMaxLen x n).2
      ∧ ∀ m : Mem, m.applyAll ss = (⟨[], cut n x, ts⟩ : StringPos).partly j m rb.ptr := by
  refine ⟨(charStores (rb.ptr + 1) (cut n x)).take j, ?_, fun m => ?_⟩
  · refine (List.take_prefix _ _).trans ?_
    have := List.prefix_append (copyLoop (rb.ptr + 1) n x 0).2
      [⟨rb.ptr, [UInt8.ofNat (copyLoop (rb.ptr + 1) n x 0).1]⟩]
    rw [copyLoop_stores, Nat.add_zero] at this
    exact (copyLoop_stores (rb.ptr + 1) n x 0).symm ▸ this
  · rw [charStores_take, applyAll_charStores]
    simp [StringPos.partly]

theorem put_partly {n : Nat} (v : Value) : ∀ (rb : RingBuf) {ts : List Ty} {s : StringPos},
    s ∈ v.strings n ts → ∀ j, ∃ ss, ss <+: (rb.put n v).2
      ∧ ∀ m : Mem, m.applyAll ss = s.partly j m rb.ptr := by
  induction v with
  | str x =>
    intro rb ts s hs j
    rw [Value.strings, List.mem_singleton] at hs
    subst hs
    exact putWithMaxLen_partly rb x n j ts
  | optSome v ih =>
    intro rb ts s hs j
    obtain ⟨s', hs', rfl⟩ := List.mem_map.mp hs
    obtain ⟨ss, hpre, hm⟩ := ih (rb.push [1]).1 hs' j
    refine ⟨(rb.push [1]).2 ++ ss, (List.prefix_append_right_inj _).mpr hpre, fun m => ?_⟩
    rw [Mem.applyAll_append, (Writes.push rb [1]).mem, hm, StringPos.partly_after]
    rfl
  | _ =>
    intro rb ts s hs
    cases hs

theorem argStrings_partly {n : Nat} : ∀ (args : List Arg) {rb : RingBuf} {s : StringPos},
    rb.enabled = true → s ∈ argStrings n args → ∀ j, ∃ ss, ss <+: (rb.putArgs n args).2
      ∧ ∀ m : Mem, m.applyAll ss = s.partly j m rb.ptr
  | [], _, _, _, hs, _ => by cases hs
  | a :: args, rb, s, he, hs, j => by
      have hw := Writes.putArg n a he
      rcases List.mem_append.mp hs with hs | hs
      · have hfirst : ∃ ss, ss <+: (rb.putArg n a).2
            ∧ ∀ m : Mem, m.applyAll ss = s.partly j m rb.ptr := by
          unfold putArg
          rw [if_pos he]
          cases a with
          | val v => exact put_partly v rb hs j
          | longStr x =>
            rw [Arg.strings, List.mem_singleton] at hs
            subst hs
            exact putWithMaxLen_partly rb x _ j _
        obtain ⟨ss, hpre, hm⟩ := hfirst
        exact ⟨ss, hpre.trans (List.prefix_append _ _), hm⟩
      · obtain ⟨s', hs', rfl⟩ := List.mem_map.mp hs
        have he' : (rb.putArg n a).1.enabled = true := by rw [hw.ring]; exact he
        obtain ⟨ss, hpre, hm⟩ := argStrings_partly args he' hs' j
        refine ⟨(rb.putArg n a).2 ++ ss, (List.prefix_append_right_inj _).mpr hpre, fun m => ?_⟩
        rw [Mem.applyAll_append, hw.mem, hm, hw.ptr, StringPos.partly_after]

end RingBuf

end QuickTrace
