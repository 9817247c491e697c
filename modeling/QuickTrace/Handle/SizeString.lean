/-
QuickTrace.Handle.SizeString — the three parsers of a size string.

`QuickTrace_initialize`, `QuickTrace_initialize_with_logging` and
`qt_initialize_handle` take the sizes of the ten trace levels from the words
of a string. The first two stop behind the tenth word, the third one does not
stop before the words end and writes behind its array
(`qtInitializeHandle_words`). `parsers_agree_iff` says for which strings the
three give the same sizes and stay inside of their arrays.
-/
import QuickTrace.Format.Value
import QuickTrace.Lib.CString

namespace QuickTrace.SizeString

open QuickTrace.Lib QuickTrace.Lib.CString

/-! ## The parsers -/

/-- The delimiters `", "`. -/
def delim (c : UInt8) : Bool := c == 44 || c == 32

/-- `int ss[10] = {8,8,8,8,8,8,8,8,8,8}`. -/
def defaults : List Int := List.replicate 10 8

/-- `atoi( c ) ?: 1`. -/
def size (c : Text) : Int := if atoi c = 0 then 1 else atoi c

/-- `ss[ i ] = v`; `none` behind the end of the array. -/
def store (ss : List Int) (i : Nat) (v : Int) : Option (List Int) :=
  if i < ss.length then some (ss.set i v) else none

theorem strtok_lt {s c rest : Text} (h : strtok delim s = some (c, rest)) :
    rest.length < s.length := by
  have hle := (List.dropWhile_sublist (p := delim) (l := s)).length_le
  unfold strtok at h
  split at h
  · cases h
  · next b t hs =>
    obtain ⟨-, rfl⟩ := Prod.mk.inj (Option.some.inj h)
    have hle' := (List.dropWhile_sublist (p := (!delim ·)) (l := b :: t)).length_le
    rw [hs] at hle
    simp only [List.length_drop, List.length_cons] at hle hle' ⊢
    omega

/-- The loop of `QuickTrace_initialize`, `do … while( i < 10 )`. -/
def boundedLoop (ss : List Int) (i : Nat) (s2 : Text) : Option (List Int) :=
  match _h : strtok delim s2 with
  | none => some ss
  | some (c, rest) =>
    match store ss i (size c) with
    | none => none
    | some ss => if i + 1 < 10 then boundedLoop ss (i + 1) rest else some ss
termination_by s2.length
decreasing_by exact strtok_lt _h

/-- The loop of `qt_initialize_handle`, `while( c )`. -/
def loop (ss : List Int) (i : Nat) (s2 : Text) : Option (List Int) :=
  match _h : strtok delim s2 with
  | none => some ss
  | some (c, rest) =>
    match store ss i (size c) with
    | none => none
    | some ss => loop ss (i + 1) rest
termination_by s2.length
decreasing_by exact strtok_lt _h

/-- The sizes that `QuickTrace_initialize` takes from `sizeStr`, which may be
null; `none` if it writes behind its array. -/
def quickTraceInitialize : Option Text → Option (List Int)
  | none => some defaults
  | some sizeStr => boundedLoop defaults 0 sizeStr

def quickTraceInitializeWithLogging : Option Text → Option (List Int)
  | none => some defaults
  | some sizeStr => boundedLoop defaults 0 sizeStr

def qtInitializeHandle : Option Text → Option (List Int)
  | none => some defaults
  | some sizeStr => loop defaults 0 sizeStr

/-! ## The sizes of a string -/

/-- The first ten words, and the default for each that is missing. -/
def sizes (sizeStr : Text) : List Int :=
  let ws := ((words delim sizeStr).take 10).map size
  ws ++ List.replicate (10 - ws.length) 8

theorem store_append (xs ys : List Int) (y v : Int) :
    store (xs ++ y :: ys) xs.length v = some (xs ++ v :: ys) := by
  unfold store
  rw [if_pos (by simp)]
  simp

theorem store_end (xs : List Int) (v : Int) : store xs xs.length v = none := by
  unfold store
  rw [if_neg (Nat.lt_irrefl _)]

/-! ## The loops -/

section

variable {ss ss' : List Int} {i : Nat} {s2 c rest : Text}

theorem boundedLoop_none (h : strtok delim s2 = none) : boundedLoop ss i s2 = some ss := by
  rw [boundedLoop]
  split
  · rfl
  · next h' => rw [h] at h'; cases h'

theorem boundedLoop_some (h : strtok delim s2 = some (c, rest))
    (hs : store ss i (size c) = some ss') :
    boundedLoop ss i s2 = if i + 1 < 10 then boundedLoop ss' (i + 1) rest else some ss' := by
  rw [boundedLoop]
  split
  · next h' => rw [h] at h'; cases h'
  · next h' =>
    rw [h] at h'
    cases h'
    rw [hs]

theorem loop_none (h : strtok delim s2 = none) : loop ss i s2 = some ss := by
  rw [loop]
  split
  · rfl
  · next h' => rw [h] at h'; cases h'

theorem loop_some (h : strtok delim s2 = some (c, rest)) :
    loop ss i s2 = (store ss i (size c)).bind fun ss' => loop ss' (i + 1) rest := by
  rw [loop]
  split
  · next h' => rw [h] at h'; cases h'
  · next h' =>
    rw [h] at h'
    cases h'
    rcases store ss i (size c) with _ | ss'
    · rfl
    · rfl

end

/-- The bounded loop fills the elements from `i` on, as far as there are
words. -/
theorem boundedLoop_words : ∀ (tl xs : List Int) (s2 : Text), xs.length + tl.length = 10 →
    tl ≠ [] →
    boundedLoop (xs ++ tl) xs.length s2
      = some (xs ++ ((words delim s2).take tl.length).map size
          ++ tl.drop (words delim s2).length)
  | [], _, _, _, h => absurd rfl h
  | y :: ys, xs, s2, hlen, _ => by
      rcases h : strtok delim s2 with _ | ⟨c, rest⟩
      · rw [boundedLoop_none h, strtok_eq_none h]
        simp
      · rw [boundedLoop_some h (store_append xs ys y (size c)), strtok_eq_some h]
        rw [List.length_cons] at hlen
        have happ : xs ++ size c :: ys = (xs ++ [size c]) ++ ys := by simp
        cases ys with
        | nil =>
          rw [List.length_nil] at hlen
          rw [if_neg (by omega)]
          simp
        | cons z zs =>
          rw [List.length_cons] at hlen
          have hx : (xs ++ [size c]).length = xs.length + 1 := by simp
          have ih := boundedLoop_words (z :: zs) (xs ++ [size c]) rest
            (by rw [hx, List.length_cons]; omega) (by simp)
          rw [if_pos (by omega), happ, ← hx, ih]
          simp

/-- The other loop does the same, but it needs an element for each word. -/
theorem loop_words : ∀ (tl xs : List Int) (s2 : Text),
    loop (xs ++ tl) xs.length s2
      = if (words delim s2).length ≤ tl.length then
          some (xs ++ (words delim s2).map size ++ tl.drop (words delim s2).length)
        else none
  | tl, xs, s2 => by
      rcases h : strtok delim s2 with _ | ⟨c, rest⟩
      · rw [loop_none h, strtok_eq_none h]
        simp
      · rw [loop_some h, strtok_eq_some h]
        cases tl with
        | nil =>
          rw [List.append_nil, store_end, if_neg (by simp)]
          rfl
        | cons y ys =>
          have hx : (xs ++ [size c]).length = xs.length + 1 := by simp
          have happ : xs ++ size c :: ys = (xs ++ [size c]) ++ ys := by simp
          have ih := loop_words ys (xs ++ [size c]) rest
          rw [store_append, Option.bind_some, happ, ← hx, ih]
          simp

/-! ## The parsers on a string -/

theorem sizes_eq (s : Text) :
    sizes s = ((words delim s).take 10).map size ++ defaults.drop (words delim s).length := by
  have hrest : 10 - ((words delim s).take 10).length = 10 - (words delim s).length := by
    rw [List.length_take]
    omega
  unfold sizes defaults
  simp only [List.length_map, List.drop_replicate, hrest]

/-- `QuickTrace_initialize` takes the first ten words. -/
theorem quickTraceInitialize_words (s : Text) : quickTraceInitialize (some s) = some (sizes s) := by
  have h := boundedLoop_words defaults [] s rfl (List.cons_ne_nil _ _)
  rw [sizes_eq]
  exact h

theorem quickTraceInitializeWithLogging_words (s : Text) :
    quickTraceInitializeWithLogging (some s) = some (sizes s) :=
  quickTraceInitialize_words s

/-- `qt_initialize_handle` writes behind its array from the eleventh word
on. -/
theorem qtInitializeHandle_words (s : Text) :
    qtInitializeHandle (some s)
      = if (words delim s).length ≤ 10 then some (sizes s) else none := by
  have h : loop defaults 0 s = _ := loop_words defaults [] s
  rw [qtInitializeHandle, h, sizes_eq, show defaults.length = 10 from rfl]
  by_cases hw : (words delim s).length ≤ 10
  · rw [if_pos hw, if_pos hw, List.take_of_length_le hw]
    rfl
  · rw [if_neg hw, if_neg hw]

/-- Without a string all three have the defaults. -/
theorem parsers_null :
    quickTraceInitialize none = some defaults ∧ quickTraceInitializeWithLogging none = some defaults
      ∧ qtInitializeHandle none = some defaults :=
  ⟨rfl, rfl, rfl⟩

/-- The three parsers stay inside of their arrays and compute the sizes of
the string. -/
def ParsersAgree (s : Text) : Prop :=
  quickTraceInitialize (some s) = some (sizes s) ∧
    quickTraceInitializeWithLogging (some s) = some (sizes s) ∧
    qtInitializeHandle (some s) = some (sizes s)

/-- They do so for the strings of at most ten words. -/
theorem parsers_agree_iff (s : Text) : ParsersAgree s ↔ (words delim s).length ≤ 10 := by
  constructor
  · rintro ⟨-, -, h⟩
    rw [qtInitializeHandle_words] at h
    by_contra hw
    rw [if_neg hw] at h
    cases h
  · intro hw
    refine ⟨quickTraceInitialize_words s, quickTraceInitializeWithLogging_words s, ?_⟩
    rw [qtInitializeHandle_words, if_pos hw]

/-- Eleven sizes. -/
theorem parsers_eleven_words :
    ¬ ∀ s : Text, ParsersAgree s := by
  intro h
  obtain ⟨-, -, hq⟩ := h (ascii ['1', ',', '1', ',', '1', ',', '1', ',', '1', ',', '1', ',', '1',
    ',', '1', ',', '1', ',', '1', ',', '1'])
  rw [qtInitializeHandle_words, if_neg (by decide)] at hq
  cases hq

end QuickTrace.SizeString
