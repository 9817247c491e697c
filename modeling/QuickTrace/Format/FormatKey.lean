/-
QuickTrace.Format.FormatKey — what a format key selects.

`joinKeys` is the key of a list of types without the buffer; a key that fits
its buffer is one (`ofTypes_eq`). `Registry.Ok` is the invariant of the
formatter tables: the entries of one character are those of the beginning,
and every other entry is an optional around one of them. From it follow the
two facts the rest needs: what a code of at most one optional selects
(`selectFormatter_shallow`, `selectLength_shallow`), and that a code of more
than one has no length (`selectLength_deep`).
-/
import QuickTrace.Format.MessageFormatter

namespace QuickTrace

open QuickTrace.Lib

/-! ## Codes -/

/-- A code is not empty and contains neither a comma nor a NUL. -/
theorem formatString_code (t : Ty) :
    formatString t ≠ [] ∧ ∀ c ∈ formatString t, c ≠ 44 ∧ c ≠ 0 := by
  induction t with
  | opt t ih =>
    refine ⟨by simp [formatString, ascii], fun c hc => ?_⟩
    have hopt : ∀ c ∈ ascii ['O', 'P', 'T'], c ≠ 44 ∧ c ≠ 0 := forall_mem_text (by decide)
    rcases List.mem_append.mp hc with hc | hc
    · exact hopt c hc
    · exact ih.2 c (List.mem_of_mem_take hc)
  | _ => exact ⟨by decide, forall_mem_text (by decide)⟩

/-- The code of a type that is not optional is one character. -/
theorem formatString_base {t : Ty} (h : t.optDepth = 0) : ∃ c, formatString t = [c] := by
  cases t with
  | opt t => simp [Ty.optDepth] at h
  | _ => exact ⟨_, rfl⟩

theorem formatString_opt_base {t : Ty} (h : t.optDepth = 0) :
    formatString (.opt t) = OPT ++ formatString t := by
  obtain ⟨c, hc⟩ := formatString_base h
  rw [formatString, hc]
  rfl

/-- The code of a nested optional starts with the prefix twice. -/
theorem formatString_deep {t : Ty} : ∃ s, formatString (.opt (.opt t)) = OPT ++ (OPT ++ s) :=
  ⟨((formatString t).take 12).take 9, by
    simp only [formatString, OPT]
    rw [List.take_append]
    rfl⟩

/-! ## Keys -/

/-- The codes of a list of types, separated by commas. -/
def joinKeys : List Ty → Text
  | [] => []
  | [t] => formatString t
  | t :: ts => formatString t ++ [44] ++ joinKeys ts

theorem joinKeys_cons (t u : Ty) (ts : List Ty) :
    joinKeys (t :: u :: ts) = formatString t ++ 44 :: joinKeys (u :: ts) := by
  simp [joinKeys]

@[simp] theorem joinKeys_eq_nil : ∀ {ts : List Ty}, joinKeys ts = [] ↔ ts = []
  | [] => by simp [joinKeys]
  | [t] => by simp [joinKeys, (formatString_code t).1]
  | t :: u :: ts => by simp [joinKeys_cons]

/-- A key contains no NUL. -/
theorem joinKeys_ne_zero : ∀ (ts : List Ty), ∀ c ∈ joinKeys ts, c ≠ 0
  | [], c, hc => by simp [joinKeys] at hc
  | [t], c, hc => ((formatString_code t).2 c hc).2
  | t :: u :: ts, c, hc => by
      rw [joinKeys_cons] at hc
      rcases List.mem_append.mp hc with hc | hc
      · exact ((formatString_code t).2 c hc).2
      · rcases List.mem_cons.mp hc with rfl | hc
        · decide
        · exact joinKeys_ne_zero (u :: ts) c hc

theorem joinKeys_concat : ∀ (ts : List Ty) (t : Ty), ts ≠ [] →
    joinKeys (ts ++ [t]) = joinKeys ts ++ 44 :: formatString t
  | [], _, h => absurd rfl h
  | [s], t, _ => by simp [joinKeys]
  | s :: u :: ts, t, _ => by
      rw [List.cons_append, List.cons_append, joinKeys_cons, joinKeys_cons,
        ← List.cons_append, joinKeys_concat (u :: ts) t (by simp)]
      simp

/-- A `put` that fits appends the code. -/
theorem put_joinKeys {ts : List Ty} {t : Ty} {key : Text}
    (h : MsgFormatString.put (joinKeys ts) (formatString t) = some key) :
    key = joinKeys (ts ++ [t]) := by
  unfold MsgFormatString.put at h
  simp only [Option.ite_none_right_eq_some, Option.some.injEq] at h
  rw [← h.2]
  by_cases hts : ts = []
  · simp [hts, joinKeys]
  · rw [joinKeys_concat ts t hts, if_neg (by simpa using hts)]
    simp [ascii]
    rfl

theorem putAll_joinKeys : ∀ (ts us : List Ty) {key : Text},
    MsgFormatString.putAll (joinKeys us) ts = some key → key = joinKeys (us ++ ts)
  | [], us, key, h => by simpa [MsgFormatString.putAll] using h.symm
  | t :: ts, us, key, h => by
      rw [MsgFormatString.putAll, Option.bind_eq_some_iff] at h
      obtain ⟨k, hk, h⟩ := h
      rw [put_joinKeys hk] at h
      simpa using putAll_joinKeys ts (us ++ [t]) h

/-- The key `MsgFormatString` produces. -/
theorem ofTypes_eq {ts : List Ty} {key : Text} (h : MsgFormatString.ofTypes ts = some key) :
    key = joinKeys ts := by
  simpa using putAll_joinKeys ts [] h

/-! ## Cutting a key -/

theorem takeWhile_code (t : Ty) (rest : Text) :
    (formatString t ++ rest).takeWhile (· != 44)
      = formatString t ++ rest.takeWhile (· != 44) := by
  rw [List.takeWhile_append_of_pos]
  intro c hc
  simpa using ((formatString_code t).2 c hc).1

theorem dropWhile_code (t : Ty) (rest : Text) :
    (formatString t ++ rest).dropWhile (· != 44) = rest.dropWhile (· != 44) := by
  rw [List.dropWhile_append_of_pos]
  intro c hc
  simpa using ((formatString_code t).2 c hc).1

/-- The first code of a key. -/
theorem takeWhile_joinKeys (t : Ty) (ts : List Ty) :
    (joinKeys (t :: ts)).takeWhile (· != 44) = formatString t := by
  cases ts with
  | nil => simpa [joinKeys] using takeWhile_code t []
  | cons u ts => rw [joinKeys_cons, takeWhile_code]; simp

/-- What follows the first code and its comma. -/
theorem dropWhile_joinKeys (t : Ty) (ts : List Ty) :
    ((joinKeys (t :: ts)).dropWhile (· != 44)).drop 1 = joinKeys ts := by
  cases ts with
  | nil => simpa [joinKeys] using congrArg (List.drop 1) (dropWhile_code t [])
  | cons u ts => rw [joinKeys_cons, dropWhile_code]; simp

/-- A key that starts with a single character and a comma. -/
theorem joinKeys_eq_cons {t : Ty} {ts : List Ty} {c : UInt8} {rest : Text} (hc : c ≠ 44)
    (h : joinKeys (t :: ts) = c :: 44 :: rest) : formatString t = [c] ∧ joinKeys ts = rest := by
  rw [← takeWhile_joinKeys t ts, ← dropWhile_joinKeys t ts, h]
  simp [hc]

namespace Builder

theorem fmt_joinKeys {b : Builder} {t : Ty} {ts : List Ty} (h : b.fmtPtr = joinKeys (t :: ts)) :
    b.fmt = formatString t := by
  rw [fmt, h, takeWhile_joinKeys]

theorem afterFmt_joinKeys {b : Builder} {t : Ty} {ts : List Ty}
    (h : b.fmtPtr = joinKeys (t :: ts)) : b.afterFmt = joinKeys ts := by
  rw [afterFmt, h, dropWhile_joinKeys]

end Builder

/-! ## The tables -/

namespace Registry

/-- The invariant of one table: codes of one character select what they did
at the beginning, a code behind the prefix selects an optional around what
the character selects in one of the initial tables. -/
structure TableOk (initial table : List (Text × Formatter)) : Prop where
  char : ∀ c, table.lookup [c] = initial.lookup [c]
  opt : ∀ c f, table.lookup (OPT ++ [c]) = some f → ∃ g, f = .opt g
    ∧ (initial.lookup [c] = some g ∨ Registry.initial.formattersById.lookup [c] = some g)

/-- The invariant of the static tables. -/
structure Ok (reg : Registry) : Prop where
  plain : TableOk Registry.initial.formattersById reg.formattersById
  hex : TableOk Registry.initial.hexFormattersById reg.hexFormattersById

/-- Nothing in a table of single characters is behind the prefix. -/
theorem lookup_long {c : UInt8} : ∀ {table : List (Text × Formatter)},
    (∀ e ∈ table, e.1.length = 1) → table.lookup (OPT ++ [c]) = none
  | [], _ => rfl
  | (k, f) :: es, h => by
      have hk : (OPT ++ [c] == k) = false := by
        rw [beq_eq_false_iff_ne]
        rintro rfl
        have := h _ List.mem_cons_self
        simp [OPT, ascii] at this
      rw [List.lookup_cons, hk]
      exact lookup_long fun e he => h e (List.mem_cons_of_mem _ he)

theorem ok_initial : Ok Registry.initial := by
  refine ⟨⟨fun _ => rfl, fun c f h => ?_⟩, ⟨fun _ => rfl, fun c f h => ?_⟩⟩
  · rw [lookup_long (by decide)] at h; cases h
  · rw [lookup_long (by decide)] at h; cases h

theorem lookup_emplace (table : List (Text × Formatter)) (key : Text) (f : Formatter)
    (k : Text) :
    (emplace table key f).lookup k
      = (table.lookup k).or (if k = key then some f else none) := by
  unfold emplace
  cases hkey : table.lookup key with
  | some g =>
    by_cases hk : k = key
    · subst hk; simp [hkey]
    · simp [hk]
  | none =>
    simp only [Option.isSome_none, Bool.false_eq_true, if_false]
    rw [List.lookup_append]
    by_cases hk : k = key
    · subst hk; simp [hkey]
    · have : (k == key) = false := by simpa using hk
      simp [List.lookup_cons, this, hk]

/-- Recording a resolved optional keeps a table in order. -/
theorem TableOk.emplace {initial table : List (Text × Formatter)} (h : TableOk initial table)
    {inner : Text} {g : Formatter}
    (hg : ∀ c, inner = [c] → initial.lookup [c] = some g
      ∨ Registry.initial.formattersById.lookup [c] = some g) :
    TableOk initial (QuickTrace.emplace table (OPT ++ inner) (.opt g)) := by
  refine ⟨fun c => ?_, fun c f hf => ?_⟩
  · have : ([c] : Text) ≠ OPT ++ inner := by
      intro he
      have := congrArg List.length he
      simp [OPT, ascii] at this
    rw [lookup_emplace, if_neg this, Option.or_none, h.char]
  · rw [lookup_emplace] at hf
    rcases hlook : table.lookup (OPT ++ [c]) with _ | f'
    · rw [hlook, Option.none_or, Option.ite_none_right_eq_some] at hf
      obtain ⟨he, hf⟩ := hf
      have hin : inner = [c] := (List.append_cancel_left he).symm
      exact ⟨g, (Option.some.inj hf).symm, hg c hin⟩
    · rw [hlook, Option.some_or] at hf
      exact h.opt c f (hlook.trans hf)

end Registry

/-- What the inner code of an optional resolves to. -/
theorem inner_resolved {reg : Registry} (hr : reg.Ok) {isHex : Bool} {inner : Text}
    {g : Formatter}
    (h : (match (if isHex then reg.hexFormattersById.lookup inner else none) with
        | some f => some f
        | none => reg.formattersById.lookup inner) = some g) (c : UInt8) (hc : inner = [c]) :
    (if isHex then Registry.initial.hexFormattersById
        else Registry.initial.formattersById).lookup [c] = some g
      ∨ Registry.initial.formattersById.lookup [c] = some g := by
  subst hc
  cases isHex with
  | false =>
    simp only [Bool.false_eq_true, if_false, hr.plain.char] at h ⊢
    exact Or.inr h
  | true =>
    simp only [if_true, hr.hex.char, hr.plain.char] at h ⊢
    rcases hl : Registry.initial.hexFormattersById.lookup [c] with _ | f
    · rw [hl] at h; exact Or.inr h
    · rw [hl] at h; exact Or.inl h

/-- Every selection keeps the tables in order. -/
theorem selectFormatter_ok {reg : Registry} (hr : reg.Ok) (fmt : Text) (isHex : Bool) :
    (selectFormatter reg fmt isHex).2.Ok := by
  unfold selectFormatter
  split
  · exact hr
  · split
    · rename_i hpre
      obtain ⟨inner, rfl⟩ := List.isPrefixOf_iff_prefix.mp hpre
      simp only [List.drop_left]
      split
      · exact hr
      · rename_i g hg
        have hres := inner_resolved hr hg
        cases isHex with
        | true => exact ⟨hr.plain, hr.hex.emplace hres⟩
        | false => exact ⟨hr.plain.emplace hres, hr.hex⟩
    · split
      · exact hr
      · exact hr

/-! ## What a code selects -/

/-- The formatter decodes values of this type. -/
def Formatter.fits : Formatter → Ty → Bool
  | .u8, t | .u8Hex, t => t == .u8 || t == .i8
  | .u16, t | .u16Hex, t => t == .u16 || t == .i16
  | .u32, t | .u32Hex, t => t == .u32 || t == .i32
  | .u64, t | .u64Hex, t => t == .u64 || t == .i64 || t == .ptr
  | .char, t => t == .char
  | .string, t => t == .str
  | .bool, t => t == .bool
  | .float, t => t == .float
  | .double, t => t == .double
  | .wallClockRingBuf, _ => false
  | .opt f, .opt t => f.fits t
  | .opt _, _ => false

/-- The length function measures values of this type. -/
def Length.fits : Length → Ty → Bool
  | .u8, t => t == .u8 || t == .i8
  | .u16, t => t == .u16 || t == .i16
  | .u32, t => t == .u32 || t == .i32
  | .u64, t => t == .u64 || t == .i64 || t == .ptr
  | .char, t => t == .char
  | .string, t => t == .str
  | .bool, t => t == .bool
  | .float, t => t == .float
  | .double, t => t == .double
  | .wallClock, _ => false
  | .opt l, .opt t => l.fits t
  | .opt _, _ => false

/-- What the initial tables hold for the code of a type fits the type. -/
theorem initial_plain {t : Ty} (h : t.optDepth = 0) :
    ∃ f, Registry.initial.formattersById.lookup (formatString t) = some f
      ∧ f.fits t = true := by
  cases t with
  | opt t => simp [Ty.optDepth] at h
  | _ => exact ⟨_, rfl, rfl⟩

theorem initial_hex {t : Ty} (h : t.optDepth = 0) {f : Formatter}
    (hf : Registry.initial.hexFormattersById.lookup (formatString t) = some f) :
    f.fits t = true := by
  cases t with
  | opt t => simp [Ty.optDepth] at h
  | char | bool | float | double | str => exact nomatch hf
  | _ => exact Option.some.inj hf ▸ rfl

theorem initial_length {t : Ty} (h : t.optDepth = 0) :
    ∃ l, lengthsById.lookup (formatString t) = some l ∧ l.fits t = true := by
  cases t with
  | opt t => simp [Ty.optDepth] at h
  | _ => exact ⟨_, rfl, rfl⟩

theorem not_prefix_char (c : UInt8) : OPT.isPrefixOf [c] = false := by
  simp [OPT, ascii, List.isPrefixOf]

theorem prefix_self (s : Text) : OPT.isPrefixOf (OPT ++ s) = true :=
  List.isPrefixOf_iff_prefix.mpr (List.prefix_append OPT s)

/-- A scalar or a string selects a formatter for it. -/
theorem selectFormatter_base {reg : Registry} (hr : reg.Ok) {t : Ty} (h : t.optDepth = 0)
    (isHex : Bool) :
    ∃ f, (selectFormatter reg (formatString t) isHex).1 = some f ∧ f.fits t = true := by
  obtain ⟨f, hf, hfit⟩ := initial_plain h
  obtain ⟨c, hc⟩ := formatString_base h
  have hplain : reg.formattersById.lookup (formatString t) = some f := by
    rw [hc, hr.plain.char, ← hc, hf]
  unfold selectFormatter
  cases isHex with
  | false => exact ⟨f, by simp [hplain], hfit⟩
  | true =>
    simp only [if_true]
    have hhex : reg.hexFormattersById.lookup (formatString t)
        = Registry.initial.hexFormattersById.lookup (formatString t) := by
      rw [hc, hr.hex.char]
    rcases hl : reg.hexFormattersById.lookup (formatString t) with _ | g
    · refine ⟨f, ?_, hfit⟩
      simp only [hc, not_prefix_char, Bool.false_eq_true, if_false]
      rw [← hc, hplain]
    · exact ⟨g, rfl, initial_hex h (hhex ▸ hl)⟩

/-- A plain optional selects a formatter for it. -/
theorem selectFormatter_opt {reg : Registry} (hr : reg.Ok) {t : Ty} (h : t.optDepth = 0)
    (isHex : Bool) :
    ∃ f, (selectFormatter reg (formatString (.opt t)) isHex).1 = some f
      ∧ f.fits (.opt t) = true := by
  obtain ⟨c, hc⟩ := formatString_base h
  obtain ⟨f₀, hf₀, hfit₀⟩ := initial_plain h
  have hbase : ∀ g, (Registry.initial.hexFormattersById.lookup [c] = some g
      ∨ Registry.initial.formattersById.lookup [c] = some g) → g.fits t = true := by
    rintro g (hg | hg)
    · exact initial_hex h (hc ▸ hg)
    · rw [hc, hg] at hf₀
      exact Option.some.inj hf₀ ▸ hfit₀
  rw [formatString_opt_base h, hc]
  unfold selectFormatter
  split
  · rename_i f hf
    refine ⟨f, rfl, ?_⟩
    cases isHex with
    | true =>
      obtain ⟨g, rfl, hg⟩ := hr.hex.opt c f hf
      exact hbase g hg
    | false =>
      obtain ⟨g, rfl, hg⟩ := hr.plain.opt c f hf
      exact hbase g (Or.inr (hg.elim id id))
  · rw [if_pos (prefix_self [c])]
    simp only [List.drop_left]
    have hplain : reg.formattersById.lookup [c] = some f₀ := by
      rw [hr.plain.char, ← hc, hf₀]
    split
    · rename_i hnone
      exfalso
      cases isHex with
      | false => simp [hplain] at hnone
      | true =>
        rcases hl : reg.hexFormattersById.lookup [c] with _ | g
        · simp [hl, hplain] at hnone
        · simp [hl] at hnone
    · rename_i g hg
      refine ⟨.opt g, rfl, hbase g ?_⟩
      rcases inner_resolved hr hg c rfl with hres | hres
      · cases isHex with
        | true => exact Or.inl hres
        | false => exact Or.inr hres
      · exact Or.inr hres

theorem selectFormatter_shallow {reg : Registry} (hr : reg.Ok) {t : Ty} (h : t.optDepth ≤ 1)
    (isHex : Bool) :
    ∃ f, (selectFormatter reg (formatString t) isHex).1 = some f ∧ f.fits t = true := by
  cases t with
  | opt t => exact selectFormatter_opt hr (by simpa [Ty.optDepth] using h) isHex
  | _ => exact selectFormatter_base hr rfl isHex

theorem selectLength_shallow {t : Ty} (h : t.optDepth ≤ 1) :
    ∃ l, selectLength (formatString t) = .ok l ∧ l.fits t = true := by
  cases t with
  | opt t =>
    have h0 : t.optDepth = 0 := by simpa [Ty.optDepth] using h
    obtain ⟨l, hl, hfit⟩ := initial_length h0
    refine ⟨.opt l, ?_, hfit⟩
    rw [formatString_opt_base h0, selectLength, if_pos (prefix_self _)]
    simp only [List.drop_left, hl]
  | _ => exact ⟨_, rfl, rfl⟩

/-- A nested optional has no length: the inner code is not in the table. -/
theorem selectLength_deep {t : Ty} (h : ¬ t.optDepth ≤ 1) :
    ∃ e, selectLength (formatString t) = .error e := by
  cases t with
  | opt t =>
    cases t with
    | opt t =>
      obtain ⟨s, hs⟩ := formatString_deep (t := t)
      have hnone : lengthsById.lookup (OPT ++ s) = none := rfl
      refine ⟨.noLength (OPT ++ s), ?_⟩
      rw [hs, selectLength, if_pos (prefix_self _)]
      simp only [List.drop_left, hnone]
    | _ => exact absurd (Nat.le_refl 1) h
  | _ => exact absurd (Nat.zero_le 1) h

end QuickTrace
