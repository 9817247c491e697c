/-
QuickTrace.Format.Tokenizable — the texts that `init` can tokenize.

Not every text can be. `Tame` follows the percent signs that the loop looks
at; `safe_iff` says that it is exactly what a text needs.
-/
import QuickTrace.Format.TokenizerTheorems

namespace QuickTrace.Tokenizer

open QuickTrace.Lib

/-! ## What a percent sign needs -/

/-- What follows the flags of a conversion, on the text behind its percent
sign. -/
def afterFlags (t : Text) : Text := t.dropWhile isFlagChar

/-- The digits of the width. -/
def widthDigits (t : Text) : Text := (afterFlags t).takeWhile isdigit

/-- What follows the width. -/
def afterWidth (t : Text) : Text := (afterFlags t).dropWhile isdigit

/-- The digits of a precision. -/
def digitsAfterPeriod : Text → Text
  | 46 :: t => t.takeWhile isdigit
  | _ => []

/-- What follows a precision. -/
def afterPeriod : Text → Text
  | 46 :: t => t.dropWhile isdigit
  | t => t

/-- What stands where the conversion specifier is expected. -/
def specifier (t : Text) : Text := (afterPeriod (afterWidth t)).dropWhile isLengthModifier

/-- The number can be an `int`. -/
def FitsInt (ds : Text) : Prop := ds.foldl (fun a c => a * 10 + (c.toNat - 48)) 0 ≤ 2147483647

/-- Width and precision can be an `int`. -/
def NumbersFit (t : Text) : Prop :=
  FitsInt (widthDigits t) ∧ FitsInt (digitsAfterPeriod (afterWidth t))

/-- With `n` codes left the loop can go through the text: at each percent
sign that it looks at, something follows flags, width, precision and length
modifiers, and the numbers fit. It does not look behind the first conversion
for which there is no code. -/
inductive Tame : Nat → Text → Prop where
  | done (n : Nat) : Tame n []
  | char {n : Nat} {c : UInt8} {t : Text} (hc : c ≠ 37) (h : Tame n t) : Tame n (c :: t)
  | percent {n : Nat} {t : Text} (h : Tame n t) : Tame n (37 :: 37 :: t)
  | invalid {n : Nat} {c : UInt8} {t rest : Text} (hne : t.head? ≠ some 37) (hfit : NumbersFit t)
    (hspec : specifier t = c :: rest) (hc : isalpha c = false) (h : Tame n t) : Tame n (37 :: t)
  | conversion {n : Nat} {c : UInt8} {t rest : Text} (hne : t.head? ≠ some 37)
    (hfit : NumbersFit t) (hspec : specifier t = c :: rest) (hc : isalpha c = true)
    (h : Tame n rest) : Tame (n + 1) (37 :: t)
  | surplus {c : UInt8} {t rest : Text} (hne : t.head? ≠ some 37) (hfit : NumbersFit t)
    (hspec : specifier t = c :: rest) (hc : isalpha c = true) : Tame 0 (37 :: t)

theorem scanFlags_cases : ∀ (t : Text) (spec : CFormatSpec),
    (afterFlags t = [] ∧ scanFlags t spec = .error .overread)
      ∨ afterFlags t ≠ [] ∧ ∃ spec', scanFlags t spec = .ok (spec', afterFlags t)
  | [], spec => .inl ⟨rfl, rfl⟩
  | c :: t, spec => by
      rw [scanFlags, afterFlags]
      cases hc : isFlagChar c with
      | true =>
        rw [List.dropWhile_cons_of_pos hc]
        exact scanFlags_cases t (spec.flag c)
      | false =>
        rw [List.dropWhile_cons_of_neg (by simp [hc])]
        exact .inr ⟨List.cons_ne_nil c t, spec, rfl⟩

theorem scanLengthModifiers_cases : ∀ (t : Text),
    (t.dropWhile isLengthModifier = [] ∧ scanLengthModifiers t = .error .overread)
      ∨ t.dropWhile isLengthModifier ≠ []
        ∧ scanLengthModifiers t = .ok (t.dropWhile isLengthModifier)
  | [] => .inl ⟨rfl, rfl⟩
  | c :: t => by
      rw [scanLengthModifiers]
      cases hc : isLengthModifier c with
      | true =>
        rw [List.dropWhile_cons_of_pos hc]
        exact scanLengthModifiers_cases t
      | false =>
        rw [List.dropWhile_cons_of_neg (by simp [hc])]
        exact .inr ⟨List.cons_ne_nil c t, rfl⟩

theorem stoi_cases (ds : Text) : (¬ FitsInt ds ∧ stoi ds = .error .outOfRange)
    ∨ FitsInt ds ∧ ∃ n, stoi ds = .ok n := by
  unfold stoi FitsInt
  dsimp only
  split
  · rename_i h
    exact .inr ⟨h, _, rfl⟩
  · rename_i h
    exact .inl ⟨h, rfl⟩

theorem fitsInt_nil : FitsInt [] := Nat.zero_le _

theorem scanWidth_cases (t : Text) (spec : CFormatSpec) :
    (¬ FitsInt (t.takeWhile isdigit) ∧ ∃ e, scanWidth spec t = .error e)
      ∨ FitsInt (t.takeWhile isdigit)
        ∧ ∃ spec', scanWidth spec t = .ok (spec', t.dropWhile isdigit) := by
  unfold scanWidth
  dsimp only
  cases hds : t.takeWhile isdigit with
  | nil =>
    have happ := List.takeWhile_append_dropWhile (p := isdigit) (l := t)
    rw [hds, List.nil_append] at happ
    rw [happ]
    exact .inr ⟨fitsInt_nil, spec, rfl⟩
  | cons d ds =>
    rw [List.isEmpty_cons, if_neg Bool.false_ne_true]
    rcases stoi_cases (d :: ds) with ⟨hn, h⟩ | ⟨hf, n, h⟩
    · exact .inl ⟨hn, _, by rw [h]; rfl⟩
    · exact .inr ⟨hf, _, by rw [h]; rfl⟩

theorem scanPrecision_cases (t : Text) (spec : CFormatSpec) :
    (¬ FitsInt (digitsAfterPeriod t) ∧ ∃ e, scanPrecision spec t = .error e)
      ∨ FitsInt (digitsAfterPeriod t)
        ∧ ∃ spec', scanPrecision spec t = .ok (spec', afterPeriod t) := by
  by_cases h46 : t.head? = some 46
  · obtain ⟨t, rfl⟩ : ∃ t', t = 46 :: t' := by
      cases t with
      | nil => cases h46
      | cons c t =>
        cases h46
        exact ⟨t, rfl⟩
    rw [scanPrecision, digitsAfterPeriod, afterPeriod]
    cases hds : t.takeWhile isdigit with
    | nil =>
      have happ := List.takeWhile_append_dropWhile (p := isdigit) (l := t)
      rw [hds, List.nil_append] at happ
      rw [happ]
      exact .inr ⟨fitsInt_nil, _, rfl⟩
    | cons d ds =>
      rw [List.isEmpty_cons, if_neg Bool.false_ne_true]
      rcases stoi_cases (d :: ds) with ⟨hn, h⟩ | ⟨hf, n, h⟩
      · exact .inl ⟨hn, _, by rw [h]; rfl⟩
      · exact .inr ⟨hf, _, by rw [h]; rfl⟩
  · have hnone : digitsAfterPeriod t = [] ∧ afterPeriod t = t := by
      unfold digitsAfterPeriod afterPeriod
      split
      · exact absurd rfl h46
      · exact ⟨rfl, rfl⟩
    rw [hnone.1, hnone.2, scanPrecision_ne spec h46]
    exact .inr ⟨fitsInt_nil, spec, rfl⟩

/-- What `getFormatParamSpec` makes of a text: it fails, or it finds what
stands where the specifier is expected. -/
theorem getFormatParamSpec_cases {t : Text} (hne : t.head? ≠ some 37) :
    (¬ (NumbersFit t ∧ specifier t ≠ []) ∧ ∃ e, QuickTrace.getFormatParamSpec t = .error e)
      ∨ NumbersFit t ∧ ∃ c rest spec, specifier t = c :: rest
        ∧ QuickTrace.getFormatParamSpec t
          = .ok (if isalpha c then some ⟨c, spec, rest⟩ else none) := by
  rw [getFormatParamSpec_ne hne]
  rcases scanFlags_cases t CFormatSpec.zero with ⟨hnil, h₁⟩ | ⟨-, spec₁, h₁⟩
  · refine .inl ⟨fun h => h.2 ?_, _, by rw [h₁]; rfl⟩
    simp [specifier, afterWidth, hnil, afterPeriod]
  rw [h₁, ok_bind]
  dsimp only
  rcases scanWidth_cases (afterFlags t) spec₁ with ⟨hn, e, h₂⟩ | ⟨hw, spec₂, h₂⟩
  · exact .inl ⟨fun h => hn h.1.1, e, by rw [h₂]; rfl⟩
  rw [h₂, ok_bind]
  dsimp only
  rcases scanPrecision_cases (afterWidth t) spec₂ with ⟨hn, e, h₃⟩ | ⟨hp, spec₃, h₃⟩
  · refine .inl ⟨fun h => hn h.1.2, e, ?_⟩
    rw [afterWidth] at h₃
    rw [h₃]
    rfl
  rw [afterWidth] at h₃
  rw [h₃, ok_bind]
  dsimp only
  rcases scanLengthModifiers_cases (afterPeriod (afterWidth t)) with ⟨hnil, h₄⟩ | ⟨hsome, h₄⟩
  · refine .inl ⟨fun h => h.2 hnil, .overread, ?_⟩
    rw [afterWidth] at h₄
    rw [h₄]
    rfl
  · obtain ⟨c, rest, hspec⟩ := List.exists_cons_of_ne_nil hsome
    refine .inr ⟨⟨hw, hp⟩, c, rest, spec₃, hspec, ?_⟩
    rw [hspec, afterWidth] at h₄
    rw [h₄]
    rfl

/-! ## Texts that can be tokenized -/

/-- With what the search for the next conversion finds in a text, the text
is tame. -/
def TameNext (n : Nat) : Except FormatError (Option (Text × ParamSpec)) → Prop
  | .error _ => False
  | .ok none => True
  | .ok (some (_, p)) =>
    if p.conversionSpecifier = 37 then Tame n p.rest
    else match n with
      | 0 => True
      | n + 1 => Tame n p.rest

/-- The text in front of a conversion does not matter. -/
theorem tameNext_map (n : Nat) (c : UInt8) (x : Except FormatError (Option (Text × ParamSpec))) :
    TameNext n (x.map fun o => o.map fun q => (c :: q.1, q.2)) = TameNext n x := by
  cases x with
  | error e => rfl
  | ok o => cases o with
    | none => rfl
    | some q => rfl

theorem tame_char_iff {n : Nat} {c : UInt8} {t : Text} (hc : c ≠ 37) :
    Tame n (c :: t) ↔ Tame n t := by
  constructor
  · intro h
    cases h with
    | char _ h => exact h
    | _ => exact absurd rfl hc
  · exact .char hc

theorem tame_percent_iff {n : Nat} {t : Text} : Tame n (37 :: 37 :: t) ↔ Tame n t := by
  constructor
  · intro h
    cases h with
    | char hc _ => exact absurd rfl hc
    | percent h => exact h
    | invalid hne _ _ _ _ => exact absurd rfl hne
    | conversion hne _ _ _ _ => exact absurd rfl hne
    | surplus hne _ _ _ => exact absurd rfl hne
  · exact .percent

section

variable {n : Nat} {c : UInt8} {t rest : Text}

/-- A percent sign in front of something else. -/
theorem Tame.needs (hne : t.head? ≠ some 37) (h : Tame n (37 :: t)) :
    NumbersFit t ∧ specifier t ≠ [] := by
  cases h with
  | char hc _ => exact absurd rfl hc
  | percent _ => exact absurd rfl hne
  | invalid _ hfit hspec _ _ => exact ⟨hfit, by simp [hspec]⟩
  | conversion _ hfit hspec _ _ => exact ⟨hfit, by simp [hspec]⟩
  | surplus _ hfit hspec _ => exact ⟨hfit, by simp [hspec]⟩

theorem tame_invalid_iff (hne : t.head? ≠ some 37) (hfit : NumbersFit t)
    (hspec : specifier t = c :: rest) (halpha : isalpha c = false) :
    Tame n (37 :: t) ↔ Tame n t := by
  constructor
  · intro h
    cases h with
    | char hc _ => exact absurd rfl hc
    | percent _ => exact absurd rfl hne
    | invalid _ _ _ _ h => exact h
    | conversion _ _ hspec' hc _ =>
      cases hspec.symm.trans hspec'
      cases halpha.symm.trans hc
    | surplus _ _ hspec' hc =>
      cases hspec.symm.trans hspec'
      cases halpha.symm.trans hc
  · exact .invalid hne hfit hspec halpha

theorem tame_conversion_iff (hne : t.head? ≠ some 37) (hfit : NumbersFit t)
    (hspec : specifier t = c :: rest) (halpha : isalpha c = true) :
    Tame n (37 :: t) ↔ match n with
      | 0 => True
      | n + 1 => Tame n rest := by
  constructor
  · intro h
    cases h with
    | char hc _ => exact absurd rfl hc
    | percent _ => exact absurd rfl hne
    | invalid _ _ hspec' hc _ =>
      cases hspec.symm.trans hspec'
      cases halpha.symm.trans hc
    | conversion _ _ hspec' _ h =>
      cases hspec.symm.trans hspec'
      exact h
    | surplus _ _ _ _ => trivial
  · intro h
    cases n with
    | zero => exact .surplus hne hfit hspec halpha
    | succ n => exact .conversion hne hfit hspec halpha h

end

theorem tame_iff_next (n : Nat) (t : Text) : Tame n t ↔ TameNext n (nextParam t) := by
  induction t with
  | nil => exact ⟨fun _ => trivial, fun _ => .done n⟩
  | cons c t ih =>
    rw [nextParam]
    by_cases hc : c = 37
    · subst hc
      rw [if_pos rfl]
      by_cases hne : t.head? = some 37
      · obtain ⟨t, rfl⟩ : ∃ t', t = 37 :: t' := by
          cases t with
          | nil => cases hne
          | cons c t =>
            cases hne
            exact ⟨t, rfl⟩
        exact tame_percent_iff
      · rcases getFormatParamSpec_cases hne with ⟨hn, e, he⟩ | ⟨hfit, c, rest, spec, hspec, hp⟩
        · rw [he]
          exact ⟨fun h => hn (h.needs hne), fun h => by cases h⟩
        · rw [hp, ok_bind]
          cases halpha : isalpha c with
          | false =>
            rw [if_neg Bool.false_ne_true, tame_invalid_iff hne hfit hspec halpha, ih]
            exact (tameNext_map n 37 _ ▸ Iff.rfl)
          | true =>
            rw [if_pos rfl, tame_conversion_iff hne hfit hspec halpha]
            simp [TameNext, pure, Except.pure, isalpha_ne_percent halpha]
    · rw [if_neg hc, tame_char_iff hc, ih]
      exact (tameNext_map n c _ ▸ Iff.rfl)

/-! ## The loop over the text -/

theorem specifier_suffix (t : Text) : specifier t <:+ t := by
  have hperiod : ∀ t : Text, afterPeriod t <:+ t := by
    intro t
    unfold afterPeriod
    split
    · exact (List.dropWhile_suffix _).trans (List.suffix_cons _ _)
    · exact List.suffix_rfl
  exact (List.dropWhile_suffix _).trans ((hperiod _).trans
    ((List.dropWhile_suffix _).trans (List.dropWhile_suffix _)))

/-- A conversion takes at least one character. -/
theorem getFormatParamSpec_length {t : Text} {p : ParamSpec}
    (h : QuickTrace.getFormatParamSpec t = .ok (some p)) : p.rest.length < t.length := by
  by_cases hne : t.head? = some 37
  · cases t with
    | nil => cases hne
    | cons c t =>
      cases hne
      cases h
      exact Nat.lt_succ_self _
  · rcases getFormatParamSpec_cases hne with ⟨-, e, he⟩ | ⟨-, c, rest, spec, hspec, hp⟩
    · rw [he] at h
      cases h
    · rw [hp] at h
      have hle := (specifier_suffix t).length_le
      rw [hspec, List.length_cons] at hle
      split at h
      · cases h
        exact hle
      · cases h

theorem nextParam_length : ∀ {t before : Text} {p : ParamSpec},
    nextParam t = .ok (some (before, p)) → p.rest.length < t.length
  | [], before, p, h => by cases h
  | c :: t, before, p, h => by
      have hrest : (nextParam t).map (fun o => o.map fun q => (c :: q.1, q.2))
          = .ok (some (before, p)) → p.rest.length < (c :: t).length := by
        intro h
        obtain ⟨o, ho, h⟩ := map_eq_ok.mp h
        cases o with
        | none => cases h
        | some q =>
          cases h
          exact Nat.lt_succ_of_lt (nextParam_length ho)
      rw [nextParam] at h
      by_cases hc : c = 37
      · rw [if_pos hc] at h
        obtain ⟨here, hhere, h⟩ := bind_eq_ok.mp h
        cases here with
        | none => exact hrest h
        | some p' =>
          cases h
          exact Nat.lt_succ_of_lt (getFormatParamSpec_length hhere)
      · rw [if_neg hc] at h
        exact hrest h

/-- Over supported codes the loop comes to its end exactly if the text is
tame for their number. -/
theorem scan_ok_iff : ∀ (fuel : Nat) {t : Text} {b : Builder} {cs : List Code},
    t.length ≤ fuel → b.reg.Exact → b.fmtPtr = joinCodes cs →
    ((∃ r, b.scan fuel t = .ok r) ↔ Tame cs.length t)
  | 0, t, b, cs, hf, hr, hb => by
      have ht : t = [] := List.eq_nil_of_length_eq_zero (by omega)
      subst ht
      exact ⟨fun _ => .done _, fun _ => ⟨_, rfl⟩⟩
  | fuel + 1, [], b, cs, hf, hr, hb => ⟨fun _ => .done _, fun _ => ⟨_, rfl⟩⟩
  | fuel + 1, c :: t, b, cs, hf, hr, hb => by
      rw [tame_iff_next, Builder.scan, List.isEmpty_cons, if_neg Bool.false_ne_true]
      rcases hnext : nextParam (c :: t) with e | _ | ⟨before, p⟩
      · constructor
        · rintro ⟨r, hr⟩
          cases hr
        · intro h
          cases h
      · exact ⟨fun _ => trivial, fun _ => ⟨_, rfl⟩⟩
      · rw [ok_bind]
        dsimp only [TameNext]
        have hlen := nextParam_length hnext
        by_cases hp : p.conversionSpecifier = 37
        · rw [if_pos hp, if_pos hp]
          exact scan_ok_iff fuel (by omega) hr hb
        · rw [if_neg hp, if_neg hp]
          cases cs with
          | nil =>
            rw [hb, joinCodes_isEmpty, List.isEmpty_nil, if_pos rfl]
            exact ⟨fun _ => trivial, fun _ => ⟨_, rfl⟩⟩
          | cons d ds =>
            obtain ⟨reg', hreg', hadd⟩ := Builder.addParam_joinCodes hr hb before p
            rw [hb, joinCodes_isEmpty, List.isEmpty_cons, if_neg Bool.false_ne_true, hadd, ok_bind]
            exact scan_ok_iff fuel (by omega) hreg' rfl

/-! ## The constructor -/

/-- The codes that the placeholders can take: of a wall-clock message not the
two in front. -/
def placeable (lineno : Nat) (cs : List Code) : List Code :=
  if MessageFormatter.isWallClock lineno (joinCodes cs) then cs.drop 2 else cs

/-- A wall-clock key starts with two codes. -/
theorem joinCodes_drop {lineno : Nat} {cs : List Code}
    (h : MessageFormatter.isWallClock lineno (joinCodes cs) = true) :
    (joinCodes cs).drop MessageFormatter.wcFormatStr.length = joinCodes (cs.drop 2) := by
  simp only [MessageFormatter.isWallClock, Bool.and_eq_true, List.isPrefixOf_iff_prefix] at h
  obtain ⟨rest, hrest⟩ := h.2
  have hkey : joinCodes cs = 113 :: 44 :: 113 :: 44 :: rest := hrest.symm
  have hdrop : (joinCodes cs).drop MessageFormatter.wcFormatStr.length = rest := by
    rw [hkey]
    rfl
  rw [hdrop]
  rcases cs with _ | ⟨c, cs⟩
  · cases hkey
  have hcs : joinCodes cs = 113 :: 44 :: rest := by
    rw [← dropWhile_joinCodes c cs, hkey]
    rfl
  rcases cs with _ | ⟨d, cs⟩
  · cases hcs
  show rest = joinCodes cs
  rw [← dropWhile_joinCodes d cs, hcs]
  rfl

theorem start_fmtPtr (reg : Registry) (lineno : Nat) (cs : List Code) :
    (MessageFormatter.start reg lineno (joinCodes cs)).fmtPtr = joinCodes (placeable lineno cs) := by
  unfold MessageFormatter.start placeable
  cases h : MessageFormatter.isWallClock lineno (joinCodes cs) with
  | true => exact joinCodes_drop h
  | false => rfl

/-- Over supported codes only the text decides whether a formatter can be
built. -/
theorem init_ok_iff {reg : Registry} (hr : reg.Exact) (lineno : Nat) {msg : Text}
    (hmsg : ∀ c ∈ msg, c ≠ 0) (cs : List Code) :
    (∃ r, MessageFormatter.init reg lineno msg (joinCodes cs) = .ok r)
      ↔ Tame (placeable lineno cs).length msg := by
  have hstart : (MessageFormatter.start reg lineno (joinCodes cs)).reg.Exact := by
    rw [MessageFormatter.start_reg]
    exact hr
  rw [← scan_ok_iff msg.length (Nat.le_refl _) hstart (start_fmtPtr reg lineno cs)]
  unfold MessageFormatter.init
  rw [c_str_eq hmsg, c_str_eq (joinCodes_ne_zero cs)]
  dsimp only
  constructor
  · rintro ⟨r, h⟩
    obtain ⟨a, ha, -⟩ := bind_eq_ok.mp h
    exact ⟨a, ha⟩
  · rintro ⟨⟨rest, b⟩, h⟩
    have hb : b.reg.Exact := Builder.scan_keeps Builder.addFormatter_exact _ _ hstart h
    rw [h, ok_bind, MessageFormatter.finish]
    split
    · obtain ⟨reg', -, hfall⟩ := MessageFormatter.fallback_joinCodes hb msg cs
      dsimp only
      rw [hfall]
      exact ⟨_, rfl⟩
    · exact ⟨_, rfl⟩

/-- Compiling a message format is safe: `init` comes to its end without an
access outside the text and without an exception, and the pieces it recorded
start and end in the text. -/
def Safe (reg : Registry) (lineno : Nat) (msg fmt : Text) : Prop :=
  ∃ s, init reg lineno msg fmt = .ok s
    ∧ ∀ o, .piece o ∈ s.formatters → EndsBy s.buf msg.length o

theorem safe_iff_init (reg : Registry) (lineno : Nat) {msg fmt : Text} (hmsg : ∀ c ∈ msg, c ≠ 0)
    (hfmt : ∀ c ∈ fmt, c ≠ 0) :
    Safe reg lineno msg fmt ↔ ∃ r, MessageFormatter.init reg lineno msg fmt = .ok r := by
  have h := init_view reg lineno hmsg hfmt
  constructor
  · rintro ⟨s, hs, -⟩
    obtain ⟨r, hr, -⟩ := h.ok_of hs
    exact ⟨r, hr⟩
  · rintro ⟨r, hr⟩
    obtain ⟨s, hs, hrec⟩ := h.of_ok hr
    exact ⟨s, hs, hrec.pieces⟩

/-- For every text and every key of supported codes, at any time: compiling
is safe exactly if the text is tame for the codes that placeholders can
take. -/
theorem safe_iff {reg : Registry} (hreg : reg.Reachable) (lineno : Nat) {msg : Text}
    (hmsg : ∀ c ∈ msg, c ≠ 0) (cs : List Code) :
    Safe reg lineno msg (joinCodes cs) ↔ Tame (placeable lineno cs).length msg := by
  rw [safe_iff_init reg lineno hmsg (joinCodes_ne_zero cs)]
  exact init_ok_iff hreg.exact lineno hmsg cs

/-- The text ends behind the length modifiers of a valid conversion. -/
theorem safe_iff_open : Safe Registry.initial 1 (ascii ['a', '%', '-', '5', 'l'])
    (joinCodes [.base .u64]) ↔ Tame 1 (ascii ['a', '%', '-', '5', 'l']) :=
  safe_iff .initial 1 (forall_mem_text (by decide)) [.base .u64]

/-- A lone percent sign and an endless width. -/
theorem percent_overreads :
    (¬ Safe Registry.initial 1 (ascii ['%']) (joinCodes []))
    ∧ ¬ Safe Registry.initial 1 (37 :: List.replicate 11 57 ++ [100]) (joinCodes [.base .u32]) := by
  constructor
  · rw [safe_iff_init _ _ (forall_mem_text (by decide)) (joinCodes_ne_zero [])]
    rintro ⟨r, hr⟩
    cases hr
  · rw [safe_iff_init _ _ (forall_mem_text (by decide)) (joinCodes_ne_zero [.base .u32])]
    rintro ⟨r, hr⟩
    cases hr

end QuickTrace.Tokenizer
