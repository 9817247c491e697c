/-
QuickTrace.Format.RoundTrip — decoding undoes encoding.

`Builder.Inv` says which types of the key a loop of `init` has consumed. A
loop that ends well has passed only plain optionals (`scan_sound`,
`emitAll_sound`), and over plain optionals it ends well whenever the text
can be scanned (`scan_shallow`, `emitAll_shallow`). What follows is exact:
`decodes_iff` says for which argument lists and texts the formatter built
from the key of the arguments recovers them.
-/
import QuickTrace.Lib.Result
import QuickTrace.Format.MessageFormatterTheorems

namespace QuickTrace

open QuickTrace.Lib RingBuf

/-- At most one optional around a scalar or a string. -/
def Ty.Shallow (t : Ty) : Prop := t.optDepth ≤ 1

instance (t : Ty) : Decidable t.Shallow := inferInstanceAs (Decidable (_ ≤ _))

/-- Formatters that fit a list of types. -/
def FormattersFit (es : List Entry) (ts : List Ty) : Prop :=
  List.Forall₂ (fun f t => Formatter.fits f t = true) (params es) ts

/-- Length functions that fit a list of types. -/
def LengthsFit (ls : List Length) (ts : List Ty) : Prop :=
  List.Forall₂ (fun l t => Length.fits l t = true) ls ts

theorem formattersFit_param {f : Formatter} {t : Ty} (h : f.fits t = true) :
    FormattersFit [.param f] [t] := List.Forall₂.cons h .nil

theorem formattersFit_other {e : Entry} (h : params [e] = []) : FormattersFit [e] [] := by
  unfold FormattersFit
  rw [h]
  exact .nil

theorem lengthsFit_single {l : Length} {t : Ty} (h : l.fits t = true) : LengthsFit [l] [t] :=
  List.Forall₂.cons h .nil

theorem FormattersFit.append {xs ys : List Entry} {ts us : List Ty} (h1 : FormattersFit xs ts)
    (h2 : FormattersFit ys us) : FormattersFit (xs ++ ys) (ts ++ us) := by
  unfold FormattersFit
  rw [params_append]
  exact List.rel_append h1 h2

theorem LengthsFit.append {xs ys : List Length} {ts us : List Ty} (h1 : LengthsFit xs ts)
    (h2 : LengthsFit ys us) : LengthsFit (xs ++ ys) (ts ++ us) :=
  List.rel_append h1 h2

namespace Builder

/-- The loops have consumed the types `ts` of the key and `us` are left;
`es` and `ls` were there before. -/
structure Inv (es : List Entry) (ls : List Length) (ts us : List Ty) (b : Builder) : Prop where
  shallow : ∀ t ∈ ts, t.Shallow
  fmtPtr : b.fmtPtr = joinKeys us
  reg : b.reg.Ok
  formatters : ∃ es', b.formatters = es ++ es' ∧ FormattersFit es' ts
  lengths : ∃ ls', b.lengths = ls ++ ls' ∧ LengthsFit ls' ts

variable {es : List Entry} {ls : List Length} {ts us : List Ty} {b b' : Builder}

theorem Inv.push (h : Inv es ls ts us b) {e : Entry} (he : params [e] = []) :
    Inv es ls ts us (b.push e) := by
  obtain ⟨es', h1, h2⟩ := h.formatters
  refine ⟨h.shallow, h.fmtPtr, h.reg, ⟨es' ++ [e], ?_, ?_⟩, h.lengths⟩
  · simp [Builder.push, h1]
  · have := h2.append (formattersFit_other he)
    rwa [List.append_nil] at this

theorem Inv.pushIf (h : Inv es ls ts us b) {c : Bool} {e : Entry} (he : params [e] = []) :
    Inv es ls ts us (b.pushIf c e) := by
  unfold Builder.pushIf
  split
  · exact h.push he
  · exact h

/-! ## One parameter -/

/-- A parameter that is added was a plain optional at most. -/
theorem addFormatter_sound {t : Ty} (h : Inv es ls ts (t :: us) b) {conv : UInt8}
    (hb : b.addFormatter conv = .ok b') : Inv es ls (ts ++ [t]) us b' := by
  have hfmt := fmt_joinKeys h.fmtPtr
  have hshallow : t.Shallow := by
    by_contra hd
    obtain ⟨e, he⟩ := selectLength_deep hd
    unfold addFormatter at hb
    split at hb
    · cases hb
    · rw [hfmt, he] at hb; cases hb
  obtain ⟨f, hf, hffit⟩ := selectFormatter_shallow h.reg hshallow (isHexConversion conv)
  obtain ⟨l, hl, hlfit⟩ := selectLength_shallow hshallow
  have hreg := selectFormatter_ok h.reg (formatString t) (isHexConversion conv)
  unfold addFormatter at hb
  rw [hfmt, hl] at hb
  rcases hsel : selectFormatter b.reg (formatString t) (isHexConversion conv) with ⟨f', reg'⟩
  rw [hsel] at hb hf hreg
  simp only at hf
  subst hf
  simp only [Except.map, Except.ok.injEq] at hb
  subst hb
  obtain ⟨es', h1, h2⟩ := h.formatters
  obtain ⟨ls', h3, h4⟩ := h.lengths
  refine ⟨fun s hs => ?_, afterFmt_joinKeys h.fmtPtr, hreg,
    ⟨es' ++ [.param f], by simp [h1], h2.append (formattersFit_param hffit)⟩,
    ⟨ls' ++ [l], by simp [h3], h4.append (lengthsFit_single hlfit)⟩⟩
  rcases List.mem_append.mp hs with hs | hs
  · exact h.shallow s hs
  · rw [List.mem_singleton.mp hs]; exact hshallow

/-- A plain optional at most can be added. -/
theorem addFormatter_shallow {t : Ty} (h : Inv es ls ts (t :: us) b) (ht : t.Shallow)
    (conv : UInt8) : ∃ b', b.addFormatter conv = .ok b' := by
  obtain ⟨f, hf, -⟩ := selectFormatter_shallow h.reg ht (isHexConversion conv)
  obtain ⟨l, hl, -⟩ := selectLength_shallow ht
  unfold addFormatter
  rw [fmt_joinKeys h.fmtPtr, hl]
  rcases hsel : selectFormatter b.reg (formatString t) (isHexConversion conv) with ⟨f', reg'⟩
  rw [hsel] at hf
  simp only at hf
  subst hf
  exact ⟨_, rfl⟩

theorem addParam_sound {t : Ty} (h : Inv es ls ts (t :: us) b) {before : Text} {p : ParamSpec}
    (hb : b.addParam before p = .ok b') : Inv es ls (ts ++ [t]) us b' := by
  unfold addParam at hb
  obtain ⟨b₁, hb₁, rfl⟩ := map_eq_ok.mp hb
  exact (addFormatter_sound (((h.pushIf rfl).pushIf rfl).pushIf rfl) hb₁).pushIf rfl

theorem addParam_shallow {t : Ty} (h : Inv es ls ts (t :: us) b) (ht : t.Shallow)
    (before : Text) (p : ParamSpec) : ∃ b', b.addParam before p = .ok b' := by
  have h' := ((h.pushIf (c := !before.isEmpty) (e := .formatStatic before) rfl).pushIf
    (c := p.conversionSpecifier == 112) (e := .formatStatic (ascii ['0', 'x'])) rfl).pushIf
    (c := p.cFormatSpec != CFormatSpec.zero) (e := .applyCFormatSpec p.cFormatSpec) rfl
  obtain ⟨b₁, hb₁⟩ := addFormatter_shallow h' ht p.conversionSpecifier
  exact ⟨_, by unfold addParam; simp only; rw [hb₁]; rfl⟩

/-! ## The loop over the text -/

/-- What the scan of a text asks for: whether it comes to the end of the
text when `k` parameters are left, and how many are left then. -/
def conversions : Nat → Text → Nat → Except FormatError (Bool × Nat)
  | 0, msgPtr, k => .ok (msgPtr.isEmpty, k)
  | fuel + 1, msgPtr, k =>
    if msgPtr.isEmpty then .ok (true, k)
    else do
      match ← nextParam msgPtr with
      | none => return (true, k)
      | some (_, p) =>
        if p.conversionSpecifier = 37 then conversions fuel p.rest k
        else if k = 0 then return (false, 0)
        else conversions fuel p.rest (k - 1)

theorem scan_sound : ∀ (fuel : Nat) (msgPtr : Text) {b b' : Builder} {ts us : List Ty}
    {rest : Text}, Inv es ls ts us b → b.scan fuel msgPtr = .ok (rest, b') →
    ∃ ts' us', us = ts' ++ us' ∧ Inv es ls (ts ++ ts') us' b'
  | 0, msgPtr, b, b', ts, us, rest, h, hb => by
      simp only [scan, Except.ok.injEq, Prod.mk.injEq] at hb
      exact ⟨[], us, rfl, by rw [List.append_nil, ← hb.2]; exact h⟩
  | fuel + 1, msgPtr, b, b', ts, us, rest, h, hb => by
      rw [scan] at hb
      split at hb
      · simp only [Except.ok.injEq, Prod.mk.injEq] at hb
        exact ⟨[], us, rfl, by rw [List.append_nil, ← hb.2]; exact h⟩
      · obtain ⟨o, -, hb⟩ := bind_eq_ok.mp hb
        rcases o with _ | ⟨before, p⟩
        · simp only [pure, Except.pure, Except.ok.injEq, Prod.mk.injEq] at hb
          exact ⟨[], us, rfl, by rw [List.append_nil, ← hb.2]; exact h.push rfl⟩
        · simp only at hb
          split at hb
          · exact scan_sound fuel p.rest (h.push rfl) hb
          · split at hb
            · simp only [pure, Except.pure, Except.ok.injEq, Prod.mk.injEq] at hb
              exact ⟨[], us, rfl, by rw [List.append_nil, ← hb.2]; exact h⟩
            · rename_i hne
              obtain ⟨b₁, hb₁, hb⟩ := bind_eq_ok.mp hb
              cases us with
              | nil => exact absurd (by rw [h.fmtPtr]; rfl) hne
              | cons t us =>
                obtain ⟨ts', us', rfl, h'⟩ := scan_sound fuel p.rest (addParam_sound h hb₁) hb
                exact ⟨t :: ts', us', rfl, by rwa [List.append_assoc] at h'⟩

/-- Over plain optionals the loop does what `conversions` says. -/
theorem scan_shallow : ∀ (fuel : Nat) (msgPtr : Text) {b : Builder} {ts us : List Ty},
    Inv es ls ts us b → (∀ t ∈ us, t.Shallow) →
    match conversions fuel msgPtr us.length with
    | .error e => b.scan fuel msgPtr = .error e
    | .ok (done, k) => ∃ rest b' ts' us', b.scan fuel msgPtr = .ok (rest, b')
        ∧ rest.isEmpty = done ∧ us'.length = k ∧ us = ts' ++ us' ∧ Inv es ls (ts ++ ts') us' b'
  | 0, msgPtr, b, ts, us, h, _ =>
      ⟨msgPtr, b, [], us, rfl, rfl, rfl, rfl, by rw [List.append_nil]; exact h⟩
  | fuel + 1, msgPtr, b, ts, us, h, hs => by
      rw [conversions, scan]
      by_cases hm : msgPtr.isEmpty = true
      · rw [if_pos hm, if_pos hm]
        exact ⟨msgPtr, b, [], us, rfl, hm, rfl, rfl, by rw [List.append_nil]; exact h⟩
      · rw [if_neg hm, if_neg hm]
        rcases hn : nextParam msgPtr with e | _ | ⟨before, p⟩
        · rfl
        · exact ⟨[], _, [], us, rfl, rfl, rfl, rfl, by rw [List.append_nil]; exact h.push rfl⟩
        · simp only [bind, Except.bind]
          by_cases hp : p.conversionSpecifier = 37
          · simp only [if_pos hp]
            exact scan_shallow fuel p.rest (h.push rfl) hs
          · simp only [if_neg hp]
            cases us with
            | nil =>
              have he : b.fmtPtr.isEmpty = true := by rw [h.fmtPtr]; rfl
              simp only [List.length_nil, if_true, he]
              refine ⟨msgPtr, b, [], [], rfl, ?_, rfl, rfl, by rw [List.append_nil]; exact h⟩
              simpa using hm
            | cons t us =>
              have hne : b.fmtPtr.isEmpty = false := by
                rw [h.fmtPtr, List.isEmpty_eq_false_iff]
                exact fun he => nomatch joinKeys_eq_nil.mp he
              obtain ⟨b₁, hb₁⟩ := addParam_shallow h (hs t (by simp)) before p
              have hstep := addParam_sound h hb₁
              have ih := scan_shallow fuel p.rest hstep fun u hu => hs u (by simp [hu])
              simp only [List.length_cons, Nat.succ_ne_zero, if_false, hne, hb₁,
                Bool.false_eq_true, Nat.add_sub_cancel]
              revert ih
              rcases conversions fuel p.rest us.length with e | ⟨done, k⟩
              · exact id
              · rintro ⟨rest, b', ts', us', h1, h2, h3, rfl, h5⟩
                exact ⟨rest, b', t :: ts', us', h1, h2, h3, rfl, by
                  rwa [List.append_assoc] at h5⟩

/-! ## The loop over the key -/

theorem joinKeys_length_lt (t : Ty) (us : List Ty) :
    (joinKeys us).length < (joinKeys (t :: us)).length := by
  have hpos : 0 < (formatString t).length :=
    List.length_pos_iff.mpr (formatString_code t).1
  cases us with
  | nil => simpa [joinKeys] using hpos
  | cons u us =>
    rw [joinKeys_cons, List.length_append, List.length_cons]
    omega

theorem emitAll_sound : ∀ (fuel : Nat) (first : Bool) {b b' : Builder} {ts us : List Ty},
    (joinKeys us).length ≤ fuel → Inv es ls ts us b → b.emitAll fuel first = .ok b' →
    Inv es ls (ts ++ us) [] b'
  | 0, first, b, b', ts, us, hf, h, hb => by
      have hus : us = [] := joinKeys_eq_nil.mp (List.eq_nil_of_length_eq_zero (by omega))
      subst hus
      cases hb
      rwa [List.append_nil]
  | fuel + 1, first, b, b', ts, us, hf, h, hb => by
      rw [emitAll] at hb
      cases us with
      | nil =>
        rw [if_pos (by rw [h.fmtPtr]; rfl)] at hb
        cases hb
        rwa [List.append_nil]
      | cons t us =>
        have hne : ¬ b.fmtPtr.isEmpty = true := by
          rw [h.fmtPtr, List.isEmpty_iff]
          exact fun he => nomatch joinKeys_eq_nil.mp he
        rw [if_neg hne] at hb
        obtain ⟨b₁, hb₁, hb⟩ := bind_eq_ok.mp hb
        have hlt := joinKeys_length_lt t us
        have := emitAll_sound fuel false (by omega) (addFormatter_sound (h.pushIf rfl) hb₁) hb
        rwa [List.append_assoc] at this

theorem emitAll_shallow : ∀ (fuel : Nat) (first : Bool) {b : Builder} {ts us : List Ty},
    (∀ t ∈ us, t.Shallow) → Inv es ls ts us b → ∃ b', b.emitAll fuel first = .ok b'
  | 0, first, b, ts, us, _, _ => ⟨b, rfl⟩
  | fuel + 1, first, b, ts, us, hs, h => by
      rw [emitAll]
      by_cases hb : b.fmtPtr.isEmpty = true
      · exact ⟨b, by rw [if_pos hb]⟩
      · rw [if_neg hb]
        cases us with
        | nil => exact absurd (by rw [h.fmtPtr]; rfl) hb
        | cons t us =>
          have hcomma := h.pushIf (c := !first) (e := .formatStatic (ascii [','])) rfl
          obtain ⟨b₁, hb₁⟩ := addFormatter_shallow hcomma (hs t (by simp)) 115
          obtain ⟨b', hb'⟩ := emitAll_shallow fuel false (fun u hu => hs u (by simp [hu]))
            (addFormatter_sound hcomma hb₁)
          exact ⟨b', by simp only [hb₁, bind, Except.bind]; exact hb'⟩

end Builder

/-! ## The constructor -/

namespace MessageFormatter

/-- The formatter decodes messages with arguments of these types; of a
wall-clock message it skips the two leading fields. -/
inductive Describes (mf : MessageFormatter) : List Ty → Prop where
  | plain {ts : List Ty} (h1 : FormattersFit mf.formatters ts) (h2 : LengthsFit mf.lengths ts) :
    Describes mf ts
  | wallClock {t u : Ty} {ts : List Ty} {es : List Entry} {ls : List Length}
    (ht : formatString t = ascii ['q']) (hu : formatString u = ascii ['q'])
    (he : mf.formatters = .param .wallClockRingBuf :: es) (h1 : FormattersFit es ts)
    (hl : mf.lengths = .wallClock :: ls) (h2 : LengthsFit ls ts) : Describes mf (t :: u :: ts)

theorem c_str_joinKeys (ts : List Ty) : c_str (joinKeys ts) = joinKeys ts :=
  takeWhile_ne_zero (joinKeys_ne_zero ts)

/-- The types behind a wall-clock prefix. -/
theorem isWallClock_joinKeys {lineno : Nat} {ts : List Ty}
    (h : isWallClock lineno (joinKeys ts) = true) :
    ∃ t u us, ts = t :: u :: us ∧ formatString t = ascii ['q'] ∧ formatString u = ascii ['q']
      ∧ (joinKeys ts).drop wcFormatStr.length = joinKeys us := by
  simp only [isWallClock, Bool.and_eq_true, List.isPrefixOf_iff_prefix] at h
  obtain ⟨rest, hrest⟩ := h.2
  have hrest' : joinKeys ts = 113 :: 44 :: 113 :: 44 :: rest := hrest.symm
  rcases ts with _ | ⟨t, ts⟩
  · cases hrest'
  obtain ⟨ht, hts⟩ := joinKeys_eq_cons (by decide) hrest'
  rcases ts with _ | ⟨u, us⟩
  · cases hts
  obtain ⟨hu, hus⟩ := joinKeys_eq_cons (by decide) hts
  exact ⟨t, u, us, rfl, ht, hu, by rw [hrest', hus]; rfl⟩

/-- The entries the loop starts with, and the types in front of those it
works on. -/
theorem start_inv {reg : Registry} (hr : reg.Ok) (lineno : Nat) (ts : List Ty) :
    (isWallClock lineno (joinKeys ts) = false
        ∧ Builder.Inv [] [] [] ts (start reg lineno (joinKeys ts)))
      ∨ isWallClock lineno (joinKeys ts) = true ∧ ∃ t u us, ts = t :: u :: us
        ∧ formatString t = ascii ['q'] ∧ formatString u = ascii ['q']
        ∧ Builder.Inv [.param .wallClockRingBuf] [.wallClock] [] us
            (start reg lineno (joinKeys ts)) := by
  unfold start
  cases hw : isWallClock lineno (joinKeys ts) with
  | false =>
    exact Or.inl ⟨rfl, by simp, rfl, hr, ⟨[], rfl, .nil⟩, ⟨[], rfl, .nil⟩⟩
  | true =>
    obtain ⟨t, u, us, rfl, ht, hu, hdrop⟩ := isWallClock_joinKeys hw
    exact Or.inr ⟨rfl, t, u, us, rfl, ht, hu, by simp, hdrop, hr, ⟨[], rfl, .nil⟩,
      ⟨[], rfl, .nil⟩⟩

/-- A code of one character belongs to a scalar. -/
theorem shallow_of_code {t : Ty} {c : UInt8} (h : formatString t = [c]) : t.Shallow := by
  cases t with
  | opt t => simp [formatString, ascii] at h
  | _ => exact Nat.zero_le 1

theorem fallback_start {reg : Registry} (hr : reg.Ok) (msg : Text) (ts : List Ty) :
    Builder.Inv [.formatStatic msg, .formatStatic (ascii [' ', '%', ' ', '('])] [] [] ts
      { fmtPtr := joinKeys ts,
        formatters := [.formatStatic msg, .formatStatic (ascii [' ', '%', ' ', '('])],
        lengths := [], reg } :=
  ⟨by simp, rfl, hr, ⟨[], by simp, .nil⟩, ⟨[], rfl, .nil⟩⟩

theorem fallback_sound {reg : Registry} (hr : reg.Ok) {msg : Text} {ts : List Ty} {b : Builder}
    (hb : fallback reg msg (joinKeys ts) = .ok b) :
    (∀ t ∈ ts, t.Shallow) ∧ b.reg.Ok ∧ FormattersFit b.formatters ts
      ∧ LengthsFit b.lengths ts := by
  obtain ⟨b₁, hb₁, rfl⟩ := map_eq_ok.mp hb
  have h := Builder.emitAll_sound _ _ (Nat.le_refl _) (fallback_start hr msg ts) hb₁
  have h' := h.push (e := .formatStatic (ascii [')', ' '])) rfl
  obtain ⟨es, he, hes⟩ := h'.formatters
  obtain ⟨ls, hl, hls⟩ := h'.lengths
  refine ⟨h.shallow, h.reg, ?_, by rw [hl]; exact hls⟩
  rw [he]
  exact hes

theorem fallback_shallow {reg : Registry} (hr : reg.Ok) (msg : Text) {ts : List Ty}
    (hs : ∀ t ∈ ts, t.Shallow) : ∃ b, fallback reg msg (joinKeys ts) = .ok b := by
  obtain ⟨b, hb⟩ := Builder.emitAll_shallow _ true hs (fallback_start hr msg ts)
  exact ⟨_, by unfold fallback; simp only; rw [hb]; rfl⟩

/-- A formatter that can be built describes the types of its key, and they
are plain optionals at most. -/
theorem init_sound {reg reg' : Registry} (hr : reg.Ok) {lineno : Nat} {msg : Text}
    {ts : List Ty} {mf : MessageFormatter}
    (h : init reg lineno msg (joinKeys ts) = .ok (mf, reg')) :
    (∀ t ∈ ts, t.Shallow) ∧ mf.Describes ts ∧ reg'.Ok := by
  unfold init at h
  rw [c_str_joinKeys] at h
  obtain ⟨⟨rest, b⟩, hscan, h⟩ := bind_eq_ok.mp h
  obtain ⟨b', hb', h⟩ := bind_eq_ok.mp h
  simp only [pure, Except.pure, Except.ok.injEq, Prod.mk.injEq] at h
  obtain ⟨rfl, rfl⟩ := h
  by_cases hfall : (!rest.isEmpty || !b.fmtPtr.isEmpty) = true
  · -- the message and the parameters are emitted separately
    rw [finish, if_pos hfall] at hb'
    have hreg : b.reg.Ok := by
      rcases start_inv hr lineno ts with ⟨-, hi⟩ | ⟨-, t, u, us, rfl, -, -, hi⟩
      · obtain ⟨_, _, _, hi'⟩ := Builder.scan_sound _ _ hi hscan
        exact hi'.reg
      · obtain ⟨_, _, _, hi'⟩ := Builder.scan_sound _ _ hi hscan
        exact hi'.reg
    obtain ⟨h1, h2, h3, h4⟩ := fallback_sound hreg hb'
    exact ⟨h1, .plain h3 h4, h2⟩
  · rw [finish, if_neg hfall] at hb'
    cases hb'
    simp only [Bool.or_eq_true, not_or, Bool.not_eq_true, Bool.not_eq_false'] at hfall
    have hptr : b.fmtPtr = [] := List.isEmpty_iff.mp hfall.2
    rcases start_inv hr lineno ts with ⟨-, hi⟩ | ⟨-, t, u, us, rfl, ht, hu, hi⟩
    · obtain ⟨ts', us', rfl, hi'⟩ := Builder.scan_sound _ _ hi hscan
      have hus : us' = [] := joinKeys_eq_nil.mp (hi'.fmtPtr ▸ hptr)
      subst hus
      obtain ⟨es, he, hes⟩ := hi'.formatters
      obtain ⟨ls, hl, hls⟩ := hi'.lengths
      rw [List.nil_append] at he hl hes hls
      rw [List.append_nil]
      exact ⟨fun t ht => hi'.shallow t (by simpa using ht),
        .plain (by rw [he]; exact hes) (by rw [hl]; exact hls), hi'.reg⟩
    · obtain ⟨ts', us', rfl, hi'⟩ := Builder.scan_sound _ _ hi hscan
      have hus : us' = [] := joinKeys_eq_nil.mp (hi'.fmtPtr ▸ hptr)
      subst hus
      obtain ⟨es, he, hes⟩ := hi'.formatters
      obtain ⟨ls, hl, hls⟩ := hi'.lengths
      rw [List.append_nil]
      refine ⟨fun s hs => ?_, .wallClock ht hu he hes hl hls, hi'.reg⟩
      rcases List.mem_cons.mp hs with rfl | hs
      · exact shallow_of_code ht
      · rcases List.mem_cons.mp hs with rfl | hs
        · exact shallow_of_code hu
        · exact hi'.shallow s (by simpa using hs)

/-- How many leading types of the key the loop over the text does not see. -/
def skippedFields (lineno : Nat) (key : Text) : Nat := if isWallClock lineno key then 2 else 0

/-- What the scan of the text comes to when the key has `k` types. -/
def scanned (lineno : Nat) (text key : Text) (k : Nat) : Except FormatError (Bool × Nat) :=
  Builder.conversions (c_str text).length (c_str text) (k - skippedFields lineno key)

/-- The scan meets neither the end of the text inside a conversion nor a
width that is no `int`. -/
def TextScans (lineno : Nat) (text key : Text) (k : Nat) : Prop :=
  ∃ r, scanned lineno text key k = .ok r

/-- A wall-clock message whose text has a conversion for every argument
behind the two leading fields: these fields are skipped. -/
def FieldsHidden (lineno : Nat) (text key : Text) (k : Nat) : Prop :=
  isWallClock lineno key = true ∧ scanned lineno text key k = .ok (true, 0)

theorem init_undefined {reg : Registry} (hr : reg.Ok) {lineno : Nat} {text : Text}
    {ts : List Ty} (hs : ∀ t ∈ ts, t.Shallow) {e : FormatError}
    (h : scanned lineno text (joinKeys ts) ts.length = .error e) :
    init reg lineno text (joinKeys ts) = .error e := by
  have hscan : (start reg lineno (joinKeys ts)).scan (c_str text).length (c_str text)
      = .error e := by
    rcases start_inv hr lineno ts with ⟨hw, hi⟩ | ⟨hw, t, u, us, rfl, -, -, hi⟩
    · have := Builder.scan_shallow (c_str text).length (c_str text) hi hs
      rw [scanned, skippedFields, if_neg (by simp [hw]), Nat.sub_zero] at h
      rwa [h] at this
    · have := Builder.scan_shallow (c_str text).length (c_str text) hi
        fun t ht => hs t (by simp [ht])
      rw [scanned, skippedFields, if_pos hw] at h
      simp only [List.length_cons, Nat.reduceSubDiff] at h
      rwa [h] at this
  unfold init
  simp only [c_str_joinKeys, hscan]
  rfl

theorem init_of_finish {reg : Registry} {lineno : Nat} {text : Text} {ts : List Ty}
    {r : Text × Builder} {b : Builder}
    (h1 : (start reg lineno (joinKeys ts)).scan (c_str text).length (c_str text) = .ok r)
    (h2 : finish (c_str text) (joinKeys ts) r = .ok b) :
    init reg lineno text (joinKeys ts)
      = .ok (⟨lineno, text, joinKeys ts, b.formatters, b.lengths⟩, b.reg) := by
  unfold init
  simp only [c_str_joinKeys, h1, bind, Except.bind, h2]
  rfl

/-- `init` ends with what the loop built if text and key are used up, and
falls back otherwise. -/
theorem finish_cases {es : List Entry} {ls : List Length} {ts us all : List Ty} {rest : Text}
    {b : Builder} (hi : Builder.Inv es ls ts us b) (text : Text)
    (hs : ∀ t ∈ all, t.Shallow) :
    (rest.isEmpty = true ∧ us.length = 0 ∧ finish text (joinKeys all) (rest, b) = .ok b)
      ∨ ¬ (rest.isEmpty = true ∧ us.length = 0) ∧ ∃ b',
          finish text (joinKeys all) (rest, b) = .ok b'
            ∧ FormattersFit b'.formatters all ∧ LengthsFit b'.lengths all := by
  have hptr : b.fmtPtr.isEmpty = true ↔ us.length = 0 := by
    rw [hi.fmtPtr, List.isEmpty_iff, joinKeys_eq_nil, List.length_eq_zero_iff]
  unfold finish
  by_cases hfall : (!rest.isEmpty || !b.fmtPtr.isEmpty) = true
  · right
    obtain ⟨b', hb'⟩ := fallback_shallow hi.reg text hs
    obtain ⟨-, -, h3, h4⟩ := fallback_sound hi.reg hb'
    refine ⟨?_, b', by rw [if_pos hfall]; exact hb', h3, h4⟩
    rw [← hptr]
    simp only [Bool.or_eq_true, Bool.not_eq_true'] at hfall
    rintro ⟨h1, h2⟩
    simp [h1, h2] at hfall
  · left
    simp only [Bool.or_eq_true, not_or, Bool.not_eq_true, Bool.not_eq_false'] at hfall
    exact ⟨hfall.1, hptr.mp hfall.2, by rw [if_neg (by simp [hfall.1, hfall.2])]⟩

/-- Over plain optionals, and with a text that can be scanned, the
constructor ends well. Its formatters fit the types unless it skips the two
leading fields. -/
theorem init_shallow {reg : Registry} (hr : reg.Ok) {lineno : Nat} {text : Text}
    {ts : List Ty} (hs : ∀ t ∈ ts, t.Shallow)
    (h : TextScans lineno text (joinKeys ts) ts.length) :
    ∃ mf reg', init reg lineno text (joinKeys ts) = .ok (mf, reg')
      ∧ (FieldsHidden lineno text (joinKeys ts) ts.length → ∃ t u us es, ts = t :: u :: us
          ∧ mf.formatters = .param .wallClockRingBuf :: es ∧ FormattersFit es us)
      ∧ (¬ FieldsHidden lineno text (joinKeys ts) ts.length →
          FormattersFit mf.formatters ts ∧ LengthsFit mf.lengths ts) := by
  obtain ⟨⟨done, k⟩, h⟩ := h
  rcases start_inv hr lineno ts with ⟨hw, hi⟩ | ⟨hw, t, u, us, rfl, -, -, hi⟩
  · have hscan := Builder.scan_shallow (c_str text).length (c_str text) hi hs
    rw [scanned, skippedFields, if_neg (by simp [hw]), Nat.sub_zero] at h
    rw [h] at hscan
    obtain ⟨rest, b, ts', us', h1, rfl, rfl, rfl, hi'⟩ := hscan
    have hhid : ¬ FieldsHidden lineno text (joinKeys (ts' ++ us')) (ts' ++ us').length :=
      fun hf => absurd (hf.1.symm.trans hw) (by decide)
    rcases finish_cases hi' (c_str text) hs with ⟨-, h0, hfin⟩ | ⟨-, b', hfin, hfit⟩
    · refine ⟨_, _, init_of_finish h1 hfin, fun hf => absurd hf hhid, fun _ => ?_⟩
      have hus : us' = [] := List.length_eq_zero_iff.mp h0
      subst hus
      obtain ⟨es, he, hes⟩ := hi'.formatters
      obtain ⟨ls, hl, hls⟩ := hi'.lengths
      rw [List.append_nil]
      exact ⟨by rw [he]; exact hes, by rw [hl]; exact hls⟩
    · exact ⟨_, _, init_of_finish h1 hfin, fun hf => absurd hf hhid, fun _ => hfit⟩
  · have hscan := Builder.scan_shallow (c_str text).length (c_str text) hi
      fun t ht => hs t (by simp [ht])
    have hsc : scanned lineno text (joinKeys (t :: u :: us)) (t :: u :: us).length
        = Builder.conversions (c_str text).length (c_str text) us.length := by
      rw [scanned, skippedFields, if_pos hw]
      rfl
    rw [hsc] at h
    rw [h] at hscan
    obtain ⟨rest, b, ts', us', h1, hrest, hk, rfl, hi'⟩ := hscan
    have hhid : FieldsHidden lineno text (joinKeys (t :: u :: (ts' ++ us')))
        (t :: u :: (ts' ++ us')).length ↔ rest.isEmpty = true ∧ us'.length = 0 := by
      unfold FieldsHidden
      rw [hsc, h]
      simp [hw, hrest, hk]
    rcases finish_cases hi' (c_str text) hs with ⟨hr0, h0, hfin⟩ | ⟨hno, b', hfin, hfit⟩
    · refine ⟨_, _, init_of_finish h1 hfin, fun _ => ?_, fun hf => absurd (hhid.mpr ⟨hr0, h0⟩) hf⟩
      have hus : us' = [] := List.length_eq_zero_iff.mp h0
      subst hus
      obtain ⟨es, he, hes⟩ := hi'.formatters
      exact ⟨t, u, ts' ++ [], es, rfl, he, by rwa [List.append_nil]⟩
    · exact ⟨_, _, init_of_finish h1 hfin, fun hf => absurd (hhid.mp hf) hno, fun _ => hfit⟩

end MessageFormatter

/-! ## The tables over the life of the program -/

namespace Builder

theorem addFormatter_reg {b b' : Builder} {conv : UInt8} (h : b.reg.Ok)
    (hb : b.addFormatter conv = .ok b') : b'.reg.Ok := by
  have hreg := selectFormatter_ok h b.fmt (isHexConversion conv)
  unfold addFormatter at hb
  split at hb
  · cases hb
  · rename_i f reg' hsel
    obtain ⟨l, -, rfl⟩ := map_eq_ok.mp hb
    rw [hsel] at hreg
    exact hreg

theorem pushIf_reg (b : Builder) (c : Bool) (e : Entry) : (b.pushIf c e).reg = b.reg := by
  unfold pushIf
  split <;> rfl

section

-- what a code that is used leaves as it is of the tables
variable {P : Registry → Prop}
  (hP : ∀ {b b' : Builder} {conv : UInt8}, P b.reg → b.addFormatter conv = .ok b' → P b'.reg)
include hP

theorem addParam_keeps {b b' : Builder} (h : P b.reg) {before : Text} {p : ParamSpec}
    (hb : b.addParam before p = .ok b') : P b'.reg := by
  unfold addParam at hb
  obtain ⟨b₁, hb₁, rfl⟩ := map_eq_ok.mp hb
  rw [pushIf_reg]
  exact hP (by simpa only [pushIf_reg] using h) hb₁

theorem scan_keeps : ∀ (fuel : Nat) (msgPtr : Text) {b b' : Builder} {rest : Text}, P b.reg →
    b.scan fuel msgPtr = .ok (rest, b') → P b'.reg
  | 0, msgPtr, b, b', rest, h, hb => by cases hb; exact h
  | fuel + 1, msgPtr, b, b', rest, h, hb => by
      rw [scan] at hb
      split at hb
      · cases hb; exact h
      · obtain ⟨o, -, hb⟩ := bind_eq_ok.mp hb
        rcases o with _ | ⟨before, p⟩
        · cases hb; exact h
        · simp only at hb
          split at hb
          · exact scan_keeps fuel p.rest (b := b.push _) h hb
          · split at hb
            · cases hb; exact h
            · obtain ⟨b₁, hb₁, hb⟩ := bind_eq_ok.mp hb
              exact scan_keeps fuel p.rest (addParam_keeps hP h hb₁) hb

theorem emitAll_keeps : ∀ (fuel : Nat) (first : Bool) {b b' : Builder}, P b.reg →
    b.emitAll fuel first = .ok b' → P b'.reg
  | 0, first, b, b', h, hb => by cases hb; exact h
  | fuel + 1, first, b, b', h, hb => by
      rw [emitAll] at hb
      split at hb
      · cases hb; exact h
      · obtain ⟨b₁, hb₁, hb⟩ := bind_eq_ok.mp hb
        exact emitAll_keeps fuel false (hP (by rwa [pushIf_reg]) hb₁) hb

end

end Builder

/-- The tables after any number of formatters have been built. -/
inductive Registry.Reachable : Registry → Prop where
  | initial : Reachable Registry.initial
  | init {reg reg' : Registry} {lineno : Nat} {msg fmt : Text} {mf : MessageFormatter}
    (h : Reachable reg) (hinit : MessageFormatter.init reg lineno msg fmt = .ok (mf, reg')) :
    Reachable reg'

theorem MessageFormatter.start_reg (reg : Registry) (lineno : Nat) (fmt : Text) :
    (start reg lineno fmt).reg = reg := by
  unfold start
  split <;> rfl

/-- What every code keeps of the tables, a formatter keeps. -/
theorem MessageFormatter.init_keeps {P : Registry → Prop}
    (hP : ∀ {b b' : Builder} {conv : UInt8}, P b.reg → b.addFormatter conv = .ok b' → P b'.reg)
    {reg reg' : Registry} (hr : P reg) {lineno : Nat} {msg fmt : Text} {mf : MessageFormatter}
    (h : init reg lineno msg fmt = .ok (mf, reg')) : P reg' := by
  unfold init at h
  obtain ⟨⟨rest, b⟩, hscan, h⟩ := bind_eq_ok.mp h
  obtain ⟨b', hb', h⟩ := bind_eq_ok.mp h
  cases h
  have hb := Builder.scan_keeps hP _ _ (by rwa [start_reg]) hscan
  unfold finish at hb'
  split at hb'
  · obtain ⟨b₁, hb₁, rfl⟩ := map_eq_ok.mp hb'
    exact show P b₁.reg from Builder.emitAll_keeps hP _ _ (by exact hb) hb₁
  · cases hb'; exact hb

theorem Registry.Reachable.ok {reg : Registry} (h : reg.Reachable) : reg.Ok := by
  induction h with
  | initial => exact Registry.ok_initial
  | init _ hinit ih => exact MessageFormatter.init_keeps Builder.addFormatter_reg ih hinit

/-! ## Decoding undoes encoding -/

namespace MessageFormatter

/-- An argument with the code of the wall-clock fields has eight bytes. -/
theorem encode_length_of_code {n : Nat} {a : Arg} (h : formatString a.ty = ascii ['q']) :
    (a.encode n).length = 8 := by
  cases a with
  | longStr x =>
    simp only [Arg.ty, formatString, ascii] at h
    exact absurd h (by decide)
  | val v =>
    cases v with
    | u64 x | i64 x | ptr x => exact leBytes_length 8 _
    | optNone t | optSome v => simp [Arg.ty, Value.ty, formatString, ascii] at h
    | _ =>
      simp only [Arg.ty, Value.ty, formatString, ascii] at h
      exact absurd h (by decide)

/-- Of a described message, `length` and `format` take exactly the bytes the
puts wrote. -/
theorem Describes.extent {mf : MessageFormatter} {n : Nat} (hn : n ≤ 255) {args : List Arg}
    (h : mf.Describes (args.map Arg.ty)) {m : Mem} {a : Nat}
    (hm : m.Holds a (encodeArgs n args)) (os : OStream) :
    mf.length m a = some (encodeArgs n args).length
      ∧ (mf.format m a os).1 = some (encodeArgs n args).length := by
  generalize hts : args.map Arg.ty = ts at h
  cases h with
  | plain h1 h2 =>
    subst hts
    have hl := lengthLoop_fits hn mf.lengths args 0 h2 hm
    have hf := (formatLoop_fits hn mf.formatters args 0 os h1 hm).1
    rw [Nat.zero_add] at hl hf
    exact ⟨hl, hf⟩
  | @wallClock t u ts es ls ht hu he h1 hl h2 =>
    rcases args with _ | ⟨x, _ | ⟨y, args⟩⟩
    · cases hts
    · cases hts
    simp only [List.map_cons, List.cons.injEq] at hts
    obtain ⟨rfl, rfl, rfl⟩ := hts
    have hx : (x.encode n).length = 8 := encode_length_of_code ht
    have hy : (y.encode n).length = 8 := encode_length_of_code hu
    have hlen : (encodeArgs n (x :: y :: args)).length = 16 + (encodeArgs n args).length := by
      simp only [encodeArgs_cons, List.length_append, hx, hy]
      omega
    have hm' : m.Holds (a + 16) (encodeArgs n args) := by
      rw [encodeArgs_cons, encodeArgs_cons, Mem.holds_append, Mem.holds_append, hx, hy] at hm
      exact hm.2.2
    have hlength := lengthLoop_fits hn ls args 16 h2 hm'
    have hformat := (formatLoop_fits hn es args 16 os h1 hm').1
    rw [hlen]
    refine ⟨?_, ?_⟩
    · unfold length
      rw [hl, lengthLoop]
      simpa [Length.run] using hlength
    · unfold format
      rw [he, formatLoop]
      simpa [Formatter.run] using hformat

/-- The formatter built from the key of a list of values undoes the puts:
it consumes what they wrote and recovers every value. -/
def RoundTrips (reg : Registry) (lineno : Nat) (text key : Text) (n : Nat)
    (vals : List Value) : Prop :=
  ∃ mf reg', init reg lineno text key = .ok (mf, reg')
    ∧ ∀ (rb : RingBuf) (m : Mem) (os : OStream), rb.enabled = true →
        let w := rb.putArgs n (vals.map .val)
        let m' := m.applyAll w.2
        mf.length m' rb.ptr = some (w.1.ptr - rb.ptr)
          ∧ (mf.format m' rb.ptr os).1 = some (w.1.ptr - rb.ptr)
          ∧ (mf.format m' rb.ptr os).2.values = os.values ++ vals.map (Value.recovered n)

theorem map_val_ty (vals : List Value) :
    (vals.map Arg.val).map Arg.ty = vals.map Value.ty := by
  simp [Function.comp_def, Arg.ty]

theorem map_val_recovered (n : Nat) (vals : List Value) :
    (vals.map Arg.val).map (Arg.recovered n) = vals.map (Value.recovered n) := by
  simp [Function.comp_def, Arg.recovered]

/-- Entries and length functions that fit the values undo the puts. -/
theorem roundTrips_of_fits {reg reg' : Registry} {lineno n : Nat} {text key : Text}
    {vals : List Value} {mf : MessageFormatter} (hn : n ≤ 255)
    (hinit : init reg lineno text key = .ok (mf, reg'))
    (h1 : FormattersFit mf.formatters (vals.map Value.ty))
    (h2 : LengthsFit mf.lengths (vals.map Value.ty)) : RoundTrips reg lineno text key n vals := by
  refine ⟨mf, reg', hinit, fun rb m os he => ?_⟩
  have hw := Writes.putArgs n (vals.map .val) he
  have hm : (m.applyAll (rb.putArgs n (vals.map .val)).2).Holds (rb.ptr + 0)
      (encodeArgs n (vals.map .val)) := by
    rw [hw.mem]; exact Mem.holds_store _ _ _
  rw [← map_val_ty] at h1 h2
  have hf := formatLoop_fits hn mf.formatters (vals.map .val) 0 os h1 hm
  have hl := lengthLoop_fits hn mf.lengths (vals.map .val) 0 h2 hm
  rw [Nat.zero_add] at hf hl
  simp only [hw.ptr, Nat.add_sub_cancel_left]
  exact ⟨hl, hf.1, by rw [← map_val_recovered]; exact hf.2⟩

/-- A formatter that skips the first two fields does not recover them. -/
theorem not_roundTrips_of_hidden {n : Nat} (hn : n ≤ 255) {vals : List Value}
    {mf : MessageFormatter} {t u : Ty} {us : List Ty} {es : List Entry}
    (ht : formatString t = ascii ['q']) (hu : formatString u = ascii ['q'])
    (hvals : vals.map Value.ty = t :: u :: us)
    (hmf : mf.formatters = .param .wallClockRingBuf :: es) (hes : FormattersFit es us)
    {m : Mem} {a : Nat} (hm : m.Holds a (encodeArgs n (vals.map .val))) (os : OStream) :
    (mf.format m a os).2.values ≠ os.values ++ vals.map (Value.recovered n) := by
  rcases vals with _ | ⟨v, _ | ⟨w, vals⟩⟩
  · cases hvals
  · cases hvals
  simp only [List.map_cons, List.cons.injEq] at hvals
  obtain ⟨rfl, rfl, rfl⟩ := hvals
  have hv : ((Arg.val v).encode n).length = 8 := encode_length_of_code ht
  have hw : ((Arg.val w).encode n).length = 8 := encode_length_of_code hu
  have hm' : m.Holds (a + 16) (encodeArgs n (vals.map .val)) := by
    rw [List.map_cons, List.map_cons, encodeArgs_cons, encodeArgs_cons, Mem.holds_append,
      Mem.holds_append, hv, hw] at hm
    exact hm.2.2
  rw [← map_val_ty] at hes
  have hf := (formatLoop_fits hn es (vals.map .val) 16 os hes hm').2
  have hval : (mf.format m a os).2.values = os.values ++ vals.map (Value.recovered n) := by
    rw [← map_val_recovered, ← hf, format, hmf, formatLoop]
    simp [Formatter.run]
  rw [hval]
  intro h
  have := congrArg List.length (List.append_cancel_left h)
  simp only [List.length_map, List.length_cons] at this
  omega

/-- Decoding undoes encoding exactly when no value nests optionals, the text
can be scanned, and it is no wall-clock message that skips its time. -/
theorem roundTrips_iff {reg : Registry} (hreg : reg.Reachable) (lineno : Nat) (text : Text)
    {n : Nat} (hn : n ≤ 80) {vals : List Value} {key : Text}
    (hkey : MsgFormatString.ofTypes (vals.map Value.ty) = some key) :
    RoundTrips reg lineno text key n vals
      ↔ (∀ v ∈ vals, v.ty.Shallow) ∧ TextScans lineno text key vals.length
        ∧ ¬ FieldsHidden lineno text key vals.length := by
  have hr := hreg.ok
  have hn' : n ≤ 255 := by omega
  have hlen : vals.length = (vals.map Value.ty).length := (List.length_map _).symm
  have hk := ofTypes_eq hkey
  subst hk
  rw [hlen]
  constructor
  · rintro ⟨mf, reg', hinit, hall⟩
    have hs := (init_sound hr hinit).1
    have hscan : TextScans lineno text (joinKeys (vals.map Value.ty))
        (vals.map Value.ty).length := by
      rcases h : scanned lineno text (joinKeys (vals.map Value.ty)) (vals.map Value.ty).length
        with e | r
      · rw [init_undefined hr hs h] at hinit; cases hinit
      · exact ⟨r, h⟩
    refine ⟨fun v hv => hs _ (List.mem_map_of_mem hv), hscan, fun hh => ?_⟩
    obtain ⟨mf₁, reg₁, hinit₁, hhid, -⟩ := init_shallow hr hs hscan
    rw [hinit] at hinit₁
    cases hinit₁
    obtain ⟨t, u, us, es, hts, he, hes⟩ := hhid hh
    obtain ⟨t', u', us', hts', ht, hu, -⟩ := isWallClock_joinKeys hh.1
    rw [hts] at hts'
    cases hts'
    -- any memory that holds the values will do
    have hrb : (RingBuf.mk 0 (some 0) 0 0).enabled = true := rfl
    have hw := Writes.putArgs n (vals.map .val) hrb
    have hm : (Mem.applyAll (fun _ => 0)
        ((RingBuf.mk 0 (some 0) 0 0).putArgs n (vals.map .val)).2).Holds 0
        (encodeArgs n (vals.map .val)) := by
      rw [hw.mem]; exact Mem.holds_store _ _ _
    exact not_roundTrips_of_hidden hn' ht hu hts he hes hm OStream.fresh
      (hall _ _ OStream.fresh hrb).2.2
  · rintro ⟨hs, hscan, hh⟩
    have hs' : ∀ t ∈ vals.map Value.ty, t.Shallow := by
      intro t ht
      obtain ⟨v, hv, rfl⟩ := List.mem_map.mp ht
      exact hs v hv
    obtain ⟨mf, reg', hinit, -, hfit⟩ := init_shallow hr hs' hscan
    exact roundTrips_of_fits hn' hinit (hfit hh).1 (hfit hh).2

/-- An optional string and a number, in a text with one conversion for
each. -/
theorem roundTrips_optional_string :
    RoundTrips Registry.initial 7 (ascii ['%', 's', ' ', '%', 'x'])
      (ascii ['O', 'P', 'T', 'p', ',', 'i']) 24
      [.optSome (.str (ascii ['a', 'b'])), .u32 255] :=
  (roundTrips_iff .initial 7 _ (by decide) (by decide)).mpr
    ⟨by decide, ⟨_, rfl⟩, fun h => absurd h.1 (by decide)⟩

/-- An optional of an optional: the descriptor cannot be decoded at all. -/
theorem nested_optional_fails :
    MsgFormatString.ofTypes [(Value.optSome (.optSome (.u32 5))).ty]
        = some (ascii ['O', 'P', 'T', 'O', 'P', 'T', 'i'])
      ∧ ¬ RoundTrips Registry.initial 7 (ascii ['%', 'd'])
          (ascii ['O', 'P', 'T', 'O', 'P', 'T', 'i']) 24 [.optSome (.optSome (.u32 5))] := by
  refine ⟨by decide, ?_⟩
  rintro ⟨mf, reg', hinit, -⟩
  cases hinit

end MessageFormatter

end QuickTrace
