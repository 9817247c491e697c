/-
QuickTrace.Format.LengthAgreement — `length` and `format` step over the same
bytes.

`init` pushes to the formatters and to the length functions side by side, and
may throw both away. `Consume es ls cs` says that either list, run from any
offset over any bytes, steps over exactly the codes `cs`. It composes
(`Consume.append`), a conversion and the wall-clock prefix have it, and every
way out of `init` ends with it for the whole key (`init_consumes`).
-/
import QuickTrace.Format.Tokenizable

namespace QuickTrace

open QuickTrace.Lib

/-! ## The bytes of a code -/

/-- The bytes of a base code at `p`. -/
def Base.extent (m : Mem) (p : Nat) : Base → Nat
  | .u8 | .char | .bool => 1
  | .u16 => 2
  | .u32 | .float => 4
  | .u64 | .double => 8
  | .string => 1 + (m p).toNat
  | .wallClock => 16

/-- The bytes of a code at `p`. -/
def Code.extent (m : Mem) (p : Nat) : Code → Nat
  | .base b => b.extent m p
  | .opt b => if m p = 0 then 1 else 1 + b.extent m (p + 1)

/-- The bytes of all codes of a key, one behind the other. -/
def codeExtents (m : Mem) (p : Nat) : List Code → Nat
  | [] => 0
  | c :: cs => c.extent m p + codeExtents m (p + c.extent m p) cs

theorem codeExtents_append (m : Mem) (cs ds : List Code) (p : Nat) :
    codeExtents m p (cs ++ ds)
      = codeExtents m p cs + codeExtents m (p + codeExtents m p cs) ds := by
  induction cs generalizing p with
  | nil => simp [codeExtents]
  | cons c cs ih =>
    rw [List.cons_append, codeExtents, codeExtents, ih]
    simp only [Nat.add_assoc]

theorem Base.extent_pos (m : Mem) (p : Nat) (b : Base) : 0 < b.extent m p := by
  cases b with
  | string => rw [extent]; omega
  | _ => exact Nat.succ_pos _

theorem Code.extent_pos (m : Mem) (p : Nat) (c : Code) : 0 < c.extent m p := by
  cases c with
  | base b => exact b.extent_pos m p
  | opt b =>
    rw [extent]
    split <;> omega

theorem Base.length_run (m : Mem) (p : Nat) (b : Base) : b.length.run m p = b.extent m p := by
  cases b with
  | _ => rfl

/-- The hexadecimal form of a code reads as many bytes. -/
theorem Base.formatter_run (m : Mem) (p : Nat) (os : OStream) (isHex : Bool) (b : Base) :
    ((b.formatter isHex).run m p os).1 = b.extent m p := by
  cases b with
  | u8 | u16 | u32 | u64 => cases isHex <;> rfl
  | _ => rfl

theorem Code.length_run (m : Mem) (p : Nat) (c : Code) : c.length.run m p = c.extent m p := by
  cases c with
  | base b => exact b.length_run m p
  | opt b => rw [length, Length.run, Base.length_run, extent]

theorem Code.formatter_run (m : Mem) (p : Nat) (os : OStream) (isHex : Bool) (c : Code) :
    ((c.formatter isHex).run m p os).1 = c.extent m p := by
  cases c with
  | base b => exact b.formatter_run m p os isHex
  | opt b =>
    rw [formatter, Formatter.run, extent]
    split
    · rfl
    · dsimp only
      rw [Base.formatter_run]

/-! ## Lists that step over the same codes -/

namespace MessageFormatter

theorem formatLoop_append (m : Mem) (buf : Nat) (fs es : List Entry) (k : Nat) (os : OStream)
    {n : Nat} (h : (formatLoop m buf es k os).1 = some n) :
    formatLoop m buf (es ++ fs) k os = formatLoop m buf fs n (formatLoop m buf es k os).2 := by
  induction es generalizing k os with
  | nil =>
    cases h
    rfl
  | cons e es ih =>
    cases e with
    | formatStatic t => exact ih k _ h
    | applyCFormatSpec spec => exact ih k _ h
    | resetCFormatSpec => exact ih k _ h
    | param f =>
      rw [formatLoop] at h
      rw [List.cons_append, formatLoop, formatLoop]
      by_cases hzero : (f.run m (buf + k) os).1 = 0
      · rw [if_pos hzero] at h
        cases h
      · rw [if_neg hzero] at h
        rw [if_neg hzero, if_neg hzero]
        exact ih _ _ h

theorem lengthLoop_append (m : Mem) (buf : Nat) (ks ls : List Length) (k : Nat) {n : Nat}
    (h : lengthLoop m buf ls k = some n) :
    lengthLoop m buf (ls ++ ks) k = lengthLoop m buf ks n := by
  induction ls generalizing k with
  | nil =>
    cases h
    rfl
  | cons l ls ih =>
    rw [lengthLoop] at h
    rw [List.cons_append, lengthLoop]
    by_cases hzero : l.run m (buf + k) = 0
    · rw [if_pos hzero] at h
      cases h
    · rw [if_neg hzero] at h
      rw [if_neg hzero]
      exact ih _ h

end MessageFormatter

open MessageFormatter

/-- From any offset over any bytes, the formatters and the length functions
both step over the codes `cs`. -/
structure Consume (es : List Entry) (ls : List Length) (cs : List Code) : Prop where
  format : ∀ (m : Mem) (buf k : Nat) (os : OStream),
    (formatLoop m buf es k os).1 = some (k + codeExtents m (buf + k) cs)
  length : ∀ (m : Mem) (buf k : Nat),
    lengthLoop m buf ls k = some (k + codeExtents m (buf + k) cs)

namespace Consume

variable {es fs : List Entry} {ls ks : List Length} {cs ds : List Code}

theorem nil : Consume [] [] [] := ⟨fun _ _ _ _ => rfl, fun _ _ _ => rfl⟩

theorem append (h₁ : Consume es ls cs) (h₂ : Consume fs ks ds) :
    Consume (es ++ fs) (ls ++ ks) (cs ++ ds) := by
  constructor
  · intro m buf k os
    rw [formatLoop_append m buf fs es k os (h₁.format m buf k os), h₂.format, codeExtents_append]
    simp only [Nat.add_assoc]
  · intro m buf k
    rw [lengthLoop_append m buf ks ls k (h₁.length m buf k), h₂.length, codeExtents_append]
    simp only [Nat.add_assoc]

/-- What prints a fixed text or changes the stream reads nothing. -/
theorem other {e : Entry} (h : params [e] = []) : Consume [e] [] [] := by
  refine ⟨fun m buf k os => ?_, nil.length⟩
  cases e with
  | param f => cases h
  | _ => rfl

theorem otherIf {e : Entry} (h : params [e] = []) (c : Bool) :
    Consume (if c then [e] else []) [] [] := by
  cases c with
  | true => exact other h
  | false => exact nil

theorem code (isHex : Bool) (c : Code) : Consume [.param (c.formatter isHex)] [c.length] [c] := by
  constructor
  · intro m buf k os
    have hpos := c.extent_pos m (buf + k)
    rw [formatLoop, c.formatter_run, if_neg (by omega)]
    rfl
  · intro m buf k
    have hpos := c.extent_pos m (buf + k)
    rw [lengthLoop, c.length_run, if_neg (by omega)]
    rfl

/-- The wall-clock formatter stands for the two fields in front. -/
theorem wallClock : Consume [.param .wallClockRingBuf] [.wallClock] [.base .u64, .base .u64] :=
  ⟨fun _ _ _ _ => rfl, fun _ _ _ => rfl⟩

end Consume

/-! ## The loops of `init` -/

namespace Builder

/-- A conversion and its argument. -/
theorem consume_paramEntries (before : Text) (p : ParamSpec) (c : Code) :
    Consume (paramEntries before p c) [c.length] [c] := by
  have hfront := (Consume.otherIf (e := .formatStatic before) rfl (!before.isEmpty)).append
    ((Consume.otherIf (e := .formatStatic (ascii ['0', 'x'])) rfl
      (p.conversionSpecifier == 112)).append
    (Consume.otherIf (e := .applyCFormatSpec p.cFormatSpec) rfl
      (p.cFormatSpec != CFormatSpec.zero)))
  have hback := Consume.otherIf (e := .resetCFormatSpec) rfl (p.cFormatSpec != CFormatSpec.zero)
  have hall := (hfront.append (Consume.code (isHexConversion p.conversionSpecifier) c)).append hback
  simpa only [paramEntries, List.append_assoc, List.nil_append, List.append_nil] using hall

/-- The arguments of a message that are emitted separately. -/
theorem consume_emitEntries (first : Bool) (cs : List Code) :
    Consume (emitEntries first cs) (cs.map Code.length) cs := by
  induction cs generalizing first with
  | nil => exact .nil
  | cons c cs ih =>
    have hcomma := Consume.otherIf (e := .formatStatic (ascii [','])) rfl (!first)
    have hrest := (Consume.code false c).append (ih false)
    exact hcomma.append hrest

/-- The lists step over the codes `done`, and `left` is the rest of the
key. -/
structure Synced (done left : List Code) (b : Builder) : Prop where
  fmtPtr : b.fmtPtr = joinCodes left
  reg : b.reg.Exact
  consume : Consume b.formatters b.lengths done

variable {done left : List Code} {b : Builder}

theorem Synced.push (h : Synced done left b) {e : Entry} (he : params [e] = []) :
    Synced done left (b.push e) := by
  refine ⟨h.fmtPtr, h.reg, ?_⟩
  have hall := h.consume.append (Consume.other he)
  rwa [List.append_nil, List.append_nil] at hall

theorem Synced.addParam {c : Code} (h : Synced done (c :: left) b) {before : Text}
    {p : ParamSpec} {b' : Builder} (hb : b.addParam before p = .ok b') :
    Synced (done ++ [c]) left b' := by
  obtain ⟨reg', hreg', hadd⟩ := addParam_joinCodes h.reg h.fmtPtr before p
  rw [hadd] at hb
  cases hb
  exact ⟨rfl, hreg', h.consume.append (consume_paramEntries before p c)⟩

/-- The loop over the text takes codes from the key one by one. -/
theorem scan_synced : ∀ (fuel : Nat) (t : Text) {b b' : Builder} {done left : List Code}
    {rest : Text}, Synced done left b → b.scan fuel t = .ok (rest, b') →
    ∃ taken left', left = taken ++ left' ∧ Synced (done ++ taken) left' b'
  | 0, t, b, b', done, left, rest, h, hb => by
      cases hb
      exact ⟨[], left, rfl, by rwa [List.append_nil]⟩
  | fuel + 1, t, b, b', done, left, rest, h, hb => by
      have hstay : ∀ {b' : Builder}, Synced done left b' →
          ∃ taken left', left = taken ++ left' ∧ Synced (done ++ taken) left' b' :=
        fun h => ⟨[], left, rfl, by rwa [List.append_nil]⟩
      rw [scan] at hb
      split at hb
      · cases hb
        exact hstay h
      · obtain ⟨o, -, hb⟩ := bind_eq_ok.mp hb
        rcases o with _ | ⟨before, p⟩
        · cases hb
          exact hstay (h.push rfl)
        · dsimp only at hb
          split at hb
          · exact scan_synced fuel p.rest (h.push rfl) hb
          · split at hb
            · cases hb
              exact hstay h
            · rename_i hne
              obtain ⟨b₁, hadd, hb⟩ := bind_eq_ok.mp hb
              cases left with
              | nil => exact absurd (by rw [h.fmtPtr]; rfl) hne
              | cons c left =>
                obtain ⟨taken, left', rfl, hsync⟩ :=
                  scan_synced fuel p.rest (h.addParam hadd) hb
                exact ⟨c :: taken, left', rfl, by simpa using hsync⟩

end Builder

/-! ## The constructor -/

theorem Code.eq_of_text_q {c : Code} (h : c.text = [113]) : c = .base .u64 := by
  cases c with
  | base b => cases b with
    | u64 => rfl
    | _ => exact absurd h (by decide)
  | opt b => cases b with
    | _ => exact absurd h (by decide)

/-- The key of a wall-clock message starts with two 64-bit codes. -/
theorem wallClock_codes {lineno : Nat} {cs : List Code}
    (h : isWallClock lineno (joinCodes cs) = true) :
    cs = .base .u64 :: .base .u64 :: cs.drop 2 := by
  simp only [isWallClock, Bool.and_eq_true, List.isPrefixOf_iff_prefix] at h
  obtain ⟨rest, hrest⟩ := h.2
  have hkey : joinCodes cs = 113 :: 44 :: 113 :: 44 :: rest := hrest.symm
  rcases cs with _ | ⟨c, cs⟩
  · cases hkey
  have hc : c.text = [113] := by
    rw [← takeWhile_joinCodes c cs, hkey]
    rfl
  have hcs : joinCodes cs = 113 :: 44 :: rest := by
    rw [← dropWhile_joinCodes c cs, hkey]
    rfl
  rcases cs with _ | ⟨d, cs⟩
  · cases hcs
  have hd : d.text = [113] := by
    rw [← takeWhile_joinCodes d cs, hcs]
    rfl
  rw [Code.eq_of_text_q hc, Code.eq_of_text_q hd]
  rfl

/-- `init` starts behind the codes that no placeholder can take. -/
theorem start_synced {reg : Registry} (hr : reg.Exact) (lineno : Nat) (cs : List Code) :
    ∃ done left, cs = done ++ left
      ∧ Builder.Synced done left (start reg lineno (joinCodes cs)) := by
  cases h : isWallClock lineno (joinCodes cs) with
  | true =>
    refine ⟨[.base .u64, .base .u64], cs.drop 2, wallClock_codes h, ?_⟩
    rw [start, if_pos h]
    exact ⟨Tokenizer.joinCodes_drop h, hr, .wallClock⟩
  | false =>
    refine ⟨[], cs, rfl, ?_⟩
    rw [start, if_neg (by rw [h]; exact Bool.false_ne_true)]
    exact ⟨rfl, hr, .nil⟩

/-- Emitting everything separately steps over the whole key. -/
theorem consume_fallbackEntries (msg : Text) (cs : List Code) :
    Consume (fallbackEntries msg cs) (cs.map Code.length) cs := by
  have hfront := (Consume.other (e := .formatStatic msg) rfl).append
    (Consume.other (e := .formatStatic (ascii [' ', '%', ' ', '('])) rfl)
  have hback := Consume.other (e := .formatStatic (ascii [')', ' '])) rfl
  have hall := (hfront.append (Builder.consume_emitEntries true cs)).append hback
  simpa only [fallbackEntries, List.append_nil, List.nil_append, List.cons_append] using hall

/-- A formatter that `init` builds steps over all codes of its key. -/
theorem init_consumes {reg reg' : Registry} (hr : reg.Exact) {lineno : Nat} {msg : Text}
    {cs : List Code} {mf : MessageFormatter}
    (h : init reg lineno msg (joinCodes cs) = .ok (mf, reg')) :
    Consume mf.formatters mf.lengths cs := by
  obtain ⟨done, left, hcs, hstart⟩ := start_synced hr lineno cs
  rw [init, Tokenizer.c_str_eq (joinCodes_ne_zero cs)] at h
  obtain ⟨⟨rest, b⟩, hscan, h⟩ := bind_eq_ok.mp h
  obtain ⟨b', hfinish, h⟩ := bind_eq_ok.mp h
  cases h
  obtain ⟨taken, left', rfl, hsync⟩ := Builder.scan_synced _ _ hstart hscan
  rw [finish] at hfinish
  split at hfinish
  · obtain ⟨reg', -, hfall⟩ := fallback_joinCodes hsync.reg (c_str msg) cs
    cases hfall.symm.trans hfinish
    exact consume_fallbackEntries (c_str msg) cs
  · rename_i hdone
    cases hfinish
    -- text and key ended together
    have hkey : b.fmtPtr.isEmpty = true := by
      cases hempty : b.fmtPtr.isEmpty with
      | true => rfl
      | false => exact absurd (by simp [hempty]) hdone
    have hleft : left' = [] := by
      rwa [hsync.fmtPtr, joinCodes_isEmpty, List.isEmpty_iff] at hkey
    rw [hcs, hleft, List.append_nil]
    exact hsync.consume

/-! ## Texts without an open conversion -/

/-- What may stand between a percent sign and its conversion specifier. -/
def isDirective (c : UInt8) : Bool :=
  isFlagChar c || isdigit c || c == 46 || isLengthModifier c

/-- No percent sign is followed only by flags, digits, periods and length
modifiers, and every width and precision can be an `int`. -/
def Scannable (text : Text) : Prop :=
  ∀ rest, 37 :: rest <:+ text →
    (∃ c ∈ rest, isDirective c = false) ∧ Tokenizer.NumbersFit rest

theorem Scannable.suffix {t u : Text} (h : Scannable u) (ht : t <:+ u) : Scannable t :=
  fun rest hrest => h rest (hrest.trans ht)

/-- A text that is not all directives has a character where the specifier is
expected. -/
theorem specifier_ne_nil {t : Text} (h : ∃ c ∈ t, isDirective c = false) :
    Tokenizer.specifier t ≠ [] := by
  obtain ⟨c, hc, hdir⟩ := h
  simp only [isDirective, Bool.or_eq_false_iff] at hdir
  obtain ⟨⟨⟨hflag, hdigit⟩, hperiod⟩, hmod⟩ := hdir
  have hkeep : ∀ {p : UInt8 → Bool} {u : Text}, p c = false → c ∈ u → c ∈ u.dropWhile p := by
    intro p u hp hu
    rw [← List.takeWhile_append_dropWhile (p := p) (l := u)] at hu
    rcases List.mem_append.mp hu with hu | hu
    · cases hp.symm.trans (List.mem_takeWhile_imp hu)
    · exact hu
  have hwidth : c ∈ Tokenizer.afterWidth t := hkeep hdigit (hkeep hflag hc)
  have hprecision : c ∈ Tokenizer.afterPeriod (Tokenizer.afterWidth t) := by
    unfold Tokenizer.afterPeriod
    split
    · rename_i u hu
      rw [hu] at hwidth
      rcases List.mem_cons.mp hwidth with rfl | hwidth
      · cases hperiod
      · exact hkeep hdigit hwidth
    · exact hwidth
  exact List.ne_nil_of_mem (hkeep hmod hprecision)

/-- Whatever the number of codes, the loop can go through such a text. -/
theorem Scannable.tame : ∀ (k : Nat) {t : Text} (n : Nat), t.length ≤ k → Scannable t →
    Tokenizer.Tame n t
  | _, [], n, _, _ => .done n
  | k + 1, c :: t, n, hk, h => by
      have hlen : t.length ≤ k := by simpa using hk
      have htail : Scannable t := h.suffix (List.suffix_cons c t)
      by_cases hc : c = 37
      · subst hc
        by_cases hne : t.head? = some 37
        · obtain ⟨u, rfl⟩ : ∃ u, t = 37 :: u := by
            cases t with
            | nil => cases hne
            | cons d u => cases hne; exact ⟨u, rfl⟩
          have hu : Scannable u := htail.suffix (List.suffix_cons 37 u)
          exact .percent (Scannable.tame k n (by simp at hlen; omega) hu)
        · obtain ⟨hdir, hfit⟩ := h t List.suffix_rfl
          obtain ⟨d, rest, hspec⟩ := List.exists_cons_of_ne_nil (specifier_ne_nil hdir)
          have hsuffix : rest <:+ t :=
            (List.suffix_cons d rest).trans (hspec ▸ Tokenizer.specifier_suffix t)
          cases halpha : isalpha d with
          | false => exact .invalid hne hfit hspec halpha (Scannable.tame k n hlen htail)
          | true =>
            cases n with
            | zero => exact .surplus hne hfit hspec halpha
            | succ n =>
              have hrest := Nat.le_trans hsuffix.length_le hlen
              exact .conversion hne hfit hspec halpha
                (Scannable.tame k n hrest (htail.suffix hsuffix))
      · exact .char hc (Scannable.tame k n hlen htail)

/-- Such a text always gets a formatter. -/
theorem Scannable.init_ok {reg : Registry} (hr : reg.Exact) (lineno : Nat) {msg : Text}
    (cs : List Code) (h : Scannable (c_str msg)) :
    ∃ mf reg', init reg lineno msg (joinCodes cs) = .ok (mf, reg') := by
  have hmsg : ∀ c ∈ c_str msg, c ≠ 0 := fun c hc => by
    simpa using List.mem_takeWhile_imp hc
  obtain ⟨⟨mf, reg'⟩, hinit⟩ := (Tokenizer.init_ok_iff hr lineno hmsg cs).mpr
    (h.tame _ _ (Nat.le_refl _))
  rw [init, Tokenizer.c_str_eq hmsg] at hinit
  obtain ⟨r, hscan, hinit⟩ := bind_eq_ok.mp hinit
  obtain ⟨b, hfinish, -⟩ := bind_eq_ok.mp hinit
  refine ⟨⟨lineno, msg, joinCodes cs, b.formatters, b.lengths⟩, b.reg, ?_⟩
  rw [init, hscan, ok_bind, hfinish, ok_bind]
  rfl

/-- `length` and `format` agree. A text without an open conversion always
gets a formatter, and whatever formatter is built for a key of supported
codes, `format` and `length` return the bytes of all codes of the key, for
any arguments. -/
theorem format_eq_length {reg : Registry} (hreg : reg.Reachable) (lineno : Nat) (msg : Text)
    (cs : List Code) :
    (Scannable (c_str msg) → ∃ mf reg', init reg lineno msg (joinCodes cs) = .ok (mf, reg'))
    ∧ ∀ mf reg', init reg lineno msg (joinCodes cs) = .ok (mf, reg') →
      ∀ (m : Mem) (buf : Nat) (os : OStream),
        (mf.format m buf os).1 = mf.length m buf
          ∧ mf.length m buf = some (codeExtents m buf cs) := by
  refine ⟨Scannable.init_ok hreg.exact lineno cs, fun mf reg' h m buf os => ?_⟩
  have hcons := init_consumes hreg.exact h
  have hlength : mf.length m buf = some (codeExtents m buf cs) := by
    rw [MessageFormatter.length, hcons.length, Nat.zero_add, Nat.add_zero]
  have hformat : (mf.format m buf os).1 = some (codeExtents m buf cs) := by
    rw [MessageFormatter.format, hcons.format, Nat.zero_add, Nat.add_zero]
  exact ⟨hformat.trans hlength.symm, hlength⟩

/-- A wall-clock message with a placeholder too few. -/
theorem format_eq_length_wallClock :
    ∃ mf reg', init Registry.initial 0 (ascii ['a', '%', 'd'])
        (joinCodes [.base .u64, .base .u64, .base .u32, .opt .string]) = .ok (mf, reg')
      ∧ ∀ (m : Mem) (buf : Nat) (os : OStream),
        (mf.format m buf os).1 = mf.length m buf
          ∧ mf.length m buf
            = some (codeExtents m buf [.base .u64, .base .u64, .base .u32, .opt .string]) := by
  have hboth := format_eq_length .initial 0 (ascii ['a', '%', 'd'])
    [.base .u64, .base .u64, .base .u32, .opt .string]
  have hscan : Scannable (c_str (ascii ['a', '%', 'd'])) := by
    intro rest hrest
    have htext : c_str (ascii ['a', '%', 'd']) = [97, 37, 100] := by decide
    have hrest : rest = [100] := by
      obtain ⟨front, hfront⟩ := hrest
      rw [htext] at hfront
      rcases front with _ | ⟨x, _ | ⟨y, _ | ⟨z, front⟩⟩⟩
      · cases hfront
      · cases hfront
        rfl
      · cases hfront
      · simp at hfront
    subst hrest
    exact ⟨⟨100, List.mem_cons_self, by decide⟩, by unfold Tokenizer.FitsInt; decide,
      by unfold Tokenizer.FitsInt; decide⟩
  obtain ⟨mf, reg', hinit⟩ := hboth.1 hscan
  exact ⟨mf, reg', hinit, hboth.2 mf reg' hinit⟩

end QuickTrace
