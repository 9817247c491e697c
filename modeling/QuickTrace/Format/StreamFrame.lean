/-
QuickTrace.Format.StreamFrame — what one conversion does to the next.

The manipulators of a conversion are set on the stream that everything goes
through. A formatter is a list of items, a literal piece or an argument with
its specification; the loop of `format` is a run of `Step`s, and
`formatAll_steps` says so for any sequence of messages on one stream.

Of a specification two things can stay: a width that no insertion has used
up, and the precision. `Undisturbed` follows both through a run of steps;
`isolated_iff` says that it is exactly what it takes for every step to write
what it would write alone.
-/
import QuickTrace.Format.Tokenizable

namespace QuickTrace.StreamFrame

open QuickTrace.Lib

/-! ## Items -/

/-- A literal piece, or an argument and its conversion specification. -/
inductive Item where
  | literal (t : Text)
  | field (spec : CFormatSpec) (f : Formatter)

/-- The elements of `formatters_` for an item. -/
def Item.entries : Item → List Entry
  | .literal t => [.formatStatic t]
  | .field spec f =>
    if spec = CFormatSpec.zero then [.param f]
    else [.applyCFormatSpec spec, .param f, .resetCFormatSpec]

/-- What an item does to the stream; the bytes of its argument are at `a`. -/
def Item.run (i : Item) (m : Mem) (a : Nat) (os : OStream) : OStream :=
  match i with
  | .literal t => os.insert (.text t)
  | .field spec f =>
    if spec = CFormatSpec.zero then (f.run m a os).2
    else MessageFormatter.resetCFormatSpec
      (f.run m a (MessageFormatter.applyCFormatSpec spec os)).2

/-- How many bytes an item takes. -/
def Item.size (i : Item) (m : Mem) (a : Nat) : Nat :=
  match i with
  | .literal _ => 0
  | .field _ f => (f.run m a OStream.fresh).1

/-- The items of a list of formatters. -/
def itemsOf : List Entry → List Item
  | [] => []
  | .formatStatic t :: es => .literal t :: itemsOf es
  | .applyCFormatSpec spec :: .param f :: .resetCFormatSpec :: es => .field spec f :: itemsOf es
  | .param f :: es => .field CFormatSpec.zero f :: itemsOf es
  | _ :: es => itemsOf es

/-! ## Messages and steps -/

/-- A message on its way to the stream: a formatter that `init` has built,
and the argument bytes. -/
structure Message where
  mf : MessageFormatter
  mem : Mem
  buf : Nat
  built : ∃ reg lineno msg fmt reg', MessageFormatter.init reg lineno msg fmt = .ok (mf, reg')

/-- An item with its argument bytes. -/
structure Step where
  item : Item
  mem : Mem
  addr : Nat

/-- Items one behind the other. -/
def place (m : Mem) : Nat → List Item → List Step
  | _, [] => []
  | a, i :: is => ⟨i, m, a⟩ :: place m (a + i.size m a) is

/-- The steps of a message. -/
def Message.steps (x : Message) : List Step := place x.mem x.buf (itemsOf x.mf.formatters)

/-- What a step does to the stream. -/
def Step.run (os : OStream) (s : Step) : OStream := s.item.run s.mem s.addr os

/-- The characters a step writes alone. -/
def Step.own (ft : FloatText) (s : Step) : Text := (Step.run OStream.fresh s).text ft

/-- Messages formatted one behind the other on one stream. -/
def formatAll (xs : List Message) (os : OStream) : OStream :=
  xs.foldl (fun os x => (x.mf.format x.mem x.buf os).2) os

/-- In a run from a fresh stream every step writes its own characters. -/
def Isolated (ft : FloatText) (ss : List Step) : Prop :=
  ∀ pre s post, ss = pre ++ s :: post →
    ((pre ++ [s]).foldl Step.run OStream.fresh).text ft
      = (pre.foldl Step.run OStream.fresh).text ft ++ s.own ft

/-! ## What a conversion leaves behind -/

/-- What a formatter inserts first, and whether it is in hexadecimal. Strings
are not inserted but written, and the wall-clock fields are not shown. -/
def first : Formatter → Mem → Nat → Bool → Option (Bool × Piece)
  | .u8, m, a, _ => some (false, .num (m a).toNat)
  | .u16, m, a, _ => some (false, .num (m.load a 2))
  | .u32, m, a, showPos =>
    some (false, if showPos then .text (ascii ['+']) else .num (m.load a 4))
  | .u64, m, a, _ => some (false, .num (m.load a 8))
  | .char, m, a, _ => some (false, .char (m a))
  | .string, _, _, _ => none
  | .bool, m, a, _ => some (false, .bool (m a != 0))
  | .float, m, a, _ => some (false, .float (UInt32.ofNat (m.load a 4)))
  | .double, m, a, _ => some (false, .double (UInt64.ofNat (m.load a 8)))
  | .wallClockRingBuf, _, _, _ => none
  | .u8Hex, m, a, _ => some (true, .num (m a).toNat)
  | .u16Hex, m, a, _ => some (true, .num (m.load a 2))
  | .u32Hex, m, a, _ => some (true, .num (m.load a 4))
  | .u64Hex, m, a, _ => some (true, .num (m.load a 8))
  | .opt inner, m, a, showPos =>
    if m a = 0 then some (false, .optionalNone) else first inner m (a + 1) showPos

/-- The width that is pending after a step. -/
def Step.widthLeft (width : Int) (s : Step) : Int :=
  match s.item with
  | .literal _ => 0
  | .field spec f =>
    match first f s.mem s.addr spec.showPos with
    | some _ => 0
    | none => if spec.hasWidth then spec.width.toInt else width

/-- The precision after a step. -/
def Step.precisionLeft (precision : Int) (s : Step) : Int :=
  match s.item with
  | .literal _ => precision
  | .field spec _ => if spec.hasPrecision then spec.precision.toInt else precision

/-- A floating-point number. -/
def isFloat : Piece → Bool
  | .float _ => true
  | .double _ => true
  | _ => false

/-- The flags that a conversion alone has in force. -/
def ownFlags (spec : CFormatSpec) (hex : Bool) : Flags :=
  { (MessageFormatter.applyCFormatSpec spec OStream.fresh).flags with hex }

/-- The step is not disturbed: what it inserts first is at least as long as
the pending width, unless it has a width of its own; and a floating-point
number that is converted with a width and without a precision is spelled
with the precision in force as with the initial one. -/
def Step.Undisturbed (ft : FloatText) (width precision : Int) (s : Step) : Prop :=
  match s.item with
  | .literal t => width.toNat ≤ t.length
  | .field spec f =>
    match first f s.mem s.addr spec.showPos with
    | none => True
    | some (hex, p) =>
      (spec.hasWidth = true ∨ width.toNat ≤ (p.string ft (ownFlags spec hex)).length)
      ∧ (isFloat p = true → spec.hasWidth = true → spec.hasPrecision = false →
          p.rendered ft { ownFlags spec hex with precision }
            = p.rendered ft (ownFlags spec hex))

/-- No step of a run is disturbed. -/
def Undisturbed (ft : FloatText) : Int → Int → List Step → Prop
  | _, _, [] => True
  | width, precision, s :: ss =>
    s.Undisturbed ft width precision
      ∧ Undisturbed ft (s.widthLeft width) (s.precisionLeft precision) ss

/-! ## One formatter -/

/-- Between two steps only a width and a precision can be left. -/
def between (width precision : Int) : Flags := { Flags.initial with width, precision }

theorem fresh_flags : OStream.fresh.flags = between 0 6 := rfl

section

variable {ft : FloatText} {os : OStream} {m : Mem} {a : Nat}

theorem rendered_ne_str {p : Piece} (h : ∀ t, p ≠ .str t) (fl : Flags) : p.rendered ft fl
    = List.replicate (fl.width.toNat - (p.string ft fl).length) fl.fill ++ p.string ft fl := by
  cases p with
  | str t => exact absurd rfl (h t)
  | _ => rfl

/-- The only piece that is written without padding. -/
def isStr : Piece → Bool
  | .str _ => true
  | _ => false

theorem ne_str {p : Piece} (h : isStr p = false) (t : Text) : p ≠ .str t := by
  intro hp
  rw [hp] at h
  cases h

/-- A formatter that inserts something uses up the width; what it writes
behind the first insertion does not depend on the stream. -/
theorem run_first (ft : FloatText) (m : Mem) (f : Formatter) (a : Nat) (showPos : Bool) :
    ∃ t : Text, ∀ os : OStream, os.flags.hex = false → os.flags.showpos = showPos →
      match first f m a showPos with
      | none => (f.run m a os).2.flags = os.flags ∧ (f.run m a os).2.text ft = os.text ft ++ t
      | some (hex, p) => (∀ t, p ≠ .str t)
        ∧ (f.run m a os).2.flags = { os.flags with width := 0 }
        ∧ (f.run m a os).2.text ft = os.text ft ++ p.rendered ft { os.flags with hex } ++ t := by
  induction f generalizing a with
  | string =>
    refine ⟨readBytes m (a + 1) (m a).toNat, fun os _ _ => ⟨rfl, ?_⟩⟩
    rw [Formatter.run, OStream.text_write]
  | wallClockRingBuf => exact ⟨[], fun os _ _ => ⟨rfl, (List.append_nil _).symm⟩⟩
  | opt inner ih =>
    by_cases h0 : m a = 0
    · refine ⟨[], fun os hhex _ => ?_⟩
      simp only [first, h0, if_true, Formatter.run]
      refine ⟨ne_str rfl, rfl, ?_⟩
      rw [OStream.text_insert, ← hhex, List.append_nil]
    · obtain ⟨t, ht⟩ := ih (a + 1)
      refine ⟨t, fun os hhex hpos => ?_⟩
      have := ht os hhex hpos
      simp only [first, h0, if_false, Formatter.run]
      exact this
  | u32 =>
    cases showPos with
    | false =>
      refine ⟨[], fun os hhex hpos => ?_⟩
      obtain ⟨⟨hex, showbase, showpos, fixed, fill, w, q⟩, out⟩ := os
      cases hhex
      cases hpos
      exact ⟨ne_str rfl, rfl, by simp [Formatter.run]⟩
    | true =>
      refine ⟨numeral 10 (m.load a 4), fun os hhex hpos => ?_⟩
      obtain ⟨⟨hex, showbase, showpos, fixed, fill, w, q⟩, out⟩ := os
      cases hhex
      cases hpos
      refine ⟨ne_str rfl, rfl, ?_⟩
      simp [Formatter.run, Piece.rendered, Piece.string, numString, OStream.insert, OStream.text]
  | u8Hex | u16Hex | u32Hex | u64Hex =>
    refine ⟨[], fun os hhex _ => ?_⟩
    simp only [first, Formatter.run, insertHex]
    refine ⟨ne_str rfl, by simp [OStream.setHex, OStream.insert, hhex], ?_⟩
    rw [OStream.text_setHex, OStream.text_insert, OStream.text_setHex, List.append_nil]
    rfl
  | _ =>
    refine ⟨[], fun os hhex _ => ?_⟩
    simp only [first, Formatter.run]
    refine ⟨ne_str rfl, rfl, ?_⟩
    rw [OStream.text_insert, ← hhex, List.append_nil]

end

/-! ## One step -/

/-- The flags in force for the argument of a conversion. -/
def flagsFor (spec : CFormatSpec) (width precision : Int) : Flags where
  hex := false
  showbase := spec.alternate
  showpos := spec.showPos
  fixed := spec.hasWidth || spec.hasPrecision
  fill := if spec.zeroPad then 48 else 32
  width := if spec.hasWidth then spec.width.toInt else width
  precision := if spec.hasPrecision then spec.precision.toInt else precision

theorem applyCFormatSpec_flags {os : OStream} {width precision : Int}
    (h : os.flags = between width precision) (spec : CFormatSpec) :
    (MessageFormatter.applyCFormatSpec spec os).flags = flagsFor spec width precision := by
  obtain ⟨alternate, showPos, zeroPad, hasWidth, hasPrecision, w, q⟩ := spec
  unfold MessageFormatter.applyCFormatSpec flagsFor
  rw [h]
  cases alternate <;> cases showPos <;> cases zeroPad <;> cases hasWidth <;> cases hasPrecision
    <;> rfl

theorem ownFlags_eq (spec : CFormatSpec) (hex : Bool) :
    ownFlags spec hex = { flagsFor spec 0 6 with hex } := by
  rw [ownFlags, applyCFormatSpec_flags fresh_flags]

/-- What a conversion leaves is a width and a precision. -/
theorem resetCFormatSpec_flags {os : OStream} {spec : CFormatSpec} {width precision w : Int}
    (h : os.flags = { flagsFor spec width precision with width := w }) :
    (MessageFormatter.resetCFormatSpec os).flags
      = between w (if spec.hasPrecision then spec.precision.toInt else precision) := by
  unfold MessageFormatter.resetCFormatSpec
  rw [h]
  rfl

theorem applyCFormatSpec_zero (os : OStream) :
    MessageFormatter.applyCFormatSpec CFormatSpec.zero os = os := rfl

/-- A width and a precision stay, whatever the conversion. -/
theorem field_run (ft : FloatText) (spec : CFormatSpec) (f : Formatter) (m : Mem) (a : Nat) :
    ∃ t : Text, ∀ (os : OStream) (width precision : Int), os.flags = between width precision →
      let os' := (Item.field spec f).run m a os
      let q := if spec.hasPrecision then spec.precision.toInt else precision
      match first f m a spec.showPos with
      | none => os'.flags = between (if spec.hasWidth then spec.width.toInt else width) q
        ∧ os'.text ft = os.text ft ++ t
      | some (hex, p) => (∀ t, p ≠ .str t) ∧ os'.flags = between 0 q
        ∧ os'.text ft
          = os.text ft ++ p.rendered ft { flagsFor spec width precision with hex } ++ t := by
  obtain ⟨t, ht⟩ := run_first ft m f a spec.showPos
  refine ⟨t, fun os width precision h => ?_⟩
  have hflags := applyCFormatSpec_flags h spec
  have hrun := ht (MessageFormatter.applyCFormatSpec spec os) (by rw [hflags]; rfl)
    (by rw [hflags]; rfl)
  have htext : (MessageFormatter.applyCFormatSpec spec os).text ft = os.text ft := rfl
  rw [hflags, htext] at hrun
  have hzero : spec = CFormatSpec.zero →
      MessageFormatter.applyCFormatSpec spec os = os := by
    rintro rfl
    exact applyCFormatSpec_zero os
  dsimp only [Item.run]
  by_cases hz : spec = CFormatSpec.zero
  · rw [hzero hz] at hrun
    subst hz
    rw [if_pos rfl]
    cases hfirst : first f m a CFormatSpec.zero.showPos with
    | none =>
      rw [hfirst] at hrun
      exact hrun
    | some r =>
      rw [hfirst] at hrun
      exact hrun
  · rw [if_neg hz]
    cases hfirst : first f m a spec.showPos with
    | none =>
      rw [hfirst] at hrun
      exact ⟨@resetCFormatSpec_flags _ spec width precision _ hrun.1, hrun.2⟩
    | some r =>
      rw [hfirst] at hrun
      exact ⟨hrun.1, resetCFormatSpec_flags hrun.2.1, hrun.2.2⟩

/-- The library spells a number first and pads it then. -/
def PadsAfterwards (ft : FloatText) : Prop :=
  (∀ (fl : Flags) (width : Int) (bits : UInt32),
    ft.insertFloat { fl with width } bits = ft.insertFloat fl bits)
  ∧ ∀ (fl : Flags) (width : Int) (bits : UInt64),
    ft.insertDouble { fl with width } bits = ft.insertDouble fl bits

section

variable {ft : FloatText} {fl : Flags} {p : Piece}

theorem string_width (hft : PadsAfterwards ft) (w : Int) :
    p.string ft { fl with width := w } = p.string ft fl := by
  cases p with
  | float bits => simp [Piece.string, hft.1 fl w bits]
  | double bits => simp [Piece.string, hft.2 fl w bits]
  | _ => rfl

/-- The precision only counts for floating-point numbers in fixed notation. -/
theorem string_precision (h : isFloat p = false ∨ fl.fixed = false) (q : Int) :
    p.string ft { fl with precision := q } = p.string ft fl := by
  cases p with
  | float bits | double bits =>
    rcases h with h | h
    · cases h
    · simp [Piece.string, h]
  | _ => rfl

variable (ft fl) in
theorem rendered_precision (hp : ∀ t, p ≠ .str t) (h : isFloat p = false ∨ fl.fixed = false)
    (q : Int) : p.rendered ft { fl with precision := q } = p.rendered ft fl := by
  rw [rendered_ne_str hp, rendered_ne_str hp, string_precision h]

variable (ft fl) in
/-- A pending width shows if it is larger than the piece. -/
theorem rendered_width (hft : PadsAfterwards ft) (hp : ∀ t, p ≠ .str t) (hw : fl.width = 0)
    (w : Int) : p.rendered ft { fl with width := w } = p.rendered ft fl
      ↔ w.toNat ≤ (p.string ft fl).length := by
  rw [rendered_ne_str hp, rendered_ne_str hp, string_width hft, hw]
  simp only [Int.toNat_zero, Nat.zero_sub, List.replicate_zero, List.nil_append]
  constructor
  · intro h
    have hlen := congrArg List.length h
    rw [List.length_append, List.length_replicate] at hlen
    omega
  · intro h
    rw [Nat.sub_eq_zero_of_le h]
    rfl

end

/-- The first insertion of a conversion is its own one exactly if it is not
disturbed. -/
theorem rendered_iff {ft : FloatText} (hft : PadsAfterwards ft) {p : Piece}
    (hp : ∀ t, p ≠ .str t) (spec : CFormatSpec) (hex : Bool) (width precision : Int) :
    p.rendered ft { flagsFor spec width precision with hex } = p.rendered ft (ownFlags spec hex)
      ↔ (spec.hasWidth = true ∨ width.toNat ≤ (p.string ft (ownFlags spec hex)).length)
        ∧ (isFloat p = true → spec.hasWidth = true → spec.hasPrecision = false →
          p.rendered ft { ownFlags spec hex with precision }
            = p.rendered ft (ownFlags spec hex)) := by
  rw [ownFlags_eq]
  cases hw : spec.hasWidth with
  | true =>
    cases hq : spec.hasPrecision with
    | true => simp [flagsFor, hw, hq]
    | false =>
      cases hfloat : isFloat p with
      | true => simp [flagsFor, hw, hq]
      | false =>
        have hsame := rendered_precision ft { flagsFor spec 0 6 with hex } hp
          (.inl hfloat) precision
        simpa [flagsFor, hw, hq] using hsame
  | false =>
    have hwidth := rendered_width ft { flagsFor spec 0 6 with hex } hft hp
      (by simp [flagsFor, hw]) width
    cases hq : spec.hasPrecision with
    | true => simpa [flagsFor, hw, hq] using hwidth
    | false =>
      have hsame := rendered_precision ft { { flagsFor spec 0 6 with hex } with width } hp
        (.inr (by simp [flagsFor, hw, hq])) precision
      rw [← hsame] at hwidth
      simpa [flagsFor, hw, hq] using hwidth

/-- A step leaves a width and a precision, and it writes its own characters
exactly if it is not disturbed. -/
theorem step_run {ft : FloatText} (hft : PadsAfterwards ft) (s : Step) {os : OStream}
    {width precision : Int} (h : os.flags = between width precision) :
    (s.run os).flags = between (s.widthLeft width) (s.precisionLeft precision)
      ∧ ((s.run os).text ft = os.text ft ++ s.own ft ↔ s.Undisturbed ft width precision) := by
  obtain ⟨item, m, a⟩ := s
  cases item with
  | literal t =>
    refine ⟨?_, ?_⟩
    · show { os.flags with width := 0 } = between 0 precision
      rw [h]
      rfl
    · show (os.insert (.text t)).text ft = os.text ft ++ (OStream.fresh.insert (.text t)).text ft ↔ _
      have hwidth := rendered_width ft (between 0 precision) (p := .text t) hft (ne_str rfl)
        rfl width
      have hown : (OStream.fresh.insert (.text t)).text ft = t := by
        rw [OStream.text_insert]
        simp [OStream.fresh, OStream.text, Piece.rendered, Piece.string, Flags.initial]
      rw [OStream.text_insert, hown, h, List.append_cancel_left_eq]
      rw [show Piece.rendered ft (between 0 precision) (.text t) = t by
        simp [Piece.rendered, Piece.string, between]] at hwidth
      exact hwidth
  | field spec f =>
    obtain ⟨t, ht⟩ := field_run ft spec f m a
    have hrun := ht os width precision h
    have hfresh := ht OStream.fresh 0 6 fresh_flags
    unfold Step.widthLeft Step.precisionLeft Step.Undisturbed Step.own Step.run
    dsimp only at hrun hfresh ⊢
    cases hfirst : first f m a spec.showPos with
    | none =>
      rw [hfirst] at hrun hfresh
      refine ⟨hrun.1, iff_of_true ?_ trivial⟩
      rw [hrun.2, hfresh.2]
      rfl
    | some r =>
      obtain ⟨hex, p⟩ := r
      rw [hfirst] at hrun hfresh
      obtain ⟨hp, hflags, htext⟩ := hrun
      refine ⟨hflags, ?_⟩
      have hempty : OStream.fresh.text ft = [] := rfl
      dsimp only
      rw [htext, hfresh.2.2, hempty, List.nil_append, List.append_assoc, List.append_cancel_left_eq,
        List.append_cancel_right_eq, ← ownFlags_eq]
      exact rendered_iff hft hp spec hex width precision

/-! ## Runs -/

/-- The steps of a run write their own characters exactly if none is
disturbed. -/
theorem isolated_from {ft : FloatText} (hft : PadsAfterwards ft) : ∀ (ss : List Step)
    {os : OStream} {width precision : Int}, os.flags = between width precision →
    ((∀ pre s post, ss = pre ++ s :: post →
        ((pre ++ [s]).foldl Step.run os).text ft = (pre.foldl Step.run os).text ft ++ s.own ft)
      ↔ Undisturbed ft width precision ss)
  | [], os, width, precision, h => by
      refine iff_of_true ?_ trivial
      intro pre s post heq
      cases pre with
      | nil => cases heq
      | cons _ _ => cases heq
  | s :: ss, os, width, precision, h => by
      obtain ⟨hflags, hown⟩ := step_run hft s h
      have ih := isolated_from hft ss hflags
      rw [Undisturbed, ← hown, ← ih]
      constructor
      · intro hall
        refine ⟨hall [] s ss rfl, fun pre s' post heq => ?_⟩
        exact hall (s :: pre) s' post (by rw [heq]; rfl)
      · rintro ⟨hs, hrest⟩ pre s' post heq
        cases pre with
        | nil =>
          cases heq
          exact hs
        | cons _ pre =>
          cases heq
          exact hrest pre s' post rfl

/-! ## Messages are runs of steps -/

/-- A formatter takes at least one byte, whatever the stream. -/
theorem run_size (m : Mem) (f : Formatter) (a : Nat) (os : OStream) :
    (f.run m a os).1 = (f.run m a OStream.fresh).1 ∧ (f.run m a os).1 ≠ 0 := by
  induction f generalizing a os with
  | opt inner ih =>
    by_cases h0 : m a = 0
    · simp [Formatter.run, h0]
    · simp only [Formatter.run, h0, if_false]
      exact ⟨by rw [(ih (a + 1) os).1], by omega⟩
  | string => exact ⟨rfl, by simp [Formatter.run]⟩
  | _ => exact ⟨rfl, by simp [Formatter.run]⟩

theorem formatLoop_param (m : Mem) (buf : Nat) (f : Formatter) (es : List Entry) (n : Nat)
    (os : OStream) : MessageFormatter.formatLoop m buf (.param f :: es) n os
      = MessageFormatter.formatLoop m buf es (n + (f.run m (buf + n) OStream.fresh).1)
        (f.run m (buf + n) os).2 := by
  obtain ⟨hsize, hne⟩ := run_size m f (buf + n) os
  rw [hsize] at hne
  rw [MessageFormatter.formatLoop]
  simp only [hsize, hne, if_false]

/-- The loop of `format` over items is a run of their steps. -/
theorem formatLoop_items (m : Mem) (buf : Nat) : ∀ (is : List Item) (n : Nat) (os : OStream),
    (MessageFormatter.formatLoop m buf (is.flatMap Item.entries) n os).2
      = (place m (buf + n) is).foldl Step.run os
  | [], n, os => rfl
  | .literal t :: is, n, os => formatLoop_items m buf is n (os.insert (.text t))
  | .field spec f :: is, n, os => by
      rw [List.flatMap_cons, Item.entries, place, List.foldl_cons, Step.run, Item.run]
      by_cases hz : spec = CFormatSpec.zero
      · rw [if_pos hz, if_pos hz, List.singleton_append, formatLoop_param, formatLoop_items m buf is,
          ← Nat.add_assoc]
        rfl
      · rw [if_neg hz, if_neg hz, List.cons_append, MessageFormatter.formatLoop, List.cons_append,
          formatLoop_param, List.cons_append, MessageFormatter.formatLoop, List.nil_append,
          formatLoop_items m buf is, ← Nat.add_assoc]
        rfl

theorem itemsOf_entries : ∀ is : List Item, itemsOf (is.flatMap Item.entries) = is
  | [] => rfl
  | .literal t :: is => by
      rw [List.flatMap_cons, Item.entries, List.singleton_append, itemsOf, itemsOf_entries is]
  | .field spec f :: is => by
      rw [List.flatMap_cons, Item.entries]
      by_cases hz : spec = CFormatSpec.zero
      · rw [if_pos hz, List.singleton_append, itemsOf, itemsOf_entries is, hz]
      · rw [if_neg hz]
        simp only [List.cons_append, List.nil_append, itemsOf, itemsOf_entries is]

/-- The elements are those of items. -/
def Itemized (es : List Entry) : Prop := ∃ is : List Item, es = is.flatMap Item.entries

theorem itemized_nil : Itemized [] := ⟨[], rfl⟩

theorem itemized_static (t : Text) : Itemized [.formatStatic t] := ⟨[.literal t], rfl⟩

theorem itemized_param (f : Formatter) : Itemized [.param f] :=
  ⟨[.field CFormatSpec.zero f], by simp [Item.entries]⟩

theorem Itemized.append {es fs : List Entry} (h : Itemized es) (h' : Itemized fs) :
    Itemized (es ++ fs) := by
  obtain ⟨is, rfl⟩ := h
  obtain ⟨js, rfl⟩ := h'
  exact ⟨is ++ js, (List.flatMap_append).symm⟩

theorem Itemized.pushIf_static {b : Builder} (h : Itemized b.formatters) (c : Bool) (t : Text) :
    Itemized (b.pushIf c (.formatStatic t)).formatters := by
  cases c with
  | true => exact h.append (itemized_static t)
  | false => exact h

/-- What `addFormatter` adds. -/
theorem addFormatter_formatters {b b' : Builder} {conv : UInt8}
    (h : b.addFormatter conv = .ok b') : ∃ f, b'.formatters = b.formatters ++ [.param f] := by
  unfold Builder.addFormatter at h
  split at h
  · cases h
  · rename_i f reg hsel
    obtain ⟨l, -, rfl⟩ := map_eq_ok.mp h
    exact ⟨f, rfl⟩

theorem addParam_itemized {b b' : Builder} {before : Text} {p : ParamSpec}
    (hb : Itemized b.formatters) (h : b.addParam before p = .ok b') : Itemized b'.formatters := by
  unfold Builder.addParam at h
  dsimp only at h
  obtain ⟨b₁, hb₁, rfl⟩ := map_eq_ok.mp h
  have hstart := (hb.pushIf_static (!before.isEmpty) before).pushIf_static
    (p.conversionSpecifier == 112) (ascii ['0', 'x'])
  obtain ⟨f, hf⟩ := addFormatter_formatters hb₁
  by_cases hz : p.cFormatSpec = CFormatSpec.zero
  · have hcustom : (p.cFormatSpec != CFormatSpec.zero) = false := by simp [hz]
    rw [hcustom] at hf ⊢
    have hsame : b₁.formatters = _ ++ [.param f] := hf
    show Itemized b₁.formatters
    rw [hsame]
    exact hstart.append (itemized_param f)
  · have hcustom : (p.cFormatSpec != CFormatSpec.zero) = true := by simpa using hz
    rw [hcustom] at hf ⊢
    show Itemized (b₁.formatters ++ [.resetCFormatSpec])
    rw [hf]
    have hfield : Itemized [.applyCFormatSpec p.cFormatSpec, .param f, .resetCFormatSpec] :=
      ⟨[.field p.cFormatSpec f], by simp [Item.entries, hz]⟩
    have hall := hstart.append hfield
    simpa [Builder.pushIf, Builder.push] using hall

theorem scan_itemized : ∀ (fuel : Nat) {t rest : Text} {b b' : Builder},
    Itemized b.formatters → b.scan fuel t = .ok (rest, b') → Itemized b'.formatters
  | 0, t, rest, b, b', hb, h => by
      cases h
      exact hb
  | fuel + 1, t, rest, b, b', hb, h => by
      rw [Builder.scan] at h
      split at h
      · cases h
        exact hb
      · obtain ⟨o, -, h⟩ := bind_eq_ok.mp h
        rcases o with _ | ⟨before, p⟩
        · cases h
          exact hb.append (itemized_static t)
        · dsimp only at h
          split at h
          · exact scan_itemized fuel (b := b.push _) (hb.append (itemized_static _)) h
          · split at h
            · cases h
              exact hb
            · obtain ⟨b₁, hb₁, h⟩ := bind_eq_ok.mp h
              exact scan_itemized fuel (addParam_itemized hb hb₁) h

theorem emitAll_itemized : ∀ (fuel : Nat) (first : Bool) {b b' : Builder},
    Itemized b.formatters → b.emitAll fuel first = .ok b' → Itemized b'.formatters
  | 0, first, b, b', hb, h => by
      cases h
      exact hb
  | fuel + 1, first, b, b', hb, h => by
      rw [Builder.emitAll] at h
      split at h
      · cases h
        exact hb
      · obtain ⟨b₁, hb₁, h⟩ := bind_eq_ok.mp h
        obtain ⟨f, hf⟩ := addFormatter_formatters hb₁
        refine emitAll_itemized fuel false ?_ h
        rw [hf]
        exact (hb.pushIf_static (!first) (ascii [','])).append (itemized_param f)

/-- A formatter that `init` builds is a list of items. -/
theorem init_itemized {reg reg' : Registry} {lineno : Nat} {msg fmt : Text}
    {mf : MessageFormatter} (h : MessageFormatter.init reg lineno msg fmt = .ok (mf, reg')) :
    Itemized mf.formatters := by
  unfold MessageFormatter.init at h
  obtain ⟨⟨rest, b⟩, hscan, h⟩ := bind_eq_ok.mp h
  obtain ⟨b', hfin, h⟩ := bind_eq_ok.mp h
  cases h
  have hstart : Itemized
      (MessageFormatter.start reg lineno (MessageFormatter.c_str fmt)).formatters := by
    unfold MessageFormatter.start
    split
    · exact itemized_param _
    · exact itemized_nil
  unfold MessageFormatter.finish at hfin
  split at hfin
  · unfold MessageFormatter.fallback at hfin
    obtain ⟨b₁, hb₁, rfl⟩ := map_eq_ok.mp hfin
    refine Itemized.append (emitAll_itemized _ true ?_ hb₁) (itemized_static _)
    exact (itemized_static _).append (itemized_static _)
  · cases hfin
    exact scan_itemized _ hstart hscan

/-- Formatting a message is running its steps. -/
theorem format_steps (x : Message) (os : OStream) :
    (x.mf.format x.mem x.buf os).2 = x.steps.foldl Step.run os := by
  obtain ⟨reg, lineno, msg, fmt, reg', hinit⟩ := x.built
  obtain ⟨is, his⟩ := init_itemized hinit
  unfold MessageFormatter.format Message.steps
  rw [his, itemsOf_entries, formatLoop_items, Nat.add_zero]

theorem formatAll_steps : ∀ (xs : List Message) (os : OStream),
    formatAll xs os = (xs.flatMap Message.steps).foldl Step.run os
  | [], os => rfl
  | x :: xs, os => by
      rw [formatAll, List.foldl_cons, format_steps, List.flatMap_cons, List.foldl_append]
      exact formatAll_steps xs _

/-- For any sequence of messages, formatted one behind the other on a fresh
stream: `format` runs their steps, and each literal piece and each argument
is written as it would be alone exactly if no step is disturbed by a width
that is still pending or by the precision of an earlier conversion. -/
theorem isolated_iff {ft : FloatText} (hft : PadsAfterwards ft) (xs : List Message) :
    formatAll xs OStream.fresh = (xs.flatMap Message.steps).foldl Step.run OStream.fresh
      ∧ (Isolated ft (xs.flatMap Message.steps)
        ↔ Undisturbed ft 0 6 (xs.flatMap Message.steps)) :=
  ⟨formatAll_steps xs OStream.fresh, isolated_from hft _ fresh_flags⟩

/-- A spelling for runs without floating-point numbers. -/
def noFloats : FloatText := ⟨fun _ => [], fun _ => [], fun _ _ => [], fun _ _ => []⟩

/-- `%5s`. -/
def widthFive : CFormatSpec := ⟨false, false, false, true, false, 5, 0⟩

/-- `QTRACE( "%5s|", "ab" )`. -/
def paddedString : Message where
  mf :=
    { lineno := 1, msg := ascii ['%', '5', 's', '|'], fmt := ascii ['p'],
      formatters := [.applyCFormatSpec widthFive, .param .string, .resetCFormatSpec,
        .formatStatic (ascii ['|'])],
      lengths := [.string] }
  mem := fun a => if a = 0 then 2 else if a = 1 then 97 else 98
  buf := 0
  built := ⟨Registry.initial, 1, ascii ['%', '5', 's', '|'], ascii ['p'], Registry.initial, by rfl⟩

theorem isolated_iff_padded :
    formatAll [paddedString] OStream.fresh
        = ([paddedString].flatMap Message.steps).foldl Step.run OStream.fresh
      ∧ (Isolated noFloats ([paddedString].flatMap Message.steps)
        ↔ Undisturbed noFloats 0 6 ([paddedString].flatMap Message.steps)) :=
  isolated_iff ⟨fun _ _ _ => rfl, fun _ _ _ => rfl⟩ [paddedString]

/-- The string is written as it is, and the bar is padded in its place. -/
theorem bar_padded : ¬ Isolated noFloats ([paddedString].flatMap Message.steps)
    ∧ (formatAll [paddedString] OStream.fresh).text noFloats
      = ascii ['a', 'b', ' ', ' ', ' ', ' ', '|'] := by
  refine ⟨fun h => ?_, by decide +kernel⟩
  have hbar := h [⟨.field widthFive .string, paddedString.mem, 0⟩]
    ⟨.literal (ascii ['|']), paddedString.mem, 3⟩ [] (by rfl)
  revert hbar
  decide +kernel

end QuickTrace.StreamFrame
