/-
QuickTrace.Format.Spelled — the text of a message from its values.

A formatter is built from a text of tokens and a key of scalar types. A
stream without manipulators is left so by it, and what it writes there is the
text with the values it has decoded in their places, or behind it when the
numbers differ (`meaning`). `Spelled` says this of a formatter,
`init_spelled` that `init` builds such a formatter, and `Spelled.format` is
what a reader uses: text and values of a message in one statement.
-/
import QuickTrace.Format.Printf

namespace QuickTrace

open QuickTrace.Lib

/-! ## Scalar types -/

/-- The code of a type, for an optional that of the type inside. -/
def Ty.base : Ty → Base
  | .char => .char
  | .bool => .bool
  | .u8 | .i8 => .u8
  | .u16 | .i16 => .u16
  | .u32 | .i32 => .u32
  | .u64 | .i64 | .ptr => .u64
  | .float => .float
  | .double => .double
  | .str => .string
  | .opt t => t.base

theorem Code.ofTy_base {t : Ty} (h : t.optDepth = 0) : Code.ofTy t = some (.base t.base) := by
  cases t with
  | opt t => simp [Ty.optDepth] at h
  | _ => rfl

/-- The key of scalar types is a key of codes. -/
theorem joinCodes_base {ts : List Ty} (h : ∀ t ∈ ts, t.optDepth = 0) :
    joinCodes ((ts.map Ty.base).map .base) = joinKeys ts := by
  refine joinCodes_ofTy ?_
  rw [List.map_map]
  induction ts with
  | nil => exact .nil
  | cons t ts ih =>
    obtain ⟨ht, hts⟩ := List.forall_mem_cons.mp h
    exact .cons (Code.ofTy_base ht) (ih hts)

/-- A formatter that fits a scalar type is the one of its code. -/
theorem formatter_of_fits {f : Formatter} {t : Ty} (ht : t.optDepth = 0)
    (h : f.fits t = true) : ∃ isHex, f = t.base.formatter isHex := by
  cases t with
  | opt t => simp [Ty.optDepth] at ht
  | _ =>
    cases f with
    | u8Hex | u16Hex | u32Hex | u64Hex => first | exact ⟨true, rfl⟩ | cases h
    | _ => first | exact ⟨false, rfl⟩ | cases h

namespace Printf

/-! ## Values -/

/-- The value of a scalar is always there. -/
theorem decode_base (m : Mem) (a : Nat) (t : Ty) : ∃ p, decode m a t.base = some p := by
  induction t with
  | opt t ih => exact ih
  | _ => exact ⟨_, rfl⟩

theorem decodeAll_base (m : Mem) : ∀ (ts : List Ty) (a : Nat),
    ∃ ps : List Piece, decodeAll m a (ts.map Ty.base) = ps.map some
  | [], a => ⟨[], rfl⟩
  | t :: ts, a => by
      obtain ⟨p, hp⟩ := decode_base m a t
      obtain ⟨ps, hps⟩ := decodeAll_base m ts (a + t.base.length.run m a)
      exact ⟨p :: ps, by rw [List.map_cons, decodeAll, hp, hps, List.map_cons]⟩

/-- The formatter of a code decodes one value, whatever the stream is
like. -/
theorem run_values (b : Base) (isHex : Bool) (m : Mem) (a : Nat) (os : OStream) :
    ((b.formatter isHex).run m a os).1 = b.length.run m a
      ∧ ((b.formatter isHex).run m a os).2.values = os.values ++ (decode m a b).toList := by
  cases b with
  | u8 | u16 | u64 =>
    cases isHex with
    | true => exact ⟨rfl, values_insertHex os _⟩
    | false => exact ⟨rfl, os.values_insert _⟩
  | u32 =>
    cases isHex with
    | true => exact ⟨rfl, values_insertHex os _⟩
    | false =>
      refine ⟨rfl, ?_⟩
      show (Formatter.run .u32 m a os).2.values = _
      -- the sign in front is no value
      simp only [Formatter.run]
      split <;> simp [Piece.isValue, decode]
  | string =>
    cases isHex with
    | _ => exact ⟨rfl, os.values_write _⟩
  | wallClock =>
    cases isHex with
    | _ => exact ⟨rfl, (List.append_nil _).symm⟩
  | char | bool | float | double =>
    cases isHex with
    | _ => exact ⟨rfl, os.values_insert _⟩

/-- Entries for scalar types decode the values in their order. -/
theorem formatLoop_values (m : Mem) (buf : Nat) : ∀ (es : List Entry) {ts : List Ty},
    FormattersFit es ts → (∀ t ∈ ts, t.optDepth = 0) → ∀ (n : Nat) (os : OStream),
    (MessageFormatter.formatLoop m buf es n os).2.values
      = os.values ++ (decodeAll m (buf + n) (ts.map Ty.base)).flatMap Option.toList
  | [], _, .nil, _, n, os => (List.append_nil _).symm
  | .formatStatic t :: es, ts, h, hs, n, os => by
      rw [MessageFormatter.formatLoop, formatLoop_values m buf es h hs, OStream.values_insert,
        if_neg (by simp [Piece.isValue]), List.append_nil]
  | .applyCFormatSpec spec :: es, ts, h, hs, n, os => by
      rw [MessageFormatter.formatLoop, formatLoop_values m buf es h hs]
      rfl
  | .resetCFormatSpec :: es, ts, h, hs, n, os => by
      rw [MessageFormatter.formatLoop, formatLoop_values m buf es h hs]
      rfl
  | .param f :: es, t :: ts, .cons hf h, hs, n, os => by
      obtain ⟨ht, hs⟩ := List.forall_mem_cons.mp hs
      obtain ⟨isHex, rfl⟩ := formatter_of_fits ht hf
      obtain ⟨hrun, hvalues⟩ := run_values t.base isHex m (buf + n) os
      have hpos : t.base.length.run m (buf + n) ≠ 0 := by
        cases t.base with
        | _ => simp [Base.length, Length.run]
      rw [MessageFormatter.formatLoop, hrun, if_neg hpos, formatLoop_values m buf es h hs, hvalues,
        List.map_cons, decodeAll, List.flatMap_cons, List.append_assoc, Nat.add_assoc]

/-! ## The formatter of a text -/

/-- What a text means for its arguments: they stand in the places of its
conversions or, when the numbers differ, behind it. -/
def meaning (ft : FloatText) (ts : List Token) (ps : List (Option Piece)) : Text :=
  if conversions ts = ps.length then printed ft ts ps else mismatched ft (spell ts) ps

/-- The formatter decodes scalars of these types and writes the text with
them. -/
structure Spelled (mf : MessageFormatter) (tokens : List Token) (types : List Ty) : Prop where
  scalar : ∀ t ∈ types, t.optDepth = 0
  fits : FormattersFit mf.formatters types
  prints : ∀ ft, Prints ft mf.formatters (types.map Ty.base) (meaning ft tokens)

/-- The formatter `init` builds decodes the types of its key. -/
theorem init_fits {reg reg' : Registry} (hr : reg.Ok) {lineno : Nat} (hline : lineno ≠ 0)
    {msg : Text} {ts : List Ty} {mf : MessageFormatter}
    (h : MessageFormatter.init reg lineno msg (joinKeys ts) = .ok (mf, reg')) :
    FormattersFit mf.formatters ts := by
  have hstart : Builder.Inv [] [] [] ts (MessageFormatter.start reg lineno (joinKeys ts)) := by
    rcases MessageFormatter.start_inv hr lineno ts with ⟨-, hi⟩ | ⟨hw, -⟩
    · exact hi
    · simp [MessageFormatter.isWallClock, hline] at hw
  unfold MessageFormatter.init at h
  rw [MessageFormatter.c_str_joinKeys] at h
  obtain ⟨⟨rest, b⟩, hscan, h⟩ := bind_eq_ok.mp h
  obtain ⟨b', hb', h⟩ := bind_eq_ok.mp h
  simp only [pure, Except.pure, Except.ok.injEq, Prod.mk.injEq] at h
  obtain ⟨rfl, rfl⟩ := h
  obtain ⟨ts', us', rfl, hi⟩ := Builder.scan_sound _ _ hstart hscan
  by_cases hfall : (!rest.isEmpty || !b.fmtPtr.isEmpty) = true
  · rw [MessageFormatter.finish, if_pos hfall] at hb'
    exact (MessageFormatter.fallback_sound hi.reg hb').2.2.1
  · rw [MessageFormatter.finish, if_neg hfall] at hb'
    cases hb'
    simp only [Bool.or_eq_true, not_or, Bool.not_eq_true, Bool.not_eq_false'] at hfall
    have hus : us' = [] := joinKeys_eq_nil.mp (hi.fmtPtr ▸ List.isEmpty_iff.mp hfall.2)
    subst hus
    obtain ⟨es, he, hes⟩ := hi.formatters
    rw [List.append_nil, he]
    simpa using hes

/-- What the loop over the text and `finish` make of it. -/
theorem finish_prints (ft : FloatText) {tokens : List Token} {bs : List Base}
    {reg : Registry} {x : Except FormatError (Text × Builder)}
    (h : Scans ft tokens bs ⟨joinCodes (bs.map .base), [], [], reg⟩ x) :
    ∃ r b, x = .ok r ∧ MessageFormatter.finish (spell tokens) (joinCodes (bs.map .base)) r = .ok b
      ∧ Prints ft b.formatters bs (meaning ft tokens) := by
  have hfallback : ∀ {b : Builder}, b.reg.Exact → conversions tokens ≠ bs.length →
      ∃ b', MessageFormatter.fallback b.reg (spell tokens) (joinCodes (bs.map .base)) = .ok b'
        ∧ Prints ft b'.formatters bs (meaning ft tokens) := by
    intro b hr hne
    obtain ⟨reg', -, hfall⟩ := MessageFormatter.fallback_joinCodes hr (spell tokens) (bs.map .base)
    refine ⟨_, hfall, (prints_fallback ft (spell tokens) bs).congr fun ps hps => ?_⟩
    rw [meaning, if_neg (by rw [hps]; exact hne)]
  cases h with
  | enough es b hle hr hes hptr hprint =>
    by_cases heq : conversions tokens = bs.length
    · have hempty : b.fmtPtr.isEmpty = true := by
        rw [hptr, heq, List.drop_length]
        rfl
      refine ⟨_, b, rfl, ?_, ?_⟩
      · rw [MessageFormatter.finish, if_neg (by simp [hempty])]
      · rw [heq, List.take_length] at hprint
        rw [hes]
        refine hprint.congr fun ps hps => ?_
        rw [meaning, if_pos (by rw [hps]; exact heq)]
    · have hne : b.fmtPtr.isEmpty = false := by
        rw [hptr, joinCodes_isEmpty, List.isEmpty_eq_false_iff]
        intro hnil
        have hlen := congrArg List.length hnil
        rw [List.length_map, List.length_drop, List.length_nil] at hlen
        omega
      obtain ⟨b', hb', hprint'⟩ := hfallback hr heq
      refine ⟨_, b', rfl, ?_, hprint'⟩
      rw [MessageFormatter.finish, if_pos (by simp [hne])]
      exact hb'
  | few c rest b hlt hr =>
    obtain ⟨b', hb', hprint'⟩ := hfallback hr (by omega)
    refine ⟨_, b', rfl, ?_, hprint'⟩
    rw [MessageFormatter.finish, if_pos (by simp)]
    exact hb'

/-- `init` builds a formatter for every text of tokens and every key of
scalars. -/
theorem init_spelled {reg : Registry} (hreg : reg.Reachable) {lineno : Nat} (hline : lineno ≠ 0)
    (tokens : List Token) {types : List Ty} (hs : ∀ t ∈ types, t.optDepth = 0) :
    ∃ mf reg', MessageFormatter.init reg lineno (spell tokens) (joinKeys types) = .ok (mf, reg')
      ∧ Spelled mf tokens types := by
  have hkey := joinCodes_base hs
  have hplain : MessageFormatter.isWallClock lineno (joinKeys types) = false := by
    simp [MessageFormatter.isWallClock, hline]
  have hstart : MessageFormatter.start reg lineno (joinKeys types)
      = ⟨joinCodes ((types.map Ty.base).map .base), [], [], reg⟩ := by
    rw [MessageFormatter.start, hplain, if_neg Bool.false_ne_true, hkey]
  have hinit : ∀ ft, ∃ mf reg', MessageFormatter.init reg lineno (spell tokens) (joinKeys types)
      = .ok (mf, reg') ∧ Prints ft mf.formatters (types.map Ty.base) (meaning ft tokens) := by
    intro ft
    have hscan := scan_tokens ft (spell tokens).length tokens
      (b := ⟨joinCodes ((types.map Ty.base).map .base), [], [], reg⟩) (types.map Ty.base)
      (Nat.le_refl _) hreg.exact rfl
    obtain ⟨r, b, hr, hb, hprint⟩ := finish_prints ft hscan
    refine ⟨⟨lineno, spell tokens, joinKeys types, b.formatters, b.lengths⟩, b.reg, ?_, hprint⟩
    unfold MessageFormatter.init
    rw [Tokenizer.c_str_eq (spell_ne_zero tokens), MessageFormatter.c_str_joinKeys]
    dsimp only
    rw [hstart, hr, ok_bind, ← hkey, hb]
    rfl
  obtain ⟨mf, reg', hmf, -⟩ := hinit ⟨fun _ => [], fun _ => [], fun _ _ => [], fun _ _ => []⟩
  refine ⟨mf, reg', hmf, hs, init_fits hreg.ok hline hmf, fun ft => ?_⟩
  obtain ⟨mf', reg'', hmf', hprint⟩ := hinit ft
  cases hmf.symm.trans hmf'
  exact hprint

/-- A message on a stream without manipulators: some values are decoded, and
the text with these values is written. -/
theorem Spelled.format {mf : MessageFormatter} {tokens : List Token} {types : List Ty}
    (h : Spelled mf tokens types) (m : Mem) (buf : Nat) (os : OStream) (hos : Neutral os.flags) :
    ∃ n os', mf.format m buf os = (some n, os') ∧ Neutral os'.flags
      ∧ ∃ ps, os'.values = os.values ++ ps
        ∧ ∀ ft, os'.text ft = os.text ft ++ meaning ft tokens (ps.map some) := by
  obtain ⟨ps, hps⟩ := decodeAll_base m types (buf + 0)
  have hvalues := formatLoop_values m buf mf.formatters h.fits h.scalar 0 os
  rw [hps, List.flatMap_map] at hvalues
  have hprint := fun ft => h.prints ft m buf 0 os hos
  obtain ⟨os', hrun, -, hneutral⟩ :=
    hprint ⟨fun _ => [], fun _ => [], fun _ _ => [], fun _ _ => []⟩
  refine ⟨_, os', hrun, hneutral, ps, ?_, fun ft => ?_⟩
  · rw [hrun] at hvalues
    simpa using hvalues
  · obtain ⟨os'', hrun', htext, -⟩ := hprint ft
    cases hrun.symm.trans hrun'
    rw [htext, hps]

end Printf

end QuickTrace
