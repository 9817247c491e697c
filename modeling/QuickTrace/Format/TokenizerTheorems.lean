/-
QuickTrace.Format.TokenizerTheorems — cutting the text in place is sound.

`At` says that a pointer stands at a rest of the text. Each loop of
`getFormatParamSpec` is simulated by its counterpart on lists, the loop over
the text by `Builder.scan`, and `init_view` is the result: the pieces that
`Tokenizer.init` records are those of `MessageFormatter.init`, and each lies
in the text. Which texts can be tokenized is in `Tokenizable`.
-/
import QuickTrace.Format.Tokenizer

namespace QuickTrace.Tokenizer

open QuickTrace.Lib

/-! ## Pointers into the text -/

/-- The pointer stands in front of the rest `t` of the text. -/
structure At (buf : Buf) (p : Nat) (t : Text) : Prop where
  drop : buf.drop p = t ++ [0]
  ne : ∀ c ∈ t, c ≠ 0

section

variable {buf : Buf} {p q : Nat} {c : UInt8} {t rest : Text}

theorem At.getElem? (h : At buf p t) (i : Nat) : buf[p + i]? = (t ++ [0])[i]? := by
  rw [← h.drop, List.getElem?_drop]

theorem At.head (h : At buf p (c :: t)) : buf[p]? = some c := h.getElem? 0

theorem At.nul (h : At buf p []) : buf[p]? = some 0 := h.getElem? 0

theorem At.tail (h : At buf p (c :: t)) : At buf (p + 1) t := by
  refine ⟨?_, fun x hx => h.ne x (List.mem_cons_of_mem c hx)⟩
  rw [← List.drop_drop, h.drop]
  rfl

theorem At.append : ∀ {t : Text} {p : Nat}, At buf p (t ++ rest) → At buf (p + t.length) rest
  | [], p, h => h
  | c :: t, p, h => by
      have := At.append (t := t) h.tail
      rwa [Nat.add_assoc, Nat.add_comm 1] at this

theorem At.length (h : At buf p t) : buf.length = p + t.length + 1 := by
  have hlen := congrArg List.length h.drop
  rw [List.length_drop, List.length_append, List.length_singleton] at hlen
  omega

/-- A NUL in front of the pointer does not change what it stands at. -/
theorem At.set (h : At buf p t) (hq : q < p) : At (buf.set q 0) p t :=
  ⟨by rw [List.drop_set_of_lt hq, h.drop], h.ne⟩

theorem At.read (h : At buf p (c :: t)) : read buf p = .ok c := read_eq_ok.mpr h.head

theorem At.read_nul (h : At buf p []) : Tokenizer.read buf p = .ok 0 := read_eq_ok.mpr h.nul

/-- Nothing stands behind the terminating NUL. -/
theorem At.overread (h : At buf p []) : Tokenizer.read buf (p + 1) = .error .overread := by
  have hnone : buf[p + 1]? = none := h.getElem? 1
  rw [Tokenizer.read, hnone]

end

/-! ## The loops, read by read -/

theorem flags_eq (buf : Buf) (p : Nat) (spec : CFormatSpec) : flags buf p spec =
    read buf p >>= fun c =>
      if inSet isFlagChar c then flags buf (p + 1) (spec.flag c) else .ok (p, spec) := by
  rw [flags, read]
  split <;> simp_all [bind, Except.bind]

theorem skip_eq (cond : UInt8 → Bool) (buf : Buf) (p : Nat) : skip cond buf p =
    read buf p >>= fun c => if cond c then skip cond buf (p + 1) else .ok p := by
  rw [skip, read]
  split <;> simp_all [bind, Except.bind]

theorem strchr_eq (buf : Buf) (c : UInt8) (p : Nat) : strchr buf c p =
    read buf p >>= fun b =>
      if b = c then .ok (some p) else if b = 0 then .ok none else strchr buf c (p + 1) := by
  rw [strchr, read]
  split <;> simp_all [bind, Except.bind]

theorem strend_eq (buf : Buf) (p : Nat) : strend buf p =
    read buf p >>= fun b => if b = 0 then .ok p else strend buf (p + 1) := by
  rw [strend, read]
  split <;> simp_all [bind, Except.bind]

theorem findParam_eq (buf : Buf) (p : Nat) : findParam buf p =
    strchr buf 37 p >>= fun
      | none => .ok none
      | some param => getFormatParamSpec buf param >>= fun
        | none => findParam buf (param + 1)
        | some r => .ok (some (param, r)) := by
  rw [findParam]
  split
  · rename_i h
    rw [h]
    rfl
  · rename_i h
    rw [h]
    rfl
  · rename_i param h
    rw [h, ok_bind]
    dsimp only
    cases getFormatParamSpec buf param with
    | error e => rfl
    | ok o => cases o with
      | none => rfl
      | some r => rfl

/-! ## Scanning -/

theorem inSet_zero (set : UInt8 → Bool) : inSet set 0 = true := rfl

theorem flags_at {buf : Buf} : ∀ (t : Text) (p : Nat) (spec : CFormatSpec), At buf p t →
    Alike (fun r r' => r.2 = r'.1 ∧ At buf r.1 r'.2) (flags buf p spec) (scanFlags t spec)
  | [], p, spec, h => by
      -- the terminating NUL is taken for a flag
      rw [flags_eq, h.read_nul, ok_bind, if_pos (inSet_zero _), flags_eq, h.overread]
      exact .error _
  | c :: t, p, spec, h => by
      have hc0 : (c == 0) = false := by simpa using h.ne c List.mem_cons_self
      rw [flags_eq, h.read, ok_bind, inSet, hc0, Bool.false_or, scanFlags]
      split
      · exact flags_at t (p + 1) (spec.flag c) h.tail
      · exact .ok ⟨rfl, h⟩

/-- A loop whose condition fails at NUL stays in the text. -/
theorem skip_at {buf : Buf} {cond : UInt8 → Bool} (h0 : cond 0 = false) :
    ∀ (t : Text) (p : Nat), At buf p t →
    ∃ q, skip cond buf p = .ok q ∧ At buf q (t.dropWhile cond)
      ∧ q = p + (t.takeWhile cond).length
  | [], p, h => by
      refine ⟨p, ?_, h, rfl⟩
      rw [skip_eq, h.read_nul, ok_bind, h0, if_neg Bool.false_ne_true]
  | c :: t, p, h => by
      rw [skip_eq, h.read, ok_bind]
      cases hcond : cond c with
      | true =>
        obtain ⟨q, hq, hat, hlen⟩ := skip_at h0 t (p + 1) h.tail
        refine ⟨q, by rw [if_pos rfl, hq], by rwa [List.dropWhile_cons_of_pos hcond], ?_⟩
        rw [hlen, List.takeWhile_cons_of_pos hcond, List.length_cons]
        omega
      | false =>
        refine ⟨p, by rw [if_neg Bool.false_ne_true], ?_, ?_⟩
        · rwa [List.dropWhile_cons_of_neg (by simp [hcond])]
        · rw [List.takeWhile_cons_of_neg (by simp [hcond])]
          rfl

theorem modifiers_at {buf : Buf} : ∀ (t : Text) (p : Nat), At buf p t →
    Alike (fun q rest => At buf q rest ∧ rest ≠ []) (skip (inSet isLengthModifier) buf p)
      (scanLengthModifiers t)
  | [], p, h => by
      rw [skip_eq, h.read_nul, ok_bind, if_pos (inSet_zero _), skip_eq, h.overread]
      exact .error _
  | c :: t, p, h => by
      have hc0 : (c == 0) = false := by simpa using h.ne c List.mem_cons_self
      rw [skip_eq, h.read, ok_bind, inSet, hc0, Bool.false_or, scanLengthModifiers]
      split
      · exact modifiers_at t (p + 1) h.tail
      · exact .ok ⟨h, List.cons_ne_nil c t⟩

theorem between_at {buf : Buf} {p : Nat} {t : Text} (h : At buf p t) (cond : UInt8 → Bool) :
    between buf p (p + (t.takeWhile cond).length) = t.takeWhile cond := by
  rw [between, h.drop, Nat.add_sub_cancel_left]
  have happ : t ++ [0] = t.takeWhile cond ++ (t.dropWhile cond ++ [0]) := by
    rw [← List.append_assoc, List.takeWhile_append_dropWhile]
  rw [happ, List.take_left]

theorem isdigit_zero : isdigit 0 = false := rfl

theorem width_at {buf : Buf} {p : Nat} {t : Text} (h : At buf p t) (spec : CFormatSpec) :
    Alike (fun r r' => r.2 = r'.1 ∧ At buf r.1 r'.2) (width buf p spec) (scanWidth spec t) := by
  unfold width scanWidth
  cases t with
  | nil =>
    rw [h.read_nul, ok_bind, if_neg (by decide)]
    exact .ok ⟨rfl, h⟩
  | cons c t =>
    rw [h.read, ok_bind]
    cases hd : isdigit c with
    | false =>
      rw [if_neg Bool.false_ne_true, List.takeWhile_cons_of_neg (by simp [hd])]
      exact .ok ⟨rfl, h⟩
    | true =>
      obtain ⟨q, hq, hat, hlen⟩ := skip_at isdigit_zero (c :: t) p h
      have hbetween := between_at h isdigit
      rw [← hlen] at hbetween
      have hne : ((c :: t).takeWhile isdigit).isEmpty = false := by
        rw [List.takeWhile_cons_of_pos hd]
        rfl
      rw [if_pos rfl, hq, ok_bind, hbetween]
      dsimp only
      rw [hne, if_neg Bool.false_ne_true]
      cases stoi ((c :: t).takeWhile isdigit) with
      | error e => exact .error e
      | ok n => exact .ok ⟨rfl, hat⟩

theorem scanPrecision_ne (spec : CFormatSpec) {t : Text} (h : t.head? ≠ some 46) :
    scanPrecision spec t = .ok (spec, t) := by
  unfold scanPrecision
  split
  · exact absurd rfl h
  · rfl

theorem precision_at {buf : Buf} {p : Nat} {t : Text} (h : At buf p t) (spec : CFormatSpec) :
    Alike (fun r r' => r.2 = r'.1 ∧ At buf r.1 r'.2) (precision buf p spec)
      (scanPrecision spec t) := by
  unfold precision
  cases t with
  | nil =>
    rw [h.read_nul, ok_bind, if_neg (by decide)]
    exact .ok ⟨rfl, h⟩
  | cons c t =>
    rw [h.read, ok_bind]
    by_cases hc : c = 46
    · subst hc
      obtain ⟨q, hq, hat, hlen⟩ := skip_at isdigit_zero t (p + 1) h.tail
      have hbetween := between_at h.tail isdigit
      rw [← hlen] at hbetween
      rw [if_pos rfl, hq, ok_bind, scanPrecision]
      cases hds : t.takeWhile isdigit with
      | nil =>
        rw [hds] at hlen
        have hdrop : t.dropWhile isdigit = t := by
          have happ := List.takeWhile_append_dropWhile (p := isdigit) (l := t)
          rwa [hds, List.nil_append] at happ
        rw [if_neg (by simp [hlen])]
        rw [hdrop] at hat
        exact .ok ⟨rfl, hat⟩
      | cons d ds =>
        rw [hds] at hlen hbetween
        rw [if_pos (by rw [hlen, List.length_cons]; omega), hbetween]
        simp only [List.isEmpty_cons, Bool.false_eq_true, if_false]
        cases stoi (d :: ds) with
        | error e => exact .error e
        | ok n => exact .ok ⟨rfl, hat⟩
    · rw [if_neg hc, scanPrecision_ne spec (by simpa using hc)]
      exact .ok ⟨rfl, h⟩

/-- A conversion at a percent sign, in the buffer and as a value. -/
structure ParamAt (buf : Buf) (param : Nat) (r : Nat × CFormatSpec) (ps : ParamSpec) : Prop where
  spec : r.2 = ps.cFormatSpec
  rest : At buf (param + r.1) ps.rest
  conv : buf[param + r.1 - 1]? = some ps.conversionSpecifier
  percent : ps.conversionSpecifier = 37 → r.1 = 2
  long : 2 ≤ r.1

theorem isalpha_ne_percent {c : UInt8} (h : isalpha c = true) : c ≠ 37 := by
  rintro rfl
  cases h

/-- On lists: behind a percent sign stands no other one. -/
theorem getFormatParamSpec_ne {t : Text} (h : t.head? ≠ some 37) :
    QuickTrace.getFormatParamSpec t = (do
      let (spec, t) ← scanFlags t CFormatSpec.zero
      let (spec, t) ← scanWidth spec t
      let (spec, t) ← scanPrecision spec t
      match ← scanLengthModifiers t with
      | c :: rest => return if isalpha c then some ⟨c, spec, rest⟩ else none
      | [] => return none) := by
  unfold QuickTrace.getFormatParamSpec
  split
  · exact absurd rfl h
  · rfl

theorem getFormatParamSpec_at {buf : Buf} {param : Nat} {t : Text} (h : At buf param (37 :: t)) :
    Alike (Option.Rel (ParamAt buf param)) (getFormatParamSpec buf param)
      (QuickTrace.getFormatParamSpec t) := by
  have ht := h.tail
  by_cases hp : t.head? = some 37
  · obtain ⟨rest, rfl⟩ : ∃ rest, t = 37 :: rest := by
      cases t with
      | nil => cases hp
      | cons c rest =>
        cases hp
        exact ⟨rest, rfl⟩
    unfold getFormatParamSpec
    rw [ht.read, ok_bind, if_pos rfl]
    exact .ok (.some ⟨rfl, ht.tail, ht.head, fun _ => rfl, Nat.le_refl 2⟩)
  · have hread : ∃ c, read buf (param + 1) = .ok c ∧ c ≠ 37 := by
      cases t with
      | nil => exact ⟨0, ht.read_nul, by decide⟩
      | cons c rest => exact ⟨c, ht.read, by simpa using hp⟩
    obtain ⟨c, hread, hc⟩ := hread
    rw [getFormatParamSpec_ne hp]
    unfold getFormatParamSpec
    rw [hread, ok_bind, if_neg hc]
    refine ((flags_at t (param + 1) CFormatSpec.zero ht).and_left fun _ => flags_le).bind ?_
    rintro ⟨p₁, spec₁⟩ ⟨_, t₁⟩ ⟨hle₁, rfl, h₁⟩
    refine ((width_at h₁ spec₁).and_left fun _ => width_le).bind ?_
    rintro ⟨p₂, spec₂⟩ ⟨_, t₂⟩ ⟨hle₂, rfl, h₂⟩
    refine ((precision_at h₂ spec₂).and_left fun _ => precision_le).bind ?_
    rintro ⟨p₃, spec₃⟩ ⟨_, t₃⟩ ⟨hle₃, rfl, h₃⟩
    refine ((modifiers_at t₃ p₃ h₃).and_left fun _ => skip_le).bind ?_
    rintro p₄ t₄ ⟨hle₄, h₄, hne⟩
    cases t₄ with
    | nil => exact absurd rfl hne
    | cons c rest =>
      rw [h₄.read, ok_bind]
      cases halpha : isalpha c with
      | false =>
        rw [if_neg Bool.false_ne_true]
        refine .ok ?_
        rw [halpha, if_neg Bool.false_ne_true]
        exact .none
      | true =>
        rw [if_pos rfl]
        refine .ok ?_
        rw [halpha, if_pos rfl]
        have hlen : param + (p₄ + 1 - param) = p₄ + 1 := by
          dsimp only at hle₁ hle₂ hle₃
          omega
        refine .some ⟨rfl, ?_, ?_, ?_, ?_⟩
        · rw [hlen]
          exact h₄.tail
        · rw [hlen]
          exact h₄.head
        · intro h37
          exact absurd h37 (isalpha_ne_percent halpha)
        · show 2 ≤ p₄ + 1 - param
          dsimp only at hle₁ hle₂ hle₃
          omega

/-! ## The next conversion -/

/-- What `nextParam` finds in a text, in the buffer. -/
structure NextAt (buf : Buf) (p : Nat) (t : Text) (r : Nat × Nat × CFormatSpec)
    (q : Text × ParamSpec) : Prop where
  param : r.1 = p + q.1.length
  text : ∃ rest, t = q.1 ++ 37 :: rest
  found : ParamAt buf r.1 r.2 q.2

theorem findParam_at {buf : Buf} : ∀ (t : Text) (p : Nat), At buf p t →
    Alike (Option.Rel (NextAt buf p t)) (findParam buf p) (nextParam t)
  | [], p, h => by
      rw [findParam_eq, strchr_eq, h.read_nul, ok_bind, if_neg (by decide), if_pos rfl, nextParam]
      exact .ok .none
  | c :: t, p, h => by
      rw [findParam_eq, strchr_eq, h.read, ok_bind, nextParam]
      have hrest : Alike (Option.Rel (NextAt buf p (c :: t))) (findParam buf (p + 1))
          ((nextParam t).map fun o => o.map fun q => (c :: q.1, q.2)) := by
        refine (findParam_at t (p + 1) h.tail).map_right fun o o' ho => ?_
        cases ho with
        | none => exact .none
        | some hq =>
          obtain ⟨hparam, ⟨rest, htext⟩, hat⟩ := hq
          refine .some ⟨?_, ⟨rest, by rw [htext]; rfl⟩, hat⟩
          rw [hparam, List.length_cons]
          omega
      by_cases hc : c = 37
      · subst hc
        rw [if_pos rfl, if_pos rfl, ok_bind]
        refine (getFormatParamSpec_at h).bind fun o o' ho => ?_
        cases ho with
        | none => exact hrest
        | some hps => exact .ok (.some ⟨rfl, ⟨t, rfl⟩, hps⟩)
      · rw [if_neg hc, if_neg hc, if_neg (h.ne c List.mem_cons_self), ← findParam_eq]
        exact hrest

/-! ## Pieces -/

section

variable {buf : Buf} {o k p q : Nat} {t x y : Text}

/-- A piece is determined by what stands in front of any NUL behind its start. -/
theorem cString_sealed (ho : o ≤ k) (hk : buf[k]? = some 0) :
    cString buf o = ((buf.drop o).take (k - o)).takeWhile (· != 0) := by
  obtain ⟨hlt, h0⟩ := List.getElem?_eq_some_iff.mp hk
  have hdrop : (buf.drop o).drop (k - o) = 0 :: buf.drop (k + 1) := by
    rw [List.drop_drop, Nat.add_sub_cancel' ho, List.drop_eq_getElem_cons hlt, h0]
  have hsplit := List.take_append_drop (k - o) (buf.drop o)
  rw [hdrop] at hsplit
  rw [cString]
  conv_lhs => rw [← hsplit]
  rw [List.takeWhile_append]
  split
  · rw [List.takeWhile_cons_of_neg (by decide), List.append_nil]
    rename_i hall
    exact ((List.takeWhile_prefix _).eq_of_length hall).symm
  · rfl

/-- Writing a NUL behind the end of a piece does not change it. -/
theorem cString_set (ho : o ≤ k) (hk : buf[k]? = some 0) (hq : k ≤ q) :
    (buf.set q 0)[k]? = some 0 ∧ cString (buf.set q 0) o = cString buf o := by
  have hlt := (List.getElem?_eq_some_iff.mp hk).1
  have hk' : (buf.set q 0)[k]? = some 0 := by
    by_cases hqk : q = k
    · subst hqk
      rw [List.getElem?_set_self hlt]
    · rw [List.getElem?_set_ne hqk, hk]
  refine ⟨hk', ?_⟩
  rw [cString_sealed ho hk', cString_sealed ho hk, List.drop_set, if_neg (by omega),
    List.take_set_of_le (by omega)]

/-- The piece that a NUL cuts off. -/
theorem cString_cut (h : At buf p (x ++ y)) : (buf.set (p + x.length) 0)[p + x.length]? = some 0
    ∧ cString (buf.set (p + x.length) 0) p = x := by
  have hlen := h.length
  rw [List.length_append] at hlen
  have hk : (buf.set (p + x.length) 0)[p + x.length]? = some 0 :=
    List.getElem?_set_self (by omega)
  refine ⟨hk, ?_⟩
  rw [cString_sealed (Nat.le_add_right p x.length) hk, Nat.add_sub_cancel_left, List.drop_set,
    if_neg (by omega), List.take_set_of_le (by omega), h.drop, List.append_assoc, List.take_left]
  exact takeWhile_ne_zero fun c hc => h.ne c (List.mem_append_left y hc)

/-- The last piece ends with the text. -/
theorem cString_at (h : At buf p t) : cString buf p = t := by
  have hall : ∀ c ∈ t, (c != 0) = true := by
    intro c hc
    simpa using h.ne c hc
  rw [cString, h.drop, List.takeWhile_append_of_pos hall,
    List.takeWhile_cons_of_neg (by decide), List.append_nil]

end

theorem strend_at {buf : Buf} : ∀ (t : Text) (p : Nat), At buf p t →
    strend buf p = .ok (p + t.length)
  | [], p, h => by rw [strend_eq, h.read_nul, ok_bind, if_pos rfl, List.length_nil, Nat.add_zero]
  | c :: t, p, h => by
      rw [strend_eq, h.read, ok_bind, if_neg (h.ne c List.mem_cons_self), strend_at t (p + 1) h.tail,
        List.length_cons, Nat.add_assoc, Nat.add_comm 1]

/-! ## The simulation -/

/-- The element of `formatters_` that is meant. -/
def resolve (buf : Buf) : Recorded → Entry
  | .piece p => .formatStatic (cString buf p)
  | .entry e => e

/-- The state with its pieces read out. -/
def State.view (s : State) : Builder where
  fmtPtr := s.fmtPtr
  formatters := s.formatters.map (resolve s.buf)
  lengths := s.lengths
  reg := s.reg

/-- The piece starts in front of a NUL that is not behind `e`. -/
def EndsBy (buf : Buf) (e o : Nat) : Prop := ∃ k, o ≤ k ∧ k ≤ e ∧ buf[k]? = some 0

/-- The state simulates the builder of the list model. The pieces end at the
pointer at the latest: what the loop writes later is behind them. -/
structure Sim (msgPtr : Nat) (s : State) (t : Text) (b : Builder) : Prop where
  pos : At s.buf msgPtr t
  view : s.view = b
  pieces : ∀ o, .piece o ∈ s.formatters → EndsBy s.buf msgPtr o

section

variable {msgPtr : Nat} {s : State} {t : Text} {b : Builder}

theorem Sim.push (h : Sim msgPtr s t b) (e : Entry) :
    Sim msgPtr (s.push (.entry e)) t (b.push e) := by
  refine ⟨h.pos, ?_, fun o ho => ?_⟩
  · rw [← h.view]
    simp [State.view, State.push, Builder.push, resolve]
  · rcases List.mem_append.mp ho with ho | ho
    · exact h.pieces o ho
    · simp at ho

theorem Sim.pushIf (h : Sim msgPtr s t b) (c : Bool) (e : Entry) :
    Sim msgPtr (s.pushIf c (.entry e)) t (b.pushIf c e) := by
  cases c with
  | true => exact h.push e
  | false => exact h

theorem Sim.addFormatter (h : Sim msgPtr s t b) (conv : UInt8) :
    Alike (fun s' b' => Sim msgPtr s' t b') (s.addFormatter conv) (b.addFormatter conv) := by
  have hfmt : s.builder.fmt = b.fmt := by rw [← h.view]; rfl
  have hafter : s.builder.afterFmt = b.afterFmt := by rw [← h.view]; rfl
  have hreg : s.reg = b.reg := by rw [← h.view]; rfl
  unfold State.addFormatter Builder.addFormatter
  rw [hfmt, hreg, hafter]
  rcases selectFormatter b.reg b.fmt (Builder.isHexConversion conv) with ⟨_ | f, reg'⟩
  · exact .error _
  · dsimp only
    cases selectLength b.fmt with
    | error e => exact .error e
    | ok l =>
      refine .ok ⟨h.pos, ?_, fun o ho => ?_⟩
      · rw [← h.view]
        simp [State.view, resolve]
      · rcases List.mem_append.mp ho with ho | ho
        · exact h.pieces o ho
        · simp at ho

/-- A NUL that ends a new piece in front of the next pointer. -/
theorem Sim.cutAt {x y rest : Text} {p : Nat} (h : Sim msgPtr s (x ++ y) b)
    (hp : msgPtr + x.length < p) (hrest : At s.buf p rest) :
    Sim p ({ s with buf := s.buf.set (msgPtr + x.length) 0 }.push (.piece msgPtr)) rest
      (b.push (.formatStatic x)) := by
  obtain ⟨hnul, hpiece⟩ := cString_cut h.pos
  refine ⟨hrest.set hp, ?_, fun o ho => ?_⟩
  · have hold : s.formatters.map (resolve (s.buf.set (msgPtr + x.length) 0))
        = s.formatters.map (resolve s.buf) := by
      refine List.map_congr_left fun r hr => ?_
      cases r with
      | entry e => rfl
      | piece o =>
        obtain ⟨k, hok, hk, h0⟩ := h.pieces o hr
        rw [resolve, resolve, (cString_set hok h0 (by omega)).2]
    rw [← h.view]
    simp only [State.view, State.push, Builder.push, List.map_append, List.map_cons, List.map_nil,
      hold, resolve, hpiece]
  · rcases List.mem_append.mp ho with ho | ho
    · obtain ⟨k, hok, hk, h0⟩ := h.pieces o ho
      exact ⟨k, hok, by omega, (cString_set hok h0 (by omega)).1⟩
    · have ho : o = msgPtr := by simpa using ho
      subst ho
      exact ⟨_, Nat.le_add_right _ _, by omega, hnul⟩

/-- Without a piece the pointer may go on, too. -/
theorem Sim.advance {rest : Text} {p : Nat} (h : Sim msgPtr s t b) (hp : msgPtr ≤ p)
    (hrest : At s.buf p rest) : Sim p s rest b := by
  refine ⟨hrest, h.view, fun o ho => ?_⟩
  obtain ⟨k, hok, hk, h0⟩ := h.pieces o ho
  exact ⟨k, hok, by omega, h0⟩

/-- The text in front of a conversion. -/
theorem Sim.cut {before y rest : Text} {p : Nat} (h : Sim msgPtr s (before ++ y) b)
    (hp : msgPtr + before.length < p) (hrest : At s.buf p rest) :
    ∃ s', s.cut msgPtr (msgPtr + before.length) = .ok s'
      ∧ Sim p s' rest (b.pushIf (!before.isEmpty) (.formatStatic before)) := by
  unfold State.cut
  cases before with
  | nil =>
    refine ⟨s, if_neg (by simp), ?_⟩
    exact h.advance (Nat.le_of_lt hp) hrest
  | cons c before =>
    have hlen := h.pos.length
    rw [List.length_append] at hlen
    refine ⟨_, ?_, h.cutAt hp hrest⟩
    rw [if_pos (by rw [List.length_cons]; omega), writeNul, if_pos (by omega)]
    rfl

/-- The rest of the text is one piece. -/
theorem Sim.last (h : Sim msgPtr s t b) : Sim (msgPtr + t.length) (s.push (.piece msgPtr)) []
    (b.push (.formatStatic t)) := by
  have hnul : At s.buf (msgPtr + t.length) [] := by
    refine At.append ?_
    rw [List.append_nil]
    exact h.pos
  refine ⟨hnul, ?_, fun o ho => ?_⟩
  · rw [← h.view]
    simp [State.view, State.push, Builder.push, resolve, cString_at h.pos]
  · rcases List.mem_append.mp ho with ho | ho
    · obtain ⟨k, hok, hk, h0⟩ := h.pieces o ho
      exact ⟨k, hok, by omega, h0⟩
    · have ho : o = msgPtr := by simpa using ho
      subst ho
      exact ⟨_, Nat.le_add_right _ _, Nat.le_refl _, hnul.nul⟩

end

theorem loop_eq (msgPtr : Nat) (s : State) : loop msgPtr s =
    round msgPtr s >>= fun
      | .leave p s' => .ok (p, s')
      | .next p s' => loop p s' := by
  rw [loop]
  split <;> simp_all [bind, Except.bind]

theorem loop_nul {msgPtr : Nat} {s : State} (h : At s.buf msgPtr []) :
    loop msgPtr s = .ok (msgPtr, s) := by
  rw [loop_eq, round, h.read_nul, ok_bind, if_pos rfl]
  rfl

/-- The loop does what `scan` does. -/
theorem loop_at : ∀ (fuel : Nat) {msgPtr : Nat} {s : State} {t : Text} {b : Builder},
    t.length ≤ fuel → Sim msgPtr s t b →
    Alike (fun r r' => Sim r.1 r.2 r'.1 r'.2) (loop msgPtr s) (b.scan fuel t)
  | 0, msgPtr, s, t, b, hfuel, h => by
      have ht : t = [] := List.eq_nil_of_length_eq_zero (by omega)
      subst ht
      rw [loop_nul h.pos, Builder.scan]
      exact .ok h
  | fuel + 1, msgPtr, s, [], b, hfuel, h => by
      rw [loop_nul h.pos, Builder.scan, List.isEmpty_nil, if_pos rfl]
      exact .ok h
  | fuel + 1, msgPtr, s, c :: cs, b, hfuel, h => by
      have hpos := h.pos
      rw [loop_eq, round, hpos.read, ok_bind, if_neg (hpos.ne c List.mem_cons_self), Builder.scan,
        List.isEmpty_cons, if_neg Bool.false_ne_true, bind_assoc]
      refine (findParam_at (c :: cs) msgPtr hpos).bind fun o o' ho => ?_
      cases ho with
      | none =>
        have hlast := h.last
        rw [strend_at (c :: cs) msgPtr hpos, ok_bind, pure_bind]
        dsimp only
        rw [loop_nul hlast.pos]
        exact .ok hlast
      | some hnext =>
        rename_i r q
        obtain ⟨param, fpLen, spec⟩ := r
        obtain ⟨before, ps⟩ := q
        obtain ⟨hparam, ⟨rest, htext⟩, hfound⟩ := hnext
        dsimp only at hparam htext hfound ⊢
        have hspec : spec = ps.cFormatSpec := hfound.spec
        subst hparam hspec
        have hlong := hfound.long
        dsimp only at hlong
        rw [htext] at h
        rw [read_eq_ok.mpr hfound.conv, ok_bind]
        have hshort : ps.rest.length ≤ fuel := by
          have h1 := hfound.rest.length
          have h2 := hpos.length
          dsimp only at h1
          omega
        by_cases hconv : ps.conversionSpecifier = 37
        · rw [if_pos hconv, if_pos hconv]
          have hfp : fpLen = 2 := hfound.percent hconv
          subst hfp
          have hend : msgPtr + before.length + 2 - 1 = msgPtr + (before ++ [37]).length := by
            rw [List.length_append, List.length_singleton]
            omega
          have hin : msgPtr + (before ++ [37]).length < s.buf.length := by
            have h1 := hfound.rest.length
            rw [List.length_append, List.length_singleton]
            dsimp only at h1
            omega
          have h' : Sim msgPtr s ((before ++ [37]) ++ rest) b := by simpa using h
          have hnew := h'.cutAt (p := msgPtr + before.length + 2) (by omega) hfound.rest
          rw [hend, writeNul, if_pos hin, ok_bind, pure_bind]
          exact loop_at fuel hshort hnew
        · rw [if_neg hconv, if_neg hconv]
          have hptr : s.fmtPtr = b.fmtPtr := by rw [← h.view]; rfl
          rw [hptr]
          cases hempty : b.fmtPtr.isEmpty with
          | true =>
            rw [if_pos rfl, if_pos rfl, pure_bind]
            exact .ok (by rwa [htext])
          | false =>
            rw [if_neg Bool.false_ne_true, if_neg Bool.false_ne_true]
            obtain ⟨s₁, hcut, h₁⟩ := h.cut (p := msgPtr + before.length + fpLen) (by omega)
              hfound.rest
            rw [hcut, ok_bind]
            have h₂ := (h₁.pushIf (ps.conversionSpecifier == 112)
              (.formatStatic (ascii ['0', 'x']))).pushIf (ps.cFormatSpec != CFormatSpec.zero)
              (.applyCFormatSpec ps.cFormatSpec)
            have h₃ := h₂.addFormatter ps.conversionSpecifier
            unfold Builder.addParam
            dsimp only
            generalize Builder.addFormatter ps.conversionSpecifier _ = y at h₃ ⊢
            generalize State.addFormatter ps.conversionSpecifier _ = x at h₃ ⊢
            cases h₃ with
            | error e => exact .error e
            | ok h₄ => exact loop_at fuel hshort (h₄.pushIf _ .resetCFormatSpec)

theorem round_leave {msgPtr p : Nat} {s s' : State} (h : round msgPtr s = .ok (.leave p s')) :
    s' = s := by
  unfold round at h
  obtain ⟨c, -, h⟩ := bind_eq_ok.mp h
  split at h
  · cases h
    rfl
  · obtain ⟨o, -, h⟩ := bind_eq_ok.mp h
    rcases o with _ | ⟨param, fpLen, spec⟩
    · obtain ⟨q, -, h⟩ := bind_eq_ok.mp h
      cases h
    · obtain ⟨conv, -, h⟩ := bind_eq_ok.mp h
      split at h
      · obtain ⟨buf, -, h⟩ := bind_eq_ok.mp h
        cases h
      · split at h
        · cases h
          rfl
        · obtain ⟨s₁, -, h⟩ := bind_eq_ok.mp h
          obtain ⟨s₂, -, h⟩ := bind_eq_ok.mp h
          cases h

/-- The buffer keeps its size. -/
theorem length_loop {msgPtr : Nat} {s : State} {r : Nat × State} (h : loop msgPtr s = .ok r) :
    r.2.buf.length = s.buf.length := by
  fun_induction loop msgPtr s with
  | case1 msgPtr s e _ => cases h
  | case2 msgPtr s p s' hround =>
    cases h
    rw [round_leave hround]
  | case3 msgPtr s p s' hround ih => rw [ih h, (round_next hround).2.2]

/-! ## The constructor -/

theorem c_str_eq {t : Text} (h : ∀ c ∈ t, c ≠ 0) : MessageFormatter.c_str t = t :=
  takeWhile_ne_zero h

theorem map_resolve_entry (buf : Buf) (es : List Entry) :
    (es.map Recorded.entry).map (resolve buf) = es := by
  rw [List.map_map]
  exact List.map_id es

/-- Where `init` starts from. -/
theorem start_sim (reg : Registry) (lineno : Nat) {msg : Text} (hmsg : ∀ c ∈ msg, c ≠ 0)
    (fmt : Text) :
    Sim 0 (start reg lineno msg fmt) msg (MessageFormatter.start reg lineno fmt) := by
  refine ⟨⟨rfl, hmsg⟩, ?_, fun o ho => ?_⟩
  · simp only [State.view, start, map_resolve_entry]
  · simp [start] at ho

/-- What a state has recorded is what the formatter of the list model has,
and its pieces start and end in the text. -/
structure Records (msg : Text) (s : State) (mf : MessageFormatter) (reg : Registry) : Prop where
  formatters : mf.formatters = s.formatters.map (resolve s.buf)
  lengths : mf.lengths = s.lengths
  reg : reg = s.reg
  pieces : ∀ o, .piece o ∈ s.formatters → EndsBy s.buf msg.length o

/-- The constructor works on the buffer as the list model says. -/
theorem init_view (reg : Registry) (lineno : Nat) {msg fmt : Text} (hmsg : ∀ c ∈ msg, c ≠ 0)
    (hfmt : ∀ c ∈ fmt, c ≠ 0) :
    Alike (fun s r => Records msg s r.1 r.2) (init reg lineno msg fmt)
      (MessageFormatter.init reg lineno msg fmt) := by
  unfold init MessageFormatter.init
  rw [c_str_eq hmsg, c_str_eq hfmt]
  dsimp only
  have hloop := (loop_at msg.length (Nat.le_refl _) (start_sim reg lineno hmsg fmt)).and_left
    fun _ => length_loop
  refine hloop.bind ?_
  rintro ⟨p, s⟩ ⟨t, b⟩ ⟨hlen, hsim⟩
  dsimp only at hlen hsim ⊢
  have hptr : s.fmtPtr = b.fmtPtr := by rw [← hsim.view]; rfl
  have hreg : s.reg = b.reg := by rw [← hsim.view]; rfl
  have hread : ∃ c, read s.buf p = .ok c ∧ (c = 0 ↔ t = []) := by
    cases t with
    | nil => exact ⟨0, hsim.pos.read_nul, by simp⟩
    | cons c t => exact ⟨c, hsim.pos.read, by simp [hsim.pos.ne c List.mem_cons_self]⟩
  obtain ⟨c, hread, hc⟩ := hread
  rw [hread, ok_bind, MessageFormatter.finish]
  dsimp only
  by_cases hdone : t = [] ∧ b.fmtPtr = []
  · -- text and key are used up
    rw [if_neg (by simp [hc, hptr, hdone.1, hdone.2]), if_neg (by simp [hdone.1, hdone.2]), ok_bind]
    refine .ok ⟨?_, ?_, hreg.symm, fun o ho => ?_⟩
    · rw [← hsim.view]
      rfl
    · rw [← hsim.view]
      rfl
    · obtain ⟨k, hok, hk, h0⟩ := hsim.pieces o ho
      have h1 := hsim.pos.length
      have h2 : (start reg lineno msg fmt).buf.length = msg.length + 1 := by simp [start]
      exact ⟨k, hok, by omega, h0⟩
  · rw [if_pos (by rw [hptr]; simp [hc]; tauto), if_pos (by simp; tauto), fallback, hreg]
    cases MessageFormatter.fallback b.reg msg fmt with
    | error e => exact .error e
    | ok b' =>
      refine .ok ⟨(map_resolve_entry _ _).symm, rfl, rfl, fun o ho => ?_⟩
      simp at ho

end QuickTrace.Tokenizer
