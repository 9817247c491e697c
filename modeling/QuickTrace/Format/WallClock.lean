/-
QuickTrace.Format.WallClock — the body of a wall-clock message.

A wall-clock statement records the seconds and microseconds in front of its
arguments and the line number zero (`WallClockQt.h`); `init` recognizes it by
that line number and the first four characters of the key, and starts with a
formatter that skips both fields. `SameBody` says that qttail prints the same
for it as for the plain statement; `sameBody_iff` says for which texts and
arguments it does.
-/
import QuickTrace.Format.StreamFrame

namespace QuickTrace.WallClock

open QuickTrace.Lib RingBuf StreamFrame

/-! ## The two statements -/

/-- What the wall-clock macros record. -/
def stamped (sec usec : UInt64) (args : List Arg) : List Arg :=
  .val (.u64 sec) :: .val (.u64 usec) :: args

/-- The characters that `format` writes on a stream with these flags. -/
def body (ft : FloatText) (mf : MessageFormatter) (m : Mem) (buf : Nat) (fl : Flags) : Text :=
  (mf.format m buf ⟨fl, []⟩).2.text ft

/-- The body that qttail prints for a statement with arguments of these
types; `none` if the key does not fit its buffer or if no formatter can be
built from it. -/
def printed (ft : FloatText) (reg : Registry) (lineno : Nat) (text : Text) (ts : List Ty)
    (m : Mem) (buf : Nat) (fl : Flags) : Option Text :=
  (MsgFormatString.ofTypes ts).bind fun key =>
    match MessageFormatter.init reg lineno text key with
    | .ok (mf, _) => some (body ft mf m buf fl)
    | .error _ => none

/-- At any time, for any line, time and place in the ring: what is printed for
a wall-clock statement is what is printed for the plain one. -/
def SameBody (ft : FloatText) (n : Nat) (text : Text) (args : List Arg) : Prop :=
  ∀ (reg reg' : Registry) (lineno : Nat) (m m' : Mem) (buf buf' : Nat) (sec usec : UInt64)
    (fl : Flags), reg.Reachable → reg'.Reachable → lineno ≠ 0 →
    m.Holds buf (encodeArgs n args) → m'.Holds buf' (encodeArgs n (stamped sec usec args)) →
    printed ft reg' 0 text ((stamped sec usec args).map Arg.ty) m' buf' fl
      = printed ft reg lineno text (args.map Arg.ty) m buf fl

/-! ## What the texts ask for -/

/-- What the text asks for when there are `k` arguments. -/
def asked (text : Text) (k : Nat) : Except FormatError (Bool × Nat) :=
  Builder.conversions (MessageFormatter.c_str text).length (MessageFormatter.c_str text) k

/-- Something is printed for the plain statement: the key fits its buffer, no
optional is nested, and the text can be scanned. -/
def Printable (text : Text) (ts : List Ty) : Prop :=
  (∃ key, MsgFormatString.ofTypes ts = some key) ∧ (∀ t ∈ ts, t.Shallow)
    ∧ ∃ r, asked text ts.length = .ok r

/-- The text has a conversion for every argument and no other one. -/
def Matches (text : Text) (ts : List Ty) : Prop := asked text ts.length = .ok (true, 0)

/-- A text that cannot be scanned with some arguments cannot be scanned with
more. -/
theorem conversions_error_add (j : Nat) : ∀ (fuel : Nat) {t : Text} {k : Nat} {e : FormatError},
    Builder.conversions fuel t k = .error e → Builder.conversions fuel t (k + j) = .error e
  | 0, t, k, e, h => by cases h
  | fuel + 1, t, k, e, h => by
      rw [Builder.conversions] at h ⊢
      by_cases ht : t.isEmpty = true
      · rw [if_pos ht] at h
        cases h
      · rw [if_neg ht] at h ⊢
        rcases hnext : nextParam t with e' | _ | ⟨before, p⟩
        · rw [hnext] at h
          exact h
        · rw [hnext] at h
          cases h
        · rw [hnext, ok_bind] at h
          rw [ok_bind]
          dsimp only at h ⊢
          by_cases hp : p.conversionSpecifier = 37
          · rw [if_pos hp] at h ⊢
            exact conversions_error_add j fuel h
          · rw [if_neg hp] at h ⊢
            by_cases hk : k = 0
            · rw [if_pos hk] at h
              cases h
            · rw [if_neg hk] at h
              rw [if_neg (by omega), show k + j - 1 = k - 1 + j by omega]
              exact conversions_error_add j fuel h

/-! ## Keys -/

/-- A shorter key leaves more room. -/
theorem putAll_shorter : ∀ (ts : List Ty) {key key' : Text}, key.length ≤ key'.length →
    (∃ k, MsgFormatString.putAll key' ts = some k) → ∃ k, MsgFormatString.putAll key ts = some k
  | [], key, key', hle, h => ⟨key, rfl⟩
  | t :: ts, key, key', hle, ⟨k, h⟩ => by
      rw [MsgFormatString.putAll, Option.bind_eq_some_iff] at h
      obtain ⟨next', hput, h⟩ := h
      have hnext : ∃ next, MsgFormatString.put key (formatString t) = some next
          ∧ next.length ≤ next'.length := by
        unfold MsgFormatString.put at hput ⊢
        rw [Option.ite_none_right_eq_some] at hput
        obtain ⟨hlt, hput⟩ := hput
        cases hput
        have hlen : (if key.isEmpty then formatString t
              else key ++ ascii [','] ++ formatString t).length
            ≤ (if key'.isEmpty then formatString t
              else key' ++ ascii [','] ++ formatString t).length := by
          cases key with
          | nil =>
            rw [List.isEmpty_nil, if_pos rfl]
            split
            · exact Nat.le_refl _
            · rw [List.length_append]
              exact Nat.le_add_left _ _
          | cons c key =>
            cases key' with
            | nil => simp at hle
            | cons c' key' => simpa using hle
        exact ⟨_, if_pos (Nat.lt_of_le_of_lt hlen hlt), hlen⟩
      obtain ⟨next, hput', hlen⟩ := hnext
      obtain ⟨k', hk'⟩ := putAll_shorter ts hlen ⟨k, h⟩
      exact ⟨k', by rw [MsgFormatString.putAll, hput', Option.bind_some, hk']⟩

/-- The key of the plain statement fits if the one of the wall-clock statement
does. -/
theorem ofTypes_stamped {ts : List Ty}
    (h : ∃ key, MsgFormatString.ofTypes (.u64 :: .u64 :: ts) = some key) :
    ∃ key, MsgFormatString.ofTypes ts = some key := by
  obtain ⟨key, hkey⟩ := h
  have hq : MsgFormatString.ofTypes (.u64 :: .u64 :: ts)
      = MsgFormatString.putAll (ascii ['q', ',', 'q']) ts := rfl
  rw [hq] at hkey
  exact putAll_shorter ts (Nat.zero_le _) ⟨key, hkey⟩

/-- The prefix is recognized if there are arguments behind it. -/
theorem isWallClock_stamped (ts : List Ty) :
    MessageFormatter.isWallClock 0 (joinKeys (.u64 :: .u64 :: ts)) = !ts.isEmpty := by
  cases ts with
  | nil => rfl
  | cons t ts =>
    rw [joinKeys_cons, joinKeys_cons]
    rfl

theorem isWallClock_plain {lineno : Nat} (h : lineno ≠ 0) (key : Text) :
    MessageFormatter.isWallClock lineno key = false := by
  simp [MessageFormatter.isWallClock, h]

/-! ## What is printed at all -/

section

variable {ft : FloatText} {reg : Registry} {lineno : Nat} {text : Text} {ts : List Ty} {m : Mem}
  {buf : Nat} {fl : Flags}

theorem printed_some {b : Text} (h : printed ft reg lineno text ts m buf fl = some b) :
    ∃ mf reg', MsgFormatString.ofTypes ts = some (joinKeys ts)
      ∧ MessageFormatter.init reg lineno text (joinKeys ts) = .ok (mf, reg')
      ∧ body ft mf m buf fl = b := by
  unfold printed at h
  obtain ⟨key, hkey, h⟩ := Option.bind_eq_some_iff.mp h
  have heq := ofTypes_eq hkey
  subst heq
  split at h
  · rename_i mf reg' hinit
    cases h
    exact ⟨mf, reg', hkey, hinit, rfl⟩
  · cases h

theorem printed_of_init {key : Text} (hkey : MsgFormatString.ofTypes ts = some key)
    {mf : MessageFormatter} {reg' : Registry}
    (h : MessageFormatter.init reg lineno text (joinKeys ts) = .ok (mf, reg')) :
    printed ft reg lineno text ts m buf fl = some (body ft mf m buf fl) := by
  unfold printed
  rw [hkey, ofTypes_eq hkey, Option.bind_some, h]

/-- A body is printed exactly if the key fits, no optional is nested, and the
text can be scanned. -/
theorem printed_isSome (hr : reg.Ok) :
    (∃ b, printed ft reg lineno text ts m buf fl = some b)
      ↔ (∃ key, MsgFormatString.ofTypes ts = some key) ∧ (∀ t ∈ ts, t.Shallow)
        ∧ MessageFormatter.TextScans lineno text (joinKeys ts) ts.length := by
  constructor
  · rintro ⟨b, h⟩
    obtain ⟨mf, reg', hkey, hinit, -⟩ := printed_some h
    have hshallow := (MessageFormatter.init_sound hr hinit).1
    refine ⟨⟨_, hkey⟩, hshallow, ?_⟩
    rcases hsc : MessageFormatter.scanned lineno text (joinKeys ts) ts.length with e | r
    · rw [MessageFormatter.init_undefined hr hshallow hsc] at hinit
      cases hinit
    · exact ⟨r, hsc⟩
  · rintro ⟨⟨key, hkey⟩, hshallow, hscans⟩
    obtain ⟨mf, reg', hinit, -⟩ := MessageFormatter.init_shallow hr hshallow hscans
    exact ⟨_, printed_of_init hkey hinit⟩

theorem textScans_plain (h : lineno ≠ 0) :
    MessageFormatter.TextScans lineno text (joinKeys ts) ts.length
      ↔ ∃ r, asked text ts.length = .ok r := by
  unfold MessageFormatter.TextScans MessageFormatter.scanned MessageFormatter.skippedFields
  rw [isWallClock_plain h, if_neg Bool.false_ne_true, Nat.sub_zero]
  rfl

/-- Without arguments the two fields count as such. -/
theorem scanned_stamped :
    MessageFormatter.scanned 0 text (joinKeys (.u64 :: .u64 :: ts)) (ts.length + 2)
      = asked text (if ts = [] then 2 else ts.length) := by
  unfold MessageFormatter.scanned MessageFormatter.skippedFields
  rw [isWallClock_stamped]
  cases ts with
  | nil => rfl
  | cons t ts => rfl

theorem printed_plain_isSome (hr : reg.Ok) (h : lineno ≠ 0) :
    (∃ b, printed ft reg lineno text ts m buf fl = some b) ↔ Printable text ts := by
  rw [printed_isSome hr, textScans_plain h]
  rfl

/-- Where nothing is printed for the plain statement, nothing is printed for
the wall-clock one. -/
theorem printed_stamped_none (hr : reg.Ok) (h : ¬ Printable text ts) :
    printed ft reg 0 text (.u64 :: .u64 :: ts) m buf fl = none := by
  rw [Option.eq_none_iff_forall_ne_some]
  intro b hb
  obtain ⟨hkey, hshallow, r, hr⟩ := (printed_isSome hr).mp ⟨b, hb⟩
  refine h ⟨ofTypes_stamped hkey, fun t ht => hshallow t (by simp [ht]), ?_⟩
  rw [List.length_cons, List.length_cons, scanned_stamped] at hr
  rcases hask : asked text ts.length with e | r'
  · exfalso
    by_cases hts : ts = []
    · subst hts
      rw [if_pos rfl] at hr
      have herr := conversions_error_add 2 _ hask
      rw [List.length_nil, Nat.zero_add] at herr
      rw [asked, herr] at hr
      cases hr
    · rw [if_neg hts, hask] at hr
      cases hr
  · exact ⟨r', rfl⟩

end

/-! ## The fields in front are skipped -/

/-- Two loops over the same codes, where the formatters of the second have
something in front. -/
structure Twin (pre : List Entry) (b b' : Builder) : Prop where
  reg : b.reg.Exact ∧ b'.reg.Exact
  fmtPtr : ∃ cs, b.fmtPtr = joinCodes cs ∧ b'.fmtPtr = joinCodes cs
  formatters : b'.formatters = pre ++ b.formatters

theorem Twin.push {pre : List Entry} {b b' : Builder} (h : Twin pre b b') (e : Entry) :
    Twin pre (b.push e) (b'.push e) := by
  refine ⟨h.reg, h.fmtPtr, ?_⟩
  simp only [Builder.push, h.formatters, List.append_assoc]

/-- The loops go the same way. -/
theorem scan_twin {pre : List Entry} : ∀ (fuel : Nat) {t : Text} {b b' : Builder}, Twin pre b b' →
    Alike (fun r r' => r'.1 = r.1 ∧ Twin pre r.2 r'.2) (b.scan fuel t) (b'.scan fuel t)
  | 0, t, b, b', h => .ok ⟨rfl, h⟩
  | fuel + 1, t, b, b', h => by
      rw [Builder.scan, Builder.scan]
      by_cases ht : t.isEmpty = true
      · rw [if_pos ht, if_pos ht]
        exact .ok ⟨rfl, h⟩
      · rw [if_neg ht, if_neg ht]
        rcases nextParam t with e | _ | ⟨before, p⟩
        · exact .error e
        · exact .ok ⟨rfl, h.push _⟩
        · rw [ok_bind, ok_bind]
          dsimp only
          by_cases hp : p.conversionSpecifier = 37
          · rw [if_pos hp, if_pos hp]
            exact scan_twin fuel (h.push _)
          · rw [if_neg hp, if_neg hp]
            obtain ⟨cs, hcs, hcs'⟩ := h.fmtPtr
            rw [hcs, hcs', joinCodes_isEmpty]
            cases cs with
            | nil => exact .ok ⟨rfl, h⟩
            | cons c cs =>
              obtain ⟨reg₁, hreg₁, hadd⟩ := Builder.addParam_joinCodes h.reg.1 hcs before p
              obtain ⟨reg₂, hreg₂, hadd'⟩ := Builder.addParam_joinCodes h.reg.2 hcs' before p
              rw [List.isEmpty_cons, if_neg Bool.false_ne_true, if_neg Bool.false_ne_true, hadd,
                hadd', ok_bind, ok_bind]
              refine scan_twin fuel ⟨⟨hreg₁, hreg₂⟩, ⟨cs, rfl, rfl⟩, ?_⟩
              dsimp only
              rw [h.formatters, List.append_assoc]

theorem exists_codes : ∀ {ts : List Ty}, (∀ t ∈ ts, t.Shallow) →
    ∃ cs, joinKeys ts = joinCodes cs := by
  have hforall : ∀ {ts : List Ty}, (∀ t ∈ ts, t.Shallow) →
      ∃ cs, List.Forall₂ (fun t c => Code.ofTy t = some c) ts cs := by
    intro ts
    induction ts with
    | nil => intro _; exact ⟨[], .nil⟩
    | cons t ts ih =>
      intro h
      obtain ⟨c, hc⟩ := Code.ofTy_shallow (h t (by simp))
      obtain ⟨cs, hcs⟩ := ih fun u hu => h u (by simp [hu])
      exact ⟨c :: cs, .cons hc hcs⟩
  intro ts h
  obtain ⟨cs, hcs⟩ := hforall h
  exact ⟨cs, (joinCodes_ofTy hcs).symm⟩

/-- For a text with a conversion for every argument both statements get the
same formatters, behind the one that skips the time. -/
theorem init_matches {reg reg' : Registry} (hr : reg.Reachable) (hr' : reg'.Reachable)
    {lineno : Nat} (hline : lineno ≠ 0) {text : Text} {ts : List Ty}
    (hshallow : ∀ t ∈ ts, t.Shallow) (hne : ts ≠ []) (hask : Matches text ts) :
    ∃ mf mf' r r', MessageFormatter.init reg lineno text (joinKeys ts) = .ok (mf, r)
      ∧ MessageFormatter.init reg' 0 text (joinKeys (.u64 :: .u64 :: ts)) = .ok (mf', r')
      ∧ FormattersFit mf.formatters ts
      ∧ mf'.formatters = .param .wallClockRingBuf :: mf.formatters := by
  obtain ⟨cs, hcs⟩ := exists_codes hshallow
  have hplain : MessageFormatter.start reg lineno (joinKeys ts)
      = { fmtPtr := joinKeys ts, formatters := [], lengths := [], reg } := by
    rw [MessageFormatter.start, isWallClock_plain hline, if_neg Bool.false_ne_true]
  have hstamped : MessageFormatter.start reg' 0 (joinKeys (.u64 :: .u64 :: ts))
      = { fmtPtr := joinKeys ts, formatters := [.param .wallClockRingBuf],
          lengths := [.wallClock], reg := reg' } := by
    have hw : MessageFormatter.isWallClock 0 (joinKeys (.u64 :: .u64 :: ts)) = true := by
      rw [isWallClock_stamped]
      simpa using hne
    obtain ⟨t, u, us, heq, -, -, hdrop⟩ := MessageFormatter.isWallClock_joinKeys hw
    cases heq
    rw [MessageFormatter.start, if_pos hw, hdrop]
  have htwin : Twin [.param .wallClockRingBuf]
      { fmtPtr := joinKeys ts, formatters := [], lengths := [], reg }
      { fmtPtr := joinKeys ts, formatters := [.param .wallClockRingBuf],
        lengths := [.wallClock], reg := reg' } :=
    ⟨⟨hr.exact, hr'.exact⟩, ⟨cs, hcs, hcs⟩, rfl⟩
  have hinv : Builder.Inv [] [] [] ts
      { fmtPtr := joinKeys ts, formatters := [], lengths := [], reg } :=
    ⟨by simp, rfl, hr.ok, ⟨[], rfl, .nil⟩, ⟨[], rfl, .nil⟩⟩
  have hscan := Builder.scan_shallow (MessageFormatter.c_str text).length
    (MessageFormatter.c_str text) hinv hshallow
  unfold Matches asked at hask
  rw [hask] at hscan
  obtain ⟨rest, b, ts', us', hscan, hrest, hus, rfl, hend⟩ := hscan
  cases List.eq_nil_of_length_eq_zero hus
  obtain ⟨⟨rest', b'⟩, hscan', hrest', htwin'⟩ := (scan_twin _ htwin).ok_of hscan
  have hptr : b.fmtPtr.isEmpty = true := by rw [hend.fmtPtr]; rfl
  have hptr' : b'.fmtPtr.isEmpty = true := by
    obtain ⟨ds, hds, hds'⟩ := htwin'.fmtPtr
    dsimp only at hds hds'
    rw [hds', ← hds, hptr]
  dsimp only at hrest' htwin'
  rw [← hplain] at hscan
  rw [← hstamped] at hscan'
  have hfin := MessageFormatter.init_of_finish hscan (b := b)
    (by rw [MessageFormatter.finish]; simp [hrest, hptr])
  have hfin' := MessageFormatter.init_of_finish hscan' (b := b')
    (by rw [MessageFormatter.finish]; simp [hrest', hrest, hptr'])
  refine ⟨_, _, _, _, hfin, hfin', ?_, htwin'.formatters⟩
  obtain ⟨es, he, hes⟩ := hend.formatters
  rw [List.append_nil]
  show FormattersFit b.formatters ts'
  rw [he]
  exact hes

/-! ## Formatting the same bytes at another place -/

theorem readBytes_shift {m m' : Mem} : ∀ {k a a' : Nat}, (∀ i, i < k → m' (a' + i) = m (a + i)) →
    readBytes m' a' k = readBytes m a k
  | 0, a, a', h => rfl
  | k + 1, a, a', h => by
      have ih : readBytes m' (a' + 1) k = readBytes m (a + 1) k := by
        refine readBytes_shift fun i hi => ?_
        rw [Nat.add_assoc, Nat.add_assoc, Nat.add_comm 1 i]
        exact h (i + 1) (by omega)
      rw [readBytes, readBytes, ih, show m' a' = m a from h 0 (Nat.succ_pos k)]

/-- A formatter looks at the bytes it takes and at no others. -/
theorem run_shift {m m' : Mem} (f : Formatter) : ∀ {a a' : Nat} (os : OStream),
    (∀ i, i < (f.run m a os).1 → m' (a' + i) = m (a + i)) → f.run m' a' os = f.run m a os := by
  induction f with
  | u8 | char | bool | u8Hex =>
    intro a a' os h
    have h0 : m' a' = m a := h 0 Nat.one_pos
    rw [Formatter.run, Formatter.run, h0]
  | u16 | u32 | u64 | float | double | u16Hex | u32Hex | u64Hex =>
    intro a a' os h
    have hload := Mem.load_shift h
    simp only [Formatter.run] at hload ⊢
    rw [hload]
  | wallClockRingBuf =>
    intro a a' os h
    rfl
  | string =>
    intro a a' os h
    have hlen : m' a' = m a := h 0 (by simp [Formatter.run])
    have hbytes : readBytes m' (a' + 1) (m a).toNat = readBytes m (a + 1) (m a).toNat := by
      refine readBytes_shift fun i hi => ?_
      rw [Nat.add_assoc, Nat.add_assoc]
      exact h (1 + i) (by rw [Formatter.run]; omega)
    rw [Formatter.run, Formatter.run, hlen, hbytes]
  | opt inner ih =>
    intro a a' os h
    by_cases h0 : m a = 0
    · have h0' : m' a' = m a := h 0 (by simp [Formatter.run, h0])
      rw [Formatter.run, Formatter.run, if_pos (h0'.trans h0), if_pos h0]
    · simp only [Formatter.run, h0, if_false] at h
      have h0' : m' a' = m a := h 0 (by omega)
      have hin : inner.run m' (a' + 1) os = inner.run m (a + 1) os := by
        refine ih os fun i hi => ?_
        rw [Nat.add_assoc, Nat.add_assoc]
        exact h (1 + i) (by omega)
      rw [Formatter.run, Formatter.run, if_neg (h0' ▸ h0), if_neg h0, hin]

/-- Formatters that fit the arguments write the same wherever these are. -/
theorem formatLoop_shift {n : Nat} (hn : n ≤ 255) {m m' : Mem} {buf buf' : Nat} :
    ∀ (es : List Entry) (args : List Arg) (k k' : Nat) (os : OStream),
      FormattersFit es (args.map Arg.ty) → m.Holds (buf + k) (encodeArgs n args) →
      m'.Holds (buf' + k') (encodeArgs n args) →
      (MessageFormatter.formatLoop m' buf' es k' os).2
        = (MessageFormatter.formatLoop m buf es k os).2
  | [], args, k, k', os, hf, h, h' => rfl
  | .formatStatic t :: es, args, k, k', os, hf, h, h' =>
      formatLoop_shift hn es args k k' (os.insert (.text t)) hf h h'
  | .applyCFormatSpec spec :: es, args, k, k', os, hf, h, h' =>
      formatLoop_shift hn es args k k' (MessageFormatter.applyCFormatSpec spec os) hf h h'
  | .resetCFormatSpec :: es, args, k, k', os, hf, h, h' =>
      formatLoop_shift hn es args k k' (MessageFormatter.resetCFormatSpec os) hf h h'
  | .param f :: es, args, k, k', os, hf, h, h' => by
      cases args with
      | nil => cases hf
      | cons a as =>
        unfold FormattersFit at hf
        rw [List.map_cons, params_param, List.forall₂_cons] at hf
        rw [encodeArgs_cons, Mem.holds_append] at h h'
        have hsize := fun os => (Arg.reads hn a hf.1 h.1 os).1
        have hrun : ∀ os, f.run m' (buf' + k') os = f.run m (buf + k) os := by
          intro os
          refine run_shift f os fun i hi => ?_
          rw [hsize] at hi
          have hbyte := List.getElem?_eq_getElem hi
          rw [h.1.getElem? hbyte, h'.1.getElem? hbyte]
        rw [formatLoop_param, formatLoop_param, hrun, hrun, hsize]
        refine formatLoop_shift hn es as _ _ _ hf.2 ?_ ?_
        · rw [← Nat.add_assoc]
          exact h.2
        · rw [← Nat.add_assoc]
          exact h'.2

/-! ## A field in front shows -/

/-- A formatter only adds to what has been written. -/
theorem run_appends (m : Mem) (f : Formatter) : ∀ (a : Nat) (os : OStream),
    ∃ out, (f.run m a os).2.out = os.out ++ out := by
  induction f with
  | u32 =>
    intro a os
    rw [Formatter.run]
    dsimp only
    split
    · exact ⟨_, List.append_assoc ..⟩
    · exact ⟨_, rfl⟩
  | opt inner ih =>
    intro a os
    rw [Formatter.run]
    split
    · exact ⟨_, rfl⟩
    · exact ih (a + 1) os
  | wallClockRingBuf =>
    intro a os
    exact ⟨[], (List.append_nil _).symm⟩
  | _ =>
    intro a os
    exact ⟨_, rfl⟩

theorem formatLoop_appends (m : Mem) (buf : Nat) : ∀ (es : List Entry) (k : Nat) (os : OStream),
    ∃ out, (MessageFormatter.formatLoop m buf es k os).2.out = os.out ++ out
  | [], k, os => ⟨[], (List.append_nil _).symm⟩
  | .formatStatic t :: es, k, os => by
      obtain ⟨out, hout⟩ := formatLoop_appends m buf es k (os.insert (.text t))
      refine ⟨(os.flags, .text t) :: out, ?_⟩
      rw [MessageFormatter.formatLoop, hout]
      simp [OStream.insert]
  | .applyCFormatSpec spec :: es, k, os =>
      formatLoop_appends m buf es k (MessageFormatter.applyCFormatSpec spec os)
  | .resetCFormatSpec :: es, k, os =>
      formatLoop_appends m buf es k (MessageFormatter.resetCFormatSpec os)
  | .param f :: es, k, os => by
      obtain ⟨out, hout⟩ := run_appends m f (buf + k) os
      obtain ⟨out', hout'⟩ := formatLoop_appends m buf es
        (k + (f.run m (buf + k) OStream.fresh).1) (f.run m (buf + k) os).2
      exact ⟨out ++ out', by rw [formatLoop_param, hout', hout, List.append_assoc]⟩

theorem formatLoop_text (ft : FloatText) (m : Mem) (buf : Nat) (es : List Entry) (k : Nat)
    (os : OStream) :
    ∃ t, (MessageFormatter.formatLoop m buf es k os).2.text ft = os.text ft ++ t := by
  obtain ⟨out, hout⟩ := formatLoop_appends m buf es k os
  exact ⟨_, by rw [OStream.text, hout, List.flatMap_append]; rfl⟩

/-- One and two are spelled alike but for one digit. -/
theorem rendered_one_two (ft : FloatText) (fl : Flags) :
    ((Piece.num 1).rendered ft fl).length = ((Piece.num 2).rendered ft fl).length
      ∧ (Piece.num 1).rendered ft fl ≠ (Piece.num 2).rendered ft fl := by
  obtain ⟨pre, h1, h2⟩ : ∃ pre, numString fl 1 = pre ++ [49] ∧ numString fl 2 = pre ++ [50] := by
    cases hhex : fl.hex with
    | false =>
      unfold numString
      rw [hhex]
      exact ⟨[], rfl, rfl⟩
    | true =>
      unfold numString
      rw [hhex]
      cases fl.showbase with
      | false => exact ⟨[], rfl, rfl⟩
      | true => exact ⟨ascii ['0', 'x'], rfl, rfl⟩
  simp only [Piece.rendered, Piece.string, h1, h2, List.length_append, List.length_replicate,
    List.length_cons, List.length_nil, true_and]
  intro h
  have hlast := congrArg List.getLast? h
  simp at hlast

/-- If the first formatter reads a 64-bit field, then its value shows. -/
theorem first_shows (ft : FloatText) {m m' : Mem} (buf buf' : Nat) {ts : List Ty} :
    ∀ (es : List Entry) {k : Nat} (os : OStream), FormattersFit es (.u64 :: ts) →
      m.Holds (buf + k) (leBytes 8 1) → m'.Holds (buf' + k) (leBytes 8 2) →
      (MessageFormatter.formatLoop m buf es k os).2.text ft
        ≠ (MessageFormatter.formatLoop m' buf' es k os).2.text ft
  | [], k, os, hf, h, h' => by cases hf
  | .formatStatic t :: es, k, os, hf, h, h' => first_shows ft buf buf' es (os.insert (.text t)) hf h h'
  | .applyCFormatSpec spec :: es, k, os, hf, h, h' =>
      first_shows ft buf buf' es (MessageFormatter.applyCFormatSpec spec os) hf h h'
  | .resetCFormatSpec :: es, k, os, hf, h, h' =>
      first_shows ft buf buf' es (MessageFormatter.resetCFormatSpec os) hf h h'
  | .param f :: es, k, os, hf, h, h' => by
      have hload := load_word h (by decide)
      have hload' := load_word h' (by decide)
      unfold FormattersFit at hf
      rw [params_param, List.forall₂_cons] at hf
      obtain ⟨fl, htext, htext'⟩ : ∃ fl,
          (f.run m (buf + k) os).2.text ft = os.text ft ++ (Piece.num 1).rendered ft fl
          ∧ (f.run m' (buf' + k) os).2.text ft = os.text ft ++ (Piece.num 2).rendered ft fl := by
        cases f with
        | u64 =>
          refine ⟨os.flags, ?_, ?_⟩
          · simp only [Formatter.run, hload, OStream.text_insert]
          · simp only [Formatter.run, hload', OStream.text_insert]
        | u64Hex =>
          refine ⟨{ os.flags with hex := true }, ?_, ?_⟩
          · simp only [Formatter.run, hload, insertHex, OStream.text_setHex, OStream.text_insert]
            rfl
          · simp only [Formatter.run, hload', insertHex, OStream.text_setHex, OStream.text_insert]
            rfl
        | _ => simp [Formatter.fits] at hf
      obtain ⟨hlen, hne⟩ := rendered_one_two ft fl
      obtain ⟨t, ht⟩ := formatLoop_text ft m buf es
        (k + (f.run m (buf + k) OStream.fresh).1) (f.run m (buf + k) os).2
      obtain ⟨t', ht'⟩ := formatLoop_text ft m' buf' es
        (k + (f.run m' (buf' + k) OStream.fresh).1) (f.run m' (buf' + k) os).2
      rw [formatLoop_param, formatLoop_param, ht, ht', htext, htext', List.append_assoc,
        List.append_assoc]
      intro heq
      exact hne (List.append_inj (List.append_cancel_left heq) hlen).1

/-! ## The two bodies -/

theorem map_stamped (sec usec : UInt64) (args : List Arg) :
    (stamped sec usec args).map Arg.ty = .u64 :: .u64 :: args.map Arg.ty := rfl

theorem encodeArgs_stamped (n : Nat) (sec usec : UInt64) (args : List Arg) :
    encodeArgs n (stamped sec usec args)
      = leBytes 8 sec.toNat ++ (leBytes 8 usec.toNat ++ encodeArgs n args) := rfl

/-- With a conversion for every argument the bodies are the same. -/
theorem sameBody_of_matches {ft : FloatText} {n : Nat} (hn : n ≤ 255) {text : Text}
    {args : List Arg} (hprint : Printable text (args.map Arg.ty)) (hne : args ≠ [])
    (hmatch : Matches text (args.map Arg.ty))
    (hkey : ∃ key, MsgFormatString.ofTypes (.u64 :: .u64 :: args.map Arg.ty) = some key) :
    SameBody ft n text args := by
  intro reg reg' lineno m m' buf buf' sec usec fl hr hr' hline hm hm'
  obtain ⟨⟨key, hplain⟩, hshallow, -⟩ := hprint
  obtain ⟨key', hkey⟩ := hkey
  obtain ⟨mf, mf', r, r', hinit, hinit', hfit, hskip⟩ :=
    init_matches hr hr' hline hshallow (by simpa using hne) hmatch
  rw [map_stamped, printed_of_init hplain hinit, printed_of_init hkey hinit', body, body,
    MessageFormatter.format, MessageFormatter.format, hskip, formatLoop_param, Nat.zero_add]
  rw [encodeArgs_stamped, Mem.holds_append, Mem.holds_append, leBytes_length, leBytes_length,
    Nat.add_assoc] at hm'
  exact congrArg (fun os => some (OStream.text ft os))
    (formatLoop_shift hn mf.formatters args 0 16 ⟨fl, []⟩ hfit hm hm'.2.2)

/-- Without one, a change of the time changes the body of the wall-clock
message. -/
theorem sameBody_matches {ft : FloatText} {n : Nat} {text : Text}
    {args : List Arg} (hprint : Printable text (args.map Arg.ty)) (h : SameBody ft n text args) :
    args ≠ [] ∧ Matches text (args.map Arg.ty)
      ∧ ∃ key, MsgFormatString.ofTypes (.u64 :: .u64 :: args.map Arg.ty) = some key := by
  have hr := Registry.Reachable.initial
  have hplain : ∀ m buf fl, ∃ b,
      printed ft Registry.initial 1 text (args.map Arg.ty) m buf fl = some b :=
    fun m buf fl => (printed_plain_isSome hr.ok (by decide)).mpr hprint
  -- the bodies for two times, everything else being equal
  have hbody : ∀ sec : UInt64, printed ft Registry.initial 0 text
        (.u64 :: .u64 :: args.map Arg.ty)
        (Mem.store (fun _ => 0) 0 (encodeArgs n (stamped sec 0 args))) 0 Flags.initial
      = printed ft Registry.initial 1 text (args.map Arg.ty)
        (Mem.store (fun _ => 0) 0 (encodeArgs n args)) 0 Flags.initial :=
    fun sec => h _ _ 1 _ _ 0 0 sec 0 Flags.initial hr hr (by decide) (Mem.holds_store _ _ _)
      (Mem.holds_store _ _ _)
  obtain ⟨b, hb⟩ := hplain (Mem.store (fun _ => 0) 0 (encodeArgs n args)) 0 Flags.initial
  simp only [hb] at hbody
  obtain ⟨hkey, hshallow, hscans⟩ := (printed_isSome hr.ok).mp ⟨b, hbody 1⟩
  obtain ⟨mf, reg', hinit, -, hshown⟩ := MessageFormatter.init_shallow hr.ok hshallow hscans
  have hhidden : MessageFormatter.FieldsHidden 0 text
      (joinKeys (.u64 :: .u64 :: args.map Arg.ty))
      (Ty.u64 :: Ty.u64 :: args.map Arg.ty).length := by
    by_contra hno
    obtain ⟨key, hkey⟩ := hkey
    have h1 := hbody 1
    have h2 := hbody 2
    rw [printed_of_init hkey hinit] at h1 h2
    have hm1 := Mem.holds_store (fun _ => 0) 0 (encodeArgs n (stamped 1 0 args))
    have hm2 := Mem.holds_store (fun _ => 0) 0 (encodeArgs n (stamped 2 0 args))
    rw [encodeArgs_stamped, Mem.holds_append] at hm1 hm2
    exact first_shows ft 0 0 mf.formatters (k := 0) ⟨Flags.initial, []⟩
      (hshown hno).1 hm1.1 hm2.1 (Option.some.inj (h1.trans h2.symm))
  obtain ⟨hwall, hscanned⟩ := hhidden
  rw [isWallClock_stamped] at hwall
  have hne : args.map Arg.ty ≠ [] := by simpa using hwall
  rw [List.length_cons, List.length_cons, scanned_stamped, if_neg hne] at hscanned
  exact ⟨by simpa using hne, hscanned, hkey⟩

/-- For every text and every list of arguments: what is printed for the
wall-clock statement is what is printed for the plain one exactly if nothing
is printed for the plain one, or there are arguments, the text has a
conversion for each of them and no other, and the longer key fits its
buffer. -/
theorem sameBody_iff (ft : FloatText) {n : Nat} (hn : n ≤ 255) (text : Text) (args : List Arg) :
    SameBody ft n text args ↔ (Printable text (args.map Arg.ty) →
      args ≠ [] ∧ Matches text (args.map Arg.ty)
        ∧ ∃ key, MsgFormatString.ofTypes (.u64 :: .u64 :: args.map Arg.ty) = some key) := by
  by_cases hprint : Printable text (args.map Arg.ty)
  · constructor
    · intro h _
      exact sameBody_matches hprint h
    · intro h
      obtain ⟨hne, hmatch, hkey⟩ := h hprint
      exact sameBody_of_matches hn hprint hne hmatch hkey
  · refine iff_of_true ?_ fun h => absurd h hprint
    intro reg reg' lineno m m' buf buf' sec usec fl hr hr' hline hm hm'
    rw [map_stamped, printed_stamped_none hr'.ok hprint, eq_comm,
      Option.eq_none_iff_forall_ne_some]
    intro b hb
    exact hprint ((printed_plain_isSome hr.ok hline).mp ⟨b, hb⟩)

/-- `WCQT1( "%d ok", 5 )`. -/
theorem sameBody_iff_number :
    SameBody noFloats 24 (ascii ['%', 'd', ' ', 'o', 'k']) [.val (.i32 5)]
      ↔ (Printable (ascii ['%', 'd', ' ', 'o', 'k']) [.i32] → [Arg.val (.i32 5)] ≠ []
        ∧ Matches (ascii ['%', 'd', ' ', 'o', 'k']) [.i32]
        ∧ ∃ key, MsgFormatString.ofTypes [.u64, .u64, .i32] = some key) :=
  sameBody_iff noFloats (by decide) _ [.val (.i32 5)]

/-- `WCQT1( "hi", QNULL )` at second 5, microsecond 6. -/
theorem time_shows : ¬ SameBody noFloats 24 (ascii ['h', 'i']) []
    ∧ printed noFloats Registry.initial 1 (ascii ['h', 'i']) []
        (fun _ => 0) 0 Flags.initial = some (ascii ['h', 'i'])
    ∧ printed noFloats Registry.initial 0 (ascii ['h', 'i']) [.u64, .u64]
        (Mem.store (fun _ => 0) 0 (leBytes 8 5 ++ leBytes 8 6)) 0 Flags.initial
      = some (ascii ['h', 'i', ' ', '%', ' ', '(', '5', ',', '6', ')', ' ']) := by
  have hplain : printed noFloats Registry.initial 1 (ascii ['h', 'i']) []
      (fun _ => 0) 0 Flags.initial = some (ascii ['h', 'i']) := by decide +kernel
  have hstamped : printed noFloats Registry.initial 0 (ascii ['h', 'i']) [.u64, .u64]
      (Mem.store (fun _ => 0) 0 (leBytes 8 5 ++ leBytes 8 6)) 0 Flags.initial
      = some (ascii ['h', 'i', ' ', '%', ' ', '(', '5', ',', '6', ')', ' ']) := by
    decide +kernel
  refine ⟨fun h => ?_, hplain, hstamped⟩
  have heq := h Registry.initial Registry.initial 1 (fun _ => 0)
    (Mem.store (fun _ => 0) 0 (leBytes 8 5 ++ leBytes 8 6)) 0 0 5 6 Flags.initial .initial .initial
    (by decide) trivial (Mem.holds_store _ _ _)
  rw [map_stamped, List.map_nil, hplain, hstamped] at heq
  cases heq

end QuickTrace.WallClock
