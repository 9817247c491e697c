/-
QuickTrace.Tail.Lookup — looking for a descriptor while the dictionary grows.

`Messages::get` parses what has been appended when it does not know an id, and
answers with what it then has. `Finds` says that in a run of look-ups and
appends every look-up returns, and that it returns the formatter built from the
first descriptor of its id if there is one in the file. `Meets` says what a run
needs for that; `finds_iff` is the equivalence.

The invariant is `Holds`: the table is the one of the descriptors in front of
the position of the parser.
-/
import QuickTrace.Ctl.ParseLoops
import QuickTrace.Dict.Mapping
import QuickTrace.Format.Tokenizable

namespace QuickTrace

open QuickTrace.Lib

namespace Lookup

open MessageParser ParseLoops Mapping

/-! ## The class -/

/-- The class `Messages`: `messages_` and `parser_`. -/
structure Store where
  table : MessageTable
  parser : MessageParser

/-- `parse`, if the loop ends after `n` rounds. `size` is the size of the file
when it was mapped. -/
def parse (size : Nat) (file : List UInt8) (n : Nat) (M : Store) : Option Store :=
  match rounds (readable size file) emplaceMessage n M.table (M.parser.recheck file) with
  | .ended T ps => some ⟨T, ps⟩
  | _ => none

/-- The end of `get`: an empty text means that there is no descriptor. -/
def found (M : Store) (msgId : UInt32) : Option MessageFormatter :=
  (M.table.messages msgId.toNat).bind fun mf => if mf.msg.isEmpty then none else some mf

/-- `get`; its result may be the null pointer. -/
def get (size : Nat) (file : List UInt8) (n : Nat) (M : Store) (msgId : UInt32) :
    Option (Option MessageFormatter × Store) :=
  if (M.table.messages msgId.toNat).isSome then some (found M msgId, M)
  else (parse size file n M).map fun M' => (found M' msgId, M')

/-- What may happen to the file and the table. `Tail::initialize` calls `parse`
once. -/
inductive Op where
  | append (d : Descriptor)
  | parse
  | get (msgId : UInt32)

/-- The first descriptor with an id. -/
def first (ds : List Descriptor) (msgId : UInt32) : Option Descriptor :=
  ds.find? fun d => d.msgId = msgId

/-- The formatter is the one of the descriptor, whatever the static tables are
by then. -/
def BuiltFrom (d : Descriptor) (mf : MessageFormatter) : Prop :=
  ∃ reg reg' : Registry, reg.Reachable
    ∧ MessageFormatter.init reg d.lineno.toUInt32.toNat d.text d.key = .ok (mf, reg')

/-- What a look-up has to return: a formatter if and only if a descriptor with
the id is in the file, and then the one of the first. -/
def Right (ds : List Descriptor) (msgId : UInt32) (r : Option MessageFormatter) : Prop :=
  match first ds msgId with
  | none => r = none
  | some d => ∃ mf, r = some mf ∧ BuiltFrom d mf

/-- In a run that starts with the descriptors `ds` in the file every call
returns, and what a look-up returns is right at that moment. -/
def Finds (size : Nat) (mapped : List UInt8) : List Descriptor → Store → List Op → Prop
  | _, _, [] => True
  | ds, M, .append d :: ops => Finds size mapped (ds ++ [d]) M ops
  | ds, M, .parse :: ops => ∃ n M', parse size (mapped ++ bytesOf ds) n M = some M'
    ∧ Finds size mapped ds M' ops
  | ds, M, .get msgId :: ops => ∃ n r M', get size (mapped ++ bytesOf ds) n M msgId = some (r, M')
    ∧ Right ds msgId r ∧ Finds size mapped ds M' ops

/-! ## What a run needs -/

/-- The key consists of codes that qttail supports. -/
def Supported (d : Descriptor) : Prop := ∃ cs, d.key = joinCodes cs

/-- The text of the descriptor can be tokenized. -/
def Buildable (d : Descriptor) : Prop :=
  ∃ cs, d.key = joinCodes cs
    ∧ Tokenizer.Tame (Tokenizer.placeable d.lineno.toUInt32.toNat cs).length
      (MessageFormatter.c_str d.text)

/-- The first descriptor of each new id can be tokenized. -/
def Builds : List Descriptor → List Descriptor → Prop
  | _, [] => True
  | seen, d :: new => (first seen d.msgId = none → Buildable d) ∧ Builds (seen ++ [d]) new

/-- What is new can be parsed: but for its last byte the file is in the
mapping, and the texts that are needed can be tokenized. -/
def Parses (size : Nat) (mapped : List UInt8) (seen new : List Descriptor) : Prop :=
  (new = [] ∨ (mapped ++ bytesOf (seen ++ new)).length ≤ mapSize size + 1) ∧ Builds seen new

/-- In a run that has parsed `seen` and not yet `new`, no id that is looked up
has an empty text, and whenever `parse` is called what is new can be parsed. -/
def Meets (size : Nat) (mapped : List UInt8) :
    List Descriptor → List Descriptor → List Op → Prop
  | _, _, [] => True
  | seen, new, .append d :: ops => Meets size mapped seen (new ++ [d]) ops
  | seen, new, .parse :: ops => Parses size mapped seen new ∧ Meets size mapped (seen ++ new) [] ops
  | seen, new, .get msgId :: ops => (∀ d, first (seen ++ new) msgId = some d → d.text ≠ [])
    ∧ if (first seen msgId).isSome then Meets size mapped seen new ops
      else Parses size mapped seen new ∧ Meets size mapped (seen ++ new) [] ops

/-! ## One descriptor -/

/-- The table is the one of these descriptors. -/
structure TableOf (ds : List Descriptor) (T : MessageTable) : Prop where
  reachable : T.reg.Reachable
  absent : ∀ msgId, first ds msgId = none → T.messages msgId.toNat = none
  present : ∀ msgId d, first ds msgId = some d →
    ∃ mf, T.messages msgId.toNat = some mf ∧ BuiltFrom d mf

theorem first_append (ds es : List Descriptor) (msgId : UInt32) :
    first (ds ++ es) msgId = (first ds msgId).or (first es msgId) := List.find?_append

theorem first_singleton (d : Descriptor) (msgId : UInt32) :
    first [d] msgId = if d.msgId = msgId then some d else none := by
  unfold first
  rw [List.find?_cons]
  split <;> rename_i h
  · rw [if_pos (of_decide_eq_true h)]
  · rw [if_neg (of_decide_eq_false h)]
    rfl

/-- The text of the formatter is the text it was built from. -/
theorem BuiltFrom.msg {d : Descriptor} {mf : MessageFormatter} (h : BuiltFrom d mf) :
    mf.msg = d.text := by
  obtain ⟨reg, reg', -, hinit⟩ := h
  unfold MessageFormatter.init at hinit
  dsimp only at hinit
  obtain ⟨r, -, hinit⟩ := bind_eq_ok.mp hinit
  obtain ⟨b, -, hinit⟩ := bind_eq_ok.mp hinit
  cases hinit
  rfl

/-- Whether there is a formatter depends on the text up to its first NUL. -/
theorem init_isOk (reg : Registry) (lineno : Nat) (msg fmt : Text) :
    (∃ r, MessageFormatter.init reg lineno msg fmt = .ok r)
      ↔ ∃ b, ((MessageFormatter.start reg lineno (MessageFormatter.c_str fmt)).scan
          (MessageFormatter.c_str msg).length (MessageFormatter.c_str msg) >>=
        MessageFormatter.finish (MessageFormatter.c_str msg) (MessageFormatter.c_str fmt)) = .ok b := by
  unfold MessageFormatter.init
  dsimp only
  constructor
  · rintro ⟨r, h⟩
    obtain ⟨a, ha, h⟩ := bind_eq_ok.mp h
    obtain ⟨b, hb, -⟩ := bind_eq_ok.mp h
    exact ⟨b, bind_eq_ok.mpr ⟨a, ha, hb⟩⟩
  · rintro ⟨b, h⟩
    obtain ⟨a, ha, hb⟩ := bind_eq_ok.mp h
    exact ⟨_, bind_eq_ok.mpr ⟨a, ha, bind_eq_ok.mpr ⟨b, hb, rfl⟩⟩⟩

/-- Over supported codes the text decides whether there is a formatter. -/
theorem buildable_iff {d : Descriptor} (hd : Supported d) {reg : Registry} (hr : reg.Reachable) :
    (∃ r, MessageFormatter.init reg d.lineno.toUInt32.toNat d.text d.key = .ok r)
      ↔ Buildable d := by
  have hne : ∀ c ∈ MessageFormatter.c_str d.text, c ≠ 0 := fun c hc => by
    simpa using List.mem_takeWhile_imp hc
  have hinit : ∀ cs, d.key = joinCodes cs →
      ((∃ r, MessageFormatter.init reg d.lineno.toUInt32.toNat d.text d.key = .ok r)
        ↔ Tokenizer.Tame (Tokenizer.placeable d.lineno.toUInt32.toNat cs).length
          (MessageFormatter.c_str d.text)) := by
    intro cs hcs
    rw [← Tokenizer.init_ok_iff hr.exact _ hne, init_isOk, init_isOk, Tokenizer.c_str_eq hne, hcs]
  constructor
  · intro h
    obtain ⟨cs, hcs⟩ := hd
    exact ⟨cs, hcs, (hinit cs hcs).mp h⟩
  · rintro ⟨cs, hcs, h⟩
    exact (hinit cs hcs).mpr h

theorem emplaceMessage_eq_some {T T' : MessageTable} {msg : Message} :
    emplaceMessage T msg = some T' ↔ T.tryEmplace msg = .ok T' := by
  unfold emplaceMessage
  cases T.tryEmplace msg with
  | error e => simp [Except.toOption]
  | ok T₁ => simp [Except.toOption]

section

variable {ds : List Descriptor} {T : MessageTable}

/-- The ids of the table are those of the descriptors. -/
theorem TableOf.isSome_iff (h : TableOf ds T) (msgId : UInt32) :
    (T.messages msgId.toNat).isSome = (first ds msgId).isSome := by
  cases hfirst : first ds msgId with
  | none => rw [h.absent msgId hfirst]; rfl
  | some d =>
    obtain ⟨mf, hmf, -⟩ := h.present msgId d hfirst
    rw [hmf]
    rfl

/-- The next descriptor is emplaced if its id is known or it can be
tokenized. -/
theorem emplace_iff (h : TableOf ds T) {d : Descriptor} (hd : Supported d) :
    (∃ T', emplaceMessage T d.message = some T')
      ↔ (first ds d.msgId = none → Buildable d) := by
  simp only [emplaceMessage_eq_some]
  unfold MessageTable.tryEmplace
  have hknown := h.isSome_iff d.msgId
  split
  · rename_i hsome
    have hfirst : first ds d.msgId ≠ none := by
      rw [← Option.isSome_iff_ne_none, ← hknown]
      exact hsome
    exact iff_of_true ⟨T, rfl⟩ fun hnone => absurd hnone hfirst
  · rename_i hsome
    have hfirst : first ds d.msgId = none := by
      rw [← Option.not_isSome_iff_eq_none, ← hknown]
      exact hsome
    rw [← buildable_iff hd h.reachable]
    constructor
    · rintro ⟨T', hT'⟩ -
      obtain ⟨r, hr, -⟩ := map_eq_ok.mp hT'
      exact ⟨r, hr⟩
    · intro hbuild
      obtain ⟨r, hr⟩ := hbuild hfirst
      exact ⟨_, map_eq_ok.mpr ⟨r, hr, rfl⟩⟩

/-- Then the table is the one of one descriptor more. -/
theorem emplace_tableOf (h : TableOf ds T) {d : Descriptor} {T' : MessageTable}
    (hT : emplaceMessage T d.message = some T') : TableOf (ds ++ [d]) T' := by
  rw [emplaceMessage_eq_some] at hT
  unfold MessageTable.tryEmplace at hT
  have hknown := h.isSome_iff d.msgId
  split at hT
  · -- the first descriptor of the id stays
    rename_i hsome
    cases hT
    have hkeep : ∀ msgId, first (ds ++ [d]) msgId = first ds msgId := by
      intro msgId
      rw [first_append, first_singleton]
      by_cases hid : d.msgId = msgId
      · obtain ⟨e, he⟩ := Option.isSome_iff_exists.mp (hknown.symm.trans hsome)
        rw [← hid, he, Option.some_or]
      · rw [if_neg hid, Option.or_none]
    exact ⟨h.reachable, fun msgId => hkeep msgId ▸ h.absent msgId,
      fun msgId e => hkeep msgId ▸ h.present msgId e⟩
  · rename_i hsome
    obtain ⟨r, hr, rfl⟩ := map_eq_ok.mp hT
    have hfirst : first ds d.msgId = none := by
      rw [← Option.not_isSome_iff_eq_none, ← hknown]
      exact hsome
    -- the id is new, and every other one stays
    have hself : first (ds ++ [d]) d.msgId = some d := by
      rw [first_append, hfirst, Option.none_or, first_singleton, if_pos rfl]
    have hother : ∀ msgId, msgId ≠ d.msgId → first (ds ++ [d]) msgId = first ds msgId
        ∧ Function.update T.messages d.msgId.toNat (some r.1) msgId.toNat
          = T.messages msgId.toNat := by
      intro msgId hne
      have hnat : msgId.toNat ≠ d.msgId.toNat := fun heq => hne (UInt32.toNat_inj.mp heq)
      rw [first_append, first_singleton, if_neg (Ne.symm hne), Option.or_none]
      exact ⟨rfl, Function.update_of_ne hnat ..⟩
    refine ⟨.init h.reachable hr, fun msgId hnone => ?_, fun msgId e he => ?_⟩
    · have hne : msgId ≠ d.msgId := by
        rintro rfl
        rw [hself] at hnone
        cases hnone
      obtain ⟨hkeep, hupdate⟩ := hother msgId hne
      exact hupdate.trans (h.absent msgId (hkeep ▸ hnone))
    · by_cases hid : msgId = d.msgId
      · rw [hid, hself] at he
        cases he
        exact ⟨r.1, by rw [hid]; exact Function.update_self .., T.reg, r.2, h.reachable, hr⟩
      · obtain ⟨hkeep, hupdate⟩ := hother msgId hid
        obtain ⟨mf, hmf, hbuilt⟩ := h.present msgId e (hkeep ▸ he)
        exact ⟨mf, hupdate.trans hmf, hbuilt⟩

end

/-! ## What is new -/

/-- What is new is emplaced if its new ids can be tokenized. -/
theorem useAll_iff : ∀ (new : List Descriptor) {seen : List Descriptor} {T : MessageTable},
    TableOf seen T → (∀ d ∈ new, Supported d) →
    ((∃ T', useAll emplaceMessage T (new.map Descriptor.message) = some T') ↔ Builds seen new)
  | [], seen, T, h, hnew => iff_of_true ⟨T, rfl⟩ trivial
  | d :: new, seen, T, h, hnew => by
      obtain ⟨hd, hnew⟩ := List.forall_mem_cons.mp hnew
      rw [Builds, ← emplace_iff h hd, List.map_cons, useAll]
      constructor
      · rintro ⟨T', hT'⟩
        obtain ⟨T₁, h₁, hT'⟩ := Option.bind_eq_some_iff.mp hT'
        exact ⟨⟨T₁, h₁⟩, (useAll_iff new (emplace_tableOf h h₁) hnew).mp ⟨T', hT'⟩⟩
      · rintro ⟨⟨T₁, h₁⟩, hbuilds⟩
        rw [h₁, Option.bind_some]
        exact (useAll_iff new (emplace_tableOf h h₁) hnew).mpr hbuilds

theorem useAll_tableOf : ∀ (new : List Descriptor) {seen : List Descriptor} {T T' : MessageTable},
    TableOf seen T → useAll emplaceMessage T (new.map Descriptor.message) = some T' →
    TableOf (seen ++ new) T'
  | [], seen, T, T', h, hT => by
      cases hT
      rwa [List.append_nil]
  | d :: new, seen, T, T', h, hT => by
      rw [List.map_cons, useAll] at hT
      obtain ⟨T₁, h₁, hT⟩ := Option.bind_eq_some_iff.mp hT
      have htable := useAll_tableOf new (emplace_tableOf h h₁) hT
      rwa [List.append_assoc, List.singleton_append] at htable

/-- The invariant: the parser stands behind what the table holds. -/
structure Holds (mapped : List UInt8) (seen : List Descriptor) (M : Store) : Prop where
  version : 3 ≤ M.parser.version
  p : M.parser.p = mapped.length + (bytesOf seen).length
  table : TableOf seen M.table

section

variable {size : Nat} {mapped : List UInt8} {seen new : List Descriptor} {M : Store}

theorem Holds.drop (h : Holds mapped seen M) :
    (mapped ++ bytesOf (seen ++ new)).drop M.parser.p = bytesOf new := by
  rw [h.p, bytesOf_append, ← List.length_append, ← List.append_assoc, List.drop_left]

theorem Holds.end_eq (h : Holds mapped seen M) :
    M.parser.p + (bytesOf new).length = (mapped ++ bytesOf (seen ++ new)).length := by
  rw [h.p, bytesOf_append]
  simp only [List.length_append]
  omega

/-- What is new can be read. -/
theorem Holds.shown (h : Holds mapped seen M)
    (hfits : new = [] ∨ (mapped ++ bytesOf (seen ++ new)).length ≤ mapSize size + 1) :
    Shown (readable size (mapped ++ bytesOf (seen ++ new))) M.parser.p (bytesOf new) := by
  rcases hfits with rfl | hle
  · exact List.nil_prefix
  · exact shown_take h.drop hle

/-- What can be parsed is parsed. -/
theorem parse_of_parses (h : Holds mapped seen M) (hnew : ∀ d ∈ new, Supported d)
    (hp : Parses size mapped seen new) :
    ∃ n M', parse size (mapped ++ bytesOf (seen ++ new)) n M = some M' := by
  obtain ⟨hfits, hbuilds⟩ := hp
  obtain ⟨T', hT'⟩ := (useAll_iff new h.table hnew).mpr hbuilds
  obtain ⟨index, hrounds⟩ := rounds_descriptors 1 new
    (M.parser.recheck (mapped ++ bytesOf (seen ++ new))) h.version (h.shown hfits)
    (Nat.le_of_eq h.end_eq) hT'
  refine ⟨new.length + 1, ⟨T', { M.parser.recheck (mapped ++ bytesOf (seen ++ new)) with
    index, p := M.parser.p + (bytesOf new).length }⟩, ?_⟩
  unfold parse
  rw [hrounds, rounds, if_neg]
  · rfl
  · have hend : (M.parser.recheck (mapped ++ bytesOf (seen ++ new))).p
        + (new.flatMap Descriptor.bytes).length = (mapped ++ bytesOf (seen ++ new)).length :=
      h.end_eq
    rw [hend]
    simp [more, recheck]

/-- And if the loop ends, then it has parsed what is new. -/
theorem parse_eq_some (h : Holds mapped seen M) (hnew : ∀ d ∈ new, Supported d) {n : Nat}
    {M' : Store} (hM : parse size (mapped ++ bytesOf (seen ++ new)) n M = some M') :
    Parses size mapped seen new ∧ Holds mapped (seen ++ new) M' := by
  unfold parse at hM
  split at hM
  · rename_i T ps hrounds
    cases hM
    have hfits : new = [] ∨ (mapped ++ bytesOf (seen ++ new)).length ≤ mapSize size + 1 := by
      obtain ⟨hmore, hend, -, hle⟩ := rounds_le n hrounds
      have hstop : (mapped ++ bytesOf (seen ++ new)).length ≤ ps.p := by
        unfold more at hmore
        rw [decide_eq_false_iff_not, hend] at hmore
        exact Nat.le_of_not_lt hmore
      rcases hle with hle | hle
      · -- the position has not moved, so there is nothing new
        have hcount : new.length ≤ (bytesOf new).length := length_le_bytes new
        have hp : ps.p = M.parser.p := hle
        have hend' : M.parser.p + (bytesOf new).length = (mapped ++ bytesOf (seen ++ new)).length :=
          h.end_eq
        exact .inl (List.eq_nil_of_length_eq_zero (by omega))
      · have hread : (readable size (mapped ++ bytesOf (seen ++ new))).length ≤ mapSize size :=
          List.length_take_le _ _
        exact .inr (by omega)
    obtain ⟨huse, hp, hversion⟩ := ended_descriptors new
      (M.parser.recheck (mapped ++ bytesOf (seen ++ new))) h.version (h.shown hfits) h.end_eq
      hrounds
    refine ⟨⟨hfits, (useAll_iff new h.table hnew).mp ⟨T, huse⟩⟩,
      ⟨?_, ?_, useAll_tableOf new h.table huse⟩⟩
    · rw [hversion]
      exact h.version
    · rw [hp]
      exact List.length_append
  · cases hM

/-! ## One look-up -/

/-- What is found is right if the text is not empty. -/
theorem right_iff {ds : List Descriptor} {msgId : UInt32}
    (habsent : first ds msgId = none → M.table.messages msgId.toNat = none)
    (hpresent : ∀ d, first ds msgId = some d →
      ∃ mf, M.table.messages msgId.toNat = some mf ∧ BuiltFrom d mf) :
    Right ds msgId (found M msgId) ↔ ∀ d, first ds msgId = some d → d.text ≠ [] := by
  unfold Right found
  cases hfirst : first ds msgId with
  | none =>
    rw [habsent hfirst]
    exact iff_of_true rfl nofun
  | some d =>
    obtain ⟨mf, hmf, hbuilt⟩ := hpresent d hfirst
    rw [hmf, Option.bind_some, hbuilt.msg]
    dsimp only
    constructor
    · rintro ⟨mf', hmf', -⟩ e he hempty
      cases he
      rw [hempty] at hmf'
      cases hmf'
    · intro h
      have hne : ¬ d.text.isEmpty = true := by
        rw [List.isEmpty_iff]
        exact h d rfl
      exact ⟨mf, if_neg hne, hbuilt⟩

variable (size new) in
theorem get_known (h : Holds mapped seen M) {msgId : UInt32}
    (hknown : (first seen msgId).isSome = true) (file : List UInt8) (n : Nat) :
    get size file n M msgId = some (found M msgId, M)
      ∧ (Right (seen ++ new) msgId (found M msgId)
        ↔ ∀ d, first (seen ++ new) msgId = some d → d.text ≠ []) := by
  obtain ⟨e, he⟩ := Option.isSome_iff_exists.mp hknown
  have hfirst : first (seen ++ new) msgId = first seen msgId := by
    rw [first_append, he, Option.some_or]
  rw [get, if_pos ((h.table.isSome_iff msgId).trans hknown)]
  refine ⟨rfl, right_iff ?_ ?_⟩
  · rw [hfirst]
    exact h.table.absent msgId
  · rw [hfirst]
    exact h.table.present msgId

theorem get_unknown (h : Holds mapped seen M) {msgId : UInt32}
    (hunknown : ¬ (first seen msgId).isSome = true) (file : List UInt8) (n : Nat) :
    get size file n M msgId
      = (parse size file n M).map fun M' => (found M' msgId, M') := by
  rw [get, if_neg]
  rwa [h.table.isSome_iff]

end

/-! ## Runs -/

theorem finds_iff_from {size : Nat} {mapped : List UInt8} : ∀ (ops : List Op)
    {seen new : List Descriptor} {M : Store}, Holds mapped seen M → (∀ d ∈ new, Supported d) →
    (∀ d, .append d ∈ ops → Supported d) →
    (Finds size mapped (seen ++ new) M ops ↔ Meets size mapped seen new ops)
  | [], seen, new, M, h, hnew, hops => Iff.rfl
  | .append d :: ops, seen, new, M, h, hnew, hops => by
      have hnew' : ∀ e ∈ new ++ [d], Supported e := by
        intro e he
        rcases List.mem_append.mp he with he | he
        · exact hnew e he
        · rw [List.mem_singleton.mp he]
          exact hops d List.mem_cons_self
      rw [Finds, Meets, List.append_assoc]
      exact finds_iff_from ops h hnew' fun e he => hops e (List.mem_cons_of_mem _ he)
  | .parse :: ops, seen, new, M, h, hnew, hops => by
      have hops' := fun e he => hops e (List.mem_cons_of_mem _ he)
      rw [Finds, Meets]
      constructor
      · rintro ⟨n, M', hM, hfinds⟩
        obtain ⟨hparses, h'⟩ := parse_eq_some h hnew hM
        rw [← List.append_nil (seen ++ new)] at hfinds
        exact ⟨hparses, (finds_iff_from ops h' (by simp) hops').mp hfinds⟩
      · rintro ⟨hparses, hmeets⟩
        obtain ⟨n, M', hM⟩ := parse_of_parses h hnew hparses
        obtain ⟨-, h'⟩ := parse_eq_some h hnew hM
        have hfinds := (finds_iff_from ops h' (by simp) hops').mpr hmeets
        rw [List.append_nil] at hfinds
        exact ⟨n, M', hM, hfinds⟩
  | .get msgId :: ops, seen, new, M, h, hnew, hops => by
      have hops' := fun e he => hops e (List.mem_cons_of_mem _ he)
      rw [Finds, Meets]
      by_cases hknown : (first seen msgId).isSome = true
      · have hget := get_known size new h hknown (mapped ++ bytesOf (seen ++ new))
        rw [if_pos hknown]
        constructor
        · rintro ⟨n, r, M', hM, hright, hfinds⟩
          rw [(hget n).1] at hM
          cases hM
          exact ⟨(hget n).2.mp hright, (finds_iff_from ops h hnew hops').mp hfinds⟩
        · rintro ⟨htext, hmeets⟩
          exact ⟨0, _, M, (hget 0).1, (hget 0).2.mpr htext,
            (finds_iff_from ops h hnew hops').mpr hmeets⟩
      · rw [if_neg hknown]
        constructor
        · rintro ⟨n, r, M', hM, hright, hfinds⟩
          rw [get_unknown h hknown] at hM
          obtain ⟨M₁, hM₁, heq⟩ := Option.map_eq_some_iff.mp hM
          cases heq
          obtain ⟨hparses, h'⟩ := parse_eq_some h hnew hM₁
          rw [← List.append_nil (seen ++ new)] at hfinds
          exact ⟨(right_iff (h'.table.absent msgId) (h'.table.present msgId)).mp hright, hparses,
            (finds_iff_from ops h' (by simp) hops').mp hfinds⟩
        · rintro ⟨htext, hparses, hmeets⟩
          obtain ⟨n, M', hM⟩ := parse_of_parses h hnew hparses
          obtain ⟨-, h'⟩ := parse_eq_some h hnew hM
          have hfinds := (finds_iff_from ops h' (by simp) hops').mpr hmeets
          rw [List.append_nil] at hfinds
          refine ⟨n, _, M', ?_, (right_iff (h'.table.absent msgId) (h'.table.present msgId)).mpr htext,
            hfinds⟩
          rw [get_unknown h hknown, hM]
          rfl

/-- `Messages::initialize`. -/
def Store.initialized (reg : Registry) (mappedSize : Nat) (file : List UInt8) : Store :=
  ⟨⟨reg, fun _ => none⟩, .initialized (.ofSize mappedSize) file⟩

theorem holds_initialized {mappedSize : Nat} {mapped : List UInt8}
    (hm : mapped.length = mappedSize + FileTrailerSize) {reg : Registry} (hreg : reg.Reachable)
    (file : List UInt8) : Holds mapped [] (.initialized reg mappedSize file) where
  version := show 3 ≤ (5 : UInt32) by decide
  p := hm.symm
  table := ⟨hreg, fun _ _ => rfl, nofun⟩

/-- For every trace file whose dictionary has the descriptors `ds` when it is
mapped, and every run: the look-ups return and are right exactly if no id that
is looked up has an empty text and all that `parse` comes to can be parsed. -/
theorem finds_iff {mappedSize : Nat} {mapped : List UInt8}
    (hm : mapped.length = mappedSize + FileTrailerSize) {reg : Registry} (hreg : reg.Reachable)
    {ds : List Descriptor} (hds : ∀ d ∈ ds, Supported d) {ops : List Op}
    (hops : ∀ d, .append d ∈ ops → Supported d) :
    Finds (mapped ++ bytesOf ds).length mapped ds
        (.initialized reg mappedSize (mapped ++ bytesOf ds)) ops
      ↔ Meets (mapped ++ bytesOf ds).length mapped [] ds ops :=
  finds_iff_from ops (holds_initialized hm hreg _) hds hops

theorem supported_negative : Supported negativeDescriptor := ⟨[.base .string], by decide +kernel⟩

/-- A look-up before a descriptor is there, and one after that. -/
theorem finds_iff_negative :
    Finds (List.replicate 1024 0 ++ bytesOf []).length (List.replicate 1024 0) []
        (.initialized Registry.initial 0 (List.replicate 1024 0 ++ bytesOf []))
        [.get 0x40000001, .append negativeDescriptor, .get 0x40000001]
      ↔ Meets (List.replicate 1024 0 ++ bytesOf []).length (List.replicate 1024 0) [] []
        [.get 0x40000001, .append negativeDescriptor, .get 0x40000001] :=
  finds_iff (by rw [List.length_replicate]; rfl) .initial (by simp) fun d hd => by
    simp only [List.mem_cons, List.not_mem_nil, or_false, false_or, reduceCtorEq,
      Op.append.injEq] at hd
    rw [hd]
    exact supported_negative

/-- A descriptor without text. -/
def emptyDescriptor : Descriptor where
  tsc := 3
  filename := ascii ['e', '.', 'c']
  lineno := 4
  msgId := 1
  insertions := []
  key := ascii ['q']
  bytes := (MsgDesc.write 3 (ascii ['e', '.', 'c']) 4 1 (ascii ['q']) []).getD []
  filename_ne := by decide
  filename_graph := forall_mem_text (by decide)
  key_ne := forall_mem_text (by decide)
  written := by decide +kernel

/-- It is in the file, and the look-up returns the null pointer. -/
theorem empty_not_found : ¬ Finds (List.replicate 1024 0 ++ bytesOf []).length
    (List.replicate 1024 0) []
    (.initialized Registry.initial 0 (List.replicate 1024 0 ++ bytesOf []))
    [.append emptyDescriptor, .get 1] := by
  intro h
  have hops : ∀ d, .append d ∈ [Op.append emptyDescriptor, .get 1] → Supported d := by
    intro d hd
    simp only [List.mem_cons, List.not_mem_nil, or_false, reduceCtorEq, Op.append.injEq] at hd
    rw [hd]
    exact ⟨[.base .u64], by decide +kernel⟩
  have hmeets : Meets (List.replicate 1024 0 ++ bytesOf []).length (List.replicate 1024 0) [] []
      [.append emptyDescriptor, .get 1] :=
    (finds_iff_from _ (holds_initialized (by rw [List.length_replicate]; rfl) .initial _)
      (by simp) hops).mp h
  exact hmeets.1 emptyDescriptor rfl rfl

end Lookup

end QuickTrace
