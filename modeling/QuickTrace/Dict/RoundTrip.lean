/-
QuickTrace.Dict.RoundTrip — the descriptors that are read are those that were
written.

Each reader undoes the corresponding part of `Descriptor.bytes`
(`readU64_decimal` to `readPString_pstringL`), so one round of the loop reads
one descriptor (`parse_bytes`) and the loop reads a portion
(`parseLoop_portion`). `follow_portions` is the induction over the portions
of a growing file.
-/
import QuickTrace.Dict.MessageParser

namespace QuickTrace

open QuickTrace.Lib

/-! ## The readers -/

/-- A blank ends a number. -/
theorem numberStop_space (t : Text) : NumberStop (32 :: t) := by
  constructor
  all_goals
    intro c hc
    cases hc
    decide

/-- The signed reading of a word, modulo the word size. -/
theorem toInt64_emod (x : UInt64) : (x.toInt64.toInt % 2 ^ 64).toNat = x.toNat := by
  have h1 : x.toInt64.toInt = x.toBitVec.toInt := rfl
  have h2 : x.toNat = x.toBitVec.toNat := rfl
  have hlt := x.toNat_lt
  rw [h1, BitVec.toInt_eq_toNat_cond, ← h2]
  split <;> omega

theorem toInt32_emod (x : Int32) : (x.toInt % 2 ^ 64).toNat % 2 ^ 32 = x.toUInt32.toNat := by
  have h1 : x.toInt = x.toUInt32.toBitVec.toInt := rfl
  have h2 : x.toUInt32.toNat = x.toUInt32.toBitVec.toNat := rfl
  have hlt := x.toUInt32.toNat_lt
  rw [h1, BitVec.toInt_eq_toNat_cond, ← h2]
  split <;> omega

theorem readU64_decimal (x : UInt64) (t : Text) :
    readU64 (decimal x.toInt64.toInt ++ 32 :: t) = (x, 32 :: t) := by
  unfold readU64
  simp only [strtoul_decimal (numberStop_space t) x.toInt64.le_toInt x.toInt64.toInt_lt,
    toInt64_emod, UInt64.ofNat_toNat]

theorem readU32_decimal (x : Int32) (t : Text) :
    readU32 (decimal x.toInt ++ 32 :: t) = (x.toUInt32, 32 :: t) := by
  have h1 : -(2 ^ 63) ≤ x.toInt := by have := x.le_toInt; omega
  have h2 : x.toInt < 2 ^ 63 := by have := x.toInt_lt; omega
  have h3 : UInt32.ofNat (x.toInt % 2 ^ 64).toNat = x.toUInt32 := by
    rw [← UInt32.toNat_inj, UInt32.toNat_ofNat', toInt32_emod]
  unfold readU32
  simp only [strtoul_decimal (numberStop_space t) h1 h2, h3]

/-- A number starts with no white space. -/
theorem decimal_head (z : Int) (t : Text) :
    ∃ c cs, decimal z ++ t = c :: cs ∧ isspace c = false ∧ c ≠ 0 := by
  have hzero : ∀ d < 10, digitChar d ≠ 0 := by decide
  obtain ⟨d, ds, hd, h⟩ := numeral_cons z.natAbs
  unfold decimal
  split
  · exact ⟨45, numeral 10 z.natAbs ++ t, rfl, by decide, by decide⟩
  · exact ⟨digitChar d, ds ++ t, by rw [h, List.cons_append], isspace_digitChar d hd, hzero d hd⟩

theorem skipWhiteSpace_decimal (z : Int) (t : Text) :
    skipWhiteSpace (32 :: (decimal z ++ t)) = decimal z ++ t := by
  obtain ⟨c, cs, h, hc, -⟩ := decimal_head z t
  have hs : isspace 32 = true := rfl
  rw [skipWhiteSpace, List.dropWhile_cons_of_pos hs, h,
    List.dropWhile_cons_of_neg (by simp [hc])]

theorem skipWhiteSpace_filename {x : Text} (hne : x ≠ []) (hx : ∀ c ∈ x, isspace c = false)
    (t : Text) : skipWhiteSpace (32 :: (x ++ t)) = x ++ t := by
  obtain ⟨c, cs, rfl⟩ := List.exists_cons_of_ne_nil hne
  have hs : isspace 32 = true := rfl
  have hc := hx c (by simp)
  rw [skipWhiteSpace, List.dropWhile_cons_of_pos hs, List.cons_append,
    List.dropWhile_cons_of_neg (by simp [hc])]

theorem readStringUntilWhitespace_append {x : Text} (hx : ∀ c ∈ x, isspace c = false)
    (t : Text) : readStringUntilWhitespace (x ++ 32 :: t) = (x, 32 :: t) := by
  have hall : ∀ c ∈ x, (!isspace c) = true := fun c hc => by rw [hx c hc]; rfl
  have hs : ¬ (!isspace 32) = true := by decide
  rw [readStringUntilWhitespace, List.takeWhile_append_of_pos hall,
    List.dropWhile_append_of_pos hall,
    List.takeWhile_cons_of_neg (p := fun c => !isspace c) hs,
    List.dropWhile_cons_of_neg (p := fun c => !isspace c) hs, List.append_nil]

theorem wordOf_leBytes : ∀ (k v : Nat), wordOf (leBytes k v) = v % 256 ^ k
  | 0, v => by simp [leBytes, wordOf, Nat.mod_one]
  | k + 1, v => by
      rw [leBytes, wordOf, wordOf_leBytes k, Nat.pow_succ, Nat.mul_comm (256 ^ k) 256,
        Nat.mod_mul, UInt8.toNat_ofNat']

/-- A string that fits a descriptor is read back, whatever its bytes. -/
theorem readPString_pstringL {x : Text} (hx : x.length < MsgDesc.bufSize) (t : Text) :
    readPString (pstringL x ++ t) = (x, t) := by
  have hlen : wordOf (leBytes 4 (x.length + 1)) = x.length + 1 := by
    rw [wordOf_leBytes]
    refine Nat.mod_eq_of_lt ?_
    unfold MsgDesc.bufSize at hx
    omega
  have htake : (pstringL x ++ t).take 4 = leBytes 4 (x.length + 1) := by
    rw [pstringL, List.append_assoc, List.append_assoc]
    exact List.take_left' (leBytes_length 4 _)
  have hdrop : (pstringL x ++ t).drop 4 = x ++ 0 :: t := by
    rw [pstringL, List.append_assoc, List.append_assoc, List.drop_left' (leBytes_length 4 _)]
    rfl
  have hsub : (x.length + 1 + 2 ^ 32 - 1) % 2 ^ 32 = x.length := by
    unfold MsgDesc.bufSize at hx
    omega
  unfold readPString
  simp only [htake, hlen, hdrop, hsub, List.take_left]
  rw [List.drop_append, List.drop_of_length_le (Nat.le_succ _), Nat.add_sub_cancel_left]
  rfl

/-! ## One descriptor -/

namespace Descriptor

/-- What a reader has to find. -/
def message (d : Descriptor) : Message where
  tsc := d.tsc
  msgId := d.msgId
  lineno := d.lineno.toUInt32
  filename := d.filename
  msg := d.text
  fmt := d.key

theorem bytes_head (d : Descriptor) : ∃ c cs, d.bytes = c :: cs ∧ c ≠ 0 := by
  obtain ⟨c, cs, h, -, hc⟩ := decimal_head d.tsc.toInt64.toInt (32 :: (d.filename ++ 32 ::
    (decimal d.lineno.toInt ++ 32 :: (decimal d.msgId.toInt32.toInt ++ 32 ::
      (pstringL d.text ++ pstringL d.key)))))
  exact ⟨c, cs, d.bytes_eq.trans h, hc⟩

end Descriptor

/-- What has to be found of one portion: its descriptors, with the position
at the end of the file. -/
def Round.Reads (ds : List Descriptor) (r : Round) : Prop :=
  r.messages = ds.map Descriptor.message ∧ r.p = r.fileSize

namespace MessageParser

theorem readMessage_bytes {version : UInt32} (hv : 3 ≤ version) (index : UInt32)
    (d : Descriptor) (t : Text) : readMessage version index (d.bytes ++ t) = (d.message, t) := by
  have hgraph : ∀ c ∈ d.filename, isspace c = false := fun c hc => (d.filename_graph c hc).1
  rw [d.bytes_eq]
  simp only [List.append_assoc, List.cons_append]
  unfold readMessage
  simp only [readU64_decimal, skipWhiteSpace_filename d.filename_ne hgraph,
    readStringUntilWhitespace_append hgraph, skipWhiteSpace_decimal, readU32_decimal, if_pos hv,
    List.drop_succ_cons, List.drop_zero, readPString_pstringL d.text_length,
    readPString_pstringL d.key_length, UInt32.toUInt32_toInt32]
  rfl

/-- One round: the position goes from the start of a descriptor to its
end. -/
theorem parse_bytes {ps : MessageParser} (hv : 3 ≤ ps.version) {before : List UInt8}
    (after : List UInt8) (d : Descriptor) (hp : ps.p = before.length)
    (hend : ps.end_ = (before ++ (d.bytes ++ after)).length) :
    ps.more = true ∧ ps.parse (before ++ (d.bytes ++ after))
      = (d.message, { ps with index := ps.index + 1, p := (before ++ d.bytes).length }) := by
  obtain ⟨c, cs, hbytes, hc⟩ := d.bytes_head
  have hmore : ps.more = true := by
    unfold more
    rw [hp, hend, hbytes]
    simp
  have hhead : (before ++ (d.bytes ++ after))[ps.p]? ≠ some 0 := by
    rw [hp, List.getElem?_append_right (Nat.le_refl _), Nat.sub_self, hbytes, List.cons_append,
      List.getElem?_cons_zero]
    simpa using hc
  have hdrop : (before ++ (d.bytes ++ after)).drop ps.p = d.bytes ++ after := by
    rw [hp, List.drop_left]
  have hpos : (before ++ (d.bytes ++ after)).length - after.length
      = (before ++ d.bytes).length := by
    simp only [List.length_append]
    omega
  refine ⟨hmore, ?_⟩
  unfold parse
  rw [if_pos ⟨hmore, hhead⟩]
  simp only [hdrop, readMessage_bytes hv, hpos]

/-! ## The loop -/

/-- The loop reads the descriptors that stand between the position and the
end of the file, and stops there. -/
theorem parseLoop_portion : ∀ (ds : List Descriptor) (ps : MessageParser)
    (before : List UInt8) (fuel : Nat), 3 ≤ ps.version → ds.length ≤ fuel →
    ps.p = before.length → ps.end_ = (before ++ ds.flatMap Descriptor.bytes).length →
    ∃ index, parseLoop (before ++ ds.flatMap Descriptor.bytes) fuel ps
      = some (ds.map Descriptor.message, { ps with index, p := ps.end_ })
  | [], ps, before, fuel, _, _, hp, hend => by
      rw [List.flatMap_nil, List.append_nil] at hend ⊢
      obtain ⟨index, version, p, q⟩ := ps
      have hpq : p = q := hp.trans hend.symm
      subst hpq
      have hmore : (MessageParser.mk index version p p).more = false := by simp [more]
      refine ⟨index, ?_⟩
      cases fuel with
      | zero => rw [parseLoop, hmore, if_neg Bool.false_ne_true]; rfl
      | succ fuel => rw [parseLoop, hmore, if_neg Bool.false_ne_true]; rfl
  | d :: ds, ps, before, fuel, hv, hfuel, hp, hend => by
      rw [List.flatMap_cons] at hend ⊢
      obtain ⟨hmore, hparse⟩ := parse_bytes hv (ds.flatMap Descriptor.bytes) d hp hend
      cases fuel with
      | zero => rw [List.length_cons] at hfuel; omega
      | succ fuel =>
        rw [List.length_cons] at hfuel
        obtain ⟨index, ih⟩ := parseLoop_portion ds
          { ps with index := ps.index + 1, p := (before ++ d.bytes).length }
          (before ++ d.bytes) fuel hv (by omega) rfl (by rw [List.append_assoc]; exact hend)
        rw [List.append_assoc] at ih
        refine ⟨index, ?_⟩
        rw [parseLoop, if_pos hmore, hparse]
        simp only [ih]
        rfl

/-- There are no more descriptors than bytes. -/
theorem length_le_bytes (ds : List Descriptor) :
    ds.length ≤ (ds.flatMap Descriptor.bytes).length := by
  induction ds with
  | nil => exact Nat.le_refl _
  | cons d ds ih =>
    obtain ⟨c, cs, h, -⟩ := d.bytes_head
    rw [List.flatMap_cons, List.length_append, List.length_cons, h, List.length_cons]
    omega

/-! ## The growing file -/

theorem follow_portions : ∀ (portions : List (List Descriptor)) (ps : MessageParser)
    (file : List UInt8), 3 ≤ ps.version → ps.p = file.length →
    ∃ rounds, ps.follow file (portions.map (List.flatMap Descriptor.bytes)) = some rounds
      ∧ List.Forall₂ Round.Reads portions rounds
  | [], _, _, _, _ => ⟨[], rfl, .nil⟩
  | ds :: portions, ps, file, hv, hp => by
      have hfuel : ds.length ≤ (file ++ ds.flatMap Descriptor.bytes).length := by
        have := length_le_bytes ds
        rw [List.length_append]
        omega
      obtain ⟨index, hloop⟩ := parseLoop_portion ds
        (ps.recheck (file ++ ds.flatMap Descriptor.bytes)) file _ hv hfuel hp rfl
      obtain ⟨rounds, hrounds, hreads⟩ := follow_portions portions
        { ps.recheck (file ++ ds.flatMap Descriptor.bytes) with
          index, p := (ps.recheck (file ++ ds.flatMap Descriptor.bytes)).end_ }
        (file ++ ds.flatMap Descriptor.bytes) hv rfl
      refine ⟨⟨ds.map Descriptor.message, (file ++ ds.flatMap Descriptor.bytes).length,
        (file ++ ds.flatMap Descriptor.bytes).length⟩ :: rounds, ?_, .cons ⟨rfl, rfl⟩ hreads⟩
      rw [List.map_cons, follow, parseNew, hloop, Option.bind_some, hrounds]
      rfl

/-- The dictionary round trip: however the descriptors are split into
portions that are appended between two looks at the file, each look finds
exactly the new ones and ends at the end of the file. -/
theorem dictionary_round_trip {mappedSize : Nat} {mapped : List UInt8}
    (hm : mapped.length = mappedSize + FileTrailerSize) (portions : List (List Descriptor)) :
    ∃ rounds, (initialized (.ofSize mappedSize) mapped).follow mapped
        (portions.map (List.flatMap Descriptor.bytes)) = some rounds
      ∧ List.Forall₂ Round.Reads portions rounds :=
  follow_portions portions _ _ (show 3 ≤ (5 : UInt32) by decide) hm.symm

/-- A descriptor whose time and line print with a minus sign. -/
def negativeDescriptor : Descriptor where
  tsc := 0xffffffffffffffff
  filename := ascii ['a', '.', 'c']
  lineno := -5
  msgId := 0x40000001
  insertions := [.view (ascii ['x', ' ']), .varg]
  key := ascii ['p']
  bytes := (MsgDesc.write 0xffffffffffffffff (ascii ['a', '.', 'c']) (-5) 0x40000001 (ascii ['p'])
    [.view (ascii ['x', ' ']), .varg]).getD []
  filename_ne := by decide
  filename_graph := forall_mem_text (by decide)
  key_ne := forall_mem_text (by decide)
  written := by decide +kernel

/-- A descriptor with a small id. -/
def smallDescriptor : Descriptor where
  tsc := 7
  filename := ascii ['b', '.', 'c']
  lineno := 3
  msgId := 2
  insertions := [.view (ascii ['y'])]
  key := []
  bytes := (MsgDesc.write 7 (ascii ['b', '.', 'c']) 3 2 [] [.view (ascii ['y'])]).getD []
  filename_ne := by decide
  filename_graph := forall_mem_text (by decide)
  key_ne := by simp
  written := by decide +kernel

/-- Two portions behind a file without levels. -/
theorem dictionary_round_trip_two :
    ∃ rounds, (initialized (.ofSize 0) (List.replicate 1024 0)).follow (List.replicate 1024 0)
        ([[negativeDescriptor], [negativeDescriptor, negativeDescriptor]].map
          (List.flatMap Descriptor.bytes)) = some rounds
      ∧ List.Forall₂ Round.Reads
          [[negativeDescriptor], [negativeDescriptor, negativeDescriptor]] rounds :=
  dictionary_round_trip (by rw [List.length_replicate]; rfl) _

end MessageParser

end QuickTrace
