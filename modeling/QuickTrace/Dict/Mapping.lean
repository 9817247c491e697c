/-
QuickTrace.Dict.Mapping — reading descriptors while the file grows.

`Tail::initialize` maps the file as it is at that moment and 128 KiB behind
it. `recheck` moves the end of the parser with the size of the file and leaves
the mapping as it is, and no reader of the parser looks at the end. `Reads`
says what a reader that stays inside both finds at each of its looks;
`reads_iff` says for which growth it does.
-/
import QuickTrace.Dict.MappedParser

namespace QuickTrace

open QuickTrace.Lib

namespace Mapping

/-! ## A growing file -/

/-- How much `Tail::initialize` maps of a file of this size. -/
def mapSize (size : Nat) : Nat := size + 128 * 1024

/-- The bytes that are in the mapping and in the file. -/
def readable (size : Nat) (file : List UInt8) : List UInt8 := file.take (mapSize size)

/-- The bytes of descriptors, one behind the other. -/
def bytesOf (ds : List Descriptor) : List UInt8 := ds.flatMap Descriptor.bytes

/-- The file when the first `k` bytes of the dictionary are there. -/
def fileAt (mapped : List UInt8) (ds : List Descriptor) (k : Nat) : List UInt8 :=
  mapped ++ (bytesOf ds).take k

/-- How many descriptors are complete then. -/
def complete : List Descriptor → Nat → Nat
  | [], _ => 0
  | d :: ds, k => if d.bytes.length ≤ k then complete ds (k - d.bytes.length) + 1 else 0

/-- `parse` in a loop, keeping the messages. -/
def keep (msgs : List Message) (msg : Message) : Option (List Message) := some (msgs ++ [msg])

/-- A reader of a mapping of a file that had `size` bytes. At each of its
looks, when `k` bytes of the dictionary are there, `recheck` and the loop end
without having read outside the mapping or behind the end of the file, they
return the descriptors that have been completed since the last look, when
there were `j`, and stop at the end of the last one. -/
def Reads (size : Nat) (mapped : List UInt8) (ds : List Descriptor) :
    MessageParser → Nat → List Nat → Prop
  | _, _, [] => True
  | ps, j, k :: ks => ∃ n ps',
    MessageParser.rounds (readable size (fileAt mapped ds k)) keep n []
        (ps.recheck (fileAt mapped ds k))
      = .ended (((ds.take (complete ds k)).drop j).map Descriptor.message) ps'
    ∧ ps'.p = mapped.length + (bytesOf (ds.take (complete ds k))).length
    ∧ Reads size mapped ds ps' (complete ds k) ks

/-- At a look the file ends with a complete descriptor, and if one is new, all
of the file but its last byte is in the mapping. -/
def Fits (size : Nat) (mapped : List UInt8) (ds : List Descriptor) (j k : Nat) : Prop :=
  fileAt mapped ds k = mapped ++ bytesOf (ds.take (complete ds k))
    ∧ (complete ds k = j ∨ (fileAt mapped ds k).length ≤ mapSize size + 1)

/-- Every look finds the file so. -/
def AllFit (size : Nat) (mapped : List UInt8) (ds : List Descriptor) : Nat → List Nat → Prop
  | _, [] => True
  | j, k :: ks => Fits size mapped ds j k ∧ AllFit size mapped ds (complete ds k) ks

/-! ## Complete descriptors -/

theorem bytesOf_append (ds es : List Descriptor) :
    bytesOf (ds ++ es) = bytesOf ds ++ bytesOf es := List.flatMap_append

theorem bytesOf_cons (d : Descriptor) (ds : List Descriptor) :
    bytesOf (d :: ds) = d.bytes ++ bytesOf ds := List.flatMap_cons

/-- The complete descriptors are the start of what is there. -/
theorem bytesOf_complete : ∀ (ds : List Descriptor) (k : Nat),
    bytesOf (ds.take (complete ds k)) <+: (bytesOf ds).take k
  | [], k => List.nil_prefix
  | d :: ds, k => by
      rw [complete]
      split
      · rename_i h
        rw [List.take_succ_cons, bytesOf_cons, bytesOf_cons, List.take_append,
          List.take_of_length_le h]
        exact (List.prefix_append_right_inj _).mpr (bytesOf_complete ds _)
      · exact List.nil_prefix

theorem complete_mono : ∀ (ds : List Descriptor) {j k : Nat}, j ≤ k →
    complete ds j ≤ complete ds k
  | [], j, k, h => Nat.le_refl _
  | d :: ds, j, k, h => by
      rw [complete, complete]
      split
      · rename_i hj
        rw [if_pos (Nat.le_trans hj h)]
        exact Nat.succ_le_succ (complete_mono ds (Nat.sub_le_sub_right h _))
      · exact Nat.zero_le _

theorem complete_le : ∀ (ds : List Descriptor) (k : Nat), complete ds k ≤ ds.length
  | [], k => Nat.le_refl _
  | d :: ds, k => by
      rw [complete, List.length_cons]
      split
      · exact Nat.succ_le_succ (complete_le ds _)
      · exact Nat.zero_le _

theorem complete_zero (ds : List Descriptor) : complete ds 0 = 0 := by
  cases ds with
  | nil => rfl
  | cons d ds =>
    obtain ⟨c, cs, h, -⟩ := d.bytes_head
    rw [complete, h, if_neg (by simp)]

theorem complete_all : ∀ ds : List Descriptor, complete ds (bytesOf ds).length = ds.length
  | [] => rfl
  | d :: ds => by
      rw [complete, bytesOf_cons, List.length_append, if_pos (Nat.le_add_right _ _),
        Nat.add_sub_cancel_left, complete_all ds, List.length_cons]

/-- The descriptors that are complete at a look are the earlier ones and the
new ones. -/
theorem take_split (ds : List Descriptor) {j c : Nat} (h : j ≤ c) :
    bytesOf (ds.take c) = bytesOf (ds.take j) ++ bytesOf ((ds.take c).drop j) := by
  have htake : (ds.take c).take j = ds.take j := by rw [List.take_take, Nat.min_eq_left h]
  rw [← bytesOf_append, ← htake, List.take_append_drop]

/-! ## One look -/

theorem useAll_keep : ∀ (msgs found : List Message),
    MessageParser.useAll keep found msgs = some (found ++ msgs)
  | [], found => by rw [List.append_nil]; rfl
  | msg :: msgs, found => by
      rw [MessageParser.useAll, keep, Option.bind_some, useAll_keep msgs, List.append_assoc,
        List.singleton_append]

/-- All of a file but its last byte can be read if it is no more than one byte
longer than the mapping. -/
theorem shown_take {file bs : List UInt8} {m p : Nat} (h : file.drop p = bs)
    (hm : file.length ≤ m + 1) : Shown (file.take m) p bs := by
  unfold Shown
  rw [List.drop_take, h, List.dropLast_eq_take]
  refine List.take_prefix_take_left ?_
  rw [← h, List.length_drop]
  omega

section

variable {size : Nat} {mapped : List UInt8} {ds : List Descriptor} {ps : MessageParser} {j k : Nat}

/-- What a look needs is enough. -/
theorem look_reads (hv : 3 ≤ ps.version) (hp : ps.p = mapped.length + (bytesOf (ds.take j)).length)
    (hj : j ≤ complete ds k) (h : Fits size mapped ds j k) :
    ∃ n ps', MessageParser.rounds (readable size (fileAt mapped ds k)) keep n []
        (ps.recheck (fileAt mapped ds k))
      = .ended (((ds.take (complete ds k)).drop j).map Descriptor.message) ps'
    ∧ ps'.p = mapped.length + (bytesOf (ds.take (complete ds k))).length
    ∧ ps'.version = ps.version := by
  obtain ⟨hfile, hlen⟩ := h
  have hsplit := take_split ds hj
  have hdrop : (fileAt mapped ds k).drop ps.p = bytesOf ((ds.take (complete ds k)).drop j) := by
    rw [hfile, hsplit, hp, ← List.length_append, ← List.append_assoc, List.drop_left]
  have hend : ps.p + (bytesOf ((ds.take (complete ds k)).drop j)).length
      = (fileAt mapped ds k).length := by
    rw [hfile, hsplit, hp, List.length_append, List.length_append, Nat.add_assoc]
  have hshown : Shown (readable size (fileAt mapped ds k)) ps.p
      (bytesOf ((ds.take (complete ds k)).drop j)) := by
    rcases hlen with hlen | hlen
    · rw [hlen, List.drop_of_length_le (List.length_take_le _ _)]
      exact List.nil_prefix
    · exact shown_take hdrop hlen
  obtain ⟨index, hrounds⟩ := MessageParser.rounds_ended
    ((ds.take (complete ds k)).drop j) (ps.recheck (fileAt mapped ds k)) hv hshown hend
    (useAll_keep _ [])
  exact ⟨_, { ps.recheck (fileAt mapped ds k) with index, p := (fileAt mapped ds k).length },
    hrounds, by rw [hfile, List.length_append], rfl⟩

/-- A look that finds what it should has had what it needs. -/
theorem look_fits (hp : ps.p = mapped.length + (bytesOf (ds.take j)).length)
    (hj : j ≤ complete ds k) {n : Nat} {msgs : List Message} {ps' : MessageParser}
    (h : MessageParser.rounds (readable size (fileAt mapped ds k)) keep n []
      (ps.recheck (fileAt mapped ds k)) = .ended msgs ps')
    (hp' : ps'.p = mapped.length + (bytesOf (ds.take (complete ds k))).length) :
    Fits size mapped ds j k ∧ ps'.version = ps.version := by
  obtain ⟨hmore, hend, hversion, hle⟩ := MessageParser.rounds_le n h
  have hfile : fileAt mapped ds k = mapped ++ bytesOf (ds.take (complete ds k)) := by
    -- the loop does not stop before the end of the file
    have hstop : (fileAt mapped ds k).length ≤ ps'.p := by
      unfold MessageParser.more at hmore
      rw [decide_eq_false_iff_not, hend] at hmore
      exact Nat.le_of_not_lt hmore
    obtain ⟨rest, hrest⟩ := bytesOf_complete ds k
    have hnil : rest = [] := by
      unfold fileAt at hstop
      rw [← hrest, hp', List.length_append, List.length_append] at hstop
      exact List.eq_nil_of_length_eq_zero (by omega)
    rw [fileAt, ← hrest, hnil, List.append_nil]
  refine ⟨⟨hfile, ?_⟩, hversion⟩
  by_cases hc : complete ds k = j
  · exact .inl hc
  · refine .inr ?_
    have hsplit := congrArg List.length (take_split ds hj)
    rw [List.length_append] at hsplit
    have hread : (readable size (fileAt mapped ds k)).length ≤ mapSize size :=
      List.length_take_le _ _
    rcases hle with hle | hle
    · -- the position has moved, for there is a new descriptor
      exfalso
      have hbytes : ((ds.take (complete ds k)).drop j).length
          ≤ (bytesOf ((ds.take (complete ds k)).drop j)).length :=
        MessageParser.length_le_bytes _
      have hcount := complete_le ds k
      have hp'' : ps'.p = ps.p := hle
      rw [List.length_drop, List.length_take, Nat.min_eq_left hcount] at hbytes
      omega
    · rw [hfile, List.length_append, ← hp']
      omega

end

/-! ## Runs -/

theorem reads_iff_from {mapped : List UInt8} {ds : List Descriptor} :
    ∀ (ks : List Nat) (size : Nat) {k₀ : Nat} {ps : MessageParser}, (k₀ :: ks).Pairwise (· ≤ ·) →
      3 ≤ ps.version → ps.p = mapped.length + (bytesOf (ds.take (complete ds k₀))).length →
      (Reads size mapped ds ps (complete ds k₀) ks ↔ AllFit size mapped ds (complete ds k₀) ks)
  | [], size, k₀, ps, hks, hv, hp => Iff.rfl
  | k :: ks, size, k₀, ps, hks, hv, hp => by
      obtain ⟨hle, hks⟩ := List.pairwise_cons.mp hks
      have hj := complete_mono ds (hle k List.mem_cons_self)
      constructor
      · rintro ⟨n, ps', hrounds, hp', hrest⟩
        obtain ⟨hfits, hversion⟩ := look_fits hp hj hrounds hp'
        exact ⟨hfits, (reads_iff_from ks size hks (hversion ▸ hv) hp').mp hrest⟩
      · rintro ⟨hfits, hrest⟩
        obtain ⟨n, ps', hrounds, hp', hversion⟩ := look_reads hv hp hj hfits
        exact ⟨n, ps', hrounds, hp', (reads_iff_from ks size hks (hversion ▸ hv) hp').mpr hrest⟩

/-- For every trace file that is mapped when `k₀` bytes of its dictionary are
there, and every growth: the reader stays inside the mapping and the file and
returns each descriptor when it is complete exactly if every look finds the
file at the end of a descriptor and, if there are new ones, no more than one
byte longer than the mapping. -/
theorem reads_iff {mappedSize : Nat} {mapped : List UInt8}
    (hm : mapped.length = mappedSize + FileTrailerSize) (ds : List Descriptor) {k₀ : Nat}
    {ks : List Nat} (hks : (k₀ :: ks).Pairwise (· ≤ ·)) :
    Reads (fileAt mapped ds k₀).length mapped ds
        (.initialized (.ofSize mappedSize) (fileAt mapped ds k₀)) 0 ks
      ↔ AllFit (fileAt mapped ds k₀).length mapped ds 0 ks := by
  have hks' : (0 :: ks).Pairwise (· ≤ ·) :=
    List.pairwise_cons.mpr ⟨fun k _ => Nat.zero_le k, (List.pairwise_cons.mp hks).2⟩
  have hp : (MessageParser.initialized (.ofSize mappedSize) (fileAt mapped ds k₀)).p
      = mapped.length + (bytesOf (ds.take (complete ds 0))).length := by
    rw [complete_zero, List.take_zero]
    exact hm.symm
  have h := reads_iff_from ks (fileAt mapped ds k₀).length hks' (show 3 ≤ (5 : UInt32) by decide) hp
  rwa [complete_zero] at h

/-- Two looks at a file that gets one descriptor between them. -/
theorem reads_iff_one :
    Reads (fileAt (List.replicate 1024 0) [MessageParser.negativeDescriptor] 0).length
        (List.replicate 1024 0) [MessageParser.negativeDescriptor]
        (.initialized (.ofSize 0) (fileAt (List.replicate 1024 0)
          [MessageParser.negativeDescriptor] 0)) 0 [0, 40]
      ↔ AllFit (fileAt (List.replicate 1024 0) [MessageParser.negativeDescriptor] 0).length
        (List.replicate 1024 0) [MessageParser.negativeDescriptor] 0 [0, 40] :=
  reads_iff (by rw [List.length_replicate]; rfl) _ (by decide)

theorem initialized_p (ds : List Descriptor) :
    (MessageParser.initialized (.ofSize 0) (List.replicate 1024 0)).p
      = (List.replicate 1024 (0 : UInt8)).length + (bytesOf (ds.take 0)).length := by
  rw [List.length_replicate]
  rfl

/-- A dictionary that has grown by more than 128 KiB is not read. -/
theorem not_reads_outgrown {ds : List Descriptor} (hds : 131074 ≤ ds.length) :
    ¬ Reads 1024 (List.replicate 1024 0) ds
      (.initialized (.ofSize 0) (List.replicate 1024 0)) 0 [(bytesOf ds).length] := by
  rintro ⟨n, ps', hrounds, hp', -⟩
  obtain ⟨⟨-, hlen⟩, -⟩ := look_fits (initialized_p ds) (Nat.zero_le _) hrounds hp'
  have hbytes : ds.length ≤ (bytesOf ds).length := MessageParser.length_le_bytes ds
  rw [complete_all, fileAt, List.length_append, List.length_replicate, List.take_length,
    mapSize] at hlen
  omega

/-- One look, at the start of a descriptor and at a dictionary that has grown
by more than 128 KiB. -/
theorem leaves_mapping :
    (¬ Reads 1024 (List.replicate 1024 0) [MessageParser.negativeDescriptor]
      (.initialized (.ofSize 0) (List.replicate 1024 0)) 0 [5])
    ∧ ¬ Reads 1024 (List.replicate 1024 0)
      (List.replicate 131074 MessageParser.negativeDescriptor)
      (.initialized (.ofSize 0) (List.replicate 1024 0)) 0
      [(bytesOf (List.replicate 131074 MessageParser.negativeDescriptor)).length] := by
  constructor
  · rintro ⟨n, ps', hrounds, hp', -⟩
    obtain ⟨⟨hfile, -⟩, -⟩ := look_fits (initialized_p _) (Nat.zero_le _) hrounds hp'
    revert hfile
    decide +kernel
  · exact not_reads_outgrown (Nat.le_of_eq List.length_replicate.symm)

end Mapping

end QuickTrace
