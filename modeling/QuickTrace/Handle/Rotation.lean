/-
QuickTrace.Handle.Rotation — the files that are kept of earlier processes.

`saveOldFiles` moves the file of the last process to the first slot and, if
the second slot is empty, what was in the first slot to the second. A slot is
a plain file or a compressed one, `P.1` or `P.1.gz`; the function finds out
which with `access` and edits two name buffers accordingly. A directory shows
what a file holds, compressed or not, so that a compression is a rename.

`saveOldFiles_eq` reads the names off the buffers; behind it `Slot` stands
for the five names and `slotOps` for the calls. `Kept` is what the slots hold
after any history of starts and compressions: the first and the last of the
files that were rotated out.
-/
import QuickTrace.Lib.Files
import QuickTrace.Dict.MsgDesc
import Mathlib.Logic.Relation

namespace QuickTrace.Rotation

open QuickTrace.Lib

/-! ## saveOldFiles -/

/-- `snprintf` into 256 bytes. -/
def snprintf256 (x : Text) : Text := x.take 255

/-- `saveOldFiles`: the calls it makes. -/
def saveOldFiles (path : Text) (fs : Files Text) : List (FileOp Text) :=
  let old := snprintf256 (path ++ ascii ['.', '1', '.', 'g', 'z'])
  let oldLen := (path ++ ascii ['.', '1', '.', 'g', 'z']).length
  let oldest := snprintf256 (path ++ ascii ['.', '2', '.', 'g', 'z'])
  let oldestLen := (path ++ ascii ['.', '2', '.', 'g', 'z']).length
  let oldIsGz := (fs (cstring old)).isSome
  let old := if !oldIsGz then old.set (oldLen - 3) 0 else old
  let keep : List (FileOp Text) :=
    if (fs (cstring oldest)).isNone then
      let oldest := oldest.set (oldestLen - 3) 0
      if (fs (cstring oldest)).isNone then
        let oldest := if oldIsGz then oldest.set (oldestLen - 3) 46 else oldest
        [.rename (cstring old) (cstring oldest)]
      else []
    else []
  let drop : List (FileOp Text) := if oldIsGz then [.unlink (cstring old)] else []
  let old := if oldIsGz then old.set (oldLen - 3) 0 else old
  keep ++ drop ++ [.rename path (cstring old)]

/-! ## The slots -/

/-- The names of one path. -/
inductive Slot where
  | current
  | old
  | oldGz
  | oldest
  | oldestGz
  deriving DecidableEq

namespace Slot

/-- What a name adds to the path. -/
def suffix : Slot → Text
  | current => []
  | old => ascii ['.', '1']
  | oldGz => ascii ['.', '1', '.', 'g', 'z']
  | oldest => ascii ['.', '2']
  | oldestGz => ascii ['.', '2', '.', 'g', 'z']

/-- The name of a slot. -/
def name (path : Text) (s : Slot) : Text := path ++ s.suffix

theorem name_injective (path : Text) : Function.Injective (name path) := by
  intro s s' h
  have h := List.append_cancel_left h
  cases s <;> cases s' <;> first | rfl | exact absurd h (by decide)

end Slot

open Slot

/-- What `saveOldFiles` does, by slots. -/
def slotOps (fs : Files Slot) : List (FileOp Slot) :=
  let oldIsGz := (fs oldGz).isSome
  (if (fs oldestGz).isNone && (fs oldest).isNone then
    [.rename (if oldIsGz then oldGz else old) (if oldIsGz then oldestGz else oldest)] else [])
  ++ (if oldIsGz then [.unlink oldGz] else []) ++ [.rename current old]

/-- A name without NUL that fits its buffer. -/
structure PathOk (path : Text) : Prop where
  fits : path.length + 5 < 256
  noNul : ∀ c ∈ path, c ≠ 0

/-- A NUL behind the path ends the name. -/
theorem cstring_append {path : Text} (hp : PathOk path) (x y : Text) (hx : ∀ c ∈ x, c ≠ 0) :
    cstring (path ++ (x ++ 0 :: y)) = path ++ x := by
  have hall : ∀ c ∈ path ++ x, (c != 0) = true := by
    intro c hc
    rw [bne_iff_ne]
    exact (List.mem_append.mp hc).elim (hp.noNul c) (hx c)
  rw [cstring, ← List.append_assoc, List.takeWhile_append_of_pos hall,
    List.takeWhile_cons_of_neg (by decide), List.append_nil]

theorem suffix_ne (s : Slot) : ∀ c ∈ s.suffix, c ≠ 0 := by
  cases s <;> exact forall_mem_text (by decide)

theorem cstring_name {path : Text} (hp : PathOk path) (s : Slot) :
    cstring (s.name path) = s.name path :=
  cstring_of_ne fun c hc => (List.mem_append.mp hc).elim (hp.noNul c) (suffix_ne s c)

/-- A name fits its buffer. -/
theorem snprintf256_name {path : Text} (hp : PathOk path) (s : Slot) :
    snprintf256 (s.name path) = s.name path := by
  have hlen : s.suffix.length ≤ 5 := by cases s <;> decide
  have hfits := hp.fits
  exact List.take_of_length_le (by rw [Slot.name, List.length_append]; omega)

/-- A NUL in front of `.gz`. -/
def cut (s : Slot) (path : Text) : Text := path ++ s.suffix.set 2 0

/-- The end of the name is cut off. -/
theorem set_name {path : Text} {s : Slot} (hs : s.suffix.length = 5) :
    (s.name path).set ((s.name path).length - 3) 0 = cut s path := by
  have hlen : (s.name path).length - 3 = path.length + 2 := by
    rw [Slot.name, List.length_append, hs]
    rfl
  rw [hlen, Slot.name, List.set_append_right _ _ (Nat.le_add_right _ _), Nat.add_sub_cancel_left]
  rfl

/-- The end of the name is put back. -/
theorem set_cut (path : Text) :
    (cut oldestGz path).set ((oldestGz.name path).length - 3) 46 = oldestGz.name path := by
  have hlen : (oldestGz.name path).length - 3 = path.length + 2 := by
    rw [Slot.name, List.length_append]
    rfl
  rw [hlen, cut, List.set_append_right _ _ (Nat.le_add_right _ _), Nat.add_sub_cancel_left]
  rfl

theorem cstring_cut_oldGz {path : Text} (hp : PathOk path) :
    cstring (cut oldGz path) = old.name path :=
  cstring_append hp (ascii ['.', '1']) (ascii ['g', 'z']) (forall_mem_text (by decide))

theorem cstring_cut_oldestGz {path : Text} (hp : PathOk path) :
    cstring (cut oldestGz path) = oldest.name path :=
  cstring_append hp (ascii ['.', '2']) (ascii ['g', 'z']) (forall_mem_text (by decide))

/-- The buffers are right: the calls of `saveOldFiles` are those by slots. -/
theorem saveOldFiles_eq {path : Text} (hp : PathOk path) (fs : Files Text) :
    saveOldFiles path fs = (slotOps (fs ∘ Slot.name path)).map (FileOp.map (Slot.name path)) := by
  have hcur : current.name path = path := List.append_nil path
  have hold : path ++ ascii ['.', '1', '.', 'g', 'z'] = oldGz.name path := rfl
  have holdest : path ++ ascii ['.', '2', '.', 'g', 'z'] = oldestGz.name path := rfl
  unfold saveOldFiles slotOps
  simp only [hold, holdest, snprintf256_name hp, cstring_name hp, set_name (s := oldGz) rfl,
    set_name (s := oldestGz) rfl, set_cut path, Function.comp_apply]
  by_cases h1 : (fs (oldGz.name path)).isSome = true <;>
    by_cases h2 : (fs (oldestGz.name path)).isNone = true <;>
    by_cases h3 : (fs (oldest.name path)).isNone = true <;>
    simp [h1, h2, h3, cstring_name hp, set_name (s := oldGz) rfl, cstring_cut_oldGz hp,
      cstring_cut_oldestGz hp, FileOp.map, hcur]

/-! ## Histories -/

/-- The files, and what rotations have moved out of the path so far. -/
structure Directory where
  files : Files Text
  rotated : List (List UInt8)

/-- What happens: a process starts, and writes; a file is compressed. -/
inductive Event where
  | start (rotateLogFile : Bool) (bytes : List UInt8)
  | write (bytes : List UInt8)
  | compressOld
  | compressOldest
  deriving DecidableEq

namespace Directory

/-- No files for the path. -/
def Fresh (path : Text) (d : Directory) : Prop :=
  (∀ s : Slot, d.files (s.name path) = none) ∧ d.rotated = []

/-- The constructor of `TraceFile` up to `getfile`. -/
def start (path : Text) (d : Directory) (rotateLogFile : Bool) (bytes : List UInt8) : Directory :=
  if rotateLogFile then
    { files := (FileOp.create path bytes).apply
        (FileOp.applyAll d.files (saveOldFiles path d.files))
      rotated := d.rotated ++ (d.files path).toList }
  else { d with files := (FileOp.create path bytes).apply d.files }

/-- One event. What is compressed keeps what it shows. -/
def step (path : Text) (d : Directory) : Event → Directory
  | .start rotateLogFile bytes => d.start path rotateLogFile bytes
  | .write bytes =>
    if (d.files path).isSome then { d with files := (FileOp.create path bytes).apply d.files } else d
  | .compressOld =>
    { d with files := (FileOp.rename (old.name path) (oldGz.name path)).apply d.files }
  | .compressOldest =>
    { d with files := (FileOp.rename (oldest.name path) (oldestGz.name path)).apply d.files }

/-- A history. -/
def run (path : Text) (d : Directory) (es : List Event) : Directory := es.foldl (step path) d

end Directory

/-- What the first slot holds. -/
def firstSlot (fs : Files Slot) : Option (List UInt8) := (fs old).or (fs oldGz)

/-- What the second slot holds. -/
def secondSlot (fs : Files Slot) : Option (List UInt8) := (fs oldest).or (fs oldestGz)

/-- No slot has two files. -/
def AtMostOne (fs : Files Slot) : Prop :=
  (fs old = none ∨ fs oldGz = none) ∧ (fs oldest = none ∨ fs oldestGz = none)

/-- The invariant: the first slot holds the last file rotated out, the second
slot the first one, once there are two. -/
structure Kept (fs : Files Slot) (rotated : List (List UInt8)) : Prop where
  one : AtMostOne fs
  first : firstSlot fs = rotated.getLast?
  second : secondSlot fs = if 2 ≤ rotated.length then rotated.head? else none

/-- The five slots decide about a directory. -/
theorem Kept.of_values {fs fs' : Files Slot} {rotated : List (List UInt8)} (h : Kept fs rotated)
    (heq : ∀ s, s ≠ current → fs' s = fs s) : Kept fs' rotated where
  one := by
    unfold AtMostOne
    rw [heq old (by decide), heq oldGz (by decide), heq oldest (by decide), heq oldestGz (by decide)]
    exact h.one
  first := by
    unfold firstSlot
    rw [heq old (by decide), heq oldGz (by decide)]
    exact h.first
  second := by
    unfold secondSlot
    rw [heq oldest (by decide), heq oldestGz (by decide)]
    exact h.second

/-- A new file for the path. -/
theorem Kept.create {fs : Files Slot} {rotated : List (List UInt8)} (h : Kept fs rotated)
    (bytes : List UInt8) : Kept ((FileOp.create Slot.current bytes).apply fs) rotated :=
  h.of_values fun _ hs => Function.update_of_ne hs ..

theorem Kept.compressOld {fs : Files Slot} {rotated : List (List UInt8)} (h : Kept fs rotated) :
    Kept ((FileOp.rename old oldGz).apply fs) rotated := by
  cases hold : fs old with
  | none =>
    rw [show (FileOp.rename old oldGz).apply fs = fs by simp [FileOp.apply, hold]]
    exact h
  | some bytes =>
    have hgz : fs oldGz = none := h.one.1.resolve_left (by rw [hold]; exact Option.some_ne_none _)
    have hfirst : some bytes = rotated.getLast? := by
      rw [← h.first, firstSlot, hold]
      rfl
    have hval : (FileOp.rename old oldGz).apply fs
        = Function.update (Function.update fs old none) oldGz (some bytes) := by
      simp [FileOp.apply, hold]
    rw [hval]
    exact ⟨⟨.inl rfl, h.one.2⟩, hfirst, h.second⟩

theorem Kept.compressOldest {fs : Files Slot} {rotated : List (List UInt8)} (h : Kept fs rotated) :
    Kept ((FileOp.rename oldest oldestGz).apply fs) rotated := by
  cases hold : fs oldest with
  | none =>
    rw [show (FileOp.rename oldest oldestGz).apply fs = fs by simp [FileOp.apply, hold]]
    exact h
  | some bytes =>
    have hsecond : some bytes = if 2 ≤ rotated.length then rotated.head? else none := by
      rw [← h.second, secondSlot, hold]
      rfl
    have hval : (FileOp.rename oldest oldestGz).apply fs
        = Function.update (Function.update fs oldest none) oldestGz (some bytes) := by
      simp [FileOp.apply, hold]
    rw [hval]
    exact ⟨⟨h.one.1, .inl rfl⟩, h.first, hsecond⟩

/-! ## A rotation -/

/-- After the calls: what the path held is in the first slot, and what the
first slot held is in the second one, unless that is taken. -/
structure Rotated (fs fs' : Files Slot) : Prop where
  one : AtMostOne fs'
  first : fs current ≠ none ∨ firstSlot fs = none → firstSlot fs' = fs current
  second : secondSlot fs' = (secondSlot fs).or (firstSlot fs)

/-- A slot is empty, plain or compressed. -/
theorem slot_cases {a b : Option (List UInt8)} (h : a = none ∨ b = none) :
    (a = none ∧ b = none) ∨ (∃ x, a = some x ∧ b = none) ∨ ∃ x, a = none ∧ b = some x := by
  cases a with
  | none =>
    cases b with
    | none => exact .inl ⟨rfl, rfl⟩
    | some x => exact .inr (.inr ⟨x, rfl, rfl⟩)
  | some x => exact .inr (.inl ⟨x, rfl, h.resolve_left (Option.some_ne_none x)⟩)

theorem rotated_slotOps {fs : Files Slot} (h : AtMostOne fs) :
    Rotated fs (FileOp.applyAll fs (slotOps fs)) := by
  rcases slot_cases h.1 with ⟨h1, h2⟩ | ⟨x, h1, h2⟩ | ⟨x, h1, h2⟩ <;>
    rcases slot_cases h.2 with ⟨h3, h4⟩ | ⟨y, h3, h4⟩ | ⟨y, h3, h4⟩ <;>
    cases h5 : fs current <;>
    constructor <;>
    simp [slotOps, FileOp.apply, AtMostOne, firstSlot, secondSlot, Function.update, h1, h2, h3, h4,
      h5]

theorem length_slotOps (fs : Files Slot) : (slotOps fs).length ≤ 3 := by
  unfold slotOps
  dsimp only
  split <;> split <;> simp

/-- No call leaves two files in a slot. -/
theorem atMostOne_take {fs : Files Slot} (h : AtMostOne fs) (k : Nat) :
    AtMostOne (FileOp.applyAll fs ((slotOps fs).take k)) := by
  match k with
  | 0 => exact h
  | k + 3 =>
    have hlen := length_slotOps fs
    rw [List.take_of_length_le (by omega)]
    exact (rotated_slotOps h).one
  | 1 | 2 =>
    -- behind the first call and behind the second
    rcases slot_cases h.1 with ⟨h1, h2⟩ | ⟨x, h1, h2⟩ | ⟨x, h1, h2⟩ <;>
    rcases slot_cases h.2 with ⟨h3, h4⟩ | ⟨y, h3, h4⟩ | ⟨y, h3, h4⟩ <;>
    cases h5 : fs current <;>
    simp [slotOps, FileOp.apply, AtMostOne, Function.update, h1, h2, h3, h4, h5]

/-- A rotation of a file, or of none if there never was one. -/
theorem Kept.rotate {fs : Files Slot} {rotated : List (List UInt8)} (h : Kept fs rotated)
    (hcur : rotated ≠ [] → fs current ≠ none) :
    Kept (FileOp.applyAll fs (slotOps fs)) (rotated ++ (fs current).toList) := by
  obtain ⟨hone, hfirst, hsecond⟩ := rotated_slotOps h.one
  rw [h.second, h.first] at hsecond
  rw [h.first] at hfirst
  cases hc : fs current with
  | none =>
    have hnil : rotated = [] := by
      by_contra hne
      exact hcur hne hc
    rw [hc] at hfirst
    subst hnil
    exact ⟨hone, hfirst (.inr rfl), hsecond⟩
  | some bytes =>
    rw [hc] at hfirst
    have hlast : (rotated ++ [bytes]).getLast? = some bytes := List.getLast?_concat
    refine ⟨hone, (hfirst (.inl (Option.some_ne_none bytes))).trans hlast.symm, hsecond.trans ?_⟩
    -- the second slot is filled by the second file and kept from then on
    match rotated with
    | [] => rfl
    | [first] => rfl
    | first :: second :: rest => rfl

/-! ## Every history -/

/-- The invariant of a directory. -/
structure Directory.Ok (path : Text) (d : Directory) : Prop where
  kept : Kept (d.files ∘ Slot.name path) d.rotated
  present : d.rotated ≠ [] → d.files path ≠ none

theorem name_current (path : Text) : current.name path = path := List.append_nil path

theorem Directory.Fresh.ok {path : Text} {d : Directory} (h : d.Fresh path) : d.Ok path where
  kept := by
    rw [h.2]
    refine ⟨⟨.inl (h.1 old), .inl (h.1 oldest)⟩, ?_, ?_⟩
    · rw [firstSlot, Function.comp_apply, Function.comp_apply, h.1 old, h.1 oldGz]
      rfl
    · rw [secondSlot, Function.comp_apply, Function.comp_apply, h.1 oldest, h.1 oldestGz]
      rfl
  present := fun hne => absurd h.2 hne

/-- A call on a name, by slots. -/
theorem comp_apply (path : Text) (fs : Files Text) (op : FileOp Slot) :
    (op.map (Slot.name path)).apply fs ∘ Slot.name path = op.apply (fs ∘ Slot.name path) :=
  FileOp.apply_comp (Slot.name_injective path) fs op

theorem comp_create (path : Text) (fs : Files Text) (bytes : List UInt8) :
    (FileOp.create path bytes).apply fs ∘ Slot.name path
      = (FileOp.create current bytes).apply (fs ∘ Slot.name path) := by
  have h := comp_apply path fs (.create current bytes)
  rwa [FileOp.map, name_current] at h

theorem comp_saveOldFiles {path : Text} (hp : PathOk path) (fs : Files Text) :
    FileOp.applyAll fs (saveOldFiles path fs) ∘ Slot.name path
      = FileOp.applyAll (fs ∘ Slot.name path) (slotOps (fs ∘ Slot.name path)) := by
  rw [saveOldFiles_eq hp, FileOp.applyAll_comp (Slot.name_injective path)]

theorem create_present (path : Text) (fs : Files Text) (bytes : List UInt8) :
    (FileOp.create path bytes).apply fs path ≠ none := by
  rw [FileOp.apply, Function.update_self]
  exact Option.some_ne_none bytes

/-- A compression leaves the path. -/
theorem rename_path (path : Text) (fs : Files Text) {s s' : Slot} (hs : s ≠ current)
    (hs' : s' ≠ current) : (FileOp.rename (s.name path) (s'.name path)).apply fs path = fs path := by
  have hne : ∀ {s : Slot}, s ≠ current → path ≠ s.name path := by
    intro s hs heq
    exact hs (Slot.name_injective path (heq.symm.trans (name_current path).symm))
  cases h : fs (s.name path) with
  | none => simp only [FileOp.apply, h]
  | some bytes =>
    simp only [FileOp.apply, h]
    rw [Function.update_of_ne (hne hs'), Function.update_of_ne (hne hs)]

/-- The step lemma. -/
theorem Directory.Ok.step {path : Text} (hp : PathOk path) {d : Directory} (h : d.Ok path)
    (e : Event) : (d.step path e).Ok path := by
  cases e with
  | start rotateLogFile bytes =>
    cases rotateLogFile with
    | true =>
      refine ⟨?_, fun _ => create_present path _ bytes⟩
      have hkept := h.kept.rotate (fun hne => by
        rw [Function.comp_apply, name_current]
        exact h.present hne)
      rw [Function.comp_apply, name_current, ← comp_saveOldFiles hp] at hkept
      have hcreate := hkept.create bytes
      rwa [← comp_create] at hcreate
    | false =>
      refine ⟨?_, fun _ => create_present path _ bytes⟩
      have hcreate := h.kept.create bytes
      rwa [← comp_create] at hcreate
  | write bytes =>
    simp only [Directory.step]
    split
    · refine ⟨?_, fun _ => create_present path _ bytes⟩
      have hcreate := h.kept.create bytes
      rwa [← comp_create] at hcreate
    · exact h
  | compressOld =>
    refine ⟨?_, fun hne => ?_⟩
    · have hkept := h.kept.compressOld
      rwa [← comp_apply] at hkept
    · have hpath := rename_path path d.files (show old ≠ current by decide)
        (show oldGz ≠ current by decide)
      exact fun hnone => h.present hne (hpath.symm.trans hnone)
  | compressOldest =>
    refine ⟨?_, fun hne => ?_⟩
    · have hkept := h.kept.compressOldest
      rwa [← comp_apply] at hkept
    · have hpath := rename_path path d.files (show oldest ≠ current by decide)
        (show oldestGz ≠ current by decide)
      exact fun hnone => h.present hne (hpath.symm.trans hnone)

theorem Directory.Ok.run {path : Text} (hp : PathOk path) : ∀ (es : List Event) {d : Directory},
    d.Ok path → (d.run path es).Ok path
  | [], _, h => h
  | e :: es, _, h => Directory.Ok.run hp es (h.step hp e)

/-- What was rotated out stays on record. -/
theorem Directory.run_rotated (path : Text) : ∀ (es : List Event) (d : Directory),
    ∃ more, (d.run path es).rotated = d.rotated ++ more
  | [], d => ⟨[], (List.append_nil _).symm⟩
  | e :: es, d => by
      have hstep : ∃ more, (d.step path e).rotated = d.rotated ++ more := by
        cases e with
        | start rotateLogFile bytes =>
          cases rotateLogFile with
          | true => exact ⟨_, rfl⟩
          | false => exact ⟨[], (List.append_nil _).symm⟩
        | write bytes =>
          refine ⟨[], ?_⟩
          simp only [Directory.step, List.append_nil]
          split <;> rfl
        | compressOld => exact ⟨[], (List.append_nil _).symm⟩
        | compressOldest => exact ⟨[], (List.append_nil _).symm⟩
      obtain ⟨more, hmore⟩ := hstep
      obtain ⟨more', hmore'⟩ := Directory.run_rotated path es (d.step path e)
      exact ⟨more ++ more', by rw [← List.append_assoc, ← hmore]; exact hmore'⟩

/-- The slots of a directory. -/
def Directory.slots (path : Text) (d : Directory) : Files Slot := d.files ∘ Slot.name path

/-- Whatever starts and compressions there were: no slot ever has two files,
not even between two calls of `saveOldFiles`; the first slot holds what was
rotated out last, which right behind a rotation is what the path held; and
once two files were rotated out the second slot holds the first of them, for
good. -/
theorem rotation_keeps {path : Text} (hp : PathOk path) {d₀ : Directory} (h₀ : d₀.Fresh path)
    (es : List Event) :
    AtMostOne ((d₀.run path es).slots path)
    ∧ (∀ k, AtMostOne (FileOp.applyAll (d₀.run path es).files
        ((saveOldFiles path (d₀.run path es).files).take k) ∘ Slot.name path))
    ∧ firstSlot ((d₀.run path es).slots path) = (d₀.run path es).rotated.getLast?
    ∧ (∀ bytes, firstSlot (((d₀.run path es).start path true bytes).slots path)
        = (d₀.run path es).files path)
    ∧ (2 ≤ (d₀.run path es).rotated.length →
        secondSlot ((d₀.run path es).slots path) = (d₀.run path es).rotated.head?
        ∧ ∀ es', secondSlot (((d₀.run path es).run path es').slots path)
          = secondSlot ((d₀.run path es).slots path)) := by
  have hok := Directory.Ok.run hp es h₀.ok
  generalize d₀.run path es = d at hok
  refine ⟨hok.kept.one, fun k => ?_, hok.kept.first, fun bytes => ?_, fun h2 => ?_⟩
  · have htake := atMostOne_take hok.kept.one k
    rw [saveOldFiles_eq hp, ← List.map_take, FileOp.applyAll_comp (Slot.name_injective path)]
    exact htake
  · have hstart := hok.step hp (.start true bytes)
    have hfirst : firstSlot ((d.start path true bytes).slots path)
        = (d.rotated ++ (d.files path).toList).getLast? := hstart.kept.first
    rw [hfirst]
    cases hc : d.files path with
    | none =>
      have hnil : d.rotated = [] := by
        by_contra hne
        exact hok.present hne hc
      rw [hnil]
      rfl
    | some content => exact List.getLast?_concat
  · have hsecond : ∀ {d' : Directory}, d'.Ok path → 2 ≤ d'.rotated.length →
        secondSlot (d'.slots path) = d'.rotated.head? := by
      intro d' hd' h2
      have h := hd'.kept.second
      rwa [if_pos h2] at h
    refine ⟨hsecond hok h2, fun es' => ?_⟩
    obtain ⟨more, hmore⟩ := d.run_rotated path es'
    have hlen : 2 ≤ (d.run path es').rotated.length := by
      rw [hmore, List.length_append]
      omega
    rw [hsecond (hok.run hp es') hlen, hsecond hok h2, hmore, List.head?_append_of_ne_nil]
    intro hnil
    rw [hnil] at h2
    cases h2

/-- A history in which both slots are compressed in between. -/
def history : List Event :=
  [.start true [1], .start true [2], .compressOld, .start true [3], .start false [4],
    .compressOldest, .start true [5]]

/-- No files at all. -/
def emptyDirectory : Directory := ⟨fun _ => none, []⟩

theorem rotation_keeps_history :
    AtMostOne ((emptyDirectory.run [97] history).slots [97])
    ∧ (∀ k, AtMostOne (FileOp.applyAll (emptyDirectory.run [97] history).files
        ((saveOldFiles [97] (emptyDirectory.run [97] history).files).take k) ∘ Slot.name [97]))
    ∧ firstSlot ((emptyDirectory.run [97] history).slots [97])
      = (emptyDirectory.run [97] history).rotated.getLast?
    ∧ (∀ bytes, firstSlot (((emptyDirectory.run [97] history).start [97] true bytes).slots [97])
        = (emptyDirectory.run [97] history).files [97])
    ∧ (2 ≤ (emptyDirectory.run [97] history).rotated.length →
        secondSlot ((emptyDirectory.run [97] history).slots [97])
          = (emptyDirectory.run [97] history).rotated.head?
        ∧ ∀ es', secondSlot (((emptyDirectory.run [97] history).run [97] es').slots [97])
          = secondSlot ((emptyDirectory.run [97] history).slots [97])) :=
  rotation_keeps ⟨by decide, forall_mem_text (by decide)⟩ ⟨fun _ => rfl, rfl⟩ history

example : (emptyDirectory.run [97] history).rotated = [[1], [2], [4]] := by decide +kernel

end QuickTrace.Rotation
