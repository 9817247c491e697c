/-
QuickTrace.Tail.Watched — when every tailed file is watched.

Every other new spelling of a directory opens its watch, and the one after
it closes the watch again: the new `Watch` finds the descriptor of the old
one, is destroyed, and removes it. `Inv` follows this over the loop of the
constructor; `create_inv` is the run lemma.
-/
import QuickTrace.Tail.TailControl

namespace QuickTrace.TailControl

open QuickTrace.Lib

variable {D : Type} [DecidableEq D]

/-! ## The spellings of a directory -/

/-- The spellings of a directory among some texts. -/
def spelt (dir : Text → Option D) (d : D) (texts : List Text) : List Text :=
  texts.filter fun t => dir t = some d

/-- The spellings that the file names use, in the order in which they
appear. -/
def spellings (filenames : List Text) : List Text := (filenames.map dirname).eraseDups

theorem spellings_concat (fs : List Text) (f : Text) :
    spellings (fs ++ [f])
      = if dirname f ∈ spellings fs then spellings fs else spellings fs ++ [dirname f] := by
  rw [spellings, List.map_append, List.eraseDups_append, List.map_singleton, List.removeAll]
  by_cases h : dirname f ∈ fs.map dirname
  · have hin : dirname f ∈ spellings fs := List.mem_eraseDups.mpr h
    rw [if_pos hin, List.filter_cons_of_neg (by simpa using h)]
    simp [spellings]
  · have hout : dirname f ∉ spellings fs := fun hin => h (List.mem_eraseDups.mp hin)
    rw [if_neg hout, List.filter_cons_of_pos (by simpa using h)]
    simp [spellings, List.eraseDups_cons]

section

variable {dir : Text → Option D} {d : D} {texts : List Text} {t : Text}

theorem spelt_concat_self (h : dir t = some d) :
    spelt dir d (texts ++ [t]) = spelt dir d texts ++ [t] := by
  simp [spelt, h]

theorem spelt_concat_other (h : dir t ≠ some d) :
    spelt dir d (texts ++ [t]) = spelt dir d texts := by
  simp [spelt, h]

theorem mem_spelt_of_last (h : (spelt dir d texts).getLast? = some t) :
    t ∈ texts ∧ dir t = some d := by
  simpa [spelt] using List.mem_of_getLast? h

end

/-! ## Finding or making a watch -/

section

variable {dir : Text → Option D} {t : Text} {d : D} {c : TailControl D}

theorem openDir_known {wd : Int} (h : c.watchesByDir.lookup t = some wd) :
    c.openDir dir t = .ok c := by
  rw [openDir, if_pos (by rw [h]; rfl)]

/-- The state with a new watch for `d` under the spelling `t`. -/
def opening (d : D) (t : Text) (c : TailControl D) : TailControl D where
  inotify := ⟨Function.update c.inotify.wdOf d (some c.inotify.next), c.inotify.next + 1⟩
  watches := c.watches.insert c.inotify.next ⟨t, c.inotify.next, ⟨⟨true, true, false⟩, ∅⟩⟩
  watchesByDir := c.watchesByDir.insert t c.inotify.next

/-- The directory is not watched: the new object goes into the map. -/
theorem openDir_opens (hnew : c.watchesByDir.lookup t = none) (hd : dir t = some d)
    (hnone : c.inotify.wdOf d = none) (hfree : c.watches.lookup c.inotify.next = none) :
    c.openDir dir t = .ok (c.opening d t) := by
  rw [openDir, if_neg (by rw [hnew]; exact Bool.false_ne_true)]
  simp [WatchObject.create, hd, Inotify.addWatch, hnone, insertWatch, hfree, WatchObject.move,
    WatchObject.destroy, ok_bind, opening]

theorem opening_wdOf (e : D) : (c.opening d t).inotify.wdOf e
    = if e = d then some c.inotify.next else c.inotify.wdOf e :=
  Function.update_apply ..

theorem opening_watches_other {wd : Int} (h : wd ≠ c.inotify.next) :
    (c.opening d t).watches.lookup wd = c.watches.lookup wd := AList.lookup_insert_ne h

theorem opening_byDir_other {u : Text} (h : u ≠ t) :
    (c.opening d t).watchesByDir.lookup u = c.watchesByDir.lookup u := AList.lookup_insert_ne h

/-- The state when the new object for the spelling `t` has removed the watch
`wd`. -/
def closing (t : Text) (wd : Int) (c : TailControl D) : TailControl D :=
  { c with inotify := c.inotify.rmWatch wd, watchesByDir := c.watchesByDir.insert t wd }

/-- The directory is watched: the new object is destroyed, and the watch is
gone. -/
theorem openDir_closes (hnew : c.watchesByDir.lookup t = none) (hd : dir t = some d) {wd : Int}
    (hsome : c.inotify.wdOf d = some wd) (hwd : 1 ≤ wd) {w : WatchObject}
    (hw : c.watches.lookup wd = some w) : c.openDir dir t = .ok (c.closing t wd) := by
  rw [openDir, if_neg (by rw [hnew]; exact Bool.false_ne_true)]
  have hle : 0 ≤ wd := by omega
  simp [WatchObject.create, hd, Inotify.addWatch, hsome, insertWatch, hw, WatchObject.move,
    WatchObject.destroy, ok_bind, hle, closing]

omit [DecidableEq D] in
theorem closing_wdOf (t : Text) (wd : Int) (e : D) : (c.closing t wd).inotify.wdOf e
    = if c.inotify.wdOf e = some wd then none else c.inotify.wdOf e := rfl

theorem openDir_exits (hnew : c.watchesByDir.lookup t = none) (hd : dir t = none) :
    c.openDir dir t = .error .exit := by
  rw [openDir, if_neg (by rw [hnew]; exact Bool.false_ne_true)]
  simp [WatchObject.create, hd]
  rfl

end

/-! ## The invariant of the loop -/

/-- With the spellings `texts` opened and the files `files` inserted. -/
structure Inv (dir : Text → Option D) (options : Options) (contents : Text → Contents)
    (texts files : List Text) (c : TailControl D) : Prop where
  known : ∀ t, (∃ wd, c.watchesByDir.lookup t = some wd) ↔ t ∈ texts
  object : ∀ t wd, c.watchesByDir.lookup t = some wd →
    ∃ w d, c.watches.lookup wd = some w ∧ dir t = some d ∧ dir w.dirname = some d
  next : 1 ≤ c.inotify.next
  fresh : ∀ wd w, c.watches.lookup wd = some w → wd < c.inotify.next
  active : ∀ d wd, c.inotify.wdOf d = some wd →
    1 ≤ wd ∧ ∃ w, c.watches.lookup wd = some w ∧ dir w.dirname = some d
  opened : ∀ d wd, c.inotify.wdOf d = some wd → (spelt dir d texts).length % 2 = 1
    ∧ ∀ t, c.watchesByDir.lookup t = some wd ↔ (spelt dir d texts).getLast? = some t
  closed : ∀ d, c.inotify.wdOf d = none → (spelt dir d texts).length % 2 = 0
  held : ∀ f ∈ files, ∃ wd w t, c.watchesByDir.lookup (dirname f) = some wd
    ∧ c.watches.lookup wd = some w ∧ w.watch.tails.lookup (shortname f) = some t
  made : ∀ wd w s t, c.watches.lookup wd = some w → w.watch.tails.lookup s = some t →
    ∃ f ∈ files, shortname f = s ∧ c.watchesByDir.lookup (dirname f) = some wd
      ∧ FileTail.create options true (contents f) = .ok t

section

variable {dir : Text → Option D} {options : Options} {contents : Text → Contents}
  {texts files : List Text} {c : TailControl D} {t : Text} {d : D}

theorem Inv.init : Inv dir options contents [] [] (⟨Inotify.init1, ∅, ∅⟩ : TailControl D) where
  known := fun t => by simp [AList.lookup_empty]
  object := fun t wd h => by simp [AList.lookup_empty] at h
  next := Int.le_refl 1
  fresh := fun wd w h => by simp [AList.lookup_empty] at h
  active := fun d wd h => by cases h
  opened := fun d wd h => by cases h
  closed := fun d h => rfl
  held := fun f hf => by cases hf
  made := fun wd w s t h => by simp [AList.lookup_empty] at h

/-- Two directories are not watched under one descriptor. -/
theorem Inv.active_inj (h : Inv dir options contents texts files c) {d e : D} {wd : Int}
    (hd : c.inotify.wdOf d = some wd) (he : c.inotify.wdOf e = some wd) : d = e := by
  obtain ⟨-, w, hw, hdir⟩ := h.active d wd hd
  obtain ⟨-, w', hw', hdir'⟩ := h.active e wd he
  cases hw.symm.trans hw'
  exact Option.some.inj (hdir.symm.trans hdir')

theorem Inv.unknown (h : Inv dir options contents texts files c) (ht : t ∉ texts) :
    c.watchesByDir.lookup t = none := by
  cases hl : c.watchesByDir.lookup t with
  | none => rfl
  | some wd => exact absurd ((h.known t).mp ⟨wd, hl⟩) ht

theorem Inv.free (h : Inv dir options contents texts files c) :
    c.watches.lookup c.inotify.next = none := by
  cases hl : c.watches.lookup c.inotify.next with
  | none => rfl
  | some w => exact absurd (h.fresh _ w hl) (Int.lt_irrefl _)

theorem Inv.known_insert (h : Inv dir options contents texts files c) (wd : Int) (u : Text) :
    (∃ wd', (c.watchesByDir.insert t wd).lookup u = some wd') ↔ u ∈ texts ++ [t] := by
  rw [List.mem_append, List.mem_singleton]
  by_cases hu : u = t
  · subst hu
    exact ⟨fun _ => .inr rfl, fun _ => ⟨wd, AList.lookup_insert _⟩⟩
  · rw [AList.lookup_insert_ne hu, h.known]
    simp [hu]

/-- A new spelling, under a descriptor that the map has with the same
directory, leaves the entries in order. -/
theorem Inv.object_insert (h : Inv dir options contents texts files c) {wd : Int}
    (ws : AList fun _ : Int => WatchObject)
    (hkeep : ∀ wd' w, c.watches.lookup wd' = some w → ws.lookup wd' = some w)
    {w : WatchObject} (hw : ws.lookup wd = some w) (hd : dir t = some d)
    (hdir : dir w.dirname = some d) (u : Text) (wd' : Int)
    (hu : (c.watchesByDir.insert t wd).lookup u = some wd') :
    ∃ w d, ws.lookup wd' = some w ∧ dir u = some d ∧ dir w.dirname = some d := by
  by_cases hut : u = t
  · subst hut
    rw [AList.lookup_insert] at hu
    cases hu
    exact ⟨w, d, hw, hd, hdir⟩
  · rw [AList.lookup_insert_ne hut] at hu
    obtain ⟨w', d', hw', hdu, hdw⟩ := h.object u wd' hu
    exact ⟨w', d', hkeep wd' w' hw', hdu, hdw⟩

/-- A new spelling does not move the files that are there. -/
theorem Inv.lookup_insert (h : Inv dir options contents texts files c) (ht : t ∉ texts)
    {u : Text} {wd wd' : Int} (hu : c.watchesByDir.lookup u = some wd') :
    (c.watchesByDir.insert t wd).lookup u = some wd' := by
  have hne : u ≠ t := by
    rintro rfl
    exact ht ((h.known u).mp ⟨wd', hu⟩)
  rwa [AList.lookup_insert_ne hne]

omit [DecidableEq D] in
/-- A new spelling of one directory is none of another. -/
theorem ne_of_dir {e : D} (hd : dir t = some d) (hed : e ≠ d) : dir t ≠ some e :=
  fun hdt => hed (Option.some.inj (hdt.symm.trans hd))

/-- The spelling that leads to the watch of another directory stays. -/
theorem Inv.opened_other (h : Inv dir options contents texts files c) (ht : t ∉ texts) {e : D}
    (hdt : dir t ≠ some e) {wd wd' : Int} (he : c.inotify.wdOf e = some wd) (hne : wd' ≠ wd) :
    (spelt dir e (texts ++ [t])).length % 2 = 1
      ∧ ∀ u, (c.watchesByDir.insert t wd').lookup u = some wd
        ↔ (spelt dir e (texts ++ [t])).getLast? = some u := by
  obtain ⟨hodd, hlast⟩ := h.opened e wd he
  rw [spelt_concat_other hdt]
  refine ⟨hodd, fun u => ?_⟩
  rw [← hlast u]
  by_cases hut : u = t
  · subst hut
    rw [h.unknown ht, AList.lookup_insert]
    simp [hne]
  · rw [AList.lookup_insert_ne hut]

/-- The first, third, fifth spelling of a directory opens its watch, and no
other spelling leads to it. -/
theorem Inv.opening_last (h : Inv dir options contents texts files c) (ht : t ∉ texts)
    (hd : dir t = some d) (hnone : c.inotify.wdOf d = none) {e : D} {wd : Int}
    (he : (c.opening d t).inotify.wdOf e = some wd) :
    (spelt dir e (texts ++ [t])).length % 2 = 1
      ∧ ∀ u, (c.opening d t).watchesByDir.lookup u = some wd
        ↔ (spelt dir e (texts ++ [t])).getLast? = some u := by
  rw [opening_wdOf] at he
  by_cases hed : e = d
  · subst hed
    rw [if_pos rfl] at he
    cases he
    have heven := h.closed e hnone
    rw [spelt_concat_self hd]
    refine ⟨by rw [List.length_append, List.length_singleton]; omega, fun u => ?_⟩
    rw [List.getLast?_concat, Option.some.injEq]
    by_cases hut : u = t
    · subst hut
      exact ⟨fun _ => rfl, fun _ => AList.lookup_insert _⟩
    · rw [opening_byDir_other hut]
      refine ⟨fun hu => ?_, fun hu => absurd hu.symm hut⟩
      obtain ⟨w, -, hw, -⟩ := h.object u _ hu
      cases h.free.symm.trans hw
  · rw [if_neg hed] at he
    obtain ⟨-, w, hw, -⟩ := h.active e wd he
    have hne : c.inotify.next ≠ wd := by
      rintro rfl
      cases h.free.symm.trans hw
    exact h.opened_other ht (ne_of_dir hd hed) he hne

theorem Inv.opens (h : Inv dir options contents texts files c) (ht : t ∉ texts)
    (hd : dir t = some d) (hnone : c.inotify.wdOf d = none) :
    Inv dir options contents (texts ++ [t]) files (c.opening d t) := by
  have hnext := h.next
  have hself : (c.opening d t).watches.lookup c.inotify.next
      = some ⟨t, c.inotify.next, ⟨⟨true, true, false⟩, ∅⟩⟩ := AList.lookup_insert _
  have hkeep : ∀ wd w, c.watches.lookup wd = some w →
      (c.opening d t).watches.lookup wd = some w := by
    intro wd w hw
    have hne : wd ≠ c.inotify.next := by
      rintro rfl
      cases h.free.symm.trans hw
    rwa [opening_watches_other hne]
  refine
    { known := h.known_insert c.inotify.next
      object := h.object_insert _ hkeep hself hd hd
      next := ?_, fresh := ?_, active := ?_
      opened := fun e wd he => h.opening_last ht hd hnone he
      closed := ?_, held := ?_, made := ?_ }
  · show 1 ≤ c.inotify.next + 1
    omega
  · intro wd w hw
    show wd < c.inotify.next + 1
    by_cases hwd : wd = c.inotify.next
    · omega
    · rw [opening_watches_other hwd] at hw
      have := h.fresh wd w hw
      omega
  · intro e wd he
    rw [opening_wdOf] at he
    by_cases hed : e = d
    · subst hed
      rw [if_pos rfl] at he
      cases he
      exact ⟨hnext, _, hself, hd⟩
    · rw [if_neg hed] at he
      obtain ⟨hpos, w, hw, hdir⟩ := h.active e wd he
      exact ⟨hpos, w, hkeep wd w hw, hdir⟩
  · intro e he
    rw [opening_wdOf] at he
    by_cases hed : e = d
    · rw [if_pos hed] at he
      cases he
    · rw [if_neg hed] at he
      rw [spelt_concat_other (ne_of_dir hd hed)]
      exact h.closed e he
  · intro f hf
    obtain ⟨wd, w, tl, hby, hw, htl⟩ := h.held f hf
    exact ⟨wd, w, tl, h.lookup_insert ht hby, hkeep wd w hw, htl⟩
  · intro wd w s tl hw htl
    by_cases hwd : wd = c.inotify.next
    · subst hwd
      cases hself.symm.trans hw
      simp [AList.lookup_empty] at htl
    · rw [opening_watches_other hwd] at hw
      obtain ⟨f, hf, hs, hby, hmade⟩ := h.made wd w s tl hw htl
      exact ⟨f, hf, hs, h.lookup_insert ht hby, hmade⟩

/-- The second, fourth, sixth spelling of a directory closes its watch. -/
theorem Inv.closes (h : Inv dir options contents texts files c) (ht : t ∉ texts)
    (hd : dir t = some d) {wd : Int} (hsome : c.inotify.wdOf d = some wd) :
    Inv dir options contents (texts ++ [t]) files (c.closing t wd) := by
  obtain ⟨-, w, hw, hdir⟩ := h.active d wd hsome
  refine
    { known := h.known_insert wd
      object := h.object_insert c.watches (fun _ _ hw => hw) hw hd hdir
      next := h.next, fresh := h.fresh, active := ?_, opened := ?_, closed := ?_
      held := ?_, made := ?_ }
  · intro e wd' he
    rw [closing_wdOf] at he
    split at he
    · cases he
    · exact h.active e wd' he
  · intro e wd' he
    rw [closing_wdOf] at he
    split at he
    · cases he
    · rename_i hne
      have hed : e ≠ d := by
        rintro rfl
        exact hne hsome
      have hwd : wd ≠ wd' := by
        rintro rfl
        exact hne he
      exact h.opened_other ht (ne_of_dir hd hed) he hwd
  · intro e he
    rw [closing_wdOf] at he
    split at he
    · rename_i hsame
      have hodd := (h.opened d wd hsome).1
      rw [h.active_inj hsame hsome, spelt_concat_self hd, List.length_append, List.length_singleton]
      omega
    · have hed : e ≠ d := by
        rintro rfl
        cases he.symm.trans hsome
      rw [spelt_concat_other (ne_of_dir hd hed)]
      exact h.closed e he
  · intro f hf
    obtain ⟨wd', w', tl, hby, hw', htl⟩ := h.held f hf
    exact ⟨wd', w', tl, h.lookup_insert ht hby, hw', htl⟩
  · intro wd' w' s tl hw' htl
    obtain ⟨f, hf, hs, hby, hmade⟩ := h.made wd' w' s tl hw' htl
    exact ⟨f, hf, hs, h.lookup_insert ht hby, hmade⟩

/-- Afterwards the spelling is known. -/
theorem Inv.openDir (h : Inv dir options contents texts files c) {c' : TailControl D}
    (hc : c.openDir dir t = .ok c') :
    Inv dir options contents (if t ∈ texts then texts else texts ++ [t]) files c' := by
  by_cases ht : t ∈ texts
  · obtain ⟨wd, hwd⟩ := (h.known t).mpr ht
    rw [openDir_known hwd] at hc
    cases hc
    rwa [if_pos ht]
  · rw [if_neg ht]
    cases hd : dir t with
    | none =>
      rw [openDir_exits (h.unknown ht) hd] at hc
      cases hc
    | some d =>
      cases hwd : c.inotify.wdOf d with
      | none =>
        rw [openDir_opens (h.unknown ht) hd hwd h.free] at hc
        cases hc
        exact h.opens ht hd hwd
      | some wd =>
        obtain ⟨hpos, w, hw, -⟩ := h.active d wd hwd
        rw [openDir_closes (h.unknown ht) hd hwd hpos hw] at hc
        cases hc
        exact h.closes ht hd hwd

/-! ## Inserting a tail -/

omit [DecidableEq D] in
theorem insertTail_eq {wd : Int} {w : WatchObject} (hby : c.watchesByDir.lookup t = some wd)
    (hw : c.watches.lookup wd = some w) (s : Text) (tl : FileTail) :
    c.insertTail t s tl = if (w.watch.tails.lookup s).isSome then c
      else { c with watches := c.watches.insert wd { w with watch := w.watch.setTail s tl } } := by
  rw [insertTail, hby]
  dsimp only
  rw [hw]

/-- The state with one more tail at the watch `wd`. -/
def inserting (wd : Int) (w : WatchObject) (s : Text) (tl : FileTail) (c : TailControl D) :
    TailControl D :=
  { c with watches := c.watches.insert wd { w with watch := w.watch.setTail s tl } }

section

variable {wd wd' : Int} {w w' : WatchObject} {s : Text} {tl : FileTail}

omit [DecidableEq D] in
theorem inserting_self : (c.inserting wd w s tl).watches.lookup wd
    = some { w with watch := w.watch.setTail s tl } := AList.lookup_insert _

omit [DecidableEq D] in
/-- Every watch stays where it is, with its directory and its tails. -/
theorem inserting_keeps (hw : c.watches.lookup wd = some w) (hnew : w.watch.tails.lookup s = none)
    (hw' : c.watches.lookup wd' = some w') : ∃ w'',
    (c.inserting wd w s tl).watches.lookup wd' = some w'' ∧ w''.dirname = w'.dirname
      ∧ ∀ s' t', w'.watch.tails.lookup s' = some t' → w''.watch.tails.lookup s' = some t' := by
  by_cases hwd : wd' = wd
  · subst hwd
    cases hw.symm.trans hw'
    refine ⟨_, inserting_self, rfl, fun s' t' hs => ?_⟩
    have hne : s' ≠ s := by
      rintro rfl
      cases hnew.symm.trans hs
    exact (AList.lookup_insert_ne hne).trans hs
  · exact ⟨w', (AList.lookup_insert_ne hwd).trans hw', rfl, fun _ _ hs => hs⟩

omit [DecidableEq D] in
/-- There is no other watch, and no other new tail. -/
theorem inserting_back (hw : c.watches.lookup wd = some w)
    (hw' : (c.inserting wd w s tl).watches.lookup wd' = some w') : ∃ w'',
    c.watches.lookup wd' = some w'' ∧ ∀ s' t', w'.watch.tails.lookup s' = some t' →
      w''.watch.tails.lookup s' = some t' ∨ wd' = wd ∧ s' = s ∧ t' = tl := by
  by_cases hwd : wd' = wd
  · subst hwd
    cases inserting_self.symm.trans hw'
    refine ⟨w, hw, fun s' t' hs => ?_⟩
    by_cases hss : s' = s
    · subst hss
      have hlookup : (w.watch.tails.insert s' tl).lookup s' = some t' := hs
      rw [AList.lookup_insert] at hlookup
      exact .inr ⟨rfl, rfl, (Option.some.inj hlookup).symm⟩
    · have hlookup : (w.watch.tails.insert s tl).lookup s' = some t' := hs
      rw [AList.lookup_insert_ne hss] at hlookup
      exact .inl hlookup
  · have hlookup : (c.watches.insert wd _).lookup wd' = some w' := hw'
    rw [AList.lookup_insert_ne hwd] at hlookup
    exact ⟨w', hlookup, fun _ _ hs => .inl hs⟩

/-- The file is the first of its name at the watch. -/
theorem Inv.inserting (h : Inv dir options contents texts files c) {f : Text}
    (hby : c.watchesByDir.lookup (dirname f) = some wd) (hw : c.watches.lookup wd = some w)
    (hnew : w.watch.tails.lookup (shortname f) = none)
    (htl : FileTail.create options true (contents f) = .ok tl) :
    Inv dir options contents texts (files ++ [f]) (c.inserting wd w (shortname f) tl) := by
  refine { h with object := ?_, fresh := ?_, active := ?_, held := ?_, made := ?_ }
  · intro u wd' hu
    obtain ⟨w', d', hw', hdu, hdw'⟩ := h.object u wd' hu
    obtain ⟨w'', hw'', hname, -⟩ := inserting_keeps hw hnew hw'
    exact ⟨w'', d', hw'', hdu, by rw [hname]; exact hdw'⟩
  · intro wd' w' hw'
    obtain ⟨w'', hw'', -⟩ := inserting_back hw hw'
    exact h.fresh wd' w'' hw''
  · intro e wd' he
    obtain ⟨hpos, w', hw', hdw'⟩ := h.active e wd' he
    obtain ⟨w'', hw'', hname, -⟩ := inserting_keeps hw hnew hw'
    exact ⟨hpos, w'', hw'', by rw [hname]; exact hdw'⟩
  · intro g hg
    rcases List.mem_append.mp hg with hg | hg
    · obtain ⟨wd', w', t', hbyg, hw', hs⟩ := h.held g hg
      obtain ⟨w'', hw'', -, htails⟩ := inserting_keeps hw hnew hw'
      exact ⟨wd', w'', t', hbyg, hw'', htails _ _ hs⟩
    · cases List.mem_singleton.mp hg
      exact ⟨wd, _, tl, hby, inserting_self, AList.lookup_insert _⟩
  · intro wd' w' s' t' hw' hs
    obtain ⟨w'', hw'', htails⟩ := inserting_back hw hw'
    rcases htails s' t' hs with hs | ⟨rfl, rfl, rfl⟩
    · obtain ⟨g, hg, hrest⟩ := h.made wd' w'' s' t' hw'' hs
      exact ⟨g, List.mem_append_left _ hg, hrest⟩
    · exact ⟨f, List.mem_append_right _ List.mem_cons_self, rfl, hby, htl⟩

/-- There is a file of that name already. -/
theorem Inv.again (h : Inv dir options contents texts files c) {f : Text}
    (hby : c.watchesByDir.lookup (dirname f) = some wd) (hw : c.watches.lookup wd = some w)
    (hold : w.watch.tails.lookup (shortname f) = some tl) :
    Inv dir options contents texts (files ++ [f]) c := by
  refine { h with held := ?_, made := ?_ }
  · intro g hg
    rcases List.mem_append.mp hg with hg | hg
    · exact h.held g hg
    · cases List.mem_singleton.mp hg
      exact ⟨wd, w, tl, hby, hw, hold⟩
  · intro wd' w' s t' hw' hs
    obtain ⟨g, hg, hrest⟩ := h.made wd' w' s t' hw' hs
    exact ⟨g, List.mem_append_left _ hg, hrest⟩

end

/-- One more file. -/
theorem Inv.insertTail (h : Inv dir options contents texts files c) {f : Text}
    (hf : dirname f ∈ texts) {tl : FileTail}
    (htl : FileTail.create options true (contents f) = .ok tl) :
    Inv dir options contents texts (files ++ [f]) (c.insertTail (dirname f) (shortname f) tl) := by
  obtain ⟨wd, hby⟩ := (h.known (dirname f)).mpr hf
  obtain ⟨w, d, hw, -, hdw⟩ := h.object _ wd hby
  rw [insertTail_eq hby hw]
  cases htails : w.watch.tails.lookup (shortname f) with
  | none => exact h.inserting hby hw htails htl
  | some tl' => exact h.again hby hw htails

/-! ## The loop -/

/-- One round. -/
theorem Inv.addFile {files : List Text} (h : Inv dir options contents (spellings files) files c)
    {f : Text} {c' : TailControl D} (hc : c.addFile dir options contents f = .ok c') :
    Inv dir options contents (spellings (files ++ [f])) (files ++ [f]) c' := by
  obtain ⟨c₁, hopen, hc⟩ := bind_eq_ok.mp hc
  obtain ⟨tl, htl, hc⟩ := bind_eq_ok.mp hc
  cases hc
  have h₁ := h.openDir hopen
  rw [← spellings_concat] at h₁
  have hmem : dirname f ∈ spellings (files ++ [f]) := List.mem_eraseDups.mpr (by simp)
  exact h₁.insertTail hmem htl

/-- The whole loop. -/
theorem foldlM_inv : ∀ (rest : List Text) {files : List Text} {c c' : TailControl D},
    Inv dir options contents (spellings files) files c →
    rest.foldlM (addFile dir options contents) c = .ok c' →
    Inv dir options contents (spellings (files ++ rest)) (files ++ rest) c'
  | [], files, c, c', h, hc => by
      cases hc
      rwa [List.append_nil]
  | f :: rest, files, c, c', h, hc => by
      rw [List.foldlM_cons] at hc
      obtain ⟨c₁, hadd, hc⟩ := bind_eq_ok.mp hc
      have := foldlM_inv rest (h.addFile hadd) hc
      rwa [List.append_assoc] at this

/-- After construction. -/
theorem create_inv {filenames : List Text} {c : TailControl D}
    (hc : create dir options contents filenames = .ok c) :
    Inv dir options contents (spellings filenames) filenames c := by
  have hinit : Inv dir options contents (spellings []) [] _ := Inv.init
  exact foldlM_inv filenames hinit hc

end

/-! ## Every tailed file is watched -/

/-- Two names of the same entry of the same directory. -/
def SameFile (dir : Text → Option D) (f g : Text) : Prop :=
  dir (dirname f) = dir (dirname g) ∧ shortname f = shortname g

/-- The directory of every file has an active watch, and the object under its
descriptor holds a tail of the file. -/
def Watches (dir : Text → Option D) (options : Options) (contents : Text → Contents)
    (filenames : List Text) (c : TailControl D) : Prop :=
  ∀ f ∈ filenames, ∃ d wd w t, dir (dirname f) = some d ∧ c.inotify.wdOf d = some wd
    ∧ c.watches.lookup wd = some w ∧ w.watch.tails.lookup (shortname f) = some t
    ∧ ∃ g ∈ filenames, SameFile dir g f ∧ FileTail.create options true (contents g) = .ok t

/-- The directory is spelled in an odd number of ways, and each of its files
is also given under the spelling that appears last. -/
def LastSpellingHasAll (dir : Text → Option D) (filenames : List Text) (d : D) : Prop :=
  (spelt dir d (spellings filenames)).length % 2 = 1
    ∧ ∀ f ∈ filenames, dir (dirname f) = some d → ∃ g ∈ filenames,
      (spelt dir d (spellings filenames)).getLast? = some (dirname g) ∧ shortname g = shortname f

section

variable {dir : Text → Option D} {options : Options} {contents : Text → Contents}
  {filenames : List Text} {c : TailControl D} {d : D}

/-- Construction only comes to its end if the directories are there. -/
theorem Inv.dir_some {texts files : List Text} (h : Inv dir options contents texts files c)
    {f : Text} (hf : f ∈ files) : ∃ d, dir (dirname f) = some d := by
  obtain ⟨wd, w, t, hby, -, -⟩ := h.held f hf
  obtain ⟨w', d, -, hd, -⟩ := h.object _ wd hby
  exact ⟨d, hd⟩

/-- After construction every tailed file is watched exactly if this holds of
the directory of every file. -/
theorem watches_iff (dir : Text → Option D) (options : Options) (contents : Text → Contents)
    (filenames : List Text) (c : TailControl D)
    (hc : create dir options contents filenames = .ok c) :
    Watches dir options contents filenames c
      ↔ ∀ f ∈ filenames, ∀ d, dir (dirname f) = some d → LastSpellingHasAll dir filenames d := by
  have h := create_inv hc
  constructor
  · intro hall f hf d hd
    obtain ⟨d', wd, w, t, hd', hwd, hw, ht, -⟩ := hall f hf
    cases hd.symm.trans hd'
    obtain ⟨hodd, hlast⟩ := h.opened d wd hwd
    refine ⟨hodd, fun f' hf' hdf' => ?_⟩
    obtain ⟨d', wd', w', t', hd', hwd', hw', ht', -⟩ := hall f' hf'
    cases hdf'.symm.trans hd'
    cases hwd.symm.trans hwd'
    obtain ⟨g, hg, hs, hby, -⟩ := h.made wd w' _ t' hw' ht'
    exact ⟨g, hg, (hlast _).mp hby, hs⟩
  · intro hall f hf
    obtain ⟨d, hd⟩ := h.dir_some hf
    obtain ⟨hodd, hfiles⟩ := hall f hf d hd
    obtain ⟨g, hg, hlast, hs⟩ := hfiles f hf hd
    cases hwd : c.inotify.wdOf d with
    | none =>
      have heven := h.closed d hwd
      omega
    | some wd =>
      have hby := ((h.opened d wd hwd).2 (dirname g)).mpr hlast
      obtain ⟨wd', w, t, hby', hw, ht⟩ := h.held g hg
      cases hby.symm.trans hby'
      obtain ⟨g', hg', hs', hby'', hmade⟩ := h.made wd w _ t hw ht
      have hdir : dir (dirname g') = some d :=
        (mem_spelt_of_last (((h.opened d wd hwd).2 _).mp hby'')).2
      refine ⟨d, wd, w, t, hd, hwd, hw, hs ▸ ht, g', hg', ?_, hmade⟩
      exact ⟨hdir.trans hd.symm, hs'.trans hs⟩

/-- One directory, under the names `d` and `d/`. -/
def oneDir (t : Text) : Option Unit :=
  if t = ascii ['d'] ∨ t = ascii ['d', '/'] then some () else none

/-- Two files under one spelling. -/
theorem watches_iff_plain : ∃ c,
    create oneDir ⟨true, fun _ => true⟩ (fun _ => emptyFile false)
      [ascii ['d', '/', 'x'], ascii ['d', '/', 'y']] = .ok c
    ∧ (Watches oneDir ⟨true, fun _ => true⟩ (fun _ => emptyFile false)
        [ascii ['d', '/', 'x'], ascii ['d', '/', 'y']] c
      ↔ ∀ f ∈ [ascii ['d', '/', 'x'], ascii ['d', '/', 'y']], ∀ d, oneDir (dirname f) = some d →
        LastSpellingHasAll oneDir [ascii ['d', '/', 'x'], ascii ['d', '/', 'y']] d) :=
  ⟨_, rfl, watches_iff _ _ _ _ _ rfl⟩

/-- The second spelling ends the watch of the first. -/
theorem second_spelling_unwatches : ∃ c,
    create oneDir ⟨true, fun _ => true⟩ (fun _ => emptyFile false)
      [ascii ['d', '/', 'x'], ascii ['d', '/', '/', 'y']] = .ok c
    ∧ c.inotify.wdOf () = none
    ∧ ¬ Watches oneDir ⟨true, fun _ => true⟩ (fun _ => emptyFile false)
      [ascii ['d', '/', 'x'], ascii ['d', '/', '/', 'y']] c := by
  refine ⟨_, rfl, rfl, fun h => ?_⟩
  obtain ⟨d, wd, w, t, -, hwd, -⟩ := h _ List.mem_cons_self
  cases hwd

end

end QuickTrace.TailControl
