/-
QuickTrace.Tail.TailControl — which directories are watched.

The constructor of `TailControl` keeps its `Watch` objects twice: under the
watch descriptor, which is the same for two spellings of a directory, and
under the spelling. A `Watch` that is not needed is destroyed, and its
destructor removes the descriptor. `Inotify` is what the kernel keeps;
`dir` says which directory a spelling denotes, `none` being one that cannot
be watched, and `contents` what each file shows.

`Inv` is the invariant of the loop: the spellings seen so far, in their order
of appearance, decide which directories are watched.
-/
import QuickTrace.Tail.Watch

namespace QuickTrace

open QuickTrace.Lib

/-! ## inotify -/

/-- What an inotify instance watches, each directory under its descriptor;
`next` is the descriptor it gives out next. -/
structure Inotify (D : Type) where
  wdOf : D → Option Int
  next : Int

namespace Inotify

variable {D : Type} [DecidableEq D]

/-- `inotify_init1`. -/
def init1 : Inotify D := ⟨fun _ => none, 1⟩

/-- `inotify_add_watch`: a directory that is watched keeps its descriptor. -/
def addWatch (d : D) (s : Inotify D) : Int × Inotify D :=
  match s.wdOf d with
  | some wd => (wd, s)
  | none => (s.next, ⟨Function.update s.wdOf d (some s.next), s.next + 1⟩)

/-- `inotify_rm_watch`. -/
def rmWatch (wd : Int) (s : Inotify D) : Inotify D :=
  { s with wdOf := fun d => if s.wdOf d = some wd then none else s.wdOf d }

end Inotify

/-! ## The object Watch -/

/-- The members of `Watch` that construction looks at. -/
structure WatchObject where
  dirname : Text
  wd : Int
  watch : Watch

namespace WatchObject

variable {D : Type} [DecidableEq D]

/-- The constructor. -/
def create (dir : Text → Option D) (dirname : Text) (s : Inotify D) :
    Except Stop (WatchObject × Inotify D) :=
  match dir dirname with
  | none => .error .exit
  | some d =>
    let r := s.addWatch d
    .ok (⟨dirname, r.1, ⟨⟨true, true, false⟩, ∅⟩⟩, r.2)

/-- The move constructor: the new object and what is left of the old one. -/
def move (rhs : WatchObject) : WatchObject × WatchObject :=
  (rhs, { rhs with dirname := [], wd := -1, watch := { rhs.watch with tails := ∅ } })

/-- The destructor. -/
def destroy (w : WatchObject) (s : Inotify D) : Inotify D :=
  if 0 ≤ w.wd then s.rmWatch w.wd else s

end WatchObject

/-! ## Construction -/

/-- `inotify_init1`'s instance, `watches_`, and the local `watchesByDir` of
the constructor with the key in `watches_` for each pointer. -/
structure TailControl (D : Type) where
  inotify : Inotify D
  watches : AList fun _ : Int => WatchObject
  watchesByDir : AList fun _ : Text => Int

namespace TailControl

/-- What stands behind the last slash. -/
def shortname (filename : Text) : Text := (filename.reverse.takeWhile (· != 47)).reverse

/-- What stands in front of the last slash, or the current directory. -/
def dirname (filename : Text) : Text :=
  if filename.contains 47 then filename.take (filename.length - (shortname filename).length - 1)
  else ascii ['.']

variable {D : Type} [DecidableEq D]

/-- `watches_.insert( std::make_pair( wd, std::move( watch ) ) )`, and the
end of the pair and of `watch`. The pair keeps the watch if there is one
under the descriptor already. -/
def insertWatch (wd : Int) (watch : WatchObject) (c : TailControl D) : TailControl D :=
  let pair := watch.move.1
  let watch := watch.move.2
  match c.watches.lookup wd with
  | none =>
    let node := pair.move.1
    let pair := pair.move.2
    { c with
      watches := c.watches.insert wd node
      inotify := watch.destroy (pair.destroy c.inotify) }
  | some _ => { c with inotify := watch.destroy (pair.destroy c.inotify) }

/-- The watch for a directory that is not known by this spelling. -/
def openDir (dir : Text → Option D) (dirname : Text) (c : TailControl D) :
    Except Stop (TailControl D) :=
  if (c.watchesByDir.lookup dirname).isSome then .ok c
  else do
    let r ← WatchObject.create dir dirname c.inotify
    let c := { c with inotify := r.2 }.insertWatch r.1.wd r.1
    .ok { c with watchesByDir := c.watchesByDir.insert dirname r.1.wd }

/-- `tails().insert` at the watch of a directory; a tail that is there
already stays. -/
def insertTail (dirname shortname : Text) (t : FileTail) (c : TailControl D) : TailControl D :=
  match c.watchesByDir.lookup dirname with
  -- `openDir` comes first, so there is an entry
  | none => c
  | some wd =>
    match c.watches.lookup wd with
    | none => c
    | some w =>
      if (w.watch.tails.lookup shortname).isSome then c
      else
        { c with watches :=
            c.watches.insert wd { w with watch := w.watch.setTail shortname t } }

/-- One round of the loop over the file names. -/
def addFile (dir : Text → Option D) (options : Options) (contents : Text → Contents)
    (c : TailControl D) (filename : Text) : Except Stop (TailControl D) := do
  let c ← c.openDir dir (dirname filename)
  let t ← FileTail.create options true (contents filename)
  .ok (c.insertTail (dirname filename) (shortname filename) t)

/-- The constructor. -/
def create (dir : Text → Option D) (options : Options) (contents : Text → Contents)
    (filenames : List Text) : Except Stop (TailControl D) :=
  filenames.foldlM (addFile dir options contents) ⟨Inotify.init1, ∅, ∅⟩

example : (dirname (ascii ['a', '/', 'b', '/', 'c']), shortname (ascii ['a', '/', 'b', '/', 'c']))
    = (ascii ['a', '/', 'b'], ascii ['c']) := by decide

example : (dirname (ascii ['c']), shortname (ascii ['c'])) = (ascii ['.'], ascii ['c']) := by decide

end TailControl

end QuickTrace
