/-
QuickTrace.Tail.Tail — the reader of a file.

`Tail` merges the levels it is asked for: `nextTsc` picks the level with the
smallest pending timestamp and keeps its choice until a message has been
consumed, `tailBuffer` prints it. The file is mapped and initialised, so the
states around opening, deleting and re-creating a file are left out. Each
function reads the file as it is at one moment.
-/
import QuickTrace.Tail.RingBuffer

namespace QuickTrace

open QuickTrace.Lib

/-- A tailed file: the enabled levels, the cached choice of `nextTsc` (the
timestamp and which level), what was printed, and the corruptions that were
reported. -/
structure Tail where
  rbs : List RingBuffer
  next : Option (Nat × Nat)
  out : Output
  corruptions : List CorruptionError

namespace Tail

variable (m : Mem) (msgs : Messages) (tail : Bool)

/-- One round over the levels: the smallest pending timestamp below `best`,
the first level that has it. -/
def minLevel : List RingBuffer → Nat → Nat × Option Nat → Nat × Option Nat
  | [], _, best => best
  | rb :: rbs, i, best =>
    let tsc := rb.nextTsc m
    minLevel rbs (i + 1) (if tsc ≠ 0 ∧ tsc < best.1 then (tsc, some i) else best)

/-- The loop of `nextTsc`: rounds until the minimum is the same twice. -/
def settle (rbs : List RingBuffer) : Nat → Nat → Nat × Option Nat
  | 0, _ => minLevel m rbs 0 (UINT64_MAX, none)
  | fuel + 1, prevMinTsc =>
    let next := minLevel m rbs 0 (UINT64_MAX, none)
    if next.1 = prevMinTsc then next else settle rbs fuel next.1

/-- `nextTsc`; the second round of the loop is the last when the file does
not change meanwhile. -/
def nextTsc (t : Tail) : Tail :=
  match t.next with
  | some _ => t
  | none =>
    let r := settle m t.rbs 1 UINT64_MAX
    { t with next := r.2.map fun i => (r.1, i) }

/-- `tailBuffer`; the first component is its result, and `none` is the exit
after a corruption in cat mode. -/
def tailBuffer (t : Tail) (tsc curTsc bufNum : Nat) : Option (Bool × Tail) :=
  match t.rbs[bufNum]? with
  | none => some (false, t)
  | some rb =>
    match rb.dump m msgs tail tsc curTsc t.out with
    | (.ok (ok, rb'), out) =>
      some (ok, { t with
        rbs := t.rbs.set bufNum rb', out, next := if ok then none else t.next })
    | (.error e, out) =>
      let t := { t with out, corruptions := t.corruptions ++ [e] }
      if tail then
        some (false, { t with rbs := t.rbs.set bufNum (rb.reset.getD rb), next := none })
      else none

/-- `tail`. -/
def tailOnce (t : Tail) (curTsc : Nat) : Option (Bool × Tail) :=
  let t := t.nextTsc m
  match t.next with
  | some (minTsc, bufNum) => t.tailBuffer m msgs tail minTsc curTsc bufNum
  | none => some (false, t)

/-- What the loop of `catOne` comes to. -/
inductive CatResult where
  | done (t : Tail)
  | exit
  | outOfFuel

/-- `catOne`: print until `tail` returns `false`. -/
def catOne : Nat → Tail → CatResult
  | 0, _ => .outOfFuel
  | fuel + 1, t =>
    match t.tailOnce m msgs false UINT64_MAX with
    | none => .exit
    | some (true, t') => catOne fuel t'
    | some (false, t') => .done t'

end Tail

/-- `qttail -c` with some levels selected: rewind each, then print; `none`
when a level cannot be rewound. -/
def cat (m : Mem) (msgs : Messages) (rbs : List RingBuffer) (fuel : Nat) :
    Option Tail.CatResult :=
  (rbs.mapM (RingBuffer.rewind m msgs false)).map fun rbs =>
    Tail.catOne m msgs fuel { rbs, next := none, out := Output.empty, corruptions := [] }

end QuickTrace
