/-
QuickTrace.Lib.Files — a directory and the calls that change it.

A directory gives each name the bytes of its file, or none. A program that
works on a few names of it can be looked at through these names alone:
`applyAll_comp` moves a sequence of calls along an injective naming.
-/
import Mathlib.Logic.Function.Basic

namespace QuickTrace.Lib

/-- The files of a directory. -/
abbrev Files (κ : Type) := κ → Option (List UInt8)

/-- Calls on names: `write` replaces what the file starts with and leaves the
rest of it, `create` truncates it first. -/
inductive FileOp (κ : Type) where
  | rename (src dst : κ)
  | unlink (name : κ)
  | create (name : κ) (bytes : List UInt8)
  | write (name : κ) (bytes : List UInt8)
  deriving DecidableEq

namespace FileOp

variable {κ ι : Type} [DecidableEq κ] [DecidableEq ι]

/-- One call; a name that is not there is not an error. -/
def apply (fs : Files κ) : FileOp κ → Files κ
  | rename src dst =>
    match fs src with
    | none => fs
    | some bytes => Function.update (Function.update fs src none) dst (some bytes)
  | unlink name => Function.update fs name none
  | create name bytes => Function.update fs name (some bytes)
  | write name bytes =>
    Function.update fs name (some (bytes ++ ((fs name).getD []).drop bytes.length))

/-- One call after the other. -/
def applyAll (fs : Files κ) (ops : List (FileOp κ)) : Files κ := ops.foldl apply fs

@[simp] theorem applyAll_nil (fs : Files κ) : applyAll fs [] = fs := rfl

@[simp] theorem applyAll_cons (fs : Files κ) (op : FileOp κ) (ops : List (FileOp κ)) :
    applyAll fs (op :: ops) = applyAll (op.apply fs) ops := rfl

/-- The same call under other names. -/
def map (f : ι → κ) : FileOp ι → FileOp κ
  | rename src dst => rename (f src) (f dst)
  | unlink name => unlink (f name)
  | create name bytes => create (f name) bytes
  | write name bytes => write (f name) bytes

theorem apply_comp {f : ι → κ} (hf : Function.Injective f) (fs : Files κ) (op : FileOp ι) :
    (op.map f).apply fs ∘ f = op.apply (fs ∘ f) := by
  cases op with
  | rename src dst =>
    simp only [map, apply, Function.comp_apply]
    cases fs (f src) with
    | none => rfl
    | some bytes =>
      dsimp only
      rw [Function.update_comp_eq_of_injective _ hf, Function.update_comp_eq_of_injective _ hf]
  | unlink name => exact Function.update_comp_eq_of_injective _ hf _ _
  | create name bytes => exact Function.update_comp_eq_of_injective _ hf _ _
  | write name bytes => exact Function.update_comp_eq_of_injective _ hf _ _

/-- A sequence of calls on names is one on what they stand for. -/
theorem applyAll_comp {f : ι → κ} (hf : Function.Injective f) :
    ∀ (ops : List (FileOp ι)) (fs : Files κ),
      applyAll fs (ops.map (map f)) ∘ f = applyAll (fs ∘ f) ops
  | [], _ => rfl
  | op :: ops, fs => by
      rw [List.map_cons, applyAll_cons, applyAll_cons, applyAll_comp hf ops, apply_comp hf]

end FileOp

end QuickTrace.Lib
