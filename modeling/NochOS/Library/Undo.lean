import Mathlib.Logic.Function.Basic
import Mathlib.Tactic.Common

/-!
# Library - Undoing a sequence of stages

A pipeline applies one stage after another to a value.  Running the inverse
stages in the opposite order brings the value back.  The module states this for
the left fold of a list of stages, whatever the stages are indexed by.

Main result:

- Theorem `leftInverse_foldl`: the fold of the inverse stages over the reversed
  list is a left inverse of the fold of the stages.
-/

namespace NochOS
namespace Library

variable {α ι : Type*}

/-- The inverse stages, taken in the opposite order, undo the stages. -/
theorem leftInverse_foldl {f g : α → ι → α}
    (hinv : ∀ i, Function.LeftInverse (fun x => g x i) (fun x => f x i)) (l : List ι) :
    Function.LeftInverse (fun x => l.reverse.foldl g x) (fun x => l.foldl f x) := by
  intro x
  induction l generalizing x with
  | nil => rfl
  | cons i l ih =>
      simp only [List.foldl_cons, List.reverse_cons, List.foldl_append, List.foldl_nil] at ih ⊢
      rw [ih]
      exact hinv i x

end Library
end NochOS
