import Mathlib.Logic.Function.Iterate
import Mathlib.Data.Nat.Find
import Mathlib.Tactic.Common
import Mathlib.Tactic.Ring

/-!
# Climbing to a root

A function that names the parent of each node leads from every node of a tree to the
root, which is its own parent.

Main results:

- Theorem `exists_firstOn`: a climb meets a first node with a property.
- Theorem `FirstOn.eq_of_above`: a climb for a node above meets that node.
- Theorem `not_above_parent`: no node but the root is above its parent.
-/

namespace NochOS
namespace Library

variable {α : Type*} {parent : α → α} {p : α → Prop} {root a b : α}

/-- The second node, or a node above it, is the first one. -/
def Above (parent : α → α) (b a : α) : Prop := ∃ k, parent^[k] a = b

/-- The first node with the property on the way up from a node, after `k` steps. -/
structure FirstOn (parent : α → α) (p : α → Prop) (a b : α) (k : Nat) : Prop where
  climbs : parent^[k] a = b
  holds : p b
  before : ∀ i < k, ¬ p (parent^[i] a)

/-- A climb that meets a node with the property meets a first one. -/
theorem exists_firstOn [DecidablePred p] (h : ∃ k, p (parent^[k] a)) :
    ∃ b k, FirstOn parent p a b k :=
  ⟨_, Nat.find h, rfl, Nat.find_spec h, fun _ hi => Nat.find_min h hi⟩

/-- A node with the property is met at once. -/
theorem FirstOn.zero_iff {k : Nat} (h : FirstOn parent p a b k) : k = 0 ↔ p a := by
  constructor
  · intro hk
    have hclimbs := h.climbs
    rw [hk] at hclimbs
    have hab : a = b := hclimbs
    rw [hab]
    exact h.holds
  · intro ha
    by_contra hne
    exact h.before 0 (Nat.pos_of_ne_zero hne) ha

/-- The rest of a climb after its first step. -/
theorem FirstOn.step {k : Nat} (h : FirstOn parent p a b (k + 1)) :
    ¬ p a ∧ FirstOn parent p (parent a) b k := by
  refine ⟨h.before 0 (Nat.succ_pos k), h.climbs, h.holds, fun i hi => ?_⟩
  exact h.before (i + 1) (Nat.succ_lt_succ hi)

/-- A climb to the root or to a node above meets that node. -/
theorem FirstOn.eq_of_above {t : α} {k : Nat} (hroot : parent root = root)
    (h : FirstOn parent (fun n => n = root ∨ n = t) a b k) (habove : Above parent t a) :
    b = t := by
  cases h.holds with
  | inr heq => exact heq
  | inl hbroot =>
      obtain ⟨j, hj⟩ := habove
      by_cases hlt : j < k
      · exact absurd (Or.inr hj) (h.before j hlt)
      · -- the climb stays at the root
        have hsplit : j = (j - k) + k := (Nat.sub_add_cancel (Nat.le_of_not_lt hlt)).symm
        rw [hsplit, Function.iterate_add_apply, h.climbs, hbroot,
          Function.iterate_fixed hroot] at hj
        exact hbroot.trans hj

/-- A node other than the root is not above its parent, when it climbs to the root. -/
theorem not_above_parent (hroot : parent root = root) (hclimbs : ∃ k, parent^[k] a = root)
    (hne : a ≠ root) : ¬ Above parent a (parent a) := by
  intro habove
  obtain ⟨k, hk⟩ := habove
  obtain ⟨n, hn⟩ := hclimbs
  -- the cycle through the node would never come to the root
  have hcycle : parent^[k + 1] a = a := hk
  have hstay : parent^[(k + 1) * n] a = a := by
    rw [Function.iterate_mul]
    exact Function.iterate_fixed hcycle n
  have hsplit : (k + 1) * n = k * n + n := by
    ring
  rw [hsplit, Function.iterate_add_apply, hn, Function.iterate_fixed hroot] at hstay
  exact hne hstay.symm

end Library
end NochOS
