import Mathlib.Data.Set.Lattice
import Mathlib.Order.CompletePartialOrder

/-!
# Library - Requests for blocks of places

A set of occupied places serves two kinds of requests: a block is taken if all of it is free,
and a block is given back.  Requests for blocks that have no place in common do not see each
other.

Main results:

- Theorem `serve_take_give`: giving back what was taken restores the set.
- Theorem `granted_serve`: a request is granted before another one if it is granted after it.
- Theorem `serve_comm`: the order of the two does not matter.
-/

namespace NochOS
namespace Library

variable {α : Type*}

/-- A request for a block of places. -/
inductive Request (α : Type*)
  | take (block : Set α)
  | give (block : Set α)

namespace Request

/-- The block that a request is about. -/
def block : Request α → Set α
  | take r => r
  | give r => r

/-- A block is taken only where it is free. -/
def Granted : Request α → Set α → Prop
  | take r, s => Disjoint r s
  | give _, _ => True

open Classical in
/-- The occupied places after a request. -/
noncomputable def serve : Request α → Set α → Set α
  | take r, s => if Disjoint r s then s ∪ r else s
  | give r, s => s \ r

/-- A free block is taken. -/
theorem serve_take {r s : Set α} (h : Disjoint r s) : (take r).serve s = s ∪ r := by
  simp only [serve, if_pos h]

/-- A block with an occupied place is not taken. -/
theorem serve_take_of_not {r s : Set α} (h : ¬ Disjoint r s) : (take r).serve s = s := by
  simp only [serve, if_neg h]

/-- A request outside a block leaves the block as it is. -/
theorem mem_serve {q : Request α} {s : Set α} {x : α} (hx : x ∉ q.block) :
    x ∈ q.serve s ↔ x ∈ s := by
  cases q with
  | take r =>
      by_cases hfree : Disjoint r s
      · rw [serve_take hfree]
        exact or_iff_left hx
      · rw [serve_take_of_not hfree]
  | give r => exact and_iff_left hx

/-- A request outside a block does not decide whether the block is free. -/
theorem disjoint_serve {q : Request α} {r s : Set α} (h : Disjoint r q.block) :
    Disjoint r (q.serve s) ↔ Disjoint r s := by
  rw [Set.disjoint_left, Set.disjoint_left]
  apply forall₂_congr
  intro x hx
  rw [mem_serve (Set.disjoint_left.mp h hx)]

/-- A request is granted after a request for other places exactly when it is granted before. -/
theorem granted_serve {q q' : Request α} {s : Set α} (h : Disjoint q.block q'.block) :
    q.Granted (q'.serve s) ↔ q.Granted s := by
  cases q with
  | take r => exact disjoint_serve h
  | give r => rfl

/-- What a request does to a place of its block depends only on whether it is granted. -/
theorem mem_serve_of_mem {q : Request α} {s s' : Set α} {x : α} (hx : x ∈ q.block)
    (hs : x ∈ s ↔ x ∈ s') (hgranted : q.Granted s ↔ q.Granted s') :
    x ∈ q.serve s ↔ x ∈ q.serve s' := by
  cases q with
  | take r =>
      by_cases hfree : Disjoint r s
      · rw [serve_take hfree, serve_take (hgranted.mp hfree)]
        exact or_congr hs Iff.rfl
      · rw [serve_take_of_not hfree, serve_take_of_not fun h => hfree (hgranted.mpr h)]
        exact hs
  | give r => exact iff_of_false (fun hmem => hmem.2 hx) fun hmem => hmem.2 hx

/-- Requests for blocks without a common place commute. -/
theorem serve_comm {q q' : Request α} (h : Disjoint q.block q'.block) (s : Set α) :
    q.serve (q'.serve s) = q'.serve (q.serve s) := by
  ext x
  by_cases hx : x ∈ q.block
  · have hx' : x ∉ q'.block := Set.disjoint_left.mp h hx
    rw [mem_serve hx']
    exact mem_serve_of_mem hx (mem_serve hx') (granted_serve h)
  · rw [mem_serve hx]
    by_cases hx' : x ∈ q'.block
    · exact mem_serve_of_mem hx' (mem_serve hx).symm (granted_serve h.symm).symm
    · rw [mem_serve hx', mem_serve hx', mem_serve hx]

/-- Giving back a block that was taken restores the set. -/
theorem serve_take_give {r s : Set α} (h : Disjoint r s) :
    (give r).serve ((take r).serve s) = s := by
  rw [serve_take h]
  show (s ∪ r) \ r = s
  rw [Set.union_sdiff_right]
  exact h.symm.sdiff_eq_left

end Request

end Library
end NochOS
