import Mathlib.Data.Finset.Sort
import Mathlib.Data.Nat.ModEq

/-!
# Library - Going round a finite set

The members of a finite set of an ordered type are visited cyclically when each step
goes to the least member above the present one, or to the least of all from the
greatest.  As many steps as the set has members visit each of them once and end where
they began.

Main results:

- Definition `Succeeds`: the cyclic successor.
- Theorem `rotation_full`: a walk of as many steps as there are members.
-/

namespace NochOS
namespace Library

variable {α : Type*} [LinearOrder α] {s : Finset α} {n : Nat}

/-- `q` is the member of `s` that comes next after `p`. -/
def Succeeds (s : Finset α) (p q : α) : Prop :=
  q ∈ s ∧ ((p < q ∧ ∀ r ∈ s, p < r → q ≤ r) ∨ ((∀ r ∈ s, r ≤ p) ∧ ∀ r ∈ s, q ≤ r))

/-- In the increasing enumeration of the set, the successor has the next index. -/
theorem succeeds_orderEmbOfFin (h : s.card = n) {i : Nat} (hi : i < n) {q : α}
    (hq : Succeeds s (s.orderEmbOfFin h ⟨i, hi⟩) q) :
    q = s.orderEmbOfFin h ⟨(i + 1) % n, Nat.mod_lt _ (Nat.zero_lt_of_lt hi)⟩ := by
  obtain ⟨hmem, hnext⟩ := hq
  have hindex : ∃ k : Fin n, q = s.orderEmbOfFin h k := by
    have hrange : q ∈ Set.range (s.orderEmbOfFin h) := by
      rw [Finset.range_orderEmbOfFin]
      exact hmem
    obtain ⟨k, hk⟩ := hrange
    exact ⟨k, hk.symm⟩
  obtain ⟨k, rfl⟩ := hindex
  have hall : ∀ j : Fin n, s.orderEmbOfFin h j ∈ s := s.orderEmbOfFin_mem h
  congr 1
  by_cases hlast : i + 1 < n
  · rw [Fin.ext_iff]
    dsimp only
    rw [Nat.mod_eq_of_lt hlast]
    rcases hnext with ⟨habove, hleast⟩ | ⟨hgreatest, -⟩
    · have hlt : i < k.val := (s.orderEmbOfFin h).lt_iff_lt.mp habove
      have hstep : (⟨i, hi⟩ : Fin n) < ⟨i + 1, hlast⟩ := Nat.lt_succ_self i
      have hle := hleast _ (hall ⟨i + 1, hlast⟩) ((s.orderEmbOfFin h).lt_iff_lt.mpr hstep)
      have hk : k.val ≤ i + 1 := (s.orderEmbOfFin h).le_iff_le.mp hle
      omega
    · have hle := (s.orderEmbOfFin h).le_iff_le.mp (hgreatest _ (hall ⟨i + 1, hlast⟩))
      have hcontra : i + 1 ≤ i := hle
      omega
  · have hend : i + 1 = n := by omega
    rw [Fin.ext_iff]
    dsimp only
    rw [hend, Nat.mod_self]
    rcases hnext with ⟨habove, -⟩ | ⟨-, hleast⟩
    · have hlt : i < k.val := (s.orderEmbOfFin h).lt_iff_lt.mp habove
      have hk := k.isLt
      omega
    · have hle := (s.orderEmbOfFin h).le_iff_le.mp (hleast _ (hall ⟨0, Nat.zero_lt_of_lt hi⟩))
      exact Nat.le_zero.mp hle

/-- The members a walk visits, by their indices. -/
theorem rotation_index (h : s.card = n) {x : Nat → α} {i : Nat} (hi : i < n)
    (hstart : x 0 = s.orderEmbOfFin h ⟨i, hi⟩)
    (hstep : ∀ k < n, Succeeds s (x k) (x (k + 1))) {k : Nat} (hk : k ≤ n) :
    x k = s.orderEmbOfFin h ⟨(i + k) % n, Nat.mod_lt _ (Nat.zero_lt_of_lt hi)⟩ := by
  induction k with
  | zero =>
      rw [hstart]
      congr 1
      rw [Fin.ext_iff]
      exact (Nat.mod_eq_of_lt hi).symm
  | succ k ih =>
      have hnext := hstep k hk
      rw [ih (Nat.le_of_succ_le hk)] at hnext
      rw [succeeds_orderEmbOfFin h _ hnext]
      congr 1
      rw [Fin.ext_iff]
      dsimp only
      rw [Nat.mod_add_mod, Nat.add_assoc]

/-- A walk of as many steps as the set has members visits each member once and ends
where it began. -/
theorem rotation_full (h : s.card = n) {x : Nat → α} (hx : x 0 ∈ s)
    (hstep : ∀ k < n, Succeeds s (x k) (x (k + 1))) :
    x n = x 0 ∧ ∀ p ∈ s, ∃! k, k < n ∧ x (k + 1) = p := by
  have hindex : ∀ p ∈ s, ∃ j : Fin n, s.orderEmbOfFin h j = p := by
    intro p hp
    have hrange : p ∈ Set.range (s.orderEmbOfFin h) := by
      rw [Finset.range_orderEmbOfFin]
      exact hp
    exact hrange
  obtain ⟨⟨i, hi⟩, hstart⟩ := hindex _ hx
  have hwalk : ∀ k ≤ n, x k =
      s.orderEmbOfFin h ⟨(i + k) % n, Nat.mod_lt _ (Nat.zero_lt_of_lt hi)⟩ := fun k hk =>
    rotation_index h hi hstart.symm hstep hk
  constructor
  · rw [hwalk n le_rfl, ← hstart]
    congr 1
    rw [Fin.ext_iff]
    dsimp only
    rw [Nat.add_mod_right, Nat.mod_eq_of_lt hi]
  · intro p hp
    obtain ⟨⟨j, hj⟩, rfl⟩ := hindex p hp
    -- the step that comes to index `j` is the one whose number is `j - i - 1` modulo `n`
    refine ⟨(j + n - i - 1) % n, ⟨Nat.mod_lt _ (Nat.zero_lt_of_lt hi), ?_⟩, ?_⟩
    · rw [hwalk _ (Nat.mod_lt _ (Nat.zero_lt_of_lt hi))]
      congr 1
      rw [Fin.ext_iff]
      dsimp only
      have hshift : i + ((j + n - i - 1) % n + 1) = (j + n - i - 1) % n + (i + 1) := by omega
      have hsum : j + n - i - 1 + (i + 1) = j + n := by omega
      rw [hshift, Nat.mod_add_mod, hsum, Nat.add_mod_right, Nat.mod_eq_of_lt hj]
    · rintro k ⟨hk, heq⟩
      rw [hwalk (k + 1) hk] at heq
      have hval : (i + (k + 1)) % n = j := congrArg Fin.val ((s.orderEmbOfFin h).injective heq)
      have hcongr : Nat.ModEq n (j + n - i - 1) k := by
        apply Nat.ModEq.add_right_cancel' (i + 1)
        have hsum : j + n - i - 1 + (i + 1) = j + n := by omega
        have hshift : k + (i + 1) = i + (k + 1) := by omega
        rw [hsum, hshift]
        unfold Nat.ModEq
        rw [Nat.add_mod_right, Nat.mod_eq_of_lt hj, hval]
      rw [hcongr, Nat.mod_eq_of_lt hk]

end Library
end NochOS
