import Mathlib.Logic.Function.Basic
import Mathlib.Tactic.Common

/-!
# Library - The slots of a ring

Two parties that go round a ring of slots are described by counters that only grow.  A
window of counters no longer than the ring has a slot of its own for each counter.  This
module states what the slots of a window hold, and how it changes when a slot is written.

Main results:

- Theorem `slot_inj`: the counters of a window have different slots.
- Theorems `Holds.write_last`, `Holds.write_outside`, `Holds.shrink`: how windows grow, are
  left alone and shrink.
-/

namespace NochOS
namespace Library
namespace Slots

variable {σ : Type*} {n lo hi : Nat} {slot : Nat → σ} {P : Nat → σ → Prop}

/-- The counters of a window have different slots. -/
theorem slot_inj {i j : Nat} (hi₁ : lo ≤ i) (hi₂ : i < lo + n) (hj₁ : lo ≤ j) (hj₂ : j < lo + n)
    (h : i % n = j % n) : i = j := by
  have hn : 0 < n := by omega
  -- the distance is a multiple of the length of the ring, and shorter than it
  have hdvd : ∀ {a b : Nat}, a ≤ b → b < a + n → a % n = b % n → a = b := by
    intro a b hab hlt hmod
    have hzero : (b - a) % n = 0 := Nat.sub_mod_eq_zero_of_mod_eq hmod.symm
    rw [Nat.mod_eq_of_lt (by omega)] at hzero
    omega
  rcases Nat.le_total i j with hij | hij
  · exact hdvd hij (by omega) h
  · exact (hdvd hij (by omega) h.symm).symm

/-- The slots of a window of counters have a property. -/
def Holds (n : Nat) (slot : Nat → σ) (lo hi : Nat) (P : Nat → σ → Prop) : Prop :=
  ∀ k, lo ≤ k → k < hi → P k (slot (k % n))

/-- A smaller window. -/
theorem Holds.shrink (h : Holds n slot lo hi P) {lo' hi' : Nat} (hlo : lo ≤ lo') (hhi : hi' ≤ hi) :
    Holds n slot lo' hi' P :=
  fun k h₁ h₂ => h k (Nat.le_trans hlo h₁) (Nat.lt_of_lt_of_le h₂ hhi)

/-- A write to a slot outside of the window. -/
theorem Holds.write_outside (h : Holds n slot lo hi P) {j : Nat} (hj : hi ≤ j ∨ j < lo)
    (hfar : j < lo + n) (hnear : hi ≤ j + n) (x : σ) :
    Holds n (Function.update slot (j % n) x) lo hi P := by
  intro k h₁ h₂
  have hne : k % n ≠ j % n := by
    intro hmod
    rcases hj with hj | hj
    · have hkj : k = j := slot_inj h₁ (by omega) (by omega) hfar hmod
      omega
    · have hkj : k = j := slot_inj (by omega) (by omega) (Nat.le_refl j) (by omega) hmod
      omega
  rw [Function.update_of_ne hne]
  exact h k h₁ h₂

/-- A write to the slot after the window, which then belongs to it. -/
theorem Holds.write_last (h : Holds n slot lo hi P) (hroom : hi < lo + n) {x : σ} (hx : P hi x) :
    Holds n (Function.update slot (hi % n) x) lo (hi + 1) P := by
  intro k h₁ h₂
  by_cases hk : k = hi
  · subst hk
    rw [Function.update_self]
    exact hx
  · exact h.write_outside (Or.inl (Nat.le_refl _)) hroom (by omega) x k h₁ (by omega)

end Slots
end Library
end NochOS
