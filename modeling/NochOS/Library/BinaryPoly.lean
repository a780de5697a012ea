import Mathlib.RingTheory.AdjoinRoot
import Mathlib.Data.Nat.Bitwise
import Mathlib.Algebra.Field.ZMod

/-!
# Words as elements of a binary extension

A word of `w` bits stands for a polynomial over the field of two elements, and for a
residue modulo a monic polynomial of degree `w`.  Exclusive or is addition, and a shift
with a conditional exclusive or is multiplication by the root.

Main results:

- Theorems `residue_injOn`, `exists_residue`: each residue is one word.
- Theorems `residue_xor`, `residue_xtime`: the operations on words.
- Theorem `irreducible_of_inverses`: a modulus all of whose nonzero residues have an
  inverse is irreducible.
-/

namespace NochOS
namespace Library

open Polynomial

noncomputable section

/-! ## Words as polynomials -/

/-- The coefficient that a bit stands for. -/
def bitCoeff (b : Bool) : ZMod 2 := if b then 1 else 0

theorem bitCoeff_xor (a b : Bool) : bitCoeff (a ^^ b) = bitCoeff a + bitCoeff b := by
  cases a <;> cases b <;> decide

theorem bitCoeff_injective : Function.Injective bitCoeff := by
  intro a b h
  revert h
  cases a <;> cases b <;> decide

/-- Every coefficient is the one of a bit. -/
theorem bitCoeff_decide (c : ZMod 2) : bitCoeff (decide (c = 1)) = c := by
  revert c
  decide

/-- The polynomial of the low `w` bits of a number. -/
def wordPoly (w n : Nat) : (ZMod 2)[X] :=
  ∑ i ∈ Finset.range w, C (bitCoeff (n.testBit i)) * X ^ i

theorem coeff_wordPoly (w n i : Nat) :
    (wordPoly w n).coeff i = if i < w then bitCoeff (n.testBit i) else 0 := by
  rw [wordPoly, finsetSum_coeff]
  simp only [coeff_C_mul_X_pow, Finset.sum_ite_eq, Finset.mem_range]

/-- Exclusive or is addition. -/
theorem wordPoly_xor (w m n : Nat) : wordPoly w (m ^^^ n) = wordPoly w m + wordPoly w n := by
  ext i
  rw [coeff_add, coeff_wordPoly, coeff_wordPoly, coeff_wordPoly, Nat.testBit_xor, bitCoeff_xor]
  by_cases hi : i < w
  · rw [if_pos hi, if_pos hi, if_pos hi]
  · rw [if_neg hi, if_neg hi, if_neg hi, add_zero]

theorem degree_wordPoly_lt (w n : Nat) : (wordPoly w n).degree < w := by
  rw [degree_lt_iff_coeff_zero]
  intro i hi
  rw [coeff_wordPoly, if_neg (by omega)]

/-- A shift moves every bit one power up; the top bit leaves the word. -/
theorem wordPoly_shiftLeft (w n : Nat) :
    wordPoly (w + 1) (n <<< 1) + C (bitCoeff (n.testBit w)) * X ^ (w + 1) =
      X * wordPoly (w + 1) n := by
  ext i
  rw [coeff_add, coeff_C_mul_X_pow, coeff_wordPoly, Nat.testBit_shiftLeft]
  cases i with
  | zero =>
      rw [coeff_X_mul_zero]
      simp [bitCoeff]
  | succ i =>
      rw [coeff_X_mul, coeff_wordPoly, Nat.add_sub_cancel]
      by_cases htop : i = w
      · subst htop
        simp
      · by_cases hi : i < w
        · rw [if_pos (by omega), if_neg (by omega), if_pos (by omega), add_zero]
          simp
        · rw [if_neg (by omega), if_neg (by omega), if_neg (by omega), add_zero]

/-! ## Words as residues -/

/-- The residue of the low `w` bits of a number. -/
def residue (p : (ZMod 2)[X]) (w n : Nat) : AdjoinRoot p := AdjoinRoot.mk p (wordPoly w n)

variable {p : (ZMod 2)[X]} {w : Nat}

theorem residue_xor (m n : Nat) : residue p w (m ^^^ n) = residue p w m + residue p w n := by
  unfold residue
  rw [wordPoly_xor, map_add]

/-- Only the low bits count. -/
theorem residue_mod (n : Nat) : residue p w (n % 2 ^ w) = residue p w n := by
  have hword : wordPoly w (n % 2 ^ w) = wordPoly w n := by
    ext i
    rw [coeff_wordPoly, coeff_wordPoly, Nat.testBit_mod_two_pow]
    by_cases hi : i < w
    · rw [if_pos hi, if_pos hi, decide_eq_true hi, Bool.true_and]
    · rw [if_neg hi, if_neg hi]
  unfold residue
  rw [hword]

/-- The representative of a residue is the polynomial of its word. -/
theorem modByMonicHom_residue (hp : p.Monic) (hdeg : p.natDegree = w) (n : Nat) :
    AdjoinRoot.modByMonicHom hp (residue p w n) = wordPoly w n := by
  unfold residue
  rw [AdjoinRoot.modByMonicHom_mk, modByMonic_eq_self_iff hp, degree_eq_natDegree hp.ne_zero, hdeg]
  exact degree_wordPoly_lt w n

/-- Different words are different residues. -/
theorem residue_injOn (hp : p.Monic) (hdeg : p.natDegree = w) {m n : Nat} (hm : m < 2 ^ w)
    (hn : n < 2 ^ w) (h : residue p w m = residue p w n) : m = n := by
  have hpoly : wordPoly w m = wordPoly w n := by
    rw [← modByMonicHom_residue hp hdeg, h, modByMonicHom_residue hp hdeg]
  apply Nat.eq_of_testBit_eq
  intro i
  by_cases hi : i < w
  · have hcoeff := congrArg (fun f => f.coeff i) hpoly
    simp only [coeff_wordPoly, if_pos hi] at hcoeff
    exact bitCoeff_injective hcoeff
  · have hle : 2 ^ w ≤ 2 ^ i := Nat.pow_le_pow_right (by decide) (by omega)
    rw [Nat.testBit_lt_two_pow (hm.trans_le hle), Nat.testBit_lt_two_pow (hn.trans_le hle)]

/-- Every residue is a word. -/
theorem exists_residue (hp : p.Monic) (hdeg : p.natDegree = w) (a : AdjoinRoot p) :
    ∃ n < 2 ^ w, residue p w n = a := by
  let f := AdjoinRoot.modByMonicHom hp a
  have hlt : f.degree < w := by
    induction a using AdjoinRoot.induction_on with
    | ih q =>
        have hmod := degree_modByMonic_lt q hp
        rwa [degree_eq_natDegree hp.ne_zero, hdeg] at hmod
  refine ⟨Nat.ofBits fun i : Fin w => decide (f.coeff i = 1), Nat.ofBits_lt_two_pow _, ?_⟩
  have hword : wordPoly w (Nat.ofBits fun i : Fin w => decide (f.coeff i = 1)) = f := by
    ext i
    rw [coeff_wordPoly]
    by_cases hi : i < w
    · rw [if_pos hi, Nat.testBit_ofBits_lt _ _ hi, bitCoeff_decide]
    · have hle : (w : WithBot Nat) ≤ i := by exact_mod_cast Nat.le_of_not_lt hi
      rw [if_neg hi, coeff_eq_zero_of_degree_lt (hlt.trans_le hle)]
  unfold residue
  rw [hword]
  exact AdjoinRoot.mk_leftInverse hp a

/-- A shift that adds the low part of the modulus when the top bit is set is
multiplication by the root. -/
theorem residue_xtime {r : Nat} (hp : p = X ^ (w + 1) + wordPoly (w + 1) r) (n : Nat) :
    residue p (w + 1) ((n <<< 1) ^^^ (if n.testBit w then r else 0)) =
      AdjoinRoot.root p * residue p (w + 1) n := by
  have hzero : wordPoly (w + 1) 0 = 0 := by
    ext i
    rw [coeff_wordPoly, Nat.zero_testBit]
    simp [bitCoeff]
  have hif : wordPoly (w + 1) (if n.testBit w then r else 0) =
      C (bitCoeff (n.testBit w)) * wordPoly (w + 1) r := by
    cases n.testBit w with
    | true => simp [bitCoeff]
    | false => simp [bitCoeff, hzero]
  have hself : C (bitCoeff (n.testBit w)) * p +
      (wordPoly (w + 1) (n <<< 1) + C (bitCoeff (n.testBit w)) * wordPoly (w + 1) r) =
        X * wordPoly (w + 1) n + 2 * (C (bitCoeff (n.testBit w)) * wordPoly (w + 1) r) := by
    rw [← wordPoly_shiftLeft, hp]
    ring
  have htwo : (2 : (ZMod 2)[X]) = 0 := by
    rw [← C_ofNat, show (OfNat.ofNat 2 : ZMod 2) = 0 by decide, C_0]
  have hmk := congrArg (AdjoinRoot.mk p) hself
  rw [htwo, zero_mul, add_zero, map_add, map_mul, AdjoinRoot.mk_self, mul_zero, zero_add, map_mul,
    AdjoinRoot.mk_X] at hmk
  unfold residue
  rw [wordPoly_xor, hif, hmk]

/-! ## Irreducible moduli -/

/-- A modulus all of whose nonzero residues have an inverse is irreducible. -/
theorem irreducible_of_inverses {K : Type*} [Field K] {p : K[X]} (hne : p ≠ 0)
    (hone : (1 : AdjoinRoot p) ≠ 0) (h : ∀ a : AdjoinRoot p, a ≠ 0 → ∃ b, a * b = 1) :
    Irreducible p := by
  constructor
  · intro hunit
    apply hone
    rw [← map_one (AdjoinRoot.mk p), AdjoinRoot.mk_eq_zero]
    exact hunit.dvd
  · intro f g hfg
    have hg : g ≠ 0 := by
      rintro rfl
      exact hne (hfg.trans (mul_zero f))
    by_cases hf : AdjoinRoot.mk p f = 0
    · obtain ⟨q, hq⟩ := AdjoinRoot.mk_eq_zero.mp hf
      have hf0 : f ≠ 0 := by
        rintro rfl
        exact hne (hfg.trans (zero_mul g))
      refine Or.inr (IsUnit.of_mul_eq_one q (mul_left_cancel₀ hf0 ?_))
      rw [mul_one, ← mul_assoc, ← hfg]
      exact hq.symm
    · obtain ⟨b, hb⟩ := h _ hf
      have hzero : AdjoinRoot.mk p g = 0 := by
        calc AdjoinRoot.mk p g = AdjoinRoot.mk p f * b * AdjoinRoot.mk p g := by rw [hb, one_mul]
          _ = AdjoinRoot.mk p (f * g) * b := by rw [map_mul]; ring
          _ = 0 := by rw [← hfg, AdjoinRoot.mk_self, zero_mul]
      obtain ⟨q, hq⟩ := AdjoinRoot.mk_eq_zero.mp hzero
      refine Or.inl (IsUnit.of_mul_eq_one q (mul_right_cancel₀ hg ?_))
      rw [one_mul, mul_right_comm, ← hfg]
      exact hq.symm

end

end Library
end NochOS
