import NochOS.Aes.RoundTrip
import NochOS.Library.BinaryPoly
import Mathlib.Algebra.Field.ZMod
import Mathlib.Tactic.ComputeDegree

/-!
# AES - bytes as elements of a field

The bytes of the cipher are the residues of polynomials over the field of two elements
modulo `x^8 + x^4 + x^3 + x + 1`.  That this modulus is irreducible, and what the inverse
of a byte is, is read off the substitution table: the affine map taken away, each entry is
the inverse of its index.

Main results:

- Theorem `irreducible_aesPoly`: the residues are a field.
- Definition `byteEquiv`: a byte is one element of the field.
- Theorem `toField_xtimes`: `GF_HELPER` is multiplication by `x`.
- Theorem `toField_aesSbox`: the table is the affine map of the inverse.
-/

namespace NochOS
namespace Aes

open Library Polynomial

noncomputable section

/-! ## The modulus -/

/-- The modulus of the field. -/
def aesPoly : (ZMod 2)[X] := X ^ 8 + X ^ 4 + X ^ 3 + X + 1

theorem natDegree_aesPoly : aesPoly.natDegree = 8 := by
  unfold aesPoly
  compute_degree!

theorem aesPoly_monic : aesPoly.Monic := by
  unfold aesPoly
  monicity!

/-- The constant of `GF_HELPER` is the low part of the modulus. -/
theorem aesPoly_eq : aesPoly = X ^ (7 + 1) + wordPoly (7 + 1) 0x1B := by
  simp [aesPoly, wordPoly, Finset.sum_range_succ, bitCoeff, Nat.testBit]
  ring

/-- The residues of the polynomials. -/
abbrev GF := AdjoinRoot aesPoly

/-- The element that a byte stands for. -/
def toField (b : UInt8) : GF := residue aesPoly 8 b.toNat

/-- The element `x`. -/
def gfX : GF := AdjoinRoot.root aesPoly

theorem toField_xor (a b : UInt8) : toField (a ^^^ b) = toField a + toField b := by
  unfold toField
  rw [UInt8.toNat_xor, residue_xor]

theorem toField_injective : Function.Injective toField := by
  intro a b h
  exact UInt8.toNat_inj.mp (residue_injOn aesPoly_monic natDegree_aesPoly a.toNat_lt b.toNat_lt h)

theorem toField_surjective : Function.Surjective toField := by
  intro a
  obtain ⟨n, hn, hres⟩ := exists_residue aesPoly_monic natDegree_aesPoly a
  refine ⟨UInt8.ofNat n, ?_⟩
  unfold toField
  rw [UInt8.toNat_ofNat', Nat.mod_eq_of_lt hn, hres]

/-- A byte is one element of the field. -/
def byteEquiv : UInt8 ≃ GF := Equiv.ofBijective toField ⟨toField_injective, toField_surjective⟩

/-- `GF_HELPER` is multiplication by `x`. -/
theorem toField_xtimes (b : UInt8) : toField (xtimes b) = gfX * toField b := by
  unfold toField xtimes gfX
  rw [UInt8.toNat_ofNat', residue_mod, gfHelper_eq]
  exact residue_xtime aesPoly_eq b.toNat

theorem toField_zero : toField 0 = 0 := by
  have h := toField_xor 0 0
  rw [UInt8.xor_self] at h
  exact left_eq_add.mp h

theorem toField_one : toField 1 = 1 := by
  unfold toField residue
  simp [wordPoly, Finset.sum_range_succ, bitCoeff, Nat.testBit]

/-! ## Products of bytes -/

end

/-- A byte times a power of `x`. -/
def timesPower (a : UInt8) : Nat → UInt8
  | 0 => a
  | k + 1 => xtimes (timesPower a k)

/-- A byte times the low bits of another. -/
def timesLow (a b : UInt8) : Nat → UInt8
  | 0 => 0
  | k + 1 => timesLow a b k ^^^ (if b.toNat.testBit k then timesPower a k else 0)

/-- The product of two bytes. -/
def times (a b : UInt8) : UInt8 := timesLow a b 8

theorem toField_timesPower (a : UInt8) (k : Nat) :
    toField (timesPower a k) = gfX ^ k * toField a := by
  induction k with
  | zero => rw [timesPower, pow_zero, one_mul]
  | succ k ih =>
      rw [timesPower, toField_xtimes, ih]
      ring

theorem toField_timesLow (a b : UInt8) (k : Nat) :
    toField (timesLow a b k) = toField a * AdjoinRoot.mk aesPoly (wordPoly k b.toNat) := by
  induction k with
  | zero =>
      rw [timesLow, toField_zero, wordPoly, Finset.sum_range_zero, map_zero, mul_zero]
  | succ k ih =>
      have hsplit : wordPoly (k + 1) b.toNat =
          wordPoly k b.toNat + C (bitCoeff (b.toNat.testBit k)) * X ^ k :=
        Finset.sum_range_succ _ k
      have hroot : AdjoinRoot.mk aesPoly X = gfX := AdjoinRoot.mk_X
      have hterm : toField (if b.toNat.testBit k then timesPower a k else 0) =
          toField a * (AdjoinRoot.mk aesPoly (C (bitCoeff (b.toNat.testBit k))) * gfX ^ k) := by
        cases b.toNat.testBit k with
        | true =>
            rw [if_pos rfl, toField_timesPower, bitCoeff, if_pos rfl, C_1, map_one, one_mul,
              mul_comm]
        | false =>
            rw [if_neg Bool.false_ne_true, toField_zero, bitCoeff, if_neg Bool.false_ne_true, C_0,
              map_zero, zero_mul, mul_zero]
      rw [timesLow, toField_xor, ih, hterm, hsplit, map_add, map_mul, map_pow, hroot, mul_add]

/-- The product of bytes is the product of the field. -/
theorem toField_times (a b : UInt8) : toField (times a b) = toField a * toField b :=
  toField_timesLow a b 8

/-! ## Inverses -/

/-- The bits of a byte moved up by `k`, around the end. -/
def rotateLeft (b k : UInt8) : UInt8 := (b <<< k) ||| (b >>> (8 - k))

/-- The linear part of the affine map, on bytes. -/
def linearByte (b : UInt8) : UInt8 :=
  b ^^^ rotateLeft b 1 ^^^ rotateLeft b 2 ^^^ rotateLeft b 3 ^^^ rotateLeft b 4

/-- The inverse of the affine map, on bytes. -/
def unaffineByte (b : UInt8) : UInt8 :=
  rotateLeft b 1 ^^^ rotateLeft b 3 ^^^ rotateLeft b 6 ^^^ 0x05

/-- The table with the affine map taken away. -/
def inverseByte (b : UInt8) : UInt8 := unaffineByte (aesSbox b)

theorem inverseByte_zero : inverseByte 0 = 0 := by
  decide

/-- Away from zero it is the inverse. -/
theorem times_inverseByte (b : UInt8) : b ≠ 0 → times b (inverseByte b) = 1 :=
  forall_byte (p := fun b => b ≠ 0 → times b (inverseByte b) = 1) (by decide +kernel) b

/-- The modulus is irreducible, so that the residues are a field. -/
theorem irreducible_aesPoly : Irreducible aesPoly := by
  apply irreducible_of_inverses aesPoly_monic.ne_zero
  · intro h
    rw [← toField_one, ← toField_zero] at h
    exact absurd (toField_injective h) (by decide)
  · intro a ha
    obtain ⟨b, rfl⟩ := toField_surjective a
    have hb : b ≠ 0 := by
      rintro rfl
      exact ha toField_zero
    exact ⟨toField (inverseByte b), by rw [← toField_times, times_inverseByte b hb, toField_one]⟩

instance : Fact (Irreducible aesPoly) := ⟨irreducible_aesPoly⟩

theorem toField_inverseByte (b : UInt8) : toField (inverseByte b) = (toField b)⁻¹ := by
  by_cases hb : b = 0
  · rw [hb, inverseByte_zero, toField_zero, inv_zero]
  · apply eq_inv_of_mul_eq_one_right
    rw [← toField_times, times_inverseByte b hb, toField_one]

/-! ## The affine map -/

noncomputable section

/-- The coefficient of a power of `x` in an element. -/
def coordinate (a : GF) (i : Nat) : ZMod 2 := (AdjoinRoot.modByMonicHom aesPoly_monic a).coeff i

/-- The affine map on the coordinates: each is added to the ones 4 to 7 places on, around
the end, and those of the constant `x^6 + x^5 + x + 1`. -/
def affine (a : GF) : GF :=
  AdjoinRoot.mk aesPoly (∑ i ∈ Finset.range 8,
      C (coordinate a i + coordinate a ((i + 4) % 8) + coordinate a ((i + 5) % 8) +
        coordinate a ((i + 6) % 8) + coordinate a ((i + 7) % 8)) * X ^ i) +
    (gfX ^ 6 + gfX ^ 5 + gfX + 1)

/-- The substitution: the affine map of the inverse, where zero is its own inverse. -/
def subByte (a : GF) : GF := affine a⁻¹

/-- The coordinates of a byte are its bits. -/
theorem coordinate_toField (b : UInt8) {i : Nat} (hi : i < 8) :
    coordinate (toField b) i = bitCoeff (b.toNat.testBit i) := by
  unfold coordinate toField
  rw [modByMonicHom_residue aesPoly_monic natDegree_aesPoly, coeff_wordPoly, if_pos hi]

/-- The bits of the linear part. -/
theorem testBit_linearByte (b : UInt8) : ∀ i < 8, (linearByte b).toNat.testBit i =
    (b.toNat.testBit i ^^ b.toNat.testBit ((i + 4) % 8) ^^ b.toNat.testBit ((i + 5) % 8) ^^
      b.toNat.testBit ((i + 6) % 8) ^^ b.toNat.testBit ((i + 7) % 8)) :=
  forall_byte (p := fun b => ∀ i < 8, (linearByte b).toNat.testBit i =
    (b.toNat.testBit i ^^ b.toNat.testBit ((i + 4) % 8) ^^ b.toNat.testBit ((i + 5) % 8) ^^
      b.toNat.testBit ((i + 6) % 8) ^^ b.toNat.testBit ((i + 7) % 8))) (by decide +kernel) b

theorem linearByte_unaffineByte (b : UInt8) : linearByte (unaffineByte b) = b ^^^ 0x63 :=
  forall_byte (p := fun b => linearByte (unaffineByte b) = b ^^^ 0x63) (by decide +kernel) b

theorem toField_constant : toField 0x63 = gfX ^ 6 + gfX ^ 5 + gfX + 1 := by
  unfold toField residue
  simp [wordPoly, Finset.sum_range_succ, bitCoeff, Nat.testBit, gfX]
  ring

/-- The linear part on bytes is the one on the coordinates. -/
theorem wordPoly_linearByte (b : UInt8) :
    wordPoly 8 (linearByte b).toNat = ∑ i ∈ Finset.range 8,
      C (coordinate (toField b) i + coordinate (toField b) ((i + 4) % 8) +
        coordinate (toField b) ((i + 5) % 8) + coordinate (toField b) ((i + 6) % 8) +
        coordinate (toField b) ((i + 7) % 8)) * X ^ i := by
  apply Finset.sum_congr rfl
  intro i hi
  have hlt : i < 8 := Finset.mem_range.mp hi
  rw [testBit_linearByte b i hlt, bitCoeff_xor, bitCoeff_xor, bitCoeff_xor, bitCoeff_xor,
    coordinate_toField _ hlt, coordinate_toField _ (Nat.mod_lt _ (by decide)),
    coordinate_toField _ (Nat.mod_lt _ (by decide)),
    coordinate_toField _ (Nat.mod_lt _ (by decide)),
    coordinate_toField _ (Nat.mod_lt _ (by decide))]

/-- The table is the affine map of the inverse. -/
theorem toField_aesSbox (b : UInt8) : toField (aesSbox b) = subByte (toField b) := by
  have hsplit : aesSbox b = linearByte (inverseByte b) ^^^ 0x63 := by
    rw [inverseByte, linearByte_unaffineByte, UInt8.xor_assoc, UInt8.xor_self, UInt8.xor_zero]
  have hlinear : toField (linearByte (inverseByte b)) =
      AdjoinRoot.mk aesPoly (wordPoly 8 (linearByte (inverseByte b)).toNat) := rfl
  rw [hsplit, toField_xor, toField_constant, hlinear, wordPoly_linearByte, toField_inverseByte,
    subByte, affine]

end

end Aes
end NochOS
