import NochOS.Aes.Field

/-!
# AES - the two versions of column mixing

`aes.h` has two versions of the column mixing: one multiplies by a matrix, with `XTIME` and
`gf_mul`, the other, under `AES_FAST_CALC`, uses `GF_HELPER` and a few corrections.  This module
embeds the first one and compares the two.

Main results:

- Theorem `Plain.xtime_eq`: `XTIME` and `GF_HELPER` are the same on C integers of any width.
- Theorem `Plain.gfMul_eq`: `gf_mul` adds up the powers of x that its second factor selects.
- Theorem `Plain.toField_gfMul`: by a factor below 32 it multiplies in the field.
- Theorem `mixing_agrees`: both versions leave the same state.
-/

namespace NochOS
namespace Aes

open Library

/-! ## The version without `AES_FAST_CALC` -/

namespace Plain

/-- `XTIME(num)` on a C integer. -/
def xtime (num : Nat) : Nat := (num <<< 1) ^^^ (((num >>> 7) &&& 1) * 0x1B)

/-- `gf_mul`: the sum is a C integer, which the return value cuts. -/
def gfMul (x y : UInt8) : UInt8 :=
  UInt8.ofNat
    ((y.toNat &&& 1) * x.toNat ^^^
      ((y.toNat >>> 1) &&& 1) * xtime x.toNat ^^^
      ((y.toNat >>> 2) &&& 1) * xtime (xtime x.toNat) ^^^
      ((y.toNat >>> 3) &&& 1) * xtime (xtime (xtime x.toNat)) ^^^
      ((y.toNat >>> 4) &&& 1) * xtime (xtime (xtime (xtime x.toNat))))

/-- One pass of the loop of `mix_columns`, from the copy of the column. -/
def mixColumn (t : Column) : Column :=
  let xtimeSum := t.b0 ^^^ t.b1 ^^^ t.b2 ^^^ t.b3
  { b0 := UInt8.ofNat (xtime (t.b0 ^^^ t.b1).toNat ^^^ t.b0.toNat ^^^ xtimeSum.toNat)
    b1 := UInt8.ofNat (xtime (t.b1 ^^^ t.b2).toNat ^^^ t.b1.toNat ^^^ xtimeSum.toNat)
    b2 := UInt8.ofNat (xtime (t.b2 ^^^ t.b3).toNat ^^^ t.b2.toNat ^^^ xtimeSum.toNat)
    b3 := UInt8.ofNat (xtime (t.b3 ^^^ t.b0).toNat ^^^ t.b3.toNat ^^^ xtimeSum.toNat) }

/-- One pass of the loop of `inv_mix_columns`, from the copy of the column. -/
def invMixColumn (t : Column) : Column :=
  { b0 := gfMul t.b0 0x0E ^^^ gfMul t.b1 0x0B ^^^ gfMul t.b2 0x0D ^^^ gfMul t.b3 0x09
    b1 := gfMul t.b0 0x09 ^^^ gfMul t.b1 0x0E ^^^ gfMul t.b2 0x0B ^^^ gfMul t.b3 0x0D
    b2 := gfMul t.b0 0x0D ^^^ gfMul t.b1 0x09 ^^^ gfMul t.b2 0x0E ^^^ gfMul t.b3 0x0B
    b3 := gfMul t.b0 0x0B ^^^ gfMul t.b1 0x0D ^^^ gfMul t.b2 0x09 ^^^ gfMul t.b3 0x0E }

/-- `mix_columns`. -/
def mixColumns (state : Buf) : Buf :=
  (List.range 4).foldl (fun st i => storeColumn st i (mixColumn (column state i))) state

/-- `inv_mix_columns`. -/
def invMixColumns (state : Buf) : Buf :=
  (List.range 4).foldl (fun st i => storeColumn st i (invMixColumn (column state i))) state

/-! ## Multiplication -/

/-- The low bit of a shifted number. -/
theorem shiftRight_and_one (n k : Nat) : (n >>> k) &&& 1 = (n.testBit k).toNat := by
  rw [Nat.and_one_is_mod, Nat.shiftRight_eq_div_pow, Nat.testBit_eq_decide_div_mod_eq]
  have hcases := Nat.mod_two_eq_zero_or_one (n / 2 ^ k)
  rcases hcases with h | h <;> simp [h]

/-- The two macros are the same on all integers, before anything is cut off. -/
theorem xtime_eq (num : Nat) : xtime num = gfHelper num := by
  rw [gfHelper_eq, xtime, shiftRight_and_one]
  cases num.testBit 7 <;> rfl

/-- The low byte of a nested macro is the iterated multiplication of the low byte. -/
theorem ofNat_xtime_iterate (num k : Nat) :
    UInt8.ofNat (xtime^[k] num) = timesPower (UInt8.ofNat num) k := by
  induction k with
  | zero => rfl
  | succ k ih =>
      rw [Function.iterate_succ_apply', xtime_eq, ofNat_gfHelper, ih]
      rfl

/-- One term of `gf_mul`, cut to a byte. -/
theorem ofNat_term (x y : UInt8) (k : Nat) :
    UInt8.ofNat (((y.toNat >>> k) &&& 1) * xtime^[k] x.toNat) =
      if y.toNat.testBit k then timesPower x k else 0 := by
  rw [shiftRight_and_one]
  cases y.toNat.testBit k with
  | false => simp
  | true => simp [ofNat_xtime_iterate]

/-- `gf_mul` is the sum of the powers of x that the low five bits select. -/
theorem gfMul_eq (x y : UInt8) : gfMul x y = timesLow x y 5 := by
  have hterm := ofNat_term x y
  have hzero : UInt8.ofNat ((y.toNat &&& 1) * x.toNat) =
      if y.toNat.testBit 0 then timesPower x 0 else 0 := hterm 0
  have hone : UInt8.ofNat (((y.toNat >>> 1) &&& 1) * xtime x.toNat) =
      if y.toNat.testBit 1 then timesPower x 1 else 0 := hterm 1
  have htwo : UInt8.ofNat (((y.toNat >>> 2) &&& 1) * xtime (xtime x.toNat)) =
      if y.toNat.testBit 2 then timesPower x 2 else 0 := hterm 2
  have hthree : UInt8.ofNat (((y.toNat >>> 3) &&& 1) * xtime (xtime (xtime x.toNat))) =
      if y.toNat.testBit 3 then timesPower x 3 else 0 := hterm 3
  have hfour : UInt8.ofNat (((y.toNat >>> 4) &&& 1) * xtime (xtime (xtime (xtime x.toNat)))) =
      if y.toNat.testBit 4 then timesPower x 4 else 0 := hterm 4
  unfold gfMul
  rw [UInt8.ofNat_xor, UInt8.ofNat_xor, UInt8.ofNat_xor, UInt8.ofNat_xor, hzero, hone, htwo,
    hthree, hfour]
  simp only [timesLow, UInt8.zero_xor]

/-- Bits behind the highest one of the second factor add nothing. -/
theorem timesLow_of_lt (x : UInt8) {y : UInt8} {m : Nat} (hy : y.toNat < 2 ^ m) (n : Nat) :
    timesLow x y (m + n) = timesLow x y m := by
  induction n with
  | zero => rfl
  | succ n ih =>
      have hle : 2 ^ m ≤ 2 ^ (m + n) := Nat.pow_le_pow_right (by decide) (by omega)
      have hbit : y.toNat.testBit (m + n) = false := Nat.testBit_lt_two_pow (by omega)
      rw [← Nat.add_assoc, timesLow, ih, hbit, if_neg Bool.false_ne_true, UInt8.xor_zero]

/-- By a factor of five bits `gf_mul` multiplies in the field. -/
theorem toField_gfMul (x : UInt8) {y : UInt8} (hy : y.toNat < 2 ^ 5) :
    toField (gfMul x y) = toField x * toField y := by
  rw [gfMul_eq, ← timesLow_of_lt x hy 3]
  exact toField_times x y

/-! ## The rows of the inverse matrix -/

theorem gfMul_nine (x : UInt8) : gfMul x 0x09 = x ^^^ xtimes (xtimes (xtimes x)) := by
  rw [gfMul_eq]
  simp [timesLow, timesPower, Nat.testBit]

theorem gfMul_eleven (x : UInt8) :
    gfMul x 0x0B = x ^^^ (xtimes x ^^^ xtimes (xtimes (xtimes x))) := by
  rw [gfMul_eq]
  simp [timesLow, timesPower, Nat.testBit, UInt8.xor_assoc]

theorem gfMul_thirteen (x : UInt8) :
    gfMul x 0x0D = x ^^^ (xtimes (xtimes x) ^^^ xtimes (xtimes (xtimes x))) := by
  rw [gfMul_eq]
  simp [timesLow, timesPower, Nat.testBit, UInt8.xor_assoc]

theorem gfMul_fourteen (x : UInt8) :
    gfMul x 0x0E = xtimes x ^^^ (xtimes (xtimes x) ^^^ xtimes (xtimes (xtimes x))) := by
  rw [gfMul_eq]
  simp [timesLow, timesPower, Nat.testBit, UInt8.xor_assoc]

/-! ## The columns -/

/-- A pass of the forward loop is the same in both versions. -/
theorem mixColumn_eq (t : Column) : mixColumn t = Aes.mixColumn t := by
  simp only [mixColumn, Aes.mixColumn, xtime_eq]

/-- A pass of the inverse loop multiplies by the matrix that the corrections stand for. -/
theorem invMixColumn_eq (t : Column) : invMixColumn t = Aes.invMixColumn t := by
  rw [Aes.invMixColumn_eq]
  simp only [invMixColumn, gfMul_nine, gfMul_eleven, gfMul_thirteen, gfMul_fourteen, addColumn,
    correction, Aes.mixColumn_eq, xtimes_xor, UInt8.xor_assoc, UInt8.xor_comm, xor_left_comm]

end Plain

/-- Both versions of the column mixing leave the same state, and their macros have the same value
before it is cut to a byte. -/
theorem mixing_agrees (state : Buf) :
    Plain.mixColumns state = mixColumns state ∧
      Plain.invMixColumns state = invMixColumns state ∧
      ∀ num, Plain.xtime num = gfHelper num := by
  refine ⟨?_, ?_, Plain.xtime_eq⟩
  · simp only [Plain.mixColumns, mixColumns, Plain.mixColumn_eq]
  · simp only [Plain.invMixColumns, invMixColumns, Plain.invMixColumn_eq]

end Aes
end NochOS
