import NochOS.Library.Bytes
import Mathlib.Data.Finset.Card
import Mathlib.Data.Finset.Range
import Mathlib.Data.Nat.Bitwise
import Mathlib.Order.Interval.Finset.Nat

/-!
# Library - Bit arrays packed in 32-bit words

An array of 32-bit words is read as an array of bits, bit `i` being bit
`i % 32` of word `i / 32`.  The module gives the pointwise view, counts set bits
below a bound, and moves between words and the bytes that hold them in
little-endian order.

Main results:

- Theorem `words_ext`: two word arrays with the same bits are equal.
- Theorem `and_mask_eq_zero_iff`: testing a word against a mask tests the bits
  the mask selects.
- Theorems `wordsOf_bytesOf`, `bytesOf_wordsOf`: packing words into bytes and
  unpacking them are inverse to each other.
- Theorems `setCount_union`, `setCount_diff`: the number of set bits after a
  clear range is set or a set range is cleared.
-/

namespace NochOS
namespace Library

/-- An array of 32-bit words. -/
abbrev Words := Nat → BitVec 32

/-- Bit `i` of a word array. -/
def bitAt (b : Words) (i : Nat) : Bool :=
  (b (i / 32)).getLsbD (i % 32)

/-- Two word arrays with the same bits are equal. -/
theorem words_ext {a b : Words} (h : ∀ i, bitAt a i = bitAt b i) : a = b := by
  funext w
  apply BitVec.eq_of_getLsbD_eq
  intro j hj
  have hbit := h (32 * w + j)
  have hdiv : (32 * w + j) / 32 = w := by omega
  have hmod : (32 * w + j) % 32 = j := by omega
  simpa only [bitAt, hdiv, hmod] using hbit

/-- A word meets a mask nowhere exactly when the selected bits are clear. -/
theorem and_mask_eq_zero_iff (x m : BitVec 32) :
    x &&& m = 0 ↔ ∀ j < 32, m.getLsbD j = true → x.getLsbD j = false := by
  constructor
  · intro h j _ hm
    have hbit := congrArg (fun y => BitVec.getLsbD y j) h
    simpa [hm] using hbit
  · intro h
    apply BitVec.eq_of_getLsbD_eq
    intro j hj
    cases hm : m.getLsbD j with
    | false => simp [hm]
    | true => simp [hm, h j hj hm]

/-- Two words agree under a mask exactly when they agree in the bits it selects. -/
theorem and_mask_eq_iff (x y m : BitVec 32) :
    x &&& m = y &&& m ↔ ∀ j < 32, m.getLsbD j = true → x.getLsbD j = y.getLsbD j := by
  constructor
  · intro h j _ hm
    have hbit := congrArg (fun z => BitVec.getLsbD z j) h
    simpa [hm] using hbit
  · intro h
    apply BitVec.eq_of_getLsbD_eq
    intro j hj
    cases hm : m.getLsbD j with
    | false => simp [hm]
    | true => simp [hm, h j hj hm]

/-- A word has all bits of a mask exactly when each bit the mask selects is set. -/
theorem and_mask_eq_self_iff (x m : BitVec 32) :
    x &&& m = m ↔ ∀ j < 32, m.getLsbD j = true → x.getLsbD j = true := by
  have h := and_mask_eq_iff x (BitVec.allOnes 32) m
  rw [BitVec.allOnes_and] at h
  rw [h]
  apply forall_congr'
  intro j
  apply forall_congr'
  intro hj
  rw [BitVec.getLsbD_allOnes, decide_eq_true hj]

/-- The word array with given bits. -/
def ofBits (f : Nat → Bool) : Words := fun w =>
  (BitVec.ofBoolListLE ((List.range 32).map fun j => f (32 * w + j))).cast (by simp)

@[simp] theorem bitAt_ofBits (f : Nat → Bool) (i : Nat) : bitAt (ofBits f) i = f i := by
  have hlt : i % 32 < 32 := Nat.mod_lt _ (by decide)
  have hsum : 32 * (i / 32) + i % 32 = i := Nat.div_add_mod i 32
  rw [bitAt, ofBits, BitVec.getLsbD_cast, BitVec.getLsbD_ofBoolListLE]
  simp [List.getD_eq_getElem?_getD, hlt, hsum]

/-! ## Updating one word -/

/-- The bits after one word of an array is replaced. -/
theorem bitAt_update (b : Words) (w : Nat) (x : BitVec 32) (i : Nat) :
    bitAt (Function.update b w x) i =
      if i / 32 = w then x.getLsbD (i % 32) else bitAt b i := by
  unfold bitAt
  by_cases h : i / 32 = w
  · rw [if_pos h, h, Function.update_self]
  · rw [if_neg h, Function.update_of_ne h]

/-! ## Counting bits -/

/-- The set bits below a bound. -/
def setBits (b : Words) (n : Nat) : Finset Nat :=
  (Finset.range n).filter fun i => bitAt b i = true

/-- How many bits below a bound are set. -/
def setCount (b : Words) (n : Nat) : Nat := (setBits b n).card

theorem mem_setBits {b : Words} {n i : Nat} :
    i ∈ setBits b n ↔ i < n ∧ bitAt b i = true := by
  simp [setBits]

/-- Setting a range of clear bits adds its length to the count. -/
theorem setCount_union {a b : Words} {n lo len : Nat} (hrange : lo + len ≤ n)
    (hclear : ∀ i, lo ≤ i → i < lo + len → bitAt a i = false)
    (hb : ∀ i < n, bitAt b i = (bitAt a i || decide (lo ≤ i ∧ i < lo + len))) :
    setCount b n = setCount a n + len := by
  have hunion : setBits b n = setBits a n ∪ Finset.Ico lo (lo + len) := by
    ext i
    simp only [mem_setBits, Finset.mem_union, Finset.mem_Ico]
    constructor
    · rintro ⟨hi, hbit⟩
      rw [hb i hi] at hbit
      simpa [hi] using hbit
    · rintro (⟨hi, hbit⟩ | hin)
      · exact ⟨hi, by rw [hb i hi, hbit, Bool.true_or]⟩
      · have hi : i < n := by omega
        exact ⟨hi, by rw [hb i hi]; simp [hin]⟩
  have hdisj : Disjoint (setBits a n) (Finset.Ico lo (lo + len)) := by
    rw [Finset.disjoint_left]
    intro i hi hin
    rw [Finset.mem_Ico] at hin
    have hset := (mem_setBits.mp hi).2
    rw [hclear i hin.1 hin.2] at hset
    contradiction
  unfold setCount
  rw [hunion, Finset.card_union_of_disjoint hdisj, Nat.card_Ico]
  omega

/-- Clearing a range of set bits takes its length off the count. -/
theorem setCount_diff {a b : Words} {n lo len : Nat} (hrange : lo + len ≤ n)
    (hset : ∀ i, lo ≤ i → i < lo + len → bitAt a i = true)
    (hb : ∀ i < n, bitAt b i = (bitAt a i && !decide (lo ≤ i ∧ i < lo + len))) :
    setCount a n = setCount b n + len := by
  apply setCount_union hrange
  · intro i hlo hhi
    rw [hb i (by omega)]
    simp [hlo, hhi]
  · intro i hi
    rw [hb i hi]
    by_cases hin : lo ≤ i ∧ i < lo + len
    · simp [hin, hset i hin.1 hin.2]
    · simp [hin]

/-! ## Words and the bytes that hold them -/

/-- The words stored little-endian in a buffer. -/
def wordsOf (b : Buf) : Words := fun w => BitVec.ofNat 32 (u32At b (4 * w))

/-- The buffer that stores an array of words little-endian. -/
def bytesOf (ws : Words) : Buf := fun i =>
  UInt8.ofNat ((ws (i / 4)).toNat / 256 ^ (i % 4))

/-- Unpacking packed words gives them back. -/
@[simp] theorem wordsOf_bytesOf (ws : Words) : wordsOf (bytesOf ws) = ws := by
  funext w
  have hlt : (ws w).toNat < 2 ^ 32 := (ws w).isLt
  have h0 : (4 * w) / 4 = w := by omega
  have h1 : (4 * w + 1) / 4 = w := by omega
  have h2 : (4 * w + 2) / 4 = w := by omega
  have h3 : (4 * w + 3) / 4 = w := by omega
  have m0 : (4 * w) % 4 = 0 := by omega
  have m1 : (4 * w + 1) % 4 = 1 := by omega
  have m2 : (4 * w + 2) % 4 = 2 := by omega
  have m3 : (4 * w + 3) % 4 = 3 := by omega
  apply BitVec.eq_of_toNat_eq
  simp only [wordsOf, u32At, bytesOf, h0, h1, h2, h3, m0, m1, m2, m3, UInt8.toNat_ofNat',
    BitVec.toNat_ofNat]
  omega

/-- Packing the words of a buffer gives the buffer back. -/
@[simp] theorem bytesOf_wordsOf (b : Buf) : bytesOf (wordsOf b) = b := by
  funext i
  have hlt := u32At_lt b (4 * (i / 4))
  have h0 := (b (4 * (i / 4))).toNat_lt
  have h1 := (b (4 * (i / 4) + 1)).toNat_lt
  have h2 := (b (4 * (i / 4) + 2)).toNat_lt
  have h3 := (b (4 * (i / 4) + 3)).toNat_lt
  apply UInt8.toNat_inj.mp
  simp only [bytesOf, wordsOf, UInt8.toNat_ofNat', BitVec.toNat_ofNat,
    Nat.mod_eq_of_lt hlt]
  have hcases : i % 4 = 0 ∨ i % 4 = 1 ∨ i % 4 = 2 ∨ i % 4 = 3 := by omega
  -- the byte sits in one of the four places of its word
  rcases hcases with hm | hm | hm | hm
  · have hi : 4 * (i / 4) = i := by omega
    rw [hm, u32At]
    rw [hi] at h0 h1 h2 h3 ⊢
    omega
  · have hi : 4 * (i / 4) + 1 = i := by omega
    rw [hm, u32At, hi]
    rw [hi] at h1
    omega
  · have hi : 4 * (i / 4) + 2 = i := by omega
    rw [hm, u32At, hi]
    rw [hi] at h2
    omega
  · have hi : 4 * (i / 4) + 3 = i := by omega
    rw [hm, u32At, hi]
    rw [hi] at h3
    omega

end Library
end NochOS
