import NochOS.Library.WordBits
import Mathlib.Tactic.IntervalCases

/-!
# Bitmap library - bits and aligned regions

This module embeds `bitmap.c`: the single-bit operations and the power-of-two
region allocator that both the kernel heap and the ext2 bitmaps are built on.
A bitmap is an array of 32-bit words, and a region of order `k` is the `2 ^ k`
bits that start at a multiple of `2 ^ k`.

Main results:

- Theorem `regOp_isFree_iff`: the free test holds exactly when the whole region
  is clear.
- Theorems `bitAt_regOp_alloc`, `bitAt_regOp_release`: the two updates set or
  clear exactly the region.
- Theorems `findFreeRegion_some`, `findFreeRegion_none`: the search returns the
  least aligned clear region and sets it, or reports that there is none and
  leaves the bitmap alone.
-/

namespace NochOS
namespace Bitmap

open Library

/-- `BITS_LONG`. -/
def bitsLong : Nat := 32

/-- `ENOMEM`. -/
def enomem : Nat := 12

/-- `entry_offset(n)`. -/
def entryOffset (n : Nat) : Nat := n / bitsLong

/-- `BIT_OFFSET(n)`. -/
def bitOffset (n : Nat) : Nat := n % bitsLong

/-- `BITS_TO_LONG(n)`. -/
def bitsToLong (n : Nat) : Nat := (n + bitsLong - 1) / bitsLong

/-- `BITS_TO_LONG(num_bits)` of a 32-bit variable, in which the sum can wrap. -/
def bitsToLong32 (numBits : Nat) : Nat := (numBits + bitsLong - 1) % 2 ^ 32 / bitsLong

/-! ## Single bits -/

/-- `bitmap_set_bit`. -/
def bitmapSetBit (bitmap : Words) (bit : Nat) : Words :=
  Function.update bitmap (entryOffset bit)
    (bitmap (entryOffset bit) ||| (1#32 <<< bitOffset bit))

/-- `bitmap_query_bit`. -/
def bitmapQueryBit (bitmap : Words) (bit : Nat) : Nat :=
  if bitmap (entryOffset bit) &&& (1#32 <<< bitOffset bit) ≠ 0 then 1 else 0

/-- `bitmap_clear`. -/
def bitmapClear (bitmap : Words) (numBits : Nat) : Words :=
  if numBits ≤ bitsLong then Function.update bitmap 0 0
  else fun w => if w < bitsToLong32 numBits then 0 else bitmap w

/-- A one-bit mask selects its bit. -/
theorem getLsbD_one_shiftLeft {k j : Nat} (hj : j < 32) :
    (1#32 <<< k).getLsbD j = decide (j = k) := by
  rw [← BitVec.twoPow_eq, BitVec.getLsbD_twoPow]
  by_cases h : k = j <;> simp [h, hj, eq_comm]

/-- Setting a bit sets that bit only. -/
theorem bitAt_bitmapSetBit (bitmap : Words) (bit i : Nat) :
    bitAt (bitmapSetBit bitmap bit) i = (bitAt bitmap i || decide (i = bit)) := by
  have hlt : i % 32 < 32 := Nat.mod_lt _ (by decide)
  unfold bitmapSetBit entryOffset bitOffset bitsLong
  rw [bitAt_update]
  by_cases hw : i / 32 = bit / 32
  · have hiff : i % 32 = bit % 32 ↔ i = bit := by omega
    rw [if_pos hw, BitVec.getLsbD_or, getLsbD_one_shiftLeft hlt, ← hw]
    simp only [hiff, bitAt]
  · have hne : i ≠ bit := by
      rintro rfl
      exact hw rfl
    simp [hw, hne]

/-- Querying a bit returns one exactly when it is set. -/
theorem bitmapQueryBit_eq (bitmap : Words) (bit : Nat) :
    bitmapQueryBit bitmap bit = if bitAt bitmap bit = true then 1 else 0 := by
  have hlt : bit % 32 < 32 := Nat.mod_lt _ (by decide)
  have hzero : bitmap (bit / 32) &&& (1#32 <<< (bit % 32)) = 0 ↔
      bitAt bitmap bit = false := by
    rw [and_mask_eq_zero_iff]
    constructor
    · intro h
      exact h _ hlt (by simp [getLsbD_one_shiftLeft hlt])
    · intro h j hj hm
      rw [getLsbD_one_shiftLeft hj, decide_eq_true_eq] at hm
      rw [hm]
      exact h
  unfold bitmapQueryBit entryOffset bitOffset bitsLong
  simp only [ne_eq, hzero, Bool.not_eq_false]

/-- Clearing a bitmap clears every bit below the bound. -/
theorem bitAt_bitmapClear (bitmap : Words) {numBits i : Nat} (hwrap : numBits ≤ 2 ^ 32 - 32)
    (hi : i < numBits) : bitAt (bitmapClear bitmap numBits) i = false := by
  unfold bitmapClear bitsToLong32 bitsLong
  by_cases hsmall : numBits ≤ 32
  · rw [if_pos hsmall, bitAt_update, if_pos (by omega)]
    exact BitVec.getLsbD_zero
  · rw [if_neg hsmall, bitAt, if_pos (by omega)]
    exact BitVec.getLsbD_zero

/-! ## Regions -/

/-- The operations of `_reg_op` on a region. -/
inductive RegOpKind
  | isFree
  | alloc
  | release
deriving DecidableEq

/-- The mask `_reg_op` applies to each word of the region. -/
def regMask (pos order : Nat) : BitVec 32 :=
  let numBitsReg := 2 ^ order
  let numBitsEntry := if numBitsReg < bitsLong then numBitsReg else bitsLong
  let bitmask := 1#32 <<< (numBitsEntry - 1)
  (bitmask + (bitmask - 1)) <<< bitOffset pos

/-- `_reg_op`: the return value and the bitmap after the operation. -/
def regOp (bitmap : Words) (pos order : Nat) (op : RegOpKind) : Nat × Words :=
  let index := entryOffset pos
  let entries := bitsToLong (2 ^ order)
  let bitmask := regMask pos order
  match op with
  | .isFree =>
      (if (List.range entries).all fun i => bitmap (index + i) &&& bitmask == 0 then 1 else 0,
        bitmap)
  | .alloc =>
      (0, (List.range entries).foldl
        (fun b i => Function.update b (index + i) (b (index + i) ||| bitmask)) bitmap)
  | .release =>
      (0, (List.range entries).foldl
        (fun b i => Function.update b (index + i) (b (index + i) &&& ~~~bitmask)) bitmap)

/-- The loop of `find_free_region`; `fuel` bounds the number of positions
tried, and every position moves on by at least one bit. -/
def findFreeRegionLoop (bitmap : Words) (numBits order : Nat) : Nat → Nat → Nat
  | 0, pos => pos
  | fuel + 1, pos =>
      if pos < numBits then
        if (regOp bitmap pos order .isFree).1 ≠ 0 then pos
        else findFreeRegionLoop bitmap numBits order fuel (pos + 2 ^ order)
      else pos

/-- `find_free_region`: the region found or `-ENOMEM`, and the bitmap. -/
def findFreeRegion (bitmap : Words) (numBits order : Nat) : Int × Words :=
  let pos := findFreeRegionLoop bitmap numBits order numBits 0
  if pos = numBits then (-(enomem : Int), bitmap)
  else ((pos : Int), (regOp bitmap pos order .alloc).2)

/-- `release_region`. -/
def releaseRegion (bitmap : Words) (pos order : Nat) : Words :=
  (regOp bitmap pos order .release).2

/-! ## The mask and the words of a region -/

/-- The mask is a run of ones as long as the region or the word, whichever is
shorter, moved up to the region's place in its word. -/
theorem regMask_eq (pos order : Nat) :
    regMask pos order =
      BitVec.ofNat 32 (2 ^ (min (2 ^ order) 32) - 1) <<< (pos % 32) := by
  unfold regMask bitOffset bitsLong
  by_cases hsmall : order < 5
  · interval_cases order <;> rfl
  · have hlarge : 2 ^ 5 ≤ 2 ^ order := Nat.pow_le_pow_right (by decide) (by omega)
    have hnot : ¬ 2 ^ order < 32 := by omega
    have hmin : min (2 ^ order) 32 = 32 := by omega
    simp only [if_neg hnot, hmin]
    rfl

/-- The bits the mask selects within a word. -/
theorem getLsbD_regMask (pos order : Nat) {j : Nat} (hj : j < 32) :
    (regMask pos order).getLsbD j =
      decide (pos % 32 ≤ j ∧ j < pos % 32 + min (2 ^ order) 32) := by
  rw [regMask_eq, BitVec.getLsbD_shiftLeft, BitVec.getLsbD_ofNat,
    Nat.testBit_two_pow_sub_one]
  by_cases hlo : j < pos % 32
  · have hnot : ¬ pos % 32 ≤ j := by omega
    simp [hj, hlo, hnot]
  · have hle : pos % 32 ≤ j := by omega
    have hsub : j - pos % 32 < 32 := by omega
    have hiff : j - pos % 32 < min (2 ^ order) 32 ↔
        j < pos % 32 + min (2 ^ order) 32 := by omega
    simp [hj, hlo, hle, hsub, hiff]

/-- An aligned region is made of the masked bits of its words. -/
theorem mem_region_iff {pos order : Nat} (halign : 2 ^ order ∣ pos) (i : Nat) :
    (pos ≤ i ∧ i < pos + 2 ^ order) ↔
      (pos / 32 ≤ i / 32 ∧ i / 32 < pos / 32 + bitsToLong (2 ^ order)) ∧
        (regMask pos order).getLsbD (i % 32) = true := by
  rw [getLsbD_regMask pos order (Nat.mod_lt _ (by decide)), decide_eq_true_eq]
  unfold bitsToLong bitsLong
  by_cases hsmall : order < 5
  · obtain ⟨q, rfl⟩ := halign
    interval_cases order <;> omega
  · have hpow : 2 ^ order = 32 * 2 ^ (order - 5) := by
      rw [show (32 : Nat) = 2 ^ 5 by rfl, ← Nat.pow_add]
      congr 1
      omega
    have hpos : 0 < 2 ^ (order - 5) := Nat.two_pow_pos _
    obtain ⟨q, rfl⟩ := halign
    rw [hpow, Nat.mul_assoc]
    generalize 2 ^ (order - 5) * q = r
    generalize 2 ^ (order - 5) = m at hpos
    omega

/-- The words of an array after a run of words is replaced pointwise. -/
theorem foldl_update_apply (f : BitVec 32 → BitVec 32) (index n : Nat) (b : Words)
    (w : Nat) :
    (List.range n).foldl (fun b i => Function.update b (index + i) (f (b (index + i)))) b w =
      if index ≤ w ∧ w < index + n then f (b w) else b w := by
  induction n with
  | zero =>
      have hnot : ¬ (index ≤ w ∧ w < index + 0) := by omega
      rw [if_neg hnot]
      rfl
  | succ n ih =>
      rw [List.range_succ, List.foldl_append, List.foldl_cons, List.foldl_nil]
      by_cases hw : w = index + n
      · subst hw
        have hnot : ¬ (index ≤ index + n ∧ index + n < index + n) := by omega
        have hin : index ≤ index + n ∧ index + n < index + (n + 1) := by omega
        rw [if_neg hnot] at ih
        rw [Function.update_self, ih, if_pos hin]
      · have hiff : (index ≤ w ∧ w < index + (n + 1)) ↔ (index ≤ w ∧ w < index + n) := by
          omega
        rw [Function.update_of_ne hw, ih]
        simp only [hiff]

/-! ## What the three operations do -/

/-- The free test holds exactly when every bit of the region is clear. -/
theorem regOp_isFree_iff (bitmap : Words) {pos order : Nat} (halign : 2 ^ order ∣ pos) :
    (regOp bitmap pos order .isFree).1 ≠ 0 ↔
      ∀ i, pos ≤ i → i < pos + 2 ^ order → bitAt bitmap i = false := by
  have hall : (regOp bitmap pos order .isFree).1 ≠ 0 ↔
      ∀ k < bitsToLong (2 ^ order), bitmap (pos / 32 + k) &&& regMask pos order = 0 := by
    simp [regOp, entryOffset, bitsLong]
  rw [hall]
  constructor
  · intro h i hlo hhi
    obtain ⟨⟨hw, hw'⟩, hm⟩ := (mem_region_iff halign i).mp ⟨hlo, hhi⟩
    have hword := h (i / 32 - pos / 32) (by omega)
    rw [show pos / 32 + (i / 32 - pos / 32) = i / 32 by omega] at hword
    exact (and_mask_eq_zero_iff _ _).mp hword _ (Nat.mod_lt _ (by decide)) hm
  · intro h k hk
    rw [and_mask_eq_zero_iff]
    intro j hj hm
    have hdiv : (32 * (pos / 32 + k) + j) / 32 = pos / 32 + k := by omega
    have hmod : (32 * (pos / 32 + k) + j) % 32 = j := by omega
    have hin := (mem_region_iff halign (32 * (pos / 32 + k) + j)).mpr
      ⟨by omega, by rw [hmod]; exact hm⟩
    have hbit := h _ hin.1 hin.2
    simpa only [bitAt, hdiv, hmod] using hbit

/-- Allocation sets exactly the bits of the region. -/
theorem bitAt_regOp_alloc (bitmap : Words) {pos order : Nat} (halign : 2 ^ order ∣ pos)
    (i : Nat) :
    bitAt (regOp bitmap pos order .alloc).2 i =
      (bitAt bitmap i || decide (pos ≤ i ∧ i < pos + 2 ^ order)) := by
  simp only [regOp, bitAt, entryOffset, bitsLong]
  rw [foldl_update_apply (fun x => x ||| regMask pos order)]
  simp only [mem_region_iff halign i]
  split
  · rename_i hw
    simp [hw]
  · rename_i hw
    simp [hw]

/-- Release clears exactly the bits of the region. -/
theorem bitAt_releaseRegion (bitmap : Words) {pos order : Nat} (halign : 2 ^ order ∣ pos)
    (i : Nat) :
    bitAt (releaseRegion bitmap pos order) i =
      (bitAt bitmap i && !decide (pos ≤ i ∧ i < pos + 2 ^ order)) := by
  have hlt : i % 32 < 32 := Nat.mod_lt _ (by decide)
  simp only [releaseRegion, regOp, bitAt, entryOffset, bitsLong]
  rw [foldl_update_apply (fun x => x &&& ~~~regMask pos order)]
  simp only [mem_region_iff halign i]
  split
  · rename_i hw
    simp [hw, hlt]
  · rename_i hw
    simp [hw]

/-! ## The search -/

/-- Positions below the one the loop stops at are not free. -/
theorem findFreeRegionLoop_spec (bitmap : Words) {numBits order : Nat}
    (hdvd : 2 ^ order ∣ numBits) :
    ∀ fuel pos, 2 ^ order ∣ pos → pos ≤ numBits → numBits ≤ pos + fuel →
      let p := findFreeRegionLoop bitmap numBits order fuel pos
      2 ^ order ∣ p ∧ pos ≤ p ∧ p ≤ numBits ∧
        (∀ q, 2 ^ order ∣ q → pos ≤ q → q < p →
          (regOp bitmap q order .isFree).1 = 0) ∧
        (p < numBits → (regOp bitmap p order .isFree).1 ≠ 0) := by
  have hpow : 0 < 2 ^ order := Nat.two_pow_pos _
  intro fuel
  induction fuel with
  | zero =>
      intro pos halign hle hfuel
      simp only [findFreeRegionLoop]
      exact ⟨halign, le_rfl, hle, by omega, by omega⟩
  | succ fuel ih =>
      intro pos halign hle hfuel
      simp only [findFreeRegionLoop]
      by_cases hpos : pos < numBits
      · rw [if_pos hpos]
        by_cases hfree : (regOp bitmap pos order .isFree).1 ≠ 0
        · rw [if_pos hfree]
          exact ⟨halign, le_rfl, hle, by omega, fun _ => hfree⟩
        · rw [if_neg hfree]
          have hnext : 2 ^ order ∣ pos + 2 ^ order := Nat.dvd_add halign (Nat.dvd_refl _)
          have hbound : pos + 2 ^ order ≤ numBits := by
            have hgap : 2 ^ order ∣ numBits - pos := Nat.dvd_sub hdvd halign
            have := Nat.le_of_dvd (by omega) hgap
            omega
          obtain ⟨hp, hge, hle', hbusy, hend⟩ := ih (pos + 2 ^ order) hnext hbound (by omega)
          refine ⟨hp, by omega, hle', ?_, hend⟩
          intro q hq hlo hhi
          by_cases hqpos : q = pos
          · subst hqpos
            simpa using hfree
          · have hgap : 2 ^ order ∣ q - pos := Nat.dvd_sub hq halign
            have := Nat.le_of_dvd (by omega) hgap
            exact hbusy q hq (by omega) hhi
      · rw [if_neg hpos]
        exact ⟨halign, le_rfl, hle, by omega, by omega⟩

/-- The search either fails and keeps the bitmap, or returns the least aligned
clear region below the bound and sets it. -/
theorem findFreeRegion_cases (bitmap : Words) {numBits order : Nat}
    (hdvd : 2 ^ order ∣ numBits) :
    (findFreeRegion bitmap numBits order = (-(enomem : Int), bitmap) ∧
      ∀ q, 2 ^ order ∣ q → q < numBits → ∃ i, q ≤ i ∧ i < q + 2 ^ order ∧
        bitAt bitmap i = true) ∨
    ∃ p : Nat, findFreeRegion bitmap numBits order = ((p : Int), (regOp bitmap p order .alloc).2) ∧
      2 ^ order ∣ p ∧ p + 2 ^ order ≤ numBits ∧
      (∀ i, p ≤ i → i < p + 2 ^ order → bitAt bitmap i = false) ∧
      ∀ q, 2 ^ order ∣ q → q < p → ∃ i, q ≤ i ∧ i < q + 2 ^ order ∧
        bitAt bitmap i = true := by
  have hbusy : ∀ q, 2 ^ order ∣ q → (regOp bitmap q order .isFree).1 = 0 →
      ∃ i, q ≤ i ∧ i < q + 2 ^ order ∧ bitAt bitmap i = true := by
    intro q hq hzero
    by_contra hno
    apply (regOp_isFree_iff bitmap hq).mpr _ hzero
    intro i hlo hhi
    by_contra hset
    exact hno ⟨i, hlo, hhi, by simpa using hset⟩
  obtain ⟨hp, -, hle, hbelow, hend⟩ :=
    findFreeRegionLoop_spec bitmap hdvd numBits 0 (Nat.dvd_zero _) (Nat.zero_le _) (by omega)
  generalize hloop : findFreeRegionLoop bitmap numBits order numBits 0 = p at hp hle hbelow hend
  simp only [findFreeRegion, hloop]
  by_cases hfull : p = numBits
  · left
    rw [if_pos hfull]
    refine ⟨rfl, fun q hq hlt => hbusy q hq (hbelow q hq (Nat.zero_le _) (by omega))⟩
  · right
    have hlt : p < numBits := by omega
    have hgap : 2 ^ order ∣ numBits - p := Nat.dvd_sub hdvd hp
    have hroom := Nat.le_of_dvd (by omega) hgap
    rw [if_neg hfull]
    exact ⟨p, rfl, hp, by omega, (regOp_isFree_iff bitmap hp).mp (hend hlt),
      fun q hq hq' => hbusy q hq (hbelow q hq (Nat.zero_le _) hq')⟩

end Bitmap
end NochOS
