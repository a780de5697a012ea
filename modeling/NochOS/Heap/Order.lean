import Mathlib.Algebra.Group.Nat.Defs
import Mathlib.Data.Nat.Log
import Mathlib.Order.Bounds.Basic
import Mathlib.Tactic.Common

/-!
# Kernel heap - the page order of a request

This module embeds the size arithmetic of `mem.h`, `bitops.h` and
`alloc_request_order`.  The two bit scans are the 1-based index of the lowest
and of the highest set bit, as the `bsf` and `bsr` instructions report it.

Main results:

- Theorems `fls_eq`, `ffs_eq_fls_iff`: the highest set bit is the binary
  logarithm, and the two scans agree exactly on powers of two.
- Theorem `allocRequestOrder_spec`: the order of a request is the least one
  whose pages hold it.
- Theorem `allocRequestOrder_isLeast`: the order is a ceiling logarithm, and no step of its
  computation overflows.
-/

namespace NochOS
namespace Heap

/-- `HEAP_PAGE_SIZE`. -/
def heapPageSize : Nat := 0x1000

/-- `REQ_PAGE_NUM(size)`. -/
def reqPageNum (size : Nat) : Nat := size / heapPageSize

/-- `REQ_SIZE_OFFSET(size)`. -/
def reqSizeOffset (size : Nat) : Nat := size % heapPageSize

/-- `request_size_raw`. -/
def requestSizeRaw (size : Nat) : Nat :=
  let pageNum := reqPageNum size
  if reqSizeOffset size ≠ 0 then pageNum + 1 else pageNum

/-- `ffs`: 1-based index of the lowest set bit, zero for a zero word. -/
def ffs (word : Nat) : Int :=
  match (List.range 32).find? fun i => word.testBit i with
  | some i => i + 1
  | none => 0

/-- `fls`: 1-based index of the highest set bit, zero for a zero word. -/
def fls (word : Nat) : Int :=
  match (List.range 32).find? fun i => word.testBit (31 - i) with
  | some i => ((31 - i : Nat) : Int) + 1
  | none => 0

/-- `alloc_request_order`. -/
def allocRequestOrder (size : Nat) : Int :=
  let sizeRaw := requestSizeRaw size
  let ffsCount := ffs sizeRaw
  let flsCount := fls sizeRaw
  if ffsCount = flsCount then flsCount - 1 else flsCount

/-! ## The two bit scans -/

/-- No bit above the binary logarithm is set. -/
theorem testBit_of_log2_lt {n i : Nat} (h : n.log2 < i) : n.testBit i = false := by
  apply Nat.testBit_lt_two_pow
  calc
    n < 2 ^ (n.log2 + 1) := Nat.lt_log2_self
    _ ≤ 2 ^ i := Nat.pow_le_pow_right (by decide) h

/-- The highest set bit of a nonzero word is its binary logarithm. -/
theorem fls_eq {n : Nat} (hpos : 0 < n) (hlt : n < 2 ^ 32) : fls n = n.log2 + 1 := by
  have hlog : n.log2 < 32 := (Nat.log2_lt (by omega)).mpr hlt
  have hfind : (List.range 32).find? (fun i => n.testBit (31 - i)) = some (31 - n.log2) := by
    rw [List.find?_range_eq_some]
    refine ⟨?_, List.mem_range.mpr (by omega), ?_⟩
    · rw [show 31 - (31 - n.log2) = n.log2 by omega]
      exact Nat.testBit_log2 (by omega)
    · intro j hj
      simp [testBit_of_log2_lt (n := n) (i := 31 - j) (by omega)]
  simp only [fls, hfind]
  omega

/-- The two scans agree exactly on the powers of two. -/
theorem ffs_eq_fls_iff {n : Nat} (hpos : 0 < n) (hlt : n < 2 ^ 32) :
    ffs n = fls n ↔ n = 2 ^ n.log2 := by
  have hlog : n.log2 < 32 := (Nat.log2_lt (by omega)).mpr hlt
  have htop : n.testBit n.log2 = true := Nat.testBit_log2 (by omega)
  rw [fls_eq hpos hlt]
  constructor
  · intro h
    have hlow : ∀ j < n.log2, n.testBit j = false := by
      cases hfind : (List.range 32).find? (fun i => n.testBit i) with
      | none =>
          simp only [ffs, hfind] at h
          omega
      | some i =>
          simp only [ffs, hfind] at h
          have hi : i = n.log2 := by omega
          rw [hi, List.find?_range_eq_some] at hfind
          intro j hj
          simpa using hfind.2.2 j hj
    apply Nat.eq_of_testBit_eq
    intro j
    rw [Nat.testBit_two_pow]
    rcases lt_trichotomy j n.log2 with hj | hj | hj
    · simp [hlow j hj, show n.log2 ≠ j by omega]
    · simp [hj, htop]
    · simp [testBit_of_log2_lt hj, show n.log2 ≠ j by omega]
  · intro h
    have hfind : (List.range 32).find? (fun i => n.testBit i) = some n.log2 := by
      rw [List.find?_range_eq_some]
      refine ⟨htop, List.mem_range.mpr hlog, ?_⟩
      intro j hj
      have hzero : n.testBit j = false := by
        rw [h, Nat.testBit_two_pow]
        simp [show n.log2 ≠ j by omega]
      simp [hzero]
    simp only [ffs, hfind]

/-! ## The order of a request -/

/-- The pages of a request are its size divided by the page size, rounded up. -/
theorem requestSizeRaw_le_iff (size n : Nat) :
    requestSizeRaw size ≤ n ↔ size ≤ n * heapPageSize := by
  unfold requestSizeRaw
  by_cases hrest : reqSizeOffset size ≠ 0
  · rw [if_pos hrest]
    unfold reqSizeOffset heapPageSize at hrest
    unfold reqPageNum heapPageSize
    omega
  · rw [if_neg hrest]
    unfold reqSizeOffset heapPageSize at hrest
    unfold reqPageNum heapPageSize
    omega

/-- The order of a nonempty request is the least one whose pages hold it. -/
theorem allocRequestOrder_spec {size : Nat} (hpos : 0 < size) (hlt : size < 2 ^ 32) :
    ∃ k : Nat, allocRequestOrder size = k ∧ size ≤ 2 ^ k * heapPageSize ∧
      ∀ j < k, 2 ^ j * heapPageSize < size := by
  have hraw : 0 < requestSizeRaw size := by
    have h := requestSizeRaw_le_iff size 0
    omega
  have hrawlt : requestSizeRaw size < 2 ^ 32 := by
    have h := (requestSizeRaw_le_iff size (2 ^ 32 - 1)).mpr (by unfold heapPageSize; omega)
    omega
  generalize hn : requestSizeRaw size = n at hraw hrawlt
  have hlow : 2 ^ n.log2 ≤ n := Nat.log2_self_le (by omega)
  have hhigh : n < 2 ^ (n.log2 + 1) := Nat.lt_log2_self
  simp only [allocRequestOrder, hn, ffs_eq_fls_iff hraw hrawlt]
  rw [fls_eq hraw hrawlt]
  by_cases hpow : n = 2 ^ n.log2
  · rw [if_pos hpow]
    refine ⟨n.log2, by omega, ?_, ?_⟩
    · rw [← requestSizeRaw_le_iff, hn]
      exact hpow.le
    · intro j hj
      rw [← not_le, ← requestSizeRaw_le_iff, hn, not_le]
      calc
        2 ^ j < 2 ^ n.log2 := Nat.pow_lt_pow_right (by decide) hj
        _ ≤ n := hlow
  · rw [if_neg hpow]
    refine ⟨n.log2 + 1, by omega, ?_, ?_⟩
    · rw [← requestSizeRaw_le_iff, hn]
      exact hhigh.le
    · intro j hj
      rw [← not_le, ← requestSizeRaw_le_iff, hn, not_le]
      calc
        2 ^ j ≤ 2 ^ n.log2 := Nat.pow_le_pow_right (by decide) (by omega)
        _ < n := lt_of_le_of_ne hlow (Ne.symm hpow)

/-- The order of a request is the least one whose pages hold it; the number of pages fits into an
`int`, and the pages of the order into 32 bits. -/
theorem allocRequestOrder_isLeast (size : Nat) (hpos : 0 < size) (hlt : size < 2 ^ 32) :
    requestSizeRaw size ≤ 2 ^ 20 ∧
      ∃ k : Nat, allocRequestOrder size = k ∧
        IsLeast {j | size ≤ 2 ^ j * heapPageSize} k ∧ k ≤ 20 := by
  have hraw : size ≤ 2 ^ 20 * heapPageSize := by
    unfold heapPageSize
    omega
  obtain ⟨k, hk, hfits, hbelow⟩ := allocRequestOrder_spec hpos hlt
  have hleast : IsLeast {j | size ≤ 2 ^ j * heapPageSize} k := by
    refine ⟨hfits, fun j hj => ?_⟩
    by_contra hlower
    exact absurd (hbelow j (Nat.lt_of_not_le hlower)) (Nat.not_lt_of_le hj)
  exact ⟨(requestSizeRaw_le_iff size _).mpr hraw, k, hk, hleast, hleast.2 hraw⟩

/-- A page and a byte take two pages. -/
theorem allocRequestOrder_isLeast_byte :
    ∃ k : Nat, allocRequestOrder 4097 = k ∧ IsLeast {j | 4097 ≤ 2 ^ j * heapPageSize} k ∧ k ≤ 20 :=
  (allocRequestOrder_isLeast 4097 (by decide) (by decide)).2

end Heap
end NochOS
