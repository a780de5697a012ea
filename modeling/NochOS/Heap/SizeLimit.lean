import NochOS.Bitmap.Allocator
import NochOS.Heap.Runs

/-!
# Kernel heap - the largest object

`__alloc` compares the pages of the payload, rounded down, with `MAX_HEAP_ENTRY`, and the pages
it requests are those of header and payload, rounded up to a power of two.  The two do not agree
just above the limit.

Main results:

- Theorem `alloc_ne_zero_iff`: the requests that are granted.
- Theorem `setCount_alloc`: a granted request occupies the pages of its order.
- Theorem `sizeLimit_iff`: when the limit on the size of an object is kept.
-/

namespace NochOS
namespace Heap

open Library Bitmap

/-! ## Free runs -/

/-- There is an aligned run of `2 ^ order` free pages. -/
def FreeRun (s : HeapState) (order : Nat) : Prop :=
  (freePositions s.heapMap heapEntry order).Nonempty

/-- A free run has free runs of all lower orders. -/
theorem FreeRun.mono {s : HeapState} {j k : Nat} (h : FreeRun s k) (hle : j ≤ k) :
    FreeRun s j := by
  obtain ⟨p, halign, hroom, hclear⟩ := h
  have hpow : 2 ^ j ≤ 2 ^ k := Nat.pow_le_pow_right (by decide) hle
  refine ⟨p, (Nat.pow_dvd_pow 2 hle).trans halign, by omega, ?_⟩
  intro i hlo hhi
  exact hclear i hlo (by omega)

/-! ## The order of a request -/

/-- The order that the allocator computes for a payload. -/
def payloadOrder (size : Nat) : Nat := (allocRequestOrder (heapHeaderSize + size)).toNat

section Requests

variable {size : Nat}

/-- Header and payload of a request that passes the test do not wrap. -/
theorem totalSize_lt (hpages : reqPageNum size ≤ maxHeapEntry) :
    heapHeaderSize + size < 2 ^ 32 := by
  unfold reqPageNum maxHeapEntry heapPageSize at hpages
  unfold heapHeaderSize
  omega

/-- The order of a request is the least one whose pages hold header and payload. -/
theorem payloadOrder_spec (hpages : reqPageNum size ≤ maxHeapEntry) :
    allocRequestOrder (heapHeaderSize + size) = payloadOrder size ∧
      heapHeaderSize + size ≤ 2 ^ payloadOrder size * heapPageSize ∧
      (∀ j < payloadOrder size, 2 ^ j * heapPageSize < heapHeaderSize + size) ∧
      payloadOrder size ≤ 6 := by
  have hpos : 0 < heapHeaderSize + size := Nat.add_pos_left (by decide) size
  obtain ⟨k, hk, hfits, hleast⟩ := allocRequestOrder_spec hpos (totalSize_lt hpages)
  have horder : payloadOrder size = k := by
    unfold payloadOrder
    rw [hk, Int.toNat_natCast]
  rw [horder]
  exact ⟨hk, hfits, hleast, order_le_six hpages hleast⟩

/-- A request that passes the test has the order six exactly when it does not fit in
`MAX_HEAP_ENTRY` pages. -/
theorem payloadOrder_eq_six_iff (hpages : reqPageNum size ≤ maxHeapEntry) :
    payloadOrder size = 6 ↔ maxHeapEntry * heapPageSize < heapHeaderSize + size := by
  obtain ⟨-, hfits, hleast, hsix⟩ := payloadOrder_spec hpages
  constructor
  · intro h
    exact hleast 5 (by omega)
  · intro hlarge
    by_contra hne
    have hpow : 2 ^ payloadOrder size ≤ 2 ^ 5 := Nat.pow_le_pow_right (by decide) (by omega)
    have hle : 2 ^ payloadOrder size * heapPageSize ≤ maxHeapEntry * heapPageSize :=
      Nat.mul_le_mul_right heapPageSize hpow
    omega

/-! ## Granted requests -/

/-- A request is granted exactly when it passes the test and there is a run of its order. -/
theorem alloc_ne_zero_iff (s : HeapState) (size : Nat) :
    (_alloc s size).1 ≠ 0 ↔
      0 < size ∧ reqPageNum size ≤ maxHeapEntry ∧ FreeRun s (payloadOrder size) := by
  by_cases hreject : size = 0 ∨ reqPageNum size > maxHeapEntry
  · have hzero : (_alloc s size).1 = 0 := by simp only [_alloc, if_pos hreject]
    refine iff_of_false (fun hne => hne hzero) fun hrun => ?_
    have hpos := hrun.1
    have hpages := hrun.2.1
    omega
  · have hpages : reqPageNum size ≤ maxHeapEntry := by omega
    have htotal : (heapHeaderSize + size) % 2 ^ 32 = heapHeaderSize + size :=
      Nat.mod_eq_of_lt (totalSize_lt hpages)
    obtain ⟨hk, -, -, hsix⟩ := payloadOrder_spec hpages
    have hdvd : 2 ^ payloadOrder size ∣ heapEntry := by
      have h10 : heapEntry = 2 ^ 10 := rfl
      rw [h10]
      exact Nat.pow_dvd_pow 2 (by omega)
    have hint : heapEntry < 2 ^ 31 := by decide
    have hfind := (findFreeRegion_finds hint hdvd s.heapMap).enomem_iff
    have hptr : ∀ idx, heapVirtAddr idx ≠ enomem ∧ heapPageToData (heapVirtAddr idx) ≠ 0 := by
      intro idx
      unfold heapPageToData heapVirtAddr heapVirtTop heapHeaderSize enomem
      omega
    have hgranted : (_alloc s size).1 ≠ 0 ↔
        (findFreeRegion s.heapMap heapEntry (payloadOrder size)).1 ≠ -(enomem : Int) := by
      simp only [_alloc, if_neg hreject, htotal, allocRequestPages, hk, Int.toNat_natCast]
      by_cases hfull : (findFreeRegion s.heapMap heapEntry (payloadOrder size)).1 = -(enomem : Int)
      · simp only [if_true, ne_eq, not_true, hfull]
      · simp only [if_neg hfull, createHeapPages, if_neg (hptr _).1]
        exact iff_of_true (hptr _).2 hfull
    rw [hgranted, ne_eq, hfind, ← ne_eq, ← Set.nonempty_iff_ne_empty]
    exact ⟨fun h => ⟨by omega, hpages, h⟩, fun h => h.2.2⟩

/-- A granted request occupies the pages of its order. -/
theorem setCount_alloc {s : HeapState} (hsize : size < 2 ^ 32) (hne : (_alloc s size).1 ≠ 0) :
    setCount (_alloc s size).2.heapMap heapEntry =
      setCount s.heapMap heapEntry + 2 ^ payloadOrder size := by
  obtain hnull | ⟨o, t, rfl, hplaced, hclear, -, heq⟩ := alloc_cases s hsize
  · exact absurd (congrArg Prod.fst hnull) hne
  · rw [heq]
    exact setCount_union hplaced.inside (fun i hlo hhi => hclear i ⟨hlo, hhi⟩)
      fun i _ => bitAt_regOp_alloc s.heapMap hplaced.aligned i

end Requests

/-! ## The limit -/

/-- No object occupies more than `MAX_HEAP_ENTRY` pages, and one that fits in them is granted
wherever there is a run that holds it. -/
structure SizeLimit (s : HeapState) (size : Nat) : Prop where
  bounded : (malloc s size).1 ≠ 0 →
    setCount (malloc s size).2.heapMap heapEntry ≤ setCount s.heapMap heapEntry + maxHeapEntry
  accepted : 0 < size → heapHeaderSize + size ≤ maxHeapEntry * heapPageSize →
    ∀ k, heapHeaderSize + size ≤ 2 ^ k * heapPageSize → FreeRun s k → (malloc s size).1 ≠ 0

/-- Header and payload are longer than `MAX_HEAP_ENTRY` pages, and the payload passes the test of
`__alloc` all the same. -/
def Oversized (size : Nat) : Prop :=
  maxHeapEntry * heapPageSize < heapHeaderSize + size ∧ reqPageNum size ≤ maxHeapEntry

section Limit

variable {s : HeapState} {size : Nat}

/-- What fits in the limit is granted. -/
theorem malloc_accepted (hpos : 0 < size)
    (hfits : heapHeaderSize + size ≤ maxHeapEntry * heapPageSize) {k : Nat}
    (hk : heapHeaderSize + size ≤ 2 ^ k * heapPageSize) (hrun : FreeRun s k) :
    (malloc s size).1 ≠ 0 := by
  have hpages : reqPageNum size ≤ maxHeapEntry := by
    unfold heapHeaderSize maxHeapEntry heapPageSize at hfits
    unfold reqPageNum maxHeapEntry heapPageSize
    omega
  have hleast := (payloadOrder_spec hpages).2.2.1
  have hle : payloadOrder size ≤ k := by
    by_contra hlt
    exact absurd (hleast k (by omega)) (by omega)
  exact (alloc_ne_zero_iff s size).mpr ⟨hpos, hpages, hrun.mono hle⟩

/-- An oversized payload has 64 pages where there is a run of them. -/
theorem malloc_oversized (hsize : size < 2 ^ 32) (hover : Oversized size) (hrun : FreeRun s 6) :
    (malloc s size).1 ≠ 0 ∧
      setCount (malloc s size).2.heapMap heapEntry = setCount s.heapMap heapEntry + 64 := by
  obtain ⟨hlarge, hpages⟩ := hover
  have hsix := (payloadOrder_eq_six_iff hpages).mpr hlarge
  have hpos : 0 < size := by
    unfold maxHeapEntry heapPageSize heapHeaderSize at hlarge
    omega
  have hne : (_alloc s size).1 ≠ 0 :=
    (alloc_ne_zero_iff s size).mpr ⟨hpos, hpages, hsix.symm ▸ hrun⟩
  have hcount := setCount_alloc hsize hne
  rw [hsix] at hcount
  exact ⟨hne, hcount⟩

/-- The size of an object is limited exactly where the payload is not oversized or there is no
run of 64 pages. -/
theorem sizeLimit_iff (s : HeapState) (size : Nat) (hsize : size < 2 ^ 32) :
    SizeLimit s size ↔ ¬ (Oversized size ∧ FreeRun s 6) := by
  constructor
  · rintro ⟨hbounded, -⟩ ⟨hover, hrun⟩
    obtain ⟨hne, hcount⟩ := malloc_oversized hsize hover hrun
    have hle := hbounded hne
    unfold maxHeapEntry at hle
    omega
  · intro hfit
    refine ⟨?_, fun hpos hfits k hk hrun => malloc_accepted hpos hfits hk hrun⟩
    intro hne
    obtain ⟨-, hpages, hrun⟩ := (alloc_ne_zero_iff s size).mp hne
    have hcount : setCount (malloc s size).2.heapMap heapEntry = _ := setCount_alloc hsize hne
    have hsix := (payloadOrder_spec hpages).2.2.2
    have hfive : payloadOrder size ≤ 5 := by
      by_contra hgt
      have horder : payloadOrder size = 6 := by omega
      exact hfit ⟨⟨(payloadOrder_eq_six_iff hpages).mp horder, hpages⟩, horder ▸ hrun⟩
    have hpow : 2 ^ payloadOrder size ≤ 2 ^ 5 := Nat.pow_le_pow_right (by decide) hfive
    have hmax : maxHeapEntry = 2 ^ 5 := rfl
    omega

/-- A fresh heap has a free run of 64 pages. -/
theorem freeRun_heapInit : FreeRun (heapInit 0 blankHeap) 6 :=
  ⟨0, Nat.dvd_zero _, by decide, fun i _ hhi =>
    bitAt_bitmapClear _ (by decide) (Nat.lt_trans hhi (by decide))⟩

/-- An object of one page is limited. -/
theorem sizeLimit_iff_page : SizeLimit (heapInit 0 blankHeap) 4092 := by
  refine (sizeLimit_iff (heapInit 0 blankHeap) 4092 (by decide)).mpr ?_
  rintro ⟨⟨hlarge, -⟩, -⟩
  exact absurd hlarge (by decide)

/-- An object of 32 pages has no room for its header in them, and a fresh heap grants it. -/
theorem malloc_exceeds : ¬ SizeLimit (heapInit 0 blankHeap) (32 * heapPageSize) := by
  rintro ⟨hbounded, -⟩
  have hover : Oversized (32 * heapPageSize) := ⟨by decide, by decide⟩
  obtain ⟨hne, hcount⟩ := malloc_oversized (by decide) hover freeRun_heapInit
  have hle := hbounded hne
  unfold maxHeapEntry at hle
  omega

end Limit

end Heap
end NochOS
