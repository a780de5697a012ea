import NochOS.Heap.Model

/-!
# Kernel heap - objects and their page runs

An allocated object is known by its pointer and its size.  Everything else about
it is recomputed from these two, as `free` recomputes it from the header: the
order, the first page and the run of pages.  This module says when an object is
placed properly and what one allocation and one release do in these terms.

Main results:

- Theorem `alloc_cases`: an allocation returns `NULL` and keeps the state, or
  places a new object on a clear run of pages.
- Theorem `free_eq`: freeing a placed object whose header is intact releases
  exactly the object's run.
-/

namespace NochOS
namespace Heap

open Library Bitmap

/-- An allocated object: what the caller holds and what it asked for. -/
structure Obj where
  ptr : Nat
  size : Nat
deriving DecidableEq

namespace Obj

/-- Header and payload together. -/
def totalSize (o : Obj) : Nat := heapHeaderSize + o.size

/-- The order the allocator computes for the object. -/
def order (o : Obj) : Nat := (allocRequestOrder o.totalSize).toNat

/-- The number of pages in the object's run. -/
def len (o : Obj) : Nat := 2 ^ o.order

/-- The first page of the object's run. -/
def startIdx (o : Obj) : Nat := getAllocIdx o.ptr

/-- The pages of the object's run. -/
def Owns (o : Obj) (i : Nat) : Prop := o.startIdx ≤ i ∧ i < o.startIdx + o.len

instance (o : Obj) (i : Nat) : Decidable (o.Owns i) :=
  inferInstanceAs (Decidable (_ ∧ _))

/-- The object sits at the start of an aligned run inside the heap that is long
enough for its header and payload. -/
structure Placed (o : Obj) : Prop where
  size_pos : 0 < o.size
  size_lt : o.totalSize < 2 ^ 32
  ptr_eq : o.ptr = heapPageToData (heapVirtAddr o.startIdx)
  aligned : o.len ∣ o.startIdx
  inside : o.startIdx + o.len ≤ heapEntry
  fits : o.totalSize ≤ o.len * heapPageSize

/-- The header address of a placed object is the start of its run. -/
theorem Placed.header_eq {o : Obj} (h : o.Placed) :
    heapDataToPage o.ptr = heapVirtAddr o.startIdx := by
  rw [h.ptr_eq, heapDataToPage, heapPageToData, Nat.add_sub_cancel]

/-- A placed object's pointer is not `NULL`. -/
theorem Placed.ptr_ne_zero {o : Obj} (h : o.Placed) : o.ptr ≠ 0 := by
  rw [h.ptr_eq, heapPageToData, heapHeaderSize]
  omega

theorem len_pos (o : Obj) : 0 < o.len := Nat.two_pow_pos _

/-- A run owns its first page. -/
theorem owns_startIdx (o : Obj) : o.Owns o.startIdx := by
  have hlen := o.len_pos
  exact ⟨le_rfl, by omega⟩

/-- The bytes of a placed object, header included, lie in the pages it owns. -/
theorem Placed.owns_of_byte {o : Obj} (h : o.Placed) {k : Nat} (hk : k < o.totalSize) :
    o.Owns (o.startIdx + k / heapPageSize) := by
  have hfits := h.fits
  have hpage : k / heapPageSize < o.len := by
    rw [Nat.div_lt_iff_lt_mul (by decide)]
    omega
  exact ⟨Nat.le_add_right _ _, Nat.add_lt_add_left hpage _⟩

end Obj

/-- Two objects share no page. -/
def Apart (a b : Obj) : Prop := ∀ i, a.Owns i → ¬ b.Owns i

theorem Apart.symm {a b : Obj} (h : Apart a b) : Apart b a :=
  fun i hb ha => h i ha hb

/-- Objects that share no page have different pointers. -/
theorem Apart.ptr_ne {a b : Obj} (h : Apart a b) : a.ptr ≠ b.ptr := by
  intro hptr
  have hstart : a.startIdx = b.startIdx := by
    unfold Obj.startIdx
    rw [hptr]
  apply h a.startIdx a.owns_startIdx
  rw [hstart]
  exact b.owns_startIdx

/-- Bytes of placed objects that share no page are at different addresses. -/
theorem Apart.byte_ne {a b : Obj} (h : Apart a b) {k l : Nat} (ha : a.Placed)
    (hb : b.Placed) (hk : k < a.totalSize) (hl : l < b.totalSize) :
    heapVirtAddr a.startIdx + k ≠ heapVirtAddr b.startIdx + l := by
  intro heq
  apply h _ (ha.owns_of_byte hk)
  have hpage : a.startIdx + k / heapPageSize = b.startIdx + l / heapPageSize := by
    unfold heapVirtAddr heapPageSize at heq
    unfold heapPageSize
    omega
  rw [hpage]
  exact hb.owns_of_byte hl

/-! ## One allocation -/

/-- The orders the allocator accepts are at most six. -/
theorem order_le_six {size k : Nat} (hpages : reqPageNum size ≤ maxHeapEntry)
    (hleast : ∀ j < k, 2 ^ j * heapPageSize < heapHeaderSize + size) : k ≤ 6 := by
  by_contra hk
  have hsix := hleast 6 (by omega)
  unfold reqPageNum maxHeapEntry heapPageSize at hpages
  unfold heapPageSize heapHeaderSize at hsix
  omega

/-- An allocation returns `NULL` and keeps the state, or places a new object on a
clear run, marks the run used and present, counts it and writes its header. -/
theorem alloc_cases (s : HeapState) {size : Nat} (hsize : size < 2 ^ 32) :
    _alloc s size = (0, s) ∨
    ∃ o : Obj, ∃ t : Nat → BitVec 32, o.size = size ∧ o.Placed ∧
      (∀ i, o.Owns i → bitAt s.heapMap i = false) ∧
      (∀ i, (t i).getLsbD 0 = (s.present i || decide (o.Owns i))) ∧
      _alloc s size = (o.ptr,
        { heapMap := (regOp s.heapMap o.startIdx o.order .alloc).2
          heapPageTable := t
          pageDirectory := s.pageDirectory
          allocInfo :=
            { pageAlloc := (s.allocInfo.pageAlloc + o.len) % 2 ^ 32
              objAlloc := (s.allocInfo.objAlloc + 1) % 2 ^ 32 }
          mem := setU32 s.mem (heapVirtAddr o.startIdx) o.totalSize }) := by
  by_cases hreject : size = 0 ∨ reqPageNum size > maxHeapEntry
  · left
    simp only [_alloc, if_pos hreject]
  · have hpos : 0 < size := by omega
    have hpages : reqPageNum size ≤ maxHeapEntry := by omega
    have htotal : (heapHeaderSize + size) % 2 ^ 32 = heapHeaderSize + size := by
      unfold reqPageNum maxHeapEntry heapPageSize at hpages
      unfold heapHeaderSize
      omega
    have htotalpos : 0 < heapHeaderSize + size := by omega
    have htotallt : heapHeaderSize + size < 2 ^ 32 := by
      rw [← htotal]
      exact Nat.mod_lt _ (by decide)
    obtain ⟨k, hk, hfits, hleast⟩ := allocRequestOrder_spec htotalpos htotallt
    have hsix := order_le_six hpages hleast
    have hdvd : 2 ^ k ∣ heapEntry := by
      have h10 : heapEntry = 2 ^ 10 := rfl
      rw [h10]
      exact Nat.pow_dvd_pow 2 (by omega)
    simp only [_alloc, if_neg hreject, htotal, allocRequestPages, hk, orderToSize,
      Int.toNat_natCast]
    rcases findFreeRegion_cases s.heapMap hdvd with ⟨hfail, -⟩ | ⟨p, hfound, hp, hroom, hclear, -⟩
    · left
      rw [hfail]
      simp
    · right
      have hptr : getAllocIdx (heapPageToData (heapVirtAddr p)) = p := by
        unfold getAllocIdx pagePtrToIdx heapDataToPage heapPageToData heapVirtAddr
          heapHeaderSize heapPageSize
        omega
      obtain ⟨t, ht, hbits⟩ := createHeapPages_spec
        { s with heapMap := (regOp s.heapMap p k .alloc).2 } hroom
      have horder : (Obj.mk (heapPageToData (heapVirtAddr p)) size).order = k := by
        simp only [Obj.order, Obj.totalSize, hk, Int.toNat_natCast]
      have hstart : (Obj.mk (heapPageToData (heapVirtAddr p)) size).startIdx = p := hptr
      have hlen : (Obj.mk (heapPageToData (heapVirtAddr p)) size).len = 2 ^ k := by
        rw [Obj.len, horder]
      have howns : ∀ i, (Obj.mk (heapPageToData (heapVirtAddr p)) size).Owns i ↔
          p ≤ i ∧ i < p + 2 ^ k := by
        intro i
        rw [Obj.Owns, hstart, hlen]
      have hne : ((p : Int) = -(enomem : Int)) = False := by
        simp only [enomem, eq_iff_iff, iff_false]
        omega
      have haddr : heapVirtAddr p ≠ enomem := by
        unfold heapVirtAddr heapVirtTop enomem
        omega
      refine ⟨⟨heapPageToData (heapVirtAddr p), size⟩, t, rfl,
        ⟨hpos, htotallt, by rw [hstart], ?_, ?_, ?_⟩, ?_, ?_, ?_⟩
      · rw [hlen, hstart]
        exact hp
      · rw [hlen, hstart]
        exact hroom
      · rw [hlen]
        exact hfits
      · intro i hi
        exact hclear i ((howns i).mp hi).1 ((howns i).mp hi).2
      · intro i
        rw [hbits]
        simp only [howns, HeapState.present]
      · have hcreated : (createHeapPages { s with heapMap := (regOp s.heapMap p k .alloc).2 }
            p (2 ^ k)).1 = heapVirtAddr p := rfl
        simp only [hfound, hne, if_false, Int.toNat_natCast, hcreated, haddr, ht, hstart, horder,
          hlen, Obj.totalSize]

/-! ## One release -/

/-- Freeing a placed object whose header is intact clears its run in the bitmap
and in the page table and takes it off the counters. -/
theorem free_eq (s : HeapState) {o : Obj} (h : o.Placed)
    (hheader : mallocInfo s o.ptr = o.totalSize) :
    ∃ t : Nat → BitVec 32,
      (∀ i, (t i).getLsbD 0 = (s.present i && !decide (o.Owns i))) ∧
      _free s o.ptr =
        { heapMap := releaseRegion s.heapMap o.startIdx o.order
          heapPageTable := t
          pageDirectory := s.pageDirectory
          allocInfo :=
            { pageAlloc := (s.allocInfo.pageAlloc + 2 ^ 32 - o.len) % 2 ^ 32
              objAlloc := (s.allocInfo.objAlloc + 2 ^ 32 - 1) % 2 ^ 32 }
          mem := s.mem } := by
  obtain ⟨t, ht, hbits⟩ := destroyHeapPages_spec
    { s with heapMap := releaseRegion s.heapMap o.startIdx o.order } h.inside
  refine ⟨t, hbits, ?_⟩
  have hpages : orderToSize (allocRequestOrder o.totalSize) = o.len := rfl
  have hstart : getAllocIdx o.ptr = o.startIdx := rfl
  have horder : (allocRequestOrder o.totalSize).toNat = o.order := rfl
  simp only [_free, if_neg h.ptr_ne_zero, hheader, freeRequestPages, hpages, hstart, horder, ht]

end Heap
end NochOS
