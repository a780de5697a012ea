import NochOS.Heap.Objects
import NochOS.Library.Paging

/-!
# Kernel heap - what its page table maps

A heap page is mapped to the page of the same index in the heap's physical memory,
or not at all.  This holds of the table whatever the callers of the heap do: also
after the release of a pointer that is no object, and after a second `heap_init`.

Main results:

- Definition `MapsHeap`: the table maps heap pages to heap memory only.
- Theorems `MapsHeap.malloc`, `MapsHeap.free`: every allocation and every release
  keeps it so.
-/

namespace NochOS
namespace Heap

open Library Bitmap Paging

/-- The table entry that `set_virtual_4kb_heap` writes for a heap page. -/
def heapPte (idx : Nat) : BitVec 32 :=
  (BitVec.ofNat 32 (heapPhysAddr idx) &&& 0xFFFFF000#32 &&& ~~~enA) ||| enP ||| enRw ||| enUs

/-- The table maps heap pages to the heap's physical memory, index by index. -/
def MapsHeap (table : Table) : Prop :=
  ∀ i, present (table i) = true → i < heapEntry ∧ table i = heapPte i

/-- Writing the entry of a heap page. -/
theorem MapsHeap.set {table : Table} (h : MapsHeap table) {idx : Nat} (hidx : idx < heapEntry) :
    MapsHeap (Function.update table idx (heapPte idx)) := by
  intro i hpresent
  by_cases hi : i = idx
  · subst hi
    exact ⟨hidx, Function.update_self ..⟩
  · rw [Function.update_of_ne hi] at hpresent ⊢
    exact h i hpresent

/-- Clearing the present flag of an entry. -/
theorem MapsHeap.clear {table : Table} (h : MapsHeap table) (idx : Nat) :
    MapsHeap (Function.update table idx (table idx &&& ~~~enP)) := by
  intro i hpresent
  by_cases hi : i = idx
  · subst hi
    rw [Function.update_self] at hpresent
    simp [present, enP] at hpresent
  · rw [Function.update_of_ne hi] at hpresent ⊢
    exact h i hpresent

/-- Creating pages of the heap. -/
theorem MapsHeap.createHeapPages {s : HeapState} (h : MapsHeap s.heapPageTable)
    {startIdx n : Nat} (hroom : startIdx + n ≤ heapEntry) :
    MapsHeap (Heap.createHeapPages s startIdx n).2.heapPageTable ∧
      (Heap.createHeapPages s startIdx n).2.pageDirectory = s.pageDirectory := by
  simp only [Heap.createHeapPages]
  induction n with
  | zero => exact ⟨h, rfl⟩
  | succ n ih =>
      obtain ⟨htable, hdir⟩ := ih (by omega)
      rw [List.range_succ, List.foldl_append, List.foldl_cons, List.foldl_nil]
      refine ⟨?_, hdir⟩
      simp only [setVirtual4kbHeap]
      rw [pteIdx_heapVirtAddr (by omega)]
      exact htable.set (by omega)

/-- Destroying pages, inside the heap or not. -/
theorem MapsHeap.destroyHeapPages {s : HeapState} (h : MapsHeap s.heapPageTable)
    (startIdx n : Nat) :
    MapsHeap (Heap.destroyHeapPages s startIdx n).heapPageTable ∧
      (Heap.destroyHeapPages s startIdx n).pageDirectory = s.pageDirectory := by
  simp only [Heap.destroyHeapPages]
  induction n with
  | zero => exact ⟨h, rfl⟩
  | succ n ih =>
      obtain ⟨htable, hdir⟩ := ih
      rw [List.range_succ, List.foldl_append, List.foldl_cons, List.foldl_nil]
      exact ⟨htable.clear _, hdir⟩

/-- The run of pages an accepted request asks for divides the heap. -/
theorem order_of_accepted {size : Nat} (hsize : ¬ (size = 0 ∨ reqPageNum size > maxHeapEntry)) :
    ∃ k : Nat, (heapHeaderSize + size) % 2 ^ 32 = heapHeaderSize + size ∧
      allocRequestOrder (heapHeaderSize + size) = (k : Int) ∧ 2 ^ k ∣ heapEntry := by
  have hpages : reqPageNum size ≤ maxHeapEntry := by omega
  have hlt : heapHeaderSize + size < 2 ^ 32 := by
    unfold reqPageNum maxHeapEntry heapPageSize at hpages
    unfold heapHeaderSize
    omega
  obtain ⟨k, hk, -, hleast⟩ := allocRequestOrder_spec (by omega) hlt
  have hsix := order_le_six hpages hleast
  refine ⟨k, Nat.mod_eq_of_lt hlt, hk, ?_⟩
  have h10 : heapEntry = 2 ^ 10 := rfl
  rw [h10]
  exact Nat.pow_dvd_pow 2 (by omega)

/-- Every allocation keeps the table to heap memory and the directory as it is. -/
theorem MapsHeap.malloc {s : HeapState} (h : MapsHeap s.heapPageTable) (size : Nat) :
    MapsHeap (Heap.malloc s size).2.heapPageTable ∧
      (Heap.malloc s size).2.pageDirectory = s.pageDirectory := by
  by_cases hreject : size = 0 ∨ reqPageNum size > maxHeapEntry
  · simp only [Heap.malloc, _alloc, if_pos hreject]
    exact ⟨h, trivial⟩
  · obtain ⟨k, htotal, hk, hdvd⟩ := order_of_accepted hreject
    simp only [Heap.malloc, _alloc, if_neg hreject, htotal, allocRequestPages, hk, orderToSize,
      Int.toNat_natCast]
    rcases findFreeRegion_cases s.heapMap hdvd with ⟨hfail, -⟩ | ⟨p, hfound, -, hroom, -, -⟩
    · rw [hfail]
      exact ⟨h, rfl⟩
    · have hne : ((p : Int) = -(enomem : Int)) = False := by
        simp only [enomem, eq_iff_iff, iff_false]
        omega
      have haddr : (Heap.createHeapPages { s with heapMap := (regOp s.heapMap p k .alloc).2 } p
          (2 ^ k)).1 ≠ enomem := by
        unfold Heap.createHeapPages heapVirtAddr heapVirtTop enomem
        omega
      simp only [hfound, hne, if_false, Int.toNat_natCast, haddr]
      exact MapsHeap.createHeapPages (s := { s with heapMap := (regOp s.heapMap p k .alloc).2 })
        h hroom

/-- Every release keeps the table to heap memory and the directory as it is. -/
theorem MapsHeap.free {s : HeapState} (h : MapsHeap s.heapPageTable) (ptr : Nat) :
    MapsHeap (Heap.free s ptr).heapPageTable ∧
      (Heap.free s ptr).pageDirectory = s.pageDirectory := by
  by_cases hnull : ptr = 0
  · simp only [Heap.free, _free, if_pos hnull]
    exact ⟨h, trivial⟩
  · simp only [Heap.free, _free, if_neg hnull, freeRequestPages]
    generalize releaseRegion s.heapMap (getAllocIdx ptr)
      (allocRequestOrder (mallocInfo s ptr)).toNat = heapMap
    exact MapsHeap.destroyHeapPages (s := { s with heapMap := heapMap }) h _ _

end Heap
end NochOS
