import NochOS.Bitmap.Region
import NochOS.Heap.Order

/-!
# Kernel heap - allocation state and operations

This module embeds `mem.c` together with the heap half of `paging.c`: the page
bitmap, the heap page table, the usage counters and the memory that holds the
4-byte size header in front of every object.  An object pointer of zero is
`NULL`.

Main results:

- Definitions `_alloc`, `_free`, `malloc`, `calloc`, `realloc`, `free`,
  `heapInit`: the operations as the source computes them.
- Theorems `createHeapPages_spec`, `destroyHeapPages_spec`: the two page loops
  change exactly the present bits of their run.
-/

namespace NochOS
namespace Heap

open Library Bitmap

/-- `HEAP_ENTRY`. -/
def heapEntry : Nat := 1024

/-- `MAX_HEAP_ENTRY`. -/
def maxHeapEntry : Nat := 32

/-- `HEAP_HEADER_SIZE`. -/
def heapHeaderSize : Nat := 4

/-- `HEAP_VIRT_TOP`. -/
def heapVirtTop : Nat := 0x800000

/-- `HEAP_PHYS_TOP`. -/
def heapPhysTop : Nat := 0x2000000

/-- `HEAP_VIRT_ADDR(idx)`. -/
def heapVirtAddr (idx : Nat) : Nat := heapVirtTop + idx * heapPageSize

/-- `HEAP_PHYS_ADDR(idx)`. -/
def heapPhysAddr (idx : Nat) : Nat := heapPhysTop + idx * heapPageSize

/-- `HEAP_PAGE_TO_DATA(addr)`. -/
def heapPageToData (addr : Nat) : Nat := addr + heapHeaderSize

/-- `HEAP_DATA_TO_PAGE(addr)`. -/
def heapDataToPage (addr : Nat) : Nat := addr - heapHeaderSize

/-- `PAGE_PTR_TO_IDX(addr)`. -/
def pagePtrToIdx (addr : Nat) : Nat := (addr - heapVirtTop) / heapPageSize

/-- `get_alloc_idx`. -/
def getAllocIdx (ptr : Nat) : Nat := pagePtrToIdx (heapDataToPage ptr)

/-! ## Page-table flags -/

/-- `EN_P`. -/
def enP : BitVec 32 := 0x1#32

/-- `EN_RW`. -/
def enRw : BitVec 32 := 0x2#32

/-- `EN_US`. -/
def enUs : BitVec 32 := 0x4#32

/-- `EN_A`. -/
def enA : BitVec 32 := 0x20#32

/-- `(virt_start << 10) >> 22` on 32-bit values. -/
def pteIdx (virtStart : Nat) : Nat := virtStart * 2 ^ 10 % 2 ^ 32 / 2 ^ 22

/-! ## State -/

/-- `alloc_t`. -/
structure AllocInfo where
  pageAlloc : Nat
  objAlloc : Nat

/-- What the heap functions read and write. -/
structure HeapState where
  heapMap : Words
  heapPageTable : Nat → BitVec 32
  pageDirectory : Nat → BitVec 32
  allocInfo : AllocInfo
  mem : Buf

/-- Whether a heap page is marked present in the page table. -/
def HeapState.present (s : HeapState) (idx : Nat) : Bool :=
  (s.heapPageTable idx).getLsbD 0

/-! ## Paging -/

/-- `set_virtual_4mb_heap`; `table` is the address of `heap_page_table`. -/
def setVirtual4mbHeap (s : HeapState) (table : BitVec 32) (virtStart : Nat) : HeapState :=
  { s with
    pageDirectory := Function.update s.pageDirectory (virtStart / 2 ^ 22)
      ((table &&& 0xFFFFF000#32 &&& ~~~enA) ||| enP ||| enRw ||| enUs) }

/-- `set_virtual_4kb_heap`. -/
def setVirtual4kbHeap (s : HeapState) (physStart virtStart : Nat) : HeapState :=
  { s with
    heapPageTable := Function.update s.heapPageTable (pteIdx virtStart)
      ((BitVec.ofNat 32 physStart &&& 0xFFFFF000#32 &&& ~~~enA) ||| enP ||| enRw ||| enUs) }

/-- `free_virtual_4kb_heap`. -/
def freeVirtual4kbHeap (s : HeapState) (virtStart : Nat) : HeapState :=
  { s with
    heapPageTable := Function.update s.heapPageTable (pteIdx virtStart)
      (s.heapPageTable (pteIdx virtStart) &&& ~~~enP) }

/-- `create_heap_pages`. -/
def createHeapPages (s : HeapState) (startIdx numPages : Nat) : Nat × HeapState :=
  (heapVirtAddr startIdx, (List.range numPages).foldl
    (fun s i => setVirtual4kbHeap s (heapPhysAddr (startIdx + i)) (heapVirtAddr (startIdx + i))) s)

/-- `destroy_heap_pages`. -/
def destroyHeapPages (s : HeapState) (startIdx numPages : Nat) : HeapState :=
  (List.range numPages).foldl
    (fun s i => freeVirtual4kbHeap s (heapVirtAddr (startIdx + i))) s

/-! ## Allocation -/

/-- `ORDER_TO_SIZE(order)`. -/
def orderToSize (order : Int) : Nat := 2 ^ order.toNat

/-- `alloc_request_pages`. -/
def allocRequestPages (s : HeapState) (size : Nat) : Nat × HeapState :=
  let order := allocRequestOrder size
  let numPages := orderToSize order
  let found := findFreeRegion s.heapMap heapEntry order.toNat
  if found.1 = -(enomem : Int) then (enomem, { s with heapMap := found.2 })
  else
    let created := createHeapPages { s with heapMap := found.2 } found.1.toNat numPages
    (created.1,
      { created.2 with
        allocInfo :=
          { pageAlloc := (s.allocInfo.pageAlloc + numPages) % 2 ^ 32
            objAlloc := (s.allocInfo.objAlloc + 1) % 2 ^ 32 } })

/-- `free_request_pages`. -/
def freeRequestPages (s : HeapState) (startIdx size : Nat) : HeapState :=
  let order := allocRequestOrder size
  let numPages := orderToSize order
  let s := destroyHeapPages { s with heapMap := releaseRegion s.heapMap startIdx order.toNat }
    startIdx numPages
  { s with
    allocInfo :=
      { pageAlloc := (s.allocInfo.pageAlloc + 2 ^ 32 - numPages) % 2 ^ 32
        objAlloc := (s.allocInfo.objAlloc + 2 ^ 32 - 1) % 2 ^ 32 } }

/-- `__alloc`. -/
def _alloc (s : HeapState) (size : Nat) : Nat × HeapState :=
  let totalSize := (heapHeaderSize + size) % 2 ^ 32
  if size = 0 ∨ reqPageNum size > maxHeapEntry then (0, s)
  else
    let pages := allocRequestPages s totalSize
    if pages.1 = enomem then (0, pages.2)
    else (heapPageToData pages.1, { pages.2 with mem := setU32 pages.2.mem pages.1 totalSize })

/-- `malloc_info`. -/
def mallocInfo (s : HeapState) (ptr : Nat) : Nat := u32At s.mem (heapDataToPage ptr)

/-- `__free`. -/
def _free (s : HeapState) (ptr : Nat) : HeapState :=
  if ptr = 0 then s
  else freeRequestPages s (getAllocIdx ptr) (mallocInfo s ptr)

/-- `malloc`. -/
def malloc (s : HeapState) (size : Nat) : Nat × HeapState := _alloc s size

/-- `calloc`. -/
def calloc (s : HeapState) (size : Nat) : Nat × HeapState :=
  let r := _alloc s size
  if r.1 = 0 then r
  else (r.1, { r.2 with mem := memset r.2.mem r.1 0 size })

/-- `realloc`. -/
def realloc (s : HeapState) (ptr size : Nat) : Nat × HeapState :=
  let r := _alloc s size
  if r.1 = 0 then r
  else
    let oldDataSize := mallocInfo r.2 ptr - heapHeaderSize
    let cpysize := if oldDataSize < size then oldDataSize else size
    (r.1, _free { r.2 with mem := memcpy r.2.mem r.1 r.2.mem ptr cpysize } ptr)

/-- `free`. -/
def free (s : HeapState) (ptr : Nat) : HeapState := _free s ptr

/-- `heap_init`. -/
def heapInit (table : BitVec 32) (s : HeapState) : HeapState :=
  setVirtual4mbHeap
    { s with
      heapMap := bitmapClear s.heapMap heapEntry
      allocInfo := { pageAlloc := 0, objAlloc := 0 } }
    table heapVirtTop

/-! ## Page-table effects -/

/-- The page-table slot of a heap page is the page's index. -/
theorem pteIdx_heapVirtAddr {idx : Nat} (h : idx < heapEntry) :
    pteIdx (heapVirtAddr idx) = idx := by
  unfold heapEntry at h
  unfold pteIdx heapVirtAddr heapVirtTop heapPageSize
  omega

/-- An entry written for a mapped page has its present bit set. -/
theorem getLsbD_mapped (x : BitVec 32) :
    ((x &&& 0xFFFFF000#32 &&& ~~~enA) ||| enP ||| enRw ||| enUs).getLsbD 0 = true := by
  simp [enP]

/-- Creating pages marks exactly them present and leaves the rest of the state. -/
theorem createHeapPages_spec (s : HeapState) {startIdx n : Nat}
    (hroom : startIdx + n ≤ heapEntry) :
    ∃ t, (createHeapPages s startIdx n).2 = { s with heapPageTable := t } ∧
      ∀ i, (t i).getLsbD 0 =
        (s.present i || decide (startIdx ≤ i ∧ i < startIdx + n)) := by
  simp only [createHeapPages]
  induction n with
  | zero =>
      refine ⟨s.heapPageTable, rfl, fun i => ?_⟩
      have hnot : ¬ (startIdx ≤ i ∧ i < startIdx + 0) := by omega
      rw [decide_eq_false hnot]
      simp [HeapState.present]
  | succ n ih =>
      obtain ⟨t, ht, hbits⟩ := ih (by omega)
      rw [List.range_succ, List.foldl_append, List.foldl_cons, List.foldl_nil, ht]
      refine ⟨_, rfl, fun i => ?_⟩
      rw [pteIdx_heapVirtAddr (by omega)]
      by_cases hi : i = startIdx + n
      · subst hi
        rw [Function.update_self, getLsbD_mapped]
        simp
      · rw [Function.update_of_ne hi, hbits]
        have hiff : (startIdx ≤ i ∧ i < startIdx + (n + 1)) ↔
            (startIdx ≤ i ∧ i < startIdx + n) := by omega
        simp only [hiff]

/-- Destroying pages marks exactly them absent and leaves the rest of the state. -/
theorem destroyHeapPages_spec (s : HeapState) {startIdx n : Nat}
    (hroom : startIdx + n ≤ heapEntry) :
    ∃ t, destroyHeapPages s startIdx n = { s with heapPageTable := t } ∧
      ∀ i, (t i).getLsbD 0 =
        (s.present i && !decide (startIdx ≤ i ∧ i < startIdx + n)) := by
  simp only [destroyHeapPages]
  induction n with
  | zero =>
      refine ⟨s.heapPageTable, rfl, fun i => ?_⟩
      have hnot : ¬ (startIdx ≤ i ∧ i < startIdx + 0) := by omega
      rw [decide_eq_false hnot]
      simp [HeapState.present]
  | succ n ih =>
      obtain ⟨t, ht, hbits⟩ := ih (by omega)
      rw [List.range_succ, List.foldl_append, List.foldl_cons, List.foldl_nil, ht]
      refine ⟨_, rfl, fun i => ?_⟩
      rw [pteIdx_heapVirtAddr (by omega)]
      by_cases hi : i = startIdx + n
      · subst hi
        rw [Function.update_self]
        simp [enP]
      · rw [Function.update_of_ne hi, hbits]
        have hiff : (startIdx ≤ i ∧ i < startIdx + (n + 1)) ↔
            (startIdx ≤ i ∧ i < startIdx + n) := by omega
        simp only [hiff]

end Heap
end NochOS
