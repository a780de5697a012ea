import NochOS.Heap.Objects
import NochOS.Library.Transition
import Mathlib.Data.List.Perm.Basic
import Mathlib.Data.Finset.Dedup

/-!
# Kernel heap - consistency over whole runs

The heap keeps four records of the same facts: the page bitmap, the page table,
the usage counters and the headers in memory.  This module states when they
agree with the set of live objects, shows that every heap call and every write a
client makes inside its own object keeps them in agreement, and concludes that
they agree in every state a run can reach.

Main results:

- Structure `Consistent`: bitmap, page table, counters and headers describe the
  live objects.
- Theorems `Consistent.alloc`, `Consistent.free`, `Consistent.write`: one
  allocation, one release and one client write keep consistency.
- Theorem `heap_consistent`: every reachable state is consistent, and a call
  that returns `NULL` leaves the heap as it was.
-/

namespace NochOS
namespace Heap

open Library Bitmap

/-- The four records of the heap agree with the live objects. -/
structure Consistent (s : HeapState) (live : List Obj) : Prop where
  placed : ∀ o ∈ live, o.Placed
  apart : live.Pairwise Apart
  header : ∀ o ∈ live, mallocInfo s o.ptr = o.totalSize
  used : ∀ i < heapEntry, bitAt s.heapMap i = true ↔ ∃ o ∈ live, o.Owns i
  present : ∀ i < heapEntry, s.present i = bitAt s.heapMap i
  pages : s.allocInfo.pageAlloc = setCount s.heapMap heapEntry
  objects : s.allocInfo.objAlloc = live.length

/-! ## General facts -/

instance : Std.Symm Apart := ⟨fun _ _ hab => hab.symm⟩

/-- The order in which live objects are listed does not matter. -/
theorem Consistent.perm {s : HeapState} {live live' : List Obj} (h : Consistent s live)
    (hp : live.Perm live') : Consistent s live' where
  placed o ho := h.placed o (hp.mem_iff.mpr ho)
  apart := hp.pairwise h.apart fun hab => hab.symm
  header o ho := h.header o (hp.mem_iff.mpr ho)
  used i hi := by
    rw [h.used i hi]
    constructor
    · rintro ⟨o, ho, howns⟩
      exact ⟨o, hp.mem_iff.mp ho, howns⟩
    · rintro ⟨o, ho, howns⟩
      exact ⟨o, hp.mem_iff.mpr ho, howns⟩
  present := h.present
  pages := h.pages
  objects := by rw [h.objects, hp.length_eq]

/-- Objects that share no page are no more than there are pages. -/
theorem length_le_heapEntry {live : List Obj} (hplaced : ∀ o ∈ live, o.Placed)
    (hapart : live.Pairwise Apart) : live.length ≤ heapEntry := by
  have hnodup : (live.map Obj.startIdx).Nodup := by
    rw [List.Nodup, List.pairwise_map]
    refine hapart.imp ?_
    intro a b hab heq
    apply hab a.startIdx a.owns_startIdx
    rw [heq]
    exact b.owns_startIdx
  have hsub : (live.map Obj.startIdx).toFinset ⊆ Finset.range heapEntry := by
    intro i hi
    rw [List.mem_toFinset, List.mem_map] at hi
    obtain ⟨o, ho, rfl⟩ := hi
    have hin := (hplaced o ho).inside
    have hlen := o.len_pos
    rw [Finset.mem_range]
    omega
  have hcard := Finset.card_le_card hsub
  rw [List.toFinset_card_of_nodup hnodup, List.length_map, Finset.card_range] at hcard
  exact hcard

/-- The number of set bits never passes the number of pages. -/
theorem setCount_le (b : Words) (n : Nat) : setCount b n ≤ n := by
  have hcard := Finset.card_filter_le (Finset.range n) fun i => bitAt b i = true
  rw [Finset.card_range] at hcard
  exact hcard

/-- A header survives a change of memory outside its four bytes. -/
theorem mallocInfo_congr {s s' : HeapState} {o : Obj} (ho : o.Placed)
    (hmem : ∀ k < heapHeaderSize,
      s'.mem (heapVirtAddr o.startIdx + k) = s.mem (heapVirtAddr o.startIdx + k)) :
    mallocInfo s' o.ptr = mallocInfo s o.ptr := by
  unfold mallocInfo
  rw [ho.header_eq]
  exact u32At_congr hmem

/-- A change of memory that spares every live header keeps consistency. -/
theorem Consistent.of_mem {s : HeapState} {live : List Obj} (h : Consistent s live)
    {mem : Buf}
    (hmem : ∀ o ∈ live, ∀ k < heapHeaderSize,
      mem (heapVirtAddr o.startIdx + k) = s.mem (heapVirtAddr o.startIdx + k)) :
    Consistent { s with mem := mem } live where
  placed := h.placed
  apart := h.apart
  header o ho := by
    rw [← h.header o ho]
    exact mallocInfo_congr (h.placed o ho) (hmem o ho)
  used := h.used
  present := h.present
  pages := h.pages
  objects := h.objects

/-- A payload byte of a live object is in no live header. -/
theorem Consistent.payload_ne_header {s : HeapState} {live : List Obj}
    (h : Consistent s live) {o p : Obj} (ho : o ∈ live) (hp : p ∈ live) {off k : Nat}
    (hoff : off < o.size) (hk : k < heapHeaderSize) :
    o.ptr + off ≠ heapVirtAddr p.startIdx + k := by
  have hptr := (h.placed o ho).ptr_eq
  unfold heapPageToData at hptr
  by_cases hop : o = p
  · rw [← hop]
    omega
  · have hapart : Apart o p := h.apart.forall ho hp hop
    have hbyte := hapart.byte_ne (k := heapHeaderSize + off) (l := k) (h.placed o ho)
      (h.placed p hp) (by unfold Obj.totalSize; omega) (by unfold Obj.totalSize; omega)
    omega

/-- A run of memory inside one live payload may be overwritten. -/
theorem Consistent.of_payload {s : HeapState} {live : List Obj} (h : Consistent s live)
    {o : Obj} (ho : o ∈ live) {mem : Buf}
    (hmem : ∀ a, (∀ off < o.size, a ≠ o.ptr + off) → mem a = s.mem a) :
    Consistent { s with mem := mem } live := by
  apply h.of_mem
  intro p hp k hk
  apply hmem
  intro off hoff
  exact (h.payload_ne_header ho hp hoff hk).symm

/-- Memory may change inside one live payload. -/
theorem Consistent.of_outside {s : HeapState} {live : List Obj} (h : Consistent s live)
    {o : Obj} (ho : o ∈ live) {mem : Buf}
    (hmem : ∀ a, a < o.ptr ∨ o.ptr + o.size ≤ a → mem a = s.mem a) :
    Consistent { s with mem := mem } live := by
  apply h.of_payload ho
  intro a ha
  apply hmem
  by_contra hin
  exact ha (a - o.ptr) (by omega) (by omega)

/-- A copy into a live object keeps consistency. -/
theorem Consistent.copy {s : HeapState} {live : List Obj} (h : Consistent s live)
    {o : Obj} (ho : o ∈ live) {n : Nat} (hn : n ≤ o.size) (src : Buf) (off : Nat) :
    Consistent { s with mem := memcpy s.mem o.ptr src off n } live :=
  h.of_outside ho fun _ ha =>
    memcpy_outside (ha.imp_right (Nat.le_trans (Nat.add_le_add_left hn o.ptr)))

/-! ## The steps -/

/-- A client write inside a live object keeps consistency. -/
theorem Consistent.write {s : HeapState} {live : List Obj} (h : Consistent s live)
    {o : Obj} (ho : o ∈ live) {off : Nat} (hoff : off < o.size) (c : UInt8) :
    Consistent { s with mem := Function.update s.mem (o.ptr + off) c } live := by
  apply h.of_payload ho
  intro a ha
  exact Function.update_of_ne (ha off hoff) c s.mem

/-- An allocation that returns a pointer adds one live object. -/
theorem Consistent.alloc {s : HeapState} {live : List Obj} (h : Consistent s live)
    {size : Nat} (hsize : size < 2 ^ 32) (hne : (_alloc s size).1 ≠ 0) :
    Consistent (_alloc s size).2 (⟨(_alloc s size).1, size⟩ :: live) := by
  rcases alloc_cases s hsize with hnull | ⟨o, t, rfl, hplaced, hclear, htable, heq⟩
  · rw [hnull] at hne
    exact absurd rfl hne
  · rw [heq]
    change Consistent _ (o :: live)
    have hnew : ∀ p ∈ live, Apart o p := by
      intro p hp i hi hpi
      have hlt : i < heapEntry := by
        have hin := hplaced.inside
        have hi' := hi.2
        omega
      have hset := (h.used i hlt).mpr ⟨p, hp, hpi⟩
      rw [hclear i hi] at hset
      contradiction
    have hplaced' : ∀ p ∈ o :: live, p.Placed := by
      intro p hp
      rcases List.mem_cons.mp hp with rfl | hp
      · exact hplaced
      · exact h.placed p hp
    have hapart' : (o :: live).Pairwise Apart := List.pairwise_cons.mpr ⟨hnew, h.apart⟩
    have hbits : ∀ i, bitAt (regOp s.heapMap o.startIdx o.order .alloc).2 i =
        (bitAt s.heapMap i || decide (o.Owns i)) := fun i =>
      bitAt_regOp_alloc s.heapMap hplaced.aligned i
    have hcount : setCount (regOp s.heapMap o.startIdx o.order .alloc).2 heapEntry =
        setCount s.heapMap heapEntry + o.len :=
      setCount_union hplaced.inside (fun i hlo hhi => hclear i ⟨hlo, hhi⟩) fun i _ => hbits i
    refine
      { placed := hplaced'
        apart := hapart'
        header := ?_
        used := ?_
        present := ?_
        pages := ?_
        objects := ?_ }
    · intro p hp
      rcases List.mem_cons.mp hp with rfl | hp
      · unfold mallocInfo
        rw [hplaced.header_eq]
        exact u32At_setU32 _ _ hplaced.size_lt
      · rw [← h.header p hp]
        apply mallocInfo_congr (h.placed p hp)
        intro k hk
        apply setU32_outside
        by_contra hin
        -- the four header bytes of the new object are bytes of its own run
        have hbyte := (hnew p hp).byte_ne
          (k := heapVirtAddr p.startIdx + k - heapVirtAddr o.startIdx) (l := k)
          hplaced (h.placed p hp)
          (by unfold Obj.totalSize heapHeaderSize; omega)
          (by unfold Obj.totalSize; omega)
        omega
    · intro i hi
      rw [hbits, Bool.or_eq_true, h.used i hi, decide_eq_true_eq]
      simp only [List.mem_cons, exists_eq_or_imp]
      exact or_comm
    · intro i hi
      change (t i).getLsbD 0 = _
      rw [htable, hbits, h.present i hi]
    · change (s.allocInfo.pageAlloc + o.len) % 2 ^ 32 = _
      have hle := setCount_le (regOp s.heapMap o.startIdx o.order .alloc).2 heapEntry
      rw [hcount] at hle ⊢
      rw [h.pages]
      unfold heapEntry at hle ⊢
      omega
    · change (s.allocInfo.objAlloc + 1) % 2 ^ 32 = _
      have hle := length_le_heapEntry hplaced' hapart'
      rw [List.length_cons] at hle ⊢
      rw [h.objects]
      unfold heapEntry at hle
      omega

/-- Releasing a live object removes exactly that object. -/
theorem Consistent.free {s : HeapState} {live : List Obj} {o : Obj}
    (h : Consistent s (o :: live)) : Consistent (_free s o.ptr) live := by
  have ho : o ∈ o :: live := List.mem_cons_self
  have hplaced := h.placed o ho
  obtain ⟨t, htable, heq⟩ := free_eq s hplaced (h.header o ho)
  rw [heq]
  have hnew := (List.pairwise_cons.mp h.apart).1
  have hbits : ∀ i, bitAt (releaseRegion s.heapMap o.startIdx o.order) i =
      (bitAt s.heapMap i && !decide (o.Owns i)) := fun i =>
    bitAt_releaseRegion s.heapMap hplaced.aligned i
  have hset : ∀ i, o.Owns i → bitAt s.heapMap i = true := by
    intro i hi
    have hin := hplaced.inside
    have hi' := hi.2
    exact (h.used i (by omega)).mpr ⟨o, ho, hi⟩
  have hcount : setCount s.heapMap heapEntry =
      setCount (releaseRegion s.heapMap o.startIdx o.order) heapEntry + o.len :=
    setCount_diff hplaced.inside (fun i hlo hhi => hset i ⟨hlo, hhi⟩) fun i _ => hbits i
  have hle := setCount_le s.heapMap heapEntry
  unfold heapEntry at hle
  refine ⟨fun p hp => h.placed p (List.mem_cons_of_mem _ hp), (List.pairwise_cons.mp h.apart).2,
    fun p hp => h.header p (List.mem_cons_of_mem _ hp), ?_, ?_, ?_, ?_⟩
  · intro i hi
    rw [hbits, Bool.and_eq_true, h.used i hi]
    constructor
    · rintro ⟨⟨p, hp, hpi⟩, hnot⟩
      rcases List.mem_cons.mp hp with rfl | hp
      · simp [hpi] at hnot
      · exact ⟨p, hp, hpi⟩
    · rintro ⟨p, hp, hpi⟩
      have hnot : ¬ o.Owns i := fun hoi => hnew p hp i hoi hpi
      exact ⟨⟨p, List.mem_cons_of_mem _ hp, hpi⟩, by simp [hnot]⟩
  · intro i hi
    change (t i).getLsbD 0 = _
    rw [htable, hbits, h.present i hi]
  · change (s.allocInfo.pageAlloc + 2 ^ 32 - o.len) % 2 ^ 32 =
      setCount (releaseRegion s.heapMap o.startIdx o.order) heapEntry
    rw [h.pages]
    unfold heapEntry at hcount ⊢
    omega
  · change (s.allocInfo.objAlloc + 2 ^ 32 - 1) % 2 ^ 32 = _
    have hlen := length_le_heapEntry h.placed h.apart
    rw [h.objects]
    rw [List.length_cons] at hlen ⊢
    unfold heapEntry at hlen
    omega

/-! ## Runs -/

/-- The heap together with the objects its clients hold. -/
structure Kernel where
  heap : HeapState
  live : List Obj

/-- The live objects after a call that returned `ptr` for `size` bytes. -/
def hold (ptr size : Nat) (live : List Obj) : List Obj :=
  if ptr = 0 then live else ⟨ptr, size⟩ :: live

theorem hold_null {ptr : Nat} (h : ptr = 0) (size : Nat) (live : List Obj) :
    hold ptr size live = live := if_pos h

theorem hold_ne_null {ptr : Nat} (h : ptr ≠ 0) (size : Nat) (live : List Obj) :
    hold ptr size live = ⟨ptr, size⟩ :: live := if_neg h

/-- One heap call, or one write of a client inside an object it holds. -/
inductive Step : Kernel → Kernel → Prop
  | malloc (k : Kernel) (size : Nat) (hsize : size < 2 ^ 32) :
      Step k ⟨(malloc k.heap size).2, hold (malloc k.heap size).1 size k.live⟩
  | calloc (k : Kernel) (size : Nat) (hsize : size < 2 ^ 32) :
      Step k ⟨(calloc k.heap size).2, hold (calloc k.heap size).1 size k.live⟩
  | realloc (k : Kernel) (o : Obj) (ho : o ∈ k.live) (size : Nat) (hsize : size < 2 ^ 32) :
      Step k ⟨(realloc k.heap o.ptr size).2,
        if (realloc k.heap o.ptr size).1 = 0 then k.live
        else ⟨(realloc k.heap o.ptr size).1, size⟩ :: k.live.erase o⟩
  | free (k : Kernel) (o : Obj) (ho : o ∈ k.live) :
      Step k ⟨free k.heap o.ptr, k.live.erase o⟩
  | write (k : Kernel) (o : Obj) (ho : o ∈ k.live) (off : Nat) (hoff : off < o.size)
      (c : UInt8) :
      Step k ⟨{ k.heap with mem := Function.update k.heap.mem (o.ptr + off) c }, k.live⟩

/-- Runs that start with `heap_init` on the zeroed page table of a fresh kernel;
the bitmap, the counters and the memory may hold anything before it. -/
def heapSystem (table : BitVec 32) : TransitionSystem Kernel where
  init k := ∃ s : HeapState, (∀ i, s.heapPageTable i = 0) ∧ k = ⟨heapInit table s, []⟩
  step := Step

/-- A fresh heap is consistent with no live objects. -/
theorem consistent_heapInit (table : BitVec 32) {s : HeapState}
    (hzero : ∀ i, s.heapPageTable i = 0) : Consistent (heapInit table s) [] := by
  have hbits : ∀ i < heapEntry, bitAt (heapInit table s).heapMap i = false := fun i hi =>
    bitAt_bitmapClear s.heapMap (by decide) hi
  refine ⟨by simp, List.Pairwise.nil, by simp, ?_, ?_, ?_, rfl⟩
  · intro i hi
    simp [hbits i hi]
  · intro i hi
    rw [hbits i hi]
    change (s.heapPageTable i).getLsbD 0 = false
    rw [hzero]
    rfl
  · change 0 = setCount (heapInit table s).heapMap heapEntry
    unfold setCount setBits
    rw [Finset.filter_false_of_mem, Finset.card_empty]
    intro i hi
    simp [hbits i (Finset.mem_range.mp hi)]

/-- A failed allocation changes nothing. -/
theorem alloc_null {s : HeapState} {size : Nat} (hsize : size < 2 ^ 32)
    (hnull : (_alloc s size).1 = 0) : (_alloc s size).2 = s := by
  rcases alloc_cases s hsize with hs | ⟨o, t, -, hplaced, -, -, heq⟩
  · rw [hs]
  · rw [heq] at hnull
    exact absurd hnull hplaced.ptr_ne_zero

/-- `calloc` returns the pointer of its allocation. -/
theorem calloc_ptr (s : HeapState) (size : Nat) : (calloc s size).1 = (_alloc s size).1 := by
  simp only [calloc]
  split <;> rfl

/-- `realloc` returns the pointer of its allocation. -/
theorem realloc_ptr (s : HeapState) (ptr size : Nat) :
    (realloc s ptr size).1 = (_alloc s size).1 := by
  simp only [realloc]
  split <;> rfl

/-- A heap call that returns `NULL` leaves the heap as it was. -/
theorem null_keeps (s : HeapState) {size : Nat} (hsize : size < 2 ^ 32) (ptr : Nat) :
    ((malloc s size).1 = 0 → (malloc s size).2 = s) ∧
      ((calloc s size).1 = 0 → (calloc s size).2 = s) ∧
      ((realloc s ptr size).1 = 0 → (realloc s ptr size).2 = s) := by
  refine ⟨alloc_null hsize, ?_, ?_⟩
  · intro hnull
    rw [calloc_ptr] at hnull
    rw [calloc, if_pos hnull]
    exact alloc_null hsize hnull
  · intro hnull
    rw [realloc_ptr] at hnull
    rw [realloc, if_pos hnull]
    exact alloc_null hsize hnull

/-- `calloc` keeps consistency. -/
theorem Consistent.calloc {s : HeapState} {live : List Obj} (h : Consistent s live)
    {size : Nat} (hsize : size < 2 ^ 32) (hne : (_alloc s size).1 ≠ 0) :
    Consistent (calloc s size).2 (⟨(_alloc s size).1, size⟩ :: live) := by
  have halloc := h.alloc hsize hne
  rw [Heap.calloc, if_neg hne]
  exact halloc.of_outside List.mem_cons_self fun _ ha => memset_outside ha

/-- `realloc` replaces one live object by another. -/
theorem Consistent.realloc {s : HeapState} {live : List Obj} (h : Consistent s live)
    {o : Obj} (ho : o ∈ live) {size : Nat} (hsize : size < 2 ^ 32)
    (hne : (_alloc s size).1 ≠ 0) :
    Consistent (realloc s o.ptr size).2 (⟨(_alloc s size).1, size⟩ :: live.erase o) := by
  have halloc := h.alloc hsize hne
  rw [Heap.realloc, if_neg hne]
  set new : Obj := ⟨(_alloc s size).1, size⟩ with hnew
  set cpysize := if mallocInfo (_alloc s size).2 o.ptr - heapHeaderSize < size then
    mallocInfo (_alloc s size).2 o.ptr - heapHeaderSize else size with hcpy
  have hle : cpysize ≤ size := by
    rw [hcpy]
    split <;> omega
  have hcopy : Consistent
      { (_alloc s size).2 with
        mem := memcpy (_alloc s size).2.mem (_alloc s size).1 (_alloc s size).2.mem o.ptr cpysize }
      (new :: live) :=
    halloc.copy List.mem_cons_self hle (_alloc s size).2.mem o.ptr
  have hperm : (new :: live).Perm (o :: new :: live.erase o) :=
    ((List.perm_cons_erase ho).cons new).trans (List.Perm.swap _ _ _)
  exact (hcopy.perm hperm).free

/-- Every step keeps consistency. -/
theorem consistent_step {k k' : Kernel} (h : Consistent k.heap k.live) (hstep : Step k k') :
    Consistent k'.heap k'.live := by
  cases hstep with
  | malloc size hsize =>
      change Consistent (_alloc k.heap size).2 (hold (_alloc k.heap size).1 size k.live)
      by_cases hnull : (_alloc k.heap size).1 = 0
      · rw [hold_null hnull, alloc_null hsize hnull]
        exact h
      · rw [hold_ne_null hnull]
        exact h.alloc hsize hnull
  | calloc size hsize =>
      have hkeep := (null_keeps k.heap hsize 0).2.1
      change Consistent (calloc k.heap size).2 (hold (calloc k.heap size).1 size k.live)
      rw [calloc_ptr] at hkeep ⊢
      by_cases hnull : (_alloc k.heap size).1 = 0
      · rw [hold_null hnull, hkeep hnull]
        exact h
      · rw [hold_ne_null hnull]
        exact h.calloc hsize hnull
  | realloc o ho size hsize =>
      have hkeep := (null_keeps k.heap hsize o.ptr).2.2
      simp only [realloc_ptr] at hkeep ⊢
      by_cases hnull : (_alloc k.heap size).1 = 0
      · rw [if_pos hnull, hkeep hnull]
        exact h
      · rw [if_neg hnull]
        exact h.realloc ho hsize hnull
  | free o ho => exact (h.perm (List.perm_cons_erase ho)).free
  | write o ho off hoff c => exact h.write ho hoff c

/-- In every state a run of heap calls and client writes can reach, the page
runs of the live objects, the bitmap, the page table, the counters and the
headers agree, and every further call that returns `NULL` changes nothing. -/
theorem heap_consistent (table : BitVec 32) (k : Kernel)
    (hk : (heapSystem table).Reachable k) :
    Consistent k.heap k.live ∧
      ∀ (size : Nat), size < 2 ^ 32 → ∀ (ptr : Nat),
        ((malloc k.heap size).1 = 0 → (malloc k.heap size).2 = k.heap) ∧
          ((calloc k.heap size).1 = 0 → (calloc k.heap size).2 = k.heap) ∧
          ((realloc k.heap ptr size).1 = 0 → (realloc k.heap ptr size).2 = k.heap) := by
  have hinv : (heapSystem table).IsInvariant fun k => Consistent k.heap k.live := by
    refine ⟨?_, fun k k' h hstep => consistent_step h hstep⟩
    rintro k ⟨s, hzero, rfl⟩
    exact consistent_heapInit table hzero
  exact ⟨hinv.of_reachable hk, fun size hsize ptr => null_keeps k.heap hsize ptr⟩

/-- A machine state in which every byte, word and counter is zero. -/
def blankHeap : HeapState :=
  { heapMap := fun _ => 0
    heapPageTable := fun _ => 0
    pageDirectory := fun _ => 0
    allocInfo := { pageAlloc := 0, objAlloc := 0 }
    mem := fun _ => 0 }

/-- The kernel after `heap_init` and one `malloc` of 5000 bytes. -/
def afterMalloc : Kernel :=
  { heap := (malloc (heapInit 0 blankHeap) 5000).2
    live := hold (malloc (heapInit 0 blankHeap) 5000).1 5000 [] }

/-- The run of one `malloc` reaches a consistent state that holds one object. -/
theorem heap_consistent_afterMalloc :
    afterMalloc.live.length = 1 ∧ Consistent afterMalloc.heap afterMalloc.live := by
  have hstart : (heapSystem 0).Reachable ⟨heapInit 0 blankHeap, []⟩ :=
    TransitionSystem.Reachable.init ⟨blankHeap, fun _ => rfl, rfl⟩
  have hrun : (heapSystem 0).Reachable afterMalloc := hstart.step (Step.malloc _ 5000 (by decide))
  exact ⟨by decide +kernel, (heap_consistent 0 afterMalloc hrun).1⟩

end Heap
end NochOS
