import NochOS.Heap.Runs

/-!
# Kernel heap - the contents of objects

A client sees an object through its bytes.  This module follows them through `realloc` and
`calloc`: the length of the copy is computed from the header of the old object after the new one
has been allocated, and it has to stay inside both.

Main results:

- Theorem `Consistent.alloc_sameBytes`: an allocation changes no byte of a live object.
- Theorem `realloc_mem`: the memory behind a successful `realloc` is a copy of the shorter size.
- Theorem `realloc_preserves`: the contents of all objects in every reachable state.
-/

namespace NochOS
namespace Heap

open Library Bitmap

/-- The bytes of an object are the same in two states. -/
def SameBytes (s s' : HeapState) (o : Obj) : Prop :=
  ∀ off < o.size, s'.mem (o.ptr + off) = s.mem (o.ptr + off)

theorem SameBytes.refl (s : HeapState) (o : Obj) : SameBytes s s o := fun _ _ => rfl

/-! ## Allocation and release -/

/-- Payload bytes of objects that share no page are at different addresses. -/
theorem Apart.payload_ne {a b : Obj} (h : Apart a b) (ha : a.Placed) (hb : b.Placed)
    {k l : Nat} (hk : k < a.size) (hl : l < b.size) : a.ptr + k ≠ b.ptr + l := by
  have hbyte := h.byte_ne ha hb (Nat.add_lt_add_left hk heapHeaderSize)
    (Nat.add_lt_add_left hl heapHeaderSize)
  have hpa := ha.ptr_eq
  have hpb := hb.ptr_eq
  unfold heapPageToData at hpa hpb
  omega

/-- The payload bytes of an object lie outside the payload of one it shares no page with. -/
theorem Apart.payload_outside {a b : Obj} (h : Apart a b) (ha : a.Placed) (hb : b.Placed)
    {l : Nat} (hl : l < b.size) : b.ptr + l < a.ptr ∨ a.ptr + a.size ≤ b.ptr + l := by
  by_contra hin
  have hne := h.payload_ne ha hb (k := b.ptr + l - a.ptr) (by omega) hl
  omega

/-- A header byte and a payload byte of objects that share no page are at different addresses. -/
theorem Apart.header_ne {a b : Obj} (h : Apart a b) (ha : a.Placed) (hb : b.Placed)
    {k l : Nat} (hk : k < heapHeaderSize) (hl : l < b.size) :
    heapVirtAddr a.startIdx + k ≠ b.ptr + l := by
  have hbyte := h.byte_ne ha hb (Nat.lt_add_right a.size hk)
    (Nat.add_lt_add_left hl heapHeaderSize)
  have hpb := hb.ptr_eq
  unfold heapPageToData at hpb
  omega

section Calls

variable {s : HeapState} {live : List Obj} {size : Nat}

/-- A new object shares no page with the live ones. -/
theorem Consistent.alloc_apart (h : Consistent s live) (hsize : size < 2 ^ 32)
    (hne : (_alloc s size).1 ≠ 0) {p : Obj} (hp : p ∈ live) :
    Apart ⟨(_alloc s size).1, size⟩ p :=
  (List.pairwise_cons.mp (h.alloc hsize hne).apart).1 p hp

/-- An allocation changes no byte of a live object. -/
theorem Consistent.alloc_sameBytes (h : Consistent s live) (hsize : size < 2 ^ 32)
    (hne : (_alloc s size).1 ≠ 0) {p : Obj} (hp : p ∈ live) :
    SameBytes s (_alloc s size).2 p := by
  have hnew := (h.alloc hsize hne).placed _ List.mem_cons_self
  have hapart := h.alloc_apart hsize hne hp
  intro off hoff
  obtain hnull | ⟨o, t, rfl, hplaced, -, -, heq⟩ := alloc_cases s hsize
  · exact absurd (congrArg Prod.fst hnull) hne
  · rw [heq] at hapart ⊢
    apply setU32_outside
    by_contra hin
    -- the byte would be one of the header of the new object
    have hheader := Apart.header_ne (k := p.ptr + off - heapVirtAddr o.startIdx) hapart hplaced
      (h.placed p hp) (by unfold heapHeaderSize; omega) hoff
    apply hheader
    show heapVirtAddr o.startIdx + _ = _
    omega

/-- A release changes no byte of memory. -/
theorem destroyHeapPages_mem (s : HeapState) (startIdx n : Nat) :
    (destroyHeapPages s startIdx n).mem = s.mem := by
  unfold destroyHeapPages
  induction n with
  | zero => rfl
  | succ n ih =>
      rw [List.range_succ, List.foldl_append, List.foldl_cons, List.foldl_nil]
      exact ih

theorem free_mem (s : HeapState) (ptr : Nat) : (_free s ptr).mem = s.mem := by
  unfold _free
  split
  · rfl
  · simp only [freeRequestPages, destroyHeapPages_mem]

/-! ## Reallocation -/

/-- The copy of a successful `realloc` is as long as the shorter one of the two objects. -/
theorem realloc_mem (h : Consistent s live) {o : Obj} (ho : o ∈ live) (hsize : size < 2 ^ 32)
    (hne : (_alloc s size).1 ≠ 0) :
    (realloc s o.ptr size).2.mem =
      memcpy (_alloc s size).2.mem (_alloc s size).1 (_alloc s size).2.mem o.ptr
        (min o.size size) := by
  -- the header of the old object is intact behind the allocation
  have hheader := (h.alloc hsize hne).header o (List.mem_cons_of_mem _ ho)
  have hold : mallocInfo (_alloc s size).2 o.ptr - heapHeaderSize = o.size := by
    rw [hheader, Obj.totalSize, Nat.add_sub_cancel_left]
  have hmin : (if o.size < size then o.size else size) = min o.size size := by
    rw [Nat.min_def]
    split <;> split <;> omega
  simp only [realloc, if_neg hne, hold, hmin, free_mem]

/-- What a successful `realloc` of an object leaves. -/
structure Moved (s : HeapState) (live : List Obj) (o new : Obj) (s' : HeapState) : Prop where
  fresh : ∀ p ∈ live, Apart new p
  valid : Consistent s' (new :: live.erase o)
  copied : ∀ off < min o.size new.size, s'.mem (new.ptr + off) = s.mem (o.ptr + off)
  others : ∀ p ∈ live.erase o, SameBytes s s' p

/-- What a call that fails leaves. -/
structure Kept (s : HeapState) (live : List Obj) (s' : HeapState) : Prop where
  valid : Consistent s' live
  bytes : ∀ p ∈ live, SameBytes s s' p

/-- A successful `realloc` moves the object. -/
theorem Consistent.realloc_moved (h : Consistent s live) {o : Obj} (ho : o ∈ live)
    (hsize : size < 2 ^ 32) (hne : (Heap.realloc s o.ptr size).1 ≠ 0) :
    Moved s live o ⟨(Heap.realloc s o.ptr size).1, size⟩ (Heap.realloc s o.ptr size).2 := by
  rw [realloc_ptr] at hne ⊢
  have hmem := realloc_mem h ho hsize hne
  have hplaced := (h.alloc hsize hne).placed _ List.mem_cons_self
  refine ⟨fun p hp => h.alloc_apart hsize hne hp, h.realloc ho hsize hne, ?_, ?_⟩
  · intro off hoff
    have hlt : off < o.size := Nat.lt_of_lt_of_le hoff (Nat.min_le_left _ _)
    show (Heap.realloc s o.ptr size).2.mem ((_alloc s size).1 + off) = _
    rw [hmem, memcpy_inside (Nat.le_add_right _ _) (Nat.add_lt_add_left hoff _),
      Nat.add_sub_cancel_left]
    exact h.alloc_sameBytes hsize hne ho off hlt
  · intro p hp off hoff
    have hlive := List.mem_of_mem_erase hp
    rw [hmem]
    refine Eq.trans (memcpy_outside ?_) (h.alloc_sameBytes hsize hne hlive off hoff)
    have hout := (h.alloc_apart hsize hne hlive).payload_outside hplaced (h.placed p hlive) hoff
    have hle : min o.size size ≤ size := Nat.min_le_right _ _
    exact hout.imp_right (Nat.le_trans (Nat.add_le_add_left hle _))

/-- A `realloc` that fails keeps all objects. -/
theorem Consistent.realloc_kept (h : Consistent s live) (ptr : Nat) (hsize : size < 2 ^ 32)
    (hnull : (Heap.realloc s ptr size).1 = 0) : Kept s live (Heap.realloc s ptr size).2 := by
  rw [(null_keeps s hsize ptr).2.2 hnull]
  exact ⟨h, fun p _ => SameBytes.refl s p⟩

/-- A `calloc` changes no byte of a live object. -/
theorem Consistent.calloc_sameBytes (h : Consistent s live) (hsize : size < 2 ^ 32)
    (hne : (Heap.calloc s size).1 ≠ 0) {p : Obj} (hp : p ∈ live) :
    SameBytes s (Heap.calloc s size).2 p := by
  rw [calloc_ptr] at hne
  have hplaced := (h.alloc hsize hne).placed _ List.mem_cons_self
  intro off hoff
  have hmem : (Heap.calloc s size).2.mem =
      memset (_alloc s size).2.mem (_alloc s size).1 0 size := by
    unfold Heap.calloc
    rw [if_neg hne]
  rw [hmem]
  refine Eq.trans (memset_outside ?_) (h.alloc_sameBytes hsize hne hp off hoff)
  exact (h.alloc_apart hsize hne hp).payload_outside hplaced (h.placed p hp) hoff

/-- The object that `calloc` returns is all zero. -/
theorem calloc_zero (hne : (calloc s size).1 ≠ 0) {off : Nat} (hoff : off < size) :
    (calloc s size).2.mem ((calloc s size).1 + off) = 0 := by
  rw [calloc_ptr] at hne ⊢
  unfold calloc
  rw [if_neg hne]
  show memset _ _ _ _ _ = 0
  unfold memset
  rw [if_pos ⟨Nat.le_add_right _ _, Nat.add_lt_add_left hoff _⟩]

end Calls

/-- In every state that a run of heap calls and client writes reaches, `realloc` of a live object
either fails and keeps all objects, or moves the object with its contents and keeps the others;
`calloc` returns a zeroed object. -/
theorem realloc_preserves (table : BitVec 32) (k : Kernel) (hk : (heapSystem table).Reachable k)
    (o : Obj) (ho : o ∈ k.live) (size : Nat) (hsize : size < 2 ^ 32) :
    ((realloc k.heap o.ptr size).1 = 0 ∧ Kept k.heap k.live (realloc k.heap o.ptr size).2 ∨
      (realloc k.heap o.ptr size).1 ≠ 0 ∧
        Moved k.heap k.live o ⟨(realloc k.heap o.ptr size).1, size⟩
          (realloc k.heap o.ptr size).2) ∧
      ((calloc k.heap size).1 ≠ 0 →
        ∀ off < size, (calloc k.heap size).2.mem ((calloc k.heap size).1 + off) = 0) := by
  have h := (heap_consistent table k hk).1
  refine ⟨?_, fun hne off hoff => calloc_zero hne hoff⟩
  by_cases hnull : (realloc k.heap o.ptr size).1 = 0
  · exact Or.inl ⟨hnull, h.realloc_kept o.ptr hsize hnull⟩
  · exact Or.inr ⟨hnull, h.realloc_moved ho hsize hnull⟩

/-- The object of 5000 bytes is cut down to 100. -/
theorem realloc_preserves_afterMalloc :
    ((realloc afterMalloc.heap 0x800004 100).1 = 0 ∧
        Kept afterMalloc.heap afterMalloc.live (realloc afterMalloc.heap 0x800004 100).2 ∨
      (realloc afterMalloc.heap 0x800004 100).1 ≠ 0 ∧
        Moved afterMalloc.heap afterMalloc.live ⟨0x800004, 5000⟩
          ⟨(realloc afterMalloc.heap 0x800004 100).1, 100⟩
          (realloc afterMalloc.heap 0x800004 100).2) ∧
      ((calloc afterMalloc.heap 100).1 ≠ 0 → ∀ off < 100,
        (calloc afterMalloc.heap 100).2.mem ((calloc afterMalloc.heap 100).1 + off) = 0) := by
  have hstart : (heapSystem 0).Reachable ⟨heapInit 0 blankHeap, []⟩ :=
    TransitionSystem.Reachable.init ⟨blankHeap, fun _ => rfl, rfl⟩
  have hrun : (heapSystem 0).Reachable afterMalloc := hstart.step (Step.malloc _ 5000 (by decide))
  have hlive : (⟨0x800004, 5000⟩ : Obj) ∈ afterMalloc.live := by decide +kernel
  exact realloc_preserves 0 afterMalloc hrun ⟨0x800004, 5000⟩ hlive 100 (by decide)

end Heap
end NochOS
