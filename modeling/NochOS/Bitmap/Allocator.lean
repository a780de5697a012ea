import NochOS.Bitmap.Region
import NochOS.Library.Occupancy

/-!
# Bitmap library - the region allocator

This module embeds `allocate_region` and states what the three operations on regions promise.
A bitmap is read as the set of its set bits; allocating a region and releasing it are then
requests for a block of places.

Main results:

- Theorems `occupied_alloc`, `occupied_releaseRegion`: the updates as operations on sets.
- Theorem `regOp_inside`: a region below the bound has its words inside the bitmap.
- Theorem `RegionCall.run_serves`: a call serves its request, and says whether it is granted.
- Theorem `regions_allocated`: the specification of the three operations.
-/

namespace NochOS
namespace Bitmap

open Library

/-- `EBUSY`. -/
def ebusy : Nat := 16

/-- `allocate_region`. -/
def allocateRegion (bitmap : Words) (pos order : Nat) : Int × Words :=
  if (regOp bitmap pos order .isFree).1 = 0 then (-(ebusy : Int), bitmap)
  else (0, (regOp bitmap pos order .alloc).2)

/-! ## A bitmap as a set -/

/-- The set bits of a bitmap. -/
def occupied (bitmap : Words) : Set Nat := {i | bitAt bitmap i = true}

/-- The bits of a region. -/
def region (pos order : Nat) : Set Nat := Set.Ico pos (pos + 2 ^ order)

/-- All bits of a region are clear. -/
def Clear (bitmap : Words) (pos order : Nat) : Prop :=
  ∀ i, pos ≤ i → i < pos + 2 ^ order → bitAt bitmap i = false

/-- A bitmap is determined by its set bits. -/
theorem occupied_injective : Function.Injective occupied := by
  intro a b h
  apply words_ext
  intro i
  exact Bool.eq_iff_iff.mpr (Set.ext_iff.mp h i)

/-- A region is clear exactly when it has no set bit. -/
theorem clear_iff (bitmap : Words) (pos order : Nat) :
    Clear bitmap pos order ↔ Disjoint (region pos order) (occupied bitmap) := by
  rw [Set.disjoint_left]
  constructor
  · intro h i hi hset
    exact Bool.false_ne_true ((h i hi.1 hi.2).symm.trans hset)
  · intro h i hlo hhi
    exact Bool.eq_false_iff.mpr (h ⟨hlo, hhi⟩)

section Aligned

variable {bitmap : Words} {pos order : Nat} (halign : 2 ^ order ∣ pos)

include halign

/-- The free test fails exactly when the region is not clear. -/
theorem isFree_eq_zero_iff :
    (regOp bitmap pos order .isFree).1 = 0 ↔ ¬ Clear bitmap pos order :=
  not_iff_comm.mp (regOp_isFree_iff bitmap halign) |>.symm

/-- Allocating adds the region. -/
theorem occupied_alloc :
    occupied (regOp bitmap pos order .alloc).2 = occupied bitmap ∪ region pos order := by
  ext i
  show bitAt _ i = true ↔ bitAt bitmap i = true ∨ (pos ≤ i ∧ i < pos + 2 ^ order)
  rw [bitAt_regOp_alloc bitmap halign, Bool.or_eq_true, decide_eq_true_eq]

/-- Releasing removes the region. -/
theorem occupied_releaseRegion :
    occupied (releaseRegion bitmap pos order) = occupied bitmap \ region pos order := by
  ext i
  show bitAt _ i = true ↔ bitAt bitmap i = true ∧ ¬ (pos ≤ i ∧ i < pos + 2 ^ order)
  rw [bitAt_releaseRegion bitmap halign, Bool.and_eq_true, Bool.not_eq_true',
    decide_eq_false_iff_not]

/-- A clear region is allocated. -/
theorem allocateRegion_of_clear (h : Clear bitmap pos order) :
    allocateRegion bitmap pos order = (0, (regOp bitmap pos order .alloc).2) := by
  unfold allocateRegion
  rw [if_neg fun hzero => (isFree_eq_zero_iff halign).mp hzero h]

/-- A region with a set bit is refused. -/
theorem allocateRegion_of_not_clear (h : ¬ Clear bitmap pos order) :
    allocateRegion bitmap pos order = (-(ebusy : Int), bitmap) := by
  unfold allocateRegion
  rw [if_pos ((isFree_eq_zero_iff halign).mpr h)]

end Aligned

/-! ## Regions of a bitmap of `num_bits` bits -/

/-- An aligned region that begins below the bound. -/
structure RegionOf (numBits pos order : Nat) : Prop where
  aligned : 2 ^ order ∣ pos
  lt : pos < numBits
  dvd : 2 ^ order ∣ numBits

section Bounds

variable {numBits pos order : Nat}

/-- A region that begins below the bound ends there. -/
theorem RegionOf.le (h : RegionOf numBits pos order) : pos + 2 ^ order ≤ numBits := by
  have hgap : 2 ^ order ∣ numBits - pos := Nat.dvd_sub h.dvd h.aligned
  have hle := Nat.le_of_dvd (Nat.sub_pos_of_lt h.lt) hgap
  have hlt := h.lt
  omega

/-- The words that `_reg_op` goes through are words of the bitmap. -/
theorem regOp_inside (hwords : bitsLong ∣ numBits) (h : RegionOf numBits pos order) :
    entryOffset pos + bitsToLong (2 ^ order) ≤ numBits / bitsLong := by
  have hle := h.le
  have hpos : 0 < 2 ^ order := Nat.two_pow_pos _
  obtain ⟨n, rfl⟩ := hwords
  unfold entryOffset bitsToLong bitsLong at *
  by_cases hsmall : order < 5
  · -- the region is part of one word
    have hone : 2 ^ order ≤ 2 ^ 4 := Nat.pow_le_pow_right (by decide) (by omega)
    have hlt := h.lt
    omega
  · -- the region is made of whole words
    have hpow : 2 ^ order = 32 * 2 ^ (order - 5) := by
      rw [show (32 : Nat) = 2 ^ 5 by rfl, ← Nat.pow_add]
      congr 1
      omega
    omega

end Bounds

/-! ## Calls as requests -/

/-- A call about one region. -/
inductive RegionCall
  | allocate (pos order : Nat)
  | release (pos order : Nat)

namespace RegionCall

/-- The call keeps to the aligned regions of the bitmap. -/
def Fits (numBits : Nat) : RegionCall → Prop
  | allocate pos order => RegionOf numBits pos order
  | release pos order => RegionOf numBits pos order

/-- The bits that the call is about. -/
def bits : RegionCall → Set Nat
  | allocate pos order => region pos order
  | release pos order => region pos order

/-- The call: its return value and the bitmap behind it. -/
def run : RegionCall → Words → Int × Words
  | allocate pos order, bitmap => allocateRegion bitmap pos order
  | release pos order, bitmap => (0, releaseRegion bitmap pos order)

/-- The request that the call stands for. -/
def request : RegionCall → Request Nat
  | allocate pos order => .take (region pos order)
  | release pos order => .give (region pos order)

variable {numBits : Nat} {c c' : RegionCall}

/-- A call and its request are about the same bits. -/
theorem block_request (c : RegionCall) : c.request.block = c.bits := by
  cases c <;> rfl

/-- A call serves its request and returns whether it was granted. -/
theorem run_serves (h : c.Fits numBits) (bitmap : Words) :
    occupied (c.run bitmap).2 = c.request.serve (occupied bitmap) ∧
      ((c.request.Granted (occupied bitmap) ∧ (c.run bitmap).1 = 0) ∨
        (¬ c.request.Granted (occupied bitmap) ∧ (c.run bitmap).1 = -(ebusy : Int))) := by
  cases c with
  | allocate pos order =>
      have halign := RegionOf.aligned h
      show occupied (allocateRegion bitmap pos order).2 = (Request.take _).serve _ ∧
        ((Disjoint _ _ ∧ (allocateRegion bitmap pos order).1 = 0) ∨
          (¬ Disjoint _ _ ∧ (allocateRegion bitmap pos order).1 = -(ebusy : Int)))
      by_cases hclear : Clear bitmap pos order
      · have hfree := (clear_iff bitmap pos order).mp hclear
        rw [allocateRegion_of_clear halign hclear, Request.serve_take hfree]
        exact ⟨occupied_alloc halign, Or.inl ⟨hfree, rfl⟩⟩
      · have hbusy := (clear_iff bitmap pos order).not.mp hclear
        rw [allocateRegion_of_not_clear halign hclear, Request.serve_take_of_not hbusy]
        exact ⟨rfl, Or.inr ⟨hbusy, rfl⟩⟩
  | release pos order =>
      exact ⟨occupied_releaseRegion (RegionOf.aligned h), Or.inl ⟨trivial, rfl⟩⟩

/-- The return value after a call for other bits is the one before it. -/
theorem result_comm (h : c.Fits numBits) (h' : c'.Fits numBits)
    (hdisjoint : Disjoint c.bits c'.bits) (bitmap : Words) :
    (c.run (c'.run bitmap).2).1 = (c.run bitmap).1 := by
  rw [← block_request, ← block_request] at hdisjoint
  have hsame := @Request.granted_serve _ _ _ (occupied bitmap) hdisjoint
  rw [← (run_serves h' bitmap).1] at hsame
  obtain ⟨hgranted, hzero⟩ | ⟨hrefused, hbusy⟩ := (run_serves h bitmap).2
  · obtain ⟨-, hzero'⟩ | ⟨hrefused', -⟩ := (run_serves h (c'.run bitmap).2).2
    · rw [hzero, hzero']
    · exact absurd (hsame.mpr hgranted) hrefused'
  · obtain ⟨hgranted', -⟩ | ⟨-, hbusy'⟩ := (run_serves h (c'.run bitmap).2).2
    · exact absurd (hsame.mp hgranted') hrefused
    · rw [hbusy, hbusy']

/-- The bitmap after two calls for different bits does not depend on their order. -/
theorem bitmap_comm (h : c.Fits numBits) (h' : c'.Fits numBits)
    (hdisjoint : Disjoint c.bits c'.bits) (bitmap : Words) :
    (c.run (c'.run bitmap).2).2 = (c'.run (c.run bitmap).2).2 := by
  rw [← block_request, ← block_request] at hdisjoint
  apply occupied_injective
  rw [(run_serves h _).1, (run_serves h' _).1, (run_serves h' _).1, (run_serves h _).1]
  exact Request.serve_comm hdisjoint _

end RegionCall

/-! ## The specification -/

/-- The positions at which a region can be allocated. -/
def freePositions (bitmap : Words) (numBits order : Nat) : Set Nat :=
  {p | 2 ^ order ∣ p ∧ p + 2 ^ order ≤ numBits ∧ Clear bitmap p order}

/-- The result of the search: the least position, as an `int`, with exactly its region set, or an
error and the bitmap as it was. -/
structure Finds (bitmap : Words) (numBits order : Nat) (result : Int) (bitmap' : Words) :
    Prop where
  least : ∀ p, IsLeast (freePositions bitmap numBits order) p →
    result = p ∧ result < 2 ^ 31 ∧ occupied bitmap' = occupied bitmap ∪ region p order
  enomem_iff : result = -(enomem : Int) ↔ freePositions bitmap numBits order = ∅
  unchanged : result = -(enomem : Int) → bitmap' = bitmap

/-- The result of an allocation: exactly the region is set if it was clear, and nothing changes
otherwise. -/
structure Allocates (bitmap : Words) (pos order : Nat) (result : Int) (bitmap' : Words) :
    Prop where
  zero_iff : result = 0 ↔ Clear bitmap pos order
  sets : result = 0 → occupied bitmap' = occupied bitmap ∪ region pos order
  busy : result ≠ 0 → result = -(ebusy : Int) ∧ bitmap' = bitmap

section Specification

variable {numBits order : Nat}

/-- The search returns the least position with a clear region. -/
theorem findFreeRegion_finds (hint : numBits < 2 ^ 31) (hdvd : 2 ^ order ∣ numBits)
    (bitmap : Words) :
    Finds bitmap numBits order (findFreeRegion bitmap numBits order).1
      (findFreeRegion bitmap numBits order).2 := by
  have hpos : 0 < 2 ^ order := Nat.two_pow_pos _
  obtain ⟨hfind, hfull⟩ | ⟨p, hfind, halign, hle, hclear, hbelow⟩ :=
    findFreeRegion_cases bitmap hdvd
  · have hempty : freePositions bitmap numBits order = ∅ := by
      apply Set.eq_empty_iff_forall_notMem.mpr
      rintro q ⟨hq, hle, hclear⟩
      obtain ⟨i, hlo, hhi, hset⟩ := hfull q hq (by omega)
      exact Bool.false_ne_true ((hclear i hlo hhi).symm.trans hset)
    rw [hfind]
    refine ⟨fun p hp => ?_, iff_of_true rfl hempty, fun _ => rfl⟩
    rw [hempty] at hp
    exact absurd hp.1 (Set.notMem_empty p)
  · have hleast : IsLeast (freePositions bitmap numBits order) p := by
      refine ⟨⟨halign, hle, hclear⟩, ?_⟩
      rintro q ⟨hq, -, hfree⟩
      by_contra hlt
      obtain ⟨i, hlo, hhi, hset⟩ := hbelow q hq (Nat.lt_of_not_le hlt)
      exact Bool.false_ne_true ((hfree i hlo hhi).symm.trans hset)
    have hsign : (p : Int) ≠ -(enomem : Int) := by
      unfold enomem
      omega
    rw [hfind]
    refine ⟨?_, iff_of_false hsign ?_, fun h => absurd h hsign⟩
    · intro q hq
      rw [hq.unique hleast]
      exact ⟨rfl, by omega, occupied_alloc halign⟩
    · exact Set.nonempty_iff_ne_empty.mp ⟨p, hleast.1⟩

/-- An allocation succeeds exactly where the region is clear. -/
theorem allocateRegion_allocates {pos : Nat} (halign : 2 ^ order ∣ pos) (bitmap : Words) :
    Allocates bitmap pos order (allocateRegion bitmap pos order).1
      (allocateRegion bitmap pos order).2 := by
  by_cases hclear : Clear bitmap pos order
  · rw [allocateRegion_of_clear halign hclear]
    exact ⟨iff_of_true rfl hclear, fun _ => occupied_alloc halign, fun h => absurd rfl h⟩
  · have hbusy : -(ebusy : Int) ≠ 0 := by decide
    rw [allocateRegion_of_not_clear halign hclear]
    exact ⟨iff_of_false hbusy hclear, fun h => absurd h hbusy, fun _ => ⟨rfl, rfl⟩⟩

/-- A region that was allocated and is released leaves no trace. -/
theorem releaseRegion_allocateRegion {pos : Nat} (halign : 2 ^ order ∣ pos) {bitmap : Words}
    (hclear : Clear bitmap pos order) :
    releaseRegion (allocateRegion bitmap pos order).2 pos order = bitmap := by
  have hfree := (clear_iff bitmap pos order).mp hclear
  apply occupied_injective
  rw [allocateRegion_of_clear halign hclear, occupied_releaseRegion halign, occupied_alloc halign,
    ← Request.serve_take hfree]
  exact Request.serve_take_give hfree

end Specification

/-- The region allocator: the size of a region is an `int`, what the search, the allocation and
the release of a region do to a bitmap of `num_bits` bits, and that calls about different bits
commute. -/
theorem regions_allocated {numBits order : Nat} (hint : numBits < 2 ^ 31)
    (hwords : bitsLong ∣ numBits) (hdvd : 2 ^ order ∣ numBits) (hle : 2 ^ order ≤ numBits)
    (bitmap : Words) :
    2 ^ order < 2 ^ 31 ∧
      Finds bitmap numBits order (findFreeRegion bitmap numBits order).1
        (findFreeRegion bitmap numBits order).2 ∧
      (∀ pos, 2 ^ order ∣ pos → pos < numBits →
        entryOffset pos + bitsToLong (2 ^ order) ≤ numBits / bitsLong ∧
        Allocates bitmap pos order (allocateRegion bitmap pos order).1
          (allocateRegion bitmap pos order).2 ∧
        occupied (releaseRegion bitmap pos order) = occupied bitmap \ region pos order ∧
        (Clear bitmap pos order →
          releaseRegion (allocateRegion bitmap pos order).2 pos order = bitmap)) ∧
      ∀ c c' : RegionCall, c.Fits numBits → c'.Fits numBits → Disjoint c.bits c'.bits →
        (c.run (c'.run bitmap).2).1 = (c.run bitmap).1 ∧
        (c'.run (c.run bitmap).2).1 = (c'.run bitmap).1 ∧
        (c.run (c'.run bitmap).2).2 = (c'.run (c.run bitmap).2).2 := by
  refine ⟨Nat.lt_of_le_of_lt hle hint, findFreeRegion_finds hint hdvd bitmap, ?_, ?_⟩
  · intro pos halign hlt
    exact ⟨regOp_inside hwords ⟨halign, hlt, hdvd⟩, allocateRegion_allocates halign bitmap,
      occupied_releaseRegion halign, releaseRegion_allocateRegion halign⟩
  · intro c c' h h' hdisjoint
    exact ⟨RegionCall.result_comm h h' hdisjoint bitmap,
      RegionCall.result_comm h' h hdisjoint.symm bitmap,
      RegionCall.bitmap_comm h h' hdisjoint bitmap⟩

/-- Half a word of a bitmap of two words is allocated and released, also around a release of the
other word. -/
theorem regions_allocated_halfWord :
    Finds (fun _ => 1#32) 64 4 (findFreeRegion (fun _ => 1#32) 64 4).1
        (findFreeRegion (fun _ => 1#32) 64 4).2 ∧
      releaseRegion (allocateRegion (fun _ => 1#32) 16 4).2 16 4 = (fun _ => 1#32) ∧
      ((RegionCall.allocate 16 4).run ((RegionCall.release 32 5).run fun _ => 1#32).2).2 =
        ((RegionCall.release 32 5).run ((RegionCall.allocate 16 4).run fun _ => 1#32).2).2 := by
  obtain ⟨-, hfinds, hregion, hcomm⟩ := @regions_allocated 64 4
    (by decide) (by decide) (by decide) (by decide) fun _ => 1#32
  have hhalf : (RegionCall.allocate 16 4).Fits 64 := ⟨by decide, by decide, by decide⟩
  have hword : (RegionCall.release 32 5).Fits 64 := ⟨by decide, by decide, by decide⟩
  refine ⟨hfinds, (hregion 16 (by decide) (by decide)).2.2.2 ?_, (hcomm _ _ hhalf hword ?_).2.2⟩
  · intro i hlo hhi
    simp only [bitAt]
    interval_cases i <;> rfl
  · apply Set.disjoint_left.mpr
    rintro i ⟨-, hhi⟩ ⟨hlo, -⟩
    omega

end Bitmap
end NochOS
