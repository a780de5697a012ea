import NochOS.Bitmap.Region

/-!
# Bitmap library - the predicates on whole bitmaps

`bitmap_empty`, `bitmap_full` and `bitmap_equal` scan the whole words below the
bound and mask the last partial word; `bitmap_clear`, `bitmap_set` and
`bitmap_copy` write the words the scan reads.  This module compares the three
predicates with `bitmap_query_bit`, bit by bit, and each setter with its
predicate.

Main results:

- Theorem `scan_eq`: the scan finds exactly the bits below the bound.
- Theorems `bitmapEmpty_eq`, `bitmapFull_eq`, `bitmapEqual_eq`: the predicates in
  terms of single bits.
- Theorem `predicates_match_iff`: the predicates and the setters agree with the
  bits exactly up to `2 ^ 32 - 32` bits, the last length that `BITS_TO_LONG` of a
  32-bit variable rounds up without wrapping.
-/

namespace NochOS
namespace Bitmap

open Library

/-- `BITMAP_LAST_ENTRY_MASK`. -/
def bitmapLastEntryMask (numBits : Nat) : BitVec 32 :=
  if bitOffset numBits ≠ 0 then (1#32 <<< bitOffset numBits) - 1 else ~~~0#32

/-- The scan the three predicates share: `high i` is the test of word `i` in
the loop, and `last i` the word that is masked after it. -/
def scan (high : Nat → Bool) (last : Words) (numBits : Nat) : Nat :=
  let limit := entryOffset numBits
  if (List.range limit).any high then 0
  else if bitOffset numBits ≠ 0 ∧ last limit &&& bitmapLastEntryMask numBits ≠ 0 then 0
  else 1

/-- `bitmap_empty`. -/
def bitmapEmpty (bitmap : Words) (numBits : Nat) : Nat :=
  scan (fun i => bitmap i != 0) bitmap numBits

/-- `bitmap_full`. -/
def bitmapFull (bitmap : Words) (numBits : Nat) : Nat :=
  scan (fun i => ~~~bitmap i != 0) (fun i => ~~~bitmap i) numBits

/-- `bitmap_equal`. -/
def bitmapEqual (first second : Words) (numBits : Nat) : Nat :=
  scan (fun i => first i != second i) (fun i => first i ^^^ second i) numBits

/-- `bitmap_set`. -/
def bitmapSet (bitmap : Words) (numBits : Nat) : Words :=
  let entries := bitsToLong32 numBits
  let filled : Words :=
    if entries > 1 then fun w => if w < entries - 1 then ~~~0#32 else bitmap w else bitmap
  -- with no entries the word written is `bitmap[-1]`, in front of the array
  if entries = 0 then filled
  else Function.update filled (entries - 1) (bitmapLastEntryMask numBits)

/-- `bitmap_copy`: the destination after the copy. -/
def bitmapCopy (dest src : Words) (numBits : Nat) : Words :=
  if numBits ≤ bitsLong then Function.update dest 0 (src 0)
  else fun w => if w < bitsToLong32 numBits then src w else dest w

/-! ## The mask of the last word -/

/-- The bits the mask of a partial last word selects. -/
theorem getLsbD_lastEntryMask {numBits j : Nat} (hpart : numBits % 32 ≠ 0) (hj : j < 32) :
    (bitmapLastEntryMask numBits).getLsbD j = decide (j < numBits % 32) := by
  have hmask : bitmapLastEntryMask numBits = BitVec.ofNat 32 (2 ^ (numBits % 32) - 1) := by
    have hlt : numBits % 32 < 32 := Nat.mod_lt _ (by decide)
    unfold bitmapLastEntryMask bitOffset bitsLong
    rw [if_pos hpart]
    generalize numBits % 32 = r at hlt
    interval_cases r <;> rfl
  rw [hmask, BitVec.getLsbD_ofNat, Nat.testBit_two_pow_sub_one, decide_eq_true hj,
    Bool.true_and]

/-- The mask of a last word that is used whole selects every bit. -/
theorem getLsbD_lastEntryMask_whole {numBits j : Nat} (hwhole : numBits % 32 = 0)
    (hj : j < 32) : (bitmapLastEntryMask numBits).getLsbD j = true := by
  unfold bitmapLastEntryMask bitOffset bitsLong
  rw [hwhole, if_neg (by decide), BitVec.getLsbD_not, BitVec.getLsbD_zero, decide_eq_true hj]
  rfl

/-! ## The scan -/

/-- A word is zero exactly when all its bits are clear. -/
theorem word_eq_zero_iff (b : Words) (w : Nat) :
    b w = 0 ↔ ∀ i, i / 32 = w → bitAt b i = false := by
  constructor
  · rintro h i rfl
    rw [bitAt, h]
    exact BitVec.getLsbD_zero
  · intro h
    apply BitVec.eq_of_getLsbD_eq
    intro j hj
    have hbit := h (32 * w + j) (by omega)
    rw [bitAt, show (32 * w + j) / 32 = w by omega, show (32 * w + j) % 32 = j by omega] at hbit
    rw [hbit]
    exact BitVec.getLsbD_zero.symm

/-- The masked last word is zero exactly when its bits below the bound are clear. -/
theorem lastWord_eq_zero_iff (b : Words) {numBits : Nat} (hpart : numBits % 32 ≠ 0) :
    b (numBits / 32) &&& bitmapLastEntryMask numBits = 0 ↔
      ∀ i < numBits, i / 32 = numBits / 32 → bitAt b i = false := by
  rw [and_mask_eq_zero_iff]
  constructor
  · intro h i hi hw
    have hlt : i % 32 < 32 := Nat.mod_lt _ (by decide)
    rw [bitAt, hw]
    apply h _ hlt
    rw [getLsbD_lastEntryMask hpart hlt, decide_eq_true_eq]
    omega
  · intro h j hj hm
    rw [getLsbD_lastEntryMask hpart hj, decide_eq_true_eq] at hm
    have hdiv : (32 * (numBits / 32) + j) / 32 = numBits / 32 := by omega
    have hmod : (32 * (numBits / 32) + j) % 32 = j := by omega
    have hbit := h (32 * (numBits / 32) + j) (by omega) hdiv
    rwa [bitAt, hdiv, hmod] at hbit

/-- The scan returns one exactly when no bit below the bound is set. -/
theorem scan_eq {high : Nat → Bool} {last : Words} (numBits : Nat)
    (hhigh : ∀ w, high w = true ↔ last w ≠ 0) :
    scan high last numBits = if ∀ i < numBits, bitAt last i = false then 1 else 0 := by
  have hwords : (List.range (numBits / 32)).any high = false ↔
      ∀ w < numBits / 32, last w = 0 := by
    simp only [List.any_eq_false, List.mem_range, hhigh, ne_eq, Decidable.not_not]
  have hscan : scan high last numBits = if (List.range (numBits / 32)).any high = true then 0
      else if numBits % 32 ≠ 0 ∧ last (numBits / 32) &&& bitmapLastEntryMask numBits ≠ 0 then 0
      else 1 := rfl
  rw [hscan]
  by_cases hclear : ∀ i < numBits, bitAt last i = false
  · have hany : ¬ (List.range (numBits / 32)).any high = true := by
      rw [Bool.not_eq_true]
      exact hwords.mpr fun w hw => (word_eq_zero_iff last w).mpr fun i hi => hclear i (by omega)
    have hlast : ¬ (numBits % 32 ≠ 0 ∧
        last (numBits / 32) &&& bitmapLastEntryMask numBits ≠ 0) := by
      rintro ⟨hpart, hne⟩
      exact hne ((lastWord_eq_zero_iff last hpart).mpr fun i hi _ => hclear i hi)
    rw [if_pos hclear, if_neg hany, if_neg hlast]
  · rw [if_neg hclear]
    by_cases hany : (List.range (numBits / 32)).any high = true
    · rw [if_pos hany]
    · have hzero := hwords.mp (by simpa using hany)
      -- the whole words are clear, so the set bit is in the last one
      have hlast : numBits % 32 ≠ 0 ∧
          last (numBits / 32) &&& bitmapLastEntryMask numBits ≠ 0 := by
        obtain ⟨i, hi, hset⟩ : ∃ i, i < numBits ∧ bitAt last i = true := by
          simpa using hclear
        have hword : ¬ i / 32 < numBits / 32 := by
          intro hlt
          have hbit := (word_eq_zero_iff last (i / 32)).mp (hzero _ hlt) i rfl
          rw [hset] at hbit
          contradiction
        have hpart : numBits % 32 ≠ 0 := by omega
        refine ⟨hpart, fun hmask => ?_⟩
        have hbit := (lastWord_eq_zero_iff last hpart).mp hmask i hi (by omega)
        rw [hset] at hbit
        contradiction
      rw [if_neg hany, if_pos hlast]

/-! ## The predicates bit by bit -/

/-- A query returns zero exactly when the bit is clear. -/
theorem bitmapQueryBit_eq_zero_iff (bitmap : Words) (bit : Nat) :
    bitmapQueryBit bitmap bit = 0 ↔ bitAt bitmap bit = false := by
  rw [bitmapQueryBit_eq]
  cases bitAt bitmap bit <;> simp

/-- A query returns one exactly when the bit is set. -/
theorem bitmapQueryBit_eq_one_iff (bitmap : Words) (bit : Nat) :
    bitmapQueryBit bitmap bit = 1 ↔ bitAt bitmap bit = true := by
  rw [bitmapQueryBit_eq]
  cases bitAt bitmap bit <;> simp

/-- Two queries return the same exactly when the bits are the same. -/
theorem bitmapQueryBit_eq_iff (first second : Words) (bit : Nat) :
    bitmapQueryBit first bit = bitmapQueryBit second bit ↔
      bitAt first bit = bitAt second bit := by
  rw [bitmapQueryBit_eq, bitmapQueryBit_eq]
  cases bitAt first bit <;> cases bitAt second bit <;> simp

/-- `bitmap_empty` asks whether every bit below the bound is clear. -/
theorem bitmapEmpty_eq (bitmap : Words) (numBits : Nat) :
    bitmapEmpty bitmap numBits =
      if ∀ i < numBits, bitmapQueryBit bitmap i = 0 then 1 else 0 := by
  rw [bitmapEmpty, scan_eq numBits (by simp)]
  simp only [bitmapQueryBit_eq_zero_iff]

/-- `bitmap_full` asks whether every bit below the bound is set. -/
theorem bitmapFull_eq (bitmap : Words) (numBits : Nat) :
    bitmapFull bitmap numBits =
      if ∀ i < numBits, bitmapQueryBit bitmap i = 1 then 1 else 0 := by
  have hbit : ∀ i, bitAt (fun w => ~~~bitmap w) i = false ↔ bitmapQueryBit bitmap i = 1 := by
    intro i
    have hlt : i % 32 < 32 := Nat.mod_lt _ (by decide)
    rw [bitmapQueryBit_eq_one_iff, bitAt, BitVec.getLsbD_not, decide_eq_true hlt,
      Bool.true_and, Bool.not_eq_false', bitAt]
  rw [bitmapFull, scan_eq numBits (by simp)]
  simp only [hbit]

/-- `bitmap_equal` asks whether every bit below the bound is the same in both. -/
theorem bitmapEqual_eq (first second : Words) (numBits : Nat) :
    bitmapEqual first second numBits =
      if ∀ i < numBits, bitmapQueryBit first i = bitmapQueryBit second i then 1 else 0 := by
  have hbit : ∀ i, bitAt (fun w => first w ^^^ second w) i = false ↔
      bitmapQueryBit first i = bitmapQueryBit second i := by
    intro i
    rw [bitmapQueryBit_eq_iff, bitAt, BitVec.getLsbD_xor, bitAt, bitAt]
    cases (first (i / 32)).getLsbD (i % 32) <;> simp
  have hhigh : ∀ w, (first w != second w) = true ↔ first w ^^^ second w ≠ 0 := by
    intro w
    rw [bne_iff_ne]
    exact BitVec.xor_eq_zero_iff.symm.not
  rw [bitmapEqual, scan_eq numBits hhigh]
  simp only [hbit]

/-- The predicates match `bitmap_query_bit` below the bound, and no other bit
matters to them. -/
structure PredicatesMatch (first second : Words) (numBits : Nat) : Prop where
  empty : bitmapEmpty first numBits = 1 ↔ ∀ i < numBits, bitmapQueryBit first i = 0
  full : bitmapFull first numBits = 1 ↔ ∀ i < numBits, bitmapQueryBit first i = 1
  equal : bitmapEqual first second numBits = 1 ↔
    ∀ i < numBits, bitmapQueryBit first i = bitmapQueryBit second i
  stray : ∀ first' second' : Words,
    (∀ i < numBits, bitmapQueryBit first' i = bitmapQueryBit first i ∧
      bitmapQueryBit second' i = bitmapQueryBit second i) →
    bitmapEmpty first' numBits = bitmapEmpty first numBits ∧
      bitmapFull first' numBits = bitmapFull first numBits ∧
      bitmapEqual first' second' numBits = bitmapEqual first second numBits

/-- The predicates match the bits for every array and every bound. -/
theorem predicatesMatch (first second : Words) (numBits : Nat) :
    PredicatesMatch first second numBits where
  empty := by
    rw [bitmapEmpty_eq]
    split <;> simp_all
  full := by
    rw [bitmapFull_eq]
    split <;> simp_all
  equal := by
    rw [bitmapEqual_eq]
    split <;> simp_all
  stray := by
    intro first' second' hsame
    have hempty : (∀ i < numBits, bitmapQueryBit first' i = 0) ↔
        ∀ i < numBits, bitmapQueryBit first i = 0 :=
      forall₂_congr fun i hi => by rw [(hsame i hi).1]
    have hfull : (∀ i < numBits, bitmapQueryBit first' i = 1) ↔
        ∀ i < numBits, bitmapQueryBit first i = 1 :=
      forall₂_congr fun i hi => by rw [(hsame i hi).1]
    have hequal : (∀ i < numBits, bitmapQueryBit first' i = bitmapQueryBit second' i) ↔
        ∀ i < numBits, bitmapQueryBit first i = bitmapQueryBit second i :=
      forall₂_congr fun i hi => by rw [(hsame i hi).1, (hsame i hi).2]
    simp only [bitmapEmpty_eq, bitmapFull_eq, bitmapEqual_eq, hempty, hfull, hequal, and_self]

/-! ## The setters -/

/-- Up to the length at which the sum wraps, the words of a bitmap reach past
its last bit. -/
theorem lt_bitsToLong32 {numBits i : Nat} (hwrap : numBits ≤ 2 ^ 32 - 32) (hi : i < numBits) :
    i / 32 < bitsToLong32 numBits := by
  unfold bitsToLong32 bitsLong
  omega

/-- Past that length the sum wraps and a bitmap has no words. -/
theorem bitsToLong32_eq_zero {numBits : Nat} (hwrap : 2 ^ 32 - 32 < numBits)
    (hlt : numBits < 2 ^ 32) : bitsToLong32 numBits = 0 := by
  unfold bitsToLong32 bitsLong
  omega

/-- Setting a bitmap sets every bit below the bound. -/
theorem bitAt_bitmapSet (bitmap : Words) {numBits i : Nat} (hwrap : numBits ≤ 2 ^ 32 - 32)
    (hi : i < numBits) : bitAt (bitmapSet bitmap numBits) i = true := by
  have hlt : i % 32 < 32 := Nat.mod_lt _ (by decide)
  have hwords := lt_bitsToLong32 hwrap hi
  have hentries : bitsToLong32 numBits = (numBits + 31) / 32 := by
    unfold bitsToLong32 bitsLong
    omega
  simp only [bitmapSet]
  rw [if_neg (by omega), bitAt_update]
  by_cases hlast : i / 32 = bitsToLong32 numBits - 1
  · rw [if_pos hlast]
    by_cases hpart : numBits % 32 = 0
    · exact getLsbD_lastEntryMask_whole hpart hlt
    · rw [getLsbD_lastEntryMask hpart hlt, decide_eq_true_eq]
      omega
  · rw [if_neg hlast, if_pos (by omega), bitAt, if_pos (by omega), BitVec.getLsbD_not,
      BitVec.getLsbD_zero, decide_eq_true hlt]
    rfl

/-- Copying a bitmap copies every bit below the bound. -/
theorem bitAt_bitmapCopy (dest src : Words) {numBits i : Nat} (hwrap : numBits ≤ 2 ^ 32 - 32)
    (hi : i < numBits) : bitAt (bitmapCopy dest src numBits) i = bitAt src i := by
  unfold bitmapCopy bitsLong
  by_cases hsmall : numBits ≤ 32
  · have hword : i / 32 = 0 := by omega
    rw [if_pos hsmall, bitAt_update, if_pos hword, bitAt, hword]
  · rw [if_neg hsmall, bitAt, if_pos (lt_bitsToLong32 hwrap hi), bitAt]

/-- Each setter establishes its predicate. -/
structure SettersMatch (first second : Words) (numBits : Nat) : Prop where
  clear : bitmapEmpty (bitmapClear first numBits) numBits = 1
  set : bitmapFull (bitmapSet first numBits) numBits = 1
  copy : bitmapEqual (bitmapCopy first second numBits) second numBits = 1

/-- The setters establish their predicates up to the length at which the sum wraps. -/
theorem settersMatch (first second : Words) {numBits : Nat} (hwrap : numBits ≤ 2 ^ 32 - 32) :
    SettersMatch first second numBits where
  clear := by
    rw [bitmapEmpty_eq]
    exact if_pos fun i hi =>
      (bitmapQueryBit_eq_zero_iff _ i).mpr (bitAt_bitmapClear first hwrap hi)
  set := by
    rw [bitmapFull_eq]
    exact if_pos fun i hi =>
      (bitmapQueryBit_eq_one_iff _ i).mpr (bitAt_bitmapSet first hwrap hi)
  copy := by
    rw [bitmapEqual_eq]
    exact if_pos fun i hi =>
      (bitmapQueryBit_eq_iff _ _ i).mpr (bitAt_bitmapCopy first second hwrap hi)

/-- With no words to write, `bitmap_clear` and `bitmap_set` leave the bitmap as it is. -/
theorem setters_eq_self (bitmap : Words) {numBits : Nat} (hwrap : 2 ^ 32 - 32 < numBits)
    (hlt : numBits < 2 ^ 32) :
    bitmapClear bitmap numBits = bitmap ∧ bitmapSet bitmap numBits = bitmap := by
  have hzero := bitsToLong32_eq_zero hwrap hlt
  constructor
  · have hlarge : ¬ numBits ≤ bitsLong := by
      unfold bitsLong
      omega
    simp [bitmapClear, hlarge, hzero]
  · simp [bitmapSet, hzero]

/-- For a length past the wrap the setters do not establish their predicates:
an unchanged bitmap would have to be empty and full. -/
theorem not_settersMatch (first second : Words) {numBits : Nat} (hwrap : 2 ^ 32 - 32 < numBits)
    (hlt : numBits < 2 ^ 32) : ¬ SettersMatch first second numBits := by
  intro h
  obtain ⟨hclear, hset⟩ := setters_eq_self first hwrap hlt
  have hempty := h.clear
  have hfull := h.set
  rw [hclear] at hempty
  rw [hset] at hfull
  have hmatch := predicatesMatch first second numBits
  have hzero := hmatch.empty.mp hempty 0 (by omega)
  have hone := hmatch.full.mp hfull 0 (by omega)
  rw [hzero] at hone
  contradiction

/-- The predicates match the bits, and the setters establish the predicates,
exactly for the lengths that `BITS_TO_LONG` rounds up without wrapping. -/
theorem predicates_match_iff (first second : Words) (numBits : Nat) (hlt : numBits < 2 ^ 32) :
    (PredicatesMatch first second numBits ∧ (0 < numBits → SettersMatch first second numBits)) ↔
      numBits ≤ 2 ^ 32 - 32 := by
  constructor
  · rintro ⟨-, hset⟩
    by_contra hwrap
    exact not_settersMatch first second (by omega) hlt (hset (by omega))
  · intro hwrap
    exact ⟨predicatesMatch first second numBits, fun _ => settersMatch first second hwrap⟩

theorem predicates_match_iff_forty :
    (PredicatesMatch (fun _ => 5#32) (fun _ => 6#32) 40 ∧
      (0 < 40 → SettersMatch (fun _ => 5#32) (fun _ => 6#32) 40)) ↔ 40 ≤ 2 ^ 32 - 32 :=
  predicates_match_iff (fun _ => 5#32) (fun _ => 6#32) 40 (by decide)

/-- The sum wraps: with `2 ^ 32 - 1` bits of ones `bitmap_clear` clears none of them. -/
theorem bitmapClear_wraps :
    ¬ (PredicatesMatch (fun _ => ~~~0#32) (fun _ => 0#32) (2 ^ 32 - 1) ∧
      (0 < 2 ^ 32 - 1 → SettersMatch (fun _ => ~~~0#32) (fun _ => 0#32) (2 ^ 32 - 1))) := by
  rintro ⟨-, hset⟩
  exact not_settersMatch (fun _ => ~~~0#32) (fun _ => 0#32) (by decide) (by decide)
    (hset (by decide))

end Bitmap
end NochOS
