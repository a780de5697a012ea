import NochOS.Ext2.Format

/-!
# ext2 - allocation and writes at their limits

The allocators of `ext2.c` compare what the bitmap search returns with -1, but the
search reports failure as `-ENOMEM`.  This module runs the allocation path beside
the kernel memory around it, so that what happens past that test is part of the
model: the bit is set far behind the block buffer, and a block number that names
nothing is stored.  It also settles what a write does past the direct blocks.

Main results:

- Theorem `nextFreeRun_full`: the allocation from a bitmap with no clear bit in the
  searched half.
- Theorem `allocation_exact_iff`: when the two allocators are exact.
- Theorem `fileFwriteRun_not_refused`: a write past the direct blocks is not refused.
-/

namespace NochOS
namespace Ext2

open Library Bitmap

/-! ## Allocation beside the memory -/

/-- The memory around a call: its bytes, which words of it are mapped, and the
address of the `blk_buf` of the call. -/
structure Kernel where
  mem : Buf
  mapped : Nat → Bool
  blkBuf : Nat

/-- A signed value as a `uint32_t`. -/
def toU32 (n : Int) : Nat := (n % 2 ^ 32).toNat

/-- `bitmap_set_bit` on `blk_buf`: a word past the buffer is a word of the memory at
its address, and `none` is a page fault. -/
def Kernel.bitmapSetBit (k : Kernel) (bitmap : Words) (bit : Nat) : Option (Kernel × Words) :=
  if entryOffset bit < blocksize / 4 then some (k, Bitmap.bitmapSetBit bitmap bit)
  else
    let addr := (k.blkBuf + 4 * entryOffset bit) % 2 ^ 32
    if k.mapped addr then
      some ({ k with mem := setU32 k.mem addr (u32At k.mem addr ||| 2 ^ bitOffset bit) }, bitmap)
    else none

/-- The body of `next_free_ino` and `next_free_blkno`, with the value it returns. -/
def nextFreeRun (k : Kernel) (d : Disk) (bitmapBlkno : Nat) : Option (Int × Kernel × Disk) :=
  let found := findFreeRegion (wordsOf (ext2ReadBlock d bitmapBlkno)) (blocksize * 4) 0
  if found.1 = -1 then some (-1, k, d)
  else
    match k.bitmapSetBit found.2 (toU32 found.1) with
    | none => none
    | some (k, ws) => some (found.1 + 1, k, ext2WriteBlock d bitmapBlkno (bytesOf ws))

/-- `ext2_alloc_iblock`: the return value, the memory, the inode and the device. -/
def ext2AllocIblockRun (k : Kernel) (d : Disk) (inode : Buf) :
    Option (Int × Kernel × Buf × Disk) :=
  if 12 ≤ iBlocks inode then some (-1, k, inode, d)
  else
    match nextFreeRun k d (bgBlockBitmap d) with
    | none => none
    | some (blkno, k, d) =>
        let inode := setIBlock inode (iBlocks inode) (toU32 blkno)
        some (0, k, setIBlocks inode (iBlocks inode + 1), d)

/-- The loop of `ext2_alloc_inode`, from block `i` on for `n` blocks. -/
def fillBlocksRun (i : Nat) : Nat → Kernel → Buf → Disk → Option (Kernel × Buf × Disk)
  | 0, k, inode, d => some (k, inode, d)
  | n + 1, k, inode, d =>
      match nextFreeRun k d (bgBlockBitmap d) with
      | none => none
      | some (blkno, k, d) => fillBlocksRun (i + 1) n k (setIBlock inode i (toU32 blkno)) d

/-- The first block `ext2_alloc_inode` looks for. -/
def firstBlock (d : Disk) (ino : Nat) (inode : Buf) : Nat :=
  if (inoTrySet d ino).1 = 0 then 0 else iBlocks inode

/-- `ext2_alloc_inode`: the memory, the inode and the device.  It returns zero. -/
def ext2AllocInodeRun (sb : Super) (k : Kernel) (d : Disk) (ino : Nat) (inode : Buf)
    (fsize : Nat) : Option (Kernel × Buf × Disk) :=
  let blocks := blocksFor fsize
  let i := firstBlock d ino inode
  let d := (inoTrySet d ino).2
  let inode := setIBlocks (setISize inode fsize) blocks
  match fillBlocksRun i (blocks - i) k inode d with
  | none => none
  | some (k, inode, d) => some (k, inode, (ext2WriteInode sb d ino inode).2)

/-- `file_fwrite`: the return value, the memory, the device and the open file. -/
def fileFwriteRun (sb : Super) (k : Kernel) (d : Disk) (self : File) (inode buf : Buf)
    (nbytes : Nat) : Option (Int × Kernel × Disk × File) :=
  let inode := (ext2ReadInode sb d self.iIno inode).2
  match ext2AllocInodeRun sb k d self.iIno inode ((self.fPos + nbytes) % 2 ^ 32) with
  | none => none
  | some (k, inode, d) =>
      some (0, k, (ext2WriteDirect d inode self.fPos buf nbytes).2,
        { self with fPos := (self.fPos + nbytes) % 2 ^ 32 })

/-! ## The search at its limit -/

/-- `n` is the least clear bit of a bitmap block. -/
structure LeastClear (bitmap : Words) (n : Nat) : Prop where
  lt : n < bitmapBits
  clear : bitAt bitmap n = false
  below : ∀ i < n, bitAt bitmap i = true

/-- The word the allocators change when the search fails. -/
def strayWord (k : Kernel) : Nat := (k.blkBuf + 0x1FFFFFFC) % 2 ^ 32

/-- The memory after a failed search: bit 20 of the word is set. -/
def Kernel.stray (k : Kernel) : Kernel :=
  { k with mem := setU32 k.mem (strayWord k) (u32At k.mem (strayWord k) ||| 2 ^ 20) }

variable (k : Kernel) (d : Disk) (bitmapBlkno : Nat)

/-- A bitmap has a least clear bit when it has a clear one. -/
theorem exists_leastClear {bitmap : Words} {n : Nat} (hn : n < bitmapBits)
    (hclear : bitAt bitmap n = false) : ∃ m ≤ n, LeastClear bitmap m := by
  have hex : ∃ m, bitAt bitmap m = false := ⟨n, hclear⟩
  have hle : Nat.find hex ≤ n := Nat.find_min' hex hclear
  refine ⟨Nat.find hex, hle, ⟨by omega, Nat.find_spec hex, fun i hi => ?_⟩⟩
  simpa using Nat.find_min hex hi

/-- The least clear bit of the searched half is taken, and nothing else changes. -/
theorem nextFreeRun_least {n : Nat} (hn : n < searchedBits)
    (hleast : LeastClear (wordsOf (ext2ReadBlock d bitmapBlkno)) n) :
    ∃ ws, nextFreeRun k d bitmapBlkno =
        some ((n : Int) + 1, k, ext2WriteBlock d bitmapBlkno (bytesOf ws)) ∧
      ∀ i, bitAt ws i =
        (bitAt (wordsOf (ext2ReadBlock d bitmapBlkno)) i || decide (i = n)) := by
  unfold searchedBits at hn
  have hdvd : 2 ^ 0 ∣ blocksize * 4 := one_dvd _
  rcases findFreeRegion_cases (wordsOf (ext2ReadBlock d bitmapBlkno)) hdvd with
    ⟨-, hfull⟩ | ⟨p, hfound, hp, hroom, hclear, hbelow⟩
  · obtain ⟨i, hlo, hhi, hset⟩ := hfull n (one_dvd _) hn
    have hin : i = n := by omega
    rw [hin, hleast.clear] at hset
    exact absurd hset (by simp)
  · have hpn : p = n := by
      rcases Nat.lt_trichotomy p n with hlt | heq | hgt
      · have hset := hleast.below p hlt
        rw [hclear p le_rfl (by omega)] at hset
        exact absurd hset (by simp)
      · exact heq
      · obtain ⟨i, hlo, hhi, hset⟩ := hbelow n (one_dvd _) hgt
        have hin : i = n := by omega
        rw [hin, hleast.clear] at hset
        exact absurd hset (by simp)
    subst hpn
    have hu32 : toU32 (p : Int) = p := by
      unfold toU32
      omega
    have hentry : entryOffset p < blocksize / 4 := by
      unfold entryOffset bitsLong blocksize
      omega
    have hne : ¬ (p : Int) = -1 := by omega
    refine ⟨bitmapSetBit (regOp (wordsOf (ext2ReadBlock d bitmapBlkno)) p 0 .alloc).2 p, ?_, ?_⟩
    · simp only [nextFreeRun, hfound, if_neg hne, hu32, Kernel.bitmapSetBit, if_pos hentry]
    · intro i
      have hiff : (p ≤ i ∧ i < p + 2 ^ 0) ↔ i = p := by omega
      rw [bitAt_bitmapSetBit, bitAt_regOp_alloc _ hp]
      simp only [hiff, Bool.or_assoc, Bool.or_self]

/-- With no clear bit in the searched half the allocators do not fail: a bit of a
word half a gigabyte behind the buffer is set, and they return -11. -/
theorem nextFreeRun_full
    (hfull : ∀ i < searchedBits, bitAt (wordsOf (ext2ReadBlock d bitmapBlkno)) i = true) :
    nextFreeRun k d bitmapBlkno =
      if k.mapped (strayWord k) then some (-11, k.stray, d) else none := by
  have hdvd : 2 ^ 0 ∣ blocksize * 4 := one_dvd _
  have hfound : findFreeRegion (wordsOf (ext2ReadBlock d bitmapBlkno)) (blocksize * 4) 0 =
      (-(enomem : Int), wordsOf (ext2ReadBlock d bitmapBlkno)) := by
    rcases findFreeRegion_cases (wordsOf (ext2ReadBlock d bitmapBlkno)) hdvd with
      ⟨hfound, -⟩ | ⟨p, -, -, hroom, hclear, -⟩
    · exact hfound
    · have hset := hfull p (by unfold searchedBits; unfold blocksize at hroom; omega)
      rw [hclear p le_rfl (by omega)] at hset
      exact absurd hset (by simp)
  have hu32 : toU32 (-(enomem : Int)) = 0xFFFFFFF4 := rfl
  have hentry : ¬ entryOffset 0xFFFFFFF4 < blocksize / 4 := by decide
  have haddr : 4 * entryOffset 0xFFFFFFF4 = 0x1FFFFFFC := rfl
  have hoff : bitOffset 0xFFFFFFF4 = 20 := rfl
  have hsame : ext2WriteBlock d bitmapBlkno (bytesOf (wordsOf (ext2ReadBlock d bitmapBlkno))) =
      d := by
    rw [bytesOf_wordsOf]
    exact Function.update_eq_self _ _
  have hne : ¬ (-(enomem : Int)) = -1 := by decide
  simp only [nextFreeRun, hfound, if_neg hne, hu32, Kernel.bitmapSetBit, if_neg hentry, haddr,
    hoff]
  by_cases hmapped : k.mapped (strayWord k)
  · rw [if_pos hmapped]
    rw [strayWord] at hmapped
    simp only [if_pos hmapped, hsame]
    rfl
  · rw [if_neg hmapped]
    rw [strayWord] at hmapped
    simp only [if_neg hmapped]

/-- With no clear bit in the searched half the answer is never -1. -/
theorem nextFreeRun_full_ne
    (hfull : ∀ i < searchedBits, bitAt (wordsOf (ext2ReadBlock d bitmapBlkno)) i = true)
    {n : Int} (hn : -1 ≤ n) (k' : Kernel) (d' : Disk) :
    nextFreeRun k d bitmapBlkno ≠ some (n, k', d') := by
  rw [nextFreeRun_full k d bitmapBlkno hfull]
  intro heq
  split at heq
  · simp only [Option.some.injEq, Prod.mk.injEq] at heq
    omega
  · exact absurd heq (by simp)

/-! ## The callers at the limit -/

section Callers

variable {k : Kernel} {d : Disk}
  (hfull : ∀ i < searchedBits, bitAt (wordsOf (ext2ReadBlock d (bgBlockBitmap d))) i = true)

include hfull

/-- A full bitmap does not stop `ext2_alloc_iblock`: it stores -11 as the number of
the block and reports success. -/
theorem ext2AllocIblockRun_full (hmapped : k.mapped (strayWord k) = true) {inode : Buf}
    (hinode : iBlocks inode < 12) :
    ext2AllocIblockRun k d inode =
      some (0, k.stray,
        setIBlocks (setIBlock inode (iBlocks inode) 0xFFFFFFF5)
          (iBlocks (setIBlock inode (iBlocks inode) 0xFFFFFFF5) + 1), d) := by
  have hu32 : toU32 (-11) = 0xFFFFFFF5 := rfl
  rw [ext2AllocIblockRun, if_neg (by omega), nextFreeRun_full k d _ hfull, if_pos hmapped]
  simp only [hu32]

/-- Nor does it stop the loop of `ext2_alloc_inode`. -/
theorem fillBlocksRun_full (hmapped : ∀ a, k.mapped a = true) (i n : Nat) (inode : Buf) :
    ∃ k', fillBlocksRun i n k inode d =
      some (k', putBlocks inode i (List.replicate n 0xFFFFFFF5), d) := by
  induction n generalizing i k inode with
  | zero => exact ⟨k, rfl⟩
  | succ n ih =>
      have hu32 : toU32 (-11) = 0xFFFFFFF5 := rfl
      rw [fillBlocksRun, nextFreeRun_full k d _ hfull, if_pos (hmapped _)]
      simp only [hu32]
      exact ih (k := k.stray) hmapped (i + 1) _

end Callers

/-- A search that succeeds in the model without memory is the same one here. -/
theorem nextFreeRun_of_some {n : Nat} {d' : Disk}
    (h : nextFree d bitmapBlkno = some (n, d')) :
    nextFreeRun k d bitmapBlkno = some ((n : Int), k, d') := by
  have hdvd : 2 ^ 0 ∣ blocksize * 4 := one_dvd _
  simp only [nextFree] at h
  rcases findFreeRegion_cases (wordsOf (ext2ReadBlock d bitmapBlkno)) hdvd with
    ⟨hfound, -⟩ | ⟨p, hfound, -, hroom, -, -⟩
  · rw [hfound] at h
    exact absurd h (by simp [enomem])
  · unfold blocksize at hroom
    have hnonneg : ¬ ((p : Int) < 0) := by omega
    have hne : ¬ ((p : Int) = -1) := by omega
    have hu32 : toU32 (p : Int) = p := by
      unfold toU32
      omega
    have hentry : entryOffset p < blocksize / 4 := by
      unfold entryOffset bitsLong blocksize
      omega
    rw [hfound] at h
    simp only [if_neg hnonneg, Int.toNat_natCast, Option.some.injEq, Prod.mk.injEq] at h
    obtain ⟨rfl, rfl⟩ := h
    simp only [nextFreeRun, hfound, if_neg hne, hu32, Kernel.bitmapSetBit, if_pos hentry]
    rfl

/-- The number of a block that was found is its 32-bit value. -/
theorem toU32_of_nextFree {n : Nat} {d d' : Disk} {bitmapBlkno : Nat}
    (h : nextFree d bitmapBlkno = some (n, d')) : toU32 (n : Int) = n := by
  have hbound := le_searchedBits h
  unfold searchedBits at hbound
  unfold toU32
  omega

/-- A write that goes through in the model without memory is the same one here. -/
theorem fillBlocksRun_of_some {i n : Nat} {inode inode' : Buf} {d d' : Disk}
    (h : fillBlocks i n inode d = some (inode', d')) :
    fillBlocksRun i n k inode d = some (k, inode', d') := by
  induction n generalizing i inode d with
  | zero =>
      simp only [fillBlocks, Option.some.injEq, Prod.mk.injEq] at h
      obtain ⟨rfl, rfl⟩ := h
      rfl
  | succ n ih =>
      cases hnext : nextFreeBlkno d with
      | none =>
          rw [fillBlocks, hnext] at h
          exact absurd h (by simp)
      | some r =>
          obtain ⟨blkno, d₁⟩ := r
          rw [fillBlocks, hnext] at h
          rw [fillBlocksRun, nextFreeRun_of_some k d _ hnext]
          simp only [toU32_of_nextFree hnext]
          exact ih h

/-- `file_fwrite` as the other modules use it is this one when every search succeeds. -/
theorem fileFwriteRun_of_some {sb : Super} {d d' : Disk} {self self' : File} {inode buf : Buf}
    {nbytes : Nat} (h : fileFwrite sb d self inode buf nbytes = some (d', self')) :
    fileFwriteRun sb k d self inode buf nbytes = some (0, k, d', self') := by
  simp only [fileFwrite, ext2AllocInode] at h
  simp only [fileFwriteRun, ext2AllocInodeRun, firstBlock]
  generalize hi : (if (inoTrySet d self.iIno).1 = 0 then 0
    else iBlocks (ext2ReadInode sb d self.iIno inode).2) = i at h ⊢
  cases hfill : fillBlocks i (blocksFor ((self.fPos + nbytes) % 2 ^ 32) - i)
      (setIBlocks (setISize (ext2ReadInode sb d self.iIno inode).2
        ((self.fPos + nbytes) % 2 ^ 32)) (blocksFor ((self.fPos + nbytes) % 2 ^ 32)))
      (inoTrySet d self.iIno).2 with
  | none =>
      rw [hfill] at h
      exact absurd h (by simp)
  | some r =>
      obtain ⟨inode₁, d₁⟩ := r
      rw [hfill] at h
      simp only [Option.some.injEq, Prod.mk.injEq] at h
      obtain ⟨rfl, rfl⟩ := h
      rw [fillBlocksRun_of_some k hfill]

/-! ## Exactness -/

/-- What is asked of `next_free_ino` and `next_free_blkno`: the least clear bit is
taken and no other bit, block or memory changes; with no clear bit they fail and
nothing changes. -/
structure ExactSearch (k : Kernel) (d : Disk) (bitmapBlkno : Nat) : Prop where
  least : ∀ n, LeastClear (wordsOf (ext2ReadBlock d bitmapBlkno)) n →
    ∃ ws, nextFreeRun k d bitmapBlkno =
        some ((n : Int) + 1, k, ext2WriteBlock d bitmapBlkno (bytesOf ws)) ∧
      ∀ i, bitAt ws i =
        (bitAt (wordsOf (ext2ReadBlock d bitmapBlkno)) i || decide (i = n))
  full : (∀ i < bitmapBits, bitAt (wordsOf (ext2ReadBlock d bitmapBlkno)) i = true) →
    nextFreeRun k d bitmapBlkno = some (-1, k, d)

/-- What is asked of the callers when no block is left: a call that needs a block
reports failure and leaves the block numbers of the inode alone. -/
structure ReportsFull (sb : Super) (k : Kernel) (d : Disk) : Prop where
  iblock : ∀ inode, ∃ k' inode' d', ext2AllocIblockRun k d inode = some (-1, k', inode', d') ∧
    ∀ j, iBlock inode' j = iBlock inode j
  fwrite : ∀ (self : File) (stack buf : Buf) (nbytes : Nat),
    firstBlock d self.iIno (ext2ReadInode sb d self.iIno stack).2 <
        blocksFor ((self.fPos + nbytes) % 2 ^ 32) →
    ∃ k' d' self', fileFwriteRun sb k d self stack buf nbytes = some (-1, k', d', self') ∧
      ∀ j < 15, iBlock (ext2ReadInode sb d' self.iIno stack).2 j =
        iBlock (ext2ReadInode sb d self.iIno stack).2 j

/-- An allocator is exact when the half of the bitmap it searches has a clear bit,
and only then. -/
theorem exactSearch_iff (k : Kernel) (d : Disk) (bitmapBlkno : Nat) :
    ExactSearch k d bitmapBlkno ↔
      ∃ i < searchedBits, bitAt (wordsOf (ext2ReadBlock d bitmapBlkno)) i = false := by
  have hle : searchedBits ≤ bitmapBits := by decide
  constructor
  · intro h
    by_contra hno
    have hfull : ∀ i < searchedBits,
        bitAt (wordsOf (ext2ReadBlock d bitmapBlkno)) i = true := by
      intro i hi
      by_contra hclear
      exact hno ⟨i, hi, by simpa using hclear⟩
    by_cases hall : ∀ i < bitmapBits, bitAt (wordsOf (ext2ReadBlock d bitmapBlkno)) i = true
    · exact nextFreeRun_full_ne k d _ hfull le_rfl _ _ (h.full hall)
    · simp only [not_forall, Bool.not_eq_true] at hall
      obtain ⟨n, hn, hclear⟩ := hall
      obtain ⟨m, -, hleast⟩ := exists_leastClear hn hclear
      obtain ⟨ws, hrun, -⟩ := h.least m hleast
      exact nextFreeRun_full_ne k d _ hfull (by omega) _ _ hrun
  · rintro ⟨i, hi, hclear⟩
    obtain ⟨m, hm, hleast⟩ := exists_leastClear (by omega) hclear
    refine ⟨fun n hn => ?_, fun hall => ?_⟩
    · have hnm : n ≤ i := by
        by_contra hlt
        have hset := hn.below i (by omega)
        rw [hclear] at hset
        exact absurd hset (by simp)
      exact nextFreeRun_least k d _ (by omega) hn
    · have hset := hall i (by omega)
      rw [hclear] at hset
      exact absurd hset (by simp)

/-- `next_free_ino` and `next_free_blkno` are exact, and the callers of the latter
report a full bitmap, exactly when the searched half of the bitmap has a clear bit. -/
theorem allocation_exact_iff (sb : Super) (k : Kernel) (d : Disk) :
    (ExactSearch k d (bgInodeBitmap d) ↔
      ∃ i < searchedBits, bitAt (wordsOf (ext2ReadBlock d (bgInodeBitmap d))) i = false) ∧
    ((ExactSearch k d (bgBlockBitmap d) ∧
        ((∀ i < bitmapBits, bitAt (wordsOf (ext2ReadBlock d (bgBlockBitmap d))) i = true) →
          ReportsFull sb k d)) ↔
      ∃ i < searchedBits, bitAt (wordsOf (ext2ReadBlock d (bgBlockBitmap d))) i = false) := by
  have hle : searchedBits ≤ bitmapBits := by decide
  refine ⟨exactSearch_iff k d _, ⟨fun h => (exactSearch_iff k d _).mp h.1, fun h => ?_⟩⟩
  refine ⟨(exactSearch_iff k d _).mpr h, fun hall => ?_⟩
  obtain ⟨i, hi, hclear⟩ := h
  rw [hall i (by omega)] at hclear
  exact absurd hclear (by simp)

/-- A group whose bitmaps are full. -/
def fullDisk : Disk := format smallGroup ⟨fun _ => true, fun _ => true, fun _ _ => 0, fun _ _ => 0⟩

/-- Memory in which every word is mapped. -/
def flatMemory : Kernel := ⟨fun _ => 0, fun _ => true, 0x7FF000⟩

theorem bitAt_fullDisk {b : Nat} (hb : b = 3 ∨ b = 4) (i : Nat) :
    bitAt (wordsOf (ext2ReadBlock fullDisk b)) i = true := by
  have hblock : formatBlock smallGroup
      ⟨fun _ => true, fun _ => true, fun _ _ => 0, fun _ _ => 0⟩ b =
        bytesOf (ofBits fun _ => true) := by
    rcases hb with rfl | rfl
    · rfl
    · rfl
  rw [fullDisk, readBlock_format _ _ (by rcases hb with rfl | rfl <;> decide), hblock,
    wordsOf_bytesOf, bitAt_ofBits]

/-- On a full group `next_free_ino` returns -11 and sets a bit of a word far behind
its buffer, and `ext2_alloc_iblock` stores -11 as a block number and returns zero. -/
theorem allocation_full_group :
    (∀ i < bitmapBits, bitAt (wordsOf (ext2ReadBlock fullDisk (bgInodeBitmap fullDisk))) i = true) ∧
      nextFreeRun flatMemory fullDisk (bgInodeBitmap fullDisk) =
        some (-11, flatMemory.stray, fullDisk) ∧
      ¬ ExactSearch flatMemory fullDisk (bgInodeBitmap fullDisk) ∧
      ¬ ReportsFull smallGroup.sb flatMemory fullDisk := by
  have hdisk : OnDisk smallGroup fullDisk := onDisk_format _ _
  have hino : bgInodeBitmap fullDisk = 4 := hdisk.inodeBitmap
  have hblk : bgBlockBitmap fullDisk = 3 := hdisk.blockBitmap
  have hfull : ∀ i < searchedBits,
      bitAt (wordsOf (ext2ReadBlock fullDisk (bgBlockBitmap fullDisk))) i = true := by
    intro i _
    rw [hblk]
    exact bitAt_fullDisk (Or.inl rfl) i
  have hrun : nextFreeRun flatMemory fullDisk (bgInodeBitmap fullDisk) =
      some (-11, flatMemory.stray, fullDisk) := by
    rw [nextFreeRun_full]
    · exact if_pos rfl
    · intro i _
      rw [hino]
      exact bitAt_fullDisk (Or.inr rfl) i
  have hall : ∀ i < bitmapBits,
      bitAt (wordsOf (ext2ReadBlock fullDisk (bgInodeBitmap fullDisk))) i = true := by
    intro i _
    rw [hino]
    exact bitAt_fullDisk (Or.inr rfl) i
  refine ⟨hall, hrun, ?_, ?_⟩
  · intro h
    have heq := hrun.symm.trans (h.full hall)
    simp at heq
  · intro h
    obtain ⟨k', inode', d', heq, -⟩ := h.iblock fun _ => 0
    rw [ext2AllocIblockRun_full hfull rfl (by decide)] at heq
    simp at heq

/-! ## Writes past the direct blocks -/

/-- The loop of `ext2_alloc_inode` stores in every slot from the first to the last
one a number the allocator returned, and does not touch what lies before them. -/
theorem fillBlocksRun_slots {k k' : Kernel} {d d' : Disk} {i n : Nat} {inode inode' : Buf}
    (h : fillBlocksRun i n k inode d = some (k', inode', d')) :
    (∀ x < 40 + 4 * i, inode' x = inode x) ∧
      ∀ j, i ≤ j → j < i + n → ∃ blkno k₀ d₀ k₁ d₁,
        nextFreeRun k₀ d₀ (bgBlockBitmap d₀) = some (blkno, k₁, d₁) ∧
          iBlock inode' j = toU32 blkno := by
  induction n generalizing i k d inode with
  | zero =>
      simp only [fillBlocksRun, Option.some.injEq, Prod.mk.injEq] at h
      obtain ⟨-, rfl, -⟩ := h
      exact ⟨fun x _ => rfl, fun j hlo hhi => absurd hhi (by omega)⟩
  | succ n ih =>
      cases hnext : nextFreeRun k d (bgBlockBitmap d) with
      | none =>
          rw [fillBlocksRun, hnext] at h
          exact absurd h (by simp)
      | some r =>
          obtain ⟨blkno, k₁, d₁⟩ := r
          rw [fillBlocksRun, hnext] at h
          obtain ⟨hbefore, hslots⟩ := ih h
          have hlt : toU32 blkno < 2 ^ 32 := by
            unfold toU32
            omega
          refine ⟨fun x hx => ?_, fun j hlo hhi => ?_⟩
          · rw [hbefore x (by omega), setIBlock, setU32_outside (by omega)]
          · by_cases hj : j = i
            · subst hj
              refine ⟨blkno, k, d, k₁, d₁, hnext, ?_⟩
              have hcongr : iBlock inode' j = iBlock (setIBlock inode j (toU32 blkno)) j :=
                u32At_congr fun x hx => hbefore _ (by omega)
              rw [hcongr]
              exact u32At_setU32 _ _ hlt
            · exact hslots j (by omega) (by omega)

/-- A transfer that is not cut short visits every block its range meets. -/
theorem chunks_visits (iblkno : Nat) (bufOff : Fin blocksize) (total nbytes q : Nat)
    (hlo : iblkno ≤ q) (hhi : q * blocksize < iblkno * blocksize + bufOff + nbytes) :
    ∃ c ∈ chunks iblkno bufOff total nbytes nbytes, c.iblkno = q := by
  induction hgap : q - iblkno generalizing iblkno bufOff total nbytes with
  | zero =>
      have hq : iblkno = q := by omega
      rw [chunks]
      exact ⟨_, List.mem_cons_self, hq⟩
  | succ gap ih =>
      have hlt := bufOff.isLt
      have hlen : cpyLen bufOff nbytes nbytes = min (min nbytes (blocksize - bufOff)) nbytes :=
        cpyLen_eq _ _ _
      have hmul : (iblkno + 1) * blocksize ≤ q * blocksize :=
        Nat.mul_le_mul_right _ (by omega)
      rw [Nat.succ_mul] at hmul
      have hgo : ¬ (cpyLen bufOff nbytes nbytes = nbytes ∨
          cpyLen bufOff nbytes nbytes = nbytes) := by
        omega
      obtain ⟨c, hc, hcq⟩ := ih (iblkno + 1) ⟨0, by decide⟩
        (total + cpyLen bufOff nbytes nbytes) (nbytes - cpyLen bufOff nbytes nbytes) (by omega)
        (by
          rw [Nat.succ_mul]
          dsimp only
          omega)
        (by omega)
      refine ⟨c, ?_, hcq⟩
      rw [chunks]
      simp only [if_neg hgo]
      exact List.mem_cons_of_mem _ hc

/-- A transfer that is not cut short reaches as far as its range. -/
theorem chunks_reaches {offset nbytes m : Nat} (h : m * blocksize < offset + nbytes) :
    ∃ c ∈ chunks (offset / blocksize) (offsetIn offset) 0 nbytes nbytes, m ≤ c.iblkno := by
  by_cases hm : m ≤ offset / blocksize
  · rw [chunks]
    exact ⟨_, List.mem_cons_self, hm⟩
  · have hsplit := Nat.div_add_mod offset blocksize
    have hoff : ((offsetIn offset : Fin blocksize) : Nat) = offset % blocksize := rfl
    obtain ⟨c, hc, hcm⟩ := chunks_visits (offset / blocksize) (offsetIn offset) 0 nbytes m
      (by omega) (by
        rw [hoff, Nat.mul_comm (offset / blocksize)]
        omega)
    exact ⟨c, hc, hcm.ge⟩

/-- What is asked of a write past the direct blocks: it fails and changes nothing. -/
def RefusesWrite (sb : Super) (k : Kernel) (d : Disk) (self : File) (stack buf : Buf)
    (nbytes : Nat) : Prop :=
  fileFwriteRun sb k d self stack buf nbytes = some (-1, k, d, self)

/-- No write past the direct blocks is refused.  The allocation stores a block number
in every slot from the first it takes to the last block of the new size, and the
copy uses a slot past the direct ones, beyond the array when the range ends there. -/
theorem fileFwriteRun_not_refused (sb : Super) (k : Kernel) (d : Disk) (self : File)
    (stack buf : Buf) (nbytes : Nat) (hpos : self.fPos < 2 ^ 32) (hn : nbytes < 2 ^ 32)
    (hbig : 12 * blocksize < self.fPos + nbytes) :
    ¬ RefusesWrite sb k d self stack buf nbytes ∧
      ∀ k' inode' d', ext2AllocInodeRun sb k d self.iIno
          (ext2ReadInode sb d self.iIno stack).2 ((self.fPos + nbytes) % 2 ^ 32) =
            some (k', inode', d') →
        let cs := chunks (self.fPos / blocksize) (offsetIn self.fPos) 0
          ((iSize inode' + 2 ^ 32 - self.fPos) % 2 ^ 32) nbytes
        (∀ j, firstBlock d self.iIno (ext2ReadInode sb d self.iIno stack).2 ≤ j →
          j < blocksFor ((self.fPos + nbytes) % 2 ^ 32) → ∃ blkno k₀ d₀ k₁ d₁,
            nextFreeRun k₀ d₀ (bgBlockBitmap d₀) = some (blkno, k₁, d₁) ∧
              iBlock inode' j = toU32 blkno) ∧
        (∃ c ∈ cs, 12 ≤ c.iblkno) ∧
        (15 * blocksize < self.fPos + nbytes → ∃ c ∈ cs, 15 ≤ c.iblkno) := by
  refine ⟨fun h => ?_, fun k' inode' d' halloc => ?_⟩
  · rw [RefusesWrite] at h
    simp only [fileFwriteRun] at h
    cases hrun : ext2AllocInodeRun sb k d self.iIno (ext2ReadInode sb d self.iIno stack).2
        ((self.fPos + nbytes) % 2 ^ 32) with
    | none =>
        rw [hrun] at h
        exact absurd h (by simp)
    | some r =>
        obtain ⟨k₁, inode₁, d₁⟩ := r
        rw [hrun] at h
        simp at h
  · simp only [ext2AllocInodeRun] at halloc
    generalize hi : firstBlock d self.iIno (ext2ReadInode sb d self.iIno stack).2 = i at halloc ⊢
    cases hfill : fillBlocksRun i (blocksFor ((self.fPos + nbytes) % 2 ^ 32) - i) k
        (setIBlocks (setISize (ext2ReadInode sb d self.iIno stack).2
          ((self.fPos + nbytes) % 2 ^ 32)) (blocksFor ((self.fPos + nbytes) % 2 ^ 32)))
        (inoTrySet d self.iIno).2 with
    | none =>
        rw [hfill] at halloc
        exact absurd halloc (by simp)
    | some r =>
        obtain ⟨k₁, inode₁, d₁⟩ := r
        rw [hfill] at halloc
        simp only [Option.some.injEq, Prod.mk.injEq] at halloc
        obtain ⟨-, rfl, -⟩ := halloc
        obtain ⟨hbefore, hslots⟩ := fillBlocksRun_slots hfill
        have hsize : iSize inode₁ = (self.fPos + nbytes) % 2 ^ 32 := by
          have hcongr : iSize inode₁ = iSize (setIBlocks (setISize
              (ext2ReadInode sb d self.iIno stack).2 ((self.fPos + nbytes) % 2 ^ 32))
              (blocksFor ((self.fPos + nbytes) % 2 ^ 32))) :=
            u32At_congr fun x hx => hbefore _ (by omega)
          rw [hcongr, iSize, setIBlocks, u32At_setU32_of_disjoint (by omega)]
          exact u32At_setU32 _ 4 (Nat.mod_lt _ (by decide))
        have hrmn : (iSize inode₁ + 2 ^ 32 - self.fPos) % 2 ^ 32 = nbytes := by
          rw [hsize]
          omega
        simp only [hrmn]
        exact ⟨fun j hlo hhi => hslots j hlo (by omega), chunks_reaches hbig, chunks_reaches⟩

/-- `fileFwriteRun_not_refused` for a write of one byte at position 12288 of a full
group. -/
theorem fileFwriteRun_not_refused_full :
    12 * blocksize < 12288 + 1 ∧
      ¬ RefusesWrite smallGroup.sb flatMemory fullDisk ⟨ext2SIfreg, 3, 12288, 12288⟩ (fun _ => 0)
        (fun _ => 65) 1 :=
  ⟨by decide, (fileFwriteRun_not_refused smallGroup.sb flatMemory fullDisk
    ⟨ext2SIfreg, 3, 12288, 12288⟩ (fun _ => 0) (fun _ => 65) 1 (by decide) (by decide)
    (by decide)).1⟩

/-- An image with a file of twelve blocks and unused blocks behind them. -/
def twelveBlocks : View where
  blockUsed b := decide (b ≤ 18)
  inodeUsed ino := decide (ino ≤ 12)
  inode _ := newInode 0x81FF 12288 [7, 8, 9, 10, 11, 12, 13, 14, 15, 16, 17, 18]
  data _ _ := 0

/-- A byte appended to a file of twelve blocks is not refused: the call returns zero,
moves the position and stores a data block number in the thirteenth slot. -/
theorem fileFwriteRun_thirteenth :
    ∃ d' inode' d₁,
      fileFwriteRun smallGroup.sb flatMemory (format smallGroup twelveBlocks)
        ⟨0x81FF, 12, 12288, 12288⟩ (fun _ => 0) (fun _ => 65) 1 =
          some (0, flatMemory, d', ⟨0x81FF, 12, 12288, 12289⟩) ∧
      ext2AllocInode smallGroup.sb (format smallGroup twelveBlocks) 12
        (ext2ReadInode smallGroup.sb (format smallGroup twelveBlocks) 12 (fun _ => 0)).2 12289 =
          some (inode', d₁) ∧
      iBlock inode' 12 ∈ (view smallGroup (format smallGroup twelveBlocks)).freeBlocks := by
  have hd : OnDisk smallGroup (format smallGroup twelveBlocks) := onDisk_format _ _
  have hview := view_format smallGroup twelveBlocks
  have hvalid : smallGroup.ValidIno 12 := by decide
  have hused : (view smallGroup (format smallGroup twelveBlocks)).inodeUsed 12 = true := by
    rw [hview]
    decide
  have hblocks : iBlocks ((view smallGroup (format smallGroup twelveBlocks)).inode 12) = 12 := by
    rw [hview]
    obtain ⟨-, -, hblocks, -⟩ := View.fields_trim smallGroup twelveBlocks hvalid rfl (by decide)
      (by decide) (by decide) (by simp)
    exact hblocks
  have hfree : 19 ∈ (view smallGroup (format smallGroup twelveBlocks)).freeBlocks := by
    rw [hview, mem_freeBlocks]
    decide
  have hwrite : (fileFwrite smallGroup.sb (format smallGroup twelveBlocks)
      ⟨0x81FF, 12, 12288, 12288⟩ (fun _ => 0) (fun _ => 65) 1).isSome := by
    apply fileFwrite_isSome hd hvalid hused (by decide)
    rw [hblocks]
    exact Finset.card_pos.mpr ⟨19, hfree⟩
  obtain ⟨⟨d', self'⟩, hrun⟩ := Option.isSome_iff_exists.mp hwrite
  have hsize : (12288 + 1) % 2 ^ 32 = 12289 := by
    decide
  have hparts := hrun
  simp only [fileFwrite, hsize] at hparts
  cases halloc : ext2AllocInode smallGroup.sb (format smallGroup twelveBlocks) 12
      (ext2ReadInode smallGroup.sb (format smallGroup twelveBlocks) 12 (fun _ => 0)).2 12289 with
  | none =>
      rw [halloc] at hparts
      exact absurd hparts (by simp)
  | some r =>
      obtain ⟨inode', d₁⟩ := r
      rw [halloc] at hparts
      simp only [Option.some.injEq, Prod.mk.injEq] at hparts
      rw [← hparts.2] at hrun
      have hflat := fileFwriteRun_of_some flatMemory hrun
      refine ⟨d', inode', d₁, hflat, rfl, ?_⟩
      rw [readInode_eq hd hvalid hused] at halloc
      obtain ⟨bs, hlen, hfresh, -, rfl, -⟩ := allocInode_spec hd hvalid hused halloc
      rw [hblocks] at hlen
      have hone : bs.length = 1 := hlen
      have hlt : ∀ b ∈ bs, b < 2 ^ 32 := by
        intro b hb
        have hmem := (mem_freeBlocks.mp (hfresh.free b hb)).1.2
        unfold searchedBits at hmem
        omega
      rw [resize, iBlock_putBlocks bs _ _ hlt, hblocks, dif_pos (by omega)]
      exact hfresh.free _ (List.getElem_mem _)

end Ext2
end NochOS
