import NochOS.Ext2.Transfer

/-!
# ext2 - the four parts of an image

An image of one block group is four independent things: which block numbers are
used, which inode numbers are used, the inodes, and the contents of the data
blocks.  This module fixes where they lie on the device and shows that each
primitive of the source changes one part and leaves the other three alone, so that
later modules reason about the parts and no longer about the device.

Main results:

- Structure `Geometry`: the places of the metadata, which do not overlap.
- Definition `view`: the four parts of an image.
- Theorems `view_writeBlock`, `view_writeInode`, `nextFreeBlkno_spec`,
  `nextFreeIno_spec`, `view_releaseIno`, `view_releaseBlkno`: the effect of each
  primitive.
-/

namespace NochOS
namespace Ext2

open Library Bitmap

/-! ## Places -/

/-- The number of bits in a bitmap block. -/
def bitmapBits : Nat := 8192

/-- The number of bits of a bitmap that the allocators look at. -/
def searchedBits : Nat := 4096

/-- The places of the metadata of a single block group with 128-byte inodes: the
two bitmaps and the inode table are apart from each other and from the group
descriptor, and lie where the block bitmap can name them. -/
structure Geometry where
  sb : Super
  blockBitmap : Nat
  inodeBitmap : Nat
  inodeTable : Nat
  inodeSize : sb.sInodeSize = sizeofInode
  inodes : sb.sInodesPerGroup ≤ bitmapBits
  first : 2 < blockBitmap ∧ 2 < inodeBitmap ∧ 2 < inodeTable
  bitmaps : blockBitmap ≠ inodeBitmap
  apart : ∀ b, inodeTable ≤ b → b < inodeTable + (sb.sInodesPerGroup + 7) / 8 →
    b ≠ blockBitmap ∧ b ≠ inodeBitmap
  last : blockBitmap ≤ bitmapBits ∧ inodeBitmap ≤ bitmapBits ∧
    inodeTable + (sb.sInodesPerGroup + 7) / 8 ≤ bitmapBits

namespace Geometry

variable (g : Geometry)

/-- A block of the super block, the group descriptor, a bitmap or the inode table. -/
def Meta (b : Nat) : Prop :=
  b ≤ 2 ∨ b = g.blockBitmap ∨ b = g.inodeBitmap ∨
    (g.inodeTable ≤ b ∧ b < g.inodeTable + (g.sb.sInodesPerGroup + 7) / 8)

/-- A block number that a file may own. -/
def IsData (b : Nat) : Prop := b ≤ bitmapBits ∧ ¬ g.Meta b

/-- An inode number of the group. -/
def ValidIno (ino : Nat) : Prop := 1 ≤ ino ∧ ino ≤ g.sb.sInodesPerGroup

instance (b : Nat) : Decidable (g.Meta b) := by
  unfold Meta
  infer_instance

instance (b : Nat) : Decidable (g.IsData b) := by
  unfold IsData
  infer_instance

instance (ino : Nat) : Decidable (g.ValidIno ino) := by
  unfold ValidIno
  infer_instance

/-- The block of the inode table that holds an inode. -/
def inodeBlock (ino : Nat) : Nat := g.inodeTable + (ino - 1) / 8

end Geometry

theorem isData_bounds {g : Geometry} {b : Nat} (hb : g.IsData b) : 1 ≤ b ∧ b ≤ bitmapBits := by
  refine ⟨?_, hb.1⟩
  by_contra hlt
  exact hb.2 (Or.inl (by omega))

/-- The offset of an inode in its block. -/
def inodeOff (ino : Nat) : Nat := (ino - 1) % 8 * sizeofInode

/-- The device holds the group descriptor of the geometry. -/
structure OnDisk (g : Geometry) (d : Disk) : Prop where
  blockBitmap : bgBlockBitmap d = g.blockBitmap
  inodeBitmap : bgInodeBitmap d = g.inodeBitmap
  inodeTable : u32At (ext2ReadBlock d 2) 8 = g.inodeTable

/-! ## Parts -/

/-- The four parts of an image. -/
@[ext] structure View where
  blockUsed : Nat → Bool
  inodeUsed : Nat → Bool
  inode : Nat → Buf
  data : Nat → Buf

/-- The first bytes of a buffer, as many as an inode has. -/
def inodeBytes (b : Buf) : Buf := fun i => if i < sizeofInode then b i else 0

/-- The parts of the image on the device. -/
def view (g : Geometry) (d : Disk) : View where
  blockUsed b :=
    decide (1 ≤ b ∧ b ≤ bitmapBits) && bitAt (wordsOf (ext2ReadBlock d g.blockBitmap)) (b - 1)
  inodeUsed ino :=
    decide (1 ≤ ino ∧ ino ≤ bitmapBits) &&
      bitAt (wordsOf (ext2ReadBlock d g.inodeBitmap)) (ino - 1)
  inode ino :=
    if g.ValidIno ino then
      inodeBytes fun i => ext2ReadBlock d (g.inodeBlock ino) (inodeOff ino + i)
    else fun _ => 0
  data b := if g.IsData b then ext2ReadBlock d b else fun _ => 0

/-! ## Separation -/

/-- Block numbers below the size of the bitmap have different addresses. -/
theorem lba_inj {a b : Nat} (ha : a ≤ bitmapBits) (hb : b ≤ bitmapBits) (h : lba a = lba b) :
    a = b := by
  unfold bitmapBits at ha hb
  unfold lba ext2SuperLba at h
  omega

/-- A block keeps its contents when another one is written. -/
theorem readBlock_writeBlock_of_ne {a b : Nat} (ha : a ≤ bitmapBits) (hb : b ≤ bitmapBits)
    (hne : a ≠ b) (d : Disk) (buf : Buf) :
    ext2ReadBlock (ext2WriteBlock d b buf) a = ext2ReadBlock d a := by
  unfold ext2ReadBlock ext2WriteBlock
  rw [Function.update_of_ne]
  exact fun h => hne (lba_inj ha hb h)

/-- A block holds what was written to it. -/
@[simp] theorem readBlock_writeBlock_self (d : Disk) (b : Nat) (buf : Buf) :
    ext2ReadBlock (ext2WriteBlock d b buf) b = buf := by
  unfold ext2ReadBlock ext2WriteBlock
  rw [Function.update_self]

section Primitives

variable {g : Geometry} {d : Disk}

theorem inodeBlock_meta {ino : Nat} (hino : g.ValidIno ino) : g.Meta (g.inodeBlock ino) := by
  unfold Geometry.ValidIno at hino
  unfold Geometry.Meta Geometry.inodeBlock
  omega

theorem inodeBlock_le {ino : Nat} (hino : g.ValidIno ino) : g.inodeBlock ino ≤ bitmapBits := by
  have hlast := g.last
  unfold Geometry.ValidIno at hino
  unfold Geometry.inodeBlock
  omega

theorem inodeBlock_ne_bitmaps {ino : Nat} (hino : g.ValidIno ino) :
    g.inodeBlock ino ≠ g.blockBitmap ∧ g.inodeBlock ino ≠ g.inodeBitmap := by
  unfold Geometry.ValidIno at hino
  apply g.apart
  · unfold Geometry.inodeBlock
    omega
  · unfold Geometry.inodeBlock
    omega

theorem inodeBlock_ne_two {ino : Nat} : g.inodeBlock ino ≠ 2 := by
  have hfirst := g.first
  unfold Geometry.inodeBlock
  omega

/-- The group descriptor survives a write to another block. -/
theorem OnDisk.writeBlock (hd : OnDisk g d) {b : Nat} (hb : b ≤ bitmapBits) (hne : b ≠ 2)
    (buf : Buf) : OnDisk g (ext2WriteBlock d b buf) := by
  have hkeep : ext2ReadBlock (ext2WriteBlock d b buf) 2 = ext2ReadBlock d 2 :=
    readBlock_writeBlock_of_ne (by decide) hb hne.symm d buf
  refine ⟨?_, ?_, ?_⟩
  · rw [bgBlockBitmap, hkeep]
    exact hd.blockBitmap
  · rw [bgInodeBitmap, hkeep]
    exact hd.inodeBitmap
  · rw [hkeep]
    exact hd.inodeTable

/-- Writing a data block changes that block only. -/
theorem view_writeBlock {b : Nat} (hb : g.IsData b) (buf : Buf) :
    view g (ext2WriteBlock d b buf) =
      { view g d with data := Function.update (view g d).data b buf } := by
  obtain ⟨hle, hmeta⟩ := hb
  have hlast := g.last
  unfold Geometry.Meta at hmeta
  ext x i
  · simp only [view]
    rw [readBlock_writeBlock_of_ne hlast.1 hle (by omega)]
  · simp only [view]
    rw [readBlock_writeBlock_of_ne hlast.2.1 hle (by omega)]
  · simp only [view]
    by_cases hino : g.ValidIno x
    · have hne : g.inodeBlock x ≠ b := by
        rintro rfl
        exact hmeta (inodeBlock_meta hino)
      rw [if_pos hino, if_pos hino, readBlock_writeBlock_of_ne (inodeBlock_le hino) hle hne]
    · rw [if_neg hino, if_neg hino]
  · simp only [view]
    by_cases hx : x = b
    · subst hx
      have hdata : g.IsData x := ⟨hle, hmeta⟩
      rw [Function.update_self, if_pos hdata, readBlock_writeBlock_self]
    · rw [Function.update_of_ne hx]
      by_cases hdata : g.IsData x
      · rw [if_pos hdata, if_pos hdata, readBlock_writeBlock_of_ne hdata.1 hle hx]
      · rw [if_neg hdata, if_neg hdata]

/-- Writing the block bitmap changes the used block numbers only. -/
theorem view_writeBlockBitmap (ws : Words) :
    view g (ext2WriteBlock d g.blockBitmap (bytesOf ws)) =
      { view g d with
        blockUsed := fun b => decide (1 ≤ b ∧ b ≤ bitmapBits) && bitAt ws (b - 1) } := by
  have hlast := g.last
  ext x i
  · simp only [view]
    rw [readBlock_writeBlock_self, wordsOf_bytesOf]
  · simp only [view]
    rw [readBlock_writeBlock_of_ne hlast.2.1 hlast.1 g.bitmaps.symm]
  · simp only [view]
    by_cases hino : g.ValidIno x
    · rw [if_pos hino, if_pos hino, readBlock_writeBlock_of_ne (inodeBlock_le hino) hlast.1
        (inodeBlock_ne_bitmaps hino).1]
    · rw [if_neg hino, if_neg hino]
  · simp only [view]
    by_cases hdata : g.IsData x
    · have hne : x ≠ g.blockBitmap := by
        rintro rfl
        exact hdata.2 (Or.inr (Or.inl rfl))
      rw [if_pos hdata, if_pos hdata, readBlock_writeBlock_of_ne hdata.1 hlast.1 hne]
    · rw [if_neg hdata, if_neg hdata]

/-- Writing the inode bitmap changes the used inode numbers only. -/
theorem view_writeInodeBitmap (ws : Words) :
    view g (ext2WriteBlock d g.inodeBitmap (bytesOf ws)) =
      { view g d with
        inodeUsed := fun ino =>
          decide (1 ≤ ino ∧ ino ≤ bitmapBits) && bitAt ws (ino - 1) } := by
  have hlast := g.last
  ext x i
  · simp only [view]
    rw [readBlock_writeBlock_of_ne hlast.1 hlast.2.1 g.bitmaps]
  · simp only [view]
    rw [readBlock_writeBlock_self, wordsOf_bytesOf]
  · simp only [view]
    by_cases hino : g.ValidIno x
    · rw [if_pos hino, if_pos hino, readBlock_writeBlock_of_ne (inodeBlock_le hino) hlast.2.1
        (inodeBlock_ne_bitmaps hino).2]
    · rw [if_neg hino, if_neg hino]
  · simp only [view]
    by_cases hdata : g.IsData x
    · have hne : x ≠ g.inodeBitmap := by
        rintro rfl
        exact hdata.2 (Or.inr (Or.inr (Or.inl rfl)))
      rw [if_pos hdata, if_pos hdata, readBlock_writeBlock_of_ne hdata.1 hlast.2.1 hne]
    · rw [if_neg hdata, if_neg hdata]

/-! ## Inodes -/

theorem bitOf_eq {n : Nat} (h : 1 ≤ n ∧ n ≤ bitmapBits) : bitOf n = n - 1 := by
  unfold bitmapBits at h
  unfold bitOf
  omega

theorem validIno_le {ino : Nat} (hino : g.ValidIno ino) : 1 ≤ ino ∧ ino ≤ bitmapBits :=
  ⟨hino.1, hino.2.trans g.inodes⟩

/-- The source's test of an inode number reads its bit. -/
theorem inoExist_eq (hd : OnDisk g d) {ino : Nat} (hino : 1 ≤ ino ∧ ino ≤ bitmapBits) :
    inoExist d ino = if (view g d).inodeUsed ino = true then 1 else 0 := by
  have hne : ino ≠ 0 := by omega
  have hused : (view g d).inodeUsed ino =
      bitAt (wordsOf (ext2ReadBlock d g.inodeBitmap)) (ino - 1) := by
    simp only [view, decide_eq_true hino, Bool.true_and]
  rw [inoExist, if_neg hne, hd.inodeBitmap, bitmapQueryBit_eq, bitOf_eq hino, hused]

/-- The source finds an inode of the group at its place in the table. -/
theorem inodePlace_eq (hd : OnDisk g d) {ino : Nat} (hino : g.ValidIno ino) :
    inodePlace g.sb d ino = (g.inodeBlock ino, inodeOff ino) := by
  have hlast := g.last
  have hgroup : (ino - 1) / g.sb.sInodesPerGroup = 0 := by
    apply Nat.div_eq_of_lt
    unfold Geometry.ValidIno at hino
    omega
  have hidx : (ino - 1) % g.sb.sInodesPerGroup = ino - 1 := by
    apply Nat.mod_eq_of_lt
    unfold Geometry.ValidIno at hino
    omega
  have hle := inodeBlock_le hino
  have hlt : (ino - 1) / 8 + g.inodeTable < 2 ^ 32 := by
    unfold bitmapBits Geometry.inodeBlock at hle
    omega
  have height : blocksize / sizeofInode = 8 := rfl
  have htwo : (g.sb.sBlocksPerGroup * 0 + 2) % 2 ^ 32 = 2 := by omega
  simp only [inodePlace, hgroup, hidx, g.inodeSize, height, htwo, hd.inodeTable,
    Nat.mod_eq_of_lt hlt, Geometry.inodeBlock, inodeOff, Prod.mk.injEq, and_true]
  exact Nat.add_comm _ _

/-- Reading an inode in use delivers it. -/
theorem readInode_eq (hd : OnDisk g d) {ino : Nat} (hino : g.ValidIno ino)
    (hused : (view g d).inodeUsed ino = true) (inode : Buf) :
    ext2ReadInode g.sb d ino inode = (0, (view g d).inode ino) := by
  have hexist : ¬ inoExist d ino ≠ 1 := by
    rw [inoExist_eq hd (validIno_le hino), if_pos hused]
    simp
  rw [ext2ReadInode, if_neg hexist, inodePlace_eq hd hino]
  simp only [view, if_pos hino, Prod.mk.injEq, true_and]
  funext i
  rw [ext2ReadBlockBytes, memcpy_apply]
  simp [inodeBytes]

/-- Different inodes of the group have different places. -/
theorem inodePlace_apart {a b i j : Nat} (ha : g.ValidIno a) (hb : g.ValidIno b) (hne : a ≠ b)
    (hblk : g.inodeBlock a = g.inodeBlock b) (hi : i < sizeofInode) (hj : j < sizeofInode) :
    inodeOff a + i ≠ inodeOff b + j := by
  unfold Geometry.ValidIno at ha hb
  unfold Geometry.inodeBlock at hblk
  unfold inodeOff
  unfold sizeofInode at *
  omega

/-- Writing an inode in use changes that inode only. -/
theorem view_writeInode (hd : OnDisk g d) {ino : Nat} (hino : g.ValidIno ino)
    (hused : (view g d).inodeUsed ino = true) (inode : Buf) :
    OnDisk g (ext2WriteInode g.sb d ino inode).2 ∧
      view g (ext2WriteInode g.sb d ino inode).2 =
        { view g d with inode := Function.update (view g d).inode ino (inodeBytes inode) } := by
  have hlast := g.last
  have hexist : ¬ inoExist d ino ≠ 1 := by
    rw [inoExist_eq hd (validIno_le hino), if_pos hused]
    simp
  rw [ext2WriteInode, if_neg hexist, inodePlace_eq hd hino]
  simp only [ext2WriteBlockBytes]
  refine ⟨hd.writeBlock (inodeBlock_le hino) inodeBlock_ne_two _, ?_⟩
  ext x i
  · simp only [view]
    rw [readBlock_writeBlock_of_ne hlast.1 (inodeBlock_le hino)
      (inodeBlock_ne_bitmaps hino).1.symm]
  · simp only [view]
    rw [readBlock_writeBlock_of_ne hlast.2.1 (inodeBlock_le hino)
      (inodeBlock_ne_bitmaps hino).2.symm]
  · simp only [view]
    by_cases hx : x = ino
    · subst hx
      rw [Function.update_self, if_pos hino, readBlock_writeBlock_self]
      by_cases hi : i < sizeofInode
      · simp only [inodeBytes, if_pos hi]
        rw [memcpy_inside (Nat.le_add_right _ _) (by omega), Nat.add_sub_cancel_left, Nat.zero_add]
      · simp only [inodeBytes, if_neg hi]
    · rw [Function.update_of_ne hx]
      by_cases hvalid : g.ValidIno x
      · rw [if_pos hvalid, if_pos hvalid]
        by_cases hblk : g.inodeBlock x = g.inodeBlock ino
        · by_cases hi : i < sizeofInode
          · simp only [inodeBytes, if_pos hi]
            rw [hblk, readBlock_writeBlock_self, memcpy_outside]
            -- the byte lies outside the inode that is written
            by_contra hin
            have happart := inodePlace_apart hvalid hino hx hblk hi
              (j := inodeOff x + i - inodeOff ino) (by omega)
            omega
          · simp only [inodeBytes, if_neg hi]
        · rw [readBlock_writeBlock_of_ne (inodeBlock_le hvalid) (inodeBlock_le hino) hblk]
      · rw [if_neg hvalid, if_neg hvalid]
  · simp only [view]
    by_cases hdata : g.IsData x
    · have hne : x ≠ g.inodeBlock ino := by
        rintro rfl
        exact hdata.2 (inodeBlock_meta hino)
      rw [if_pos hdata, if_pos hdata, readBlock_writeBlock_of_ne hdata.1 (inodeBlock_le hino) hne]
    · rw [if_neg hdata, if_neg hdata]

/-! ## Bits -/

/-- The search for a free bit takes the least clear one of those it looks at, or
runs into undefined behaviour when all of them are set. -/
theorem nextFree_cases (d : Disk) (bitmapBlkno : Nat) :
    (nextFree d bitmapBlkno = none ∧
        ∀ i < searchedBits, bitAt (wordsOf (ext2ReadBlock d bitmapBlkno)) i = true) ∨
      ∃ n ws, nextFree d bitmapBlkno = some (n, ext2WriteBlock d bitmapBlkno (bytesOf ws)) ∧
        1 ≤ n ∧ n ≤ searchedBits ∧
        bitAt (wordsOf (ext2ReadBlock d bitmapBlkno)) (n - 1) = false ∧
        (∀ i, bitAt ws i =
          (bitAt (wordsOf (ext2ReadBlock d bitmapBlkno)) i || decide (i = n - 1))) := by
  have hdvd : 2 ^ 0 ∣ blocksize * 4 := one_dvd _
  simp only [nextFree]
  rcases findFreeRegion_cases (wordsOf (ext2ReadBlock d bitmapBlkno)) hdvd with
    ⟨hfound, hfull⟩ | ⟨p, hfound, hp, hroom, hclear, -⟩
  · left
    rw [hfound]
    refine ⟨rfl, fun i hi => ?_⟩
    obtain ⟨j, hlo, hhi, hset⟩ := hfull i (one_dvd _) hi
    have hij : j = i := by omega
    exact hij ▸ hset
  · right
    have hnonneg : ¬ ((p : Int) < 0) := by omega
    rw [hfound]
    simp only [if_neg hnonneg, Int.toNat_natCast]
    refine ⟨p + 1, _, rfl, by omega, ?_, ?_, fun i => ?_⟩
    · unfold blocksize at hroom
      unfold searchedBits
      omega
    · exact hclear p le_rfl (by omega)
    · have hiff : (p ≤ i ∧ i < p + 2 ^ 0) ↔ i = p := by omega
      rw [bitAt_bitmapSetBit, bitAt_regOp_alloc _ hp]
      simp only [hiff, Nat.add_sub_cancel, Bool.or_assoc, Bool.or_self]

/-- A bit that was found is one of those that are looked at. -/
theorem le_searchedBits {n : Nat} {d d' : Disk} {bitmapBlkno : Nat}
    (h : nextFree d bitmapBlkno = some (n, d')) : n ≤ searchedBits := by
  cases nextFree_cases d bitmapBlkno with
  | inl hfull => exact absurd (hfull.1.symm.trans h) (by simp)
  | inr hfound =>
      obtain ⟨b, ws, hsome, -, hhi, -, -⟩ := hfound
      have heq := hsome.symm.trans h
      simp only [Option.some.injEq, Prod.mk.injEq] at heq
      exact heq.1 ▸ hhi

/-- Marking a number in a bitmap marks that number only. -/
theorem mark_bits (old ws : Words) {n : Nat} (hn : 1 ≤ n ∧ n ≤ bitmapBits)
    (hws : ∀ i, bitAt ws i = (bitAt old i || decide (i = n - 1))) :
    (fun m => decide (1 ≤ m ∧ m ≤ bitmapBits) && bitAt ws (m - 1)) =
      Function.update (fun m => decide (1 ≤ m ∧ m ≤ bitmapBits) && bitAt old (m - 1)) n true := by
  funext m
  by_cases hm : m = n
  · subst hm
    rw [Function.update_self, hws, decide_eq_true hn]
    simp
  · rw [Function.update_of_ne hm, hws]
    by_cases hin : 1 ≤ m ∧ m ≤ bitmapBits
    · have hne : m - 1 ≠ n - 1 := by omega
      simp [hne]
    · simp [decide_eq_false hin]

/-- `next_free_blkno` marks an unused block, or finds all it looks at in use. -/
theorem nextFreeBlkno_spec (hd : OnDisk g d) :
    (nextFreeBlkno d = none ∧ ∀ b, 1 ≤ b → b ≤ searchedBits → (view g d).blockUsed b = true) ∨
      ∃ b d', nextFreeBlkno d = some (b, d') ∧ 1 ≤ b ∧ b ≤ searchedBits ∧
        (view g d).blockUsed b = false ∧ OnDisk g d' ∧
        view g d' = { view g d with blockUsed := Function.update (view g d).blockUsed b true } := by
  have hlast := g.last
  have hfirst := g.first
  rw [nextFreeBlkno, hd.blockBitmap]
  rcases nextFree_cases d g.blockBitmap with ⟨hnone, hfull⟩ | ⟨b, ws, hsome, hlo, hhi, hclear, hws⟩
  · refine Or.inl ⟨hnone, fun b hb hb' => ?_⟩
    have hin : 1 ≤ b ∧ b ≤ bitmapBits := ⟨hb, hb'.trans (by decide)⟩
    simp only [view, decide_eq_true hin, Bool.true_and]
    exact hfull _ (by omega)
  · have hin : 1 ≤ b ∧ b ≤ bitmapBits := ⟨hlo, hhi.trans (by decide)⟩
    refine Or.inr ⟨b, _, hsome, hlo, hhi, ?_, hd.writeBlock hlast.1 (by omega) _, ?_⟩
    · simp only [view, hclear, Bool.and_false]
    · rw [view_writeBlockBitmap, mark_bits _ ws hin hws]
      rfl

/-- `next_free_ino` marks an unused inode number, or finds all it looks at in use. -/
theorem nextFreeIno_spec (hd : OnDisk g d) :
    (nextFreeIno d = none ∧ ∀ n, 1 ≤ n → n ≤ searchedBits → (view g d).inodeUsed n = true) ∨
      ∃ n d', nextFreeIno d = some (n, d') ∧ 1 ≤ n ∧ n ≤ searchedBits ∧
        (view g d).inodeUsed n = false ∧ OnDisk g d' ∧
        view g d' = { view g d with inodeUsed := Function.update (view g d).inodeUsed n true } := by
  have hlast := g.last
  have hfirst := g.first
  rw [nextFreeIno, hd.inodeBitmap]
  rcases nextFree_cases d g.inodeBitmap with ⟨hnone, hfull⟩ | ⟨n, ws, hsome, hlo, hhi, hclear, hws⟩
  · refine Or.inl ⟨hnone, fun n hn hn' => ?_⟩
    have hin : 1 ≤ n ∧ n ≤ bitmapBits := ⟨hn, hn'.trans (by decide)⟩
    simp only [view, decide_eq_true hin, Bool.true_and]
    exact hfull _ (by omega)
  · have hin : 1 ≤ n ∧ n ≤ bitmapBits := ⟨hlo, hhi.trans (by decide)⟩
    refine Or.inr ⟨n, _, hsome, hlo, hhi, ?_, hd.writeBlock hlast.2.1 (by omega) _, ?_⟩
    · simp only [view, hclear, Bool.and_false]
    · rw [view_writeInodeBitmap, mark_bits _ ws hin hws]
      rfl

/-- `ino_try_set` on an inode number in use does nothing. -/
theorem inoTrySet_used (hd : OnDisk g d) {ino : Nat} (hino : 1 ≤ ino ∧ ino ≤ bitmapBits)
    (hused : (view g d).inodeUsed ino = true) : inoTrySet d ino = (1, d) := by
  simp only [view, decide_eq_true hino, Bool.true_and] at hused
  simp only [inoTrySet, hd.inodeBitmap, bitmapQueryBit_eq, bitOf_eq hino, hused]
  simp

/-- `release_blkno` marks the block as used. -/
theorem view_releaseBlkno (hd : OnDisk g d) {b : Nat} (hb : 1 ≤ b ∧ b ≤ bitmapBits) :
    OnDisk g (releaseBlkno d b) ∧
      view g (releaseBlkno d b) =
        { view g d with blockUsed := Function.update (view g d).blockUsed b true } := by
  have hlast := g.last
  have hfirst := g.first
  rw [releaseBlkno, releaseBit, hd.blockBitmap, bitOf_eq hb]
  refine ⟨hd.writeBlock hlast.1 (by omega) _, ?_⟩
  rw [view_writeBlockBitmap, mark_bits _ _ hb (bitAt_bitmapSetBit _ _)]
  rfl

/-- `release_ino` marks the inode number as used. -/
theorem view_releaseIno (hd : OnDisk g d) {ino : Nat} (hino : 1 ≤ ino ∧ ino ≤ bitmapBits) :
    OnDisk g (releaseIno d ino) ∧
      view g (releaseIno d ino) =
        { view g d with inodeUsed := Function.update (view g d).inodeUsed ino true } := by
  have hlast := g.last
  have hfirst := g.first
  rw [releaseIno, releaseBit, hd.inodeBitmap, bitOf_eq hino]
  refine ⟨hd.writeBlock hlast.2.1 (by omega) _, ?_⟩
  rw [view_writeInodeBitmap, mark_bits _ _ hino (bitAt_bitmapSetBit _ _)]
  rfl

/-- The group descriptor survives a write to a data block. -/
theorem OnDisk.writeData (hd : OnDisk g d) {b : Nat} (hb : g.IsData b) (buf : Buf) :
    OnDisk g (ext2WriteBlock d b buf) := by
  apply hd.writeBlock hb.1
  rintro rfl
  exact hb.2 (Or.inl le_rfl)

/-- A data block is read as the data of the view. -/
theorem readBlock_eq {b : Nat} (hb : g.IsData b) : ext2ReadBlock d b = (view g d).data b := by
  simp only [view, if_pos hb]

end Primitives

end Ext2
end NochOS
