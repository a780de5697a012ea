import NochOS.Bitmap.Region

/-!
# ext2 - blocks, bitmaps and inodes on the device

This module embeds the lower half of `ext2.c`: access to blocks and parts of
blocks, the inode and block bitmaps, the inode table and the allocation of data
blocks.  The device is ideal: every transfer succeeds.  A packed structure in
memory is a byte buffer, and its fields are read and written at their offsets.

An operation returns `none` where the source goes on with undefined behaviour.

Main results:

- Definitions `ext2ReadInode`, `ext2WriteInode`: transfer of one inode.
- Definitions `ext2AllocInode`, `ext2AllocIblock`: allocation of data blocks.
-/

namespace NochOS
namespace Ext2

open Library Bitmap

/-- `superblock.s_blocksize`, as `ext2_init` sets it. -/
def blocksize : Nat := 1024

/-- `EXT2_SUPER_LBA`. -/
def ext2SuperLba : Nat := 0x3F

/-- `EXT2_ROOT_INO`. -/
def ext2RootIno : Nat := 2

/-- `EXT2_S_IFREG`. -/
def ext2SIfreg : Nat := 0x8000

/-- `EXT2_S_IFDIR`. -/
def ext2SIfdir : Nat := 0x4000

/-- The device: the block that starts at a sector address. -/
abbrev Disk := Nat → Buf

/-- The fields of `ext2_super_t` that the file system reads after start-up. -/
structure Super where
  sBlocksPerGroup : Nat
  sInodesPerGroup : Nat
  sInodeSize : Nat

/-! ## Blocks -/

/-- The sector address of a block. -/
def lba (blkno : Nat) : Nat := (ext2SuperLba + blkno * 2) % 2 ^ 32

/-- `ext2_read_block`. -/
def ext2ReadBlock (d : Disk) (blkno : Nat) : Buf := d (lba blkno)

/-- `ext2_write_block`. -/
def ext2WriteBlock (d : Disk) (blkno : Nat) (buf : Buf) : Disk :=
  Function.update d (lba blkno) buf

/-- `ext2_read_block_bytes(blkno, buf + at, offset, nbytes)`. -/
def ext2ReadBlockBytes (d : Disk) (blkno : Nat) (buf : Buf) (at_ offset nbytes : Nat) : Buf :=
  memcpy buf at_ (ext2ReadBlock d blkno) offset nbytes

/-- `ext2_write_block_bytes(blkno, buf + at, offset, nbytes)`. -/
def ext2WriteBlockBytes (d : Disk) (blkno : Nat) (buf : Buf) (at_ offset nbytes : Nat) : Disk :=
  ext2WriteBlock d blkno (memcpy (ext2ReadBlock d blkno) offset buf at_ nbytes)

/-! ## Group descriptor and inode fields -/

/-- `bg_block_bitmap` of the first group. -/
def bgBlockBitmap (d : Disk) : Nat := u32At (ext2ReadBlock d 2) 0

/-- `bg_inode_bitmap` of the first group. -/
def bgInodeBitmap (d : Disk) : Nat := u32At (ext2ReadBlock d 2) 4

/-- `sizeof(ext2_inode_t)`. -/
def sizeofInode : Nat := 128

/-- `i_mode`. -/
def iMode (inode : Buf) : Nat := u16At inode 0

/-- `i_size`. -/
def iSize (inode : Buf) : Nat := u32At inode 4

/-- `i_blocks`. -/
def iBlocks (inode : Buf) : Nat := u32At inode 28

/-- `i_block[k]`. -/
def iBlock (inode : Buf) (k : Nat) : Nat := u32At inode (40 + 4 * k)

/-- The assignment to `i_mode`. -/
def setIMode (inode : Buf) (v : Nat) : Buf := setU16 inode 0 v

/-- The assignment to `i_size`. -/
def setISize (inode : Buf) (v : Nat) : Buf := setU32 inode 4 v

/-- The assignment to `i_blocks`. -/
def setIBlocks (inode : Buf) (v : Nat) : Buf := setU32 inode 28 v

/-- The assignment to `i_block[k]`. -/
def setIBlock (inode : Buf) (k v : Nat) : Buf := setU32 inode (40 + 4 * k) v

/-! ## Bitmaps -/

/-- The body `next_free_ino` and `next_free_blkno` share, on the block that holds
the bitmap.  The source compares the answer of the search with -1, which it never
is; `-ENOMEM` goes on to a store outside the buffer. -/
def nextFree (d : Disk) (bitmapBlkno : Nat) : Option (Nat × Disk) :=
  let found := findFreeRegion (wordsOf (ext2ReadBlock d bitmapBlkno)) (blocksize * 4) 0
  if found.1 < 0 then none
  else
    some (found.1.toNat + 1,
      ext2WriteBlock d bitmapBlkno (bytesOf (bitmapSetBit found.2 found.1.toNat)))

/-- `next_free_ino`. -/
def nextFreeIno (d : Disk) : Option (Nat × Disk) := nextFree d (bgInodeBitmap d)

/-- `next_free_blkno`. -/
def nextFreeBlkno (d : Disk) : Option (Nat × Disk) := nextFree d (bgBlockBitmap d)

/-- `n - 1` on 32-bit values: the bit that stands for an inode or a block. -/
def bitOf (n : Nat) : Nat := (n + 2 ^ 32 - 1) % 2 ^ 32

/-- `ino_try_set`. -/
def inoTrySet (d : Disk) (ino : Nat) : Nat × Disk :=
  let bitmap := wordsOf (ext2ReadBlock d (bgInodeBitmap d))
  if bitmapQueryBit bitmap (bitOf ino) ≠ 0 then (1, d)
  else (0, ext2WriteBlock d (bgInodeBitmap d) (bytesOf (bitmapSetBit bitmap (bitOf ino))))

/-- `ino_exist`. -/
def inoExist (d : Disk) (ino : Nat) : Nat :=
  if ino = 0 then 0
  else bitmapQueryBit (wordsOf (ext2ReadBlock d (bgInodeBitmap d))) (bitOf ino)

/-- The body `release_ino` and `release_blkno` share; it sets the bit. -/
def releaseBit (d : Disk) (bitmapBlkno n : Nat) : Disk :=
  ext2WriteBlock d bitmapBlkno
    (bytesOf (bitmapSetBit (wordsOf (ext2ReadBlock d bitmapBlkno)) (bitOf n)))

/-- `release_ino`. -/
def releaseIno (d : Disk) (ino : Nat) : Disk := releaseBit d (bgInodeBitmap d) ino

/-- `release_blkno`. -/
def releaseBlkno (d : Disk) (blkno : Nat) : Disk := releaseBit d (bgBlockBitmap d) blkno

/-! ## Inodes -/

/-- Where `ext2_access_inode` finds an inode: the block and the offset in it. -/
def inodePlace (sb : Super) (d : Disk) (ino : Nat) : Nat × Nat :=
  let bgno := (ino - 1) / sb.sInodesPerGroup
  let iidx := (ino - 1) % sb.sInodesPerGroup
  let bgBlkno := (sb.sBlocksPerGroup * bgno + 2) % 2 ^ 32
  let bgInodeTable := u32At (ext2ReadBlock d bgBlkno) 8
  ((iidx / (blocksize / sb.sInodeSize) + bgInodeTable) % 2 ^ 32,
    iidx % (blocksize / sb.sInodeSize) * sizeofInode)

/-- `ext2_read_inode`: the return value and the inode afterwards.  A transfer
overwrites every byte of the structure. -/
def ext2ReadInode (sb : Super) (d : Disk) (ino : Nat) (inode : Buf) : Int × Buf :=
  if inoExist d ino ≠ 1 then (-1, inode)
  else
    (0, ext2ReadBlockBytes d (inodePlace sb d ino).1 (fun _ => 0) 0 (inodePlace sb d ino).2
      sizeofInode)

/-- `ext2_write_inode`. -/
def ext2WriteInode (sb : Super) (d : Disk) (ino : Nat) (inode : Buf) : Int × Disk :=
  if inoExist d ino ≠ 1 then (-1, d)
  else
    (0, ext2WriteBlockBytes d (inodePlace sb d ino).1 inode 0 (inodePlace sb d ino).2
      sizeofInode)

/-! ## Allocation -/

/-- The loop of `ext2_alloc_inode`, from block `i` on for `n` blocks. -/
def fillBlocks (i : Nat) : Nat → Buf → Disk → Option (Buf × Disk)
  | 0, inode, d => some (inode, d)
  | n + 1, inode, d =>
      match nextFreeBlkno d with
      | none => none
      | some (blkno, d) => fillBlocks (i + 1) n (setIBlock inode i blkno) d

/-- The number of blocks a file of `fsize` bytes needs. -/
def blocksFor (fsize : Nat) : Nat :=
  fsize / blocksize + if fsize % blocksize ≠ 0 then 1 else 0

/-- `ext2_alloc_inode`: the inode and the device afterwards. -/
def ext2AllocInode (sb : Super) (d : Disk) (ino : Nat) (inode : Buf) (fsize : Nat) :
    Option (Buf × Disk) :=
  let blocks := blocksFor fsize
  let claimed := inoTrySet d ino
  let i := if claimed.1 = 0 then 0 else iBlocks inode
  let inode := setIBlocks (setISize inode fsize) blocks
  match fillBlocks i (blocks - i) inode claimed.2 with
  | none => none
  | some (inode, d) => some (inode, (ext2WriteInode sb d ino inode).2)

/-- `ext2_alloc_iblock`: the return value, the inode and the device afterwards. -/
def ext2AllocIblock (d : Disk) (inode : Buf) : Option (Int × Buf × Disk) :=
  if 12 ≤ iBlocks inode then some (-1, inode, d)
  else
    match nextFreeBlkno d with
    | none => none
    | some (blkno, d) =>
        let inode := setIBlock inode (iBlocks inode) blkno
        some (0, setIBlocks inode (iBlocks inode + 1), d)

end Ext2
end NochOS
