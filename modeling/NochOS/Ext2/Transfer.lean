import NochOS.Ext2.Device

/-!
# ext2 - reading and writing file data

This module embeds the data path of `ext2.c`.  The loops of `ext2_read_direct`,
`ext2_write_direct` and `ext2_read_indirect` decide the same pieces in the same
way and differ in what they do with a piece, so the pieces are one list here and
each function is a pass over it.

Main results:

- Definition `chunks`: the pieces of a transfer.
- Definitions `ext2ReadData`, `fileFread`, `fileFwrite`: the operations on files.
-/

namespace NochOS
namespace Ext2

open Library Bitmap

/-! ## The pieces of a transfer -/

/-- The values of `iblkno`, `buf_off`, `total_size` and `cpy_len` in one pass of a
transfer loop. -/
structure Chunk where
  iblkno : Nat
  bufOff : Nat
  total : Nat
  len : Nat
deriving DecidableEq

/-- The length a pass decides to copy. -/
def cpyLen (bufOff : Nat) (rmnSize nbytes : Nat) : Nat :=
  let len := nbytes
  let len := if blocksize - bufOff < len then blocksize - bufOff else len
  if rmnSize < len then rmnSize else len

/-- The passes of a transfer loop.  Offsets inside a block are below the block
size: the first one is a remainder and the later ones are zero. -/
def chunks (iblkno : Nat) (bufOff : Fin blocksize) (total rmnSize nbytes : Nat) : List Chunk :=
  let len := cpyLen bufOff rmnSize nbytes
  ⟨iblkno, bufOff, total, len⟩ ::
    if len = rmnSize ∨ len = nbytes then []
    else chunks (iblkno + 1) ⟨0, by decide⟩ (total + len) (rmnSize - len) (nbytes - len)
termination_by nbytes
decreasing_by
  have hlt := bufOff.isLt
  rename_i hgo
  have hlen : cpyLen bufOff rmnSize nbytes = len := rfl
  simp only [cpyLen] at hlen
  split at hlen <;> split at hlen <;> omega

/-- The offset of a byte of a file inside its block. -/
def offsetIn (offset : Nat) : Fin blocksize :=
  ⟨offset % blocksize, Nat.mod_lt _ (by decide)⟩

/-- `total_size` when a transfer loop returns. -/
def totalSize (cs : List Chunk) : Nat := (cs.map Chunk.len).sum

/-! ## Direct and indirect blocks -/

/-- `ext2_read_direct(inode, offset, buf + at, nbytes)`: the return value and the
buffer afterwards. -/
def ext2ReadDirect (d : Disk) (inode : Buf) (offset : Nat) (buf : Buf) (at_ nbytes : Nat) :
    Nat × Buf :=
  let rmnSize := (iSize inode + 2 ^ 32 - offset) % 2 ^ 32
  let cs := chunks (offset / blocksize) (offsetIn offset) 0 rmnSize nbytes
  (totalSize cs, cs.foldl (fun buf c =>
    ext2ReadBlockBytes d (iBlock inode c.iblkno) buf (at_ + c.total) c.bufOff c.len) buf)

/-- `ext2_write_direct`: the return value and the device afterwards. -/
def ext2WriteDirect (d : Disk) (inode : Buf) (offset : Nat) (buf : Buf) (nbytes : Nat) :
    Nat × Disk :=
  let rmnSize := (iSize inode + 2 ^ 32 - offset) % 2 ^ 32
  let cs := chunks (offset / blocksize) (offsetIn offset) 0 rmnSize nbytes
  (totalSize cs, cs.foldl (fun d c =>
    ext2WriteBlockBytes d (iBlock inode c.iblkno) buf c.total c.bufOff c.len) d)

/-- `ext2_read_indirect(inode, offset, buf + at, nbytes)`.  Every pass copies to
the start of the destination. -/
def ext2ReadIndirect (d : Disk) (inode : Buf) (offset : Nat) (buf : Buf) (at_ nbytes : Nat) :
    Nat × Buf :=
  let rmnSize := (iSize inode + 2 * 2 ^ 32 - blocksize * 12 - offset) % 2 ^ 32
  let idrOff := (offset + 2 ^ 32 - blocksize * 12) % 2 ^ 32
  let idrBuf := ext2ReadBlock d (iBlock inode 12)
  let cs := chunks (idrOff / blocksize) (offsetIn idrOff) 0 rmnSize nbytes
  (totalSize cs, cs.foldl (fun buf c =>
    ext2ReadBlockBytes d (u32At idrBuf (4 * c.iblkno)) buf at_ c.bufOff c.len) buf)

/-- `ext2_read_data`. -/
def ext2ReadData (d : Disk) (inode : Buf) (offset : Nat) (buf : Buf) (nbytes : Nat) :
    Nat × Buf :=
  if iSize inode ≤ offset then (0, buf)
  else
    let nbytes := if iSize inode < (offset + nbytes) % 2 ^ 32 then iSize inode - offset else nbytes
    if (offset + nbytes) % 2 ^ 32 ≤ 12 * blocksize then
      ext2ReadDirect d inode offset buf 0 nbytes
    else if 12 * blocksize ≤ offset then ext2ReadIndirect d inode offset buf 0 nbytes
    else
      let direct := ext2ReadDirect d inode offset buf 0 (12 * blocksize - offset)
      ext2ReadIndirect d inode (12 * blocksize) direct.2 (12 * blocksize - offset)
        (nbytes - (12 * blocksize - offset))

/-! ## Operations on open files -/

/-- The fields of `file_t` that the data path uses. -/
structure File where
  iMode : Nat
  iIno : Nat
  iSize : Nat
  fPos : Nat

/-- `file_fread`: the return value, the buffer and the open file afterwards.
`inode` is the local variable before it is filled. -/
def fileFread (sb : Super) (d : Disk) (self : File) (inode buf : Buf) (nbytes : Nat) :
    Int × Buf × File :=
  if self.iMode &&& ext2SIfreg = 0 then (-1, buf, self)
  else
    let inode := (ext2ReadInode sb d self.iIno inode).2
    let r := ext2ReadData d inode self.fPos buf nbytes
    if r.1 = 2 ^ 32 - 1 then (-1, r.2, self)
    else (r.1, r.2, { self with fPos := (self.fPos + r.1) % 2 ^ 32 })

/-- `file_fwrite`: the device and the open file afterwards; the return value is
always zero.  `inode` is the local variable before it is filled. -/
def fileFwrite (sb : Super) (d : Disk) (self : File) (inode buf : Buf) (nbytes : Nat) :
    Option (Disk × File) :=
  let inode := (ext2ReadInode sb d self.iIno inode).2
  match ext2AllocInode sb d self.iIno inode ((self.fPos + nbytes) % 2 ^ 32) with
  | none => none
  | some (inode, d) =>
      some ((ext2WriteDirect d inode self.fPos buf nbytes).2,
        { self with fPos := (self.fPos + nbytes) % 2 ^ 32 })

end Ext2
end NochOS
