import NochOS.Ext2.Lookup

/-!
# ext2 - directory entries in the memory

The entry that a lookup fills in is a structure at an address of the memory.  Its name
is an array of 48 bytes with the fields of the inode behind it, and the name of a record
is copied with the length that the record has.

Main results:

- Theorem `dentryAt_fill`: a short name gives the entry that the lookups answer.
- Theorem `fill_outside`: the bytes that a copy leaves alone.
-/

namespace NochOS
namespace Ext2

open Library

/-- The offset of `d_inode.i_blocks` in `dentry_t`. -/
def offIBlocks : Nat := fnameLen

/-- The offset of `d_inode.i_size`. -/
def offISize : Nat := fnameLen + 4

/-- The offset of `d_inode.i_ino`. -/
def offIIno : Nat := fnameLen + 8

/-- The offset of `d_inode.i_mode`. -/
def offIMode : Nat := fnameLen + 12

/-- The offset of `d_inode.i_op`. -/
def offIOp : Nat := fnameLen + 20

/-- `ext2_fill_vfs_dentry` on an entry at an address, for the record of a directory.
`ext2Iop` is the jump table of the inode operations. -/
def ext2FillVfsDentryAt (sb : Super) (d : Disk) (stk : Stack) (ext2Iop : Nat) (mem : Buf)
    (at_ : Nat) (ext2Dentry : Rec) : Buf :=
  let nameLen := ext2Dentry.name.length
  let mem := strncpy mem at_ (ext2Dentry.name.takeWhile (· ≠ 0)) nameLen
  let mem := Function.update mem (at_ + nameLen) 0
  let theInode := (ext2ReadInode sb d ext2Dentry.ino stk.fillTheInode).2
  let mem := setU32 mem (at_ + offIOp) ext2Iop
  let mem := setU32 mem (at_ + offIBlocks) (iBlocks theInode)
  let mem := setU32 mem (at_ + offISize) (iSize theInode)
  let mem := setU32 mem (at_ + offIIno) ext2Dentry.ino
  setU32 mem (at_ + offIMode) (iMode theInode)

/-- The entry at an address. -/
def dentryAt (mem : Buf) (at_ : Nat) : Dentry where
  filename := cString (fun i => mem (at_ + i)) fnameLen
  iBlocks := u32At mem (at_ + offIBlocks)
  iSize := u32At mem (at_ + offISize)
  iIno := u32At mem (at_ + offIIno)
  iMode := u32At mem (at_ + offIMode)

section Fill

variable {sb : Super} {d : Disk} {stk : Stack} {ext2Iop : Nat} {mem : Buf} {at_ : Nat}

/-- A copy changes the bytes of the name with its terminating zero, and the fields of the
inode. -/
theorem fill_outside {e : Rec} {i : Nat} (hname : i < at_ ∨ at_ + e.name.length < i)
    (hfields : i < at_ + fnameLen ∨ at_ + fnameLen + 24 ≤ i) :
    ext2FillVfsDentryAt sb d stk ext2Iop mem at_ e i = mem i := by
  have hne : i ≠ at_ + e.name.length := by
    omega
  simp only [ext2FillVfsDentryAt, offIMode, offIIno, offISize, offIBlocks, offIOp]
  rw [setU32_outside (by omega), setU32_outside (by omega), setU32_outside (by omega),
    setU32_outside (by omega), setU32_outside (by omega), Function.update_of_ne hne, strncpy,
    if_neg (by omega)]

/-- A byte of the name, or the zero behind it. -/
theorem fill_name {e : Rec} (hlen : e.name.length < fnameLen) {i : Nat} (hi : i ≤ e.name.length) :
    ext2FillVfsDentryAt sb d stk ext2Iop mem at_ e (at_ + i) =
      (e.name.takeWhile (· ≠ 0)).getD i 0 := by
  simp only [ext2FillVfsDentryAt, offIMode, offIIno, offISize, offIBlocks, offIOp]
  rw [setU32_outside (by omega), setU32_outside (by omega), setU32_outside (by omega),
    setU32_outside (by omega), setU32_outside (by omega)]
  by_cases hend : i = e.name.length
  · have hshort := (List.takeWhile_prefix (· ≠ 0) (l := e.name)).length_le
    rw [hend, Function.update_self, List.getD_eq_default _ _ hshort]
  · rw [Function.update_of_ne (by omega), strncpy, if_pos (by omega), Nat.add_sub_cancel_left]

/-- A second copy of the same record changes nothing. -/
theorem fill_idem (e : Rec) :
    ext2FillVfsDentryAt sb d stk ext2Iop (ext2FillVfsDentryAt sb d stk ext2Iop mem at_ e) at_ e =
      ext2FillVfsDentryAt sb d stk ext2Iop mem at_ e := by
  have hstore : Overwrites fun mem => ext2FillVfsDentryAt sb d stk ext2Iop mem at_ e :=
    (((((overwrites_strncpy _ _ _).comp (overwrites_update _ _)).comp
      (overwrites_setU32 _ _)).comp (overwrites_setU32 _ _)).comp (overwrites_setU32 _ _)).comp
      (overwrites_setU32 _ _) |>.comp (overwrites_setU32 _ _)
  exact hstore.idem mem

/-- A copy of a short name gives the entry that a lookup answers. -/
theorem dentryAt_fill {blkBuf : Buf} {off : Nat} (hlen : dNameLen blkBuf off < fnameLen) :
    dentryAt (ext2FillVfsDentryAt sb d stk ext2Iop mem at_ (recAt blkBuf off)) at_ =
      ext2FillVfsDentry sb d stk blkBuf off := by
  have hname : (dName blkBuf off).length < fnameLen := by
    rw [dName, length_bytesAt]
    exact hlen
  have hnul : 0 ∉ (dName blkBuf off).takeWhile (· ≠ 0) := by
    intro hmem
    simpa using List.mem_takeWhile_imp hmem
  have hshort := (List.takeWhile_prefix (· ≠ 0) (l := dName blkBuf off)).length_le
  have hino : dInode blkBuf off < 2 ^ 32 := u32At_lt _ _
  have hmode := u16At_lt (ext2ReadInode sb d (dInode blkBuf off) stk.fillTheInode).2 0
  have hstarts : StartsWith
      (fun i => ext2FillVfsDentryAt sb d stk ext2Iop mem at_ (recAt blkBuf off) (at_ + i))
      ((dName blkBuf off).takeWhile (· ≠ 0)) := fun i hi => fill_name hname (hi.trans hshort)
  simp only [dentryAt, ext2FillVfsDentry, Dentry.mk.injEq]
  refine ⟨hstarts.cString_eq hnul (by omega), ?_, ?_, ?_, ?_⟩
  · simp only [ext2FillVfsDentryAt, offIMode, offIIno, offISize, offIBlocks]
    rw [u32At_setU32_of_disjoint (by omega), u32At_setU32_of_disjoint (by omega),
      u32At_setU32_of_disjoint (by omega)]
    exact u32At_setU32 _ _ (u32At_lt _ _)
  · simp only [ext2FillVfsDentryAt, offIMode, offIIno, offISize]
    rw [u32At_setU32_of_disjoint (by omega), u32At_setU32_of_disjoint (by omega)]
    exact u32At_setU32 _ _ (u32At_lt _ _)
  · simp only [ext2FillVfsDentryAt, offIMode, offIIno]
    rw [u32At_setU32_of_disjoint (by omega)]
    exact u32At_setU32 _ _ hino
  · simp only [ext2FillVfsDentryAt]
    exact u32At_setU32 _ _ (hmode.trans (by decide))

end Fill

end Ext2
end NochOS
