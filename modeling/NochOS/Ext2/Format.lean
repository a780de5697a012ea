import NochOS.Ext2.Write

/-!
# ext2 - images with given parts

An image can be put together from any four parts, as a formatting tool does: this
module lays them out on the device and shows that the view of the result has
these parts, up to what the metadata cannot hold.  New inodes are built from their
fields.

Main results:

- Theorem `view_format`: the parts of a formatted image.
- Theorem `fields_newInode`: the fields of a new inode.
- Definition `smallGroup`: a geometry for examples.
-/

namespace NochOS
namespace Ext2

open Library

/-! ## Layout -/

/-- The contents of one block of an image with given parts. -/
def formatBlock (g : Geometry) (v : View) (b : Nat) : Buf :=
  if b = 2 then
    setU32 (setU32 (setU32 (fun _ => 0) 0 g.blockBitmap) 4 g.inodeBitmap) 8 g.inodeTable
  else if b = g.blockBitmap then bytesOf (ofBits fun i => v.blockUsed (i + 1))
  else if b = g.inodeBitmap then bytesOf (ofBits fun i => v.inodeUsed (i + 1))
  else if g.inodeTable ≤ b ∧ b < g.inodeTable + (g.sb.sInodesPerGroup + 7) / 8 then
    fun i => v.inode ((b - g.inodeTable) * 8 + i / sizeofInode + 1) (i % sizeofInode)
  else v.data b

/-- The image with given parts. -/
def format (g : Geometry) (v : View) : Disk := fun l => formatBlock g v ((l - ext2SuperLba) / 2)

/-- The parts as far as an image holds them. -/
def View.trim (g : Geometry) (v : View) : View where
  blockUsed b := decide (1 ≤ b ∧ b ≤ bitmapBits) && v.blockUsed b
  inodeUsed ino := decide (1 ≤ ino ∧ ino ≤ bitmapBits) && v.inodeUsed ino
  inode ino := if g.ValidIno ino then inodeBytes (v.inode ino) else fun _ => 0
  data b := if g.IsData b then v.data b else fun _ => 0

variable (g : Geometry) (v : View)

theorem readBlock_format {b : Nat} (hb : b ≤ bitmapBits) :
    ext2ReadBlock (format g v) b = formatBlock g v b := by
  have hplace : (lba b - ext2SuperLba) / 2 = b := by
    unfold bitmapBits at hb
    unfold lba ext2SuperLba
    omega
  rw [ext2ReadBlock, format, hplace]

/-- A formatted image holds the group descriptor of its geometry. -/
theorem onDisk_format : OnDisk g (format g v) := by
  have hlast := g.last
  unfold bitmapBits at hlast
  have htwo : ext2ReadBlock (format g v) 2 =
      setU32 (setU32 (setU32 (fun _ => 0) 0 g.blockBitmap) 4 g.inodeBitmap) 8 g.inodeTable := by
    rw [readBlock_format g v (by decide), formatBlock, if_pos rfl]
  refine ⟨?_, ?_, ?_⟩
  · rw [bgBlockBitmap, htwo, u32At_setU32_of_disjoint (by decide),
      u32At_setU32_of_disjoint (by decide), u32At_setU32 _ _ (by omega)]
  · rw [bgInodeBitmap, htwo, u32At_setU32_of_disjoint (by decide), u32At_setU32 _ _ (by omega)]
  · rw [htwo, u32At_setU32 _ _ (by omega)]

/-- The parts of a formatted image. -/
theorem view_format : view g (format g v) = v.trim g := by
  have hlast := g.last
  have hfirst := g.first
  ext x i
  · simp only [view, View.trim]
    rw [readBlock_format g v hlast.1, formatBlock, if_neg (by omega), if_pos rfl, wordsOf_bytesOf,
      bitAt_ofBits]
    by_cases hx : 1 ≤ x ∧ x ≤ bitmapBits
    · rw [Nat.sub_add_cancel hx.1]
    · rw [decide_eq_false hx, Bool.false_and, Bool.false_and]
  · simp only [view, View.trim]
    rw [readBlock_format g v hlast.2.1, formatBlock, if_neg (by omega),
      if_neg g.bitmaps.symm, if_pos rfl, wordsOf_bytesOf, bitAt_ofBits]
    by_cases hx : 1 ≤ x ∧ x ≤ bitmapBits
    · rw [Nat.sub_add_cancel hx.1]
    · rw [decide_eq_false hx, Bool.false_and, Bool.false_and]
  · simp only [view, View.trim]
    by_cases hx : g.ValidIno x
    · obtain ⟨hbb, hib⟩ := inodeBlock_ne_bitmaps hx
      have htable : g.inodeTable ≤ g.inodeBlock x ∧
          g.inodeBlock x < g.inodeTable + (g.sb.sInodesPerGroup + 7) / 8 := by
        unfold Geometry.ValidIno at hx
        unfold Geometry.inodeBlock
        omega
      rw [if_pos hx, if_pos hx, readBlock_format g v (inodeBlock_le hx), formatBlock,
        if_neg inodeBlock_ne_two, if_neg hbb, if_neg hib, if_pos htable]
      by_cases hi : i < sizeofInode
      · -- the inode is found at its own place
        have hino : (g.inodeBlock x - g.inodeTable) * 8 + (inodeOff x + i) / sizeofInode + 1 =
            x := by
          unfold Geometry.ValidIno at hx
          unfold Geometry.inodeBlock inodeOff sizeofInode
          unfold sizeofInode at hi
          omega
        have hbyte : (inodeOff x + i) % sizeofInode = i := by
          unfold inodeOff sizeofInode
          unfold sizeofInode at hi
          omega
        simp only [inodeBytes, if_pos hi, hino, hbyte]
      · simp only [inodeBytes, if_neg hi]
    · rw [if_neg hx, if_neg hx]
  · simp only [view, View.trim]
    by_cases hx : g.IsData x
    · have hmeta := hx.2
      unfold Geometry.Meta at hmeta
      rw [if_pos hx, if_pos hx, readBlock_format g v hx.1, formatBlock, if_neg (by omega),
        if_neg (by omega), if_neg (by omega), if_neg (by omega)]
    · rw [if_neg hx, if_neg hx]

/-! ## Inodes -/

/-- The fields of an inode lie in the bytes of the structure. -/
theorem fields_inodeBytes (b : Buf) :
    iMode (inodeBytes b) = iMode b ∧ iSize (inodeBytes b) = iSize b ∧
      iBlocks (inodeBytes b) = iBlocks b ∧
      ∀ k < 15, iBlock (inodeBytes b) k = iBlock b k := by
  have hin : ∀ i < 100, inodeBytes b i = b i := fun i hi =>
    if_pos (hi.trans (by decide))
  refine ⟨?_, ?_, ?_, ?_⟩
  · exact u16At_congr fun i hi => hin _ (by omega)
  · exact u32At_congr fun i hi => hin _ (by omega)
  · exact u32At_congr fun i hi => hin _ (by omega)
  · intro k hk
    exact u32At_congr fun i hi => hin _ (by omega)

/-- An inode with given mode, size and blocks. -/
def newInode (mode fsize : Nat) (bs : List Nat) : Buf :=
  putBlocks (setIBlocks (setISize (setIMode (fun _ => 0) mode) fsize) bs.length) 0 bs

/-- The fields of a new inode. -/
theorem fields_newInode {mode fsize : Nat} {bs : List Nat} (hmode : mode < 2 ^ 16)
    (hfsize : fsize < 2 ^ 32) (hlen : bs.length < 2 ^ 32) (hbs : ∀ b ∈ bs, b < 2 ^ 32) :
    iMode (newInode mode fsize bs) = mode ∧ iSize (newInode mode fsize bs) = fsize ∧
      iBlocks (newInode mode fsize bs) = bs.length ∧
      ∀ k, iBlock (newInode mode fsize bs) k = bs.getD k 0 := by
  have hbefore : ∀ i < 40, newInode mode fsize bs i =
      setIBlocks (setISize (setIMode (fun _ => 0) mode) fsize) bs.length i := fun i hi =>
    putBlocks_outside bs _ _ (by omega)
  refine ⟨?_, ?_, ?_, ?_⟩
  · have hcongr : iMode (newInode mode fsize bs) = iMode (setIMode (fun _ => 0) mode) := by
      apply u16At_congr
      intro i hi
      rw [hbefore _ (by omega), setIBlocks, setU32_outside (by omega), setISize,
        setU32_outside (by omega)]
    rw [hcongr]
    exact u16At_setU16 _ 0 hmode
  · have hcongr : iSize (newInode mode fsize bs) =
        iSize (setIBlocks (setISize (setIMode (fun _ => 0) mode) fsize) bs.length) :=
      u32At_congr fun i hi => hbefore _ (by omega)
    rw [hcongr, iSize, setIBlocks, u32At_setU32_of_disjoint (by omega)]
    exact u32At_setU32 _ 4 hfsize
  · have hcongr : iBlocks (newInode mode fsize bs) =
        iBlocks (setIBlocks (setISize (setIMode (fun _ => 0) mode) fsize) bs.length) :=
      u32At_congr fun i hi => hbefore _ (by omega)
    rw [hcongr]
    exact u32At_setU32 _ 28 hlen
  · intro k
    rw [newInode, iBlock_putBlocks bs _ _ hbs]
    by_cases hk : k < bs.length
    · rw [dif_pos (by omega)]
      simp [List.getD_eq_getElem?_getD, hk]
    · rw [dif_neg (by omega), List.getD_eq_default _ _ (by omega)]
      rw [iBlock, u32At_eq_zero_iff]
      intro i hi
      rw [setIBlocks, setU32_outside (by omega), setISize, setU32_outside (by omega), setIMode,
        setU16_outside (by omega)]

/-- The fields of a new inode in a formatted image. -/
theorem View.fields_trim {ino mode fsize : Nat} {bs : List Nat} (hino : g.ValidIno ino)
    (hinode : v.inode ino = newInode mode fsize bs) (hmode : mode < 2 ^ 16)
    (hfsize : fsize < 2 ^ 32) (hlen : bs.length < 2 ^ 32) (hbs : ∀ b ∈ bs, b < 2 ^ 32) :
    iMode ((v.trim g).inode ino) = mode ∧ iSize ((v.trim g).inode ino) = fsize ∧
      iBlocks ((v.trim g).inode ino) = bs.length ∧
      ∀ k < 15, iBlock ((v.trim g).inode ino) k = bs.getD k 0 := by
  obtain ⟨hm, hs, hb, hk⟩ := fields_inodeBytes (newInode mode fsize bs)
  obtain ⟨hm', hs', hb', hk'⟩ := fields_newInode hmode hfsize hlen hbs
  have htrim : (v.trim g).inode ino = inodeBytes (newInode mode fsize bs) := by
    simp only [View.trim, if_pos hino, hinode]
  rw [htrim]
  exact ⟨hm.trans hm', hs.trans hs', hb.trans hb', fun k hlt => (hk k hlt).trans (hk' k)⟩

/-- A small group: 16 inodes, the bitmaps in blocks 3 and 4, the inode table in
blocks 5 and 6. -/
def smallGroup : Geometry where
  sb := ⟨8192, 16, 128⟩
  blockBitmap := 3
  inodeBitmap := 4
  inodeTable := 5
  inodeSize := rfl
  inodes := by decide
  first := by decide
  bitmaps := by decide
  apart := by
    intro b hlo hhi
    omega
  last := by decide

theorem smallGroup_isData {b : Nat} (hlo : 7 ≤ b) (hhi : b ≤ bitmapBits) : smallGroup.IsData b := by
  refine ⟨hhi, ?_⟩
  have htable : (smallGroup.sb.sInodesPerGroup + 7) / 8 = 2 := rfl
  unfold Geometry.Meta
  rw [htable]
  simp only [smallGroup]
  omega

theorem smallGroup_meta {b : Nat} (h : smallGroup.Meta b) : b ≤ 6 := by
  have htable : (smallGroup.sb.sInodesPerGroup + 7) / 8 = 2 := rfl
  unfold Geometry.Meta at h
  rw [htable] at h
  simp only [smallGroup] at h
  omega

/-- In a small group the metadata lies in the first six blocks. -/
theorem metaUsed_smallGroup {v : View} (h : ∀ b ≤ 6, v.blockUsed b = true) :
    MetaUsed smallGroup (v.trim smallGroup) := by
  intro b hb hm
  have hle := smallGroup_meta hm
  have hbits : b ≤ bitmapBits := hle.trans (by decide)
  simp [View.trim, hb, hbits, h b hle]

end Ext2
end NochOS
