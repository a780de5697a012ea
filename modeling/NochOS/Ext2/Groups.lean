import NochOS.Ext2.View

/-!
# ext2 - inodes of several block groups

A file system of several groups has an inode bitmap and an inode table in each of them,
and the descriptors of all groups stand one behind the other in a table of which every
group keeps a copy.  `ext2_access_inode` takes the first descriptor of the copy in the
inode's group, which is the one of the first group, and steps over inodes of 128
bytes within a block whatever their size is.

Main results:

- Structure `Layout`: a geometry of any number of groups and any inode size.
- Theorem `right_iff`: the inodes that are transferred at their place.
- Theorem `inodes_apart`: those inodes do not disturb each other.
- Theorem `addressing_iff`: both together.
- Theorem `inode_shared`: an inode of the second group that overwrites one of the first.
-/

namespace NochOS
namespace Ext2

open Library Bitmap

/-! ## Geometries -/

/-- A geometry with blocks of 1 KiB: the groups with their inode bitmaps and inode
tables, which are apart from each other and from the copies of the descriptor table, on
a device whose sectors have 32-bit numbers. -/
structure Layout where
  sb : Super
  sBlocks : Nat
  groups : Nat
  inodeBitmap : Nat → Nat
  inodeTable : Nat → Nat
  size : ∃ k, sb.sInodeSize = 2 ^ k ∧ sizeofInode ≤ 2 ^ k ∧ 2 ^ k ≤ blocksize
  inodes : 1 ≤ sb.sInodesPerGroup ∧ sb.sInodesPerGroup ≤ bitmapBits
  device : sBlocks ≤ 2 ^ 31
  descs : ∀ g < groups, sb.sBlocksPerGroup * g + 2 < sBlocks
  bitmaps : ∀ g < groups, inodeBitmap g < sBlocks
  tables : ∀ g < groups, ∀ i < sb.sInodesPerGroup,
    inodeTable g + i * sb.sInodeSize / blocksize < sBlocks
  tablesApart : ∀ g < groups, ∀ h < groups, g ≠ h → ∀ i < sb.sInodesPerGroup,
    ∀ j < sb.sInodesPerGroup, inodeTable g + i * sb.sInodeSize / blocksize ≠
      inodeTable h + j * sb.sInodeSize / blocksize
  apart : ∀ g < groups, ∀ h < groups, ∀ i < sb.sInodesPerGroup,
    inodeTable g + i * sb.sInodeSize / blocksize ≠ inodeBitmap h ∧
      inodeTable g + i * sb.sInodeSize / blocksize ≠ sb.sBlocksPerGroup * h + 2

namespace Layout

variable (L : Layout)

/-- The group of an inode. -/
def group (ino : Nat) : Nat := (ino - 1) / L.sb.sInodesPerGroup

/-- The index of an inode in the table of its group. -/
def index (ino : Nat) : Nat := (ino - 1) % L.sb.sInodesPerGroup

/-- The block that holds an inode. -/
def block (ino : Nat) : Nat :=
  L.inodeTable (L.group ino) + L.index ino * L.sb.sInodeSize / blocksize

/-- The offset of an inode in its block. -/
def offset (ino : Nat) : Nat := L.index ino * L.sb.sInodeSize % blocksize

/-- An inode number of the file system: `1` to `s_inodes`. -/
def ValidIno (ino : Nat) : Prop := 1 ≤ ino ∧ ino ≤ L.groups * L.sb.sInodesPerGroup

/-- The device holds the descriptors, in the table of the first group and in a copy of
it in each group. -/
structure OnDisk (d : Disk) : Prop where
  bitmap : ∀ g < L.groups,
    u32At (ext2ReadBlock d (2 + g / 32)) (g % 32 * 32 + 4) = L.inodeBitmap g
  table : ∀ g < L.groups,
    u32At (ext2ReadBlock d (2 + g / 32)) (g % 32 * 32 + 8) = L.inodeTable g
  copies : ∀ g < L.groups, ∀ i < blocksize,
    ext2ReadBlock d (L.sb.sBlocksPerGroup * g + 2) i = ext2ReadBlock d 2 i

/-- The bitmap of its group has the inode in use. -/
def Used (d : Disk) (ino : Nat) : Prop :=
  L.ValidIno ino ∧
    bitAt (wordsOf (ext2ReadBlock d (L.inodeBitmap (L.group ino)))) (L.index ino) = true

/-- The source reads and writes an inode at its place. -/
def Right (d : Disk) (ino : Nat) : Prop :=
  (∀ inode, ext2ReadInode L.sb d ino inode =
      (0, ext2ReadBlockBytes d (L.block ino) (fun _ => 0) 0 (L.offset ino) sizeofInode)) ∧
    ∀ inode, ext2WriteInode L.sb d ino inode =
      (0, ext2WriteBlockBytes d (L.block ino) inode 0 (L.offset ino) sizeofInode)

/-- An inode of the first group, and of 128 bytes or at the start of its block. -/
def Supported (ino : Nat) : Prop :=
  L.group ino = 0 ∧
    (L.sb.sInodeSize = sizeofInode ∨ L.index ino % (blocksize / L.sb.sInodeSize) = 0)

end Layout

/-! ## The place of an inode -/

section Place

variable {L : Layout} {d : Disk} {ino : Nat}

theorem Layout.index_lt (L : Layout) (ino : Nat) : L.index ino < L.sb.sInodesPerGroup :=
  Nat.mod_lt _ L.inodes.1

theorem Layout.ValidIno.group_lt (h : L.ValidIno ino) : L.group ino < L.groups := by
  have hpos := L.inodes.1
  unfold Layout.group
  rw [Nat.div_lt_iff_lt_mul hpos]
  have hle := h.2
  have hlo := h.1
  omega

/-- A number is its group and its index in it. -/
theorem Layout.ValidIno.eq (h : L.ValidIno ino) :
    ino = L.sb.sInodesPerGroup * L.group ino + L.index ino + 1 := by
  have hsplit := Nat.div_add_mod (ino - 1) L.sb.sInodesPerGroup
  have hlo := h.1
  unfold Layout.group Layout.index
  omega

/-- The inode sizes divide a block. -/
theorem Layout.size_cases (L : Layout) :
    L.sb.sInodeSize = 128 ∨ L.sb.sInodeSize = 256 ∨ L.sb.sInodeSize = 512 ∨
      L.sb.sInodeSize = 1024 := by
  obtain ⟨k, hk, hlo, hhi⟩ := L.size
  unfold sizeofInode at hlo
  unfold blocksize at hhi
  rw [hk]
  have h7 : 7 ≤ k := (Nat.pow_le_pow_iff_right (by decide)).mp (show 2 ^ 7 ≤ 2 ^ k from hlo)
  have h10 : k ≤ 10 := (Nat.pow_le_pow_iff_right (by decide)).mp (show 2 ^ k ≤ 2 ^ 10 from hhi)
  rcases (show k = 7 ∨ k = 8 ∨ k = 9 ∨ k = 10 by omega) with rfl | rfl | rfl | rfl
  · exact Or.inl rfl
  · exact Or.inr (Or.inl rfl)
  · exact Or.inr (Or.inr (Or.inl rfl))
  · exact Or.inr (Or.inr (Or.inr rfl))

/-- The block and the index in it, as the source divides. -/
theorem Layout.divide (L : Layout) (i : Nat) :
    i * L.sb.sInodeSize / blocksize = i / (blocksize / L.sb.sInodeSize) ∧
      i * L.sb.sInodeSize % blocksize =
        i % (blocksize / L.sb.sInodeSize) * L.sb.sInodeSize := by
  unfold blocksize
  rcases L.size_cases with h | h | h | h
  · rw [h]
    omega
  · rw [h]
    omega
  · rw [h]
    omega
  · rw [h]
    omega

/-- The source takes the inode table of the first group, and steps over 128 bytes. -/
theorem Layout.inodePlace_eq (hd : L.OnDisk d) (h : L.ValidIno ino) :
    inodePlace L.sb d ino =
      (L.inodeTable 0 + L.index ino * L.sb.sInodeSize / blocksize,
        L.index ino % (blocksize / L.sb.sInodeSize) * sizeofInode) := by
  have hgroup := h.group_lt
  have hzero : 0 < L.groups := Nat.zero_lt_of_lt hgroup
  have hdesc := L.descs _ hgroup
  have htable := L.tables 0 hzero _ (L.index_lt ino)
  have hdevice := L.device
  have hblock : (L.sb.sBlocksPerGroup * L.group ino + 2) % 2 ^ 32 =
      L.sb.sBlocksPerGroup * L.group ino + 2 := Nat.mod_eq_of_lt (by omega)
  have hfirst : u32At (ext2ReadBlock d (L.sb.sBlocksPerGroup * L.group ino + 2)) 8 =
      L.inodeTable 0 := by
    rw [← hd.table 0 hzero]
    apply u32At_congr
    intro i hi
    exact hd.copies _ hgroup _ (by unfold blocksize; omega)
  have hgroup' : (ino - 1) / L.sb.sInodesPerGroup = L.group ino := rfl
  have hindex' : (ino - 1) % L.sb.sInodesPerGroup = L.index ino := rfl
  simp only [inodePlace, hgroup', hindex', hblock, hfirst, ← (L.divide (L.index ino)).1]
  rw [Nat.add_comm, Nat.mod_eq_of_lt (by omega)]

/-- The source looks an inode up in the bitmap of the first group. -/
theorem Layout.inoExist_eq (hd : L.OnDisk d) (hgroup : L.group ino = 0) (h : L.Used d ino) :
    inoExist d ino = 1 := by
  have hvalid := h.1
  have hzero : 0 < L.groups := hgroup ▸ hvalid.group_lt
  have heq := hvalid.eq
  rw [hgroup, Nat.mul_zero, Nat.zero_add] at heq
  have hlt := L.index_lt ino
  have hbits := L.inodes.2
  unfold bitmapBits at hbits
  have hbit : bitOf ino = L.index ino := by
    unfold bitOf
    omega
  have hmap : bgInodeBitmap d = L.inodeBitmap 0 := hd.bitmap 0 hzero
  have hused := h.2
  rw [hgroup] at hused
  rw [inoExist, if_neg (by omega), hmap, bitmapQueryBit_eq, hbit, if_pos hused]

/-- Blocks of the device have different addresses. -/
theorem lba_inj_of_lt {a b : Nat} (ha : a < 2 ^ 31) (hb : b < 2 ^ 31) (h : lba a = lba b) :
    a = b := by
  unfold lba ext2SuperLba at h
  omega

/-- A byte of the device after bytes of a block were written. -/
theorem writeBlockBytes_apply (d : Disk) {blk blk' : Nat} (hblk : blk < 2 ^ 31)
    (hblk' : blk' < 2 ^ 31) (buf : Buf) (off n i : Nat) :
    ext2ReadBlock (ext2WriteBlockBytes d blk buf 0 off n) blk' i =
      if blk' = blk ∧ off ≤ i ∧ i < off + n then buf (i - off) else ext2ReadBlock d blk' i := by
  unfold ext2WriteBlockBytes ext2WriteBlock
  by_cases hsame : blk' = blk
  · subst hsame
    rw [ext2ReadBlock, Function.update_self, memcpy_apply]
    by_cases hin : off ≤ i ∧ i < off + n
    · rw [if_pos hin, if_pos ⟨rfl, hin⟩, Nat.zero_add]
    · rw [if_neg hin, if_neg fun h => hin h.2]
  · have hne : lba blk' ≠ lba blk := fun heq => hsame (lba_inj_of_lt hblk' hblk heq)
    rw [ext2ReadBlock, Function.update_of_ne hne, if_neg fun h => hsame h.1, ext2ReadBlock]

/-- The source computes the place of a supported inode. -/
theorem Layout.Supported.place (hs : L.Supported ino) (hd : L.OnDisk d) (h : L.ValidIno ino) :
    inodePlace L.sb d ino = (L.block ino, L.offset ino) := by
  obtain ⟨hgroup, hsize⟩ := hs
  have hoffset : L.index ino % (blocksize / L.sb.sInodeSize) * sizeofInode = L.offset ino := by
    unfold Layout.offset
    rw [(L.divide _).2]
    rcases hsize with hsize | hsize
    · rw [hsize]
    · rw [hsize, Nat.zero_mul, Nat.zero_mul]
  rw [L.inodePlace_eq hd h, hoffset, Layout.block, hgroup]

/-- A supported inode is transferred at its place. -/
theorem Layout.Supported.right (hs : L.Supported ino) (hd : L.OnDisk d) (h : L.Used d ino) :
    L.Right d ino := by
  have hexist : ¬ inoExist d ino ≠ 1 := by
    rw [L.inoExist_eq hd hs.1 h]
    simp
  constructor
  · intro inode
    rw [ext2ReadInode, if_neg hexist, hs.place hd h.1]
  · intro inode
    rw [ext2WriteInode, if_neg hexist, hs.place hd h.1]

/-- An inode that is transferred at its place is supported. -/
theorem Layout.Right.supported (hr : L.Right d ino) (hd : L.OnDisk d) (h : L.ValidIno ino) :
    L.Supported ino := by
  have hgroup := h.group_lt
  have hzero : 0 < L.groups := Nat.zero_lt_of_lt hgroup
  have hindex := L.index_lt ino
  have hdevice := L.device
  have hblock := L.tables _ hgroup _ hindex
  have htable := L.tables 0 hzero _ hindex
  -- an inode whose first byte is not the one at its place
  obtain ⟨inode, hinode⟩ : ∃ inode : Buf, inode 0 ≠ ext2ReadBlock d (L.block ino) (L.offset ino) :=
    ⟨fun _ => ext2ReadBlock d (L.block ino) (L.offset ino) + 1, by simp⟩
  have hwrite := congrArg (fun r => ext2ReadBlock r.2 (L.block ino) (L.offset ino)) (hr.2 inode)
  have hlt : L.block ino < 2 ^ 31 := by
    unfold Layout.block
    omega
  have hnew : ext2ReadBlock (ext2WriteBlockBytes d (L.block ino) inode 0 (L.offset ino)
      sizeofInode) (L.block ino) (L.offset ino) = inode 0 := by
    rw [writeBlockBytes_apply d hlt hlt, if_pos ⟨rfl, le_rfl, by unfold sizeofInode; omega⟩,
      Nat.sub_self]
  simp only [hnew, ext2WriteInode] at hwrite
  by_cases hexist : inoExist d ino ≠ 1
  · rw [if_pos hexist] at hwrite
    exact absurd hwrite.symm hinode
  · rw [if_neg hexist, L.inodePlace_eq hd h] at hwrite
    dsimp only at hwrite
    rw [writeBlockBytes_apply d (by omega) hlt] at hwrite
    -- the byte at the place was written, so that the places have it in common
    by_cases hin : L.block ino = L.inodeTable 0 + L.index ino * L.sb.sInodeSize / blocksize ∧
        L.index ino % (blocksize / L.sb.sInodeSize) * sizeofInode ≤ L.offset ino ∧
        L.offset ino < L.index ino % (blocksize / L.sb.sInodeSize) * sizeofInode + sizeofInode
    · obtain ⟨hsame, -, hbefore⟩ := hin
      have hfirst : L.group ino = 0 := by
        by_contra hne
        exact L.tablesApart _ hgroup 0 hzero hne _ hindex _ hindex hsame
      refine ⟨hfirst, ?_⟩
      unfold Layout.offset at hbefore
      rw [(L.divide _).2] at hbefore
      unfold sizeofInode at hbefore ⊢
      rcases L.size_cases with hsize | hsize | hsize | hsize
      · exact Or.inl hsize
      · rw [hsize] at hbefore ⊢
        exact Or.inr (by omega)
      · rw [hsize] at hbefore ⊢
        exact Or.inr (by omega)
      · rw [hsize] at hbefore ⊢
        exact Or.inr (by omega)
    · rw [if_neg hin] at hwrite
      exact absurd hwrite.symm hinode

/-- The inodes that the source transfers at their place are the supported ones. -/
theorem right_iff (hd : L.OnDisk d) (h : L.Used d ino) : L.Right d ino ↔ L.Supported ino :=
  ⟨fun hr => hr.supported hd h.1, fun hs => hs.right hd h⟩

end Place

/-! ## Different inodes -/

section Apart

variable {L : Layout} {d : Disk} {a b : Nat}

/-- Different numbers have different places. -/
theorem Layout.places_apart (ha : L.ValidIno a) (hb : L.ValidIno b) (hne : a ≠ b) {i j : Nat}
    (hi : i < sizeofInode) (hj : j < sizeofInode) :
    ¬ (L.block a = L.block b ∧ L.offset a + i = L.offset b + j) := by
  rintro ⟨hblock, hoff⟩
  by_cases hgroup : L.group a = L.group b
  · have hindex : L.index a ≠ L.index b := by
      intro heq
      apply hne
      rw [ha.eq, hb.eq, hgroup, heq]
    unfold Layout.block at hblock
    unfold Layout.offset at hoff
    rw [hgroup, (L.divide _).1, (L.divide _).1] at hblock
    rw [(L.divide _).2, (L.divide _).2] at hoff
    unfold sizeofInode at hi hj
    unfold blocksize at hblock hoff
    rcases L.size_cases with h | h | h | h
    · rw [h] at hblock hoff
      omega
    · rw [h] at hblock hoff
      omega
    · rw [h] at hblock hoff
      omega
    · rw [h] at hblock hoff
      omega
  · exact L.tablesApart _ ha.group_lt _ hb.group_lt hgroup _ (L.index_lt a) _ (L.index_lt b) hblock

/-- A write to an inode leaves the descriptors and the bitmaps. -/
theorem Layout.write_outside (ha : L.ValidIno a) (inode : Buf) {h : Nat} (hh : h < L.groups)
    {blk : Nat} (hblk : blk = L.inodeBitmap h ∨ blk = L.sb.sBlocksPerGroup * h + 2) :
    ext2ReadBlock (ext2WriteBlockBytes d (L.block a) inode 0 (L.offset a) sizeofInode) blk =
      ext2ReadBlock d blk := by
  have hdevice := L.device
  have hindex := L.index_lt a
  have hat : L.block a < L.sBlocks := L.tables _ ha.group_lt _ hindex
  have hapart := L.apart _ ha.group_lt _ hh _ hindex
  have hne : blk ≠ L.block a ∧ blk < L.sBlocks := by
    rcases hblk with rfl | rfl
    · exact ⟨hapart.1.symm, L.bitmaps _ hh⟩
    · exact ⟨hapart.2.symm, L.descs _ hh⟩
  ext i
  rw [writeBlockBytes_apply d (by omega) (by omega), if_neg fun h => hne.1 h.1]

/-- Supported inodes do not disturb each other: they share no byte, and writing one does
not change what is read of the other. -/
theorem inodes_apart (hd : L.OnDisk d) (ha : L.Used d a) (hb : L.Used d b)
    (hsa : L.Supported a) (hsb : L.Supported b) (hne : a ≠ b) :
    (∀ i < sizeofInode, ∀ j < sizeofInode,
        ¬ ((inodePlace L.sb d a).1 = (inodePlace L.sb d b).1 ∧
          (inodePlace L.sb d a).2 + i = (inodePlace L.sb d b).2 + j)) ∧
      ∀ inode buf, ext2ReadInode L.sb (ext2WriteInode L.sb d a inode).2 b buf =
        ext2ReadInode L.sb d b buf := by
  have hdevice := L.device
  have hzero : 0 < L.groups := Nat.zero_lt_of_lt ha.1.group_lt
  have hata : L.block a < L.sBlocks := L.tables _ ha.1.group_lt _ (L.index_lt a)
  have hatb : L.block b < L.sBlocks := L.tables _ hb.1.group_lt _ (L.index_lt b)
  constructor
  · intro i hi j hj
    rw [hsa.place hd ha.1, hsb.place hd hb.1]
    exact L.places_apart ha.1 hb.1 hne hi hj
  · intro inode buf
    rw [(hsa.right hd ha).2 inode]
    have hdesc : ext2ReadBlock (ext2WriteBlockBytes d (L.block a) inode 0 (L.offset a)
        sizeofInode) 2 = ext2ReadBlock d 2 :=
      L.write_outside ha.1 inode hzero (Or.inr (by rw [Nat.mul_zero]))
    have hmap : ext2ReadBlock (ext2WriteBlockBytes d (L.block a) inode 0 (L.offset a)
        sizeofInode) (L.inodeBitmap 0) = ext2ReadBlock d (L.inodeBitmap 0) :=
      L.write_outside ha.1 inode hzero (Or.inl rfl)
    have hbitmap : bgInodeBitmap d = L.inodeBitmap 0 := hd.bitmap 0 hzero
    have hexist : inoExist (ext2WriteBlockBytes d (L.block a) inode 0 (L.offset a)
        sizeofInode) b = inoExist d b := by
      simp only [inoExist, bgInodeBitmap, hdesc]
      rw [← bgInodeBitmap, hbitmap, hmap]
    have hplace : inodePlace L.sb (ext2WriteBlockBytes d (L.block a) inode 0 (L.offset a)
        sizeofInode) b = (L.block b, L.offset b) := by
      rw [← hsb.place hd hb.1]
      have hgroup : (b - 1) / L.sb.sInodesPerGroup = 0 := hsb.1
      simp only [inodePlace, hgroup, Nat.mul_zero, Nat.zero_add,
        Nat.mod_eq_of_lt (show 2 < 2 ^ 32 by decide), hdesc]
    simp only [ext2ReadInode, hexist, hplace, hsb.place hd hb.1]
    congr 2
    ext i
    rw [ext2ReadBlockBytes, ext2ReadBlockBytes, memcpy_apply, memcpy_apply]
    by_cases hi : 0 ≤ i ∧ i < 0 + sizeofInode
    · rw [if_pos hi, if_pos hi, writeBlockBytes_apply d (by omega) (by omega), if_neg]
      rintro ⟨hblock, hlo, hhi⟩
      have hshared := L.places_apart ha.1 hb.1 hne (i := L.offset b + (i - 0) - L.offset a)
        (j := i) (by omega) (by omega)
      exact hshared ⟨hblock.symm, by omega⟩
    · rw [if_neg hi, if_neg hi]

/-- What the code does right: an inode is transferred at its place when, and only when, it
is supported, and supported inodes do not disturb each other. -/
theorem addressing_iff (L : Layout) (d : Disk) (hd : L.OnDisk d) :
    (∀ ino, L.Used d ino → (L.Right d ino ↔ L.Supported ino)) ∧
      ∀ a b, L.Used d a → L.Used d b → L.Supported a → L.Supported b → a ≠ b →
        (∀ i < sizeofInode, ∀ j < sizeofInode,
          ¬ ((inodePlace L.sb d a).1 = (inodePlace L.sb d b).1 ∧
            (inodePlace L.sb d a).2 + i = (inodePlace L.sb d b).2 + j)) ∧
        ∀ inode buf, ext2ReadInode L.sb (ext2WriteInode L.sb d a inode).2 b buf =
          ext2ReadInode L.sb d b buf :=
  ⟨fun _ h => right_iff hd h, fun _ _ ha hb hsa hsb hne => inodes_apart hd ha hb hsa hsb hne⟩

end Apart

/-! ## Two groups -/

/-- Two groups of 16 inodes of 128 bytes. -/
def twoGroups : Layout where
  sb := ⟨8192, 16, 128⟩
  sBlocks := 16384
  groups := 2
  inodeBitmap g := 8192 * g + 4
  inodeTable g := 8192 * g + 5
  size := ⟨7, rfl, by decide, by decide⟩
  inodes := by decide
  device := by decide
  descs := by decide
  bitmaps := by decide
  tables := by decide
  tablesApart := by decide
  apart := by decide

/-- Their descriptor table. -/
def twoGroupsDescs : Buf :=
  setU32 (setU32 (setU32 (setU32 (fun _ => 0) 4 4) 8 5) 36 8196) 40 8197

/-- A device with the descriptor table and its copy, and ones everywhere else. -/
def twoGroupsDisk : Disk := fun l =>
  if l = lba 2 ∨ l = lba 8194 then twoGroupsDescs else fun _ => 0xFF

theorem onDisk_twoGroupsDisk : twoGroups.OnDisk twoGroupsDisk where
  bitmap := by decide
  table := by decide
  copies := by
    intro g hg i hi
    have hcases : g = 0 ∨ g = 1 := by
      have hlt : g < 2 := hg
      omega
    rcases hcases with rfl | rfl
    · rfl
    · rfl

theorem used_twoGroupsDisk {ino : Nat} (hlo : 1 ≤ ino) (hhi : ino ≤ 32) :
    twoGroups.Used twoGroupsDisk ino := by
  have hbits : ∀ n < 33, bitAt (wordsOf (ext2ReadBlock twoGroupsDisk
      (twoGroups.inodeBitmap (twoGroups.group n)))) (twoGroups.index n) = true := by
    decide +kernel
  exact ⟨⟨hlo, hhi⟩, hbits ino (by omega)⟩

/-- Inode 17, the first of the second group, is not at its place: writing it changes
inode 1. -/
theorem inode_shared :
    twoGroups.OnDisk twoGroupsDisk ∧ twoGroups.Used twoGroupsDisk 1 ∧
      twoGroups.Used twoGroupsDisk 17 ∧ ¬ twoGroups.Right twoGroupsDisk 17 ∧
      ext2ReadInode twoGroups.sb (ext2WriteInode twoGroups.sb twoGroupsDisk 17 fun _ => 0).2 1
          (fun _ => 0) ≠
        ext2ReadInode twoGroups.sb twoGroupsDisk 1 (fun _ => 0) := by
  have hone : twoGroups.Used twoGroupsDisk 1 := used_twoGroupsDisk (by decide) (by decide)
  have hused : twoGroups.Used twoGroupsDisk 17 := used_twoGroupsDisk (by decide) (by decide)
  refine ⟨onDisk_twoGroupsDisk, hone, hused, ?_, ?_⟩
  · rw [right_iff onDisk_twoGroupsDisk hused]
    intro hs
    exact absurd hs.1 (by decide)
  · intro h
    have hbyte := congrArg (fun r => r.2 0) h
    revert hbyte
    decide +kernel

/-- The first two inodes do not disturb each other. -/
theorem addressing_iff_twoGroups :
    (twoGroups.Right twoGroupsDisk 1 ↔ twoGroups.Supported 1) ∧
      ∀ inode buf,
        ext2ReadInode twoGroups.sb (ext2WriteInode twoGroups.sb twoGroupsDisk 1 inode).2 2 buf =
          ext2ReadInode twoGroups.sb twoGroupsDisk 2 buf := by
  have h := addressing_iff twoGroups twoGroupsDisk onDisk_twoGroupsDisk
  have hone : twoGroups.Used twoGroupsDisk 1 := used_twoGroupsDisk (by decide) (by decide)
  have htwo : twoGroups.Used twoGroupsDisk 2 := used_twoGroupsDisk (by decide) (by decide)
  exact ⟨h.1 1 hone, (h.2 1 2 hone htwo ⟨by decide, Or.inl rfl⟩ ⟨by decide, Or.inl rfl⟩
    (by decide)).2⟩

end Ext2
end NochOS
