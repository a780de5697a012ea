import NochOS.Ext2.References

/-!
# ext2 - making directories

`imkdir` creates an entry, gives the new inode one block and writes the records of
the directory itself and of its parent there.  The rest of the block holds bytes of
local variables.

Main results:

- Theorem `furnish_spec`: the image after the part of `imkdir` behind the creation.
- Theorem `imkdir_furnishes`: the image after `imkdir`.
- Theorem `imkdir_spec`: the same where the rest of the new block is unused.
-/

namespace NochOS
namespace Ext2

open Library

/-! ## The block of a new directory -/

/-- The contents of the block. -/
def newDirBlock (stk : Stack) (n parent : Nat) : Buf :=
  memcpy (putRecord stk.mkdirThisDir 0 n 12 ext2FtDir dot) 12
    (putRecord stk.mkdirParentDir 0 parent 12 ext2FtDir dotDot) 0 12

/-- The local variable, which is written out with the bytes it happens to hold, has a zero
where a third record would have its file type.  The walks take the block to end there. -/
def UnusedRest (stk : Stack) : Prop := dFileType stk.mkdirThisDir 24 = 0

/-- The records of a new directory are proper. -/
theorem dot_ok (n : Nat) :
    Rec.Ok ⟨n, 12, ext2FtDir, dot⟩ ∧ Rec.Ok ⟨n, 12, ext2FtDir, dotDot⟩ := by
  constructor
  · exact ⟨by norm_num [ext2FtDir], by simp [dot], by simp [dot], by simp [dot, padded]⟩
  · exact ⟨by norm_num [ext2FtDir], by simp [dotDot], by simp [dotDot], by simp [dotDot, padded]⟩

/-- Behind the two records the block holds what the local variable held. -/
theorem newDirBlock_rest (stk : Stack) (n parent : Nat) {i : Nat} (hi : 24 ≤ i) :
    newDirBlock stk n parent i = stk.mkdirThisDir i := by
  rw [newDirBlock, memcpy_outside (by omega), putRecord_outside (by
    simp only [dot, List.length_singleton]
    omega)]

/-- The records of the directory and its parent tile the start of the block. -/
theorem tiles_dots (stk : Stack) {n parent : Nat} (hn : n < 2 ^ 32) (hparent : parent < 2 ^ 32) :
    Tiles (newDirBlock stk n parent) 0 [⟨n, 12, ext2FtDir, dot⟩, ⟨parent, 12, ext2FtDir, dotDot⟩]
      24 := by
  have hput : recAt (putRecord stk.mkdirThisDir 0 n 12 ext2FtDir dot) 0 =
      ⟨n, 12, ext2FtDir, dot⟩ := recAt_putRecord _ 0 hn (by decide) (by decide) (by decide)
  have hput' : recAt (putRecord stk.mkdirParentDir 0 parent 12 ext2FtDir dotDot) 0 =
      ⟨parent, 12, ext2FtDir, dotDot⟩ :=
    recAt_putRecord _ 0 hparent (by decide) (by decide) (by decide)
  have hfirst : recAt (newDirBlock stk n parent) 0 = ⟨n, 12, ext2FtDir, dot⟩ := by
    rw [← hput]
    apply recAt_congr
    intro i hi
    rw [hput] at hi
    simp only [dot, List.length_singleton] at hi
    exact memcpy_outside (by omega)
  have hsecond : recAt (newDirBlock stk n parent) 12 = ⟨parent, 12, ext2FtDir, dotDot⟩ := by
    rw [← hput']
    apply recAt_congr
    intro i hi
    rw [hput'] at hi
    simp only [dotDot, List.length_cons, List.length_nil] at hi
    rw [newDirBlock, memcpy_inside (by omega) (by omega), Nat.add_sub_cancel_left]
  apply Tiles.cons' hfirst (dot_ok n).1
  apply Tiles.cons' hsecond (dot_ok parent).2
  exact Tiles.nil 24

/-- The two records tile the start of the block, and the rest is unused. -/
theorem tiles_newDirBlock {stk : Stack} (hzero : UnusedRest stk) {n parent : Nat}
    (hn : n < 2 ^ 32) (hparent : parent < 2 ^ 32) :
    Tiles (newDirBlock stk n parent) 0 [⟨n, 12, ext2FtDir, dot⟩, ⟨parent, 12, ext2FtDir, dotDot⟩]
        24 ∧
      Tail (newDirBlock stk n parent) 24 := by
  refine ⟨tiles_dots stk hn hparent, by decide, ?_⟩
  rw [dFileType, newDirBlock_rest stk n parent (by omega)]
  exact hzero

/-! ## The image after `imkdir` -/

/-- The second image is the first one with a fresh block given to the inode, which is
a directory inside `parent` now. -/
def Populated (v v' : View) (parent n : Nat) : Prop :=
  ∃ b ∈ v.freeBlocks, ∃ inode buf,
    v' = { v with
      blockUsed := Function.update v.blockUsed b true
      inode := Function.update v.inode n inode
      data := Function.update v.data b buf } ∧
    iMode inode = 0x41FF ∧ iBlocks inode = 1 ∧ iBlock inode 0 = b ∧
    Tiles buf 0 [⟨n, 12, ext2FtDir, dot⟩, ⟨parent, 12, ext2FtDir, dotDot⟩] 24 ∧ Tail buf 24

/-- The second image is the first one with a fresh block given to the inode, which is
a directory now, and with the records of a new directory in the block. -/
def Furnished (stk : Stack) (v v' : View) (parent n : Nat) : Prop :=
  ∃ b ∈ v.freeBlocks, ∃ inode,
    v' = { v with
      blockUsed := Function.update v.blockUsed b true
      inode := Function.update v.inode n inode
      data := Function.update v.data b (newDirBlock stk n parent) } ∧
    iMode inode = 0x41FF ∧ iBlocks inode = 1 ∧ iBlock inode 0 = b

/-- The block of a new directory has an unused rest. -/
theorem Furnished.populated {stk : Stack} {v v' : View} {parent n : Nat}
    (h : Furnished stk v v' parent n) (hzero : UnusedRest stk) (hn : n < 2 ^ 32)
    (hparent : parent < 2 ^ 32) : Populated v v' parent n := by
  obtain ⟨b, hb, inode, hview, hmode, hblocks, hslot⟩ := h
  obtain ⟨htiles, htail⟩ := tiles_newDirBlock hzero hn hparent
  exact ⟨b, hb, inode, _, hview, hmode, hblocks, hslot, htiles, htail⟩

/-- Storing a block number does not change the block count. -/
theorem iBlocks_setIBlock (inode : Buf) (k b : Nat) :
    iBlocks (setIBlock inode k b) = iBlocks inode :=
  u32At_setU32_of_disjoint (by omega)

/-- The inode that `imkdir` writes, with the block that it has taken. -/
def furnishedInode (inode : Buf) (b mode : Nat) : Buf :=
  setIMode (setISize (setIBlocks (setIBlock inode (iBlocks inode) b) (iBlocks inode + 1)) blocksize)
    mode

/-- The fields of the inode that `imkdir` writes. -/
theorem fields_furnishedInode (inode : Buf) {b mode : Nat} (hblocks : iBlocks inode < 12)
    (hb : b < 2 ^ 32) (hmode : mode < 2 ^ 16) :
    iMode (furnishedInode inode b mode) = mode ∧
      iSize (furnishedInode inode b mode) = blocksize ∧
      iBlocks (furnishedInode inode b mode) = iBlocks inode + 1 ∧
      iBlock (furnishedInode inode b mode) 0 =
        if iBlocks inode = 0 then b else iBlock inode 0 := by
  refine ⟨u16At_setU16 _ 0 hmode, ?_, ?_, ?_⟩
  · have hsame : iSize (furnishedInode inode b mode) = iSize (setISize (setIBlocks
        (setIBlock inode (iBlocks inode) b) (iBlocks inode + 1)) blocksize) := by
      apply u32At_congr
      intro i hi
      rw [furnishedInode, setIMode, setU16_outside (by omega)]
    rw [hsame]
    exact u32At_setU32 _ 4 (by decide)
  · have hsame : iBlocks (furnishedInode inode b mode) =
        iBlocks (setIBlocks (setIBlock inode (iBlocks inode) b) (iBlocks inode + 1)) := by
      apply u32At_congr
      intro i hi
      rw [furnishedInode, setIMode, setU16_outside (by omega), setISize, setU32_outside (by omega)]
    rw [hsame]
    exact u32At_setU32 _ 28 (by omega)
  · have hsame : iBlock (furnishedInode inode b mode) 0 =
        iBlock (setIBlock inode (iBlocks inode) b) 0 := by
      apply u32At_congr
      intro i hi
      rw [furnishedInode, setIMode, setU16_outside (by omega), setISize, setU32_outside (by omega),
        setIBlocks, setU32_outside (by omega)]
    rw [hsame]
    by_cases hzero : iBlocks inode = 0
    · rw [if_pos hzero, hzero]
      exact u32At_setU32 inode _ hb
    · rw [if_neg hzero]
      exact u32At_setU32_of_disjoint (by omega)

/-- The part of `imkdir` behind the call of `create`, with the entry as it is then. -/
def furnish (sb : Super) (d : Disk) (stk : Stack) (self : Nat) (dent : Dentry) :
    Option (Int × Disk) :=
  let dirIno := dent.iIno
  let dirInode := (ext2ReadInode sb d dirIno stk.mkdirDirInode).2
  match ext2AllocIblock d dirInode with
  | none => none
  | some (_, dirInode, d) =>
      let dirInode := setIMode (setISize dirInode blocksize) dent.iMode
      let d := (ext2WriteInode sb d dirIno dirInode).2
      let thisDir := putRecord stk.mkdirThisDir 0 dirIno 12 ext2FtDir dot
      let d := ext2WriteBlock d (iBlock dirInode 0) thisDir
      let parentDir := putRecord stk.mkdirParentDir 0 self 12 ext2FtDir dotDot
      let d := ext2WriteBlockBytes d (iBlock dirInode 0) parentDir 0 12 12
      some (0, d)

/-- `imkdir` goes on with the entry whatever `create` has returned. -/
theorem imkdir_eq (sb : Super) (d : Disk) (stk : Stack) (self : Nat) (dirname : List UInt8) :
    imkdir sb d stk self dirname =
      match icreate sb d stk self { stk.mkdirDent with filename := dirname } 0x41FF with
      | none => none
      | some (_, dent, d) => furnish sb d stk self dent := rfl

/-- The second image is the first one with an unused block given to an inode, which is
rewritten as a directory with the mode of the entry, and with the records of a new
directory in its first block. -/
def Refurnished (stk : Stack) (v v' : View) (parent : Nat) (dent : Dentry) : Prop :=
  ∃ b ∈ v.freeBlocks,
    v' = { v with
      blockUsed := Function.update v.blockUsed b true
      inode := Function.update v.inode dent.iIno
        (inodeBytes (furnishedInode (v.inode dent.iIno) b dent.iMode))
      data := Function.update v.data
        (iBlock (furnishedInode (v.inode dent.iIno) b dent.iMode) 0)
        (newDirBlock stk dent.iIno parent) }

/-- Which inode is rewritten depends on the entry alone. -/
theorem furnish_spec {g : Geometry} {d : Disk} (hd : OnDisk g d) (hmeta : MetaUsed g (view g d))
    (stk : Stack) (self : Nat) {dent : Dentry} (hn : g.ValidIno dent.iIno)
    (hused : (view g d).inodeUsed dent.iIno = true)
    (hblocks : iBlocks ((view g d).inode dent.iIno) < 12) (hmode : dent.iMode < 2 ^ 16)
    (hdata : iBlocks ((view g d).inode dent.iIno) ≠ 0 →
      g.IsData (iBlock ((view g d).inode dent.iIno) 0)) :
    (furnish g.sb d stk self dent = none ∧
        ∀ b, 1 ≤ b → b ≤ searchedBits → (view g d).blockUsed b = true) ∨
      ∃ d', furnish g.sb d stk self dent = some (0, d') ∧ OnDisk g d' ∧
        Refurnished stk (view g d) (view g d') self dent := by
  rcases nextFreeBlkno_spec hd with ⟨hnone, hfull⟩ | ⟨b, d₂, hsome, hlo, hhi, hfree, hd₂, hview₂⟩
  · refine Or.inl ⟨?_, hfull⟩
    simp only [furnish, readInode_eq hd hn hused, ext2AllocIblock, if_neg (by omega :
      ¬ 12 ≤ iBlocks ((view g d).inode dent.iIno)), hnone]
  · have hmem : b ∈ (view g d).freeBlocks := mem_freeBlocks.mpr ⟨⟨hlo, hhi⟩, hfree⟩
    have hlt : b < 2 ^ 32 := by
      unfold searchedBits at hhi
      omega
    have hinode : setIMode (setISize (setIBlocks
        (setIBlock ((view g d).inode dent.iIno) (iBlocks ((view g d).inode dent.iIno)) b)
        (iBlocks (setIBlock ((view g d).inode dent.iIno)
          (iBlocks ((view g d).inode dent.iIno)) b) + 1)) blocksize) dent.iMode =
        furnishedInode ((view g d).inode dent.iIno) b dent.iMode := by
      rw [iBlocks_setIBlock]
      rfl
    obtain ⟨-, -, -, hslot⟩ :=
      fields_furnishedInode ((view g d).inode dent.iIno) hblocks hlt hmode
    have hdata' : g.IsData
        (iBlock (furnishedInode ((view g d).inode dent.iIno) b dent.iMode) 0) := by
      rw [hslot]
      by_cases hzero : iBlocks ((view g d).inode dent.iIno) = 0
      · rw [if_pos hzero]
        exact isData_of_free hmeta hmem
      · rw [if_neg hzero]
        exact hdata hzero
    obtain ⟨hd₃, hview₃⟩ := view_writeInode hd₂ hn (by rw [hview₂]; exact hused)
      (furnishedInode ((view g d).inode dent.iIno) b dent.iMode)
    refine Or.inr ⟨_, ?_, (hd₃.writeData hdata' (putRecord stk.mkdirThisDir 0 dent.iIno 12 ext2FtDir
      dot)).writeData hdata' (newDirBlock stk dent.iIno self), b, hmem, ?_⟩
    · simp only [furnish, readInode_eq hd hn hused, ext2AllocIblock, if_neg (by omega :
        ¬ 12 ≤ iBlocks ((view g d).inode dent.iIno)), hsome, hinode, ext2WriteBlockBytes,
        readBlock_writeBlock_self]
      rfl
    · rw [view_writeBlock hdata', view_writeBlock hdata', hview₃, hview₂]
      simp only [Function.update_idem]

/-- The image after a successful `imkdir` of a new name, whatever the local variables
hold. -/
theorem imkdir_furnishes {g : Geometry} {d d' : Disk} {ino : Nat} {stk : Stack} (hd : OnDisk g d)
    (hmeta : MetaUsed g (view g d)) (hpad : PadUsed g (view g d))
    (h : Directory g (view g d) ino) {dirname : List UInt8}
    (hle : ¬ HasRoom (view g d) ino (padded dirname.length) →
      iBlocks ((view g d).inode ino) ≤ 11)
    (hname : NewName dirname) (hnew : ∀ r ∈ (view g d).entries ino, r.name ≠ dirname) {ret : Int}
    (hrun : imkdir g.sb d stk ino dirname = some (ret, d')) :
    ret = 0 ∧ OnDisk g d' ∧ ∃ n v₁, Created g (view g d) v₁ ino n 0x41FF dirname ∧
      Furnished stk v₁ (view g d') ino n := by
  rw [imkdir_eq] at hrun
  cases hcreate : icreate g.sb d stk ino { stk.mkdirDent with filename := dirname } 0x41FF with
  | none =>
      rw [hcreate] at hrun
      exact absurd hrun (by simp)
  | some res =>
      obtain ⟨ret₁, dent, d₁⟩ := res
      rw [hcreate] at hrun
      simp only at hrun
      obtain ⟨-, hd₁, hmode, hc⟩ := @icreate_spec g d d₁ ino stk hd hmeta hpad h
        { stk.mkdirDent with filename := dirname } hle hname 0x41FF (by decide) (by decide) hnew
        ret₁ dent hcreate
      obtain ⟨inode₁, hinode₁, -, -, hblocks₁⟩ := hc.newInode
      have hself : iBlocks ((view g d₁).inode dent.iIno) = 0 := by
        rw [hinode₁, Function.update_self]
        exact hblocks₁
      have hused : (view g d₁).inodeUsed dent.iIno = true := by
        rw [hc.inodeUsed]
        exact Function.update_self _ _ _
      have hmeta₁ : MetaUsed g (view g d₁) := fun b hb hm => hc.used (hmeta b hb hm)
      have hdent : dent.iMode < 2 ^ 16 := by
        rw [hmode]
        decide
      rcases furnish_spec hd₁ hmeta₁ stk ino hc.valid hused (by omega) hdent
        (fun hne => absurd hself hne) with ⟨hnone, -⟩ | ⟨d₂, hsome, hd₂, b, hb, hview⟩
      · rw [hnone] at hrun
        exact absurd hrun (by simp)
      · rw [hsome] at hrun
        simp only [Option.some.injEq, Prod.mk.injEq] at hrun
        obtain ⟨rfl, rfl⟩ := hrun
        have hhi := (mem_freeBlocks.mp hb).1.2
        have hlt : b < 2 ^ 32 := by
          unfold searchedBits at hhi
          omega
        obtain ⟨hfmode, -, hfblocks, hfslot⟩ :=
          fields_furnishedInode ((view g d₁).inode dent.iIno) (by omega) hlt hdent
        obtain ⟨hbmode, -, hbblocks, hbslot⟩ := fields_inodeBytes
          (furnishedInode ((view g d₁).inode dent.iIno) b dent.iMode)
        rw [if_pos hself] at hfslot
        rw [hself] at hfblocks
        rw [hfslot] at hview
        exact ⟨rfl, hd₂, dent.iIno, view g d₁, hc, b, hb, _, hview,
          (hbmode.trans hfmode).trans hmode, hbblocks.trans hfblocks,
          (hbslot 0 (by decide)).trans hfslot⟩

/-- A number of the group is a 32-bit value. -/
theorem validIno_lt {g : Geometry} {n : Nat} (h : g.ValidIno n) : n < 2 ^ 32 := by
  have hbits := (validIno_le h).2
  unfold bitmapBits at hbits
  omega

/-- The image after a successful `imkdir` of a new name, where the rest of the block is
unused. -/
theorem imkdir_spec {g : Geometry} {d d' : Disk} {ino : Nat} {stk : Stack} (hd : OnDisk g d)
    (hmeta : MetaUsed g (view g d)) (hpad : PadUsed g (view g d))
    (h : Directory g (view g d) ino) {dirname : List UInt8}
    (hle : ¬ HasRoom (view g d) ino (padded dirname.length) →
      iBlocks ((view g d).inode ino) ≤ 11)
    (hname : NewName dirname) (hnew : ∀ r ∈ (view g d).entries ino, r.name ≠ dirname)
    (hzero : UnusedRest stk) {ret : Int}
    (hrun : imkdir g.sb d stk ino dirname = some (ret, d')) :
    ret = 0 ∧ OnDisk g d' ∧ ∃ n v₁, Created g (view g d) v₁ ino n 0x41FF dirname ∧
      Populated v₁ (view g d') ino n := by
  obtain ⟨hret, hd', n, v₁, hc, hf⟩ := imkdir_furnishes hd hmeta hpad h hle hname hnew hrun
  exact ⟨hret, hd', n, v₁, hc, hf.populated hzero (validIno_lt hc.valid)
    (validIno_lt h.owns.valid)⟩

end Ext2
end NochOS
