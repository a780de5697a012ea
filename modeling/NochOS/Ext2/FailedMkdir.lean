import NochOS.Ext2.NewDirectory
import NochOS.Ext2.Limits

/-!
# ext2 - directories that cannot be made

`imkdir` calls `create` through the jump table and does not look at what it returns.
When the creation is refused, the entry on the stack has no number yet, and `imkdir`
goes on with the number and the mode that the stack held.

Main results:

- Theorem `icreate_refused`: a refused creation changes neither the entry nor the
  device.
- Theorem `imkdir_overwrites`: the inode that the stack names is made a directory.
- Theorem `imkdir_never_clean`: no failure of the creation is reported.
-/

namespace NochOS
namespace Ext2

open Library Bitmap

/-! ## Why an entry cannot be created -/

/-- The creation is refused: the inode is not that of a directory, the name is empty,
or a search finds it. -/
inductive Refused (d : Disk) (inode : Buf) (dirname : List UInt8) : Prop
  | notDirectory (hmode : iMode inode &&& ext2SIfdir = 0) : Refused d inode dirname
  | noName (hname : dirname = []) : Refused d inode dirname
  | present {blk off swp : Nat}
      (hfound : searchLoop d inode dirname 0 0 0 = some (.found blk off swp)) :
      Refused d inode dirname

/-- No inode number is free in the part of the bitmap that is searched. -/
def NoNumber (d : Disk) : Prop :=
  ∀ i < searchedBits, bitAt (wordsOf (ext2ReadBlock d (bgInodeBitmap d))) i = true

/-- The inode that `icreate` reads for the parent. -/
def parentInode (sb : Super) (d : Disk) (stk : Stack) (self : Nat) : Buf :=
  (ext2ReadInode sb d self stk.createInode).2

/-- An entry of this name cannot be created. -/
def CannotCreate (sb : Super) (d : Disk) (stk : Stack) (self : Nat) (dirname : List UInt8) : Prop :=
  Refused d (parentInode sb d stk self) dirname ∨ NoNumber d

/-- In a well-formed directory a search finds the names of its entries. -/
theorem Directory.found_iff {g : Geometry} {d : Disk} {ino : Nat}
    (h : Directory g (view g d) ino) {fname : List UInt8} (hname : 0 ∉ fname) :
    (∃ blk off swp, searchLoop d ((view g d).inode ino) fname 0 0 0 = some (.found blk off swp)) ↔
      ∃ r ∈ (view g d).entries ino, r.name = fname := by
  cases searchLoop_cases h hname with
  | inl hnone =>
      constructor
      · intro hfound
        obtain ⟨blk, off, swp, hrun⟩ := hfound
        rw [hnone.1] at hrun
        exact absurd hrun (by simp)
      · intro hmem
        obtain ⟨r, hr, hrname⟩ := hmem
        exact absurd hrname (hnone.2 r hr)
  | inr hfound =>
      obtain ⟨blk, off, swp, pre, r, post, hrun, hat⟩ := hfound
      constructor
      · intro _
        exact ⟨r, hat.mem, hat.name⟩
      · intro _
        exact ⟨blk, off, swp, hrun⟩

section Creation

variable {sb : Super} {d : Disk} {stk : Stack} {self : Nat}

/-- A refused creation changes neither the entry nor the device. -/
theorem icreate_refused {dentry : Dentry} (mode : Nat)
    (h : Refused d (parentInode sb d stk self) dentry.filename) :
    icreate sb d stk self dentry mode = some (-1, dentry, d) := by
  by_cases hname : dentry.filename = []
  · simp only [icreate, if_pos hname]
  cases h with
  | notDirectory hmode =>
      rw [parentInode] at hmode
      have hne : (-1 : Int) ≠ 0 := by
        omega
      simp only [icreate, if_neg hname, ext2ReadDentryByName, if_pos hmode, if_pos hne]
  | noName hempty => exact absurd hempty hname
  | @present blk off swp hfound =>
      rw [parentInode] at hfound
      by_cases hmode : iMode (ext2ReadInode sb d self stk.createInode).2 &&& ext2SIfdir = 0
      · have hne : (-1 : Int) ≠ 0 := by
          omega
        simp only [icreate, if_neg hname, ext2ReadDentryByName, if_pos hmode, if_pos hne]
      · have hpos := List.length_pos_iff.mpr hname
        have hlen := searchLoop_nameLen hfound
        have hne : ((dNameLen (ext2ReadBlock d
            (iBlock (ext2ReadInode sb d self stk.createInode).2 blk)) off : Nat) : Int) ≠ 0 := by
          omega
        simp only [icreate, if_neg hname, ext2ReadDentryByName, if_neg hmode, hfound, if_pos hne]

/-- Without a free number the search of the bitmap fails. -/
theorem NoNumber.nextFreeIno (h : NoNumber d) : nextFreeIno d = none := by
  cases nextFree_cases d (bgInodeBitmap d) with
  | inl hfull => exact hfull.1
  | inr hfound =>
      obtain ⟨n, ws, -, hlo, hhi, hclear, -⟩ := hfound
      have hset := h (n - 1) (by omega)
      rw [hset] at hclear
      exact absurd hclear (by simp)

/-- Without a free number a creation is refused or does not come back. -/
theorem NoNumber.icreate (h : NoNumber d) (dentry : Dentry) (mode : Nat) :
    icreate sb d stk self dentry mode = some (-1, dentry, d) ∨
      icreate sb d stk self dentry mode = none := by
  by_cases hname : dentry.filename = []
  · left
    simp only [Ext2.icreate, if_pos hname]
  · simp only [Ext2.icreate, if_neg hname, h.nextFreeIno]
    cases ext2ReadDentryByName sb d stk dentry.filename
        (ext2ReadInode sb d self stk.createInode).2 stk.createTempDent with
    | none => exact Or.inr rfl
    | some res =>
        obtain ⟨res, temp⟩ := res
        by_cases hres : res ≠ 0
        · simp [hres]
        · simp [hres]

/-! ## What `imkdir` does then -/

/-- The part behind the creation returns zero. -/
theorem furnish_ret {dent : Dentry} {ret : Int} {d' : Disk}
    (hrun : furnish sb d stk self dent = some (ret, d')) : ret = 0 := by
  rw [furnish] at hrun
  cases halloc : ext2AllocIblock d (ext2ReadInode sb d dent.iIno stk.mkdirDirInode).2 with
  | none => simp [halloc] at hrun
  | some res =>
      obtain ⟨res, inode, d₁⟩ := res
      simp only [halloc, Option.some.injEq, Prod.mk.injEq] at hrun
      exact hrun.1.symm

/-- `imkdir` returns zero whenever it returns. -/
theorem imkdir_ret {dirname : List UInt8} {ret : Int} {d' : Disk}
    (hrun : imkdir sb d stk self dirname = some (ret, d')) : ret = 0 := by
  rw [imkdir_eq] at hrun
  cases hcreate : icreate sb d stk self { stk.mkdirDent with filename := dirname } 0x41FF with
  | none => simp [hcreate] at hrun
  | some res =>
      obtain ⟨res, dent, d₁⟩ := res
      rw [hcreate] at hrun
      exact furnish_ret hrun

/-- After a refused creation `imkdir` goes on with the number that the stack held. -/
theorem imkdir_refused {dirname : List UInt8} (h : Refused d (parentInode sb d stk self) dirname) :
    imkdir sb d stk self dirname =
      furnish sb d stk self { stk.mkdirDent with filename := dirname } := by
  rw [imkdir_eq, @icreate_refused sb d stk self { stk.mkdirDent with filename := dirname } 0x41FF h]

/-- Without a free number it goes on in the same way, or does not come back. -/
theorem NoNumber.imkdir (h : NoNumber d) (dirname : List UInt8) :
    imkdir sb d stk self dirname =
        furnish sb d stk self { stk.mkdirDent with filename := dirname } ∨
      imkdir sb d stk self dirname = none := by
  rw [imkdir_eq]
  cases @NoNumber.icreate sb d stk self h { stk.mkdirDent with filename := dirname } 0x41FF with
  | inl hrefused =>
      left
      rw [hrefused]
  | inr hnone =>
      right
      rw [hnone]

end Creation

/-- Taking an unused block changes the image. -/
theorem Refurnished.ne {stk : Stack} {v v' : View} {parent : Nat} {dent : Dentry}
    (h : Refurnished stk v v' parent dent) : v' ≠ v := by
  obtain ⟨b, hb, rfl⟩ := h
  intro heq
  have hfree := (mem_freeBlocks.mp hb).2
  have hused := congrArg (fun w => w.blockUsed b) heq
  simp only [Function.update_self] at hused
  rw [hfree] at hused
  exact absurd hused (by simp)

/-- The inode whose number the stack held becomes a directory of the mode that the stack
held, and its first block is overwritten. -/
theorem imkdir_overwrites {g : Geometry} {d : Disk} (hd : OnDisk g d)
    (hmeta : MetaUsed g (view g d)) {stk : Stack} {self : Nat} {dirname : List UInt8}
    (h : Refused d (parentInode g.sb d stk self) dirname)
    (hn : g.ValidIno stk.mkdirDent.iIno) (hused : (view g d).inodeUsed stk.mkdirDent.iIno = true)
    (hblocks : iBlocks ((view g d).inode stk.mkdirDent.iIno) < 12)
    (hmode : stk.mkdirDent.iMode < 2 ^ 16)
    (hdata : iBlocks ((view g d).inode stk.mkdirDent.iIno) ≠ 0 →
      g.IsData (iBlock ((view g d).inode stk.mkdirDent.iIno) 0))
    (hblk : (view g d).freeBlocks.Nonempty) :
    ∃ d', imkdir g.sb d stk self dirname = some (0, d') ∧ d' ≠ d ∧
      Refurnished stk (view g d) (view g d') self { stk.mkdirDent with filename := dirname } := by
  rw [imkdir_refused h]
  cases @furnish_spec g d hd hmeta stk self { stk.mkdirDent with filename := dirname } hn hused
      hblocks hmode hdata with
  | inl hfull =>
      obtain ⟨b, hb⟩ := hblk
      have hfree := mem_freeBlocks.mp hb
      rw [hfull.2 b hfree.1.1 hfree.1.2] at hfree
      exact absurd hfree.2 (by simp)
  | inr hsome =>
      obtain ⟨d', hrun, -, hnow⟩ := hsome
      refine ⟨d', hrun, ?_, hnow⟩
      rintro rfl
      exact hnow.ne rfl

/-- When an entry cannot be created `imkdir` never returns -1.  It reads and rewrites the
inode whose number its stack held before the call; or else no number is free and the search
for one, which fails, is not noticed: it returns neither -1 nor the number of an inode. -/
theorem imkdir_never_clean (sb : Super) (d : Disk) (stk : Stack) (self : Nat)
    (dirname : List UInt8) (h : CannotCreate sb d stk self dirname) :
    imkdir sb d stk self dirname ≠ some (-1, d) ∧
      (imkdir sb d stk self dirname =
          furnish sb d stk self { stk.mkdirDent with filename := dirname } ∨
        imkdir sb d stk self dirname = none ∧ ∀ k n k' d', -1 ≤ n →
          nextFreeRun k d (bgInodeBitmap d) ≠ some (n, k', d')) := by
  constructor
  · intro hrun
    have hzero := imkdir_ret hrun
    omega
  · cases h with
    | inl hrefused => exact Or.inl (imkdir_refused hrefused)
    | inr hfull =>
        cases @NoNumber.imkdir sb d stk self hfull dirname with
        | inl hgo => exact Or.inl hgo
        | inr hnone =>
            refine Or.inr ⟨hnone, fun k n k' d' hn => ?_⟩
            exact nextFreeRun_full_ne k d _ hfull hn k' d'

/-! ## A stack with the number of a file -/

/-- A stack on which the entry of an earlier call has the number 12. -/
def staleStack : Stack :=
  { (default : Stack) with mkdirDent := ⟨[], 0, 0, 12, 0x41FF⟩ }

/-- Over this stack every refused creation turns the file into a directory. -/
theorem imkdir_stale {self : Nat} {dirname : List UInt8}
    (h : Refused fileRootDisk (parentInode smallGroup.sb fileRootDisk staleStack self) dirname) :
    ∃ d', imkdir smallGroup.sb fileRootDisk staleStack self dirname = some (0, d') ∧
      d' ≠ fileRootDisk ∧ iMode ((view smallGroup d').inode 12) = 0x41FF := by
  have hroot := rootWithFile_fileRoot
  have hblocks : iBlocks ((view smallGroup fileRootDisk).inode staleStack.mkdirDent.iIno) < 12 := by
    rw [show staleStack.mkdirDent.iIno = 12 from rfl, inode_fileRoot.2]
    decide
  have hvalid : smallGroup.ValidIno staleStack.mkdirDent.iIno := hroot.owns.valid
  have hblk : (view smallGroup fileRootDisk).freeBlocks.Nonempty :=
    ⟨8, mem_freeBlocks.mpr ⟨by decide, by rw [view_fileRoot]; decide⟩⟩
  obtain ⟨d', hrun, hne, b, hb, hview⟩ := imkdir_overwrites hroot.onDisk hroot.metaUsed h hvalid
    hroot.owns.used hblocks (by decide) (fun hne => absurd inode_fileRoot.2 hne) hblk
  refine ⟨d', hrun, hne, ?_⟩
  have hself : (view smallGroup d').inode 12 = inodeBytes
      (furnishedInode ((view smallGroup fileRootDisk).inode 12) b 0x41FF) := by
    rw [hview]
    exact Function.update_self 12 _ (view smallGroup fileRootDisk).inode
  rw [hself, (fields_inodeBytes _).1]
  exact u16At_setU16 _ 0 (by decide)

/-- The root has an entry `f`. -/
theorem refused_fileRoot (stk : Stack) :
    Refused fileRootDisk (parentInode smallGroup.sb fileRootDisk stk 2) [102] := by
  have hroot := rootWithFile_fileRoot
  obtain ⟨hdir, hentries, -⟩ := directory_fileRoot
  have hread := readInode_eq hroot.onDisk hdir.owns.valid hdir.owns.used stk.createInode
  obtain ⟨blk, off, swp, hfound⟩ := (@Directory.found_iff smallGroup fileRootDisk 2 hdir [102]
    (by decide)).mpr ⟨⟨12, 1000, 1, [102]⟩, by rw [hentries]; decide, rfl⟩
  apply @Refused.present _ _ _ blk off swp
  rw [parentInode, hread]
  exact hfound

/-- `imkdir_never_clean` for a name that the root has. -/
theorem imkdir_never_clean_fileRoot :
    imkdir smallGroup.sb fileRootDisk staleStack 2 [102] ≠ some (-1, fileRootDisk) :=
  (imkdir_never_clean smallGroup.sb fileRootDisk staleStack 2 [102]
    (Or.inl (refused_fileRoot staleStack))).1

/-- Making a directory under a name that the root has, under no name, or in a file
reports success and turns the file with the number on the stack into a directory. -/
theorem imkdir_unclean :
    (∃ d', imkdir smallGroup.sb fileRootDisk staleStack 2 [102] = some (0, d') ∧
      d' ≠ fileRootDisk ∧ iMode ((view smallGroup d').inode 12) = 0x41FF) ∧
    (∃ d', imkdir smallGroup.sb fileRootDisk staleStack 2 [] = some (0, d') ∧
      d' ≠ fileRootDisk ∧ iMode ((view smallGroup d').inode 12) = 0x41FF) ∧
    (∃ d', imkdir smallGroup.sb fileRootDisk staleStack 12 [103] = some (0, d') ∧
      d' ≠ fileRootDisk ∧ iMode ((view smallGroup d').inode 12) = 0x41FF) := by
  have hroot := rootWithFile_fileRoot
  refine ⟨imkdir_stale (refused_fileRoot staleStack), imkdir_stale (.noName rfl),
    imkdir_stale (.notDirectory ?_)⟩
  rw [parentInode, readInode_eq hroot.onDisk hroot.owns.valid hroot.owns.used, inode_fileRoot.1]
  decide

end Ext2
end NochOS
