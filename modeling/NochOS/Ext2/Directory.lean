import NochOS.Ext2.Transfer
import NochOS.Library.CString

/-!
# ext2 - directories

This module embeds the directory code of `ext2.c`: lookup, creation, removal and
`mkdir`.  A directory is a file whose blocks hold records one behind the other.
The loops of `ext2_read_dentry_by_name` and `ext2_remove_dentry` walk over the
records in the same way, so the walk is one search here.

The bytes of local variables that are read before they are written come from a
`Stack`.  An operation returns `none` where the source does not return, or goes on
with undefined behaviour.

Main results:

- Definitions `ilookup`, `icreate`, `iremove`, `imkdir`: the inode operations.
-/

namespace NochOS
namespace Ext2

open Library

/-! ## Records -/

/-- `EXT2_FT_DIR`. -/
def ext2FtDir : Nat := 2

/-- `FNAME_LEN`. -/
def fnameLen : Nat := 48

/-- `imode_to_ft`. -/
def imodeToFt (iMode : Nat) : Nat :=
  match iMode % 2 ^ 16 / 2 ^ 12 with
  | 0xC => 6
  | 0xA => 7
  | 0x8 => 1
  | 0x6 => 4
  | 0x4 => ext2FtDir
  | 0x2 => 3
  | 0x1 => 5
  | _ => 0

/-- The `inode` of the record at an offset. -/
def dInode (blkBuf : Buf) (off : Nat) : Nat := u32At blkBuf off

/-- The `rec_len` of the record at an offset. -/
def dRecLen (blkBuf : Buf) (off : Nat) : Nat := u16At blkBuf (off + 4)

/-- The `name_len` of the record at an offset. -/
def dNameLen (blkBuf : Buf) (off : Nat) : Nat := (blkBuf (off + 6)).toNat

/-- The `file_type` of the record at an offset. -/
def dFileType (blkBuf : Buf) (off : Nat) : Nat := (blkBuf (off + 7)).toNat

/-- The `name` of the record at an offset. -/
def dName (blkBuf : Buf) (off : Nat) : List UInt8 := bytesAt blkBuf (off + 8) (dNameLen blkBuf off)

/-- The assignment to `inode`. -/
def setDInode (blkBuf : Buf) (off v : Nat) : Buf := setU32 blkBuf off v

/-- The assignment to `rec_len`. -/
def setDRecLen (blkBuf : Buf) (off v : Nat) : Buf := setU16 blkBuf (off + 4) v

/-- The assignment to `name_len`. -/
def setDNameLen (blkBuf : Buf) (off v : Nat) : Buf :=
  Function.update blkBuf (off + 6) (UInt8.ofNat v)

/-- The assignment to `file_type`. -/
def setDFileType (blkBuf : Buf) (off v : Nat) : Buf :=
  Function.update blkBuf (off + 7) (UInt8.ofNat v)

/-- The assignments that fill in a record, in the order of the source. -/
def putRecord (blkBuf : Buf) (off ino recLen ft : Nat) (name : List UInt8) : Buf :=
  let b := setDInode blkBuf off ino
  let b := setDRecLen b off recLen
  let b := setDNameLen b off name.length
  let b := setDFileType b off ft
  strncpy b (off + 8) name name.length

/-- A length rounded up to a multiple of four. -/
def padded (len : Nat) : Nat := if len % 4 ≠ 0 then len + (4 - len % 4) else len

/-- The fields of `dentry_t` that the file system uses. -/
structure Dentry where
  filename : List UInt8
  iBlocks : Nat
  iSize : Nat
  iIno : Nat
  iMode : Nat
deriving Inhabited

/-- The bytes that local variables hold before they are written, named by function
and variable. -/
structure Stack where
  fillTheInode : Buf
  lookupInode : Buf
  createInode : Buf
  createTempDent : Dentry
  insertTheInode : Buf
  removeInode : Buf
  removeTheInode : Buf
  removeRmDir : Buf
  ancestorThat : Dentry
  ancestorThis : Dentry
  mkdirParentInode : Buf
  mkdirDirInode : Buf
  mkdirDent : Dentry
  mkdirThisDir : Buf
  mkdirParentDir : Buf
deriving Inhabited

/-! ## Search -/

/-- The end of a search: the variables `blk_idx`, `dir_off` and the offset of
`swp_dir` where the name was found, if it was. -/
inductive Search where
  | notFound
  | found (blkIdx dirOff swpOff : Nat)

/-- The first boundary check of the loops over records: at the end of a block they
go on at the start of the next one. -/
def boundary (blkIdx dirOff : Nat) : Nat × Nat :=
  if 1024 ≤ dirOff then (blkIdx + 1, 0) else (blkIdx, dirOff)

/-- A loop that passes a record comes closer to the end; the block matters only to a loop
that leaves it. -/
theorem boundary_decreases_of {blkIdx dirOff recLen : Nat}
    (hblk : 1024 ≤ dirOff → blkIdx < 12) (hlen : recLen ≠ 0) :
    Prod.Lex (· < ·) (· < ·)
      (13 - (boundary blkIdx dirOff).1, 1024 - ((boundary blkIdx dirOff).2 + recLen))
      (13 - blkIdx, 1024 - dirOff) := by
  unfold boundary
  by_cases hend : 1024 ≤ dirOff
  · have hlt := hblk hend
    rw [if_pos hend]
    apply Prod.Lex.left
    dsimp only
    omega
  · rw [if_neg hend]
    apply Prod.Lex.right
    dsimp only
    omega

/-- A loop that passes a record comes closer to the end. -/
theorem boundary_decreases {blkIdx dirOff recLen : Nat} (hblk : blkIdx < 12) (hlen : recLen ≠ 0) :
    Prod.Lex (· < ·) (· < ·)
      (13 - (boundary blkIdx dirOff).1, 1024 - ((boundary blkIdx dirOff).2 + recLen))
      (13 - blkIdx, 1024 - dirOff) :=
  boundary_decreases_of (fun _ => hblk) hlen

/-- The loop over the records of a directory.  A record of length zero that is
passed keeps the loop where it is. -/
def searchLoop (d : Disk) (inode : Buf) (fname : List UInt8) (blkIdx dirOff swpOff : Nat) :
    Option Search :=
  if blkIdx < 12 ∧ blkIdx < iBlocks inode then
    if 1024 ≤ dirOff ∧ iBlocks inode ≤ blkIdx + 1 then some .notFound
    else
      let blk := (boundary blkIdx dirOff).1
      let off := (boundary blkIdx dirOff).2
      let blkBuf := ext2ReadBlock d (iBlock inode blk)
      if dFileType blkBuf off = 0 then some .notFound
      else if strncmpEq blkBuf (off + 8) fname (dNameLen blkBuf off) = true ∧
          fname.length = dNameLen blkBuf off then
        some (.found blk off swpOff)
      else if dRecLen blkBuf off = 0 then
        if blk < 12 then none else some .notFound
      else searchLoop d inode fname blk (off + dRecLen blkBuf off) off
  else some .notFound
termination_by (13 - blkIdx, 1024 - dirOff)
decreasing_by
  rename_i hin _ _ _ hlen
  exact boundary_decreases hin.1 hlen

/-- `ext2_fill_vfs_dentry`. -/
def ext2FillVfsDentry (sb : Super) (d : Disk) (stk : Stack) (blkBuf : Buf) (off : Nat) : Dentry :=
  let inode := (ext2ReadInode sb d (dInode blkBuf off) stk.fillTheInode).2
  { filename := (dName blkBuf off).takeWhile (· ≠ 0)
    iBlocks := iBlocks inode
    iSize := iSize inode
    iIno := dInode blkBuf off
    iMode := iMode inode }

/-- `ext2_read_dentry_by_name`: the return value and the entry afterwards. -/
def ext2ReadDentryByName (sb : Super) (d : Disk) (stk : Stack) (fname : List UInt8) (inode : Buf)
    (dentry : Dentry) : Option (Int × Dentry) :=
  if iMode inode &&& ext2SIfdir = 0 then some (-1, dentry)
  else
    match searchLoop d inode fname 0 0 0 with
    | none => none
    | some .notFound => some (0, dentry)
    | some (.found blk off _) =>
        let blkBuf := ext2ReadBlock d (iBlock inode blk)
        some (dNameLen blkBuf off, ext2FillVfsDentry sb d stk blkBuf off)

/-- The loop that steps over records up to a given index: the block and the offset
of the last one, if the blocks do not end before. -/
def indexLoop (d : Disk) (inode : Buf) : Nat → Nat → Nat → Option (Nat × Nat)
  | n, blkIdx, dirOff =>
      if 1024 ≤ dirOff ∧ iBlocks inode ≤ blkIdx + 1 then none
      else
        let blk := (boundary blkIdx dirOff).1
        let off := (boundary blkIdx dirOff).2
        match n with
        | 0 => some (blk, off)
        | n + 1 => indexLoop d inode n blk (off + dRecLen (ext2ReadBlock d (iBlock inode blk)) off)

/-- `ext2_read_dentry_by_index`: the return value and the entry afterwards. -/
def ext2ReadDentryByIndex (sb : Super) (d : Disk) (stk : Stack) (idx : Nat) (inode : Buf)
    (dentry : Dentry) : Int × Dentry :=
  match indexLoop d inode idx 0 0 with
  | none => (0, dentry)
  | some (blk, off) =>
      let blkBuf := ext2ReadBlock d (iBlock inode blk)
      (dNameLen blkBuf off, ext2FillVfsDentry sb d stk blkBuf off)

/-! ## Insertion -/

/-- What the insertion loop has decided when it is left: `blkno`, the contents of
`blk_buf`, `dir_off`, `prev_true_rec_len`, and the inode of the directory and the
device so far. -/
structure Slot where
  blkno : Nat
  blkBuf : Buf
  dirOff : Nat
  prevTrueRecLen : Nat
  inode : Buf
  disk : Disk

/-- The insertion loop, for a name that takes `dFnameLen` bytes.  It is left
without a decision when it has gone through twelve blocks. -/
def insertLoop (dFnameLen : Nat) (blkIdx dirOff : Nat) (inode : Buf) (d : Disk) : Option Slot :=
  if blkIdx < 12 then
    if 1024 ≤ dirOff ∧ iBlocks inode ≤ blkIdx + 1 then
      match ext2AllocIblock d inode with
      | none => none
      | some (_, inode, d) =>
          let blkno := iBlock inode (blkIdx + 1)
          some ⟨blkno, setDRecLen (ext2ReadBlock d blkno) 0 blocksize, 0, 0,
            setISize inode (iSize inode + blocksize), d⟩
    else
      match (if 1024 ≤ dirOff ∧ iBlock inode (blkIdx + 1) = 0 then
        (ext2AllocIblock d (setIBlocks inode (blkIdx + 1))).map Prod.snd
      else some (inode, d)) with
      | none => none
      | some (inode, d) =>
          let blk := (boundary blkIdx dirOff).1
          let off := (boundary blkIdx dirOff).2
          let blkno := iBlock inode blk
          let blkBuf := ext2ReadBlock d blkno
          if dFileType blkBuf off = 0 then
            some ⟨blkno, setDRecLen blkBuf off (blocksize - off), off, 0, inode, d⟩
          else if padded (dNameLen blkBuf off) + 8 + dFnameLen + 8 < dRecLen blkBuf off then
            some ⟨blkno, blkBuf, off, padded (dNameLen blkBuf off) + 8, inode, d⟩
          else if dRecLen blkBuf off = 0 then none
          else insertLoop dFnameLen blk (off + dRecLen blkBuf off) inode d
  else none
termination_by (13 - blkIdx, 1024 - dirOff)
decreasing_by
  rename_i hin _ _ _ hlen
  exact boundary_decreases hin hlen

/-- The block with the new record in the slot. -/
def writeRecord (slot : Slot) (ino iMode : Nat) (name : List UInt8) : Buf :=
  let prevRecLen := dRecLen slot.blkBuf slot.dirOff
  let blkBuf := setDRecLen slot.blkBuf slot.dirOff slot.prevTrueRecLen
  putRecord blkBuf (slot.dirOff + slot.prevTrueRecLen) ino (prevRecLen - slot.prevTrueRecLen)
    (imodeToFt iMode) name

/-- `ext2_insert_dentry`: the return value, the inode of the directory and the
device afterwards. -/
def ext2InsertDentry (sb : Super) (d : Disk) (stk : Stack) (dentry : Dentry) (inode : Buf) :
    Option (Int × Buf × Disk) :=
  let name := dentry.filename.take fnameLen
  match insertLoop (padded name.length) 0 0 inode d with
  | none => none
  | some slot =>
      let d := ext2WriteBlock slot.disk slot.blkno (writeRecord slot dentry.iIno dentry.iMode name)
      let theInode := setIBlocks (setISize (setIMode stk.insertTheInode dentry.iMode) dentry.iSize)
        dentry.iBlocks
      match ext2AllocInode sb d dentry.iIno theInode 0 with
      | none => none
      | some (_, d) => some (0, slot.inode, d)

/-! ## Removal -/

/-- The name of a directory in itself. -/
def dot : List UInt8 := [46]

/-- The name of the parent of a directory. -/
def dotDot : List UInt8 := [46, 46]

/-- The loop of `ext2_is_ancestor` with a bound on its passes: whether it met the
number, and the inode it went through. -/
def ancestorLoop (sb : Super) (d : Disk) (stk : Stack) (thatIno : Nat) :
    Nat → Dentry → Buf → Option (Bool × Buf)
  | 0, _, _ => none
  | fuel + 1, dThis, iTrav =>
      if dThis.iIno = ext2RootIno then some (false, iTrav)
      else if dThis.iIno = thatIno then some (true, iTrav)
      else
        match ext2ReadDentryByName sb d stk dotDot iTrav dThis with
        | none => none
        | some (_, dThis) =>
            ancestorLoop sb d stk thatIno fuel dThis (ext2ReadInode sb d dThis.iIno iTrav).2

/-- `ext2_is_ancestor`: the answer, and the second inode afterwards. -/
def ext2IsAncestor (sb : Super) (d : Disk) (stk : Stack) (fuel : Nat) (that this : Buf) :
    Option (Bool × Buf) :=
  match ext2ReadDentryByName sb d stk dot that stk.ancestorThat,
    ext2ReadDentryByName sb d stk dot this stk.ancestorThis with
  | some (_, dThat), some (_, dThis) => ancestorLoop sb d stk dThat.iIno fuel dThis this
  | _, _ => none

/-- The part of `ext2_remove_dentry` for a record of a directory: whether the
removal goes on, the inode of the parent and the device afterwards. -/
def removeDirectory (sb : Super) (d : Disk) (stk : Stack) (fuel : Nat) (ino : Nat) (inode : Buf) :
    Option (Bool × Buf × Disk) :=
  let rmDir := (ext2ReadInode sb d ino stk.removeRmDir).2
  if (ext2ReadDentryByIndex sb d stk 2 rmDir stk.ancestorThat).1 ≠ 0 then some (false, inode, d)
  else
    match ext2IsAncestor sb d stk fuel rmDir inode with
    | none => none
    | some (true, inode) => some (false, inode, d)
    | some (false, inode) => some (true, inode, releaseBlkno d (iBlock rmDir 0))

/-- The loop that releases the blocks of a removed file. -/
def releaseBlocks (inode : Buf) (d : Disk) : Disk :=
  (List.range (min (iBlocks inode) 12)).foldl (fun d i => releaseBlkno d (iBlock inode i)) d

/-- The first record of a block replaced by its successor. -/
def replaceFirst (blkBuf : Buf) : Buf :=
  let recLen := dRecLen blkBuf 0
  let b := setDInode blkBuf 0 (dInode blkBuf recLen)
  let b := setDFileType b 0 (dFileType b recLen)
  let b := setDNameLen b 0 (dNameLen b recLen)
  let b := setDRecLen b 0 (recLen + dRecLen b recLen)
  strncpyWithin b 8 (recLen + 8) (dNameLen b recLen)

/-- A record annexed by the one before it. -/
def annex (blkBuf : Buf) (dirOff swpOff : Nat) : Buf :=
  setDRecLen blkBuf swpOff (dRecLen blkBuf dirOff + dRecLen blkBuf swpOff)

/-- `ext2_remove_dentry`: the return value, the inode of the directory and the
device afterwards. -/
def ext2RemoveDentry (sb : Super) (d : Disk) (stk : Stack) (fuel : Nat) (fname : List UInt8)
    (inode : Buf) : Option (Int × Buf × Disk) :=
  if iMode inode &&& ext2SIfdir = 0 then some (-1, inode, d)
  else
    match searchLoop d inode fname 0 0 0 with
    | none => none
    | some .notFound => some (-1, inode, d)
    | some (.found blk off swp) =>
        let blkno := iBlock inode blk
        let blkBuf := ext2ReadBlock d blkno
        let ino := dInode blkBuf off
        match (if dFileType blkBuf off = ext2FtDir then removeDirectory sb d stk fuel ino inode
          else some (true, inode, d)) with
        | none => none
        | some (false, inode, d) => some (-1, inode, d)
        | some (true, inode, d) =>
            let d := releaseBlocks (ext2ReadInode sb d ino stk.removeTheInode).2 d
            let d := releaseIno d ino
            if off = 0 ∧ dRecLen blkBuf off ≠ blocksize then
              some (0, inode, ext2WriteBlock d blkno (replaceFirst blkBuf))
            else if off = 0 then
              let last := (iBlocks inode + 2 ^ 32 - 1) % 2 ^ 32
              some (0, setIBlocks (setIBlock inode last 0) last,
                ext2WriteBlock (releaseBlkno d blkno) blkno blkBuf)
            else some (0, inode, ext2WriteBlock d blkno (annex blkBuf off swp))

/-! ## Inode operations -/

/-- `ilookup`: the return value and the entry afterwards. -/
def ilookup (sb : Super) (d : Disk) (stk : Stack) (self : Nat) (dentry : Dentry)
    (fname : List UInt8) : Option (Int × Dentry) :=
  let inode := (ext2ReadInode sb d self stk.lookupInode).2
  match ext2ReadDentryByName sb d stk fname inode dentry with
  | none => none
  | some (res, dentry) => some (if 0 ≥ res then -1 else 0, dentry)

/-- `icreate`: the return value, the entry and the device afterwards. -/
def icreate (sb : Super) (d : Disk) (stk : Stack) (self : Nat) (dentry : Dentry) (mode : Nat) :
    Option (Int × Dentry × Disk) :=
  let inode := (ext2ReadInode sb d self stk.createInode).2
  if dentry.filename = [] then some (-1, dentry, d)
  else
    match ext2ReadDentryByName sb d stk dentry.filename inode stk.createTempDent with
    | none => none
    | some (res, _) =>
        if res ≠ 0 then some (-1, dentry, d)
        else
          match nextFreeIno d with
          | none => none
          | some (ino, d) =>
              let dentry := { dentry with iMode := mode, iSize := 0, iBlocks := 0, iIno := ino }
              match ext2InsertDentry sb d stk dentry inode with
              | none => none
              | some (res, _, d) => some (res, dentry, d)

/-- `iremove`: the return value and the device afterwards. -/
def iremove (sb : Super) (d : Disk) (stk : Stack) (fuel : Nat) (self : Nat)
    (fname : List UInt8) : Option (Int × Disk) :=
  let inode := (ext2ReadInode sb d self stk.removeInode).2
  match ext2RemoveDentry sb d stk fuel fname inode with
  | none => none
  | some (res, _, d) => some (res, d)

/-- `imkdir`: the return value and the device afterwards. -/
def imkdir (sb : Super) (d : Disk) (stk : Stack) (self : Nat) (dirname : List UInt8) :
    Option (Int × Disk) :=
  match icreate sb d stk self { stk.mkdirDent with filename := dirname } 0x41FF with
  | none => none
  | some (_, dent, d) =>
      let dirIno := dent.iIno
      let dirInode := (ext2ReadInode sb d dirIno stk.mkdirDirInode).2
      match ext2AllocIblock d dirInode with
      | none => none
      | some (_, dirInode, d) =>
          let dirInode := setIMode (setISize dirInode blocksize) dent.iMode
          let d := (ext2WriteInode sb d dirIno dirInode).2
          let thisDir := putRecord stk.mkdirThisDir 0 dirIno 12 ext2FtDir dot
          let d := ext2WriteBlock d (iBlock dirInode 0) thisDir
          let parentDir := putRecord stk.mkdirParentDir 0 self 12 ext2FtDir dotDot
          let d := ext2WriteBlockBytes d (iBlock dirInode 0) parentDir 0 12 12
          some (0, d)

end Ext2
end NochOS
