import NochOS.Ext2.Append
import NochOS.Ext2.Listing
import NochOS.Process.Descriptors

/-!
# ext2 - seeks

`file_fseek` takes the end of the file from the inode that was copied when the file was
opened, and the current position from a local variable that nothing has written.  Its
upper bound is compared without a sign, and its lower bound with one.  This module follows
an open file through reads, writes and seeks, and says which seeks come out right.

Main results:

- Definitions `fileFseek`, `runCalls`: a seek, and a history of an open file.
- Theorem `runCalls_keeps`: the copied inode stays, whatever the history.
- Theorem `seek_follows_iff`: the seeks that follow the file.
-/

namespace NochOS
namespace Ext2

open Library

/-! ## Seeks -/

/-- `file_fseek`: the return value and the open file.  `pos` is the local variable before it
is assigned. -/
def fileFseek (self : File) (offset whence pos : BitVec 32) : Int × File :=
  let pos : Option (BitVec 32) :=
    if whence = 1 then some 0
    else if whence = 2 then some pos
    else if whence = 3 then some (BitVec.ofNat 32 self.iSize)
    else none
  match pos with
  | none => (-1, self)
  | some pos =>
      if self.iSize < (pos + offset).toNat then (-1, self)
      else if (pos + offset).toInt < 0 then (-1, self)
      else (0, { self with fPos := (pos + offset).toNat })

/-- The fields of an open file of a process that the data path uses. -/
def dataOf (self : Process.File) : File :=
  ⟨self.inode.iMode, self.inode.iIno, self.inode.iSize, self.fPos⟩

/-- It is the operation that `sys_seek` calls for a descriptor of a file. -/
theorem fileFseek_dataOf (args : Process.Args) (io : Process.Answer) (self : Process.File) :
    ((Process.fileFseek args io self).1, dataOf (Process.fileFseek args io self).2) =
      fileFseek (dataOf self) args.offset args.whence io.pos := by
  have hsize : (dataOf self).iSize = self.inode.iSize := rfl
  rw [Process.fileFseek, fileFseek, hsize]
  generalize (if args.whence = 1 then some 0 else if args.whence = 2 then some io.pos
    else if args.whence = 3 then some (BitVec.ofNat 32 self.inode.iSize) else none) = base
  cases base with
  | none => rfl
  | some pos =>
      dsimp only
      by_cases hupper : self.inode.iSize < (pos + args.offset).toNat
      · rw [if_pos hupper, if_pos hupper]
      · rw [if_neg hupper, if_neg hupper]
        by_cases hlower : (pos + args.offset).toInt < 0
        · rw [if_pos hlower, if_pos hlower]
        · rw [if_neg hlower, if_neg hlower]
          rfl

/-- Where a seek starts, by the size and the position. -/
def seekBase (size fPos : Nat) (whence : BitVec 32) : Option Nat :=
  if whence = 1 then some 0 else if whence = 2 then some fPos else if whence = 3 then some size
  else none

/-- What is asked of a seek, of its return value and the position afterwards: it succeeds
exactly when it leads into the file, and goes there. -/
def SeekFollows (size : Nat) (self : File) (offset whence : BitVec 32) (r : Int × File) : Prop :=
  match seekBase size self.fPos whence with
  | none => r = (-1, self)
  | some base =>
      (r.1 = 0 ↔ 0 ≤ base + offset.toInt ∧ base + offset.toInt ≤ size) ∧
      (r.1 = 0 → (r.2.fPos : Int) = base + offset.toInt) ∧
      (r.1 ≠ 0 → r.1 = -1 ∧ r.2.fPos = self.fPos)

/-- The base `used` of the code leads where the base leads: into the part of the file that
the copied size and the sign of the sum admit, or, together with the base, to nowhere. -/
def BaseLeads (copied size base used : Nat) (offset : Int) : Prop :=
  if 0 ≤ base + offset ∧ base + offset ≤ size then
    used = base ∧ base + offset ≤ copied ∧ base + offset < 2 ^ 31
  else copied < (used + offset) % 2 ^ 32 ∨ 2 ^ 31 ≤ (used + offset) % 2 ^ 32

/-- The seeks that come out right: the copied size and the local variable take the place of
the size and of the position. -/
def SeekMeets (copied size fPos : Nat) (offset whence pos : BitVec 32) : Prop :=
  ∀ base used, seekBase size fPos whence = some base →
    seekBase copied pos.toNat whence = some used →
    BaseLeads copied size base used offset.toInt

section Sums

variable {self : File} {offset whence pos : BitVec 32}

/-- The sum of the code, with a sign in the offset. -/
theorem toNat_add_eq (pos offset : BitVec 32) :
    ((pos + offset).toNat : Int) = (pos.toNat + offset.toInt) % 2 ^ 32 := by
  rw [BitVec.toNat_add, BitVec.toInt_eq_toNat_cond]
  split
  · norm_num
  · push_cast
    omega

theorem toInt_neg_iff (x : BitVec 32) : x.toInt < 0 ↔ 2 ^ 31 ≤ x.toNat := by
  have hlt := x.isLt
  rw [BitVec.toInt_eq_toNat_cond]
  split
  · omega
  · omega

/-- What a seek does from the value of `pos` on. -/
theorem bounds_eq (self : File) (pos offset : BitVec 32) :
    (if self.iSize < (pos + offset).toNat then ((-1 : Int), self)
      else if (pos + offset).toInt < 0 then (-1, self)
      else (0, { self with fPos := (pos + offset).toNat })) =
      if (self.iSize : Int) < (pos.toNat + offset.toInt) % 2 ^ 32 ∨
          2 ^ 31 ≤ (pos.toNat + offset.toInt) % 2 ^ 32 then (-1, self)
      else (0, { self with fPos := ((pos.toNat + offset.toInt) % 2 ^ 32).toNat }) := by
  rw [← toNat_add_eq, Int.toNat_natCast]
  have hsign : (pos + offset).toInt < 0 ↔ (2 ^ 31 : Int) ≤ ((pos + offset).toNat : Int) := by
    rw [toInt_neg_iff]
    norm_cast
  simp only [hsign, Int.ofNat_lt]
  by_cases hupper : self.iSize < (pos + offset).toNat
  · rw [if_pos hupper, if_pos (Or.inl hupper)]
  · by_cases hlower : (2 ^ 31 : Int) ≤ ((pos + offset).toNat : Int)
    · rw [if_neg hupper, if_pos hlower, if_pos (Or.inr hlower)]
    · rw [if_neg hupper, if_neg hlower, if_neg (not_or.mpr ⟨hupper, hlower⟩)]

/-- What a seek does, by the base that the code uses. -/
theorem fileFseek_eq (hsize : self.iSize < 2 ^ 32) :
    fileFseek self offset whence pos =
      match seekBase self.iSize pos.toNat whence with
      | none => (-1, self)
      | some used =>
          if (self.iSize : Int) < (used + offset.toInt) % 2 ^ 32 ∨
              2 ^ 31 ≤ (used + offset.toInt) % 2 ^ 32 then (-1, self)
          else (0, { self with fPos := ((used + offset.toInt) % 2 ^ 32).toNat }) := by
  simp only [fileFseek, seekBase]
  by_cases hset : whence = 1
  · simpa [hset] using bounds_eq self 0 offset
  · by_cases hcur : whence = 2
    · simpa [hset, hcur] using bounds_eq self pos offset
    · by_cases hend : whence = 3
      · have hmod : self.iSize % 2 ^ 32 = self.iSize := Nat.mod_eq_of_lt hsize
        have hcopied := bounds_eq self (BitVec.ofNat 32 self.iSize) offset
        rw [BitVec.toNat_ofNat, hmod] at hcopied
        simpa [hset, hcur, hend] using hcopied
      · simp only [if_neg hset, if_neg hcur, if_neg hend]

/-- A seek with a base follows the file exactly when the base of the code leads where the base
leads. -/
theorem baseLeads_iff {size base used : Nat} (hbase : base < 2 ^ 32)
    (hused : used < 2 ^ 32) (offset : Int) (r : Int × File)
    (hr : r = if (self.iSize : Int) < (used + offset) % 2 ^ 32 ∨
        2 ^ 31 ≤ (used + offset) % 2 ^ 32 then (-1, self)
      else (0, { self with fPos := ((used + offset) % 2 ^ 32).toNat })) :
    ((r.1 = 0 ↔ 0 ≤ base + offset ∧ base + offset ≤ size) ∧
      (r.1 = 0 → (r.2.fPos : Int) = base + offset) ∧
      (r.1 ≠ 0 → r.1 = -1 ∧ r.2.fPos = self.fPos)) ↔
    BaseLeads self.iSize size base used offset := by
  unfold BaseLeads
  by_cases hrejected : (self.iSize : Int) < (used + offset) % 2 ^ 32 ∨
      2 ^ 31 ≤ (used + offset) % 2 ^ 32
  · rw [if_pos hrejected] at hr
    subst hr
    by_cases hinside : 0 ≤ base + offset ∧ base + offset ≤ size
    · rw [if_pos hinside]
      simp only [hinside]
      constructor
      · rintro ⟨hret, -⟩
        exact absurd (hret.mpr ⟨trivial, trivial⟩) (by simp)
      · rintro ⟨rfl, hcopied, hsign⟩
        omega
    · rw [if_neg hinside]
      simp only [hinside, iff_false]
      exact ⟨fun _ => hrejected, fun _ => ⟨by simp, by simp, fun _ => ⟨trivial, trivial⟩⟩⟩
  · rw [if_neg hrejected] at hr
    subst hr
    by_cases hinside : 0 ≤ base + offset ∧ base + offset ≤ size
    · rw [if_pos hinside]
      simp only [hinside]
      constructor
      · rintro ⟨-, hpos, -⟩
        have htarget := hpos trivial
        omega
      · rintro ⟨rfl, hcopied, hsign⟩
        refine ⟨by simp, fun _ => ?_, fun h => absurd rfl h⟩
        omega
    · rw [if_neg hinside]
      simp only [hinside, iff_false]
      exact ⟨fun h => absurd trivial h.1, fun h => absurd h hrejected⟩

theorem seekBase_lt {size fPos : Nat} (hsize : size < 2 ^ 32) (hpos : fPos < 2 ^ 32)
    {whence : BitVec 32} {base : Nat} (h : seekBase size fPos whence = some base) :
    base < 2 ^ 32 := by
  unfold seekBase at h
  split at h
  · obtain rfl := Option.some.inj h
    decide
  · split at h
    · obtain rfl := Option.some.inj h
      exact hpos
    · split at h
      · obtain rfl := Option.some.inj h
        exact hsize
      · exact absurd h (by simp)

/-- Whether there is a base depends on `whence` only. -/
theorem seekBase_none {size fPos size' fPos' : Nat} {whence : BitVec 32}
    (h : seekBase size fPos whence = none) : seekBase size' fPos' whence = none := by
  unfold seekBase at h ⊢
  split_ifs at h ⊢
  rfl

/-- A seek follows the file exactly when the base of the code leads where the base leads. -/
theorem fileFseek_follows_iff {size : Nat} (hself : self.iSize < 2 ^ 32) (hsize : size < 2 ^ 32)
    (hpos : self.fPos < 2 ^ 32) :
    SeekFollows size self offset whence (fileFseek self offset whence pos) ↔
      SeekMeets self.iSize size self.fPos offset whence pos := by
  have heq : fileFseek self offset whence pos = _ := fileFseek_eq hself
  unfold SeekFollows SeekMeets
  cases hbase : seekBase size self.fPos whence with
  | none =>
      rw [seekBase_none hbase] at heq
      simp [heq]
  | some base =>
      cases hused : seekBase self.iSize pos.toNat whence with
      | none => exact absurd (hbase.symm.trans (seekBase_none hused)) (by simp)
      | some used =>
          rw [hused] at heq
          have hiff := @baseLeads_iff self size _ _ (seekBase_lt hsize hpos hbase)
            (seekBase_lt hself pos.isLt hused) offset.toInt _ heq
          refine hiff.trans ⟨fun h base' used' hb hu => ?_, fun h => h base used rfl rfl⟩
          rw [← Option.some.inj hb, ← Option.some.inj hu]
          exact h

end Sums

/-! ## Histories of an open file -/

/-- A call on the open file, with the local variables before they are written. -/
inductive FileCall where
  | read (inode buf : Buf) (nbytes : Nat)
  | write (inode buf : Buf) (nbytes : Nat)
  | seek (offset whence pos : BitVec 32)

/-- The device and the open file after a call. -/
def runCall (sb : Super) (s : Disk × File) : FileCall → Option (Disk × File)
  | .read inode buf nbytes => some (s.1, (fileFread sb s.1 s.2 inode buf nbytes).2.2)
  | .write inode buf nbytes => fileFwrite sb s.1 s.2 inode buf nbytes
  | .seek offset whence pos => some (s.1, (fileFseek s.2 offset whence pos).2)

/-- The device and the open file after a history. -/
def runCalls (sb : Super) (s : Disk × File) : List FileCall → Option (Disk × File)
  | [] => some s
  | c :: cs => (runCall sb s c).bind fun s' => runCalls sb s' cs

/-- The size of the file on the device. -/
def sizeOf (sb : Super) (d : Disk) (ino : Nat) : Nat := iSize (diskInode sb d ino)

/-- The open file that `file_fopen` fills in for an inode. -/
def opened (sb : Super) (d : Disk) (ino : Nat) : File :=
  ⟨iMode (diskInode sb d ino), ino, sizeOf sb d ino, 0⟩

section Histories

variable {sb : Super} {s s' : Disk × File}

/-- A call leaves the copied inode alone, and the position is a 32-bit number. -/
theorem runCall_keeps {c : FileCall} (hpos : s.2.fPos < 2 ^ 32) (h : runCall sb s c = some s') :
    s'.2.iSize = s.2.iSize ∧ s'.2.iIno = s.2.iIno ∧ s'.2.fPos < 2 ^ 32 := by
  cases c with
  | read inode buf nbytes =>
      obtain rfl := Option.some.inj h
      simp only [fileFread]
      split
      · exact ⟨rfl, rfl, hpos⟩
      · split
        · exact ⟨rfl, rfl, hpos⟩
        · exact ⟨rfl, rfl, Nat.mod_lt _ (by decide)⟩
  | write inode buf nbytes =>
      simp only [runCall, fileFwrite] at h
      split at h
      · exact absurd h (by simp)
      · obtain rfl := Option.some.inj h
        exact ⟨rfl, rfl, Nat.mod_lt _ (by decide)⟩
  | seek offset whence pos =>
      obtain rfl := Option.some.inj h
      simp only [fileFseek]
      split
      · exact ⟨rfl, rfl, hpos⟩
      · split
        · exact ⟨rfl, rfl, hpos⟩
        · split
          · exact ⟨rfl, rfl, hpos⟩
          · exact ⟨rfl, rfl, BitVec.isLt _⟩

/-- So does every history. -/
theorem runCalls_keeps {cs : List FileCall} (hpos : s.2.fPos < 2 ^ 32)
    (h : runCalls sb s cs = some s') :
    s'.2.iSize = s.2.iSize ∧ s'.2.iIno = s.2.iIno ∧ s'.2.fPos < 2 ^ 32 := by
  induction cs generalizing s with
  | nil =>
      obtain rfl := Option.some.inj h
      exact ⟨rfl, rfl, hpos⟩
  | cons c cs ih =>
      obtain ⟨s₁, hcall, hrest⟩ := Option.bind_eq_some_iff.mp h
      obtain ⟨hsize₁, hino₁, hpos₁⟩ := runCall_keeps hpos hcall
      obtain ⟨hsize, hino, hpos'⟩ := ih hpos₁ hrest
      exact ⟨hsize.trans hsize₁, hino.trans hino₁, hpos'⟩

theorem sizeOf_lt (sb : Super) (d : Disk) (ino : Nat) : sizeOf sb d ino < 2 ^ 32 :=
  u32At_lt _ _

/-- After any history of an open file, a seek follows the file exactly when the size at the
time of the opening and the local variable lead where the size and the position lead. -/
theorem seek_follows_iff {d : Disk} {ino : Nat} {calls : List FileCall}
    (hrun : runCalls sb (d, opened sb d ino) calls = some s') (offset whence pos : BitVec 32) :
    SeekFollows (sizeOf sb s'.1 ino) s'.2 offset whence (fileFseek s'.2 offset whence pos) ↔
      SeekMeets (sizeOf sb d ino) (sizeOf sb s'.1 ino) s'.2.fPos offset whence pos := by
  obtain ⟨hsize, -, hpos⟩ := runCalls_keeps (by decide : (0 : Nat) < 2 ^ 32) hrun
  have hlt : s'.2.iSize < 2 ^ 32 := hsize ▸ sizeOf_lt sb d ino
  rw [fileFseek_follows_iff hlt (sizeOf_lt sb s'.1 ino) hpos, hsize]
  rfl

/-- While the size is the one of the opening, in a file below 2 GiB, the seeks whose local
variable holds the position come out right. -/
theorem seekMeets_fresh {size fPos : Nat} (hsize : size < 2 ^ 31) (hle : fPos ≤ size)
    (offset whence : BitVec 32) {pos : BitVec 32} (hpos : pos.toNat = fPos) :
    SeekMeets size size fPos offset whence pos := by
  intro base used hbase hused
  rw [hpos, hbase] at hused
  obtain rfl := Option.some.inj hused
  have hbound : base ≤ size := by
    unfold seekBase at hbase
    split_ifs at hbase
    · obtain rfl := Option.some.inj hbase
      exact Nat.zero_le _
    · obtain rfl := Option.some.inj hbase
      exact hle
    · obtain rfl := Option.some.inj hbase
      exact le_rfl
  have hlow : -2 ^ 31 ≤ offset.toInt := BitVec.le_toInt offset
  have hhigh : offset.toInt < 2 ^ 31 := BitVec.toInt_lt
  unfold BaseLeads
  split
  · next hinside => exact ⟨rfl, hinside.2, by omega⟩
  · next hinside => omega

end Histories

/-! ## A file that a write has cut -/

section Example

/-- The size of a file of the image. -/
theorem sizeOf_view {g : Geometry} {d : Disk} (hd : OnDisk g d) {ino : Nat}
    (hown : Owns g (view g d) ino) : sizeOf g.sb d ino = (view g d).fileSize ino := by
  rw [sizeOf, diskInode, readInode_eq hd hown.valid hown.used]
  rfl

/-- The first of the two files, after three bytes have been written. -/
def cutFile : File := { opened smallGroup.sb twoFilesDisk 12 with fPos := 3 }

theorem iSize_cutFile : cutFile.iSize = 1022 := by
  have hown := files_twoFiles.owns 12 (Or.inl rfl)
  exact (sizeOf_view onDisk_twoFiles hown).trans fileSize_twoFiles.1

/-- A write of three bytes to the first of the two files. -/
theorem runCalls_cut :
    ∃ d', runCalls smallGroup.sb (twoFilesDisk, opened smallGroup.sb twoFilesDisk 12)
        [.write (fun _ => 0) (fun _ => 65) 3] = some (d', cutFile) ∧
      sizeOf smallGroup.sb d' 12 = 3 := by
  have hroom : blocksFor (0 + 3) - blocksFor ((view smallGroup twoFilesDisk).fileSize 12) ≤
      (view smallGroup twoFilesDisk).freeBlocks.card := by
    rw [fileSize_twoFiles.1]
    exact (show blocksFor (0 + 3) - blocksFor 1022 ≤ 2 by decide).trans two_le_freeBlocks
  obtain ⟨d', self', hwrite, hsize, -⟩ := fileFwrite_cuts onDisk_twoFiles files_twoFiles
    (opened smallGroup.sb twoFilesDisk 12) (fun _ => 0) (fun _ => 65) 3 (Or.inl rfl)
    (Nat.zero_le _) (by decide) hroom
  have hself : self' = cutFile := (fileFwrite_spec onDisk_twoFiles files_twoFiles.metaUsed
    (files_twoFiles.owns 12 (Or.inl rfl)) (by decide) hwrite).2.1
  have hfirst : (opened smallGroup.sb twoFilesDisk 12).iIno = 12 ∨
      (opened smallGroup.sb twoFilesDisk 12).iIno = 13 := Or.inl rfl
  obtain ⟨hd', hfiles, -⟩ := files_twoFiles.fileFwrite onDisk_twoFiles hfirst (Nat.zero_le _)
    (by decide) hwrite
  refine ⟨d', ?_, (sizeOf_view hd' (hfiles.owns 12 (Or.inl rfl))).trans hsize⟩
  simp only [runCalls, runCall, hwrite, Option.bind_some, hself]

/-- `seek_follows_iff` for a seek to the second byte of that file. -/
theorem seek_follows_iff_cut :
    ∃ d', SeekFollows (sizeOf smallGroup.sb d' 12) cutFile 1 1 (fileFseek cutFile 1 1 0) ↔
      SeekMeets (sizeOf smallGroup.sb twoFilesDisk 12) (sizeOf smallGroup.sb d' 12) cutFile.fPos
        1 1 0 := by
  obtain ⟨d', hrun, -⟩ := runCalls_cut
  exact ⟨d', seek_follows_iff hrun 1 1 0⟩

/-- After the write the file ends at 3.  A seek to its end leads to 1022, and a seek from the
current position leads to what the local variable holds. -/
theorem seek_astray :
    ∃ d', runCalls smallGroup.sb (twoFilesDisk, opened smallGroup.sb twoFilesDisk 12)
        [.write (fun _ => 0) (fun _ => 65) 3] = some (d', cutFile) ∧
      (∀ pos, fileFseek cutFile 0 3 pos = (0, { cutFile with fPos := 1022 })) ∧
      (∀ pos, ¬ SeekFollows (sizeOf smallGroup.sb d' 12) cutFile 0 3
        (fileFseek cutFile 0 3 pos)) ∧
      fileFseek cutFile 0 2 1 = (0, { cutFile with fPos := 1 }) ∧
      ¬ SeekFollows (sizeOf smallGroup.sb d' 12) cutFile 0 2 (fileFseek cutFile 0 2 1) := by
  obtain ⟨d', hrun, hsize⟩ := runCalls_cut
  have hend : ∀ pos, fileFseek cutFile 0 3 pos = (0, { cutFile with fPos := 1022 }) := by
    intro pos
    simp [fileFseek, iSize_cutFile]
  have hcur : fileFseek cutFile 0 2 1 = (0, { cutFile with fPos := 1 }) := by
    simp [fileFseek, iSize_cutFile]
  refine ⟨d', hrun, hend, fun pos hfollows => ?_, hcur, fun hfollows => ?_⟩
  · rw [hend, hsize] at hfollows
    have hpos := hfollows.2.1 rfl
    simp at hpos
  · rw [hcur, hsize] at hfollows
    have hpos := hfollows.2.1 rfl
    simp [cutFile] at hpos

end Example

end Ext2
end NochOS
