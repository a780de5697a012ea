import NochOS.Ext2.Format

/-!
# ext2 - files beyond the direct blocks

The data of a large file goes on in blocks that the block `i_block[12]` lists.
This module compares reads of such files with their contents.  A read that leaves
the direct blocks goes wrong in several ways: every piece is copied to the start
of the destination, the size that is left is computed with the size of the direct
blocks taken off twice, a read that starts in the direct blocks forgets to count
what it took from them, and a length that wraps round sends the read down the
direct path.

Main results:

- Theorems `ext2ReadIndirect_fst`, `ext2ReadIndirect_one`,
  `ext2ReadIndirect_last`: what the indirect path delivers.
- Theorem `readsRight_iff`: the reads that deliver the contents.
- Theorem `read_across_boundary`: a read that does not.
-/

namespace NochOS
namespace Ext2

open Library

/-! ## Contents of a large file -/

/-- The block that holds a block of a file. -/
def fileBlock (d : Disk) (inode : Buf) (k : Nat) : Nat :=
  if k < 12 then iBlock inode k else u32At (ext2ReadBlock d (iBlock inode 12)) (4 * (k - 12))

/-- The byte at a position of a large file. -/
def largeByte (d : Disk) (inode : Buf) (pos : Nat) : UInt8 := blockByte d (fileBlock d inode) pos

/-- A regular file in an image whose first 12 data blocks are direct and whose
remaining ones are listed in `i_block[12]`; the blocks are different data blocks. -/
structure LargeFile (g : Geometry) (d : Disk) (ino : Nat) : Prop where
  onDisk : OnDisk g d
  valid : g.ValidIno ino
  used : (view g d).inodeUsed ino = true
  regular : iMode ((view g d).inode ino) &&& ext2SIfreg ≠ 0
  size : iSize ((view g d).inode ino) ≤ (12 + 256) * blocksize
  data : ∀ k, k * blocksize < iSize ((view g d).inode ino) →
    g.IsData (fileBlock d ((view g d).inode ino) k)
  inj : ∀ j k, j * blocksize < iSize ((view g d).inode ino) →
    k * blocksize < iSize ((view g d).inode ino) →
    fileBlock d ((view g d).inode ino) j = fileBlock d ((view g d).inode ino) k → j = k
  list : 12 * blocksize < iSize ((view g d).inode ino) →
    g.IsData (iBlock ((view g d).inode ino) 12) ∧
      ∀ k, k * blocksize < iSize ((view g d).inode ino) →
        fileBlock d ((view g d).inode ino) k ≠ iBlock ((view g d).inode ino) 12

/-! ## The two paths -/

/-- A position in the direct blocks. -/
theorem fileByte_eq_largeByte (d : Disk) (inode : Buf) {pos : Nat} (h : pos < 12 * blocksize) :
    fileByte d inode pos = largeByte d inode pos := by
  have hblk : pos / blocksize < 12 := Nat.div_lt_of_lt_mul (by rwa [Nat.mul_comm] at h)
  simp only [fileByte, largeByte, blockByte, fileBlock, if_pos hblk]

theorem len_le_totalSize {c : Chunk} {cs : List Chunk} (h : c ∈ cs) : c.len ≤ totalSize cs := by
  induction cs with
  | nil => exact absurd h List.not_mem_nil
  | cons c' cs ih =>
      rw [totalSize, List.map_cons, List.sum_cons]
      rcases List.mem_cons.mp h with rfl | h
      · exact Nat.le_add_right _ _
      · exact (ih h).trans (Nat.le_add_left _ _)

/-- A transfer of several pieces has no piece as long as the whole. -/
theorem len_lt_of_mem_chunks {iblkno : Nat} {bufOff : Fin blocksize} {total rmnSize nbytes : Nat}
    (hlong : blocksize < bufOff + min rmnSize nbytes) {c : Chunk}
    (hc : c ∈ chunks iblkno bufOff total rmnSize nbytes) : c.len < min rmnSize nbytes := by
  have hlt := bufOff.isLt
  have htotal := totalSize_chunks iblkno bufOff total rmnSize nbytes
  have hlen := cpyLen_eq bufOff rmnSize nbytes
  obtain ⟨rest, hrest⟩ : ∃ rest, chunks iblkno bufOff total rmnSize nbytes =
      ⟨iblkno, bufOff, total, cpyLen bufOff rmnSize nbytes⟩ :: rest := ⟨_, by rw [chunks]⟩
  rw [hrest, totalSize, List.map_cons, List.sum_cons, hlen] at htotal
  dsimp only at htotal
  rw [hrest, hlen] at hc
  rcases List.mem_cons.mp hc with rfl | hc
  · dsimp only
    omega
  · have hle := len_le_totalSize hc
    rw [totalSize] at hle
    omega

/-- A transfer of one piece. -/
theorem chunks_one {iblkno : Nat} {bufOff : Fin blocksize} {total rmnSize nbytes : Nat}
    (hshort : bufOff + min rmnSize nbytes ≤ blocksize) :
    chunks iblkno bufOff total rmnSize nbytes =
      [⟨iblkno, bufOff, total, min rmnSize nbytes⟩] := by
  have hlt := bufOff.isLt
  have hlen := cpyLen_eq bufOff rmnSize nbytes
  have hmin : cpyLen bufOff rmnSize nbytes = min rmnSize nbytes := by omega
  rw [chunks, hmin, if_pos (by omega)]

/-- Passes that all copy to one place leave the bytes behind the longest piece
alone. -/
theorem foldl_read_same_place (d : Disk) (blk : Nat → Nat) (at_ : Nat) {len : Nat}
    (cs : List Chunk) (hcs : ∀ c ∈ cs, c.len ≤ len) (buf : Buf) {i : Nat} (hi : at_ + len ≤ i) :
    cs.foldl (fun buf c => ext2ReadBlockBytes d (blk c.iblkno) buf at_ c.bufOff c.len) buf i =
      buf i := by
  induction cs generalizing buf with
  | nil => rfl
  | cons c cs ih =>
      have hc := hcs c List.mem_cons_self
      rw [List.foldl_cons, ih (fun c' hc' => hcs c' (List.mem_cons_of_mem _ hc')),
        ext2ReadBlockBytes, memcpy_outside (by omega)]

/-- The size that is left, as the indirect path computes it. -/
def indirectLeft (size offset : Nat) : Nat := (size + 2 * 2 ^ 32 - blocksize * 12 - offset) % 2 ^ 32

/-- The indirect path reports what is asked for and, by its own count, left. -/
theorem ext2ReadIndirect_fst (d : Disk) (inode : Buf) (offset : Nat) (buf : Buf)
    (at_ nbytes : Nat) : (ext2ReadIndirect d inode offset buf at_ nbytes).1 =
      min (indirectLeft (iSize inode) offset) nbytes :=
  totalSize_chunks _ _ _ _ _

/-- The indirect path delivers a range inside one block. -/
theorem ext2ReadIndirect_one (d : Disk) (inode : Buf) {offset : Nat} (buf : Buf) {nbytes : Nat}
    (hlo : 12 * blocksize ≤ offset) (hlt : offset < 2 ^ 32)
    (hleft : nbytes ≤ indirectLeft (iSize inode) offset)
    (hone : (offset - 12 * blocksize) % blocksize + nbytes ≤ blocksize) (i : Nat) :
    (ext2ReadIndirect d inode offset buf 0 nbytes).2 i =
      if i < nbytes then largeByte d inode (offset + i) else buf i := by
  have hidr : (offset + 2 ^ 32 - blocksize * 12) % 2 ^ 32 = offset - 12 * blocksize := by
    unfold blocksize at *
    omega
  have hmin : min (indirectLeft (iSize inode) offset) nbytes = nbytes := Nat.min_eq_right hleft
  have hchunks : chunks ((offset - 12 * blocksize) / blocksize)
      (offsetIn (offset - 12 * blocksize)) 0 (indirectLeft (iSize inode) offset) nbytes =
      [⟨(offset - 12 * blocksize) / blocksize, offsetIn (offset - 12 * blocksize), 0,
        min (indirectLeft (iSize inode) offset) nbytes⟩] := by
    apply chunks_one
    rw [hmin]
    exact hone
  rw [hmin] at hchunks
  unfold indirectLeft at hchunks
  simp only [ext2ReadIndirect, hidr, hchunks, List.foldl_cons, List.foldl_nil]
  rw [ext2ReadBlockBytes, memcpy_apply]
  by_cases hi : i < nbytes
  · -- the block of the position is the one the list names
    have hblk : (offset + i) / blocksize = (offset - 12 * blocksize) / blocksize + 12 := by
      unfold blocksize at *
      omega
    have hoff : (offset + i) % blocksize = (offset - 12 * blocksize) % blocksize + (i - 0) := by
      unfold blocksize at *
      omega
    have hnot : ¬ (offset - 12 * blocksize) / blocksize + 12 < 12 :=
      Nat.not_lt.mpr (Nat.le_add_left _ _)
    rw [if_pos ⟨Nat.zero_le _, by omega⟩, if_pos hi, largeByte, blockByte, hblk, hoff, fileBlock,
      if_neg hnot, Nat.add_sub_cancel]
    rfl
  · rw [if_neg (by omega), if_neg hi]

/-- The indirect path never writes the last byte of a range in several blocks. -/
theorem ext2ReadIndirect_last (d : Disk) (inode : Buf) {offset : Nat} (buf : Buf) {nbytes : Nat}
    (hlo : 12 * blocksize ≤ offset) (hlt : offset < 2 ^ 32)
    (hleft : nbytes ≤ indirectLeft (iSize inode) offset)
    (hmany : blocksize < (offset - 12 * blocksize) % blocksize + nbytes) :
    (ext2ReadIndirect d inode offset buf 0 nbytes).2 (nbytes - 1) = buf (nbytes - 1) := by
  have hidr : (offset + 2 ^ 32 - blocksize * 12) % 2 ^ 32 = offset - 12 * blocksize := by
    unfold blocksize at *
    omega
  have hmin : min (indirectLeft (iSize inode) offset) nbytes = nbytes := Nat.min_eq_right hleft
  have hmod : (offset - 12 * blocksize) % blocksize < blocksize := Nat.mod_lt _ (by decide)
  have hpieces : ∀ c ∈ chunks ((offset - 12 * blocksize) / blocksize)
      (offsetIn (offset - 12 * blocksize)) 0 (indirectLeft (iSize inode) offset) nbytes,
      c.len ≤ nbytes - 1 := by
    intro c hc
    have hlong : blocksize < (offsetIn (offset - 12 * blocksize) : Nat) +
        min (indirectLeft (iSize inode) offset) nbytes := by
      rw [hmin]
      exact hmany
    have hlen := len_lt_of_mem_chunks hlong hc
    omega
  simp only [ext2ReadIndirect, hidr]
  exact foldl_read_same_place d (fun k => u32At (ext2ReadBlock d (iBlock inode 12)) (4 * k)) 0 _
    hpieces buf (Nat.zero_add _).le

/-! ## Reads that deliver the contents -/

/-- A read delivers the bytes of the file from the offset on, as many as are asked
for and left, and touches no other byte of the destination. -/
def Delivers (d : Disk) (inode : Buf) (offset : Nat) (buf : Buf) (nbytes : Nat) : Prop :=
  (ext2ReadData d inode offset buf nbytes).1 = min nbytes (iSize inode - offset) ∧
    ∀ i, (ext2ReadData d inode offset buf nbytes).2 i =
      if i < min nbytes (iSize inode - offset) then largeByte d inode (offset + i) else buf i

/-- The range of a read of a file of `size` bytes is empty, or the file has no
indirect block, or the range does not wrap round and lies in the direct blocks or
in one indirect block that is not among the last twelve of the file, unless the
read starts there. -/
def Readable (size offset nbytes : Nat) : Prop :=
  size ≤ offset ∨ size ≤ 12 * blocksize ∨
    (offset + nbytes < 2 ^ 32 ∧
      (offset + min nbytes (size - offset) ≤ 12 * blocksize ∨
        (12 * blocksize ≤ offset ∧
          (offset - 12 * blocksize) % blocksize + min nbytes (size - offset) ≤ blocksize ∧
          (size < offset + 12 * blocksize ∨
            offset + min nbytes (size - offset) + 12 * blocksize ≤ size))))

instance (size offset nbytes : Nat) : Decidable (Readable size offset nbytes) := by
  unfold Readable
  infer_instance

/-- What a read is left to do after its length was cut at the end of the file. -/
theorem ext2ReadData_cut (d : Disk) (inode : Buf) {offset nbytes : Nat} (buf : Buf)
    (hin : offset < iSize inode) (hwrap : offset + nbytes < 2 ^ 32) :
    ext2ReadData d inode offset buf nbytes =
      let n := min nbytes (iSize inode - offset)
      if offset + n ≤ 12 * blocksize then ext2ReadDirect d inode offset buf 0 n
      else if 12 * blocksize ≤ offset then ext2ReadIndirect d inode offset buf 0 n
      else
        let direct := ext2ReadDirect d inode offset buf 0 (12 * blocksize - offset)
        ext2ReadIndirect d inode (12 * blocksize) direct.2 (12 * blocksize - offset)
          (n - (12 * blocksize - offset)) := by
  have hn : (if iSize inode < (offset + nbytes) % 2 ^ 32 then iSize inode - offset else nbytes) =
      min nbytes (iSize inode - offset) := by
    rw [Nat.mod_eq_of_lt hwrap]
    split <;> omega
  have hmod : (offset + min nbytes (iSize inode - offset)) % 2 ^ 32 =
      offset + min nbytes (iSize inode - offset) := Nat.mod_eq_of_lt (by omega)
  rw [ext2ReadData, if_neg (by omega), hn]
  simp only [hmod]

/-- The reads of a large file that deliver its contents. -/
theorem delivers_of_readable (d : Disk) (inode : Buf) {offset nbytes : Nat} (buf : Buf)
    (hsize : iSize inode ≤ (12 + 256) * blocksize) (ho : offset < 2 ^ 32) (hn : nbytes < 2 ^ 32)
    (h : Readable (iSize inode) offset nbytes) : Delivers d inode offset buf nbytes := by
  have hlarge : ∀ n, offset + n ≤ 12 * blocksize →
      ∀ i < n, fileByte d inode (offset + i) = largeByte d inode (offset + i) :=
    fun n hle i hi => fileByte_eq_largeByte d inode (by omega)
  by_cases hend : iSize inode ≤ offset
  · have hnone : min nbytes (iSize inode - offset) = 0 := by omega
    simp [Delivers, ext2ReadData, if_pos hend, hnone]
  · by_cases hdirect : iSize inode ≤ 12 * blocksize
    · obtain ⟨hret, hbytes⟩ := ext2ReadData_direct d inode buf hdirect ho hn
      refine ⟨hret, fun i => ?_⟩
      rw [hbytes]
      by_cases hi : i < min nbytes (iSize inode - offset)
      · rw [if_pos hi, if_pos hi, hlarge _ (by omega) i hi]
      · rw [if_neg hi, if_neg hi]
    · rcases h with h | h | ⟨hwrap, hrange⟩
      · exact absurd h hend
      · exact absurd h hdirect
      · unfold Delivers
        rw [ext2ReadData_cut d inode buf (by omega) hwrap]
        generalize hcut : min nbytes (iSize inode - offset) = n at hrange ⊢
        by_cases hlow : offset + n ≤ 12 * blocksize
        · obtain ⟨hret, hbytes⟩ := ext2ReadDirect_spec d inode buf 0 n
            (show offset ≤ iSize inode by omega)
          have hmin : min (iSize inode - offset) n = n := by omega
          simp only [if_pos hlow]
          refine ⟨hret.trans hmin, fun i => ?_⟩
          have hiff : (0 ≤ i ∧ i < 0 + n) ↔ i < n := by omega
          rw [hbytes i, hmin]
          simp only [hiff, Nat.sub_zero]
          by_cases hi : i < n
          · rw [if_pos hi, if_pos hi, hlarge n hlow i hi]
          · rw [if_neg hi, if_neg hi]
        · rcases hrange with hrange | ⟨hlo, hone, hleft⟩
          · exact absurd hrange hlow
          · have hle : n ≤ indirectLeft (iSize inode) offset := by
              unfold indirectLeft
              unfold blocksize at *
              omega
            simp only [if_neg hlow, if_pos hlo]
            refine ⟨?_, ext2ReadIndirect_one d inode buf hlo ho hle hone⟩
            rw [ext2ReadIndirect_fst, Nat.min_eq_right hle]

/-! ## A large file -/

/-- The numbers a list block holds. -/
def listWords : Words := fun k => BitVec.ofNat 32 (1024 + 2 * k)

/-- An image with one large file, inode 12: its blocks are 100 to 111 and the even
ones from 1024 on, listed in block 99, and every byte of them is 7. -/
def bigFile (size : Nat) : View where
  blockUsed b := decide (b ≤ 6 ∨ 99 ≤ b)
  inodeUsed ino := decide (ino ≤ 12)
  inode _ := newInode 0x81FF size ((List.range 12).map (100 + ·) ++ [99])
  data b := if b = 99 then bytesOf listWords else fun _ => if 100 ≤ b then 7 else 0

/-- The image on a device. -/
def bigFileDisk (size : Nat) : Disk := format smallGroup (bigFile size)

/-- The inode of the large file. -/
def bigInode (size : Nat) : Buf := (view smallGroup (bigFileDisk size)).inode 12

section BigFile

variable {size : Nat}

theorem u32At_listWords {k : Nat} (hk : k < 256) :
    u32At (bytesOf listWords) (4 * k) = 1024 + 2 * k := by
  have hword := congrFun (wordsOf_bytesOf listWords) k
  have hnat := congrArg BitVec.toNat hword
  simp only [wordsOf, listWords, BitVec.toNat_ofNat] at hnat
  rw [Nat.mod_eq_of_lt (u32At_lt _ _)] at hnat
  rw [hnat]
  exact Nat.mod_eq_of_lt (by omega)

/-- No byte of the list block is 7. -/
theorem bytesOf_listWords_ne {i : Nat} (hi : i < blocksize) : bytesOf listWords i ≠ 7 := by
  intro heq
  have hnat := congrArg UInt8.toNat heq
  unfold blocksize at hi
  have hcases : i % 4 = 0 ∨ i % 4 = 1 ∨ i % 4 = 2 ∨ i % 4 = 3 := by omega
  simp only [bytesOf, listWords, UInt8.toNat_ofNat', BitVec.toNat_ofNat,
    show (7 : UInt8).toNat = 7 from rfl] at hnat
  rcases hcases with hm | hm | hm | hm
  · rw [hm] at hnat
    omega
  · rw [hm] at hnat
    omega
  · rw [hm] at hnat
    omega
  · rw [hm] at hnat
    omega

/-- The fields of the inode of the large file. -/
theorem fields_bigInode (hsize : size ≤ (12 + 256) * blocksize) :
    iMode (bigInode size) = 0x81FF ∧ iSize (bigInode size) = size ∧
      (∀ k < 12, iBlock (bigInode size) k = 100 + k) ∧ iBlock (bigInode size) 12 = 99 ∧
      ∀ k, 13 ≤ k → iBlock (bigInode size) k = 0 := by
  have hlt : size < 2 ^ 32 := by
    unfold blocksize at hsize
    omega
  have hslots : ∀ b ∈ (List.range 12).map (100 + ·) ++ [99], b < 2 ^ 32 := by decide
  obtain ⟨hmode, hfsize, -, hslot⟩ := View.fields_trim smallGroup (bigFile size)
    (show smallGroup.ValidIno 12 by decide) rfl (by decide) hlt (by decide) hslots
  obtain ⟨-, -, -, hnew⟩ := fields_newInode (show 0x81FF < 2 ^ 16 by decide) hlt
    (show ((List.range 12).map (100 + ·) ++ [99]).length < 2 ^ 32 by decide) hslots
  rw [bigInode, bigFileDisk, view_format]
  refine ⟨hmode, hfsize, ?_, ?_, ?_⟩
  · intro k hk
    rw [hslot k (by omega), List.getD_append _ _ _ _ (by simpa using hk),
      List.getD_eq_getElem _ _ (by simpa using hk)]
    simp
  · rw [hslot 12 (by decide)]
    rfl
  · intro k hk
    -- the slot is zero in the structure, and there is nothing behind it
    have hzero := hnew k
    rw [List.getD_eq_default _ _ (by simpa using hk)] at hzero
    rw [iBlock, u32At_eq_zero_iff] at hzero ⊢
    intro i hi
    simp only [View.trim, if_pos (show smallGroup.ValidIno 12 by decide), inodeBytes, bigFile,
      hzero i hi, ite_self]

/-- The blocks of the image. -/
theorem readBlock_bigFileDisk {b : Nat} (hlo : 7 ≤ b) (hhi : b ≤ bitmapBits) :
    ext2ReadBlock (bigFileDisk size) b = (bigFile size).data b := by
  have hdata := smallGroup_isData hlo hhi
  rw [readBlock_eq hdata, bigFileDisk, view_format]
  simp only [View.trim, if_pos hdata]

theorem fileBlock_bigInode (hsize : size ≤ (12 + 256) * blocksize) {k : Nat} (hk : k < 268) :
    fileBlock (bigFileDisk size) (bigInode size) k =
      if k < 12 then 100 + k else 1024 + 2 * (k - 12) := by
  obtain ⟨-, -, hslot, hlist, -⟩ := fields_bigInode hsize
  rw [fileBlock, hlist, readBlock_bigFileDisk (by decide) (by decide)]
  by_cases hlt : k < 12
  · rw [if_pos hlt, if_pos hlt, hslot k hlt]
  · rw [if_neg hlt, if_neg hlt]
    simp only [bigFile, if_true]
    exact u32At_listWords (by omega)

/-- Every byte of the large file is 7. -/
theorem largeByte_bigInode (hsize : size ≤ (12 + 256) * blocksize) {pos : Nat}
    (hpos : pos < size) : largeByte (bigFileDisk size) (bigInode size) pos = 7 := by
  have hblk : pos / blocksize < 268 := by
    unfold blocksize at *
    omega
  have hplace := fileBlock_bigInode hsize hblk
  have hrange : 100 ≤ fileBlock (bigFileDisk size) (bigInode size) (pos / blocksize) ∧
      fileBlock (bigFileDisk size) (bigInode size) (pos / blocksize) ≤ bitmapBits := by
    rw [hplace]
    generalize pos / blocksize = k at hblk
    unfold bitmapBits
    split <;> omega
  have hne : fileBlock (bigFileDisk size) (bigInode size) (pos / blocksize) ≠ 99 := by omega
  rw [largeByte, blockByte, readBlock_bigFileDisk (by omega) hrange.2]
  simp only [bigFile, if_neg hne, if_pos hrange.1]

/-- The image holds a large file. -/
theorem largeFile_bigFile (hsize : size ≤ (12 + 256) * blocksize) :
    LargeFile smallGroup (bigFileDisk size) 12 := by
  obtain ⟨hmode, hfsize, -, hlist, -⟩ := fields_bigInode hsize
  have hin : ∀ k, k * blocksize < size → k < 268 := by
    intro k hk
    unfold blocksize at *
    omega
  rw [bigInode] at hmode hfsize hlist
  have hblock : ∀ k, k * blocksize < size →
      fileBlock (bigFileDisk size) ((view smallGroup (bigFileDisk size)).inode 12) k =
        if k < 12 then 100 + k else 1024 + 2 * (k - 12) := fun k hk =>
    fileBlock_bigInode hsize (hin k hk)
  refine
    { onDisk := onDisk_format _ _
      valid := by decide
      used := ?_
      regular := ?_
      size := ?_
      data := ?_
      inj := ?_
      list := ?_ }
  · rw [bigFileDisk, view_format]
    rfl
  · rw [hmode]
    decide
  · rw [hfsize]
    exact hsize
  · intro k hk
    rw [hfsize] at hk
    have hlt := hin k hk
    rw [hblock k hk]
    apply smallGroup_isData
    · split <;> omega
    · unfold bitmapBits
      split <;> omega
  · intro j k hj hk heq
    rw [hfsize] at hj hk
    have hjlt := hin j hj
    have hklt := hin k hk
    rw [hblock j hj, hblock k hk] at heq
    split at heq <;> split at heq <;> omega
  · intro _
    rw [hlist]
    refine ⟨smallGroup_isData (by decide) (by decide), ?_⟩
    intro k hk
    rw [hfsize] at hk
    have hlt := hin k hk
    rw [hblock k hk]
    split <;> omega

/-- The direct path reads no byte of the file behind the direct blocks. -/
theorem fileByte_bigInode_ne (hsize : size ≤ (12 + 256) * blocksize) {pos : Nat}
    (hpos : 12 * blocksize ≤ pos) : fileByte (bigFileDisk size) (bigInode size) pos ≠ 7 := by
  obtain ⟨-, -, -, hlist, hnone⟩ := fields_bigInode hsize
  have hmod : pos % blocksize < blocksize := Nat.mod_lt _ (by decide)
  have hblk : 12 ≤ pos / blocksize := (Nat.le_div_iff_mul_le (by decide)).mpr hpos
  rw [fileByte, blockByte]
  by_cases htwelve : pos / blocksize = 12
  · -- the list block itself is read as data
    rw [htwelve, hlist, readBlock_bigFileDisk (by decide) (by decide)]
    exact bytesOf_listWords_ne hmod
  · -- an empty slot sends the read to the boot block
    rw [hnone _ (by omega), bigFileDisk, readBlock_format smallGroup _ (by decide)]
    exact (by decide : (0 : UInt8) ≠ 7)

/-- A read outside the condition does not deliver the contents of the large file. -/
theorem not_delivers_bigFile (hsize : size ≤ (12 + 256) * blocksize) {offset nbytes : Nat}
    (ho : offset < 2 ^ 32) (hn : nbytes < 2 ^ 32) (hnot : ¬ Readable size offset nbytes) :
    ¬ Delivers (bigFileDisk size) (bigInode size) offset (fun _ => 0) nbytes := by
  rintro ⟨hret, hbytes⟩
  have hfsize := (fields_bigInode hsize).2.1
  rw [hfsize] at hret hbytes
  simp only [Readable, not_or, not_and] at hnot
  obtain ⟨hin, hlarge, hrange⟩ := hnot
  have hseven : ∀ i, i < min nbytes (size - offset) →
      (ext2ReadData (bigFileDisk size) (bigInode size) offset (fun _ => 0) nbytes).2 i = 7 := by
    intro i hi
    rw [hbytes i, if_pos hi]
    exact largeByte_bigInode hsize (by omega)
  by_cases hwrap : offset + nbytes < 2 ^ 32
  · obtain ⟨hlow, hone⟩ := hrange hwrap
    rw [ext2ReadData_cut _ _ _ (by rw [hfsize]; omega) hwrap, hfsize] at hret hseven
    generalize hcut : min nbytes (size - offset) = n at hlow hone hret hseven
    simp only [if_neg hlow] at hret hseven
    by_cases hstart : 12 * blocksize ≤ offset
    · simp only [if_pos hstart] at hret hseven
      rw [ext2ReadIndirect_fst, hfsize] at hret
      have hle : n ≤ indirectLeft size offset := by omega
      have hmany : blocksize < (offset - 12 * blocksize) % blocksize + n := by
        by_contra hshort
        have hlast := hone hstart (by omega)
        unfold indirectLeft at hle
        unfold blocksize at *
        omega
      have hpos : 0 < n := by
        have hmod : (offset - 12 * blocksize) % blocksize < blocksize := Nat.mod_lt _ (by decide)
        omega
      have hlast := ext2ReadIndirect_last (bigFileDisk size) (bigInode size) (fun _ => 0) hstart ho
        (by rwa [hfsize]) hmany
      rw [hseven (n - 1) (by omega)] at hlast
      exact absurd hlast (by decide)
    · -- the bytes from the direct blocks are not counted
      simp only [if_neg hstart] at hret
      rw [ext2ReadIndirect_fst] at hret
      omega
  · have hwrapped : (offset + nbytes) % 2 ^ 32 = offset + nbytes - 2 ^ 32 := by omega
    have hcut : ¬ size < offset + nbytes - 2 ^ 32 := by omega
    have hmin : min nbytes (size - offset) = size - offset := by
      unfold blocksize at hsize
      omega
    simp only [ext2ReadData, hfsize, if_neg hin, hwrapped, if_neg hcut, hmin] at hret hseven
    by_cases hlow : offset + nbytes - 2 ^ 32 ≤ 12 * blocksize
    · -- the direct path goes on behind the direct blocks
      simp only [if_pos hlow] at hseven
      obtain ⟨-, hgot⟩ := ext2ReadDirect_spec (bigFileDisk size) (bigInode size) (fun _ => 0) 0
        nbytes (show offset ≤ iSize (bigInode size) by omega)
      have hfirst : max offset (12 * blocksize) - offset < size - offset := by omega
      have heq := hseven _ hfirst
      rw [hgot, hfsize, if_pos (by omega)] at heq
      exact fileByte_bigInode_ne hsize (by omega) heq
    · have hstart : 12 * blocksize ≤ offset := by omega
      simp only [if_neg hlow, if_pos hstart] at hret
      rw [ext2ReadIndirect_fst, hfsize, indirectLeft] at hret
      unfold blocksize at *
      omega

end BigFile

/-! ## The condition -/

/-- Every read of a large file of `size` bytes from `offset` on, into any buffer,
delivers its contents, and `file_fread` moves the file position behind them. -/
def ReadsRight (size offset nbytes : Nat) : Prop :=
  ∀ (g : Geometry) (d : Disk) (self : File) (stack buf : Buf), LargeFile g d self.iIno →
    iSize ((view g d).inode self.iIno) = size → self.iMode &&& ext2SIfreg ≠ 0 →
    self.fPos = offset →
    Delivers d ((view g d).inode self.iIno) offset buf nbytes ∧
      fileFread g.sb d self stack buf nbytes =
        (((min nbytes (size - offset) : Nat) : Int),
          (ext2ReadData d ((view g d).inode self.iIno) offset buf nbytes).2,
          { self with fPos := offset + min nbytes (size - offset) })

/-- The reads of files of up to 12 direct and 256 indirect blocks that deliver the
contents are those that the condition admits. -/
theorem readsRight_iff {size offset nbytes : Nat} (hsize : size ≤ (12 + 256) * blocksize)
    (ho : offset < 2 ^ 32) (hn : nbytes < 2 ^ 32) :
    ReadsRight size offset nbytes ↔ Readable size offset nbytes := by
  constructor
  · intro h
    by_contra hnot
    have hright := h smallGroup (bigFileDisk size) ⟨0x81FF, 12, size, offset⟩ (fun _ => 0)
      (fun _ => 0) (largeFile_bigFile hsize) (fields_bigInode hsize).2.1
      (show 0x81FF &&& ext2SIfreg ≠ 0 by decide) rfl
    exact not_delivers_bigFile hsize ho hn hnot hright.1
  · intro h g d self stack buf hfile hfsize hmode hpos
    have hdelivers : Delivers d ((view g d).inode self.iIno) offset buf nbytes :=
      delivers_of_readable d _ buf hfile.size ho hn (by rwa [hfsize])
    refine ⟨hdelivers, ?_⟩
    have hret := hdelivers.1
    rw [hfsize] at hret
    have hfail : ¬ min nbytes (size - offset) = 2 ^ 32 - 1 := by
      unfold blocksize at hsize
      omega
    have hsum : (offset + min nbytes (size - offset)) % 2 ^ 32 =
        offset + min nbytes (size - offset) := by
      unfold blocksize at hsize
      omega
    simp only [fileFread, if_neg hmode, readInode_eq hfile.onDisk hfile.valid hfile.used, hpos,
      hret, if_neg hfail, hsum]

/-- `readsRight_iff` for 100 bytes at position 12300 of a file of 13312 bytes. -/
theorem readsRight_13312 : ReadsRight 13312 12300 100 ↔ Readable 13312 12300 100 :=
  readsRight_iff (by decide) (by decide) (by decide)

/-- A read of a whole file of 13 blocks reports the last block only. -/
theorem read_across_boundary :
    LargeFile smallGroup (bigFileDisk 13312) 12 ∧ iSize (bigInode 13312) = 13312 ∧
      (ext2ReadData (bigFileDisk 13312) (bigInode 13312) 0 (fun _ => 0) 13312).1 = 1024 := by
  have hsize : (13312 : Nat) ≤ (12 + 256) * blocksize := by decide
  have hfsize := (fields_bigInode hsize).2.1
  refine ⟨largeFile_bigFile hsize, hfsize, ?_⟩
  rw [ext2ReadData_cut _ _ _ (by rw [hfsize]; decide) (by decide), hfsize]
  simp only [if_neg (show ¬ 0 + min 13312 (13312 - 0) ≤ 12 * blocksize by decide),
    if_neg (show ¬ 12 * blocksize ≤ 0 by decide)]
  rw [ext2ReadIndirect_fst, hfsize]
  decide

end Ext2
end NochOS
