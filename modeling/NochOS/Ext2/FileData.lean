import NochOS.Ext2.Transfer

/-!
# ext2 - what a transfer reads and writes

The bytes of a file are the bytes of its blocks one after another.  A transfer
loop cuts a range of file positions at the block boundaries; this module shows
that the pieces cover the range, so that a read delivers exactly the bytes of the
range and a write replaces exactly them.

Main results:

- Theorem `foldl_read_chunks`: the destination after the passes of a read.
- Theorems `foldl_write_chunks`, `foldl_write_chunks_other`: the blocks after the
  passes of a write.
- Theorems `ext2ReadDirect_spec`, `ext2WriteDirect_spec`: the two functions on a
  file whose blocks are direct.
- Theorem `ext2ReadData_direct`: a read of a file with direct blocks delivers a
  slice of its contents, whatever the offset and the length.
-/

namespace NochOS
namespace Ext2

open Library

/-- The byte at a position of the concatenation of blocks. -/
def blockByte (d : Disk) (blk : Nat → Nat) (pos : Nat) : UInt8 :=
  ext2ReadBlock d (blk (pos / blocksize)) (pos % blocksize)

/-- The byte at a position of a file. -/
def fileByte (d : Disk) (inode : Buf) (pos : Nat) : UInt8 := blockByte d (iBlock inode) pos

/-! ## Lengths -/

theorem cpyLen_eq (bufOff : Fin blocksize) (rmnSize nbytes : Nat) :
    cpyLen bufOff rmnSize nbytes = min (min nbytes (blocksize - bufOff)) rmnSize := by
  simp only [cpyLen]
  split <;> split <;> omega

/-- A transfer moves as many bytes as are asked for and left. -/
theorem totalSize_chunks (iblkno : Nat) (bufOff : Fin blocksize) (total rmnSize nbytes : Nat) :
    totalSize (chunks iblkno bufOff total rmnSize nbytes) = min rmnSize nbytes := by
  fun_induction chunks iblkno bufOff total rmnSize nbytes with
  | case1 iblkno bufOff total rmnSize nbytes len ih =>
      have hlt := bufOff.isLt
      have hlen : len = min (min nbytes (blocksize - bufOff)) rmnSize := cpyLen_eq _ _ _
      by_cases hstop : len = rmnSize ∨ len = nbytes
      · simp only [totalSize, if_pos hstop, List.map_cons, List.map_nil, List.sum_cons,
          List.sum_nil]
        omega
      · have hrest := ih hstop
        simp only [totalSize] at hrest
        simp only [totalSize, List.map_cons, List.sum_cons, if_neg hstop, hrest]
        omega

/-! ## Passes of a read -/

/-- One pass of a read. -/
theorem readPiece_apply (d : Disk) (blk : Nat → Nat) (buf : Buf) {iblkno dst off len : Nat}
    (hfit : off + len ≤ blocksize) (i : Nat) :
    ext2ReadBlockBytes d (blk iblkno) buf dst off len i =
      if dst ≤ i ∧ i < dst + len then blockByte d blk (iblkno * blocksize + off + (i - dst))
      else buf i := by
  rw [ext2ReadBlockBytes, memcpy_apply]
  by_cases hin : dst ≤ i ∧ i < dst + len
  · have hdiv : (iblkno * blocksize + off + (i - dst)) / blocksize = iblkno := by
      unfold blocksize at *
      omega
    have hmod : (iblkno * blocksize + off + (i - dst)) % blocksize = off + (i - dst) := by
      unfold blocksize at *
      omega
    rw [if_pos hin, if_pos hin, blockByte, hdiv, hmod]
  · rw [if_neg hin, if_neg hin]

/-- After the passes of a read the destination holds the bytes of the range, and
is unchanged elsewhere. -/
theorem foldl_read_chunks (d : Disk) (blk : Nat → Nat) (at_ iblkno : Nat)
    (bufOff : Fin blocksize) (total rmnSize nbytes : Nat) (buf : Buf) (i : Nat) :
    (chunks iblkno bufOff total rmnSize nbytes).foldl (fun buf c =>
        ext2ReadBlockBytes d (blk c.iblkno) buf (at_ + c.total) c.bufOff c.len) buf i =
      if at_ + total ≤ i ∧ i < at_ + total + min rmnSize nbytes then
        blockByte d blk (iblkno * blocksize + bufOff + (i - (at_ + total)))
      else buf i := by
  fun_induction chunks iblkno bufOff total rmnSize nbytes generalizing buf with
  | case1 iblkno bufOff total rmnSize nbytes len ih =>
      have hlt := bufOff.isLt
      have hlen : len = min (min nbytes (blocksize - bufOff)) rmnSize := cpyLen_eq _ _ _
      have hfit : bufOff + len ≤ blocksize := by omega
      rw [List.foldl_cons]
      by_cases hstop : len = rmnSize ∨ len = nbytes
      · rw [if_pos hstop, List.foldl_nil, readPiece_apply d blk buf hfit]
        have hmin : min rmnSize nbytes = len := by omega
        rw [hmin]
      · rw [if_neg hstop, ih hstop, readPiece_apply d blk buf hfit]
        -- the later pieces start where the first one ends, at a block boundary
        by_cases hlater : at_ + (total + len) ≤ i ∧
            i < at_ + (total + len) + min (rmnSize - len) (nbytes - len)
        · have hpos : (iblkno + 1) * blocksize + (0 : Nat) + (i - (at_ + (total + len))) =
              iblkno * blocksize + bufOff + (i - (at_ + total)) := by
            unfold blocksize at *
            omega
          rw [if_pos hlater, if_pos (by omega), ← hpos]
        · rw [if_neg hlater]
          by_cases hin : at_ + total ≤ i ∧ i < at_ + total + len
          · rw [if_pos hin, if_pos (by omega)]
          · rw [if_neg hin, if_neg (by omega)]

/-! ## Passes of a write -/

/-- A block that no position of the range lies in keeps its bytes. -/
theorem foldl_write_chunks_other (blk : Nat → Nat) (buf : Buf) (iblkno : Nat)
    (bufOff : Fin blocksize) (total rmnSize nbytes : Nat) (d : Disk) (l : Nat)
    (hother : ∀ k, iblkno ≤ k →
      k * blocksize < iblkno * blocksize + bufOff + min rmnSize nbytes → l ≠ lba (blk k)) :
    (chunks iblkno bufOff total rmnSize nbytes).foldl (fun d c =>
      ext2WriteBlockBytes d (blk c.iblkno) buf c.total c.bufOff c.len) d l = d l := by
  fun_induction chunks iblkno bufOff total rmnSize nbytes generalizing d with
  | case1 iblkno bufOff total rmnSize nbytes len ih =>
      obtain ⟨off, hlt⟩ := bufOff
      have hlen : len = min (min nbytes (blocksize - off)) rmnSize := cpyLen_eq _ _ _
      have hsucc : (iblkno + 1) * blocksize = iblkno * blocksize + blocksize := Nat.succ_mul _ _
      clear_value len
      dsimp only at hother ih ⊢
      have hfirst : ext2WriteBlockBytes d (blk iblkno) buf total off len l = d l := by
        rw [ext2WriteBlockBytes, ext2WriteBlock]
        by_cases hl : l = lba (blk iblkno)
        · -- the only piece of an empty range copies nothing
          have hnone : ¬ iblkno * blocksize < iblkno * blocksize + off + min rmnSize nbytes :=
            fun hin => hother iblkno le_rfl hin hl
          have hzero : len = 0 := by omega
          rw [hzero, memcpy_zero, hl, Function.update_self, ext2ReadBlock]
        · rw [Function.update_of_ne hl]
      rw [List.foldl_cons]
      by_cases hstop : len = rmnSize ∨ len = nbytes
      · rw [if_pos hstop, List.foldl_nil, hfirst]
      · rw [if_neg hstop, ih hstop, hfirst]
        intro k hk hin
        exact hother k (by omega) (by omega)

/-- One pass of a write changes its own block and no other block of the range. -/
theorem blockByte_writePiece (d : Disk) (blk : Nat → Nat) (buf : Buf) (total : Nat)
    {iblkno off len pos : Nat} (hfit : off + len ≤ blocksize) (hlo : iblkno * blocksize ≤ pos)
    (hother : pos / blocksize ≠ iblkno → lba (blk (pos / blocksize)) ≠ lba (blk iblkno)) :
    blockByte (ext2WriteBlockBytes d (blk iblkno) buf total off len) blk pos =
      if iblkno * blocksize + off ≤ pos ∧ pos < iblkno * blocksize + off + len then
        buf (total + (pos - (iblkno * blocksize + off)))
      else blockByte d blk pos := by
  have hdiv : pos / blocksize * blocksize + pos % blocksize = pos := by
    rw [Nat.mul_comm]
    exact Nat.div_add_mod pos blocksize
  simp only [blockByte, ext2ReadBlock, ext2WriteBlockBytes, ext2WriteBlock]
  by_cases hblk : pos / blocksize = iblkno
  · rw [hblk] at hdiv
    have hoff : pos % blocksize - off = pos - (iblkno * blocksize + off) := by omega
    have hiff : (off ≤ pos % blocksize ∧ pos % blocksize < off + len) ↔
        (iblkno * blocksize + off ≤ pos ∧ pos < iblkno * blocksize + off + len) := by omega
    rw [hblk, Function.update_self, memcpy_apply, hoff]
    simp only [hiff]
  · have hge : iblkno ≤ pos / blocksize := (Nat.le_div_iff_mul_le (by decide)).mpr hlo
    have hnext : (iblkno + 1) * blocksize ≤ pos / blocksize * blocksize :=
      Nat.mul_le_mul_right _ (by omega)
    have hsucc : (iblkno + 1) * blocksize = iblkno * blocksize + blocksize := Nat.succ_mul _ _
    rw [Function.update_of_ne (hother hblk), if_neg (by omega)]

/-- The bytes of the blocks of a file after the passes of a write. -/
theorem foldl_write_chunks (blk : Nat → Nat) (buf : Buf) (iblkno : Nat)
    (bufOff : Fin blocksize) (total rmnSize nbytes : Nat) (d : Disk)
    (hinj : ∀ j k, iblkno ≤ j → iblkno ≤ k →
      j * blocksize < iblkno * blocksize + bufOff + min rmnSize nbytes →
      k * blocksize < iblkno * blocksize + bufOff + min rmnSize nbytes →
      lba (blk j) = lba (blk k) → j = k)
    (pos : Nat) (hlo : iblkno * blocksize ≤ pos)
    (hhi : pos / blocksize * blocksize <
      iblkno * blocksize + bufOff + min rmnSize nbytes) :
    blockByte ((chunks iblkno bufOff total rmnSize nbytes).foldl (fun d c =>
        ext2WriteBlockBytes d (blk c.iblkno) buf c.total c.bufOff c.len) d) blk pos =
      if iblkno * blocksize + bufOff ≤ pos ∧
          pos < iblkno * blocksize + bufOff + min rmnSize nbytes then
        buf (total + (pos - (iblkno * blocksize + bufOff)))
      else blockByte d blk pos := by
  fun_induction chunks iblkno bufOff total rmnSize nbytes generalizing d with
  | case1 iblkno bufOff total rmnSize nbytes len ih =>
      obtain ⟨off, hlt⟩ := bufOff
      have hlen : len = min (min nbytes (blocksize - off)) rmnSize := cpyLen_eq _ _ _
      have hsucc : (iblkno + 1) * blocksize = iblkno * blocksize + blocksize := Nat.succ_mul _ _
      clear_value len
      dsimp only at hinj hhi ih ⊢
      have hdiv : pos / blocksize * blocksize + pos % blocksize = pos := by
        rw [Nat.mul_comm]
        exact Nat.div_add_mod pos blocksize
      have hmod : pos % blocksize < blocksize := Nat.mod_lt _ (by decide)
      have hge : iblkno ≤ pos / blocksize := (Nat.le_div_iff_mul_le (by decide)).mpr hlo
      -- a later block starts at or after the next block boundary
      have hnext : pos / blocksize ≠ iblkno →
          (iblkno + 1) * blocksize ≤ pos / blocksize * blocksize := fun hne =>
        Nat.mul_le_mul_right _ (by omega)
      have hapart : pos / blocksize ≠ iblkno → lba (blk (pos / blocksize)) ≠ lba (blk iblkno) := by
        intro hblk heq
        have hboundary := hnext hblk
        exact hblk (hinj _ _ hge le_rfl hhi (by omega) heq)
      have hfirst := blockByte_writePiece d blk buf total (show off + len ≤ blocksize by omega) hlo
        hapart
      rw [List.foldl_cons]
      by_cases hstop : len = rmnSize ∨ len = nbytes
      · have hmin : min rmnSize nbytes = len := by omega
        rw [if_pos hstop, List.foldl_nil, hfirst, hmin]
      · rw [if_neg hstop]
        have hfull : off + len = blocksize := by omega
        by_cases hblk : pos / blocksize = iblkno
        · -- the later pieces lie in later blocks
          have hhere : (∀ k, iblkno + 1 ≤ k →
              k * blocksize < (iblkno + 1) * blocksize + 0 + min (rmnSize - len) (nbytes - len) →
              lba (blk (pos / blocksize)) ≠ lba (blk k)) := by
            intro k hk hin heq
            have hjk := hinj _ k hge (by omega) hhi (by omega) heq
            omega
          have hiff : (iblkno * blocksize + off ≤ pos ∧ pos < iblkno * blocksize + off + len) ↔
              (iblkno * blocksize + off ≤ pos ∧
                pos < iblkno * blocksize + off + min rmnSize nbytes) := by
            rw [hblk] at hdiv
            omega
          have hkeep := foldl_write_chunks_other blk buf (iblkno + 1) ⟨0, by decide⟩ (total + len)
            (rmnSize - len) (nbytes - len)
            (ext2WriteBlockBytes d (blk iblkno) buf total off len) _ hhere
          simp only [hiff] at hfirst
          rw [← hfirst]
          simp only [blockByte, ext2ReadBlock, hkeep]
        · have hboundary := hnext hblk
          have hout : ¬ (iblkno * blocksize + off ≤ pos ∧
              pos < iblkno * blocksize + off + len) := by omega
          have hiff : ((iblkno + 1) * blocksize + 0 ≤ pos ∧
              pos < (iblkno + 1) * blocksize + 0 + min (rmnSize - len) (nbytes - len)) ↔
              (iblkno * blocksize + off ≤ pos ∧
                pos < iblkno * blocksize + off + min rmnSize nbytes) := by omega
          have hsub : total + len + (pos - ((iblkno + 1) * blocksize + 0)) =
              total + (pos - (iblkno * blocksize + off)) := by omega
          have hinj' : ∀ i j, iblkno + 1 ≤ i → iblkno + 1 ≤ j →
              i * blocksize < (iblkno + 1) * blocksize + 0 + min (rmnSize - len) (nbytes - len) →
              j * blocksize < (iblkno + 1) * blocksize + 0 + min (rmnSize - len) (nbytes - len) →
              lba (blk i) = lba (blk j) → i = j := fun i j hi hj hi' hj' heq =>
            hinj i j (by omega) (by omega) (by omega) (by omega) heq
          rw [ih hstop _ hinj' (by omega) (by omega), hfirst, if_neg hout, hsub]
          simp only [hiff]

/-! ## Direct blocks -/

/-- A read of direct blocks delivers what is asked for and left of the file. -/
theorem ext2ReadDirect_spec (d : Disk) (inode : Buf) {offset : Nat} (buf : Buf)
    (at_ nbytes : Nat) (hle : offset ≤ iSize inode) :
    (ext2ReadDirect d inode offset buf at_ nbytes).1 = min (iSize inode - offset) nbytes ∧
      ∀ i, (ext2ReadDirect d inode offset buf at_ nbytes).2 i =
        if at_ ≤ i ∧ i < at_ + min (iSize inode - offset) nbytes then
          fileByte d inode (offset + (i - at_))
        else buf i := by
  have hsize := u32At_lt inode 4
  have hrmn : (iSize inode + 2 ^ 32 - offset) % 2 ^ 32 = iSize inode - offset := by
    unfold iSize at *
    omega
  have hpos : offset / blocksize * blocksize + (offsetIn offset : Nat) = offset := by
    rw [Nat.mul_comm]
    exact Nat.div_add_mod offset blocksize
  unfold ext2ReadDirect
  rw [hrmn]
  refine ⟨totalSize_chunks _ _ _ _ _, fun i => ?_⟩
  have hfold := foldl_read_chunks d (iBlock inode) at_ (offset / blocksize) (offsetIn offset) 0
    (iSize inode - offset) nbytes buf i
  simp only [Nat.add_zero, hpos] at hfold
  exact hfold

/-- A write to direct blocks up to the end of the file replaces the bytes of the
range in the blocks of the file, and no other block. -/
theorem ext2WriteDirect_spec (d : Disk) (inode : Buf) {offset nbytes : Nat} (buf : Buf)
    (hsum : offset + nbytes = iSize inode)
    (hinj : ∀ j k, j * blocksize < iSize inode → k * blocksize < iSize inode →
      lba (iBlock inode j) = lba (iBlock inode k) → j = k) :
    (∀ pos < iSize inode,
        fileByte (ext2WriteDirect d inode offset buf nbytes).2 inode pos =
          if offset ≤ pos then buf (pos - offset) else fileByte d inode pos) ∧
      ∀ l, (∀ k, k * blocksize < iSize inode → l ≠ lba (iBlock inode k)) →
        (ext2WriteDirect d inode offset buf nbytes).2 l = d l := by
  have hsize := u32At_lt inode 4
  have hrmn : (iSize inode + 2 ^ 32 - offset) % 2 ^ 32 = nbytes := by
    unfold iSize at *
    omega
  have hpos : offset / blocksize * blocksize + (offsetIn offset : Nat) = offset := by
    rw [Nat.mul_comm]
    exact Nat.div_add_mod offset blocksize
  have hend : offset / blocksize * blocksize + (offsetIn offset : Nat) + min nbytes nbytes =
      iSize inode := by omega
  simp only [ext2WriteDirect, hrmn]
  constructor
  · intro pos hlt
    by_cases hlo : offset / blocksize * blocksize ≤ pos
    · have hblk : pos / blocksize * blocksize ≤ pos := Nat.div_mul_le_self pos blocksize
      have hfold := foldl_write_chunks (iBlock inode) buf (offset / blocksize) (offsetIn offset) 0
        nbytes nbytes d (fun j k _ _ hj hk heq => hinj j k (by omega) (by omega) heq) pos hlo
        (by omega)
      have hiff : (offset ≤ pos ∧ pos < offset + min nbytes nbytes) ↔ offset ≤ pos := by omega
      simp only [hpos, Nat.zero_add, hiff] at hfold
      exact hfold
    · -- an earlier block is in no pass
      have hbefore : ¬ offset ≤ pos := by
        have := Nat.div_mul_le_self offset blocksize
        omega
      have hkeep := foldl_write_chunks_other (iBlock inode) buf (offset / blocksize)
        (offsetIn offset) 0 nbytes nbytes d (lba (iBlock inode (pos / blocksize)))
      rw [if_neg hbefore, fileByte, blockByte, ext2ReadBlock, hkeep, fileByte, blockByte,
        ext2ReadBlock]
      intro k hk hin heq
      have hblk : pos / blocksize * blocksize ≤ pos := Nat.div_mul_le_self pos blocksize
      have hsame := hinj _ _ (by omega) (by omega) heq
      have hle : offset / blocksize * blocksize ≤ pos / blocksize * blocksize :=
        Nat.mul_le_mul_right _ (by omega)
      omega
  · intro l hl
    apply foldl_write_chunks_other
    intro k _ hin
    exact hl k (by omega)

/-- A read of a file whose blocks are direct delivers a slice of its contents. -/
theorem ext2ReadData_direct (d : Disk) (inode : Buf) {offset nbytes : Nat} (buf : Buf)
    (hsize : iSize inode ≤ 12 * blocksize) (ho : offset < 2 ^ 32) (hn : nbytes < 2 ^ 32) :
    (ext2ReadData d inode offset buf nbytes).1 = min nbytes (iSize inode - offset) ∧
      ∀ i, (ext2ReadData d inode offset buf nbytes).2 i =
        if i < min nbytes (iSize inode - offset) then fileByte d inode (offset + i) else buf i := by
  by_cases hend : iSize inode ≤ offset
  · have hnone : min nbytes (iSize inode - offset) = 0 := by omega
    simp [ext2ReadData, if_pos hend, hnone]
  · -- what is asked for is either cut at the end of the file or, when the sum wraps, left as it is
    have hcut : ∃ n, (if iSize inode < (offset + nbytes) % 2 ^ 32 then iSize inode - offset
          else nbytes) = n ∧ (offset + n) % 2 ^ 32 ≤ 12 * blocksize ∧
        min (iSize inode - offset) n = min nbytes (iSize inode - offset) := by
      unfold blocksize at *
      by_cases hover : iSize inode < (offset + nbytes) % 2 ^ 32
      · exact ⟨_, if_pos hover, by omega, by omega⟩
      · exact ⟨_, if_neg hover, by omega, by omega⟩
    obtain ⟨n, hcutn, hdirect, hmin⟩ := hcut
    obtain ⟨hret, hbytes⟩ := ext2ReadDirect_spec d inode buf 0 n (by omega : offset ≤ iSize inode)
    simp only [ext2ReadData, if_neg hend, hcutn, if_pos hdirect]
    refine ⟨hret.trans hmin, fun i => ?_⟩
    rw [hbytes i, hmin]
    simp

end Ext2
end NochOS
