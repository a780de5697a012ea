import NochOS.Library.Bytes
import NochOS.Library.Traced
import Mathlib.Algebra.Group.Int.Defs

/-!
# Module file system - reading file data

The read-only file system lies in memory as the boot module brought it: a boot
block, a block for each inode, then the data blocks.  This module embeds `read_data`
of `mod_fs.c` with the addresses it copies from, and compares it with what its
comment promises.  The block numbers reached in the loop are checked, the first one
and the inode number are not, and the remaining length wraps past the end of a file.

Main results:

- Theorem `readLoop_spec`: the value, the buffer and the reads of the loop.
- Theorem `inDataBlocks_piece_iff`: when a read is inside the data blocks, whether its
  block number was checked or not.
- Theorem `readData_correct_iff`: the calls that do what is promised.
-/

namespace NochOS
namespace ModFs

open Library

/-- `MOD_IBLOCK_NUM`. -/
def modIblockNum : Nat := 1023

/-- `MOD_FBLOCK_SIZE`. -/
def modFblockSize : Nat := 4096

/-- The memory the file system lies in, and the fields of `superblock`. -/
structure Image where
  mem : Buf
  privData : Nat
  sBlocksize : Nat

/-- One `memcpy` out of the file system. -/
structure Read where
  addr : Nat
  len : Nat
deriving DecidableEq

variable (fs : Image)

/-- `boot_block->inodes`. -/
def inodes : Nat := u32At fs.mem ((fs.privData + 4) % 2 ^ 32)

/-- `boot_block->data_blocks`. -/
def dataBlocks : Nat := u32At fs.mem ((fs.privData + 8) % 2 ^ 32)

/-- `mod_iptr`. -/
def modIptr (inode : Nat) : Nat :=
  (fs.privData + modFblockSize + modFblockSize * inode) % 2 ^ 32

/-- `mod_iptr(inode)->length`, an `int`. -/
def length (inode : Nat) : Int := (BitVec.ofNat 32 (u32At fs.mem (modIptr fs inode))).toInt

/-- `mod_iptr(inode)->iblock[idx]` as an unsigned number; nothing bounds the index. -/
def iblock (inode idx : Nat) : Nat := u32At fs.mem ((modIptr fs inode + 4 + 4 * idx) % 2 ^ 32)

/-- `data_start`. -/
def dataStart : Nat := (fs.privData + modFblockSize * (1 + inodes fs)) % 2 ^ 32

/-- `data_mem` of a block number. -/
def dataMem (dataIdx : Nat) : Nat := (dataStart fs + dataIdx * modFblockSize) % 2 ^ 32

/-- `cpy_len` of one pass. -/
def cpyLen (bufOff rmnSize nbytes : Nat) : Nat :=
  let len := nbytes
  let len := if fs.sBlocksize - bufOff < len then fs.sBlocksize - bufOff else len
  if rmnSize < len then rmnSize else len

/-- A `uint32_t` returned as `int32_t`. -/
def toInt32 (n : Nat) : Int := (BitVec.ofNat 32 n).toInt

/-- The loop of `read_data`: the return value and the buffer, and what was copied from.
`fuel` bounds the number of passes. -/
def readLoop (inode : Nat) : (fuel iblockIdx data bufOff totalSize rmnSize nbytes : Nat) →
    (buf : Buf) → Traced Read (Int × Buf)
  | 0, _, _, _, _, _, _, _ => Traced.stop
  | fuel + 1, iblockIdx, data, bufOff, totalSize, rmnSize, nbytes, buf => do
      let len := cpyLen fs bufOff rmnSize nbytes
      let addr := (data + bufOff) % 2 ^ 32
      Traced.emit ⟨addr, len⟩
      let buf := memcpy buf totalSize fs.mem addr len
      if len = rmnSize ∨ len = nbytes then
        return (toInt32 (totalSize + len), buf)
      else if dataBlocks fs ≤ iblock fs inode (iblockIdx + 1) then
        return (-1, buf)
      else
        readLoop inode fuel (iblockIdx + 1) (dataMem fs (iblock fs inode (iblockIdx + 1))) 0
          (totalSize + len) (rmnSize - len) (nbytes - len) buf

/-- `rmn_size` before the loop. -/
def rmnSize (inode offset : Nat) : Nat := ((length fs inode - offset) % 2 ^ 32).toNat

/-- `read_data`. -/
def readData (inode offset : Nat) (buf : Buf) (nbytes : Nat) : Traced Read (Int × Buf) :=
  readLoop fs inode (nbytes + 1) (offset / modFblockSize)
    (dataMem fs (iblock fs inode (offset / modFblockSize))) (offset % fs.sBlocksize) 0
    (rmnSize fs inode offset) nbytes buf

/-! ## What is promised -/

/-- A boot-block image with blocks of 4096 bytes, inside the address space. -/
structure WellFormed : Prop where
  blocksize : fs.sBlocksize = modFblockSize
  fits : fs.privData + modFblockSize * (1 + inodes fs + dataBlocks fs) ≤ 2 ^ 32

/-- The bytes there are to read. -/
def count (inode offset nbytes : Nat) : Nat := (min (nbytes : Int) (length fs inode - offset)).toNat

/-- The inode number is valid, and so are the block numbers of the requested range, of
which an inode has 1023. -/
def Valid (inode offset nbytes : Nat) : Prop :=
  inode < inodes fs ∧ ∀ i < count fs inode offset nbytes,
    (offset + i) / modFblockSize < modIblockNum ∧
      iblock fs inode ((offset + i) / modFblockSize) < dataBlocks fs

/-- A byte of a file. -/
def fileByte (inode pos : Nat) : UInt8 :=
  fs.mem (dataStart fs + modFblockSize * iblock fs inode (pos / modFblockSize) +
    pos % modFblockSize)

/-- What is copied lies in the data blocks. -/
def InDataBlocks (r : Read) : Prop :=
  r.len = 0 ∨ dataStart fs ≤ r.addr ∧
    r.addr + r.len ≤ dataStart fs + modFblockSize * dataBlocks fs

/-- The call returns and does what is promised. -/
structure Correct (inode offset nbytes : Nat) (r : Traced Read (Int × Buf)) : Prop where
  returns : r.value.isSome
  invalid : ¬ Valid fs inode offset nbytes → ∀ v ∈ r.value, v.1 = -1
  valid : Valid fs inode offset nbytes → ∀ v ∈ r.value, v.1 = count fs inode offset nbytes ∧
    ∀ i < count fs inode offset nbytes, v.2 i = fileByte fs inode (offset + i)
  reads : ∀ e ∈ r.events, InDataBlocks fs e

/-! ## The loop -/

/-- How far the loop goes unless it meets a bad block number. -/
def extent (inode offset nbytes : Nat) : Nat := min nbytes (rmnSize fs inode offset)

/-- A block number the loop checks in the rest of its way is not below `data_blocks`. -/
def LaterBad (inode offset nbytes total : Nat) : Prop :=
  ∃ i < extent fs inode offset nbytes,
    (offset + total) / modFblockSize < (offset + i) / modFblockSize ∧
      dataBlocks fs ≤ iblock fs inode ((offset + i) / modFblockSize)

/-- The loop when `total` bytes are copied. -/
def loopAt (inode offset nbytes fuel total : Nat) (buf : Buf) : Traced Read (Int × Buf) :=
  readLoop fs inode fuel ((offset + total) / modFblockSize)
    (dataMem fs (iblock fs inode ((offset + total) / modFblockSize)))
    ((offset + total) % modFblockSize) total (rmnSize fs inode offset - total) (nbytes - total) buf

/-- The length of the piece at a position. -/
def piece (inode offset nbytes total : Nat) : Nat :=
  min (modFblockSize - (offset + total) % modFblockSize) (extent fs inode offset nbytes - total)

/-- The address of the piece at a position. -/
def pieceAddr (inode offset total : Nat) : Nat :=
  (dataMem fs (iblock fs inode ((offset + total) / modFblockSize)) +
    (offset + total) % modFblockSize) % 2 ^ 32

/-- The piece at a position, as it is read. -/
def pieceRead (inode offset nbytes total : Nat) : Read :=
  ⟨pieceAddr fs inode offset total, piece fs inode offset nbytes total⟩

variable {fs} {inode offset nbytes : Nat}

/-- The piece is what a pass decides to copy. -/
theorem cpyLen_eq (hwf : WellFormed fs) (total : Nat) :
    cpyLen fs ((offset + total) % modFblockSize) (rmnSize fs inode offset - total)
      (nbytes - total) = piece fs inode offset nbytes total := by
  simp only [cpyLen, piece, extent, hwf.blocksize]
  generalize modFblockSize - (offset + total) % modFblockSize = room
  split <;> split <;> omega

/-- The loop is left when it has gone its way. -/
theorem stop_iff {total : Nat} (htotal : total ≤ extent fs inode offset nbytes) :
    (piece fs inode offset nbytes total = rmnSize fs inode offset - total ∨
      piece fs inode offset nbytes total = nbytes - total) ↔
        total + piece fs inode offset nbytes total = extent fs inode offset nbytes := by
  unfold piece
  unfold extent at htotal ⊢
  omega

/-- A piece that does not end the loop ends its block. -/
theorem piece_next {total : Nat} (htotal : total ≤ extent fs inode offset nbytes)
    (hne : total + piece fs inode offset nbytes total ≠ extent fs inode offset nbytes) :
    (offset + (total + piece fs inode offset nbytes total)) % modFblockSize = 0 ∧
      (offset + (total + piece fs inode offset nbytes total)) / modFblockSize =
        (offset + total) / modFblockSize + 1 := by
  have hpiece : piece fs inode offset nbytes total = 4096 - (offset + total) % 4096 := by
    unfold piece modFblockSize at hne ⊢
    omega
  rw [hpiece]
  unfold modFblockSize
  omega

/-- One pass of the loop. -/
theorem loopAt_succ (hwf : WellFormed fs) (fuel : Nat) {total : Nat} (buf : Buf)
    (htotal : total ≤ extent fs inode offset nbytes) :
    loopAt fs inode offset nbytes (fuel + 1) total buf =
      (Traced.emit (pieceRead fs inode offset nbytes total) >>= fun _ =>
        let len := piece fs inode offset nbytes total
        let buf := memcpy buf total fs.mem (pieceAddr fs inode offset total) len
        if total + len = extent fs inode offset nbytes then pure (toInt32 (total + len), buf)
        else if dataBlocks fs ≤ iblock fs inode ((offset + (total + len)) / modFblockSize) then
          pure (-1, buf)
        else loopAt fs inode offset nbytes fuel (total + len) buf) := by
  simp only [loopAt, readLoop, cpyLen_eq hwf, stop_iff htotal, pieceRead, pieceAddr]
  by_cases hstop : total + piece fs inode offset nbytes total = extent fs inode offset nbytes
  · simp only [if_pos hstop]
  · obtain ⟨hmod, hdiv⟩ := piece_next htotal hstop
    simp only [if_neg hstop, hmod, hdiv, Nat.sub_sub]

/-- What the loop does from a position on: the value, the buffer, and the reads, which
are inside the data blocks after the first one. -/
structure LoopSpec (fs : Image) (inode offset nbytes total : Nat) (buf : Buf)
    (r : Traced Read (Int × Buf)) : Prop where
  returns : r.value.isSome
  bad : LaterBad fs inode offset nbytes total → ∀ v ∈ r.value, v.1 = -1
  good : ¬ LaterBad fs inode offset nbytes total → ∀ v ∈ r.value,
    v.1 = toInt32 (extent fs inode offset nbytes)
  bytes : (∀ i < extent fs inode offset nbytes,
      iblock fs inode ((offset + i) / modFblockSize) < dataBlocks fs) →
    ∀ v ∈ r.value, ∀ i < extent fs inode offset nbytes,
      v.2 i = if i < total then buf i else fileByte fs inode (offset + i)
  first : pieceRead fs inode offset nbytes total ∈ r.events
  reads : ∀ e ∈ r.events, e = pieceRead fs inode offset nbytes total ∨ InDataBlocks fs e

/-- The data blocks end inside the address space. -/
theorem dataStart_le (hwf : WellFormed fs) :
    dataStart fs + modFblockSize * dataBlocks fs ≤ 2 ^ 32 := by
  have hfits := hwf.fits
  unfold dataStart modFblockSize at *
  omega

/-- The first byte of a valid block, and a place in it, without wrapping. -/
theorem dataMem_add (hwf : WellFormed fs) {idx off : Nat} (hidx : idx < dataBlocks fs)
    (hoff : off < modFblockSize) :
    (dataMem fs idx + off) % 2 ^ 32 = dataStart fs + modFblockSize * idx + off := by
  have hend := dataStart_le hwf
  unfold dataMem modFblockSize at *
  omega

/-- A piece from a valid block lies in the data blocks. -/
theorem inDataBlocks_piece (hwf : WellFormed fs) {total : Nat}
    (hidx : iblock fs inode ((offset + total) / modFblockSize) < dataBlocks fs) :
    InDataBlocks fs (pieceRead fs inode offset nbytes total) := by
  have hoff : (offset + total) % modFblockSize < modFblockSize := Nat.mod_lt _ (by decide)
  right
  simp only [pieceRead, pieceAddr, dataMem_add hwf hidx hoff, piece]
  generalize iblock fs inode ((offset + total) / modFblockSize) = idx at hidx
  unfold modFblockSize at *
  omega

/-- A piece is read against the block number at its position. -/
theorem inDataBlocks_piece_iff (hwf : WellFormed fs) {total : Nat}
    (hpos : 0 < piece fs inode offset nbytes total) :
    InDataBlocks fs (pieceRead fs inode offset nbytes total) ↔
      iblock fs inode ((offset + total) / modFblockSize) % 2 ^ 20 < dataBlocks fs := by
  have hend := dataStart_le hwf
  have hoff : (offset + total) % modFblockSize < modFblockSize := Nat.mod_lt _ (by decide)
  have hlen : piece fs inode offset nbytes total ≤
      modFblockSize - (offset + total) % modFblockSize := Nat.min_le_left ..
  simp only [InDataBlocks, pieceRead, pieceAddr, dataMem]
  generalize iblock fs inode ((offset + total) / modFblockSize) = idx
  generalize piece fs inode offset nbytes total = len at *
  unfold modFblockSize at *
  omega

/-- The bytes of a piece from a valid block are the file's. -/
theorem mem_pieceAddr (hwf : WellFormed fs) {total i : Nat} (hlo : total ≤ i)
    (hhi : i < total + piece fs inode offset nbytes total)
    (hidx : iblock fs inode ((offset + total) / modFblockSize) < dataBlocks fs) :
    fs.mem (pieceAddr fs inode offset total + (i - total)) = fileByte fs inode (offset + i) := by
  have hoff : (offset + total) % modFblockSize < modFblockSize := Nat.mod_lt _ (by decide)
  have hlen : piece fs inode offset nbytes total ≤
      modFblockSize - (offset + total) % modFblockSize := Nat.min_le_left ..
  have hblock : (offset + i) / modFblockSize = (offset + total) / modFblockSize := by
    unfold modFblockSize at *
    omega
  have hplace : (offset + i) % modFblockSize = (offset + total) % modFblockSize + (i - total) := by
    unfold modFblockSize at *
    omega
  rw [pieceAddr, dataMem_add hwf hidx hoff, fileByte, hblock, hplace]
  congr 1
  omega

/-- No block number is left to check after the last piece. -/
theorem not_laterBad_of_last {total : Nat}
    (hstop : total + piece fs inode offset nbytes total = extent fs inode offset nbytes) :
    ¬ LaterBad fs inode offset nbytes total := by
  rintro ⟨i, hi, hlater, -⟩
  have hlen : piece fs inode offset nbytes total ≤
      modFblockSize - (offset + total) % modFblockSize := Nat.min_le_left ..
  unfold modFblockSize at *
  omega

/-- What is left to check after a piece is the block of the next one and what is left
to check after that. -/
theorem laterBad_iff {total : Nat} (htotal : total ≤ extent fs inode offset nbytes)
    (hne : total + piece fs inode offset nbytes total ≠ extent fs inode offset nbytes) :
    LaterBad fs inode offset nbytes total ↔
      dataBlocks fs ≤ iblock fs inode
        ((offset + (total + piece fs inode offset nbytes total)) / modFblockSize) ∨
      LaterBad fs inode offset nbytes (total + piece fs inode offset nbytes total) := by
  obtain ⟨-, hdiv⟩ := piece_next htotal hne
  have hlt : total + piece fs inode offset nbytes total < extent fs inode offset nbytes := by
    have hle : piece fs inode offset nbytes total ≤ extent fs inode offset nbytes - total :=
      Nat.min_le_right ..
    omega
  constructor
  · rintro ⟨i, hi, hlater, hbad⟩
    by_cases hblock : (offset + i) / modFblockSize =
        (offset + (total + piece fs inode offset nbytes total)) / modFblockSize
    · exact Or.inl (hblock ▸ hbad)
    · exact Or.inr ⟨i, hi, by omega, hbad⟩
  · rintro (hbad | ⟨i, hi, hlater, hbad⟩)
    · exact ⟨_, hlt, by omega, hbad⟩
    · exact ⟨i, hi, by omega, hbad⟩

/-- The buffer after a piece from a valid block. -/
theorem piece_bytes (hwf : WellFormed fs) {total i : Nat} (buf : Buf)
    (hidx : iblock fs inode ((offset + total) / modFblockSize) < dataBlocks fs)
    (hi : i < total + piece fs inode offset nbytes total) :
    memcpy buf total fs.mem (pieceAddr fs inode offset total)
        (piece fs inode offset nbytes total) i =
      if i < total then buf i else fileByte fs inode (offset + i) := by
  by_cases hlo : i < total
  · rw [if_pos hlo, memcpy_outside (Or.inl hlo)]
  · rw [if_neg hlo, memcpy_inside (by omega) hi]
    exact mem_pieceAddr hwf (by omega) hi hidx

/-- The last pass returns what is copied. -/
theorem LoopSpec.last (hwf : WellFormed fs) {fuel total : Nat} (buf : Buf)
    (htotal : total ≤ extent fs inode offset nbytes)
    (hstop : total + piece fs inode offset nbytes total = extent fs inode offset nbytes) :
    LoopSpec fs inode offset nbytes total buf
      (loopAt fs inode offset nbytes (fuel + 1) total buf) := by
  have hlater := not_laterBad_of_last hstop
  simp only [loopAt_succ hwf fuel buf htotal, if_pos hstop]
  refine ⟨rfl, fun hbad => absurd hbad hlater, ?_, ?_, List.mem_cons_self, ?_⟩
  · rintro - v ⟨⟩
    rw [hstop]
  · rintro hall v ⟨⟩ i hi
    by_cases hpos : total < extent fs inode offset nbytes
    · exact piece_bytes hwf buf (hall total hpos) (by omega)
    · have hlo : i < total := by omega
      rw [if_pos hlo]
      exact memcpy_outside (Or.inl hlo)
  · intro e he
    exact Or.inl (List.mem_singleton.mp he)

/-- A pass that meets a bad block number fails. -/
theorem LoopSpec.fail (hwf : WellFormed fs) {fuel total : Nat} (buf : Buf)
    (htotal : total ≤ extent fs inode offset nbytes)
    (hnext : total + piece fs inode offset nbytes total < extent fs inode offset nbytes)
    (hbad : dataBlocks fs ≤ iblock fs inode
      ((offset + (total + piece fs inode offset nbytes total)) / modFblockSize)) :
    LoopSpec fs inode offset nbytes total buf
      (loopAt fs inode offset nbytes (fuel + 1) total buf) := by
  have hlater := (laterBad_iff htotal (Nat.ne_of_lt hnext)).mpr (Or.inl hbad)
  simp only [loopAt_succ hwf fuel buf htotal, if_neg (Nat.ne_of_lt hnext), if_pos hbad]
  refine ⟨rfl, ?_, fun hgood => absurd hlater hgood, ?_, List.mem_cons_self, ?_⟩
  · rintro - v ⟨⟩
    rfl
  · intro hall
    exact absurd (hall _ hnext) (Nat.not_lt_of_le hbad)
  · intro e he
    exact Or.inl (List.mem_singleton.mp he)

/-- A pass that goes on adds its piece in front of the rest. -/
theorem LoopSpec.next (hwf : WellFormed fs) {fuel total : Nat} (buf : Buf)
    (htotal : total ≤ extent fs inode offset nbytes)
    (hnext : total + piece fs inode offset nbytes total < extent fs inode offset nbytes)
    (hgood : ¬ dataBlocks fs ≤ iblock fs inode
      ((offset + (total + piece fs inode offset nbytes total)) / modFblockSize))
    (hrest : LoopSpec fs inode offset nbytes (total + piece fs inode offset nbytes total)
      (memcpy buf total fs.mem (pieceAddr fs inode offset total)
        (piece fs inode offset nbytes total))
      (loopAt fs inode offset nbytes fuel (total + piece fs inode offset nbytes total)
        (memcpy buf total fs.mem (pieceAddr fs inode offset total)
          (piece fs inode offset nbytes total)))) :
    LoopSpec fs inode offset nbytes total buf
      (loopAt fs inode offset nbytes (fuel + 1) total buf) := by
  have hlater := laterBad_iff htotal (Nat.ne_of_lt hnext)
  simp only [loopAt_succ hwf fuel buf htotal, if_neg (Nat.ne_of_lt hnext), if_neg hgood]
  refine ⟨hrest.returns, ?_, ?_, ?_, List.mem_cons_self, ?_⟩
  · intro h
    exact hrest.bad ((hlater.mp h).resolve_left hgood)
  · intro h
    exact hrest.good fun hbad => h (hlater.mpr (Or.inr hbad))
  · intro hall v hv i hi
    rw [hrest.bytes hall v hv i hi]
    by_cases hlo : i < total + piece fs inode offset nbytes total
    · rw [if_pos hlo]
      exact piece_bytes hwf buf (hall total (by omega)) hlo
    · rw [if_neg hlo, if_neg (by omega)]
  · intro e he
    rcases List.mem_cons.mp he with rfl | he
    · exact Or.inl rfl
    · right
      rcases hrest.reads e he with rfl | hin
      · exact inDataBlocks_piece hwf (Nat.lt_of_not_le hgood)
      · exact hin

/-- The value, the buffer and the reads of the loop. -/
theorem readLoop_spec (hwf : WellFormed fs) :
    ∀ (fuel total : Nat) (buf : Buf), total ≤ extent fs inode offset nbytes →
      extent fs inode offset nbytes - total < fuel →
      LoopSpec fs inode offset nbytes total buf
        (loopAt fs inode offset nbytes fuel total buf) := by
  intro fuel
  induction fuel with
  | zero =>
      intro total buf _ hfuel
      omega
  | succ fuel ih =>
      intro total buf htotal hfuel
      by_cases hstop : total + piece fs inode offset nbytes total = extent fs inode offset nbytes
      · exact LoopSpec.last hwf buf htotal hstop
      · have hle : piece fs inode offset nbytes total ≤ extent fs inode offset nbytes - total :=
          Nat.min_le_right ..
        have hnext : total + piece fs inode offset nbytes total <
            extent fs inode offset nbytes := by
          omega
        by_cases hbad : dataBlocks fs ≤ iblock fs inode
            ((offset + (total + piece fs inode offset nbytes total)) / modFblockSize)
        · exact LoopSpec.fail hwf buf htotal hnext hbad
        · -- a piece that does not end the loop is not empty, so the fuel lasts
          have hpos : 0 < piece fs inode offset nbytes total := by
            obtain ⟨-, hdiv⟩ := piece_next htotal hstop
            by_contra hzero
            rw [Nat.eq_zero_of_not_pos hzero] at hdiv
            simp at hdiv
          exact LoopSpec.next hwf buf htotal hnext hbad (ih _ _ (Nat.le_of_lt hnext) (by omega))

/-! ## The calls that do what is promised -/

theorem extent_le (fs : Image) (inode offset nbytes : Nat) :
    extent fs inode offset nbytes ≤ nbytes := Nat.min_le_left ..

/-- The call is the loop from the start. -/
theorem readData_spec (hwf : WellFormed fs) (inode offset nbytes : Nat) (buf : Buf) :
    LoopSpec fs inode offset nbytes 0 buf (readData fs inode offset buf nbytes) := by
  have hloop : readData fs inode offset buf nbytes =
      loopAt fs inode offset nbytes (nbytes + 1) 0 buf := by
    simp only [readData, loopAt, hwf.blocksize, Nat.add_zero, Nat.sub_zero]
  have hle := extent_le fs inode offset nbytes
  rw [hloop]
  exact readLoop_spec hwf (nbytes + 1) 0 buf (Nat.zero_le _) (by omega)

theorem length_lt (fs : Image) (inode : Nat) : length fs inode < 2 ^ 31 :=
  BitVec.toInt_lt

/-- Where there are bytes to read, the loop goes as far as they do. -/
theorem count_eq_extent (hpos : 0 < count fs inode offset nbytes) :
    count fs inode offset nbytes = extent fs inode offset nbytes ∧
      count fs inode offset nbytes < 2 ^ 31 := by
  have hlt := length_lt fs inode
  unfold count at hpos
  unfold count extent rmnSize
  omega

theorem toInt32_eq {n : Nat} (h : n < 2 ^ 32) :
    toInt32 n = if n < 2 ^ 31 then (n : Int) else n - 2 ^ 32 := by
  have hmod : n % 2 ^ 32 = n := Nat.mod_eq_of_lt h
  rw [toInt32, BitVec.toInt_eq_toNat_cond, BitVec.toNat_ofNat, hmod]
  split <;> split <;> omega

/-- A count is returned as `-1` only if it is the largest one. -/
theorem toInt32_eq_neg_one_iff {n : Nat} (h : n < 2 ^ 32) : toInt32 n = -1 ↔ n = 2 ^ 32 - 1 := by
  rw [toInt32_eq h]
  split <;> omega

/-- The calls that do what is promised.  With nothing to copy the inode number has to be
valid.  Otherwise the first block number, of which the address keeps 20 bits, has to lie
in the data blocks, and either everything is valid and the offset is inside the file, or
the call has to fail and meets a bad block number after the first one, or ends with a
count that is returned as `-1`. -/
def Answered (fs : Image) (inode offset nbytes : Nat) : Prop :=
  (extent fs inode offset nbytes = 0 ∧ inode < inodes fs) ∨
    (0 < extent fs inode offset nbytes ∧
      iblock fs inode (offset / modFblockSize) % 2 ^ 20 < dataBlocks fs ∧
      ((Valid fs inode offset nbytes ∧ (offset : Int) < length fs inode) ∨
        (¬ Valid fs inode offset nbytes ∧
          (LaterBad fs inode offset nbytes 0 ∨ extent fs inode offset nbytes = 2 ^ 32 - 1))))

/-- With nothing to copy the call returns zero. -/
theorem correct_iff_of_nothing (hwf : WellFormed fs) (buf : Buf)
    (hzero : extent fs inode offset nbytes = 0) :
    Correct fs inode offset nbytes (readData fs inode offset buf nbytes) ↔ inode < inodes fs := by
  have hspec := readData_spec hwf inode offset nbytes buf
  have hcount : count fs inode offset nbytes = 0 := by
    by_contra hne
    have := (count_eq_extent (Nat.pos_of_ne_zero hne)).1
    omega
  have hlater : ¬ LaterBad fs inode offset nbytes 0 := by
    rintro ⟨i, hi, -⟩
    omega
  have hvalue : ∀ v ∈ (readData fs inode offset buf nbytes).value, v.1 = 0 := by
    intro v hv
    rw [hspec.good hlater v hv, hzero]
    rfl
  constructor
  · intro h
    by_contra hinode
    obtain ⟨v, hv⟩ := Option.isSome_iff_exists.mp hspec.returns
    have hneg := h.invalid (fun hvalid => hinode hvalid.1) v hv
    rw [hvalue v hv] at hneg
    contradiction
  · intro hinode
    have hvalid : Valid fs inode offset nbytes := by
      refine ⟨hinode, fun i hi => ?_⟩
      omega
    refine ⟨hspec.returns, fun hnot => absurd hvalid hnot, fun _ v hv => ?_, ?_⟩
    · refine ⟨?_, fun i hi => ?_⟩
      · rw [hvalue v hv, hcount]
        rfl
      · omega
    · intro e he
      rcases hspec.reads e he with rfl | hin
      · left
        simp only [pieceRead, piece]
        omega
      · exact hin

/-- With something to copy the first read and the checks of the loop decide. -/
theorem correct_iff_of_something (hwf : WellFormed fs) (buf : Buf) (hbytes : nbytes < 2 ^ 32)
    (hpos : 0 < extent fs inode offset nbytes) :
    Correct fs inode offset nbytes (readData fs inode offset buf nbytes) ↔
      iblock fs inode (offset / modFblockSize) % 2 ^ 20 < dataBlocks fs ∧
        ((Valid fs inode offset nbytes ∧ (offset : Int) < length fs inode) ∨
          (¬ Valid fs inode offset nbytes ∧
            (LaterBad fs inode offset nbytes 0 ∨
              extent fs inode offset nbytes = 2 ^ 32 - 1))) := by
  have hspec := readData_spec hwf inode offset nbytes buf
  have hle := extent_le fs inode offset nbytes
  have hcount : (offset : Int) < length fs inode ↔ 0 < count fs inode offset nbytes := by
    unfold count
    omega
  have hpiece : 0 < piece fs inode offset nbytes 0 := by
    have hoff : (offset + 0) % modFblockSize < modFblockSize := Nat.mod_lt _ (by decide)
    unfold piece
    omega
  have hfirst := inDataBlocks_piece_iff hwf hpiece
  rw [Nat.add_zero] at hfirst
  rw [hcount, ← hfirst]
  obtain ⟨v, hv⟩ := Option.isSome_iff_exists.mp hspec.returns
  constructor
  · intro h
    refine ⟨h.reads _ hspec.first, ?_⟩
    by_cases hvalid : Valid fs inode offset nbytes
    · refine Or.inl ⟨hvalid, ?_⟩
      by_contra hnone
      have hzero := (h.valid hvalid v hv).1
      rw [Nat.eq_zero_of_not_pos hnone] at hzero
      by_cases hlater : LaterBad fs inode offset nbytes 0
      · rw [hspec.bad hlater v hv] at hzero
        contradiction
      · rw [hspec.good hlater v hv, toInt32_eq (by omega)] at hzero
        split at hzero <;> omega
    · refine Or.inr ⟨hvalid, ?_⟩
      by_cases hlater : LaterBad fs inode offset nbytes 0
      · exact Or.inl hlater
      · right
        have hneg := h.invalid hvalid v hv
        rwa [hspec.good hlater v hv, toInt32_eq_neg_one_iff (by omega)] at hneg
  · rintro ⟨hin, hcase⟩
    have hreads : ∀ e ∈ (readData fs inode offset buf nbytes).events, InDataBlocks fs e := by
      intro e he
      rcases hspec.reads e he with rfl | hrest
      · exact hin
      · exact hrest
    rcases hcase with ⟨hvalid, hsome⟩ | ⟨hvalid, hfail⟩
    · obtain ⟨hext, hsmall⟩ := count_eq_extent hsome
      have hall : ∀ i < extent fs inode offset nbytes,
          iblock fs inode ((offset + i) / modFblockSize) < dataBlocks fs := by
        intro i hi
        exact (hvalid.2 i (by omega)).2
      have hlater : ¬ LaterBad fs inode offset nbytes 0 := by
        rintro ⟨i, hi, -, hbad⟩
        exact absurd (hall i hi) (Nat.not_lt_of_le hbad)
      refine ⟨hspec.returns, fun hnot => absurd hvalid hnot, fun _ w hw => ⟨?_, ?_⟩, hreads⟩
      · rw [hspec.good hlater w hw, toInt32_eq (by omega), if_pos (by omega), hext]
      · intro i hi
        rw [hspec.bytes hall w hw i (by omega), if_neg (Nat.not_lt_zero i)]
    · refine ⟨hspec.returns, fun _ w hw => ?_, fun h => absurd h hvalid, hreads⟩
      by_cases hlater : LaterBad fs inode offset nbytes 0
      · exact hspec.bad hlater w hw
      · rw [hspec.good hlater w hw, toInt32_eq_neg_one_iff (by omega)]
        exact hfail.resolve_left hlater

/-- The calls that do what is promised. -/
theorem readData_correct_iff (fs : Image) (hwf : WellFormed fs) (inode offset nbytes : Nat)
    (hbytes : nbytes < 2 ^ 32) (buf : Buf) :
    Correct fs inode offset nbytes (readData fs inode offset buf nbytes) ↔
      Answered fs inode offset nbytes := by
  unfold Answered
  by_cases hpos : 0 < extent fs inode offset nbytes
  · rw [correct_iff_of_something hwf buf hbytes hpos]
    constructor
    · intro h
      exact Or.inr ⟨hpos, h⟩
    · rintro (⟨hzero, -⟩ | ⟨-, h⟩)
      · omega
      · exact h
  · have hzero := Nat.eq_zero_of_not_pos hpos
    rw [correct_iff_of_nothing hwf buf hzero]
    constructor
    · intro h
      exact Or.inl ⟨hzero, h⟩
    · rintro (⟨-, h⟩ | ⟨hpos', -⟩)
      · exact h
      · exact absurd hpos' hpos

/-- An image of one inode and one data block: a file of four bytes with a given first
block number. -/
def tinyImage (number : Nat) : Image where
  mem := setU32 (setU32 (setU32 (setU32 (fun _ => 0) 4 1) 8 1) 4096 4) 4100 number
  privData := 0
  sBlocksize := 4096

theorem readData_correct_iff_tiny :
    Correct (tinyImage 0) 0 0 4 (readData (tinyImage 0) 0 0 (fun _ => 0) 4) ↔
      Answered (tinyImage 0) 0 0 4 :=
  readData_correct_iff (tinyImage 0) ⟨rfl, by decide⟩ 0 0 4 (by decide) fun _ => 0

/-- The first block number is not checked: the only one is bad and four bytes are
returned. -/
theorem readData_tiny_bad :
    ¬ Correct (tinyImage 1) 0 0 4 (readData (tinyImage 1) 0 0 (fun _ => 0) 4) := by
  intro h
  have hinvalid : ¬ Valid (tinyImage 1) 0 0 4 := by
    rintro ⟨-, hall⟩
    exact absurd (hall 0 (by decide)).2 (by decide)
  have hvalue : (readData (tinyImage 1) 0 0 (fun _ => 0) 4).value.map Prod.fst = some 4 := rfl
  obtain ⟨v, hv, hfst⟩ := Option.map_eq_some_iff.mp hvalue
  have hneg := h.invalid hinvalid v hv
  rw [hfst] at hneg
  contradiction

end ModFs
end NochOS
