import NochOS.Aes.Schedule
import NochOS.Heap.SizeLimit
import NochOS.Vfs.TreeFile

/-!
# VFS - encryption and decryption of files

This module embeds `sys_encrypt` and `sys_decrypt` of `syscall.c`.  A file is read in
blocks of 16 bytes, the last one filled up with zeros, and its encryption is written
back.  Decryption cuts off the zeros at the end of the last block, whether they were
filled up or stood in the file.

Main results:

- Definitions `sysEncrypt`, `sysDecrypt`: the two calls.
- Theorem `sysEncrypt_spec`: the file after encryption.
- Theorem `sysDecrypt_spec`: the file after decryption of what encryption has left.
- Theorem `blocks_mapped_iff`: when the blocks of an encryption lie in mapped pages.
- Theorem `sysDecrypt_restores_iff`: the pair restores a file exactly when it is a
  number of whole blocks or does not end in a zero byte, and its last block does not
  leave the pages of the buffer for one that is not there.
-/

namespace NochOS
namespace Vfs

open Library Ext2 Aes

/-! ## The calls -/

/-- What the locals of a call, its buffer on the heap and `round_key` hold before they
are written, and the heap when the call takes its buffer. -/
structure CryptScratch where
  path : Scratch
  inode : Buf
  key : Buf
  input : Buf
  output : Buf
  content : Buf
  roundKey : Buf
  heap : Heap.HeapState

/-- The address is one of the utility page, which starts at zero, or of a page of the heap that
is present. -/
def mappedAt (heap : Heap.HeapState) (addr : Nat) : Bool :=
  decide (addr < 4096) || (decide (Heap.heapVirtTop ≤ addr) &&
    (decide (Heap.pagePtrToIdx addr < Heap.heapEntry) && heap.present (Heap.pagePtrToIdx addr)))

/-- The 16 bytes at an offset of a buffer can be accessed. -/
def blockMapped (heap : Heap.HeapState) (content off : Nat) : Bool :=
  mappedAt heap (content + off) && mappedAt heap (content + off + 15)

/-- `aes_get_random_key`, from the results of `rand`. -/
def aesGetRandomKey (rand : Nat → Nat) (key : Buf) : Buf :=
  (List.range 4).foldl (fun key i =>
    let key := Function.update key i (UInt8.ofNat (rand i >>> 24))
    let key := Function.update key (i + 4) (UInt8.ofNat (rand i >>> 16))
    let key := Function.update key (i + 8) (UInt8.ofNat (rand i >>> 8))
    Function.update key (i + 12) (UInt8.ofNat (rand i))) key

/-- The variables of the first loop of a call. -/
structure CryptState where
  file : File
  content : Buf
  input : Buf
  output : Buf

/-- The first loop of both calls, from block `i` on for `n` blocks: `fill` is what
happens to `in` after a read of that length.  An access to a page that is not there is a
fault. -/
def cryptLoop (sb : Super) (d : Disk) (sc : CryptScratch) (mapped : Nat → Bool)
    (fill : Nat → Buf → Buf) (cipher : Buf → Buf → Buf) :
    Nat → Nat → CryptState → Option CryptState
  | _, 0, s => some s
  | i, n + 1, s =>
      let r := fileFread sb d s.file sc.inode s.input 16
      let input := fill (r.1 % 2 ^ 32).toNat r.2.1
      let output := cipher input s.output
      if mapped (i * 16) = false then none
      else
        cryptLoop sb d sc mapped fill cipher (i + 1) n
          ⟨r.2.2, memcpy s.content (i * 16) output 0 16, input, output⟩

/-- The bytes of a buffer from an offset on. -/
def bytesFrom (content : Buf) (off : Nat) : Buf := fun k => content (off + k)

/-- The second loop of both calls, from block `i` on for `n` blocks. -/
def writeLoop (sb : Super) (sc : CryptScratch) (mapped : Nat → Bool) (content : Buf) :
    Nat → Nat → Disk → File → Option (Disk × File)
  | _, 0, d, file => some (d, file)
  | i, n + 1, d, file =>
      if mapped (i * 16) = false then none
      else
        match fileFwrite sb d file sc.inode (bytesFrom content (i * 16)) 16 with
        | none => none
        | some (d, file) => writeLoop sb sc mapped content (i + 1) n d file

/-- The loop of `sys_decrypt` that finds the end of a block, from `length` downwards. -/
def lastLength (content : Buf) (off : Nat) : Nat → Nat
  | 0 => 0
  | length + 1 => if content (off + length) ≠ 0 then length + 1 else lastLength content off length

/-- The loop of `sys_encrypt` that fills up a block. -/
def padInput (length : Nat) (input : Buf) : Buf := memset input length 0 (16 - length)

/-- `sys_encrypt`: the device afterwards.  It is left out what happens when the path does
not open a file: `file` has no contents then, or the operations are those of a
directory. -/
def sysEncrypt (sb : Super) (d : Disk) (sc : CryptScratch) (rand : Nat → Nat) (vfs : Globals)
    (fname : List UInt8) : Option Disk :=
  match fileFopen sb d sc.path vfs fname with
  | some (some file) =>
      if file.iMode &&& ext2SIfdir ≠ 0 then none
      else
        let key := aesGetRandomKey rand sc.key
        let d := fileSetkey sb d file sc.inode key
        let cipher := aesBlockEncryption (keyExpansion sc.roundKey key)
        let bytes := file.iSize / 16
        let content := Heap.malloc sc.heap file.iSize
        let mapped := blockMapped content.2 content.1
        match cryptLoop sb d sc mapped padInput cipher 0 (bytes + 1)
          ⟨file, sc.content, sc.input, sc.output⟩ with
        | none => none
        | some s =>
            let file := { s.file with fPos := 0 }
            (writeLoop sb sc mapped s.content 0 (bytes + 1) d file).map Prod.fst
  | _ => none

/-- `n - 1` on 32-bit values. -/
def minusOne (n : Nat) : Nat := (n + 2 ^ 32 - 1) % 2 ^ 32

/-- The part of `sys_decrypt` that writes: `last` blocks, and the next one up to its end. -/
def decryptWrite (sb : Super) (d : Disk) (sc : CryptScratch) (mapped : Nat → Bool) (content : Buf)
    (last : Nat) (file : File) : Option Disk :=
  match writeLoop sb sc mapped content 0 last d file with
  | none => none
  | some (d, file) =>
      if mapped (last * 16) = false then none
      else
        let length := lastLength content (last * 16) 16
        (fileFwrite sb d file sc.inode (bytesFrom content (last * 16)) length).map Prod.fst

/-- `sys_decrypt`: the device afterwards. -/
def sysDecrypt (sb : Super) (d : Disk) (sc : CryptScratch) (vfs : Globals)
    (fname : List UInt8) : Option Disk :=
  match fileFopen sb d sc.path vfs fname with
  | some (some file) =>
      if file.iMode &&& ext2SIfdir ≠ 0 then none
      else
        let key := fileGetkey sb d file sc.inode sc.key
        let cipher := aesBlockDecryption (keyExpansion sc.roundKey key)
        let bytes := file.iSize / 16
        let content := Heap.malloc sc.heap file.iSize
        let mapped := blockMapped content.2 content.1
        match cryptLoop sb d sc mapped (fun _ input => input) cipher 0 bytes
          ⟨file, sc.content, sc.input, sc.output⟩ with
        | none => none
        | some s => decryptWrite sb d sc mapped s.content (minusOne bytes) { s.file with fPos := 0 }
  | _ => none

/-! ## The pages of the buffer -/

section Pages

variable {heap : Heap.HeapState} {size : Nat}

/-- A byte of a page of the heap window can be accessed when the page is present. -/
theorem mappedAt_page {k r : Nat} (hr : r < Heap.heapPageSize) :
    mappedAt heap (Heap.heapVirtAddr k + r) = (decide (k < Heap.heapEntry) && heap.present k) := by
  have hidx : Heap.pagePtrToIdx (Heap.heapVirtAddr k + r) = k := by
    unfold Heap.heapPageSize at hr
    unfold Heap.pagePtrToIdx Heap.heapVirtAddr Heap.heapVirtTop Heap.heapPageSize
    omega
  have hlo : Heap.heapVirtTop ≤ Heap.heapVirtAddr k + r := by
    unfold Heap.heapVirtAddr
    omega
  have hhi : ¬ Heap.heapVirtAddr k + r < 4096 := by
    unfold Heap.heapVirtTop at hlo
    omega
  simp [mappedAt, hidx, hlo, hhi]

/-- The place of an object, its pages, and what is present afterwards. -/
theorem malloc_pages (hsize : size < 2 ^ 32) (hne : (Heap.malloc heap size).1 ≠ 0) :
    ∃ idx, Heap.getAllocIdx (Heap.malloc heap size).1 = idx ∧
      (Heap.malloc heap size).1 = Heap.heapPageToData (Heap.heapVirtAddr idx) ∧
      idx + 2 ^ Heap.payloadOrder size ≤ Heap.heapEntry ∧
      ∀ i, (Heap.malloc heap size).2.present i = (heap.present i ||
        decide (idx ≤ i ∧ i < idx + 2 ^ Heap.payloadOrder size)) := by
  obtain hnull | ⟨o, t, rfl, hplaced, -, htable, heq⟩ := Heap.alloc_cases heap hsize
  · exact absurd (congrArg Prod.fst hnull) hne
  · unfold Heap.malloc
    rw [heq]
    exact ⟨o.startIdx, rfl, hplaced.ptr_eq, hplaced.inside, htable⟩

/-- The page behind those that `malloc(size)` takes is one that the heap has already. -/
def PageBehind (heap : Heap.HeapState) (size : Nat) : Prop :=
  Heap.getAllocIdx (Heap.malloc heap size).1 + 2 ^ Heap.payloadOrder size < Heap.heapEntry ∧
    heap.present (Heap.getAllocIdx (Heap.malloc heap size).1 + 2 ^ Heap.payloadOrder size) = true

/-- The sizes for which the last block of an encryption goes over the end of the pages that
hold the header and the file. -/
def LeavesPages (size : Nat) : Prop := 4080 ≤ size ∧ size ≤ 4092 ∨ 8176 ≤ size ∧ size ≤ 8188

instance (size : Nat) : Decidable (LeavesPages size) :=
  inferInstanceAs (Decidable (_ ∨ _))

/-- A byte of the buffer lies in a page of the object, or in the page behind them. -/
theorem mappedAt_buffer (hsize : size < 2 ^ 32) (hne : (Heap.malloc heap size).1 ≠ 0) {x : Nat} :
    (4 + x < 2 ^ Heap.payloadOrder size * Heap.heapPageSize →
        mappedAt (Heap.malloc heap size).2 ((Heap.malloc heap size).1 + x) = true) ∧
      ((4 + x) / Heap.heapPageSize = 2 ^ Heap.payloadOrder size →
        (mappedAt (Heap.malloc heap size).2 ((Heap.malloc heap size).1 + x) = true ↔
          PageBehind heap size)) := by
  obtain ⟨idx, hidx, hptr, hinside, hpresent⟩ := malloc_pages hsize hne
  obtain ⟨q, hq⟩ : ∃ q, q = (4 + x) / Heap.heapPageSize := ⟨_, rfl⟩
  have hplace : Heap.heapPageToData (Heap.heapVirtAddr idx) + x =
      Heap.heapVirtAddr (idx + q) + (4 + x) % Heap.heapPageSize := by
    rw [hq]
    unfold Heap.heapPageToData Heap.heapVirtAddr Heap.heapHeaderSize Heap.heapPageSize
    omega
  have hmapped : mappedAt (Heap.malloc heap size).2 ((Heap.malloc heap size).1 + x) =
      (decide (idx + q < Heap.heapEntry) && (heap.present (idx + q) ||
        decide (q < 2 ^ Heap.payloadOrder size))) := by
    rw [hptr, hplace, mappedAt_page (Nat.mod_lt _ (by decide)), hpresent]
    simp
  rw [hmapped, ← hq, PageBehind, hidx]
  constructor
  · intro hlt
    have hown : q < 2 ^ Heap.payloadOrder size := by
      rw [hq]
      exact Nat.div_lt_of_lt_mul (by rwa [Nat.mul_comm])
    have hentry : idx + q < Heap.heapEntry := by omega
    simp [hown, hentry]
  · intro hbehind
    rw [hbehind]
    simp

/-- A block inside the object can be accessed. -/
theorem blockMapped_inside (hsize : size < 2 ^ 32) (hne : (Heap.malloc heap size).1 ≠ 0)
    {off : Nat} (hoff : 4 + (off + 16) ≤ 2 ^ Heap.payloadOrder size * Heap.heapPageSize) :
    blockMapped (Heap.malloc heap size).2 (Heap.malloc heap size).1 off = true := by
  have hfirst := (mappedAt_buffer hsize hne (x := off)).1 (by omega)
  have hlast := (mappedAt_buffer hsize hne (x := off + 15)).1 (by omega)
  rw [blockMapped, hfirst, Nat.add_assoc, hlast]
  rfl

/-- A small request has one, two or four pages. -/
theorem payloadPages_cases (hsize : size ≤ 12 * 1024) :
    4 + size ≤ 2 ^ Heap.payloadOrder size * Heap.heapPageSize ∧
      (2 ^ Heap.payloadOrder size = 1 ∨
        2 ^ Heap.payloadOrder size = 2 ∧ Heap.heapPageSize < 4 + size ∨
        2 ^ Heap.payloadOrder size = 4 ∧ 2 * Heap.heapPageSize < 4 + size) := by
  have hpages : Heap.reqPageNum size ≤ Heap.maxHeapEntry := by
    unfold Heap.reqPageNum Heap.heapPageSize Heap.maxHeapEntry
    omega
  obtain ⟨-, hfits, hleast, -⟩ := Heap.payloadOrder_spec hpages
  refine ⟨hfits, ?_⟩
  generalize Heap.payloadOrder size = k at hleast ⊢
  unfold Heap.heapHeaderSize Heap.heapPageSize at hleast
  unfold Heap.heapPageSize
  by_cases hk : 3 ≤ k
  · have hlarge := hleast 2 (by omega)
    omega
  · have hsmall : k = 0 ∨ k = 1 ∨ k = 2 := by omega
    rcases hsmall with rfl | rfl | rfl
    · exact Or.inl rfl
    · have hone := hleast 0 (by decide)
      exact Or.inr (Or.inl ⟨rfl, by omega⟩)
    · have htwo := hleast 1 (by decide)
      exact Or.inr (Or.inr ⟨rfl, by omega⟩)

/-- The blocks of an encryption can be accessed exactly when the last one stays in the pages of
the buffer, or the page behind them is there. -/
theorem blocks_mapped_iff (hsize : size ≤ 12 * 1024 - 16)
    (hheap : size ≠ 0 → (Heap.malloc heap size).1 ≠ 0) :
    (∀ i < size / 16 + 1,
      blockMapped (Heap.malloc heap size).2 (Heap.malloc heap size).1 (i * 16) = true) ↔
        (LeavesPages size → PageBehind heap size) := by
  by_cases hzero : size = 0
  · -- the block of an empty file is written at address zero
    subst hzero
    refine iff_of_true (fun i hi => ?_) fun hleaves => ?_
    · obtain rfl : i = 0 := by omega
      have hnull : (Heap.malloc heap 0).1 = 0 := by simp [Heap.malloc, Heap._alloc]
      rw [hnull]
      simp [blockMapped, mappedAt]
    · unfold LeavesPages at hleaves
      omega
  · have hne := hheap hzero
    have hlt : size < 2 ^ 32 := by omega
    obtain ⟨hfits, hcases⟩ := payloadPages_cases (show size ≤ 12 * 1024 by omega)
    -- the last byte of the last block, and the page it is in
    have hleaves : LeavesPages size ↔
        (4 + (size / 16 * 16 + 15)) / Heap.heapPageSize = 2 ^ Heap.payloadOrder size := by
      unfold LeavesPages Heap.heapPageSize at *
      omega
    have hstays : ¬ LeavesPages size →
        4 + (size / 16 * 16 + 16) ≤ 2 ^ Heap.payloadOrder size * Heap.heapPageSize := by
      intro h
      unfold LeavesPages Heap.heapPageSize at *
      omega
    constructor
    · intro hall hover
      have hblock := hall (size / 16) (Nat.lt_succ_self _)
      rw [blockMapped, Bool.and_eq_true, Nat.add_assoc] at hblock
      exact ((mappedAt_buffer hlt hne).2 (hleaves.mp hover)).mp hblock.2
    · intro hbehind i hi
      by_cases hover : LeavesPages size
      · by_cases hlast : i = size / 16
        · have hfirst := (mappedAt_buffer hlt hne (x := i * 16)).1 (by
            unfold Heap.heapPageSize at *
            omega)
          rw [blockMapped, hfirst, Nat.add_assoc, hlast,
            ((mappedAt_buffer hlt hne).2 (hleaves.mp hover)).mpr (hbehind hover)]
          rfl
        · exact blockMapped_inside hlt hne (by omega)
      · have hin := hstays hover
        exact blockMapped_inside hlt hne (by omega)

end Pages

/-! ## Blocks of a file -/

/-- The bytes of a file, and zeros behind them. -/
def zeroFilled (content : List UInt8) : Buf := fun k => content.getD k 0

/-- The first `n` bytes of what a stage makes of the blocks of a file. -/
def stageBytes (f : Buf → Buf) (content : Buf) (k : Nat) : UInt8 :=
  f (bytesFrom content (k / 16 * 16)) (k % 16)

section Loops

variable {Obj : Type*} {g : Geometry} {d : Disk} {T : Tree (List UInt8) Obj} {ino : Obj → Nat}
  {o : Obj}

/-- The first loop puts the stage of each block behind those of the blocks before it. -/
theorem cryptLoop_spec (h : TreeFile g d T ino o) (sc : CryptScratch) {mapped : Nat → Bool}
    {N : Nat} {fill : Nat → Buf → Buf} {cipher : Buf → Buf → Buf} {f : Buf → Buf} (hf : OnBlock f)
    (hcipher : ∀ input out, ∀ k < 16, cipher input out k = f input k)
    (hfill : ∀ i < N, ∀ input : Buf,
      (∀ k < min 16 ((view g d).fileSize (ino o) - i * 16),
        input k = zeroFilled ((view g d).contents (ino o)) (i * 16 + k)) →
      ∀ k < 16, fill (min 16 ((view g d).fileSize (ino o) - i * 16)) input k =
        zeroFilled ((view g d).contents (ino o)) (i * 16 + k))
    (hN : (N - 1) * 16 ≤ (view g d).fileSize (ino o)) (hmapped : ∀ j < N, mapped (j * 16) = true)
    (n : Nat)
    {i : Nat} (hi : i + n = N) {s : CryptState} (hino : s.file.iIno = ino o)
    (hmode : s.file.iMode &&& ext2SIfreg ≠ 0) (hpos : n ≠ 0 → s.file.fPos = i * 16) :
    ∃ s', cryptLoop g.sb d sc mapped fill cipher i n s = some s' ∧ s'.file.iIno = ino o ∧
      ∀ j, s'.content j = if i * 16 ≤ j ∧ j < N * 16 then
        stageBytes f (zeroFilled ((view g d).contents (ino o))) j else s.content j := by
  induction n generalizing i s with
  | zero =>
      refine ⟨s, rfl, hino, fun j => ?_⟩
      rw [if_neg (by omega)]
  | succ n ih =>
      have hpos := hpos (Nat.succ_ne_zero n)
      obtain ⟨len, buf, hread, hlen, hbytes⟩ := h.fread sc.inode s.input hino hmode
        (show s.file.fPos ≤ (view g d).fileSize (ino o) by omega) (show 16 < 2 ^ 31 by decide)
      rw [hpos] at hlen hbytes
      have hcast : ((len : Int) % 2 ^ 32).toNat = len := by omega
      -- what is read and filled up is the block
      have hinput : ∀ k < 16, fill len buf k =
          bytesFrom (zeroFilled ((view g d).contents (ino o))) (i * 16) k := by
        rw [hlen]
        apply hfill i (by omega) buf
        intro k hk
        exact hbytes k (by rwa [hlen])
      rw [cryptLoop, hmapped i (by omega), if_neg (by simp)]
      simp only [hread, hcast]
      obtain ⟨s', hrun, hino', hcontent⟩ := @ih (i + 1) (by omega)
        ⟨{ s.file with fPos := s.file.fPos + len },
          memcpy s.content (i * 16) (cipher (fill len buf) s.output) 0 16, fill len buf,
          cipher (fill len buf) s.output⟩ hino hmode (by
            intro hn
            dsimp only
            omega)
      refine ⟨s', hrun, hino', fun j => ?_⟩
      rw [hcontent]
      dsimp only
      by_cases hlater : (i + 1) * 16 ≤ j ∧ j < N * 16
      · rw [if_pos hlater, if_pos (by omega)]
      · rw [if_neg hlater]
        by_cases hhere : i * 16 ≤ j ∧ j < N * 16
        · have hblock : j / 16 * 16 = i * 16 := by omega
          have hbyte : j % 16 = j - i * 16 := by omega
          rw [if_pos hhere, memcpy_inside hhere.1 (by omega), Nat.zero_add,
            hcipher _ _ _ (by omega), hf.congr hinput (by omega), stageBytes, hblock, hbyte]
        · rw [if_neg hhere, memcpy_outside (by omega)]

/-- A block that cannot be accessed is a fault. -/
theorem cryptLoop_fault {sb : Super} {sc : CryptScratch} {mapped : Nat → Bool}
    {fill : Nat → Buf → Buf} {cipher : Buf → Buf → Buf} (n : Nat) {i : Nat} {s : CryptState}
    (h : ∃ j, i ≤ j ∧ j < i + n ∧ mapped (j * 16) = false) :
    cryptLoop sb d sc mapped fill cipher i n s = none := by
  induction n generalizing i s with
  | zero =>
      obtain ⟨j, hlo, hhi, -⟩ := h
      omega
  | succ n ih =>
      obtain ⟨j, hlo, hhi, hfault⟩ := h
      rw [cryptLoop]
      by_cases hhere : mapped (i * 16) = false
      · rw [if_pos hhere]
      · rw [if_neg hhere]
        refine ih ⟨j, ?_, by omega, hfault⟩
        rcases Nat.lt_or_eq_of_le hlo with hlt | rfl
        · exact hlt
        · exact absurd hfault hhere

/-- The second loop puts the blocks of the buffer behind one another. -/
theorem writeLoop_spec (h : TreeFile g d T ino o) (sc : CryptScratch) {mapped : Nat → Bool}
    {content : Buf} (n : Nat) {i : Nat} {file : File} (hino : file.iIno = ino o)
    (hpos : file.fPos = i * 16) (hstart : i * 16 ≤ (view g d).fileSize (ino o))
    (htake : ((view g d).contents (ino o)).take (i * 16) = bytesAt content 0 (i * 16))
    (hsize : (i + n) * 16 ≤ 12 * blocksize) (hmapped : ∀ j < i + n, mapped (j * 16) = true)
    (hroom : blocksFor ((i + n) * 16) ≤ (view g d).freeBlocks.card + blocksFor (i * 16)) :
    ∃ d' file', writeLoop g.sb sc mapped content i n d file = some (d', file') ∧
      file'.iIno = ino o ∧ file'.fPos = (i + n) * 16 ∧ TreeFile g d' T ino o ∧
      (i + n) * 16 ≤ (view g d').fileSize (ino o) ∧
      ((view g d').contents (ino o)).take ((i + n) * 16) = bytesAt content 0 ((i + n) * 16) ∧
      (n ≠ 0 → (view g d').fileSize (ino o) = (i + n) * 16) ∧
      aesKey (view g d') (ino o) = aesKey (view g d) (ino o) ∧
      (view g d).freeBlocks.card + blocksFor (i * 16) ≤
        (view g d').freeBlocks.card + blocksFor ((i + n) * 16) := by
  induction n generalizing i d file with
  | zero =>
      refine ⟨d, file, rfl, hino, hpos, h, hstart, htake, fun hn => absurd rfl hn, rfl, ?_⟩
      rw [Nat.add_zero]
  | succ n ih =>
      have hsum : i + 1 + n = i + (n + 1) := by omega
      have hnext : i * 16 + 16 = (i + 1) * 16 := by omega
      have hmono : blocksFor ((i + 1) * 16) ≤ blocksFor ((i + (n + 1)) * 16) :=
        blocksFor_mono (by omega)
      obtain ⟨d₁, hrun, h₁, hcontents, hkey, hfree⟩ := h.fwrite sc.inode
        (bytesFrom content (i * 16)) hino (by omega) (show file.fPos + 16 ≤ 12 * blocksize by omega)
        (by rw [hpos, hnext]; omega)
      rw [hpos, hnext] at hrun hfree
      have hbytes : (view g d₁).contents (ino o) = bytesAt content 0 ((i + 1) * 16) := by
        rw [hcontents, hpos, htake, ← hnext, bytesAt_add, Nat.zero_add]
        rfl
      have hlen : (view g d₁).fileSize (ino o) = (i + 1) * 16 := by
        rw [← length_contents, hbytes, length_bytesAt]
      obtain ⟨d', file', hrest, hino', hpos', h', hstart', htake', hsize', hkey', hfree'⟩ :=
        @ih d₁ h₁ (i + 1) { file with fPos := (i + 1) * 16 } hino rfl hlen.ge
          (by rw [hbytes, List.take_of_length_le (by rw [length_bytesAt])])
          (by rwa [hsum]) (by rwa [hsum]) (by rw [hsum]; omega)
      rw [hsum] at hpos' hstart' htake' hsize' hfree'
      refine ⟨d', file', ?_, hino', hpos', h', hstart', htake', fun _ => ?_, hkey'.trans hkey, ?_⟩
      · rw [writeLoop, hmapped i (by omega), if_neg (by simp), hrun]
        exact hrest
      · by_cases hn : n = 0
        · subst hn
          simp only [writeLoop, Option.some.injEq, Prod.mk.injEq] at hrest
          rw [← hrest.1, hlen]
        · exact hsize' hn
      · omega

/-- All blocks of the buffer written from the start of the file on. -/
theorem writeLoop_all (h : TreeFile g d T ino o) (sc : CryptScratch) {mapped : Nat → Bool} {n : Nat}
    {content : Buf} {file : File} (hino : file.iIno = ino o) (hpos : file.fPos = 0)
    (hsize : n * 16 ≤ 12 * blocksize) (hmapped : ∀ j < n, mapped (j * 16) = true)
    (hroom : blocksFor (n * 16) ≤ (view g d).freeBlocks.card) :
    ∃ d' file', writeLoop g.sb sc mapped content 0 n d file = some (d', file') ∧
      file'.iIno = ino o ∧ file'.fPos = n * 16 ∧ TreeFile g d' T ino o ∧
      n * 16 ≤ (view g d').fileSize (ino o) ∧
      ((view g d').contents (ino o)).take (n * 16) = bytesAt content 0 (n * 16) ∧
      (n ≠ 0 → (view g d').fileSize (ino o) = n * 16) ∧
      aesKey (view g d') (ino o) = aesKey (view g d) (ino o) ∧
      (view g d).freeBlocks.card ≤ (view g d').freeBlocks.card + blocksFor (n * 16) := by
  have hzero : blocksFor (0 * 16) = 0 := rfl
  have hrun := @writeLoop_spec _ g d T ino o h sc mapped content n 0 file hino
    (by rw [hpos, Nat.zero_mul]) (by omega) (by simp [bytesAt])
  rw [Nat.zero_add, hzero, Nat.add_zero] at hrun
  exact hrun hsize hmapped hroom

/-! ## Encryption -/

theorem zeroFilled_past {content : List UInt8} {k : Nat} (hk : content.length ≤ k) :
    zeroFilled content k = 0 := by
  rw [zeroFilled, List.getD_eq_getElem?_getD, List.getElem?_eq_none hk, Option.getD_none]

/-- Filling up what was read of a block gives the block. -/
theorem padInput_spec {content : List UInt8} {i k : Nat} {input : Buf}
    (hinput : ∀ k < min 16 (content.length - i * 16), input k = zeroFilled content (i * 16 + k))
    (hk : k < 16) :
    padInput (min 16 (content.length - i * 16)) input k = zeroFilled content (i * 16 + k) := by
  by_cases hlt : k < min 16 (content.length - i * 16)
  · rw [padInput, memset_outside (Or.inl hlt), hinput k hlt]
  · have hlo : min 16 (content.length - i * 16) ≤ k := not_lt.mp hlt
    rw [zeroFilled_past (by omega), padInput, memset, if_pos (by omega)]

/-- The file after encryption: its blocks, filled up with zeros, encrypted with the key
that its inode has now. -/
theorem sysEncrypt_spec (h : TreeFile g d T ino o) (sc : CryptScratch) (rand : Nat → Nat)
    {vfs : Globals} {cwd : Obj} {fname : List UInt8}
    (hcwd : vfs.At T (fun dentry p => dentry.iIno = ino p ∧ ino p ≠ ino o) cwd)
    (hnul : 0 ∉ fname) (hlen : fname.length < fnameLen)
    (hpath : T.resolve pathSyntax cwd fname = .found o) {N : Nat}
    (hN : N = (view g d).fileSize (ino o) / 16 + 1) (hsize : N * 16 ≤ 12 * blocksize)
    (hroom : blocksFor (N * 16) ≤ (view g d).freeBlocks.card)
    (hmapped : ∀ j < N, blockMapped (Heap.malloc sc.heap ((view g d).fileSize (ino o))).2
      (Heap.malloc sc.heap ((view g d).fileSize (ino o))).1 (j * 16) = true) :
    ∃ d', sysEncrypt g.sb d sc rand vfs fname = some d' ∧ TreeFile g d' T ino o ∧
      (view g d').contents (ino o) = (List.range (N * 16)).map
        (stageBytes (encryptState (keyExpansion sc.roundKey (aesGetRandomKey rand sc.key)))
          (zeroFilled ((view g d).contents (ino o)))) ∧
      aesKey (view g d') (ino o) = bytesAt (aesGetRandomKey rand sc.key) 0 16 ∧
      (view g d).freeBlocks.card ≤ (view g d').freeBlocks.card + blocksFor (N * 16) := by
  have hdir : ¬ iMode ((view g d).inode (ino o)) &&& ext2SIfdir ≠ 0 := h.notDir
  obtain ⟨file, hfile⟩ : ∃ file : File, file = ⟨iMode ((view g d).inode (ino o)), ino o,
      (view g d).fileSize (ino o), 0⟩ := ⟨_, rfl⟩
  have hself : file.iIno = ino o := by rw [hfile]
  obtain ⟨h₁, hcontents, hfree, hkey⟩ := h.setkey sc.inode (aesGetRandomKey rand sc.key) hself
  have hopen := h.fopen sc.path hcwd hnul hlen hpath
  rw [← hfile] at hopen
  obtain ⟨d₁, hd₁⟩ : ∃ d₁, fileSetkey g.sb d file sc.inode (aesGetRandomKey rand sc.key) = d₁ :=
    ⟨_, rfl⟩
  rw [hd₁] at h₁ hcontents hfree hkey
  have hfsize : (view g d₁).fileSize (ino o) = (view g d).fileSize (ino o) := by
    rw [← length_contents, hcontents, length_contents]
  obtain ⟨rk, hrk⟩ : ∃ rk, keyExpansion sc.roundKey (aesGetRandomKey rand sc.key) = rk := ⟨_, rfl⟩
  have hstage : ∀ input out, ∀ k < 16,
      aesBlockEncryption rk input out k = encryptState rk input k := by
    intro input out k hk
    rw [aesBlockEncryption_eq, block_byte _ _ hk]
  obtain ⟨s, hcrypt, hino, hbytes⟩ := @cryptLoop_spec _ g d₁ T ino o h₁ sc _ N padInput _ _
    (onBlock_encryptState rk) hstage
    (fun i _ input hinput k hk => by
      rw [← length_contents] at hinput ⊢
      exact padInput_spec hinput hk)
    (by omega) hmapped N 0 (Nat.zero_add N) ⟨file, sc.content, sc.input, sc.output⟩ hself
    (by rw [hfile]; exact h.regular) (fun _ => by rw [hfile, Nat.zero_mul])
  obtain ⟨d', file', hwrite, -, -, h', -, htake, hsize', hkey', hfree'⟩ := @writeLoop_all _ g d₁ T
    ino o h₁ sc _ N s.content { s.file with fPos := 0 } hino rfl hsize hmapped (by rwa [hfree])
  have hlast := hsize' (by omega)
  refine ⟨d', ?_, h', ?_, hkey'.trans hkey, by rwa [hfree] at hfree'⟩
  · subst hfile
    simp only [sysEncrypt, hopen, if_neg hdir, hd₁, hrk, ← hN, hcrypt, hwrite, Option.map_some]
  · rw [List.take_of_length_le (by rw [length_contents, hlast])] at htake
    rw [htake, bytesAt, hrk, ← hcontents]
    apply List.map_congr_left
    intro j hj
    have hlt := List.mem_range.mp hj
    rw [Nat.zero_add, hbytes, if_pos (by omega)]

/-- Encryption of a file whose blocks cannot all be accessed is a fault. -/
theorem sysEncrypt_fault (h : TreeFile g d T ino o) (sc : CryptScratch) (rand : Nat → Nat)
    {vfs : Globals} {cwd : Obj} {fname : List UInt8}
    (hcwd : vfs.At T (fun dentry p => dentry.iIno = ino p ∧ ino p ≠ ino o) cwd)
    (hnul : 0 ∉ fname) (hlen : fname.length < fnameLen)
    (hpath : T.resolve pathSyntax cwd fname = .found o)
    (hfault : ¬ ∀ j < (view g d).fileSize (ino o) / 16 + 1,
      blockMapped (Heap.malloc sc.heap ((view g d).fileSize (ino o))).2
        (Heap.malloc sc.heap ((view g d).fileSize (ino o))).1 (j * 16) = true) :
    sysEncrypt g.sb d sc rand vfs fname = none := by
  have hdir : ¬ iMode ((view g d).inode (ino o)) &&& ext2SIfdir ≠ 0 := h.notDir
  push Not at hfault
  obtain ⟨j, hj, hfalse⟩ := hfault
  simp only [sysEncrypt, h.fopen sc.path hcwd hnul hlen hpath, if_neg hdir]
  rw [cryptLoop_fault _ ⟨j, Nat.zero_le j, by omega, Bool.eq_false_iff.mpr hfalse⟩]

/-! ## Decryption -/

theorem lastLength_le (content : Buf) (off n : Nat) : lastLength content off n ≤ n := by
  induction n with
  | zero => exact le_rfl
  | succ n ih =>
      rw [lastLength]
      by_cases hlast : content (off + n) ≠ 0
      · rw [if_pos hlast]
      · rw [if_neg hlast]
        omega

/-- The end of a block depends on the bytes of the block. -/
theorem lastLength_congr {a b : Buf} {off n : Nat} (h : ∀ k < n, a (off + k) = b (off + k)) :
    lastLength a off n = lastLength b off n := by
  induction n with
  | zero => rfl
  | succ n ih =>
      rw [lastLength, lastLength, h n (Nat.lt_succ_self n), ih fun k hk => h k (by omega)]

/-- The end that is found, when only zeros lie behind some place. -/
theorem lastLength_eq_iff {content : Buf} {off n r : Nat} (hr : r ≤ n)
    (hzero : ∀ k, r ≤ k → k < n → content (off + k) = 0) :
    lastLength content off n = r ↔ r = 0 ∨ content (off + (r - 1)) ≠ 0 := by
  induction n with
  | zero =>
      have hnone : r = 0 := Nat.le_zero.mp hr
      simp [lastLength, hnone]
  | succ n ih =>
      rw [lastLength]
      rcases Nat.lt_or_eq_of_le hr with hlt | rfl
      · rw [if_neg (not_not.mpr (hzero n (by omega) (Nat.lt_succ_self n)))]
        exact ih (by omega) fun k hk hkn => hzero k hk (by omega)
      · rw [Nat.add_sub_cancel]
        have hle := lastLength_le content off n
        by_cases hlast : content (off + n) ≠ 0
        · simp [hlast]
        · rw [if_neg hlast]
          constructor
          · intro heq
            omega
          · rintro (hfalse | hne)
            · exact absurd hfalse (Nat.succ_ne_zero n)
            · exact absurd hne hlast

/-- The stage of decryption on what the stage of encryption has left. -/
theorem stageBytes_decrypt {rk rk' plain : Buf} {len j : Nat}
    (hkeys : ∀ state, decryptState rk' (encryptState rk state) = state) (hj : j < len * 16) :
    stageBytes (decryptState rk')
      (zeroFilled ((List.range (len * 16)).map (stageBytes (encryptState rk) plain))) j =
        plain j := by
  have hblock : ∀ k < 16,
      bytesFrom (zeroFilled ((List.range (len * 16)).map (stageBytes (encryptState rk) plain)))
        (j / 16 * 16) k = encryptState rk (bytesFrom plain (j / 16 * 16)) k := by
    intro k hk
    have hlt : j / 16 * 16 + k < len * 16 := by omega
    have hdiv : (j / 16 * 16 + k) / 16 * 16 = j / 16 * 16 := by omega
    have hmod : (j / 16 * 16 + k) % 16 = k := by omega
    simp only [bytesFrom, zeroFilled, List.getD_eq_getElem?_getD, List.getElem?_map,
      List.getElem?_range hlt, Option.map_some, Option.getD_some, stageBytes, hdiv, hmod]
  have hplace : j / 16 * 16 + j % 16 = j := by omega
  rw [stageBytes, (onBlock_decryptState rk').congr hblock (by omega), hkeys, bytesFrom, hplace]

/-- The file after decryption of encrypted blocks: the plain blocks without the zeros at
the end of the last one. -/
theorem sysDecrypt_spec (h : TreeFile g d T ino o) (sc : CryptScratch)
    {vfs : Globals} {cwd : Obj} {fname : List UInt8}
    (hcwd : vfs.At T (fun dentry p => dentry.iIno = ino p ∧ ino p ≠ ino o) cwd)
    (hnul : 0 ∉ fname) (hlen : fname.length < fnameLen)
    (hpath : T.resolve pathSyntax cwd fname = .found o) {N : Nat} (hpos : 0 < N)
    (hsize : N * 16 ≤ 12 * blocksize) (hroom : blocksFor (N * 16) ≤ (view g d).freeBlocks.card)
    (hmapped : ∀ j < N, blockMapped (Heap.malloc sc.heap (N * 16)).2
      (Heap.malloc sc.heap (N * 16)).1 (j * 16) = true) {schedule key plain : Buf}
    (hkey : aesKey (view g d) (ino o) = bytesAt key 0 16)
    (hcontents : (view g d).contents (ino o) = (List.range (N * 16)).map
      (stageBytes (encryptState (keyExpansion schedule key)) plain)) :
    ∃ d', sysDecrypt g.sb d sc vfs fname = some d' ∧ TreeFile g d' T ino o ∧
      (view g d').contents (ino o) =
        bytesAt plain 0 ((N - 1) * 16 + lastLength plain ((N - 1) * 16) 16) := by
  have hdir : ¬ iMode ((view g d).inode (ino o)) &&& ext2SIfdir ≠ 0 := h.notDir
  have hfsize : (view g d).fileSize (ino o) = N * 16 := by
    rw [← length_contents, hcontents, List.length_map, List.length_range]
  obtain ⟨file, hfile⟩ : ∃ file : File, file = ⟨iMode ((view g d).inode (ino o)), ino o,
      N * 16, 0⟩ := ⟨_, rfl⟩
  have hself : file.iIno = ino o := by rw [hfile]
  have hopen := h.fopen sc.path hcwd hnul hlen hpath
  rw [hfsize, ← hfile] at hopen
  -- the key that is read gives the schedule the blocks were encrypted with
  have hgetkey := h.getkey sc.inode sc.key hself
  obtain ⟨key', hkey'⟩ : ∃ key', fileGetkey g.sb d file sc.inode sc.key = key' := ⟨_, rfl⟩
  rw [hkey', hkey] at hgetkey
  have hsame : ∀ i < 16, key i = key' i := by
    intro i hi
    have hbyte := congrArg (fun l : List UInt8 => l.getD i 0) hgetkey
    simpa [bytesAt, hi] using hbyte.symm
  have hkeys := decryptState_of_key schedule sc.roundKey hsame
  obtain ⟨rk, hrk⟩ : ∃ rk, keyExpansion sc.roundKey key' = rk := ⟨_, rfl⟩
  rw [hrk] at hkeys
  have hstage : ∀ input out, ∀ k < 16,
      aesBlockDecryption rk input out k = decryptState rk input k := by
    intro input out k hk
    rw [aesBlockDecryption_eq, block_byte _ _ hk]
  obtain ⟨s, hcrypt, hino, hbytes⟩ := @cryptLoop_spec _ g d T ino o h sc _ N
    (fun _ input => input) _ _ (onBlock_decryptState rk) hstage
    (fun i hi input hinput k hk => hinput k (by omega)) (by omega) hmapped N 0 (Nat.zero_add N)
    ⟨file, sc.content, sc.input, sc.output⟩ hself (by rw [hfile]; exact h.regular)
    (fun _ => by rw [hfile, Nat.zero_mul])
  have hplain : ∀ j < N * 16, s.content j = plain j := by
    intro j hj
    rw [hbytes, if_pos (by omega), hcontents]
    exact stageBytes_decrypt hkeys hj
  have hlast : (N - 1) * 16 + 16 = N * 16 := by omega
  have hlength : lastLength s.content ((N - 1) * 16) 16 = lastLength plain ((N - 1) * 16) 16 :=
    lastLength_congr fun k hk => hplain _ (by omega)
  have hle := lastLength_le plain ((N - 1) * 16) 16
  have hmono₁ : blocksFor ((N - 1) * 16) ≤ blocksFor (N * 16) := blocksFor_mono (by omega)
  have hmono₂ : blocksFor ((N - 1) * 16 + lastLength plain ((N - 1) * 16) 16) ≤
      blocksFor (N * 16) := blocksFor_mono (by omega)
  obtain ⟨d₁, file₁, hwrite, hself₁, hpos₁, h₁, hstart, htake, -, -, hfree⟩ :=
    @writeLoop_all _ g d T ino o h sc _ (N - 1) s.content { s.file with fPos := 0 } hino rfl
    (by omega) (fun j hj => hmapped j (by omega)) (by omega)
  obtain ⟨d', hrun, h', hcontents', -, -⟩ := h₁.fwrite sc.inode
    (bytesFrom s.content ((N - 1) * 16)) hself₁ (by omega)
    (show file₁.fPos + lastLength plain ((N - 1) * 16) 16 ≤ 12 * blocksize by omega)
    (by rw [hpos₁]; omega)
  have hcount : minusOne (N * 16 / 16) = N - 1 := by
    unfold blocksize at hsize
    unfold minusOne
    omega
  refine ⟨d', ?_, h', ?_⟩
  · have hdiv : N * 16 / 16 = N := Nat.mul_div_cancel N (by decide)
    subst hfile
    rw [hdiv] at hcount
    have hend : decryptWrite g.sb d sc (blockMapped (Heap.malloc sc.heap (N * 16)).2
        (Heap.malloc sc.heap (N * 16)).1) s.content (N - 1) { s.file with fPos := 0 } =
          some d' := by
      have hin := hmapped (N - 1) (by omega)
      simp [decryptWrite, hwrite, hlength, hrun, hin]
    simp only [sysDecrypt, hopen, if_neg hdir, hkey', hrk, hdiv, hcrypt, hcount, hend]
  · have hbytes' : ∀ i < (N - 1) * 16 + lastLength plain ((N - 1) * 16) 16,
        s.content (0 + i) = plain (0 + i) := by
      intro i hi
      exact hplain _ (by omega)
    rw [hcontents', hpos₁, htake, ← bytesAt_congr hbytes', bytesAt_add, Nat.zero_add]
    rfl

/-! ## The pair -/

theorem bytesAt_zeroFilled (content : List UInt8) :
    bytesAt (zeroFilled content) 0 content.length = content := by
  apply List.ext_getElem
  · rw [length_bytesAt]
  · intro i h₁ h₂
    simp [bytesAt, zeroFilled, h₂]

/-- The bytes up to the end that is found are the whole file exactly when the file does
not end in a zero inside a block. -/
theorem trimmed_eq_iff (content : List UInt8) :
    bytesAt (zeroFilled content) 0 (content.length / 16 * 16 +
        lastLength (zeroFilled content) (content.length / 16 * 16) 16) = content ↔
      content.length % 16 = 0 ∨ content.getLast? ≠ some 0 := by
  obtain ⟨r, hr⟩ : ∃ r, r = content.length % 16 := ⟨_, rfl⟩
  have hsum : content.length / 16 * 16 + r = content.length := by omega
  have hend : lastLength (zeroFilled content) (content.length / 16 * 16) 16 = r ↔
      r = 0 ∨ zeroFilled content (content.length / 16 * 16 + (r - 1)) ≠ 0 :=
    lastLength_eq_iff (by omega) fun k hk _ => zeroFilled_past (by omega)
  have hwhole : bytesAt (zeroFilled content) 0 (content.length / 16 * 16 +
        lastLength (zeroFilled content) (content.length / 16 * 16) 16) = content ↔
      lastLength (zeroFilled content) (content.length / 16 * 16) 16 = r := by
    constructor
    · intro h
      have hlen := congrArg List.length h
      rw [length_bytesAt] at hlen
      omega
    · intro h
      rw [h, hsum, bytesAt_zeroFilled]
  rw [hwhole, hend, ← hr]
  by_cases hzero : r = 0
  · simp [hzero]
  · have hplace : content.length / 16 * 16 + (r - 1) = content.length - 1 := by omega
    have hlt : content.length - 1 < content.length := by omega
    rw [hplace, List.getLast?_eq_getElem?, zeroFilled, List.getD_eq_getElem?_getD,
      List.getElem?_eq_getElem hlt, Option.getD_some]
    simp

/-- Encryption and then decryption of a path give an inode its contents and its size
back. -/
def Restores (g : Geometry) (d : Disk) (sc₁ sc₂ : CryptScratch) (rand : Nat → Nat)
    (vfs : Globals) (fname : List UInt8) (n : Nat) : Prop :=
  ∃ d₁ d₂, sysEncrypt g.sb d sc₁ rand vfs fname = some d₁ ∧
    sysDecrypt g.sb d₁ sc₂ vfs fname = some d₂ ∧
    (view g d₂).contents n = (view g d).contents n ∧
    (view g d₂).fileSize n = (view g d).fileSize n

/-- The directories of a path are other inodes than the file. -/
theorem TreeFile.otherInodes (h : TreeFile g d T ino o) {vfs : Globals} {cwd : Obj}
    (hcwd : vfs.At T (fun dentry p => dentry.iIno = ino p ∧ (view g d).IsDir (ino p)) cwd) :
    vfs.At T (fun dentry p => dentry.iIno = ino p ∧ ino p ≠ ino o) cwd := by
  have hne : ∀ p, (view g d).IsDir (ino p) → ino p ≠ ino o := by
    intro p hp heq
    rw [heq] at hp
    exact h.notDir hp
  exact ⟨⟨hcwd.root.1, hne _ hcwd.root.2⟩, hcwd.names.mono fun _ p hp => ⟨hp.1, hne p hp.2⟩,
    hcwd.slash⟩

/-- What decryption leaves is the file with the zeros of its last block cut off, where the blocks
of the encryption can be accessed. -/
theorem restores_iff_trimmed (h : TreeFile g d T ino o) (sc₁ sc₂ : CryptScratch)
    (rand : Nat → Nat) {vfs : Globals} {cwd : Obj} {fname : List UInt8}
    (hcwd : vfs.At T (fun dentry p => dentry.iIno = ino p ∧ (view g d).IsDir (ino p)) cwd)
    (hnul : 0 ∉ fname) (hlen : fname.length < fnameLen)
    (hpath : T.resolve pathSyntax cwd fname = .found o)
    (hsize : (view g d).fileSize (ino o) ≤ 12 * 1024 - 16)
    (hroom : 2 * blocksFor (((view g d).fileSize (ino o) / 16 + 1) * 16) ≤
      (view g d).freeBlocks.card)
    (hmapped : ∀ i < (view g d).fileSize (ino o) / 16 + 1,
      blockMapped (Heap.malloc sc₁.heap ((view g d).fileSize (ino o))).2
        (Heap.malloc sc₁.heap ((view g d).fileSize (ino o))).1 (i * 16) = true)
    (hheap : (Heap.malloc sc₂.heap (((view g d).fileSize (ino o) / 16 + 1) * 16)).1 ≠ 0) :
    Restores g d sc₁ sc₂ rand vfs fname (ino o) ↔
      bytesAt (zeroFilled ((view g d).contents (ino o))) 0
          (((view g d).contents (ino o)).length / 16 * 16 +
            lastLength (zeroFilled ((view g d).contents (ino o)))
              (((view g d).contents (ino o)).length / 16 * 16) 16) =
        (view g d).contents (ino o) := by
  have hcwd' := h.otherInodes hcwd
  have hblocks : ((view g d).fileSize (ino o) / 16 + 1) * 16 ≤ 12 * blocksize := by
    unfold blocksize
    omega
  obtain ⟨d₁, hencrypt, h₁, hcontents₁, hkey, hfree⟩ := sysEncrypt_spec h sc₁ rand hcwd' hnul hlen
    hpath rfl hblocks (by omega) hmapped
  obtain ⟨d₂, hdecrypt, -, hcontents₂⟩ := sysDecrypt_spec h₁ sc₂ hcwd' hnul hlen hpath
    (show 0 < (view g d).fileSize (ino o) / 16 + 1 by omega) hblocks (by omega)
    (fun j hj => blockMapped_inside (by omega) hheap (by
      have hpages := (payloadPages_cases (show
        ((view g d).fileSize (ino o) / 16 + 1) * 16 ≤ 12 * 1024 by omega)).1
      omega)) hkey hcontents₁
  rw [Nat.add_sub_cancel, ← length_contents] at hcontents₂
  have hiff : Restores g d sc₁ sc₂ rand vfs fname (ino o) ↔
      (view g d₂).contents (ino o) = (view g d).contents (ino o) := by
    constructor
    · rintro ⟨e₁, e₂, hrun₁, hrun₂, hsame, -⟩
      rw [hencrypt] at hrun₁
      cases hrun₁
      rw [hdecrypt] at hrun₂
      cases hrun₂
      exact hsame
    · intro hsame
      refine ⟨d₁, d₂, hencrypt, hdecrypt, hsame, ?_⟩
      rw [← length_contents, hsame, length_contents]
  rw [hiff, hcontents₂]

/-- For every regular file of at most 12 * 1024 - 16 bytes, on every path that leads to
it, with a heap that grants both buffers and enough unused blocks, the pair of calls restores
the file exactly when it is a number of whole blocks or does not end in a zero byte, and the
page behind the pages of the first buffer is there when the last block goes into it. -/
theorem sysDecrypt_restores_iff (h : TreeFile g d T ino o) (sc₁ sc₂ : CryptScratch)
    (rand : Nat → Nat) {vfs : Globals} {cwd : Obj} {fname : List UInt8}
    (hcwd : vfs.At T (fun dentry p => dentry.iIno = ino p ∧ (view g d).IsDir (ino p)) cwd)
    (hnul : 0 ∉ fname) (hlen : fname.length < fnameLen)
    (hpath : T.resolve pathSyntax cwd fname = .found o)
    (hsize : (view g d).fileSize (ino o) ≤ 12 * 1024 - 16)
    (hroom : 2 * blocksFor (((view g d).fileSize (ino o) / 16 + 1) * 16) ≤
      (view g d).freeBlocks.card)
    (hheap₁ : (view g d).fileSize (ino o) ≠ 0 →
      (Heap.malloc sc₁.heap ((view g d).fileSize (ino o))).1 ≠ 0)
    (hheap₂ : (Heap.malloc sc₂.heap (((view g d).fileSize (ino o) / 16 + 1) * 16)).1 ≠ 0) :
    Restores g d sc₁ sc₂ rand vfs fname (ino o) ↔
      ((view g d).fileSize (ino o) % 16 = 0 ∨ ((view g d).contents (ino o)).getLast? ≠ some 0) ∧
        (LeavesPages ((view g d).fileSize (ino o)) →
          PageBehind sc₁.heap ((view g d).fileSize (ino o))) := by
  rw [← blocks_mapped_iff hsize hheap₁]
  by_cases hmapped : ∀ i < (view g d).fileSize (ino o) / 16 + 1,
      blockMapped (Heap.malloc sc₁.heap ((view g d).fileSize (ino o))).2
        (Heap.malloc sc₁.heap ((view g d).fileSize (ino o))).1 (i * 16) = true
  · rw [restores_iff_trimmed h sc₁ sc₂ rand hcwd hnul hlen hpath hsize hroom hmapped hheap₂,
      trimmed_eq_iff, length_contents]
    exact (and_iff_left hmapped).symm
  · have hfault := sysEncrypt_fault h sc₁ rand (h.otherInodes hcwd) hnul hlen hpath hmapped
    refine iff_of_false ?_ fun hboth => hmapped hboth.2
    rintro ⟨d₁, d₂, hrun, -⟩
    rw [hfault] at hrun
    exact absurd hrun (by simp)

end Loops

/-! ## A file that ends in a zero byte -/

/-- A heap on which nothing has been allocated. -/
def heapPage : CryptScratch where
  path := ⟨default, fun _ => 0, default⟩
  inode _ := 0
  key _ := 0
  input _ := 0
  output _ := 0
  content _ := 0
  roundKey _ := 0
  heap := Heap.heapInit 0 Heap.blankHeap

theorem at_inDir_isDir : inDir.At smallTree (fun dentry p => dentry.iIno = Place.ino p ∧
    (view smallGroup treeDisk).IsDir (Place.ino p)) .dir := by
  obtain ⟨hroot, -, hdir, -⟩ := directories_treeDisk
  refine ⟨⟨rfl, hroot.isDir⟩, Names.node ⟨rfl, hdir.isDir⟩ Names.sRoot, fun h => ?_⟩
  exact absurd h (by decide)

theorem fileSize_treeDisk : (view smallGroup treeDisk).fileSize 13 = 2 := inode_treeDisk.2.1

/-- The image has room for two copies of the file. -/
theorem room_treeDisk :
    2 * blocksFor (((view smallGroup treeDisk).fileSize 13 / 16 + 1) * 16) ≤
      (view smallGroup treeDisk).freeBlocks.card := by
  rw [fileSize_treeDisk]
  exact le_trans (by decide) three_le_freeBlocks

/-- The heap grants requests of less than a page. -/
theorem malloc_heapPage {size : Nat} (hpos : 0 < size) (hsize : size ≤ 4092) :
    (Heap.malloc heapPage.heap size).1 ≠ 0 := by
  have hfits : Heap.heapHeaderSize + size ≤ 2 ^ 0 * Heap.heapPageSize := by
    unfold Heap.heapHeaderSize Heap.heapPageSize
    omega
  exact Heap.malloc_accepted hpos (hfits.trans (by decide)) hfits
    (Heap.freeRun_heapInit.mono (Nat.zero_le 6))

theorem heap_treeDisk : (view smallGroup treeDisk).fileSize 13 ≠ 0 →
    (Heap.malloc heapPage.heap ((view smallGroup treeDisk).fileSize 13)).1 ≠ 0 := by
  rw [fileSize_treeDisk]
  exact fun _ => malloc_heapPage (by decide) (by decide)

theorem padded_treeDisk :
    (Heap.malloc heapPage.heap (((view smallGroup treeDisk).fileSize 13 / 16 + 1) * 16)).1 ≠ 0 := by
  rw [fileSize_treeDisk]
  exact malloc_heapPage (by decide) (by decide)

theorem small_treeDisk : (view smallGroup treeDisk).fileSize 13 ≤ 12 * 1024 - 16 := by
  rw [fileSize_treeDisk]
  decide

-- with nothing else on the heap a file of 4080 bytes has no page behind its buffer
example : LeavesPages 4080 ∧ ¬ PageBehind heapPage.heap 4080 := by
  unfold PageBehind
  decide +kernel

/-- `sysDecrypt_restores_iff` for the file "f" of the image. -/
theorem sysDecrypt_restores_iff_treeDisk :
    Restores smallGroup treeDisk heapPage heapPage (fun _ => 0) inDir [102] 13 ↔
      ((view smallGroup treeDisk).fileSize 13 % 16 = 0 ∨
        ((view smallGroup treeDisk).contents 13).getLast? ≠ some 0) ∧
      (LeavesPages ((view smallGroup treeDisk).fileSize 13) →
        PageBehind heapPage.heap ((view smallGroup treeDisk).fileSize 13)) := by
  exact sysDecrypt_restores_iff treeFile_treeDisk heapPage heapPage _ at_inDir_isDir (by decide)
    (by decide) rfl small_treeDisk room_treeDisk heap_treeDisk padded_treeDisk

/-- The file "f" holds an "A" and a zero byte.  It does not come back: the zero byte is
taken for one that was filled up. -/
theorem not_restores_treeDisk :
    ¬ Restores smallGroup treeDisk heapPage heapPage (fun _ => 0) inDir [102] 13 := by
  have hmapped := (blocks_mapped_iff small_treeDisk heap_treeDisk).mpr fun hleaves => by
    rw [fileSize_treeDisk] at hleaves
    exact absurd hleaves (by decide)
  have hiff := restores_iff_trimmed treeFile_treeDisk heapPage heapPage (fun _ => 0)
    at_inDir_isDir (show 0 ∉ [102] by decide) (by decide) rfl small_treeDisk room_treeDisk
    hmapped padded_treeDisk
  have hcontents : (view smallGroup treeDisk).contents (Place.ino .file) = [65, 0] :=
    contents_treeDisk
  rw [hcontents] at hiff
  intro h
  exact absurd (hiff.mp h) (by decide)

end Vfs
end NochOS
