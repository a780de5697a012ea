import NochOS.Ext2.Device
import NochOS.Ide.Startup

/-!
# IDE driver - the blocks of the file system

The file system is modelled over an ideal device whose blocks are indexed by the address of
their first sector.  This module shows that the driver on a drive is such a device: every
block lies in two sectors, and no two blocks share one.

Main results:

- Theorem `blocks_from_start`: from start-up on, every run of block transfers is one of the
  ideal device of the file system.
-/

namespace NochOS
namespace Ide

open Library

/-- A call of `ext2_read_block` or `ext2_write_block`. -/
inductive BlockCall where
  | read (blkno : Nat) (buf : Buf)
  | write (blkno : Nat) (buf : Buf)

/-- The block that a call names. -/
def BlockCall.blkno : BlockCall → Nat
  | read blkno _ => blkno
  | write blkno _ => blkno

/-- The request that it makes. -/
def BlockCall.request : BlockCall → Request
  | read blkno buf => ⟨.read, buf, Ext2.lba blkno, Ext2.blocksize⟩
  | write blkno buf => ⟨.write, buf, Ext2.lba blkno, Ext2.blocksize⟩

/-- The call on the ideal device: the reply and the device afterwards. -/
def BlockCall.onDisk (disk : Ext2.Disk) : BlockCall → (Nat × Buf) × Ext2.Disk
  | read blkno buf => ((0, memcpy buf 0 (Ext2.ext2ReadBlock disk blkno) 0 Ext2.blocksize), disk)
  | write blkno buf => ((0, buf), Ext2.ext2WriteBlock disk blkno buf)

/-- Calls on the ideal device, one after the other. -/
def callsOnDisk : Ext2.Disk → List BlockCall → List (Nat × Buf) × Ext2.Disk
  | disk, [] => ([], disk)
  | disk, k :: ks =>
      let a := k.onDisk disk
      let as := callsOnDisk a.2 ks
      (a.1 :: as.1, as.2)

/-- The sectors hold the blocks of the ideal device. -/
def Represents (sectors : Nat → Buf) (disk : Ext2.Disk) : Prop :=
  ∀ blkno, ∀ i < Ext2.blocksize,
    disk (Ext2.lba blkno) i = sectors (Ext2.lba blkno + i / sectSize) (i % sectSize)

/-- The two sectors of a block can be accessed. -/
structure Intact (spec : DriveSpec) (capabilities : Nat) (slave : Bool) (blkno : Nat) : Prop where
  reachable : Reachable capabilities slave (Ext2.lba blkno)
  first : spec.flaw (Ext2.lba blkno) = none
  second : spec.flaw (Ext2.lba blkno + 1) = none

section Blocks

variable {spec : DriveSpec} {sectors : Nat → Buf} {disk : Ext2.Disk} {capabilities : Nat}
  {slave : Bool}

theorem nsectsOf_blocksize : nsectsOf Ext2.blocksize = 2 := by decide

/-- Blocks start at odd addresses, so that two of them share no sector. -/
theorem lba_odd (blkno : Nat) : Ext2.lba blkno % 2 = 1 := by
  unfold Ext2.lba Ext2.ext2SuperLba
  omega

theorem lba_lt (blkno : Nat) : Ext2.lba blkno < 2 ^ 32 := Nat.mod_lt _ (by decide)

theorem Intact.fits {k : BlockCall} (h : Intact spec capabilities slave k.blkno) :
    k.request.Fits capabilities slave := by
  have hpos : 0 < Ext2.blocksize := by decide
  have hshort : nsectsOf Ext2.blocksize < 256 := by decide
  cases k with
  | read blkno buf => exact ⟨hpos, hshort, lba_lt blkno, h.reachable⟩
  | write blkno buf => exact ⟨hpos, hshort, lba_lt blkno, h.reachable⟩

/-- A byte of a sector that is taken from a buffer. -/
theorem sectorOf_apply (buf : Buf) (off : Nat) {i : Nat} (hi : i < 512) :
    sectorOf buf off i = buf (off + i) := by
  rw [sectorOf, memcpy_inside (Nat.zero_le i) (by rw [Nat.zero_add]; exact hi), Nat.sub_zero]

/-- A byte of a block, in its first or its second sector. -/
theorem Represents.byte (h : Represents sectors disk) (blkno : Nat) {i : Nat} (hi : i < 1024) :
    (i < 512 ∧ disk (Ext2.lba blkno) i = sectors (Ext2.lba blkno) i) ∨
      (512 ≤ i ∧ disk (Ext2.lba blkno) i = sectors (Ext2.lba blkno + 1) (i - 512)) := by
  have hbyte := h blkno i hi
  by_cases hlow : i < 512
  · rw [show i / sectSize = 0 from Nat.div_eq_of_lt hlow,
      show i % sectSize = i from Nat.mod_eq_of_lt hlow, Nat.add_zero] at hbyte
    exact Or.inl ⟨hlow, hbyte⟩
  · have hdiv : i / sectSize = 1 := by
      unfold sectSize
      omega
    have hmod : i % sectSize = i - 512 := by
      unfold sectSize
      omega
    rw [hdiv, hmod] at hbyte
    exact Or.inr ⟨Nat.le_of_not_lt hlow, hbyte⟩

/-- A read of a block. -/
theorem Represents.read (h : Represents sectors disk) {blkno : Nat}
    (hi : Intact spec capabilities slave blkno) (buf : Buf) :
    readRow spec.flaw sectors (Ext2.lba blkno) 2 buf 0 =
      (0, memcpy buf 0 (Ext2.ext2ReadBlock disk blkno) 0 Ext2.blocksize) := by
  simp only [readRow, hi.first, hi.second, Prod.mk.injEq, true_and, sectSize, Ext2.blocksize,
    Nat.zero_add, Ext2.ext2ReadBlock]
  funext i
  by_cases hin : i < 1024
  · rw [memcpy_inside (Nat.zero_le i) (by omega), Nat.sub_zero, Nat.zero_add]
    rcases h.byte blkno hin with ⟨hlow, hbyte⟩ | ⟨hhigh, hbyte⟩
    · rw [memcpy_outside (Or.inl hlow), memcpy_inside (Nat.zero_le i) (by omega), Nat.sub_zero,
        Nat.zero_add, hbyte]
    · rw [memcpy_inside hhigh (by omega), Nat.zero_add, hbyte]
  · rw [memcpy_outside (by omega), memcpy_outside (by omega), memcpy_outside (by omega)]

/-- A write of a block. -/
theorem Represents.write (h : Represents sectors disk) {blkno : Nat}
    (hi : Intact spec capabilities slave blkno) (buf : Buf) :
    Represents (writeRow spec.flaw sectors (Ext2.lba blkno) 2 buf 0)
      (Ext2.ext2WriteBlock disk blkno buf) := by
  intro other i hlt
  have hodd := lba_odd blkno
  have hodd' := lba_odd other
  have hi2 : i / 512 = 0 ∨ i / 512 = 1 := by
    unfold Ext2.blocksize at hlt
    omega
  have hbound : i % 512 < 512 := Nat.mod_lt _ (by decide)
  simp only [writeRow, hi.first, hi.second, Ext2.ext2WriteBlock, sectSize, Nat.zero_add]
  by_cases hsame : Ext2.lba other = Ext2.lba blkno
  · rw [hsame, Function.update_self]
    rcases hi2 with hfirst | hsecond
    · have hne : Ext2.lba blkno ≠ Ext2.lba blkno + 1 := by omega
      rw [show Ext2.lba blkno + i / 512 = Ext2.lba blkno by omega, Function.update_of_ne hne,
        Function.update_self, sectorOf_apply buf 0 hbound]
      congr 1
      omega
    · rw [hsecond, Function.update_self, sectorOf_apply buf 512 hbound]
      congr 1
      omega
  · rw [Function.update_of_ne hsame, h other i hlt, Function.update_of_ne (by omega),
      Function.update_of_ne (by omega)]
    rfl

/-- A run of calls on the ideal row of sectors. -/
theorem Represents.answerAll : ∀ (ks : List BlockCall) {sectors : Nat → Buf} {disk : Ext2.Disk},
    Represents sectors disk → (∀ k ∈ ks, Intact spec capabilities slave k.blkno) →
    (answerAll spec.flaw sectors (ks.map BlockCall.request)).1 = (callsOnDisk disk ks).1 ∧
      Represents (answerAll spec.flaw sectors (ks.map BlockCall.request)).2
        (callsOnDisk disk ks).2 := by
  intro ks
  induction ks with
  | nil => exact fun h _ => ⟨rfl, h⟩
  | cons k ks ih =>
      intro sectors disk h hintact
      have hk := hintact k List.mem_cons_self
      have hothers := fun k' hk' => hintact k' (List.mem_cons_of_mem k hk')
      cases k with
      | read blkno buf =>
          have hintact : Intact spec capabilities slave blkno := hk
          have hread := h.read hintact buf
          have hanswer : answer spec.flaw sectors (BlockCall.read blkno buf).request =
              ((BlockCall.read blkno buf).onDisk disk |>.1, sectors) := by
            simp only [answer, BlockCall.request, nsectsOf_blocksize, hread, BlockCall.onDisk]
          obtain ⟨hreplies, hend⟩ := ih h hothers
          simp only [List.map_cons, Ide.answerAll, hanswer, callsOnDisk]
          exact ⟨by rw [hreplies]; rfl, hend⟩
      | write blkno buf =>
          have hwrite : Represents (writeRow spec.flaw sectors (Ext2.lba blkno) 2 buf 0)
              (Ext2.ext2WriteBlock disk blkno buf) := h.write hk buf
          obtain ⟨hreplies, hend⟩ := ih hwrite hothers
          simp only [List.map_cons, Ide.answerAll, answer, BlockCall.request, nsectsOf_blocksize,
            callsOnDisk, BlockCall.onDisk]
          exact ⟨by rw [hreplies], hend⟩

end Blocks

/-- From start-up on, block transfers through the driver are those of the ideal device of
the file system. -/
theorem blocks_from_start {τ : Type} (rest : Device Port τ) {c : Chan} (hr : c.Ready)
    (hvacant : Vacant rest) {slave : Bool} {d : Drive} (hfirst : c.firstDrive = some (slave, d))
    {disk : Ext2.Disk} (hdisk : Represents d.sectors disk) (ks : List BlockCall)
    (hintact : ∀ k ∈ ks, Intact d.spec (u16At d.spec.ident 98) slave k.blkno) :
    ∃ c' sectors, Serves c' slave d.spec sectors ∧ Represents sectors (callsOnDisk disk ks).2 ∧
      Does rest (startAndServe (ks.map BlockCall.request)) c (callsOnDisk disk ks).1 c' := by
  have hfits : ∀ r ∈ ks.map BlockCall.request, r.Fits (u16At d.spec.ident 98) slave := by
    intro r hr
    obtain ⟨k, hk, rfl⟩ := List.mem_map.mp hr
    exact (hintact k hk).fits
  obtain ⟨ide, c₁, hfound, hserves, hinit⟩ := does_ideInit rest hr hvacant hfirst
  obtain ⟨c', hserves', hall⟩ := Found.does_serveAll rest _ hfound hserves hfits
  obtain ⟨hreplies, hend⟩ := hdisk.answerAll ks hintact
  rw [hreplies] at hall
  exact ⟨c', _, hserves', hend, Does.bind hinit hall⟩

/-- Two blocks are written and one of them read. -/
theorem blocks_from_start_small :
    let ks : List BlockCall := [.write 3 fun _ => 1, .write 4 fun _ => 2, .read 3 fun _ => 0]
    ∃ c' sectors, Serves c' false smallDrive.spec sectors ∧
      Represents sectors (callsOnDisk (fun _ _ => 0) ks).2 ∧
      Does silent (startAndServe (ks.map BlockCall.request)) masterOnly
        (callsOnDisk (fun _ _ => 0) ks).1 c' := by
  intro ks
  refine blocks_from_start silent masterOnly_ready silent_vacant rfl (fun _ _ _ => rfl) ks ?_
  have hlba : ∀ blkno < 400,
      Intact smallDrive.spec (u16At smallDrive.spec.ident 98) false blkno := by
    intro blkno hblkno
    have hat : Ext2.lba blkno = 63 + blkno * 2 := Nat.mod_eq_of_lt (by
      unfold Ext2.ext2SuperLba
      omega)
    have hexists : ∀ k < 1000, smallDrive.spec.flaw k = none := fun k hk => if_pos hk
    refine ⟨Or.inr (Or.inl ⟨by decide, fun h => nomatch h⟩), hexists _ ?_, hexists _ ?_⟩
    · omega
    · omega
  intro k hk
  simp only [ks, List.mem_cons, List.not_mem_nil, or_false] at hk
  rcases hk with rfl | rfl | rfl
  · exact hlba 3 (by decide)
  · exact hlba 4 (by decide)
  · exact hlba 3 (by decide)

end Ide
end NochOS
