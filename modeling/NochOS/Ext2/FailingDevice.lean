import NochOS.Ext2.Indirect
import NochOS.Ext2.Transfer
import NochOS.Ext2.View
import NochOS.Library.Outcomes

/-!
# ext2 - a device that fails

The device operations return an error code.  `ext2_read_bitmap` and the access to an inode
look at it, while `ext2_access_block_bytes`, the transfer loops and the file operations do
not.  This module runs the data path over a device whose transfers fail in any pattern, and
relates it to the path over the ideal device.

Main results:

- Definition `Refines`: a program over the failing device and its effect on the ideal one.
- Theorems `refines_fileFread`, `refines_fileFwrite`: without a failure the operations are
  those of the other modules.
-/

namespace NochOS
namespace Ext2
namespace Failing

open Library Bitmap

/-! ## The device -/

/-- A transfer of one block. -/
structure Transfer where
  isWrite : Bool
  lba : Nat
  ok : Bool
deriving DecidableEq

/-- The blocks, and the transfers so far. -/
structure Dev where
  disk : Disk
  log : List Transfer

/-- Which transfers fail, by their number, and what they leave in the buffer or the block. -/
abbrev Failures := Nat → Option Buf

/-- Why a run has no end: an access outside of an array. -/
inductive Undefined where
  | outside

/-- A program over the device. -/
abbrev DevM := StateT Dev (Except Undefined)

section Code

variable (fails : Failures) (sb : Super)

/-- `d_op->read`: the return value and the buffer. -/
def devRead (addr : Nat) : DevM (Int × Buf) := fun s =>
  match fails s.log.length with
  | none => .ok ((0, s.disk addr), { s with log := s.log ++ [⟨false, addr, true⟩] })
  | some left => .ok ((-1, left), { s with log := s.log ++ [⟨false, addr, false⟩] })

/-- `d_op->write`. -/
def devWrite (addr : Nat) (buf : Buf) : DevM Int := fun s =>
  match fails s.log.length with
  | none => .ok (0, ⟨Function.update s.disk addr buf, s.log ++ [⟨true, addr, true⟩]⟩)
  | some left => .ok (-1, ⟨Function.update s.disk addr left, s.log ++ [⟨true, addr, false⟩]⟩)

/-- `ext2_access_block_bytes(rw, blkno, buf + at, offset, nbytes)`: the return value and the
buffer. -/
def ext2AccessBlockBytes (rw : Bool) (blkno : Nat) (buf : Buf) (at_ offset nbytes : Nat) :
    DevM (Int × Buf) := do
  let (retval, blkBuf) ← devRead fails (lba blkno)
  if rw then
    let retval ← devWrite fails (lba blkno) (memcpy blkBuf offset buf at_ nbytes)
    pure (retval, buf)
  else pure (retval, memcpy buf at_ blkBuf offset nbytes)

/-- `ext2_read_block`. -/
def ext2ReadBlock (blkno : Nat) : DevM (Int × Buf) := devRead fails (lba blkno)

/-- `ext2_write_block`. -/
def ext2WriteBlock (blkno : Nat) (buf : Buf) : DevM Int := devWrite fails (lba blkno) buf

/-- `ext2_read_bitmap`, for the field of the group descriptor at an offset: the number and
the contents of the block, or nothing where the caller returns -1. -/
def ext2ReadBitmap (field : Nat) : DevM (Option (Nat × Buf)) := do
  let (ret, blkBuf) ← ext2ReadBlock fails 2
  if ret ≠ 0 then pure none
  else
    let bitmapBlkno := u32At blkBuf field
    let (ret, blkBuf) ← ext2ReadBlock fails bitmapBlkno
    if ret ≠ 0 then pure none else pure (some (bitmapBlkno, blkBuf))

/-- `ino_exist`. -/
def inoExist (ino : Nat) : DevM Int := do
  if ino = 0 then pure 0
  else
    match ← ext2ReadBitmap fails 4 with
    | none => pure (-1)
    | some (_, blkBuf) => pure (bitmapQueryBit (wordsOf blkBuf) (bitOf ino))

/-- `ino_try_set`. -/
def inoTrySet (ino : Nat) : DevM Int := do
  match ← ext2ReadBitmap fails 4 with
  | none => pure (-1)
  | some (bitmapBlkno, blkBuf) =>
      if bitmapQueryBit (wordsOf blkBuf) (bitOf ino) ≠ 0 then pure 1
      else
        let _ ← ext2WriteBlock fails bitmapBlkno
          (bytesOf (bitmapSetBit (wordsOf blkBuf) (bitOf ino)))
        pure 0

/-- `next_free_blkno`. -/
def nextFreeBlkno : DevM Int := do
  match ← ext2ReadBitmap fails 0 with
  | none => pure (-1)
  | some (bitmapBlkno, blkBuf) =>
      let found := findFreeRegion (wordsOf blkBuf) (blocksize * 4) 0
      if found.1 < 0 then throw Undefined.outside
      else
        let _ ← ext2WriteBlock fails bitmapBlkno (bytesOf (bitmapSetBit found.2 found.1.toNat))
        pure (found.1 + 1)

/-- `ext2_access_inode`: the return value and the inode. -/
def ext2AccessInode (rw : Bool) (ino : Nat) (inode : Buf) : DevM (Int × Buf) := do
  let exist ← inoExist fails ino
  if exist ≠ 1 then pure (-1, inode)
  else
    let bgno := (ino - 1) / sb.sInodesPerGroup
    let iidx := (ino - 1) % sb.sInodesPerGroup
    let (ret, blkBuf) ← ext2ReadBlock fails ((sb.sBlocksPerGroup * bgno + 2) % 2 ^ 32)
    if ret ≠ 0 then pure (-1, inode)
    else
      let iBlkno := (iidx / (blocksize / sb.sInodeSize) + u32At blkBuf 8) % 2 ^ 32
      let offset := iidx % (blocksize / sb.sInodeSize) * sizeofInode
      ext2AccessBlockBytes fails rw iBlkno (if rw then inode else fun _ => 0) 0 offset sizeofInode

/-- The loop of `ext2_alloc_inode`, from block `i` on for `n` blocks. -/
def fillBlocks (i : Nat) : Nat → Buf → DevM Buf
  | 0, inode => pure inode
  | n + 1, inode => do
      let blkno ← nextFreeBlkno fails
      if 15 ≤ i then throw Undefined.outside
      else fillBlocks (i + 1) n (setIBlock inode i (blkno % 2 ^ 32).toNat)

/-- `ext2_alloc_inode`: the inode. -/
def ext2AllocInode (ino : Nat) (inode : Buf) (fsize : Nat) : DevM Buf := do
  let blocks := blocksFor fsize
  let claimed ← inoTrySet fails ino
  let i := if claimed = 0 then 0 else iBlocks inode
  let inode ← fillBlocks fails i (blocks - i) (setIBlocks (setISize inode fsize) blocks)
  let _ ← ext2AccessInode fails sb true ino inode
  pure inode

/-- A pass of `ext2_read_direct`, or of `ext2_write_direct`. -/
def directPass (rw : Bool) (inode : Buf) (at_ : Nat) (buf : Buf) (c : Chunk) : DevM Buf :=
  if 15 ≤ c.iblkno then throw Undefined.outside
  else do
    let (_, buf) ← ext2AccessBlockBytes fails rw (iBlock inode c.iblkno) buf (at_ + c.total)
      c.bufOff c.len
    pure buf

/-- `ext2_read_direct(inode, offset, buf + at, nbytes)` and `ext2_write_direct`: the return
value and the buffer. -/
def ext2AccessDirect (rw : Bool) (inode : Buf) (offset : Nat) (buf : Buf) (at_ nbytes : Nat) :
    DevM (Nat × Buf) := do
  let rmnSize := (iSize inode + 2 ^ 32 - offset) % 2 ^ 32
  let cs := chunks (offset / blocksize) (offsetIn offset) 0 rmnSize nbytes
  let buf ← cs.foldlM (directPass fails rw inode at_) buf
  pure (totalSize cs, buf)

/-- A pass of `ext2_read_indirect`. -/
def indirectPass (idrBuf : Buf) (at_ : Nat) (buf : Buf) (c : Chunk) : DevM Buf :=
  if 256 ≤ c.iblkno then throw Undefined.outside
  else do
    let (_, buf) ← ext2AccessBlockBytes fails false (u32At idrBuf (4 * c.iblkno)) buf at_ c.bufOff
      c.len
    pure buf

/-- `ext2_read_indirect(inode, offset, buf + at, nbytes)`: the return value and the
buffer. -/
def ext2ReadIndirect (inode : Buf) (offset : Nat) (buf : Buf) (at_ nbytes : Nat) :
    DevM (Nat × Buf) := do
  let rmnSize := (iSize inode + 2 * 2 ^ 32 - blocksize * 12 - offset) % 2 ^ 32
  let idrOff := (offset + 2 ^ 32 - blocksize * 12) % 2 ^ 32
  let (_, idrBuf) ← ext2ReadBlock fails (iBlock inode 12)
  let cs := chunks (idrOff / blocksize) (offsetIn idrOff) 0 rmnSize nbytes
  let buf ← cs.foldlM (indirectPass fails idrBuf at_) buf
  pure (totalSize cs, buf)

/-- `ext2_read_data`: the return value and the buffer. -/
def ext2ReadData (inode : Buf) (offset : Nat) (buf : Buf) (nbytes : Nat) : DevM (Nat × Buf) := do
  if iSize inode ≤ offset then pure (0, buf)
  else
    let nbytes := if iSize inode < (offset + nbytes) % 2 ^ 32 then iSize inode - offset else nbytes
    if (offset + nbytes) % 2 ^ 32 ≤ 12 * blocksize then
      ext2AccessDirect fails false inode offset buf 0 nbytes
    else if 12 * blocksize ≤ offset then ext2ReadIndirect fails inode offset buf 0 nbytes
    else
      let (total, buf) ← ext2AccessDirect fails false inode offset buf 0 (12 * blocksize - offset)
      if total = 2 ^ 32 - 1 then pure (2 ^ 32 - 1, buf)
      else
        ext2ReadIndirect fails inode (12 * blocksize) buf (12 * blocksize - offset)
          (nbytes - (12 * blocksize - offset))

/-- `file_fread`: the return value, the buffer and the open file. -/
def fileFread (self : File) (inode buf : Buf) (nbytes : Nat) : DevM (Int × Buf × File) := do
  if self.iMode &&& ext2SIfreg = 0 then pure (-1, buf, self)
  else
    let (_, inode) ← ext2AccessInode fails sb false self.iIno inode
    let (length, buf) ← ext2ReadData fails inode self.fPos buf nbytes
    if length = 2 ^ 32 - 1 then pure (-1, buf, self)
    else pure ((length : Int), buf, { self with fPos := (self.fPos + length) % 2 ^ 32 })

/-- `file_fwrite`: the return value and the open file. -/
def fileFwrite (self : File) (inode buf : Buf) (nbytes : Nat) : DevM (Int × File) := do
  let (_, inode) ← ext2AccessInode fails sb false self.iIno inode
  let inode ← ext2AllocInode fails sb self.iIno inode ((self.fPos + nbytes) % 2 ^ 32)
  let _ ← ext2AccessDirect fails true inode self.fPos buf 0 nbytes
  pure (0, { self with fPos := (self.fPos + nbytes) % 2 ^ 32 })

end Code

/-! ## Runs without a failure -/

/-- The log has grown, by transfers that have the outcomes of the pattern. -/
def Grew (fails : Failures) (s s' : Dev) : Prop :=
  ∃ new, s'.log = s.log ++ new ∧
    ∀ i t, new[i]? = some t → t.ok = (fails (s.log.length + i)).isNone

/-- The log has grown by transfers that succeeded. -/
def Clean (s s' : Dev) : Prop := ∃ new, s'.log = s.log ++ new ∧ ∀ t ∈ new, t.ok = true

/-- The log has grown, and one of the new transfers failed. -/
def FailedIn (s s' : Dev) : Prop := ∃ new, s'.log = s.log ++ new ∧ ∃ t ∈ new, t.ok = false

section Logs

variable {fails : Failures} {s s₁ s' : Dev}

theorem Grew.clean (h : Grew fails s s') (hok : ¬ FailedIn s s') : Clean s s' := by
  obtain ⟨new, hnew, -⟩ := h
  refine ⟨new, hnew, fun t ht => ?_⟩
  by_contra hfalse
  exact hok ⟨new, hnew, t, ht, Bool.eq_false_iff.mpr hfalse⟩

theorem Grew.trans (h₁ : Grew fails s s₁) (h₂ : Grew fails s₁ s') : Grew fails s s' := by
  obtain ⟨new₁, hnew₁, hok₁⟩ := h₁
  obtain ⟨new₂, hnew₂, hok₂⟩ := h₂
  refine ⟨new₁ ++ new₂, by rw [hnew₂, hnew₁, List.append_assoc], fun i t hi => ?_⟩
  rw [List.getElem?_append] at hi
  split at hi
  · exact hok₁ i t hi
  · next hlt =>
      rw [hok₂ _ t hi, hnew₁, List.length_append, Nat.add_assoc,
        Nat.add_sub_cancel' (not_lt.mp hlt)]

/-- The parts of a run without a failure have none. -/
theorem Clean.split (h : Clean s s') (h₁ : Grew fails s s₁) (h₂ : Grew fails s₁ s') :
    Clean s s₁ ∧ Clean s₁ s' := by
  obtain ⟨new, hnew, hok⟩ := h
  obtain ⟨new₁, hnew₁, -⟩ := h₁
  obtain ⟨new₂, hnew₂, -⟩ := h₂
  have happend : new = new₁ ++ new₂ := by
    rw [hnew₁, List.append_assoc, hnew] at hnew₂
    exact List.append_cancel_left hnew₂
  rw [happend] at hok
  exact ⟨⟨new₁, hnew₁, fun t ht => hok t (List.mem_append_left _ ht)⟩,
    new₂, hnew₂, fun t ht => hok t (List.mem_append_right _ ht)⟩

/-- A transfer of a run failed exactly when the pattern has a failure among the numbers of the
transfers of the run. -/
theorem Grew.failedIn_iff (h : Grew fails s s') :
    FailedIn s s' ↔ ∃ i, s.log.length ≤ i ∧ i < s'.log.length ∧ fails i ≠ none := by
  obtain ⟨new, hnew, hok⟩ := h
  have hlength : s'.log.length = s.log.length + new.length := by
    rw [hnew, List.length_append]
  constructor
  · rintro ⟨new', hnew', t, ht, hfalse⟩
    obtain rfl := List.append_cancel_left (hnew.symm.trans hnew')
    obtain ⟨i, hi⟩ := List.getElem?_of_mem ht
    have hlt := (List.getElem?_eq_some_iff.mp hi).1
    refine ⟨s.log.length + i, by omega, by omega, fun hnone => ?_⟩
    rw [hok i t hi, hnone] at hfalse
    exact absurd hfalse (by simp)
  · rintro ⟨i, hle, hlt, hsome⟩
    obtain ⟨t, ht⟩ : ∃ t, new[i - s.log.length]? = some t :=
      ⟨_, List.getElem?_eq_getElem (by omega)⟩
    refine ⟨new, hnew, t, List.mem_of_getElem? ht, ?_⟩
    rw [hok _ t ht, Nat.add_sub_cancel' hle]
    cases hfails : fails i with
    | none => exact absurd hfails hsome
    | some left => rfl

theorem Grew.not_failedIn_iff (h : Grew fails s s') :
    ¬ FailedIn s s' ↔ ∀ i, s.log.length ≤ i → i < s'.log.length → fails i = none := by
  rw [h.failedIn_iff]
  push Not
  rfl

theorem FailedIn.irrefl (h : FailedIn s s) : False := by
  obtain ⟨new, hnew, t, ht, -⟩ := h
  rw [List.self_eq_append_right.mp hnew] at ht
  exact List.not_mem_nil ht

end Logs

/-- A program only adds to the log, and when none of its transfers fails it has the effect
of the function on the blocks. -/
def Refines (fails : Failures) {α : Type} (m : DevM α) (f : Disk → Option (α × Disk)) : Prop :=
  ∀ s, After (fun a s' => Grew fails s s' ∧ (Clean s s' → f s.disk = some (a, s'.disk)))
    (fun _ => True) (m s)

section Rules

variable {fails : Failures} {α β : Type} {m m' : DevM α} {f f' : Disk → Option (α × Disk)}

theorem Refines.congr (h : Refines fails m f) (hf : ∀ d, f d = f' d) : Refines fails m f' := by
  have heq : f = f' := funext hf
  rw [← heq]
  exact h

theorem refines_pure (a : α) : Refines fails (pure a) fun d => some (a, d) := by
  intro s
  exact After.pure ⟨⟨[], (List.append_nil _).symm, by simp⟩, fun _ => rfl⟩

theorem refines_throw (e : Undefined) : Refines fails (throw e : DevM α) f := by
  intro s
  exact After.throw trivial

/-- One program after the other, with what is known of the value of the first one. -/
theorem Refines.bind_after {P : α → Prop} {k : α → DevM β} {h : α → Disk → Option (β × Disk)}
    (hm : Refines fails m f) (hpost : ∀ s, After (fun a _ => P a) (fun _ => True) (m s))
    (hk : ∀ a, P a → Refines fails (k a) (h a)) :
    Refines fails (m >>= k) fun d => (f d).bind fun r => h r.1 r.2 := by
  intro s
  apply After.bind
  cases hrun : m s with
  | error e => trivial
  | ok r =>
      obtain ⟨hgrew, hideal⟩ := (hm s).ok hrun
      refine (hk r.1 ((hpost s).ok hrun) r.2).mono (fun b s' hs' => ?_) fun _ _ => trivial
      refine ⟨hgrew.trans hs'.1, fun hclean => ?_⟩
      obtain ⟨hclean₁, hclean₂⟩ := hclean.split hgrew hs'.1
      dsimp only
      rw [hideal hclean₁, Option.bind_some]
      exact hs'.2 hclean₂

/-- One program after the other. -/
theorem Refines.bind {k : α → DevM β} {h : α → Disk → Option (β × Disk)} (hm : Refines fails m f)
    (hk : ∀ a, Refines fails (k a) (h a)) :
    Refines fails (m >>= k) fun d => (f d).bind fun r => h r.1 r.2 := by
  apply hm.bind_after (P := fun _ => True) (fun s => ?_) fun a _ => hk a
  exact (hm s).mono (fun _ _ _ => trivial) fun _ _ => trivial

theorem Refines.ite {c : Prop} [Decidable c] (hm : Refines fails m f) (hm' : Refines fails m' f') :
    Refines fails (if c then m else m') fun d => if c then f d else f' d := by
  by_cases hc : c
  · simp only [if_pos hc]
    exact hm
  · simp only [if_neg hc]
    exact hm'

/-- A pass for each element of a list. -/
theorem Refines.foldlM {γ : Type} {step : α → γ → DevM α} {g : α → γ → Disk → α × Disk}
    (hstep : ∀ a c, Refines fails (step a c) fun d => some (g a c d)) (cs : List γ) (a : α) :
    Refines fails (cs.foldlM step a) fun d => some (cs.foldl (fun r c => g r.1 c r.2) (a, d)) := by
  induction cs generalizing a with
  | nil => exact refines_pure a
  | cons c cs ih =>
      rw [List.foldlM_cons]
      exact ((hstep a c).bind fun a' => ih a').congr fun d => rfl

end Rules

section Data

variable (fails : Failures) (sb : Super)

/-- A run that ends in a failed transfer is not clean. -/
theorem not_clean_failed {s s' : Dev} {t : Transfer} (hlog : s'.log = s.log ++ [t])
    (ht : t.ok = false) : ¬ Clean s s' := by
  intro hclean
  obtain ⟨new, hnew, hok⟩ := hclean
  rw [hlog] at hnew
  obtain rfl := List.append_cancel_left hnew
  rw [hok t (List.mem_singleton_self t)] at ht
  exact absurd ht (by simp)

/-- One more transfer, with the outcome of the pattern. -/
theorem grew_one {s s' : Dev} {t : Transfer} (hlog : s'.log = s.log ++ [t])
    (ht : t.ok = (fails s.log.length).isNone) : Grew fails s s' := by
  refine ⟨[t], hlog, fun i t' hi => ?_⟩
  cases i with
  | zero =>
      obtain rfl := Option.some.inj hi
      exact ht
  | succ i => exact absurd hi (by simp)

theorem refines_devRead (addr : Nat) :
    Refines fails (devRead fails addr) fun d => some ((0, d addr), d) := by
  intro s
  rw [devRead]
  cases hfails : fails s.log.length with
  | none => exact ⟨grew_one fails rfl (by rw [hfails]; rfl), fun _ => rfl⟩
  | some left =>
      exact ⟨grew_one fails rfl (by rw [hfails]; rfl),
        fun hclean => absurd hclean (not_clean_failed rfl rfl)⟩

theorem refines_devWrite (addr : Nat) (buf : Buf) :
    Refines fails (devWrite fails addr buf) fun d => some (0, Function.update d addr buf) := by
  intro s
  rw [devWrite]
  cases hfails : fails s.log.length with
  | none => exact ⟨grew_one fails rfl (by rw [hfails]; rfl), fun _ => rfl⟩
  | some left =>
      exact ⟨grew_one fails rfl (by rw [hfails]; rfl),
        fun hclean => absurd hclean (not_clean_failed rfl rfl)⟩

theorem refines_accessBlockBytes (rw : Bool) (blkno : Nat) (buf : Buf) (at_ offset nbytes : Nat) :
    Refines fails (ext2AccessBlockBytes fails rw blkno buf at_ offset nbytes) fun d =>
      some (if rw then ((0, buf), Ext2.ext2WriteBlockBytes d blkno buf at_ offset nbytes)
        else ((0, Ext2.ext2ReadBlockBytes d blkno buf at_ offset nbytes), d)) := by
  apply ((refines_devRead fails (lba blkno)).bind fun r => Refines.ite
    ((refines_devWrite fails (lba blkno) (memcpy r.2 offset buf at_ nbytes)).bind fun retval =>
      refines_pure (retval, buf)) (refines_pure (r.1, memcpy buf at_ r.2 offset nbytes))).congr
  intro d
  cases rw <;> rfl

theorem refines_readBitmap (field : Nat) :
    Refines fails (ext2ReadBitmap fails field) fun d =>
      some (some (u32At (Ext2.ext2ReadBlock d 2) field,
        Ext2.ext2ReadBlock d (u32At (Ext2.ext2ReadBlock d 2) field)), d) := by
  apply ((refines_devRead fails (lba 2)).bind fun r => Refines.ite (refines_pure none)
    ((refines_devRead fails (lba (u32At r.2 field))).bind fun r' => Refines.ite (refines_pure none)
      (refines_pure (some (u32At r.2 field, r'.2))))).congr
  intro d
  simp [Ext2.ext2ReadBlock]

/-- A program that goes on with the bitmap, where the transfers were successful. -/
theorem refines_withBitmap {α : Type} (field : Nat) {k : Option (Nat × Buf) → DevM α}
    {f : Disk → Option (α × Disk)} {e : α} (hnone : k none = pure e)
    {h : Nat → Buf → Disk → Option (α × Disk)}
    (hk : ∀ blkno blkBuf, Refines fails (k (some (blkno, blkBuf))) (h blkno blkBuf))
    (hf : ∀ d, h (u32At (Ext2.ext2ReadBlock d 2) field)
      (Ext2.ext2ReadBlock d (u32At (Ext2.ext2ReadBlock d 2) field)) d = f d) :
    Refines fails (ext2ReadBitmap fails field >>= k) f := by
  apply ((refines_readBitmap fails field).bind (h := fun o d =>
    o.elim (some (e, d)) fun p => h p.1 p.2 d) fun o => ?_).congr
  · intro d
    exact hf d
  · cases o with
    | none =>
        rw [hnone]
        exact refines_pure e
    | some p => exact hk p.1 p.2

theorem refines_inoExist (ino : Nat) :
    Refines fails (inoExist fails ino) fun d => some ((Ext2.inoExist d ino : Int), d) := by
  apply ((refines_pure (0 : Int)).ite (c := ino = 0) (refines_withBitmap fails 4
    (f := fun d => some ((bitmapQueryBit (wordsOf (Ext2.ext2ReadBlock d (bgInodeBitmap d)))
      (bitOf ino) : Int), d)) rfl
    (fun _ blkBuf => refines_pure ((bitmapQueryBit (wordsOf blkBuf) (bitOf ino) : Nat) : Int))
    fun _ => rfl)).congr
  intro d
  rw [Ext2.inoExist]
  split <;> rfl

theorem refines_inoTrySet (ino : Nat) :
    Refines fails (inoTrySet fails ino) fun d =>
      some (((Ext2.inoTrySet d ino).1 : Int), (Ext2.inoTrySet d ino).2) := by
  refine refines_withBitmap fails 4 rfl (fun blkno blkBuf => (refines_pure (1 : Int)).ite
    (c := bitmapQueryBit (wordsOf blkBuf) (bitOf ino) ≠ 0)
    ((refines_devWrite fails (lba blkno)
      (bytesOf (bitmapSetBit (wordsOf blkBuf) (bitOf ino)))).bind fun _ => refines_pure (0 : Int)))
    fun d => ?_
  by_cases hquery : bitmapQueryBit (wordsOf (Ext2.ext2ReadBlock d (bgInodeBitmap d)))
      (bitOf ino) ≠ 0
  · simp only [Ext2.inoTrySet, if_pos hquery]
    exact if_pos hquery
  · simp only [Ext2.inoTrySet, if_neg hquery]
    exact if_neg hquery

theorem refines_nextFreeBlkno :
    Refines fails (nextFreeBlkno fails) fun d =>
      (Ext2.nextFreeBlkno d).map fun r => ((r.1 : Int), r.2) := by
  refine refines_withBitmap fails 0 rfl (fun blkno blkBuf =>
    (refines_throw (f := fun _ => none) Undefined.outside).ite
      (c := (findFreeRegion (wordsOf blkBuf) (blocksize * 4) 0).1 < 0)
      ((refines_devWrite fails (lba blkno)
        (bytesOf (bitmapSetBit (findFreeRegion (wordsOf blkBuf) (blocksize * 4) 0).2
          (findFreeRegion (wordsOf blkBuf) (blocksize * 4) 0).1.toNat))).bind fun _ =>
        refines_pure ((findFreeRegion (wordsOf blkBuf) (blocksize * 4) 0).1 + 1)))
    fun d => ?_
  by_cases hfound : (findFreeRegion (wordsOf (Ext2.ext2ReadBlock d (bgBlockBitmap d)))
      (blocksize * 4) 0).1 < 0
  · simp only [Ext2.nextFreeBlkno, nextFree, if_pos hfound, Option.map_none]
    exact if_pos hfound
  · simp only [Ext2.nextFreeBlkno, nextFree, if_neg hfound, Option.map_some, Nat.cast_add,
      Nat.cast_one, Int.toNat_of_nonneg (not_lt.mp hfound)]
    exact if_neg hfound

/-- The place of an inode, where the transfers were successful. -/
theorem refines_accessInode (rw : Bool) (ino : Nat) (inode : Buf) :
    Refines fails (ext2AccessInode fails sb rw ino inode) fun d =>
      if Ext2.inoExist d ino ≠ 1 then some ((-1, inode), d)
      else some (if rw then ((0, inode),
          Ext2.ext2WriteBlockBytes d (inodePlace sb d ino).1 inode 0 (inodePlace sb d ino).2
            sizeofInode)
        else ((0, Ext2.ext2ReadBlockBytes d (inodePlace sb d ino).1 (fun _ => 0) 0
          (inodePlace sb d ino).2 sizeofInode), d)) := by
  refine ((refines_inoExist fails ino).bind fun exist =>
    (refines_pure ((-1 : Int), inode)).ite (c := exist ≠ 1)
      ((refines_devRead fails _).bind fun r => (refines_pure ((-1 : Int), inode)).ite (c := r.1 ≠ 0)
        (refines_accessBlockBytes fails rw _ _ _ _ _))).congr fun d => ?_
  have hcast : ((Ext2.inoExist d ino : Nat) : Int) ≠ 1 ↔ Ext2.inoExist d ino ≠ 1 := by
    omega
  simp only [Option.bind_some, hcast]
  by_cases hexist : Ext2.inoExist d ino ≠ 1
  · rw [if_pos hexist, if_pos hexist]
  · rw [if_neg hexist, if_neg hexist]
    cases rw <;> rfl

theorem refines_readInode (ino : Nat) (inode : Buf) :
    Refines fails (ext2AccessInode fails sb false ino inode) fun d =>
      some (Ext2.ext2ReadInode sb d ino inode, d) := by
  refine (refines_accessInode fails sb false ino inode).congr fun d => ?_
  rw [Ext2.ext2ReadInode]
  split
  · rfl
  · rfl

theorem refines_writeInode (ino : Nat) (inode : Buf) :
    Refines fails (ext2AccessInode fails sb true ino inode) fun d =>
      some (((Ext2.ext2WriteInode sb d ino inode).1, inode),
        (Ext2.ext2WriteInode sb d ino inode).2) := by
  refine (refines_accessInode fails sb true ino inode).congr fun d => ?_
  by_cases hexist : Ext2.inoExist d ino ≠ 1
  · simp only [Ext2.ext2WriteInode, if_pos hexist]
  · simp only [Ext2.ext2WriteInode, if_neg hexist]
    rfl

/-- The number of a block that was found is its 32-bit value. -/
theorem nextFreeBlkno_lt {d d' : Disk} {b : Nat} (h : Ext2.nextFreeBlkno d = some (b, d')) :
    ((b : Int) % 2 ^ 32).toNat = b := by
  have hle := le_searchedBits h
  unfold searchedBits at hle
  omega

theorem refines_fillBlocks (n i : Nat) (inode : Buf) :
    Refines fails (fillBlocks fails i n inode) fun d => Ext2.fillBlocks i n inode d := by
  induction n generalizing i inode with
  | zero => exact refines_pure inode
  | succ n ih =>
      refine ((refines_nextFreeBlkno fails).bind
        (h := fun blkno d => Ext2.fillBlocks (i + 1) n (setIBlock inode i (blkno % 2 ^ 32).toNat) d)
        fun blkno => ?_).congr fun d => ?_
      · by_cases hi : 15 ≤ i
        · rw [if_pos hi]
          exact refines_throw _
        · rw [if_neg hi]
          exact ih _ _
      · rw [Ext2.fillBlocks]
        cases hnext : Ext2.nextFreeBlkno d with
        | none => rfl
        | some r =>
            obtain ⟨b, d'⟩ := r
            simp only [Option.map_some, Option.bind_some, nextFreeBlkno_lt hnext]

theorem refines_allocInode (ino : Nat) (inode : Buf) (fsize : Nat) :
    Refines fails (ext2AllocInode fails sb ino inode fsize) fun d =>
      Ext2.ext2AllocInode sb d ino inode fsize := by
  refine ((refines_inoTrySet fails ino).bind fun claimed => (refines_fillBlocks fails _ _ _).bind
    fun inode' => (refines_writeInode fails sb ino inode').bind fun _ =>
      refines_pure inode').congr fun d => ?_
  have hcast : ((Ext2.inoTrySet d ino).1 : Int) = 0 ↔ (Ext2.inoTrySet d ino).1 = 0 := by
    omega
  simp only [Option.bind_some, Ext2.ext2AllocInode, hcast]
  cases Ext2.fillBlocks _ _ _ _ with
  | none => rfl
  | some r => rfl

/-! ## The transfer loops and the file operations -/

/-- A pass of a transfer loop over the direct blocks. -/
theorem refines_directPass (rw : Bool) (inode : Buf) (at_ : Nat) (buf : Buf) (c : Chunk) :
    Refines fails (directPass fails rw inode at_ buf c) fun d =>
      some (if rw then
          (buf, Ext2.ext2WriteBlockBytes d (iBlock inode c.iblkno) buf (at_ + c.total) c.bufOff
            c.len)
        else
          (Ext2.ext2ReadBlockBytes d (iBlock inode c.iblkno) buf (at_ + c.total) c.bufOff c.len,
            d)) := by
  rw [directPass]
  by_cases hc : 15 ≤ c.iblkno
  · rw [if_pos hc]
    exact refines_throw _
  · rw [if_neg hc]
    refine ((refines_accessBlockBytes fails rw _ _ _ _ _).bind fun r =>
      refines_pure r.2).congr fun d => ?_
    cases rw <;> rfl

/-- Passes that read keep the blocks. -/
theorem foldl_read (step : Disk → Buf → Chunk → Buf) (cs : List Chunk) (buf : Buf) (d : Disk) :
    cs.foldl (fun r c => (step r.2 r.1 c, r.2)) (buf, d) = (cs.foldl (step d) buf, d) := by
  induction cs generalizing buf with
  | nil => rfl
  | cons c cs ih => exact ih _

/-- Passes that write keep the buffer. -/
theorem foldl_write (step : Buf → Disk → Chunk → Disk) (cs : List Chunk) (buf : Buf) (d : Disk) :
    cs.foldl (fun r c => (r.1, step r.1 r.2 c)) (buf, d) = (buf, cs.foldl (step buf) d) := by
  induction cs generalizing d with
  | nil => rfl
  | cons c cs ih => exact ih _

theorem refines_readDirect (inode : Buf) (offset : Nat) (buf : Buf) (at_ nbytes : Nat) :
    Refines fails (ext2AccessDirect fails false inode offset buf at_ nbytes) fun d =>
      some (Ext2.ext2ReadDirect d inode offset buf at_ nbytes, d) := by
  refine ((Refines.foldlM (refines_directPass fails false inode at_) _ buf).bind fun buf' =>
    refines_pure (_, buf')).congr fun d => ?_
  have hfold := foldl_read (fun d buf c => Ext2.ext2ReadBlockBytes d (iBlock inode c.iblkno) buf
    (at_ + c.total) c.bufOff c.len) (chunks (offset / blocksize) (offsetIn offset) 0
      ((iSize inode + 2 ^ 32 - offset) % 2 ^ 32) nbytes) buf d
  simp only [Bool.false_eq_true, if_false, hfold, Option.bind_some]
  rfl

theorem refines_writeDirect (inode : Buf) (offset : Nat) (buf : Buf) (nbytes : Nat) :
    Refines fails (ext2AccessDirect fails true inode offset buf 0 nbytes) fun d =>
      some (((Ext2.ext2WriteDirect d inode offset buf nbytes).1, buf),
        (Ext2.ext2WriteDirect d inode offset buf nbytes).2) := by
  refine ((Refines.foldlM (refines_directPass fails true inode 0) _ buf).bind fun buf' =>
    refines_pure (_, buf')).congr fun d => ?_
  have hfold := foldl_write (fun buf d c => Ext2.ext2WriteBlockBytes d (iBlock inode c.iblkno) buf
    c.total c.bufOff c.len) (chunks (offset / blocksize) (offsetIn offset) 0
      ((iSize inode + 2 ^ 32 - offset) % 2 ^ 32) nbytes) buf d
  simp only [if_true, Nat.zero_add, hfold, Option.bind_some]
  rfl

/-- A pass of the transfer loop over the indirect blocks. -/
theorem refines_indirectPass (idrBuf : Buf) (at_ : Nat) (buf : Buf) (c : Chunk) :
    Refines fails (indirectPass fails idrBuf at_ buf c) fun d =>
      some (Ext2.ext2ReadBlockBytes d (u32At idrBuf (4 * c.iblkno)) buf at_ c.bufOff c.len, d) := by
  rw [indirectPass]
  by_cases hc : 256 ≤ c.iblkno
  · rw [if_pos hc]
    exact refines_throw _
  · rw [if_neg hc]
    exact ((refines_accessBlockBytes fails false _ _ _ _ _).bind fun r =>
      refines_pure r.2).congr fun d => rfl

theorem refines_readIndirect (inode : Buf) (offset : Nat) (buf : Buf) (at_ nbytes : Nat) :
    Refines fails (ext2ReadIndirect fails inode offset buf at_ nbytes) fun d =>
      some (Ext2.ext2ReadIndirect d inode offset buf at_ nbytes, d) := by
  refine ((refines_devRead fails _).bind fun r =>
    (Refines.foldlM (refines_indirectPass fails r.2 at_) _ buf).bind fun buf' =>
      refines_pure (_, buf')).congr fun d => ?_
  have hfold := foldl_read (fun d' buf c => Ext2.ext2ReadBlockBytes d'
    (u32At (Ext2.ext2ReadBlock d (iBlock inode 12)) (4 * c.iblkno)) buf at_ c.bufOff c.len)
    (chunks ((offset + 2 ^ 32 - blocksize * 12) % 2 ^ 32 / blocksize)
      (offsetIn ((offset + 2 ^ 32 - blocksize * 12) % 2 ^ 32)) 0
      ((iSize inode + 2 * 2 ^ 32 - blocksize * 12 - offset) % 2 ^ 32) nbytes) buf d
  simp only [Option.bind_some]
  rw [Ext2.ext2ReadBlock] at hfold
  rw [hfold]
  rfl

/-- A transfer over blocks with numbers below a bound moves a bounded number of bytes. -/
theorem totalSize_le {n iblkno : Nat} {bufOff : Fin blocksize} {total rmnSize nbytes : Nat}
    (h : ∀ c ∈ chunks iblkno bufOff total rmnSize nbytes, c.iblkno < n) :
    totalSize (chunks iblkno bufOff total rmnSize nbytes) ≤ (n - iblkno) * blocksize := by
  fun_induction chunks iblkno bufOff total rmnSize nbytes with
  | case1 iblkno bufOff total rmnSize nbytes len ih =>
      have hlen : len ≤ blocksize := by
        have heq : cpyLen bufOff rmnSize nbytes = len := rfl
        simp only [cpyLen] at heq
        split at heq <;> split at heq <;> omega
      have hfirst := h _ List.mem_cons_self
      dsimp only at hfirst
      obtain ⟨m, hm⟩ : ∃ m, n - iblkno = m + 1 := ⟨n - iblkno - 1, by omega⟩
      have hm' : n - (iblkno + 1) = m := by omega
      rw [hm, Nat.add_mul, Nat.one_mul]
      by_cases hstop : len = rmnSize ∨ len = nbytes
      · simp only [totalSize, if_pos hstop, List.map_cons, List.map_nil, List.sum_cons,
          List.sum_nil]
        omega
      · have hrest := ih hstop fun c hc => h c (by
          rw [if_neg hstop]
          exact List.mem_cons_of_mem _ hc)
        rw [hm'] at hrest
        simp only [totalSize, if_neg hstop, List.map_cons, List.sum_cons] at hrest ⊢
        omega

/-- So the number of bytes is not that of an error. -/
theorem totalSize_lt {n iblkno : Nat} {bufOff : Fin blocksize} {total rmnSize nbytes : Nat}
    (hn : n ≤ 256) (h : ∀ c ∈ chunks iblkno bufOff total rmnSize nbytes, c.iblkno < n) :
    totalSize (chunks iblkno bufOff total rmnSize nbytes) < 2 ^ 32 - 1 :=
  calc
    totalSize (chunks iblkno bufOff total rmnSize nbytes) ≤ (n - iblkno) * blocksize :=
      totalSize_le h
    _ ≤ 256 * blocksize := Nat.mul_le_mul_right _ ((Nat.sub_le n iblkno).trans hn)
    _ < 2 ^ 32 - 1 := by decide

/-- Passes that come back have used numbers below the bound. -/
theorem foldlM_lt {n : Nat} {step : Buf → Chunk → DevM Buf}
    (hstep : ∀ buf c s, n ≤ c.iblkno → step buf c s = .error .outside) (cs : List Chunk)
    (buf : Buf) (s : Dev) :
    After (fun _ _ => ∀ c ∈ cs, c.iblkno < n) (fun _ => True) (cs.foldlM step buf s) := by
  induction cs generalizing buf s with
  | nil => exact After.pure (by simp)
  | cons c cs ih =>
      rw [List.foldlM_cons]
      apply After.bind
      by_cases hc : n ≤ c.iblkno
      · exact After.of_error (hstep buf c s hc) trivial
      · cases hrun : step buf c s with
        | error e => trivial
        | ok r =>
            refine (ih r.1 r.2).mono (fun _ _ hrest => ?_) fun _ _ => trivial
            intro q hq
            rw [List.mem_cons] at hq
            cases hq with
            | inl heq => rw [heq]; omega
            | inr hmem => exact hrest q hmem

/-- A transfer over the direct blocks moves at most as many bytes as 15 blocks have. -/
theorem accessDirect_total (rw : Bool) (inode : Buf) (offset : Nat) (buf : Buf) (at_ nbytes : Nat)
    (s : Dev) :
    After (fun r _ => r.1 < 2 ^ 32 - 1) (fun _ => True)
      (ext2AccessDirect fails rw inode offset buf at_ nbytes s) := by
  apply After.bind
  refine (@foldlM_lt 15 (directPass fails rw inode at_) (fun buf c s hc => ?_) _ buf s).mono
    (fun buf' s' hlt => After.pure ?_) fun _ _ => trivial
  · rw [directPass, if_pos hc]
    rfl
  · exact totalSize_lt (by decide) hlt

/-- A transfer over the indirect blocks moves at most as many bytes as 256 blocks have. -/
theorem readIndirect_total (inode : Buf) (offset : Nat) (buf : Buf) (at_ nbytes : Nat) (s : Dev) :
    After (fun r _ => r.1 < 2 ^ 32 - 1) (fun _ => True)
      (ext2ReadIndirect fails inode offset buf at_ nbytes s) := by
  apply After.bind
  cases ext2ReadBlock fails (iBlock inode 12) s with
  | error e => trivial
  | ok r =>
      apply After.bind
      refine (@foldlM_lt 256 (indirectPass fails r.1.2 at_) (fun buf c s hc => ?_) _ buf r.2).mono
        (fun buf' s' hlt => After.pure ?_) fun _ _ => trivial
      · rw [indirectPass, if_pos hc]
        rfl
      · exact totalSize_lt le_rfl hlt

/-- The length that is read is never -1. -/
theorem readData_total (inode : Buf) (offset : Nat) (buf : Buf) (nbytes : Nat) (s : Dev) :
    After (fun r _ => r.1 < 2 ^ 32 - 1) (fun _ => True)
      (ext2ReadData fails inode offset buf nbytes s) := by
  rw [ext2ReadData]
  by_cases hend : iSize inode ≤ offset
  · rw [if_pos hend]
    apply After.pure
    dsimp only
    omega
  · rw [if_neg hend]
    dsimp only
    generalize (if iSize inode < (offset + nbytes) % 2 ^ 32 then iSize inode - offset
      else nbytes) = count
    split_ifs
    · exact accessDirect_total fails false _ _ _ _ _ s
    · exact readIndirect_total fails _ _ _ _ _ s
    · apply After.bind
      refine (accessDirect_total fails false _ _ _ _ _ s).mono (fun r s' hr => ?_)
        fun _ _ => trivial
      have hne : ¬ r.1 = 2 ^ 32 - 1 := Nat.ne_of_lt hr
      simp only [if_neg hne]
      exact readIndirect_total fails _ _ _ _ _ s'

/-! ## The effect without a failure -/

theorem refines_readData (inode : Buf) (offset : Nat) (buf : Buf) (nbytes : Nat) :
    Refines fails (ext2ReadData fails inode offset buf nbytes) fun d =>
      some (Ext2.ext2ReadData d inode offset buf nbytes, d) := by
  by_cases hend : iSize inode ≤ offset
  · simp only [ext2ReadData, Ext2.ext2ReadData, if_pos hend]
    exact refines_pure (0, buf)
  · simp only [ext2ReadData, Ext2.ext2ReadData, if_neg hend]
    generalize (if iSize inode < (offset + nbytes) % 2 ^ 32 then iSize inode - offset
      else nbytes) = count
    split_ifs
    · exact refines_readDirect fails _ _ _ _ _
    · exact refines_readIndirect fails _ _ _ _ _
    · -- the length of the direct part is never that of an error
      refine Refines.congr ((refines_readDirect fails _ _ _ _ _).bind_after
        (h := fun r d => some (Ext2.ext2ReadIndirect d inode (12 * blocksize) r.2
          (12 * blocksize - offset) (count - (12 * blocksize - offset)), d))
        (accessDirect_total fails false _ _ _ _ _) fun r hr => ?_) fun d => rfl
      have hne : ¬ r.1 = 2 ^ 32 - 1 := Nat.ne_of_lt hr
      simp only [if_neg hne]
      exact refines_readIndirect fails _ _ r.2 _ _

/-- `file_fread` without a failure is the one of the other modules. -/
theorem refines_fileFread (self : File) (inode buf : Buf) (nbytes : Nat) :
    Refines fails (fileFread fails sb self inode buf nbytes) fun d =>
      some (Ext2.fileFread sb d self inode buf nbytes, d) := by
  by_cases hreg : self.iMode &&& ext2SIfreg = 0
  · simp only [fileFread, Ext2.fileFread, if_pos hreg]
    exact refines_pure _
  · simp only [fileFread, if_neg hreg]
    refine ((refines_readInode fails sb self.iIno inode).bind fun r =>
      (refines_readData fails r.2 self.fPos buf nbytes).bind fun r' =>
        (refines_pure ((-1 : Int), r'.2, self)).ite (c := r'.1 = 2 ^ 32 - 1)
          (refines_pure ((r'.1 : Int), r'.2,
            { self with fPos := (self.fPos + r'.1) % 2 ^ 32 }))).congr fun d => ?_
    simp only [Ext2.fileFread, if_neg hreg, Option.bind_some]
    split
    · rfl
    · rfl

/-- `file_fwrite` without a failure is the one of the other modules. -/
theorem refines_fileFwrite (self : File) (inode buf : Buf) (nbytes : Nat) :
    Refines fails (fileFwrite fails sb self inode buf nbytes) fun d =>
      (Ext2.fileFwrite sb d self inode buf nbytes).map fun r => ((0, r.2), r.1) := by
  refine ((refines_readInode fails sb self.iIno inode).bind fun r =>
    (refines_allocInode fails sb self.iIno r.2 ((self.fPos + nbytes) % 2 ^ 32)).bind fun inode' =>
      (refines_writeDirect fails inode' self.fPos buf nbytes).bind fun _ =>
        refines_pure ((0 : Int), { self with fPos := (self.fPos + nbytes) % 2 ^ 32 })).congr
    fun d => ?_
  simp only [Ext2.fileFwrite, Option.bind_some]
  cases Ext2.ext2AllocInode sb d self.iIno (Ext2.ext2ReadInode sb d self.iIno inode).2
      ((self.fPos + nbytes) % 2 ^ 32) with
  | none => rfl
  | some r => rfl

end Data

end Failing
end Ext2
end NochOS
