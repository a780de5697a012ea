import NochOS.Ext2.Lookup

/-!
# ext2 - creation of directory entries

The insertion loop looks for a record with enough slack, or for unused room at the
end of the last block, and splits off a new record there.  When it finds neither it
takes a fresh block, whose number it stores in the copy of the directory inode in
memory only.

Main results:

- Theorem `insertLoop_cases`: where a new record goes.
- Theorem `icreate_spec`: the image after a creation.
- Theorem `icreate_correct_iff`: the creations that a later lookup finds.
- Theorem `icreate_full_directory`: a creation that it does not find.
-/

namespace NochOS
namespace Ext2

open Library

/-! ## Steps of the insertion loop -/

/-- A record with room for another one behind its name. -/
def Slack (dFnameLen : Nat) (r : Rec) : Prop :=
  padded r.name.length + 8 + dFnameLen + 8 < r.recLen

section Step

variable {d : Disk} {inode : Buf} {dFnameLen blk off : Nat}

/-- The insertion loop at a record. -/
theorem insertLoop_at (hblk : blk < 12) (hoff : off < 1024) :
    insertLoop dFnameLen blk off inode d =
      let b := ext2ReadBlock d (iBlock inode blk)
      if dFileType b off = 0 then
        some ⟨iBlock inode blk, setDRecLen b off (blocksize - off), off, 0, inode, d⟩
      else if padded (dNameLen b off) + 8 + dFnameLen + 8 < dRecLen b off then
        some ⟨iBlock inode blk, b, off, padded (dNameLen b off) + 8, inode, d⟩
      else if dRecLen b off = 0 then none
      else insertLoop dFnameLen blk (off + dRecLen b off) inode d := by
  have hplace : boundary blk off = (blk, off) := if_neg (by omega)
  rw [insertLoop, if_pos hblk, if_neg (by omega), if_neg (by omega), hplace]

/-- The insertion loop at the end of a block goes on with the next one. -/
theorem insertLoop_cross (hblk : blk + 1 < 12) (hnext : blk + 1 < iBlocks inode)
    (hset : iBlock inode (blk + 1) ≠ 0) (hoff : 1024 ≤ off) :
    insertLoop dFnameLen blk off inode d = insertLoop dFnameLen (blk + 1) 0 inode d := by
  have hplace : boundary blk off = (blk + 1, 0) := if_pos hoff
  have hplace' : boundary (blk + 1) 0 = (blk + 1, 0) := if_neg (by omega)
  rw [insertLoop, if_pos (by omega), if_neg (by omega), if_neg (by simp [hset]), hplace]
  conv => rhs; rw [insertLoop, if_pos hblk, if_neg (by omega), if_neg (by omega), hplace']

/-- The insertion loop passes records without slack. -/
theorem insertLoop_passOf {P : Rec → Prop} (hP : Walkable P) (hblk : blk < 12) {b : Buf}
    (hb : ext2ReadBlock d (iBlock inode blk) = b) {recs : List Rec} {stop : Nat}
    (h : TilesOf P b off recs stop) (hstop : stop ≤ 1024)
    (hno : ∀ r ∈ recs, ¬ Slack dFnameLen r) :
    insertLoop dFnameLen blk off inode d = insertLoop dFnameLen blk stop inode d := by
  induction h with
  | nil off => rfl
  | @cons off stop rs hok hrest ih =>
      have hlen : 8 + padded (recAt b off).name.length ≤ dRecLen b off := hP.room _ hok
      have hle : off + dRecLen b off ≤ stop := hrest.le
      have hft : dFileType b off ≠ 0 := hP.ft _ hok
      have hslack : ¬ padded (dNameLen b off) + 8 + dFnameLen + 8 < dRecLen b off := by
        have hnot := hno _ List.mem_cons_self
        unfold Slack at hnot
        simp only [recAt, dName, length_bytesAt] at hnot
        exact hnot
      rw [insertLoop_at hblk (by omega)]
      simp only [hb, if_neg hft, if_neg hslack, if_neg (show ¬ dRecLen b off = 0 by omega)]
      exact ih hstop fun r hr => hno r (List.mem_cons_of_mem _ hr)

/-- The insertion loop at a record with slack. -/
theorem insertLoop_slack (hblk : blk < 12) (hoff : off < 1024) {b : Buf}
    (hb : ext2ReadBlock d (iBlock inode blk) = b) {r : Rec} (hr : recAt b off = r)
    (hft : r.ft ≠ 0) (hslack : Slack dFnameLen r) :
    insertLoop dFnameLen blk off inode d =
      some ⟨iBlock inode blk, b, off, padded r.name.length + 8, inode, d⟩ := by
  subst hr
  have hft' : dFileType b off ≠ 0 := hft
  have hnameLen : (recAt b off).name.length = dNameLen b off := by
    simp only [recAt, dName, length_bytesAt]
  unfold Slack at hslack
  rw [hnameLen] at hslack ⊢
  have hslack' : padded (dNameLen b off) + 8 + dFnameLen + 8 < dRecLen b off := hslack
  rw [insertLoop_at hblk hoff]
  simp only [hb, if_neg hft', if_pos hslack']

end Step

/-! ## Where a new record goes -/

/-- The directory has room for a name: a record with slack, or a block whose
records end before it. -/
def HasRoom (v : View) (ino dFnameLen : Nat) : Prop :=
  (∃ r ∈ v.entries ino, Slack dFnameLen r) ∨
    ∃ k < iBlocks (v.inode ino), ∃ stop < 1024,
      Tiles (v.dirBlock ino k) 0 (v.dirRecords ino k) stop

/-- A record of a block with slack, and the records before and behind it. -/
structure SlackAt (v : View) (ino dFnameLen k off : Nat) (pre : List Rec) (r : Rec)
    (post : List Rec) : Prop where
  block : k < iBlocks (v.inode ino)
  split : v.dirRecords ino k = pre ++ r :: post
  before : Tiles (v.dirBlock ino k) 0 pre off
  here : recAt (v.dirBlock ino k) off = r
  slack : Slack dFnameLen r

/-- The unused room at the end of the last block. -/
structure TailAt (v : View) (ino k off : Nat) : Prop where
  last : k + 1 = iBlocks (v.inode ino)
  tiles : Tiles (v.dirBlock ino k) 0 (v.dirRecords ino k) off
  tail : Tail (v.dirBlock ino k) off

section Insert

variable {g : Geometry} {d : Disk} {ino dFnameLen : Nat}

/-- The insertion loop from the start of a block on. -/
theorem insertLoop_from (h : Directory g (view g d) ino) {k : Nat}
    (hk : k < iBlocks ((view g d).inode ino)) :
    (∃ j off pre r post, SlackAt (view g d) ino dFnameLen j off pre r post ∧
        insertLoop dFnameLen k 0 ((view g d).inode ino) d =
          some ⟨iBlock ((view g d).inode ino) j, (view g d).dirBlock ino j, off,
            padded r.name.length + 8, (view g d).inode ino, d⟩) ∨
      (∃ j off, TailAt (view g d) ino j off ∧
        insertLoop dFnameLen k 0 ((view g d).inode ino) d =
          some ⟨iBlock ((view g d).inode ino) j,
            setDRecLen ((view g d).dirBlock ino j) off (blocksize - off), off, 0,
            (view g d).inode ino, d⟩) ∨
      ((∀ j, k ≤ j → j < iBlocks ((view g d).inode ino) →
          (∀ r ∈ (view g d).dirRecords ino j, ¬ Slack dFnameLen r) ∧
            Tiles ((view g d).dirBlock ino j) 0 ((view g d).dirRecords ino j) 1024) ∧
        insertLoop dFnameLen k 0 ((view g d).inode ino) d =
          insertLoop dFnameLen (iBlocks ((view g d).inode ino) - 1) 1024 ((view g d).inode ino)
            d) := by
  have hle := h.le
  -- the measure is the number of blocks still to be gone through
  induction hm : iBlocks ((view g d).inode ino) - k generalizing k with
  | zero => omega
  | succ m ih =>
      have hread := h.readBlock hk
      obtain ⟨stop, htiles, hend⟩ := h.tiled k hk
      have hstop : stop ≤ 1024 := stop_le (hend.imp_right And.right)
      rcases first_or_none (Slack dFnameLen) ((view g d).dirRecords ino k) with
        hno | ⟨pre, r, post, hsplit, hr, hpre⟩
      · have hpass := insertLoop_passOf walkable_ok (by omega) hread (tiles_iff.mp htiles) hstop hno
        rcases hend with rfl | ⟨hlast, htail⟩
        · by_cases hnext : k + 1 < iBlocks ((view g d).inode ino)
          · have hset : iBlock ((view g d).inode ino) (k + 1) ≠ 0 := by
              have hdata := (h.owns.data (k + 1) (by unfold directCount; omega)).1.2
              intro hzero
              rw [hzero] at hdata
              exact hdata (Or.inl (Nat.zero_le _))
            have hcross := hpass.trans (insertLoop_cross (by omega) hnext hset le_rfl)
            rw [hcross]
            rcases ih hnext (by omega) with hslack | htail | ⟨hrest, hfresh⟩
            · exact Or.inl hslack
            · exact Or.inr (Or.inl htail)
            · refine Or.inr (Or.inr ⟨fun j hkj hj => ?_, hfresh⟩)
              by_cases hjk : j = k
              · rw [hjk]
                exact ⟨hno, htiles⟩
              · exact hrest j (by omega) hj
          · refine Or.inr (Or.inr ⟨fun j hkj hj => ?_, ?_⟩)
            · have hjk : j = k := by omega
              rw [hjk]
              exact ⟨hno, htiles⟩
            · have hlast : iBlocks ((view g d).inode ino) - 1 = k := by omega
              rw [hlast]
              exact hpass
        · have hroom := htail.1
          refine Or.inr (Or.inl ⟨k, stop, ⟨hlast, htiles, htail⟩, ?_⟩)
          rw [hpass, insertLoop_at (by omega) (by omega)]
          simp only [hread, if_pos htail.2]
      · rw [hsplit] at htiles
        obtain ⟨off, htpre, htpost⟩ := htiles.split
        obtain ⟨hrec, hok, hrest⟩ := htpost.head
        have hlen := hok.recLen_ge
        have hle' := hrest.le
        refine Or.inl ⟨k, off, pre, r, post, ⟨hk, hsplit, htpre, hrec, hr⟩, ?_⟩
        rw [insertLoop_passOf walkable_ok (by omega) hread (tiles_iff.mp htpre) (by omega) hpre,
          insertLoop_slack (by omega) (by omega) hread hrec hok.ft hr]

/-- Behind the last block the insertion loop takes a fresh one. -/
theorem insertLoop_fresh (dFnameLen : Nat) {inode : Buf} (hpos : 1 ≤ iBlocks inode)
    (hle : iBlocks inode ≤ 11) {b : Nat} {d' : Disk} (hfree : nextFreeBlkno d = some (b, d'))
    (hb : b < 2 ^ 32) :
    ∃ inode', insertLoop dFnameLen (iBlocks inode - 1) 1024 inode d =
      some ⟨b, setDRecLen (ext2ReadBlock d' b) 0 blocksize, 0, 0, inode', d'⟩ := by
  have hsucc : iBlocks inode - 1 + 1 = iBlocks inode := by omega
  have hslot : iBlock (setIBlocks (setIBlock inode (iBlocks inode) b)
      (iBlocks (setIBlock inode (iBlocks inode) b) + 1)) (iBlocks inode) = b := by
    rw [iBlock, setIBlocks, u32At_setU32_of_disjoint (by omega)]
    exact u32At_setU32 inode _ hb
  rw [insertLoop, if_pos (by omega), if_pos ⟨le_rfl, hsucc.ge⟩]
  simp only [ext2AllocIblock, if_neg (show ¬ 12 ≤ iBlocks inode by omega), hfree, hsucc, hslot]
  exact ⟨_, rfl⟩

/-- The insertion loop ends at a record with slack, at unused room, or at the end of
the last block, where it takes a fresh one. -/
theorem insertLoop_cases (h : Directory g (view g d) ino) (dFnameLen : Nat) :
    (∃ k off pre r post, SlackAt (view g d) ino dFnameLen k off pre r post ∧
        insertLoop dFnameLen 0 0 ((view g d).inode ino) d =
          some ⟨iBlock ((view g d).inode ino) k, (view g d).dirBlock ino k, off,
            padded r.name.length + 8, (view g d).inode ino, d⟩) ∨
      (∃ k off, TailAt (view g d) ino k off ∧
        insertLoop dFnameLen 0 0 ((view g d).inode ino) d =
          some ⟨iBlock ((view g d).inode ino) k,
            setDRecLen ((view g d).dirBlock ino k) off (blocksize - off), off, 0,
            (view g d).inode ino, d⟩) ∨
      (¬ HasRoom (view g d) ino dFnameLen ∧
        insertLoop dFnameLen 0 0 ((view g d).inode ino) d =
          insertLoop dFnameLen (iBlocks ((view g d).inode ino) - 1) 1024 ((view g d).inode ino)
            d) := by
  rcases insertLoop_from h h.pos with hslack | htail | ⟨hrest, hfresh⟩
  · exact Or.inl hslack
  · exact Or.inr (Or.inl htail)
  · refine Or.inr (Or.inr ⟨?_, hfresh⟩)
    rintro (⟨r, hr, hslack⟩ | ⟨k, hk, stop, hstop, htiles⟩)
    · obtain ⟨k, hk, hmem⟩ := mem_entries.mp hr
      exact (hrest k (Nat.zero_le k) hk).1 r hmem hslack
    · have hend := htiles.stop_eq (hrest k (Nat.zero_le k) hk).2
      omega

theorem SlackAt.hasRoom {v : View} {k off : Nat} {pre post : List Rec} {r : Rec}
    (h : SlackAt v ino dFnameLen k off pre r post) : HasRoom v ino dFnameLen := by
  refine Or.inl ⟨r, mem_entries.mpr ⟨k, h.block, ?_⟩, h.slack⟩
  rw [h.split]
  simp

theorem TailAt.hasRoom {v : View} {k off : Nat} (h : TailAt v ino k off) :
    HasRoom v ino dFnameLen := by
  have hlast := h.last
  have hroom := h.tail.1
  exact Or.inr ⟨k, by omega, off, by omega, h.tiles⟩

end Insert

/-! ## The new record -/

/-- A name that a new entry may have. -/
structure NewName (name : List UInt8) : Prop where
  nonempty : name ≠ []
  noNul : (0 : UInt8) ∉ name
  short : name.length < fnameLen

/-- What a lookup sees of a record. -/
def Rec.key (r : Rec) : List UInt8 × Nat × Nat := (r.name, r.ino, r.ft)

section Write

variable {buf : Buf} {off n mode : Nat} {name : List UInt8} (blkno : Nat) (inode : Buf) (d : Disk)

/-- A record with slack is split in two. -/
theorem TilesOf.writeRecord {P : Rec → Prop} (hP : Walkable P) {pre post : List Rec} {r : Rec}
    {stop : Nat} (h : TilesOf P buf 0 (pre ++ r :: post) stop) (hpre : TilesOf P buf 0 pre off)
    (hstop : stop ≤ 1024) (hslack : Slack (padded name.length) r) (hshort : name.length < fnameLen)
    (hn : n < 2 ^ 32) (hold : P { r with recLen := padded r.name.length + 8 })
    (hnew : P ⟨n, r.recLen - (padded r.name.length + 8), imodeToFt mode, name⟩) :
    TilesOf P (writeRecord ⟨blkno, buf, off, padded r.name.length + 8, inode, d⟩ n mode name) 0
        (pre ++ { r with recLen := padded r.name.length + 8 } ::
          ⟨n, r.recLen - (padded r.name.length + 8), imodeToFt mode, name⟩ :: post) stop ∧
      ∀ i, stop ≤ i →
        writeRecord ⟨blkno, buf, off, padded r.name.length + 8, inode, d⟩ n mode name i =
          buf i := by
  obtain ⟨off', hpre', hpost⟩ := h.split
  obtain rfl := hpre.stop_eq hpre'
  obtain ⟨hrec, hok, hrest⟩ := hpost.head
  have hle := hrest.le
  have hlen := le_padded r.name.length
  have hlen' := le_padded name.length
  have hft := imodeToFt_lt mode
  unfold fnameLen at hshort
  unfold Slack at hslack
  have hrecLen : dRecLen buf off = r.recLen := by
    rw [← hrec]
    rfl
  simp only [Ext2.writeRecord, hrecLen]
  obtain ⟨b', hb'⟩ : ∃ b', b' = putRecord (setDRecLen buf off (padded r.name.length + 8))
      (off + (padded r.name.length + 8)) n (r.recLen - (padded r.name.length + 8))
      (imodeToFt mode) name := ⟨_, rfl⟩
  rw [← hb']
  have houtside : ∀ i, i < off ∨ off + r.recLen ≤ i → b' i = buf i := by
    intro i hi
    rw [hb', putRecord_outside (by omega), setDRecLen, setU16_outside (by omega)]
  have hhere : recAt b' off = { r with recLen := padded r.name.length + 8 } := by
    have hset : recAt (setDRecLen buf off (padded r.name.length + 8)) off =
        { r with recLen := padded r.name.length + 8 } := by
      rw [recAt_setDRecLen buf off (by omega), hrec]
    rw [← hset, hb']
    apply recAt_congr
    intro i hi
    rw [hset] at hi
    exact putRecord_outside (by dsimp only at hi; omega)
  have hput : recAt b' (off + (padded r.name.length + 8)) =
      ⟨n, r.recLen - (padded r.name.length + 8), imodeToFt mode, name⟩ := by
    rw [hb']
    exact recAt_putRecord _ _ hn (by omega) (by omega) (by omega)
  refine ⟨(hpre.congr hP fun i _ hi => houtside i (by omega)).append ?_, fun i hi =>
    houtside i (by omega)⟩
  apply TilesOf.cons' hhere hold
  apply TilesOf.cons' hput hnew
  dsimp only
  have hsum : off + (padded r.name.length + 8) + (r.recLen - (padded r.name.length + 8)) =
      off + r.recLen := by omega
  rw [hsum]
  exact hrest.congr hP fun i hi _ => houtside i (by omega)

/-- A proper record with slack is split in two. -/
theorem tiles_writeRecord_slack {pre post : List Rec} {r : Rec} {stop : Nat}
    (h : Tiles buf 0 (pre ++ r :: post) stop) (hpre : Tiles buf 0 pre off) (hstop : stop ≤ 1024)
    (hslack : Slack (padded name.length) r) (hname : NewName name) (hn : n < 2 ^ 32)
    (hmode : imodeToFt mode ≠ 0) :
    Tiles (writeRecord ⟨blkno, buf, off, padded r.name.length + 8, inode, d⟩ n mode name) 0
        (pre ++ { r with recLen := padded r.name.length + 8 } ::
          ⟨n, r.recLen - (padded r.name.length + 8), imodeToFt mode, name⟩ :: post) stop ∧
      ∀ i, stop ≤ i →
        writeRecord ⟨blkno, buf, off, padded r.name.length + 8, inode, d⟩ n mode name i =
          buf i := by
  have hok : r.Ok := h.ok r (by simp)
  have hslack' := hslack
  unfold Slack at hslack'
  rw [tiles_iff] at h hpre ⊢
  exact h.writeRecord blkno inode d walkable_ok hpre hstop hslack hname.short hn
    ⟨hok.ft, hok.name, hok.noNul, by dsimp only; omega⟩
    ⟨hmode, hname.nonempty, hname.noNul, by dsimp only; omega⟩

/-- Unused room becomes one record. -/
theorem tiles_writeRecord_tail {recs : List Rec} (h : Tiles buf 0 recs off)
    (hroom : off + 8 + fnameLen ≤ 1024) (hname : NewName name) (hn : n < 2 ^ 32)
    (hmode : imodeToFt mode ≠ 0) :
    Tiles (writeRecord ⟨blkno, setDRecLen buf off (blocksize - off), off, 0, inode, d⟩ n mode name)
      0 (recs ++ [⟨n, 1024 - off, imodeToFt mode, name⟩]) 1024 := by
  have hft := imodeToFt_lt mode
  have hshort := hname.short
  unfold fnameLen at hshort hroom
  have hrecLen : dRecLen (setDRecLen buf off (blocksize - off)) off = 1024 - off :=
    u16At_setU16 buf (off + 4) (show 1024 - off < 2 ^ 16 by omega)
  simp only [writeRecord, hrecLen, Nat.add_zero, Nat.sub_zero]
  have hbefore : ∀ i < off,
      putRecord (setDRecLen (setDRecLen buf off (blocksize - off)) off 0) off n
        (1024 - off) (imodeToFt mode) name i = buf i := by
    intro i hi
    rw [putRecord_outside (by omega), setDRecLen, setU16_outside (by omega), setDRecLen,
      setU16_outside (by omega)]
  have hpadded : padded name.length ≤ 48 := by
    unfold padded
    split <;> omega
  refine (h.congr fun i _ hi => hbefore i hi).append (Tiles.cons' (recAt_putRecord _ _ hn (by omega)
    (by omega) (by omega)) ⟨hmode, hname.nonempty, hname.noNul, by dsimp only; omega⟩ ?_)
  have hsum : off + (1024 - off) = 1024 := by omega
  dsimp only
  rw [hsum]
  exact Tiles.nil _

end Write

/-! ## The image after an insertion -/

/-- The inode table has a new empty inode. -/
def NewInode (v v' : View) (n mode : Nat) : Prop :=
  ∃ inode, v'.inode = Function.update v.inode n inode ∧ iMode inode = mode ∧ iSize inode = 0 ∧
    iBlocks inode = 0

/-- One block of the directory is tiled anew: it has one entry more. -/
def Linked (v v' : View) (ino n mode : Nat) (name : List UInt8) : Prop :=
  v'.blockUsed = v.blockUsed ∧
    ∃ k < iBlocks (v.inode ino), ∃ buf recs stop as cs,
      v'.data = Function.update v.data (iBlock (v.inode ino) k) buf ∧ Tiles buf 0 recs stop ∧
        (stop = 1024 ∨ (k + 1 = iBlocks (v.inode ino) ∧ Tail buf stop)) ∧
        (v.dirRecords ino k).map Rec.key = as ++ cs ∧
        recs.map Rec.key = as ++ (name, n, imodeToFt mode) :: cs

/-- A fresh block is marked as used and written. -/
def Leaked (v v' : View) : Prop :=
  ∃ b ∈ v.freeBlocks, ∃ buf, v'.blockUsed = Function.update v.blockUsed b true ∧
    v'.data = Function.update v.data b buf

section Spec

variable {g : Geometry} {d d' : Disk} {ino : Nat} {stk : Stack}

/-- `ext2_alloc_inode` with size zero writes an empty inode. -/
theorem allocInode_empty (hd : OnDisk g d) {n mode : Nat} (hn : g.ValidIno n)
    (hused : (view g d).inodeUsed n = true) {inode inode' : Buf} (hmode : iMode inode = mode)
    (hblocks : iBlocks inode = 0) (h : ext2AllocInode g.sb d n inode 0 = some (inode', d')) :
    OnDisk g d' ∧ ∃ inode', view g d' =
        { view g d with inode := Function.update (view g d).inode n inode' } ∧
      iMode inode' = mode ∧ iSize inode' = 0 ∧ iBlocks inode' = 0 := by
  obtain ⟨bs, hlen, hfresh, hd', rfl, hview⟩ := allocInode_spec hd hn hused h
  have hlen' := hlen
  rw [hblocks] at hlen'
  obtain rfl : bs = [] := List.length_eq_zero_iff.mp hlen'
  obtain ⟨hfsize, hfblocks, hfmode, -, -⟩ :=
    fields_resize inode hfresh (Nat.zero_le (12 * blocksize)) hlen
  obtain ⟨hm, hs, hb, -⟩ := fields_inodeBytes (resize inode 0 [])
  rw [mark_nil] at hview
  exact ⟨hd', _, hview, by rw [hm, hfmode, hmode], by rw [hs, hfsize], by rw [hb, hfblocks]; rfl⟩

/-- The fields of the inode that an insertion fills in. -/
theorem fields_theInode (inode : Buf) {mode : Nat} (hmode : mode < 2 ^ 16) :
    iMode (setIBlocks (setISize (setIMode inode mode) 0) 0) = mode ∧
      iBlocks (setIBlocks (setISize (setIMode inode mode) 0) 0) = 0 := by
  constructor
  · have hsame : iMode (setIBlocks (setISize (setIMode inode mode) 0) 0) =
        iMode (setIMode inode mode) := by
      apply u16At_congr
      intro i hi
      rw [setIBlocks, setU32_outside (by omega), setISize, setU32_outside (by omega)]
    rw [hsame]
    exact u16At_setU16 inode 0 hmode
  · exact u32At_setU32 _ 28 (by decide)

/-- What an insertion does once the record is written: the entry gets an empty inode. -/
theorem insertDentry_rest {d₁ : Disk} {inode₁ theInode : Buf} {n mode : Nat} (hd₁ : OnDisk g d₁)
    (hn : g.ValidIno n) (hused : (view g d₁).inodeUsed n = true) (hmode : iMode theInode = mode)
    (hblocks : iBlocks theInode = 0) {ret : Int} {inode' : Buf}
    (hmatch : (match ext2AllocInode g.sb d₁ n theInode 0 with
        | none => none
        | some (_, d) => some ((0 : Int), inode₁, d)) = some (ret, inode', d')) :
    ret = 0 ∧ OnDisk g d' ∧ ∃ inode', view g d' =
        { view g d₁ with inode := Function.update (view g d₁).inode n inode' } ∧
      iMode inode' = mode ∧ iSize inode' = 0 ∧ iBlocks inode' = 0 := by
  cases halloc : ext2AllocInode g.sb d₁ n theInode 0 with
  | none =>
      rw [halloc] at hmatch
      exact absurd hmatch (by simp)
  | some r =>
      rw [halloc] at hmatch
      simp only [Option.some.injEq, Prod.mk.injEq] at hmatch
      obtain ⟨rfl, -, rfl⟩ := hmatch
      exact ⟨rfl, allocInode_empty hd₁ hn hused hmode hblocks halloc⟩

/-- An insertion writes the new record into the directory when that has room, and
otherwise into a fresh block that the directory does not reach. -/
theorem insertDentry_spec (hd : OnDisk g d) (hmeta : MetaUsed g (view g d))
    (h : Directory g (view g d) ino) (dentry : Dentry)
    (hle : ¬ HasRoom (view g d) ino (padded dentry.filename.length) →
      iBlocks ((view g d).inode ino) ≤ 11)
    (hname : NewName dentry.filename) (hn : g.ValidIno dentry.iIno)
    (hused : (view g d).inodeUsed dentry.iIno = true) (hsize : dentry.iSize = 0)
    (hblocks : dentry.iBlocks = 0) (hmode : dentry.iMode < 2 ^ 16)
    (hft : imodeToFt dentry.iMode ≠ 0) {ret : Int} {inode' : Buf}
    (hrun : ext2InsertDentry g.sb d stk dentry ((view g d).inode ino) = some (ret, inode', d')) :
    ret = 0 ∧ OnDisk g d' ∧ (view g d').inodeUsed = (view g d).inodeUsed ∧
      NewInode (view g d) (view g d') dentry.iIno dentry.iMode ∧
      ((HasRoom (view g d) ino (padded dentry.filename.length) ∧
          Linked (view g d) (view g d') ino dentry.iIno dentry.iMode dentry.filename) ∨
        (¬ HasRoom (view g d) ino (padded dentry.filename.length) ∧
          Leaked (view g d) (view g d'))) := by
  have htake : dentry.filename.take fnameLen = dentry.filename :=
    List.take_of_length_le hname.short.le
  have hmax := h.le
  have hbits := validIno_le hn
  have hlt : dentry.iIno < 2 ^ 32 := by
    unfold bitmapBits at hbits
    omega
  obtain ⟨hfmode, hfblocks⟩ := fields_theInode stk.insertTheInode hmode
  simp only [ext2InsertDentry, htake, hsize, hblocks] at hrun
  rcases insertLoop_cases h (padded dentry.filename.length) with
    ⟨k, off, pre, r, post, hat, hloop⟩ | ⟨k, off, hat, hloop⟩ | ⟨hfull, hloop⟩
  · obtain ⟨stop, htiles, hend⟩ := h.tiled k hat.block
    have hstop : stop ≤ 1024 := stop_le (hend.imp_right And.right)
    have hdata : g.IsData (iBlock ((view g d).inode ino) k) :=
      (h.owns.data k (by have hk := hat.block; unfold directCount; omega)).1
    have htiles' := htiles
    rw [hat.split] at htiles'
    rw [hloop] at hrun
    simp only at hrun
    obtain ⟨hnew, hbehind⟩ := tiles_writeRecord_slack (iBlock ((view g d).inode ino) k)
      ((view g d).inode ino) d htiles' hat.before hstop hat.slack hname hlt hft
    obtain ⟨rfl, hd', inode₁, hview, hnewInode⟩ := insertDentry_rest
      (hd.writeData hdata _) hn (by rw [view_writeBlock hdata]; exact hused) hfmode hfblocks hrun
    rw [view_writeBlock hdata] at hview
    refine ⟨rfl, hd', by rw [hview], ⟨inode₁, by rw [hview], hnewInode⟩,
      Or.inl ⟨hat.hasRoom, by rw [hview], k, hat.block, _, _, stop, (pre ++ [r]).map Rec.key,
        post.map Rec.key, by rw [hview], hnew, ?_, ?_, ?_⟩⟩
    · exact hend.imp id (And.imp_right fun htail => htail.congr hbehind)
    · rw [hat.split]
      simp
    · simp [Rec.key]
  · have hlast := hat.last
    have hdata : g.IsData (iBlock ((view g d).inode ino) k) :=
      (h.owns.data k (by unfold directCount; omega)).1
    have hnew := tiles_writeRecord_tail (iBlock ((view g d).inode ino) k) ((view g d).inode ino) d
      hat.tiles hat.tail.1 hname hlt hft
    rw [hloop] at hrun
    simp only at hrun
    obtain ⟨rfl, hd', inode₁, hview, hnewInode⟩ := insertDentry_rest
      (hd.writeData hdata _) hn (by rw [view_writeBlock hdata]; exact hused) hfmode hfblocks hrun
    rw [view_writeBlock hdata] at hview
    refine ⟨rfl, hd', by rw [hview], ⟨inode₁, by rw [hview], hnewInode⟩,
      Or.inl ⟨hat.hasRoom, by rw [hview], k, by omega, _, _, 1024,
        ((view g d).dirRecords ino k).map Rec.key, [], by rw [hview], hnew, Or.inl rfl, ?_, ?_⟩⟩
    · rw [List.append_nil]
    · simp [Rec.key]
  · have hle := hle hfull
    rcases nextFreeBlkno_spec hd with ⟨hnone, -⟩ | ⟨b, d₁, hsome, hlo, hhi, hfree, hd₁, hview₁⟩
    · have hloop' : insertLoop (padded dentry.filename.length)
          (iBlocks ((view g d).inode ino) - 1) 1024 ((view g d).inode ino) d = none := by
        rw [insertLoop, if_pos (by omega), if_pos ⟨le_rfl, by omega⟩]
        simp only [ext2AllocIblock, if_neg (show ¬ 12 ≤ iBlocks ((view g d).inode ino) by omega),
          hnone]
      rw [hloop, hloop'] at hrun
      exact absurd hrun (by simp)
    · have hmem : b ∈ (view g d).freeBlocks := mem_freeBlocks.mpr ⟨⟨hlo, hhi⟩, hfree⟩
      have hdata : g.IsData b := isData_of_free hmeta hmem
      have hblt : b < 2 ^ 32 := by
        unfold searchedBits at hhi
        omega
      obtain ⟨inode₂, hfresh⟩ := insertLoop_fresh (padded dentry.filename.length) h.pos hle
        hsome hblt
      rw [hloop, hfresh] at hrun
      simp only at hrun
      obtain ⟨rfl, hd', inode₁, hview, hnewInode⟩ := insertDentry_rest
        (hd₁.writeData hdata _) hn (by rw [view_writeBlock hdata, hview₁]; exact hused) hfmode
        hfblocks hrun
      rw [view_writeBlock hdata, hview₁] at hview
      exact ⟨rfl, hd', by rw [hview], ⟨inode₁, by rw [hview], hnewInode⟩,
        Or.inr ⟨hfull, b, hmem, _, by rw [hview], by rw [hview]⟩⟩

/-- The unused inode numbers the allocator looks at are numbers of the group. -/
def PadUsed (g : Geometry) (v : View) : Prop :=
  ∀ n, 1 ≤ n → n ≤ searchedBits → v.inodeUsed n = false → g.ValidIno n

/-- The second image is the first one with a new empty inode, and with an entry for
it in the directory if that has room for the name. -/
structure Created (g : Geometry) (v v' : View) (ino n mode : Nat) (name : List UInt8) : Prop where
  valid : g.ValidIno n
  free : v.inodeUsed n = false
  inodeUsed : v'.inodeUsed = Function.update v.inodeUsed n true
  newInode : NewInode v v' n mode
  entry : (HasRoom v ino (padded name.length) ∧ Linked v v' ino n mode name) ∨
    (¬ HasRoom v ino (padded name.length) ∧ Leaked v v')

/-- `icreate` on a name that an entry has fails and changes nothing. -/
theorem icreate_present (hd : OnDisk g d) (h : Directory g (view g d) ino) {dentry : Dentry}
    (hname : NewName dentry.filename) (mode : Nat) {r : Rec}
    (hr : r ∈ (view g d).entries ino) (hrname : r.name = dentry.filename) :
    icreate g.sb d stk ino dentry mode = some (-1, dentry, d) := by
  have hread := readInode_eq hd h.owns.valid h.owns.used stk.createInode
  rcases searchLoop_cases h hname.noNul with ⟨-, hno⟩ | ⟨k, off, swp, pre, r', post, hfound, hat⟩
  · exact absurd hrname (hno r hr)
  · have hpos : ((dNameLen ((view g d).dirBlock ino k) off : Nat) : Int) ≠ 0 := by
      have hlen := List.length_pos_iff.mpr hname.nonempty
      rw [← hat.name, ← hat.here] at hlen
      simp only [recAt, dName, length_bytesAt] at hlen
      omega
    simp only [icreate, hread, if_neg hname.nonempty, ext2ReadDentryByName, if_neg h.isDir,
      hfound, h.readBlock hat.block, if_pos hpos]

/-- `icreate` on a new name allocates an inode number and inserts an entry. -/
theorem icreate_new (hd : OnDisk g d) (h : Directory g (view g d) ino) {dentry : Dentry}
    (hname : NewName dentry.filename) (mode : Nat)
    (hnew : ∀ r ∈ (view g d).entries ino, r.name ≠ dentry.filename) :
    icreate g.sb d stk ino dentry mode =
      match nextFreeIno d with
      | none => none
      | some (n, d₁) =>
          let dentry' := { dentry with iMode := mode, iSize := 0, iBlocks := 0, iIno := n }
          match ext2InsertDentry g.sb d₁ stk dentry' ((view g d).inode ino) with
          | none => none
          | some (res, _, d') => some (res, dentry', d') := by
  have hread := readInode_eq hd h.owns.valid h.owns.used stk.createInode
  rcases searchLoop_cases h hname.noNul with ⟨hnone, -⟩ | ⟨k, off, swp, pre, r', post, -, hat⟩
  · simp only [icreate, hread, if_neg hname.nonempty, ext2ReadDentryByName, if_neg h.isDir, hnone]
    rfl
  · exact absurd hat.name (hnew r' hat.mem)

/-- The image after a successful `icreate` on a new name. -/
theorem icreate_spec (hd : OnDisk g d) (hmeta : MetaUsed g (view g d)) (hpad : PadUsed g (view g d))
    (h : Directory g (view g d) ino) {dentry : Dentry}
    (hle : ¬ HasRoom (view g d) ino (padded dentry.filename.length) →
      iBlocks ((view g d).inode ino) ≤ 11)
    (hname : NewName dentry.filename) {mode : Nat} (hmode : mode < 2 ^ 16)
    (hft : imodeToFt mode ≠ 0) (hnew : ∀ r ∈ (view g d).entries ino, r.name ≠ dentry.filename)
    {ret : Int} {dentry' : Dentry}
    (hrun : icreate g.sb d stk ino dentry mode = some (ret, dentry', d')) :
    ret = 0 ∧ OnDisk g d' ∧ dentry'.iMode = mode ∧
      Created g (view g d) (view g d') ino dentry'.iIno mode dentry.filename := by
  rw [icreate_new hd h hname mode hnew] at hrun
  rcases nextFreeIno_spec hd with ⟨hnone, -⟩ | ⟨n, d₁, hsome, hlo, hhi, hfree, hd₁, hview⟩
  · rw [hnone] at hrun
    exact absurd hrun (by simp)
  · rw [hsome] at hrun
    simp only at hrun
    have hn : g.ValidIno n := hpad n hlo hhi hfree
    have hne : ino ≠ n := by
      rintro rfl
      rw [h.owns.used] at hfree
      exact absurd hfree (by simp)
    have hdir : Directory g (view g d₁) ino := by
      have hused : (view g d₁).inodeUsed ino = true := by
        rw [hview]
        exact (Function.update_of_ne hne _ _).trans h.owns.used
      exact (h.frame (by rw [hview]) hused (fun b hb => by rw [hview]; exact hb)
        (fun j _ => by rw [hview])).1
    cases hins : ext2InsertDentry g.sb d₁ stk
        { dentry with iMode := mode, iSize := 0, iBlocks := 0, iIno := n }
        ((view g d).inode ino) with
    | none =>
        rw [hins] at hrun
        exact absurd hrun (by simp)
    | some res =>
        obtain ⟨res, inode', d₂⟩ := res
        rw [hins] at hrun
        simp only [Option.some.injEq, Prod.mk.injEq] at hrun
        obtain ⟨rfl, rfl, rfl⟩ := hrun
        have hinode : (view g d).inode ino = (view g d₁).inode ino := by rw [hview]
        rw [hinode] at hins
        obtain ⟨rfl, hd', hinodeUsed, hnewInode, hentry⟩ := insertDentry_spec hd₁
          (by rw [hview]; exact hmeta) hdir
          { dentry with iMode := mode, iSize := 0, iBlocks := 0, iIno := n }
          (by rw [hview]; exact hle) hname hn
          (by rw [hview]; exact Function.update_self _ _ _) rfl rfl hmode hft hins
        rw [hview] at hinodeUsed hnewInode hentry
        exact ⟨rfl, hd', rfl, hn, hfree, hinodeUsed, hnewInode, hentry⟩

/-- `ext2_alloc_inode` with size zero takes no block. -/
theorem allocInode_zero_isSome (sb : Super) (d : Disk) (n : Nat) (inode : Buf) :
    (ext2AllocInode sb d n inode 0).isSome := by
  have hzero : blocksFor 0 = 0 := rfl
  simp only [ext2AllocInode, hzero, Nat.zero_sub, fillBlocks, Option.isSome_some]

/-- An insertion succeeds when a block is unused. -/
theorem insertDentry_isSome (hd : OnDisk g d) (h : Directory g (view g d) ino)
    (hle : iBlocks ((view g d).inode ino) ≤ 11) (hblk : (view g d).freeBlocks.Nonempty)
    (dentry : Dentry) :
    (ext2InsertDentry g.sb d stk dentry ((view g d).inode ino)).isSome := by
  have hloop : ∃ slot, insertLoop (padded (dentry.filename.take fnameLen).length) 0 0
      ((view g d).inode ino) d = some slot := by
    rcases insertLoop_cases h (padded (dentry.filename.take fnameLen).length) with
      ⟨k, off, pre, r, post, -, hloop⟩ | ⟨k, off, -, hloop⟩ | ⟨-, hloop⟩
    · exact ⟨_, hloop⟩
    · exact ⟨_, hloop⟩
    · obtain ⟨b, hb⟩ := hblk
      have hfree := mem_freeBlocks.mp hb
      rcases nextFreeBlkno_spec hd with ⟨-, hfull⟩ | ⟨b', d₁, hsome, hlo, hhi, -, -, -⟩
      · rw [hfull b hfree.1.1 hfree.1.2] at hfree
        exact absurd hfree.2 (by simp)
      · have hlt : b' < 2 ^ 32 := by
          unfold searchedBits at hhi
          omega
        obtain ⟨inode', hfresh⟩ := insertLoop_fresh
          (padded (dentry.filename.take fnameLen).length) h.pos hle hsome hlt
        exact ⟨_, hloop.trans hfresh⟩
  obtain ⟨slot, hslot⟩ := hloop
  have halloc := allocInode_zero_isSome g.sb
    (ext2WriteBlock slot.disk slot.blkno
      (writeRecord slot dentry.iIno dentry.iMode (dentry.filename.take fnameLen))) dentry.iIno
    (setIBlocks (setISize (setIMode stk.insertTheInode dentry.iMode) dentry.iSize) dentry.iBlocks)
  obtain ⟨r, hr⟩ := Option.isSome_iff_exists.mp halloc
  simp only [ext2InsertDentry, hslot, hr, Option.isSome_some]

/-- `icreate` on a new name succeeds when an inode number and a block are unused. -/
theorem icreate_isSome (hd : OnDisk g d) (h : Directory g (view g d) ino)
    (hle : iBlocks ((view g d).inode ino) ≤ 11) {dentry : Dentry}
    (hname : NewName dentry.filename) (mode : Nat)
    (hnew : ∀ r ∈ (view g d).entries ino, r.name ≠ dentry.filename)
    (hino : ∃ n, 1 ≤ n ∧ n ≤ searchedBits ∧ (view g d).inodeUsed n = false)
    (hblk : (view g d).freeBlocks.Nonempty) :
    (icreate g.sb d stk ino dentry mode).isSome := by
  rw [icreate_new hd h hname mode hnew]
  rcases nextFreeIno_spec hd with ⟨-, hfull⟩ | ⟨n, d₁, hsome, -, -, hfree, hd₁, hview⟩
  · obtain ⟨n, hlo, hhi, hfree⟩ := hino
    rw [hfull n hlo hhi] at hfree
    exact absurd hfree (by simp)
  · have hne : ino ≠ n := by
      rintro rfl
      rw [h.owns.used] at hfree
      exact absurd hfree (by simp)
    have hdir : Directory g (view g d₁) ino := by
      have hused : (view g d₁).inodeUsed ino = true := by
        rw [hview]
        exact (Function.update_of_ne hne _ _).trans h.owns.used
      exact (h.frame (by rw [hview]) hused (fun b hb => by rw [hview]; exact hb)
        (fun j _ => by rw [hview])).1
    have hinode : (view g d).inode ino = (view g d₁).inode ino := by rw [hview]
    have hins : (ext2InsertDentry g.sb d₁ stk
        { dentry with iMode := mode, iSize := 0, iBlocks := 0, iIno := n }
        ((view g d).inode ino)).isSome := by
      rw [hinode]
      exact insertDentry_isSome hd₁ hdir (by rw [hview]; exact hle) (by rw [hview]; exact hblk) _
    obtain ⟨r, hr⟩ := Option.isSome_iff_exists.mp hins
    simp [hsome, hr]

end Spec

/-! ## The directory after a creation -/

section After

variable {g : Geometry} {v v' : View} {ino n mode : Nat} {name : List UInt8}

theorem Created.inode_other (hc : Created g v v' ino n mode name) {f : Nat} (hf : f ≠ n) :
    v'.inode f = v.inode f := by
  obtain ⟨inode, hinode, -⟩ := hc.newInode
  rw [hinode]
  exact Function.update_of_ne hf _ _

theorem Created.inodeUsed_of (hc : Created g v v' ino n mode name) {f : Nat}
    (hf : v.inodeUsed f = true) : v'.inodeUsed f = true := by
  rw [hc.inodeUsed]
  by_cases hfn : f = n
  · rw [hfn, Function.update_self]
  · rw [Function.update_of_ne hfn]
    exact hf

theorem Created.ne (hc : Created g v v' ino n mode name) {f : Nat} (hf : v.inodeUsed f = true) :
    f ≠ n := by
  rintro rfl
  rw [hc.free] at hf
  exact absurd hf (by simp)

/-- A block that is used stays used. -/
theorem Created.used (hc : Created g v v' ino n mode name) {b : Nat}
    (hb : v.blockUsed b = true) : v'.blockUsed b = true := by
  rcases hc.entry with ⟨-, hblocks, -⟩ | ⟨-, b', -, buf, hblocks, -⟩
  · rw [hblocks]
    exact hb
  · rw [hblocks]
    by_cases hbb : b = b'
    · rw [hbb, Function.update_self]
    · rw [Function.update_of_ne hbb]
      exact hb

/-- After a creation the directory is well-formed.  It has one entry more when it had
room for the name, and the same entries otherwise. -/
theorem Created.directory (hc : Created g v v' ino n mode name) (h : Directory g v ino) :
    Directory g v' ino ∧
      ((HasRoom v ino (padded name.length) ∧ ∃ as cs, (v.entries ino).map Rec.key = as ++ cs ∧
          (v'.entries ino).map Rec.key = as ++ (name, n, imodeToFt mode) :: cs) ∨
        (¬ HasRoom v ino (padded name.length) ∧ v'.entries ino = v.entries ino)) := by
  have hused := hc.inodeUsed_of h.owns.used
  have hinode := hc.inode_other (hc.ne h.owns.used)
  have hle := h.le
  have hslot : ∀ j < iBlocks (v.inode ino), j < directCount (v.inode ino) := fun j hj => by
    unfold directCount
    omega
  rcases hc.entry with ⟨hroom, -, k, hk, buf, recs, stop, as, cs, hdata, htiles, hend, hold, hnew⟩ |
    ⟨hfull, b, hb, buf, -, hdata⟩
  · have hdata' : ∀ j < iBlocks (v.inode ino), v'.data (iBlock (v.inode ino) j) =
        if j = k then buf else v.data (iBlock (v.inode ino) j) := by
      intro j hj
      rw [hdata]
      by_cases hjk : j = k
      · rw [if_pos hjk, hjk, Function.update_self]
      · rw [if_neg hjk, Function.update_of_ne]
        exact fun heq => hjk (h.owns.inj j (hslot j hj) k (hslot k hk) heq)
    obtain ⟨hdir, hhere, hother⟩ :=
      h.edit hk hinode hused (fun b hb => hc.used hb) hdata' htiles hend
    obtain ⟨as', cs', hbefore, hafter⟩ := entries_edit hk hinode hother
    refine ⟨hdir, Or.inl ⟨hroom, as'.map Rec.key ++ as, cs ++ cs'.map Rec.key, ?_, ?_⟩⟩
    · rw [hbefore, List.map_append, List.map_append, hold]
      simp
    · rw [hafter, List.map_append, List.map_append, hhere, hnew]
      simp
  · have hframe := h.frame hinode hused (fun b hb => hc.used hb) (fun j hj => by
      rw [hdata, Function.update_of_ne]
      rintro rfl
      have hfree := (mem_freeBlocks.mp hb).2
      rw [(h.owns.data j (hslot j hj)).2] at hfree
      exact absurd hfree (by simp))
    exact ⟨hframe.1, Or.inr ⟨hfull, hframe.2⟩⟩

/-- The names of the entries after a creation. -/
theorem names_of_keys {recs : List Rec} {keys : List (List UInt8 × Nat × Nat)}
    (h : recs.map Rec.key = keys) : recs.map Rec.name = keys.map Prod.fst := by
  rw [← h, List.map_map]
  rfl

/-- With unique names a lookup resolves a name to the number that an entry has with it. -/
theorem resolves_iff_key {d : Disk} (hd : OnDisk g d) (h : Directory g (view g d) ino)
    (hunique : UniqueNames (view g d) ino) (hname : 0 ∉ name) :
    Resolves g d ino name n ↔ ∃ ft, (name, n, ft) ∈ ((view g d).entries ino).map Rec.key := by
  rw [resolves_iff hd h hunique hname]
  constructor
  · rintro ⟨r, hr, hrname, hrino⟩
    exact ⟨r.ft, List.mem_map.mpr ⟨r, hr, by rw [Rec.key, hrname, hrino]⟩⟩
  · rintro ⟨ft, hkey⟩
    obtain ⟨r, hr, hrkey⟩ := List.mem_map.mp hkey
    simp only [Rec.key, Prod.mk.injEq] at hrkey
    exact ⟨r, hr, hrkey.1, hrkey.2.1⟩

end After

/-! ## Creations and lookups -/

section Correct

variable {g : Geometry} {d : Disk} {ino : Nat}

/-- What a creation promises: a name that is present is refused and nothing changes;
a new name resolves to a new inode number afterwards, and all other names resolve
as before. -/
def CreatesEntry (g : Geometry) (d : Disk) (stk : Stack) (ino : Nat) (dentry : Dentry)
    (mode : Nat) : Prop :=
  ∃ ret dentry' d', icreate g.sb d stk ino dentry mode = some (ret, dentry', d') ∧
    (∀ n, Resolves g d ino dentry.filename n → ret = -1 ∧ d' = d) ∧
    (Missing g d ino dentry.filename →
      ret = 0 ∧ (view g d).inodeUsed dentry'.iIno = false ∧
        Resolves g d' ino dentry.filename dentry'.iIno ∧
        ∀ name n, 0 ∉ name → Resolves g d ino name n → Resolves g d' ino name n)

/-- In a well-formed directory of up to 11 blocks, with an inode number and a block
unused among the `searchedBits` that the search for them goes through, a creation keeps
its promise exactly when the name is present, or the directory has room for it in a block
it already has. -/
theorem icreate_correct_iff (hd : OnDisk g d) (hmeta : MetaUsed g (view g d))
    (hpad : PadUsed g (view g d)) (h : Directory g (view g d) ino)
    (hunique : UniqueNames (view g d) ino) (hle : iBlocks ((view g d).inode ino) ≤ 11)
    (stk : Stack) (dentry : Dentry) (hname : NewName dentry.filename) {mode : Nat}
    (hmode : mode < 2 ^ 16) (hft : imodeToFt mode ≠ 0)
    (hino : ∃ n, 1 ≤ n ∧ n ≤ searchedBits ∧ (view g d).inodeUsed n = false)
    (hblk : (view g d).freeBlocks.Nonempty) :
    CreatesEntry g d stk ino dentry mode ↔
      (∃ n, Resolves g d ino dentry.filename n) ∨
        HasRoom (view g d) ino (padded dentry.filename.length) := by
  by_cases hpresent : ∃ r ∈ (view g d).entries ino, r.name = dentry.filename
  · obtain ⟨r, hr, hrname⟩ := hpresent
    have hres : Resolves g d ino dentry.filename r.ino :=
      (resolves_iff hd h hunique hname.noNul).mpr ⟨r, hr, hrname, rfl⟩
    refine iff_of_true ⟨-1, dentry, d, icreate_present hd h hname mode hr hrname,
      fun _ _ => ⟨rfl, rfl⟩, fun hmiss => ?_⟩ (Or.inl ⟨r.ino, hres⟩)
    exact absurd hrname ((missing_iff hd h hname.noNul).mp hmiss r hr)
  · have hnew : ∀ r ∈ (view g d).entries ino, r.name ≠ dentry.filename := fun r hr hrname =>
      hpresent ⟨r, hr, hrname⟩
    have hmiss := (missing_iff hd h hname.noNul).mpr hnew
    have hnot : ∀ n, ¬ Resolves g d ino dentry.filename n := by
      intro n hres
      obtain ⟨r, hr, hrname, -⟩ := (resolves_iff hd h hunique hname.noNul).mp hres
      exact hnew r hr hrname
    have hsome : (icreate g.sb d stk ino dentry mode).isSome :=
      icreate_isSome hd h hle hname mode hnew hino hblk
    obtain ⟨⟨ret, dentry', d'⟩, hrun⟩ := Option.isSome_iff_exists.mp hsome
    obtain ⟨rfl, hd', -, hc⟩ :=
      icreate_spec hd hmeta hpad h (fun _ => hle) hname hmode hft hnew hrun
    obtain ⟨hdir, hentry⟩ := hc.directory h
    rcases hentry with ⟨hroom, as, cs, hold, hadd⟩ | ⟨hfull, hsame⟩
    · have hnames := names_of_keys hold
      have hnames' := names_of_keys hadd
      have hunique' : UniqueNames (view g d') ino := by
        unfold UniqueNames at hunique ⊢
        rw [hnames'] at ⊢
        rw [hnames] at hunique
        simp only [List.map_append, List.map_cons] at hunique ⊢
        rw [List.nodup_middle, List.nodup_cons]
        refine ⟨fun hmem => ?_, hunique⟩
        rw [← List.map_append, ← hnames] at hmem
        obtain ⟨r, hr, hrname⟩ := List.mem_map.mp hmem
        exact hnew r hr hrname
      -- an entry of the new list is the new one or an old one
      have hmem : ∀ key, key ∈ ((view g d').entries ino).map Rec.key ↔
          key = (dentry.filename, dentry'.iIno, imodeToFt mode) ∨
            key ∈ ((view g d).entries ino).map Rec.key := by
        intro key
        rw [hold, hadd]
        simp only [List.mem_append, List.mem_cons]
        tauto
      refine iff_of_true ⟨0, dentry', d', hrun, fun n hres => absurd hres (hnot n),
        fun _ => ⟨rfl, hc.free, ?_, ?_⟩⟩ (Or.inr hroom)
      · exact (resolves_iff_key hd' hdir hunique' hname.noNul).mpr ⟨_, (hmem _).mpr (Or.inl rfl)⟩
      · intro name n hnul hres
        obtain ⟨ft, hkey⟩ := (resolves_iff_key hd h hunique hnul).mp hres
        exact (resolves_iff_key hd' hdir hunique' hnul).mpr ⟨ft, (hmem _).mpr (Or.inr hkey)⟩
    · -- the new entry is in a block that the directory on the device does not have
      refine iff_of_false ?_ (not_or.mpr ⟨not_exists.mpr hnot, hfull⟩)
      rintro ⟨ret, dentry'', d'', hrun', -, hcreated⟩
      rw [hrun] at hrun'
      simp only [Option.some.injEq, Prod.mk.injEq] at hrun'
      obtain ⟨rfl, rfl, rfl⟩ := hrun'
      obtain ⟨-, -, hres, -⟩ := hcreated hmiss
      have hunique' : UniqueNames (view g d') ino := by
        unfold UniqueNames
        rw [hsame]
        exact hunique
      obtain ⟨r, hr, hrname, -⟩ := (resolves_iff hd' hdir hunique' hname.noNul).mp hres
      rw [hsame] at hr
      exact hnew r hr hrname

end Correct

/-! ## A full directory -/

/-- The records of a full block: the two dots, and ten links to inode 12 whose names
have 36 letters. -/
def fullRecords : List Rec :=
  [⟨2, 12, 2, dot⟩, ⟨2, 12, 2, dotDot⟩] ++
    (List.range 10).map fun i => ⟨12, 100, 1, List.replicate 36 (UInt8.ofNat (97 + i))⟩

/-- An image whose root directory is the full block 7. -/
def fullRoot : View where
  blockUsed b := decide (b ≤ 7)
  inodeUsed ino := decide (ino ≤ 12 ∨ 16 < ino)
  inode ino := if ino = 2 then newInode 0x41FF blocksize [7] else newInode 0x81FF 0 []
  data _ := layOut 0 fullRecords fun _ => 0

/-- The image on a device. -/
def fullRootDisk : Disk := format smallGroup fullRoot

theorem onDisk_fullRoot : OnDisk smallGroup fullRootDisk := onDisk_format _ _

theorem view_fullRoot : view smallGroup fullRootDisk = fullRoot.trim smallGroup := view_format _ _

/-- The records of the full block are proper. -/
theorem fullRecords_ok : ∀ r ∈ fullRecords, r.Ok ∧ r.ino < 2 ^ 32 ∧ r.recLen < 2 ^ 16 ∧
    r.ft < 256 ∧ r.name.length < 256 := by
  intro r hr
  rcases List.mem_append.mp hr with hr | hr
  · simp only [List.mem_cons, List.not_mem_nil, or_false] at hr
    rcases hr with rfl | rfl
    · exact ⟨⟨by decide, by decide, by decide, by decide⟩, by decide⟩
    · exact ⟨⟨by decide, by decide, by decide, by decide⟩, by decide⟩
  · obtain ⟨i, hi, rfl⟩ := List.mem_map.mp hr
    have hlt := List.mem_range.mp hi
    refine ⟨⟨Nat.one_ne_zero, by simp, ?_, by simp [padded]⟩, by norm_num, by norm_num, by norm_num,
      by simp⟩
    rw [List.mem_replicate]
    rintro ⟨-, hzero⟩
    have hnat := congrArg UInt8.toNat hzero
    rw [UInt8.toNat_ofNat'] at hnat
    simp only [UInt8.toNat_zero] at hnat
    omega

theorem directory_fullRoot : Directory smallGroup (view smallGroup fullRootDisk) 2 ∧
    (view smallGroup fullRootDisk).entries 2 = fullRecords ∧
    iBlocks ((view smallGroup fullRootDisk).inode 2) = 1 ∧
    Tiles ((view smallGroup fullRootDisk).dirBlock 2 0) 0
      ((view smallGroup fullRootDisk).dirRecords 2 0) 1024 := by
  rw [view_fullRoot]
  have htiles := tiles_layOut 0 fullRecords (fun _ => 0) fullRecords_ok
  have hsum : 0 + (fullRecords.map Rec.recLen).sum = 1024 := by decide
  rw [hsum] at htiles
  exact directory_of_format smallGroup fullRoot (by decide) rfl rfl (by decide) (by decide)
    (smallGroup_isData le_rfl (by decide)) rfl htiles

/-- In a small group the padding of the inode bitmap begins behind number 16. -/
theorem padUsed_smallGroup {v : View} (h : ∀ n, 16 < n → v.inodeUsed n = true) :
    PadUsed smallGroup (v.trim smallGroup) := by
  intro n hlo hhi hfree
  refine ⟨hlo, ?_⟩
  by_contra hgt
  have hlt : 16 < n := not_le.mp hgt
  have hbits : n ≤ bitmapBits := hhi.trans (by decide)
  simp [View.trim, hlo, hbits, h n hlt] at hfree

theorem metaUsed_fullRoot : MetaUsed smallGroup (view smallGroup fullRootDisk) := by
  rw [view_fullRoot]
  apply metaUsed_smallGroup
  intro b hb
  exact decide_eq_true (show b ≤ 7 by omega)

theorem padUsed_fullRoot : PadUsed smallGroup (view smallGroup fullRootDisk) := by
  rw [view_fullRoot]
  apply padUsed_smallGroup
  intro n hn
  exact decide_eq_true (Or.inr hn)

/-- An inode number and a block of the image are unused. -/
theorem free_fullRoot :
    (∃ n, 1 ≤ n ∧ n ≤ searchedBits ∧ (view smallGroup fullRootDisk).inodeUsed n = false) ∧
      (view smallGroup fullRootDisk).freeBlocks.Nonempty := by
  rw [view_fullRoot]
  exact ⟨⟨13, by decide, by decide, by decide⟩, 8, mem_freeBlocks.mpr (by decide)⟩

theorem uniqueNames_fullRoot : UniqueNames (view smallGroup fullRootDisk) 2 := by
  rw [UniqueNames, directory_fullRoot.2.1]
  decide

/-- A new name of 47 letters. -/
def longName : List UInt8 := List.replicate 47 122

theorem newName_longName : NewName longName := ⟨by decide, by decide, by decide⟩

/-- The full block has no room for the long name. -/
theorem not_hasRoom_fullRoot :
    ¬ HasRoom (view smallGroup fullRootDisk) 2 (padded longName.length) := by
  obtain ⟨-, hentries, hblocks, htiles⟩ := directory_fullRoot
  rintro (⟨r, hr, hslack⟩ | ⟨k, hk, stop, hstop, htiles'⟩)
  · rw [hentries] at hr
    have hfull : ∀ r ∈ fullRecords,
        ¬ padded r.name.length + 8 + padded longName.length + 8 < r.recLen := by decide
    exact hfull r hr hslack
  · have hk0 : k = 0 := by omega
    subst hk0
    have hend := htiles'.stop_eq htiles
    omega

/-- `icreate_correct_iff` for the long name in the full directory. -/
theorem icreate_correct_fullRoot :
    CreatesEntry smallGroup fullRootDisk default 2 ⟨longName, 0, 0, 0, 0⟩ 0x81FF ↔
      (∃ n, Resolves smallGroup fullRootDisk 2 longName n) ∨
        HasRoom (view smallGroup fullRootDisk) 2 (padded longName.length) :=
  icreate_correct_iff onDisk_fullRoot metaUsed_fullRoot padUsed_fullRoot directory_fullRoot.1
    uniqueNames_fullRoot (by rw [directory_fullRoot.2.2.1]; decide) default ⟨longName, 0, 0, 0, 0⟩
    newName_longName (by decide) (by decide) free_fullRoot.1 free_fullRoot.2

/-- Creating the long name in the full directory reports success, and a lookup of it
fails afterwards. -/
theorem icreate_full_directory :
    ∃ dentry' d', icreate smallGroup.sb fullRootDisk default 2 ⟨longName, 0, 0, 0, 0⟩ 0x81FF =
        some (0, dentry', d') ∧
      Missing smallGroup fullRootDisk 2 longName ∧ Missing smallGroup d' 2 longName := by
  obtain ⟨hdir, hentries, hblocks, -⟩ := directory_fullRoot
  have hnew : ∀ r ∈ (view smallGroup fullRootDisk).entries 2, r.name ≠ longName := by
    rw [hentries]
    decide
  have hle : iBlocks ((view smallGroup fullRootDisk).inode 2) ≤ 11 := by
    rw [hblocks]
    decide
  have hsome : (icreate smallGroup.sb fullRootDisk default 2 ⟨longName, 0, 0, 0, 0⟩
      0x81FF).isSome :=
    icreate_isSome onDisk_fullRoot hdir hle newName_longName 0x81FF hnew free_fullRoot.1
      free_fullRoot.2
  obtain ⟨⟨ret, dentry', d'⟩, hrun⟩ := Option.isSome_iff_exists.mp hsome
  obtain ⟨rfl, hd', -, hc⟩ := icreate_spec onDisk_fullRoot metaUsed_fullRoot padUsed_fullRoot hdir
    (fun _ => hle) newName_longName (by decide) (by decide) hnew hrun
  obtain ⟨hdir', ⟨hroom, -⟩ | ⟨-, hsame⟩⟩ := hc.directory hdir
  · exact absurd hroom not_hasRoom_fullRoot
  · refine ⟨dentry', d', hrun, ?_, ?_⟩
    · exact (missing_iff onDisk_fullRoot hdir newName_longName.noNul).mpr hnew
    · rw [missing_iff hd' hdir' newName_longName.noNul, hsame]
      exact hnew

end Ext2
end NochOS
