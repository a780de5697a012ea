import NochOS.Ext2.Walkers

/-!
# ext2 - what a removal accesses

For the record of a directory `ext2_remove_dentry` walks on: to the third entry of the
directory, to the entries "." of it and of its parent, and from parent to parent.  Here these
calls are put together from the walks of the other module, and the four walkers are compared
with the records they meet.

Main results:

- Theorem `climbWalk_safe_iff`: the loop over the parents.
- Theorem `removeSafe_iff`: a removal, with all its calls.
- Theorem `removeDentry_isSome`: a safe removal returns.
- Theorem `walkers_safe_iff`: the four walkers.
-/

namespace NochOS
namespace Ext2

open Library

/-! ## The lookup of a name -/

/-- What `ext2_read_dentry_by_name` and `ext2_read_dentry_by_index` read of the name of
the record they fill the entry from. -/
def fillAccesses (blkBuf : Buf) (off _ : Nat) : List Access :=
  [.bytes (off + 8) (strncpyReads blkBuf (off + 8) (dNameLen blkBuf off))]

/-- `ext2_read_dentry_by_name` terminates and stays inside.  It looks only into
directories. -/
def LookupSafe (d : Disk) (inode : Buf) (fname : List UInt8) : Prop :=
  iMode inode &&& ext2SIfdir ≠ 0 →
    (searchWalk d inode fname fillAccesses).Safe Access.Inside ⟨0, 0, 0⟩

/-- Every record it meets is as it should be. -/
def LookupRecords (d : Disk) (inode : Buf) (fname : List UInt8) : Prop :=
  iMode inode &&& ext2SIfdir ≠ 0 →
    ∀ t, (searchWalk d inode fname fillAccesses).Visits ⟨0, 0, 0⟩ t →
      Exhausted inode t ∨ SearchRecord d inode fname fillAccesses t

theorem lookupSafe_iff {d : Disk} {inode : Buf} {fname : List UInt8} :
    LookupSafe d inode fname ↔ LookupRecords d inode fname :=
  imp_congr_right fun _ => searchWalk_safe_iff _

/-- A lookup that terminates returns. -/
theorem LookupSafe.isSome {d : Disk} {inode : Buf} {fname : List UInt8}
    (h : LookupSafe d inode fname) (sb : Super) (stk : Stack) (dentry : Dentry) :
    (ext2ReadDentryByName sb d stk fname inode dentry).isSome := by
  rw [ext2ReadDentryByName]
  by_cases hdir : iMode inode &&& ext2SIfdir = 0
  · rw [if_pos hdir]
    rfl
  · rw [if_neg hdir]
    have hsome := searchWalk_terminates_iff d inode fname fillAccesses 0 0 0 |>.mp
      (h hdir).terminates
    obtain ⟨r, hr⟩ := Option.isSome_iff_exists.mp hsome
    rw [hr]
    cases r with
    | notFound => rfl
    | found blk off swp => rfl

/-! ## The climb to the root -/

section Climb

variable (sb : Super) (d : Disk) (stk : Stack) (thatIno : Nat)

/-- The variables `d_this` and `i_trav` of `ext2_is_ancestor`. -/
structure Climb where
  dThis : Dentry
  iTrav : Buf

/-- The loop is left at the root directory and at the directory it is asked for. -/
def Climb.Done (c : Climb) : Prop := c.dThis.iIno = ext2RootIno ∨ c.dThis.iIno = thatIno

instance (c : Climb) : Decidable (c.Done thatIno) := by
  unfold Climb.Done
  infer_instance

/-- The loop of `ext2_is_ancestor`.  What a pass accesses is a directory in which it looks
the parent up. -/
def climbWalk : Loop Climb Buf where
  accesses c := if c.Done thatIno then [] else [c.iTrav]
  next c :=
    if c.Done thatIno then none
    else
      (ext2ReadDentryByName sb d stk dotDot c.iTrav c.dThis).map fun r =>
        ⟨r.2, (ext2ReadInode sb d r.2.iIno c.iTrav).2⟩

variable {sb d stk thatIno}

/-- The climb terminates with all its lookups exactly when it comes to the root or to the
directory it is asked for, over directories with records that are as they should be. -/
theorem climbWalk_safe_iff (c : Climb) :
    (climbWalk sb d stk thatIno).Safe (LookupSafe d · dotDot) c ↔
      (∃ top, (climbWalk sb d stk thatIno).Visits c top ∧ top.Done thatIno) ∧
        ∀ u, (climbWalk sb d stk thatIno).Visits c u →
          u.Done thatIno ∨ LookupRecords d u.iTrav dotDot := by
  have hlookups : (∀ n, ∀ a ∈ ((climbWalk sb d stk thatIno).run n c).1, LookupSafe d a dotDot) ↔
      ∀ u, (climbWalk sb d stk thatIno).Visits c u →
        u.Done thatIno ∨ LookupRecords d u.iTrav dotDot := by
    rw [Loop.allowed_iff]
    refine forall₂_congr fun u _ => ?_
    by_cases hdone : u.Done thatIno
    · simp [climbWalk, hdone]
    · simp [climbWalk, hdone, lookupSafe_iff]
  constructor
  · intro h
    have hparents := hlookups.mp h.allowed
    refine ⟨?_, hparents⟩
    obtain ⟨top, hvisit, hstop⟩ := Loop.terminates_iff.mp h.terminates
    refine ⟨top, hvisit, ?_⟩
    by_contra hdone
    -- the lookup of the parent returns, so the climb would go on
    have hsome := (lookupSafe_iff.mpr ((hparents top hvisit).resolve_left hdone)).isSome sb stk
      top.dThis
    simp only [climbWalk, if_neg hdone, Option.map_eq_none_iff] at hstop
    rw [hstop] at hsome
    exact absurd hsome (by simp)
  · rintro ⟨⟨top, hvisit, hdone⟩, hparents⟩
    refine ⟨Loop.terminates_iff.mpr ⟨top, hvisit, ?_⟩, hlookups.mpr hparents⟩
    simp only [climbWalk, if_pos hdone]

/-- A climb that comes to its end is one with enough passes. -/
theorem ancestorLoop_isSome {c top : Climb} (hvisit : (climbWalk sb d stk thatIno).Visits c top)
    (hdone : top.Done thatIno) :
    ∃ fuel, (ancestorLoop sb d stk thatIno fuel c.dThis c.iTrav).isSome := by
  have htop : ∃ fuel, (ancestorLoop sb d stk thatIno fuel top.dThis top.iTrav).isSome := by
    refine ⟨1, ?_⟩
    rw [ancestorLoop]
    by_cases hroot : top.dThis.iIno = ext2RootIno
    · rw [if_pos hroot]
      rfl
    · rw [if_neg hroot, if_pos (hdone.resolve_left hroot)]
      rfl
  clear hdone
  induction hvisit with
  | start => exact htop
  | @step t u _ hnext ih =>
      obtain ⟨fuel, hfuel⟩ := htop
      refine ih ⟨fuel + 1, ?_⟩
      by_cases hdone : t.Done thatIno
      · simp only [climbWalk, if_pos hdone] at hnext
        exact absurd hnext (by simp)
      · simp only [climbWalk, if_neg hdone] at hnext
        obtain ⟨r, hread, rfl⟩ := Option.map_eq_some_iff.mp hnext
        unfold Climb.Done at hdone
        rw [ancestorLoop, if_neg fun h => hdone (Or.inl h), if_neg fun h => hdone (Or.inr h), hread]
        exact hfuel

end Climb

/-! ## A removal -/

section Removal

variable (sb : Super) (d : Disk) (stk : Stack)

/-- `ext2_is_ancestor(that, i_this)` terminates and stays inside: the two lookups of ".", and
the climb with all the lookups of "..". -/
structure AncestorSafe (that iThis : Buf) : Prop where
  dotThat : LookupSafe d that dot
  dotThis : LookupSafe d iThis dot
  climb : ∀ rThat rThis, ext2ReadDentryByName sb d stk dot that stk.ancestorThat = some rThat →
    ext2ReadDentryByName sb d stk dot iThis stk.ancestorThis = some rThis →
    (climbWalk sb d stk rThat.2.iIno).Safe (LookupSafe d · dotDot) ⟨rThis.2, iThis⟩

/-- What is asked of the records for it: those of every directory that is looked into are as
they should be, and going up from directory to directory one comes to the root or to the
directory `that`. -/
structure AncestorRecords (that iThis : Buf) : Prop where
  dotThat : LookupRecords d that dot
  dotThis : LookupRecords d iThis dot
  climbs : ∀ rThat rThis, ext2ReadDentryByName sb d stk dot that stk.ancestorThat = some rThat →
    ext2ReadDentryByName sb d stk dot iThis stk.ancestorThis = some rThis →
    ∃ top, (climbWalk sb d stk rThat.2.iIno).Visits ⟨rThis.2, iThis⟩ top ∧ top.Done rThat.2.iIno
  parents : ∀ rThat rThis, ext2ReadDentryByName sb d stk dot that stk.ancestorThat = some rThat →
    ext2ReadDentryByName sb d stk dot iThis stk.ancestorThis = some rThis →
    ∀ u, (climbWalk sb d stk rThat.2.iIno).Visits ⟨rThis.2, iThis⟩ u →
      u.Done rThat.2.iIno ∨ LookupRecords d u.iTrav dotDot

/-- The local variable `rm_dir` of `ext2_remove_dentry`. -/
def rmDir (ino : Nat) : Buf := (ext2ReadInode sb d ino stk.removeRmDir).2

/-- The calls that `ext2_remove_dentry` makes for a record of a directory terminate and stay
inside: the walk to the third entry, and where there is none the comparison with the
parents. -/
structure NestedSafe (ino : Nat) (inode : Buf) : Prop where
  index : (indexWalk d (rmDir sb d stk ino) 2).Safe Access.Inside ⟨0, 0, 0⟩
  ancestor : (ext2ReadDentryByIndex sb d stk 2 (rmDir sb d stk ino) stk.ancestorThat).1 = 0 →
    AncestorSafe sb d stk (rmDir sb d stk ino) inode

/-- What is asked of the records for them. -/
structure NestedRecords (ino : Nat) (inode : Buf) : Prop where
  index : ∀ t, (indexWalk d (rmDir sb d stk ino) 2).Visits ⟨0, 0, 0⟩ t →
    IndexEnd (rmDir sb d stk ino) t ∨ IndexRecord d (rmDir sb d stk ino) 2 t
  ancestor : (ext2ReadDentryByIndex sb d stk 2 (rmDir sb d stk ino) stk.ancestorThat).1 = 0 →
    AncestorRecords sb d stk (rmDir sb d stk ino) inode

/-- The first record of a block after the assignments that precede the copy of the
name of its successor. -/
def replaceHeader (blkBuf : Buf) : Buf :=
  let recLen := dRecLen blkBuf 0
  let b := setDInode blkBuf 0 (dInode blkBuf recLen)
  let b := setDFileType b 0 (dFileType b recLen)
  let b := setDNameLen b 0 (dNameLen b recLen)
  setDRecLen b 0 (recLen + dRecLen b recLen)

/-- What `ext2_remove_dentry` accesses for the record it removes: the successor of a
first record, the last slot when the record is its whole block, else the header of
the record before it. -/
def recordAccesses (inode blkBuf : Buf) (off swp : Nat) : List Access :=
  if off = 0 ∧ dRecLen blkBuf off ≠ blocksize then
    let recLen := dRecLen blkBuf 0
    let b := replaceHeader blkBuf
    [.bytes recLen 8, .bytes 8 (dNameLen b recLen),
      .bytes (recLen + 8) (strncpyReads b (recLen + 8) (dNameLen b recLen))]
  else if off = 0 then [.slot ((iBlocks inode + 2 ^ 32 - 1) % 2 ^ 32)]
  else [.bytes swp 8]

/-- What is asked of the record: its successor lies in the block as far as it is read, the
directory has a block and at most twelve, or the record before it lies in the block. -/
def RecordFits (inode blkBuf : Buf) (off swp : Nat) : Prop :=
  if off = 0 ∧ dRecLen blkBuf off ≠ blocksize then
    let recLen := dRecLen blkBuf 0
    let b := replaceHeader blkBuf
    recLen + 8 ≤ blocksize ∧
      (Access.bytes (recLen + 8) (strncpyReads b (recLen + 8) (dNameLen b recLen))).Inside
  else if off = 0 then 1 ≤ iBlocks inode ∧ iBlocks inode ≤ 12
  else swp + 8 ≤ blocksize

/-- The removal of the record goes on, with this inode of the parent: the record is of no
directory, or its directory is empty and no parent of its parent. -/
def GoesOn (inode blkBuf : Buf) (off : Nat) (inode' : Buf) : Prop :=
  if dFileType blkBuf off = ext2FtDir then
    ∃ fuel d', removeDirectory sb d stk fuel (dInode blkBuf off) inode = some (true, inode', d')
  else inode' = inode

/-- The record is of no directory, or of one that has no third entry and is no parent of the
directory of the record, which has this inode afterwards. -/
def Removable (inode blkBuf : Buf) (off : Nat) (inode' : Buf) : Prop :=
  if dFileType blkBuf off = ext2FtDir then
    let rmDir := rmDir sb d stk (dInode blkBuf off)
    (ext2ReadDentryByIndex sb d stk 2 rmDir stk.ancestorThat).1 = 0 ∧
      ∃ fuel, ext2IsAncestor sb d stk fuel rmDir inode = some (false, inode')
  else inode' = inode

/-- What `ext2_remove_dentry` does for the record with the name terminates and stays
inside. -/
structure UnlinkSafe (inode blkBuf : Buf) (off swp : Nat) : Prop where
  nested : dFileType blkBuf off = ext2FtDir → NestedSafe sb d stk (dInode blkBuf off) inode
  record : ∀ inode', GoesOn sb d stk inode blkBuf off inode' →
    ∀ a ∈ recordAccesses inode' blkBuf off swp, a.Inside

/-- What is asked of the records for it. -/
structure UnlinkRecords (inode blkBuf : Buf) (off swp : Nat) : Prop where
  nested : dFileType blkBuf off = ext2FtDir → NestedRecords sb d stk (dInode blkBuf off) inode
  record : ∀ inode', Removable sb d stk inode blkBuf off inode' → RecordFits inode' blkBuf off swp

/-- A pass of the search finds the name in its record. -/
def Finds (inode : Buf) (fname : List UInt8) (c : Cursor) : Prop :=
  ¬ Exhausted inode c ∧ dFileType (metBlock d inode c) (boundary c.blk c.off).2 ≠ 0 ∧
    NameMatches (metBlock d inode c) (boundary c.blk c.off).2 fname

/-- The search of `ext2_remove_dentry`, without what is done for the record it finds. -/
def removeWalk (inode : Buf) (fname : List UInt8) : Loop Cursor Access :=
  searchWalk d inode fname fun _ _ _ => []

/-- `ext2_remove_dentry` terminates and stays inside: the search, and what is done for the
record that it finds. -/
structure RemoveSafe (inode : Buf) (fname : List UInt8) : Prop where
  search : (removeWalk d inode fname).Safe Access.Inside ⟨0, 0, 0⟩
  unlink : ∀ t, (removeWalk d inode fname).Visits ⟨0, 0, 0⟩ t → Finds d inode fname t →
    UnlinkSafe sb d stk inode (metBlock d inode t) (boundary t.blk t.off).2 t.swp

variable {sb d stk}

theorem ancestorSafe_iff {that iThis : Buf} :
    AncestorSafe sb d stk that iThis ↔ AncestorRecords sb d stk that iThis := by
  constructor
  · intro h
    exact
      { dotThat := lookupSafe_iff.mp h.dotThat
        dotThis := lookupSafe_iff.mp h.dotThis
        climbs := fun rThat rThis hthat hthis =>
          ((climbWalk_safe_iff _).mp (h.climb rThat rThis hthat hthis)).1
        parents := fun rThat rThis hthat hthis =>
          ((climbWalk_safe_iff _).mp (h.climb rThat rThis hthat hthis)).2 }
  · intro h
    exact
      { dotThat := lookupSafe_iff.mpr h.dotThat
        dotThis := lookupSafe_iff.mpr h.dotThis
        climb := fun rThat rThis hthat hthis => (climbWalk_safe_iff _).mpr
          ⟨h.climbs rThat rThis hthat hthis, h.parents rThat rThis hthat hthis⟩ }

theorem nestedSafe_iff {ino : Nat} {inode : Buf} :
    NestedSafe sb d stk ino inode ↔ NestedRecords sb d stk ino inode := by
  constructor
  · intro h
    exact ⟨(indexWalk_safe_iff (by decide)).mp h.index,
      fun hempty => ancestorSafe_iff.mp (h.ancestor hempty)⟩
  · intro h
    exact ⟨(indexWalk_safe_iff (by decide)).mpr h.index,
      fun hempty => ancestorSafe_iff.mpr (h.ancestor hempty)⟩

/-- The last slot of a directory is one of the first twelve. -/
theorem lastSlot_inside_iff {inode : Buf} :
    (Access.slot ((iBlocks inode + 2 ^ 32 - 1) % 2 ^ 32)).Inside ↔
      1 ≤ iBlocks inode ∧ iBlocks inode ≤ 12 := by
  have hlt : iBlocks inode < 2 ^ 32 := u32At_lt inode 28
  show (iBlocks inode + 2 ^ 32 - 1) % 2 ^ 32 ≤ 11 ↔ _
  omega

theorem recordAccesses_inside_iff {inode blkBuf : Buf} {off swp : Nat} :
    (∀ a ∈ recordAccesses inode blkBuf off swp, a.Inside) ↔
      RecordFits inode blkBuf off swp := by
  unfold recordAccesses RecordFits
  by_cases hfirst : off = 0 ∧ dRecLen blkBuf off ≠ blocksize
  · rw [if_pos hfirst, if_pos hfirst]
    have hname : dNameLen (replaceHeader blkBuf) (dRecLen blkBuf 0) < 256 := UInt8.toNat_lt _
    have hcopy : (Access.bytes 8 (dNameLen (replaceHeader blkBuf) (dRecLen blkBuf 0))).Inside := by
      refine Or.inr ?_
      unfold blocksize
      omega
    constructor
    · intro h
      exact ⟨(h _ List.mem_cons_self).le (by decide), h _ (by simp)⟩
    · rintro ⟨hheader, hread⟩ a ha
      simp only [List.mem_cons, List.not_mem_nil, or_false] at ha
      rcases ha with rfl | rfl | rfl
      · exact Or.inr hheader
      · exact hcopy
      · exact hread
  · rw [if_neg hfirst, if_neg hfirst]
    by_cases hoff : off = 0
    · rw [if_pos hoff, if_pos hoff, List.forall_mem_singleton]
      exact lastSlot_inside_iff
    · rw [if_neg hoff, if_neg hoff, List.forall_mem_singleton]
      exact ⟨fun h => h.le (by decide), Or.inr⟩

/-- These are the records for which the removal goes on. -/
theorem goesOn_iff {inode blkBuf : Buf} {off : Nat} {inode' : Buf} :
    GoesOn sb d stk inode blkBuf off inode' ↔ Removable sb d stk inode blkBuf off inode' := by
  unfold GoesOn Removable
  by_cases hdir : dFileType blkBuf off = ext2FtDir
  · rw [if_pos hdir, if_pos hdir]
    unfold removeDirectory rmDir
    constructor
    · rintro ⟨fuel, d', h⟩
      dsimp only at h
      split at h
      · exact absurd h (by simp)
      · next hempty =>
          refine ⟨not_not.mp hempty, fuel, ?_⟩
          split at h
          · exact absurd h (by simp)
          · exact absurd h (by simp)
          · next inode₁ hanswer =>
              obtain ⟨rfl, -⟩ : inode₁ = inode' ∧ _ = d' := by simpa using h
              exact hanswer
    · rintro ⟨hempty, fuel, hanswer⟩
      refine ⟨fuel, releaseBlkno d (iBlock (rmDir sb d stk (dInode blkBuf off)) 0), ?_⟩
      simp only [hempty, ne_eq, not_true_eq_false, if_false, hanswer, rmDir]
  · rw [if_neg hdir, if_neg hdir]

theorem unlinkSafe_iff {inode blkBuf : Buf} {off swp : Nat} :
    UnlinkSafe sb d stk inode blkBuf off swp ↔ UnlinkRecords sb d stk inode blkBuf off swp := by
  constructor
  · intro h
    exact ⟨fun hdir => nestedSafe_iff.mp (h.nested hdir),
      fun inode' hon => recordAccesses_inside_iff.mp (h.record inode' (goesOn_iff.mpr hon))⟩
  · intro h
    exact ⟨fun hdir => nestedSafe_iff.mpr (h.nested hdir),
      fun inode' hon => recordAccesses_inside_iff.mpr (h.record inode' (goesOn_iff.mp hon))⟩

/-- A removal is safe exactly when the records it meets are as they should be, and so are
those that the calls for the found one meet. -/
theorem removeSafe_iff {inode : Buf} {fname : List UInt8} :
    RemoveSafe sb d stk inode fname ↔
      ∀ t, (removeWalk d inode fname).Visits ⟨0, 0, 0⟩ t →
        (Exhausted inode t ∨ SearchRecord d inode fname (fun _ _ _ => []) t) ∧
          (Finds d inode fname t →
            UnlinkRecords sb d stk inode (metBlock d inode t) (boundary t.blk t.off).2 t.swp) := by
  constructor
  · intro h t hvisit
    exact ⟨(searchWalk_safe_iff _).mp h.search t hvisit,
      fun hfinds => unlinkSafe_iff.mp (h.unlink t hvisit hfinds)⟩
  · intro h
    exact ⟨(searchWalk_safe_iff _).mpr fun t hvisit => (h t hvisit).1,
      fun t hvisit hfinds => unlinkSafe_iff.mpr ((h t hvisit).2 hfinds)⟩

/-- Where the search ends with a record it has come to that record. -/
theorem exists_finds {inode : Buf} {fname : List UInt8} {blk off swp : Nat} {c : Cursor}
    (h : searchLoop d inode fname c.blk c.off c.swp = some (.found blk off swp)) :
    ∃ t, (removeWalk d inode fname).Visits c t ∧ Finds d inode fname t ∧
      boundary t.blk t.off = (blk, off) ∧ t.swp = swp := by
  obtain ⟨blkIdx, dirOff, swpOff⟩ := c
  dsimp only at h
  fun_induction searchLoop d inode fname blkIdx dirOff swpOff with
  | case1 => exact absurd h (by simp)
  | case2 => exact absurd h (by simp)
  | case3 blkIdx dirOff swpOff hin hend q o b htype hname =>
      obtain ⟨rfl, rfl, rfl⟩ := Search.found.inj (Option.some.inj h)
      exact ⟨_, Loop.Visits.start, ⟨not_or.mpr ⟨not_not.mpr hin, hend⟩, htype, hname⟩, rfl, rfl⟩
  | case4 => exact absurd h (by simp)
  | case5 => exact absurd h (by simp)
  | case6 blkIdx dirOff swpOff hin hend q o b htype hname hlen ih =>
      have hex : ¬ Exhausted inode ⟨blkIdx, dirOff, swpOff⟩ :=
        not_or.mpr ⟨not_not.mpr hin, hend⟩
      obtain ⟨t, hvisit, ht⟩ := ih h
      exact ⟨t, hvisit.head (searchWalk_next hex htype hname), ht⟩
  | case7 => exact absurd h (by simp)

/-- The comparison with the parents returns with enough passes. -/
theorem AncestorSafe.isSome {that iThis : Buf} (h : AncestorSafe sb d stk that iThis) :
    ∃ fuel, (ext2IsAncestor sb d stk fuel that iThis).isSome := by
  obtain ⟨rThat, hthat⟩ := Option.isSome_iff_exists.mp (h.dotThat.isSome sb stk stk.ancestorThat)
  obtain ⟨rThis, hthis⟩ := Option.isSome_iff_exists.mp (h.dotThis.isSome sb stk stk.ancestorThis)
  obtain ⟨⟨top, hvisit, hdone⟩, -⟩ := (climbWalk_safe_iff _).mp (h.climb rThat rThis hthat hthis)
  obtain ⟨fuel, hfuel⟩ := ancestorLoop_isSome hvisit hdone
  refine ⟨fuel, ?_⟩
  rw [ext2IsAncestor, hthat, hthis]
  exact hfuel

/-- The checks for a record of a directory return. -/
theorem NestedSafe.isSome {ino : Nat} {inode : Buf} (h : NestedSafe sb d stk ino inode) :
    ∃ fuel, (removeDirectory sb d stk fuel ino inode).isSome := by
  by_cases hempty :
      (ext2ReadDentryByIndex sb d stk 2 (rmDir sb d stk ino) stk.ancestorThat).1 = 0
  · obtain ⟨fuel, hfuel⟩ := (h.ancestor hempty).isSome
    obtain ⟨⟨answer, inode'⟩, hr⟩ := Option.isSome_iff_exists.mp hfuel
    refine ⟨fuel, ?_⟩
    unfold rmDir at hr hempty
    simp only [removeDirectory, if_neg (not_not.mpr hempty), hr]
    cases answer <;> rfl
  · refine ⟨0, ?_⟩
    unfold rmDir at hempty
    simp only [removeDirectory, if_pos hempty, Option.isSome_some]

/-- A removal that is safe returns. -/
theorem removeDentry_isSome {inode : Buf} {fname : List UInt8}
    (h : iMode inode &&& ext2SIfdir ≠ 0 → RemoveSafe sb d stk inode fname) :
    ∃ fuel, (ext2RemoveDentry sb d stk fuel fname inode).isSome := by
  by_cases hdir : iMode inode &&& ext2SIfdir = 0
  · exact ⟨0, by rw [ext2RemoveDentry, if_pos hdir]; rfl⟩
  · have hsafe := h hdir
    have hsome := (searchWalk_terminates_iff d inode fname _ 0 0 0).mp hsafe.search.terminates
    obtain ⟨r, hr⟩ := Option.isSome_iff_exists.mp hsome
    cases r with
    | notFound => exact ⟨0, by simp only [ext2RemoveDentry, if_neg hdir, hr, Option.isSome_some]⟩
    | found blk off swp =>
        obtain ⟨t, hvisit, hfinds, hpos, rfl⟩ :=
          @exists_finds d inode fname blk off swp ⟨0, 0, 0⟩ hr
        have hunlink := hsafe.unlink t hvisit hfinds
        rw [metBlock, hpos] at hunlink
        have hcheck : ∃ fuel,
            (if dFileType (ext2ReadBlock d (iBlock inode blk)) off = ext2FtDir then
              removeDirectory sb d stk fuel (dInode (ext2ReadBlock d (iBlock inode blk)) off) inode
            else some (true, inode, d)).isSome := by
          by_cases htype : dFileType (ext2ReadBlock d (iBlock inode blk)) off = ext2FtDir
          · simp only [if_pos htype]
            exact (hunlink.nested htype).isSome
          · simp only [if_neg htype]
            exact ⟨0, rfl⟩
        obtain ⟨fuel, hfuel⟩ := hcheck
        obtain ⟨⟨on, inode', d'⟩, hcheck⟩ := Option.isSome_iff_exists.mp hfuel
        refine ⟨fuel, ?_⟩
        simp only [ext2RemoveDentry, if_neg hdir, hr, hcheck]
        cases on with
        | false => rfl
        | true => dsimp only; split_ifs <;> rfl

end Removal

/-! ## The four walkers -/

/-- The four walkers terminate and stay inside the direct blocks and the block buffer
exactly when every record they meet is as it should be: it lies in one of the first
twelve blocks, what is read of it or written for it lies in the block, and it has a
length where the walk goes past it.  For a removal this includes the calls for a record
of a directory, and its loop over the parents. -/
theorem walkers_safe_iff (sb : Super) (d : Disk) (stk : Stack) (k : Kernel)
    (inode : Buf) (fname : List UInt8) (idx : Nat) (hidx : idx < 2 ^ 32) (dentry : Dentry) :
    let byName := searchWalk d inode fname fillAccesses
    let byIndex := indexWalk d inode idx
    let insert := insertWalk (dentry.filename.take fnameLen).length
    let remove := removeWalk d inode fname
    ((iMode inode &&& ext2SIfdir ≠ 0 → byName.Safe Access.Inside ⟨0, 0, 0⟩) ↔
        (iMode inode &&& ext2SIfdir ≠ 0 → ∀ t, byName.Visits ⟨0, 0, 0⟩ t →
          Exhausted inode t ∨ SearchRecord d inode fname fillAccesses t)) ∧
      (byIndex.Safe Access.Inside ⟨0, 0, 0⟩ ↔
        ∀ t, byIndex.Visits ⟨0, 0, 0⟩ t → IndexEnd inode t ∨ IndexRecord d inode idx t) ∧
      (insert.Safe Access.Inside ⟨0, 0, inode, d, k⟩ ↔
        ∀ t, insert.Visits ⟨0, 0, inode, d, k⟩ t → ¬ t.blk < 12 ∨
          InsertPass (dentry.filename.take fnameLen).length t) ∧
      ((iMode inode &&& ext2SIfdir ≠ 0 → RemoveSafe sb d stk inode fname) ↔
        (iMode inode &&& ext2SIfdir ≠ 0 → ∀ t, remove.Visits ⟨0, 0, 0⟩ t →
          (Exhausted inode t ∨ SearchRecord d inode fname (fun _ _ _ => []) t) ∧
            (Finds d inode fname t →
              UnlinkRecords sb d stk inode (metBlock d inode t) (boundary t.blk t.off).2
                t.swp))) := by
  have hraw : (dentry.filename.take fnameLen).length ≤ fnameLen := by
    rw [List.length_take]
    exact Nat.min_le_left _ _
  refine ⟨?_, indexWalk_safe_iff hidx, insertWalk_safe_iff hraw _, ?_⟩
  · exact imp_congr_right fun _ => searchWalk_safe_iff _
  · exact imp_congr_right fun _ => removeSafe_iff

/-- A block that starts with a file record of length zero and no name. -/
def zeroLengthBlock : Buf := fun i => if i = 7 then 1 else 0

/-- A directory of one block. -/
def oneBlockDir : Buf := newInode ext2SIfdir 1024 [7]

/-- `walkers_safe_iff` for the walk to the index 2 over a record of length zero: it stays
where it is until the index is reached. -/
theorem walkers_safe_iff_oneBlock :
    (indexWalk (fun _ => zeroLengthBlock) oneBlockDir 2).Safe Access.Inside ⟨0, 0, 0⟩ := by
  obtain ⟨-, hindex, -⟩ := walkers_safe_iff smallGroup.sb (fun _ => zeroLengthBlock) default
    flatMemory oneBlockDir [97] 2 (by decide) default
  rw [hindex]
  intro t hvisit
  have hstart : t.blk = 0 ∧ t.off = 0 := by
    induction hvisit with
    | start => exact ⟨rfl, rfl⟩
    | step _ hnext ih =>
        obtain ⟨-, -, rfl⟩ := indexWalk_next_cases hnext
        simp only [indexBlock, ih.1, ih.2]
        decide
  obtain ⟨hblk, hoff⟩ := hstart
  refine Or.inr ⟨?_, ?_, fun _ => ⟨?_, Or.inl ?_⟩, fun h => absurd h (by decide)⟩
  · omega
  · simp only [hblk, hoff]
    decide
  · simp only [hblk, hoff]
    decide
  · simp only [indexBlock, hblk, hoff]
    decide

/-- The lookup of a name in a directory whose first record has length zero goes over
this record for ever. -/
theorem zero_length_not_terminates :
    iMode oneBlockDir &&& ext2SIfdir ≠ 0 ∧
      ¬ (searchWalk (fun _ => zeroLengthBlock) oneBlockDir [97] fillAccesses).Safe
        Access.Inside ⟨0, 0, 0⟩ ∧
      searchLoop (fun _ => zeroLengthBlock) oneBlockDir [97] 0 0 0 = none := by
  have hex : ¬ Exhausted oneBlockDir ⟨0, 0, 0⟩ := by decide
  have hnot := @searchWalk_stuck (fun _ => zeroLengthBlock) oneBlockDir [97] fillAccesses _ hex
    (fun h => absurd h (by decide)) (by decide) (by decide) (by decide)
  refine ⟨by decide, fun h => hnot h.terminates, ?_⟩
  rw [searchWalk_terminates_iff] at hnot
  simpa using hnot

end Ext2
end NochOS
