import NochOS.Ext2.Ancestors
import NochOS.Ext2.DentryBytes
import NochOS.Ext2.Listing

/-!
# ext2 - removal of directories

`ext2_remove_dentry` looks for a third record in the directory it is about to remove, and
has it filled in at address zero, which is mapped.  The inode of the parent is then used
to climb to the root, and the blocks and the number of the directory are released by
marking them as used.

Main results:

- Theorem `Directory.indexLoop_entries`: the walk to an index in a well-formed directory.
- Theorem `removal_refused`: a directory with another entry is not removed.
- Theorem `removal_accepted`: what an accepted removal leaves.
- Theorem `removesRight_iff`: when the removal is as it should be.
-/

namespace NochOS
namespace Ext2

open Library

/-! ## The removal beside the memory -/

/-- `ext2_read_dentry_by_index` with the entry at an address: the return value and the
memory afterwards. -/
def ext2ReadDentryByIndexAt (sb : Super) (d : Disk) (stk : Stack) (ext2Iop : Nat) (mem : Buf)
    (idx : Nat) (inode : Buf) (dentry : Nat) : Int × Buf :=
  match indexLoop d inode idx 0 0 with
  | none => (0, mem)
  | some (blk, off) =>
      let blkBuf := ext2ReadBlock d (iBlock inode blk)
      (dNameLen blkBuf off,
        ext2FillVfsDentryAt sb d stk ext2Iop mem dentry (recAt blkBuf off))

/-- The part of `ext2_remove_dentry` for a record of a directory: whether the removal goes
on, the inode of the parent, the device and the memory afterwards. -/
def removeDirectoryAt (sb : Super) (d : Disk) (stk : Stack) (ext2Iop : Nat) (mem : Buf)
    (fuel ino : Nat) (inode : Buf) : Option (Bool × Buf × Disk × Buf) :=
  let rmDir := (ext2ReadInode sb d ino stk.removeRmDir).2
  let third := ext2ReadDentryByIndexAt sb d stk ext2Iop mem 2 rmDir 0
  if third.1 ≠ 0 then some (false, inode, d, third.2)
  else
    match ext2IsAncestor sb d stk fuel rmDir inode with
    | none => none
    | some (true, inode) => some (false, inode, d, third.2)
    | some (false, inode) => some (true, inode, releaseBlkno d (iBlock rmDir 0), third.2)

/-- `ext2_remove_dentry`: the return value, the inode of the directory, the device and the
memory afterwards. -/
def ext2RemoveDentryAt (sb : Super) (d : Disk) (stk : Stack) (ext2Iop : Nat) (mem : Buf)
    (fuel : Nat) (fname : List UInt8) (inode : Buf) : Option (Int × Buf × Disk × Buf) :=
  if iMode inode &&& ext2SIfdir = 0 then some (-1, inode, d, mem)
  else
    match searchLoop d inode fname 0 0 0 with
    | none => none
    | some .notFound => some (-1, inode, d, mem)
    | some (.found blk off swp) =>
        let blkno := iBlock inode blk
        let blkBuf := ext2ReadBlock d blkno
        let ino := dInode blkBuf off
        match (if dFileType blkBuf off = ext2FtDir then
            removeDirectoryAt sb d stk ext2Iop mem fuel ino inode
          else some (true, inode, d, mem)) with
        | none => none
        | some (false, inode, d, mem) => some (-1, inode, d, mem)
        | some (true, inode, d, mem) =>
            let d := releaseBlocks (ext2ReadInode sb d ino stk.removeTheInode).2 d
            let d := releaseIno d ino
            if off = 0 ∧ dRecLen blkBuf off ≠ blocksize then
              some (0, inode, ext2WriteBlock d blkno (replaceFirst blkBuf), mem)
            else if off = 0 then
              let last := (iBlocks inode + 2 ^ 32 - 1) % 2 ^ 32
              some (0, setIBlocks (setIBlock inode last 0) last,
                ext2WriteBlock (releaseBlkno d blkno) blkno blkBuf, mem)
            else some (0, inode, ext2WriteBlock d blkno (annex blkBuf off swp), mem)

section Memory

variable {sb : Super} {d : Disk} {stk : Stack} {ext2Iop : Nat} {mem : Buf} {fuel ino : Nat}
  {inode : Buf}

/-- Without the memory the answer for an index is the one of the other modules. -/
theorem readDentryByIndexAt_fst (idx dentry : Nat) (temp : Dentry) :
    (ext2ReadDentryByIndexAt sb d stk ext2Iop mem idx inode dentry).1 =
      (ext2ReadDentryByIndex sb d stk idx inode temp).1 := by
  rw [ext2ReadDentryByIndexAt, ext2ReadDentryByIndex]
  cases indexLoop d inode idx 0 0 with
  | none => rfl
  | some place => rfl

/-- Without the memory the test is the one of the other modules. -/
theorem removeDirectoryAt_map :
    (removeDirectoryAt sb d stk ext2Iop mem fuel ino inode).map (fun r => (r.1, r.2.1, r.2.2.1)) =
      removeDirectory sb d stk fuel ino inode := by
  rw [removeDirectoryAt, removeDirectory]
  simp only [readDentryByIndexAt_fst 2 0 stk.ancestorThat]
  split
  · rfl
  · cases ext2IsAncestor sb d stk fuel (ext2ReadInode sb d ino stk.removeRmDir).2 inode with
    | none => rfl
    | some r =>
        obtain ⟨answer, inode'⟩ := r
        cases answer <;> rfl

/-- Without the memory the removal is the one of the other modules. -/
theorem ext2RemoveDentryAt_map (fname : List UInt8) :
    (ext2RemoveDentryAt sb d stk ext2Iop mem fuel fname inode).map
        (fun r => (r.1, r.2.1, r.2.2.1)) =
      ext2RemoveDentry sb d stk fuel fname inode := by
  rw [ext2RemoveDentryAt, ext2RemoveDentry]
  by_cases hdir : iMode inode &&& ext2SIfdir = 0
  · rw [if_pos hdir, if_pos hdir]
    rfl
  rw [if_neg hdir, if_neg hdir]
  cases searchLoop d inode fname 0 0 0 with
  | none => rfl
  | some found =>
      cases found with
      | notFound => rfl
      | found blk off swp =>
          have hmap := @removeDirectoryAt_map sb d stk ext2Iop mem fuel
            (dInode (ext2ReadBlock d (iBlock inode blk)) off) inode
          simp only
          by_cases hft : dFileType (ext2ReadBlock d (iBlock inode blk)) off = ext2FtDir
          · rw [if_pos hft, if_pos hft, ← hmap]
            cases removeDirectoryAt sb d stk ext2Iop mem fuel
                (dInode (ext2ReadBlock d (iBlock inode blk)) off) inode with
            | none => rfl
            | some r =>
                obtain ⟨goesOn, inode', d', mem'⟩ := r
                cases goesOn with
                | false => rfl
                | true =>
                    simp only [Option.map_some]
                    split
                    · rfl
                    · split
                      · rfl
                      · rfl
          · rw [if_neg hft, if_neg hft]
            simp only
            split
            · rfl
            · split
              · rfl
              · rfl

end Memory

/-! ## The third record -/

section Index

variable {g : Geometry} {d : Disk} {ino : Nat}

/-- A record in use has room for its name. -/
theorem Rec.Ok.fits {r : Rec} (h : r.Ok) : 8 + r.name.length ≤ r.recLen := by
  have hroom := h.room
  have hpad := le_padded r.name.length
  omega

/-- The records of a block end inside of it, and at its end when another block follows. -/
theorem Directory.tiled_le (h : Directory g (view g d) ino) {k : Nat}
    (hk : k < iBlocks ((view g d).inode ino)) :
    ∃ stop, TilesOf Rec.Ok ((view g d).dirBlock ino k) 0 ((view g d).dirRecords ino k) stop ∧
      stop ≤ 1024 ∧ (k + 1 < iBlocks ((view g d).inode ino) → stop = 1024) := by
  obtain ⟨stop, htiles, hend⟩ := h.tiled k hk
  refine ⟨stop, tiles_iff.mp htiles, ?_, fun hnext => ?_⟩
  · cases hend with
    | inl hfull => exact hfull.le
    | inr hlast =>
        have hroom := hlast.2.1
        omega
  · cases hend with
    | inl hfull => exact hfull
    | inr hlast => omega

/-- The walk to an index in a well-formed directory comes to the entry of the index. -/
theorem Directory.indexLoop_entries (h : Directory g (view g d) ino) {n : Nat}
    (hn : n < ((view g d).entries ino).length) :
    ∃ blk off, indexLoop d ((view g d).inode ino) n 0 0 = some (blk, off) ∧
      recAt (ext2ReadBlock d (iBlock ((view g d).inode ino) blk)) off =
        ((view g d).entries ino)[n] := by
  have hstart : (view g d).entries ino =
      entriesFrom ((view g d).inode ino) ((view g d).dirRecords ino) 0 :=
    (entriesFrom_zero _ _).symm
  -- the measure is the number of blocks behind this one
  have hfrom : ∀ m k n, iBlocks ((view g d).inode ino) - (k + 1) = m →
      k < iBlocks ((view g d).inode ino) →
      ∀ hn : n < (entriesFrom ((view g d).inode ino) ((view g d).dirRecords ino) k).length,
      ∃ blk off, indexLoop d ((view g d).inode ino) n k 0 = some (blk, off) ∧
        recAt (ext2ReadBlock d (iBlock ((view g d).inode ino) blk)) off =
          (entriesFrom ((view g d).inode ino) ((view g d).dirRecords ino) k)[n] := by
    intro m
    induction m with
    | zero =>
        intro k n hm hk hn
        obtain ⟨stop, htiles, hstop, -⟩ := h.tiled_le hk
        have hsplit := entriesFrom_cons ((view g d).dirRecords ino) hk
        rw [entriesFrom_end _ (show iBlocks ((view g d).inode ino) ≤ k + 1 by omega),
          List.append_nil] at hsplit
        simp only [hsplit] at hn ⊢
        cases indexLoop_tiles (fun _ => Rec.Ok.fits) (h.readBlock hk) htiles hstop n with
        | inl hin =>
            obtain ⟨hlt, off, hloop, hat⟩ := hin
            refine ⟨k, off, hloop, ?_⟩
            rw [h.readBlock hk]
            exact hat
        | inr hout => exact absurd hn (Nat.not_lt.mpr hout.1)
    | succ m ih =>
        intro k n hm hk hn
        have hnext : k + 1 < iBlocks ((view g d).inode ino) := by
          omega
        obtain ⟨stop, htiles, hstop, hfull⟩ := h.tiled_le hk
        have hsplit := entriesFrom_cons ((view g d).dirRecords ino) hk
        simp only [hsplit, List.length_append] at hn ⊢
        cases indexLoop_tiles (fun _ => Rec.Ok.fits) (h.readBlock hk) htiles hstop n with
        | inl hin =>
            obtain ⟨hlt, off, hloop, hat⟩ := hin
            refine ⟨k, off, hloop, ?_⟩
            rw [h.readBlock hk, List.getElem_append_left hlt]
            exact hat
        | inr hout =>
            obtain ⟨hle, hloop⟩ := hout
            obtain ⟨blk, off, hloop', hat⟩ := ih (k + 1) (n - ((view g d).dirRecords ino k).length)
              (by omega) hnext (by omega)
            refine ⟨blk, off, ?_, ?_⟩
            · rw [hloop, hfull hnext, indexLoop_cross hnext]
              exact hloop'
            · rw [hat, List.getElem_append_right hle]
  obtain ⟨blk, off, hloop, hrec⟩ := hfrom _ 0 n rfl h.pos (hstart ▸ hn)
  refine ⟨blk, off, hloop, hrec.trans ?_⟩
  simp only [hstart]

/-- Every entry of a well-formed directory is in use. -/
theorem Directory.entry_ok (h : Directory g (view g d) ino) {r : Rec}
    (hr : r ∈ (view g d).entries ino) : r.Ok := by
  obtain ⟨k, hk, hmem⟩ := mem_entries.mp hr
  obtain ⟨stop, htiles, -⟩ := h.tiled k hk
  exact htiles.ok r hmem

end Index

/-! ## The removal -/

/-- The directory has an entry that is not one of the two dots. -/
def HasOther (v : View) (c : Nat) : Prop := ∃ r ∈ v.entries c, r.name ≠ dot ∧ r.name ≠ dotDot

/-- The entries of this name in a directory of the tree are those of a subdirectory. -/
structure SubEntry (g : Geometry) (d : Disk) (dirs : Set Nat) (parent : Nat → Nat) (p : Nat)
    (fname : List UInt8) (c : Nat) : Prop where
  parent_mem : p ∈ dirs
  mem : c ∈ dirs
  up : parent c = p
  ne : c ≠ ext2RootIno
  noNul : 0 ∉ fname
  names : Names (view g d) p fname c
  ft : ∀ r ∈ (view g d).entries p, r.name = fname → r.ft = ext2FtDir

/-- The blocks of an inode. -/
def blocksOf (v : View) (n : Nat) : Set Nat :=
  {b | ∃ k < directCount (v.inode n), b = iBlock (v.inode n) k}

/-- The second image is the first one without the entry of this name, and with the inode and
the blocks of the subdirectory given back. -/
structure Released (v v' : View) (p : Nat) (fname : List UInt8) (c : Nat) : Prop where
  inodeUsed : v'.inodeUsed = Function.update v.inodeUsed c false
  blockUsed : ∀ b, v'.blockUsed b = true ↔ v.blockUsed b = true ∧ b ∉ blocksOf v c
  entries : ∃ as cs ft, (v.entries p).map Rec.key = as ++ (fname, c, ft) :: cs ∧
    (v'.entries p).map Rec.key = as ++ cs

/-- The removal as it should be: it comes back, refuses a directory with another entry and
no other one, changes neither the device nor the memory then, and otherwise releases the
subdirectory and leaves the inode of the parent. -/
def RemovesRight (g : Geometry) (d : Disk) (stk : Stack) (ext2Iop : Nat) (mem : Buf) (p : Nat)
    (fname : List UInt8) (c : Nat) : Prop :=
  ∃ k, ∀ fuel > k, ∃ ret inode' d' mem',
    ext2RemoveDentryAt g.sb d stk ext2Iop mem fuel fname ((view g d).inode p) =
        some (ret, inode', d', mem') ∧
      (ret = -1 ↔ HasOther (view g d) c) ∧
      (ret = -1 → d' = d ∧ mem' = mem) ∧
      (ret ≠ -1 → Released (view g d) (view g d') p fname c ∧ inode' = (view g d').inode p)

section Removal

variable {g : Geometry} {d : Disk} {dirs : Set Nat} {parent : Nat → Nat} {p c : Nat}
  {fname : List UInt8}

/-- Beside the two dots there are at least three entries. -/
theorem DirTree.third (h : DirTree g d dirs parent) (hc : c ∈ dirs)
    (hother : HasOther (view g d) c) : 2 < ((view g d).entries c).length := by
  obtain ⟨r, hr, hname⟩ := (h.self c hc).exists_record
  obtain ⟨r', hr', hname'⟩ := (h.up c hc).exists_record
  obtain ⟨q, hq, hdot, hdotDot⟩ := hother
  have hne : dot ≠ dotDot := by
    decide
  have hnodup : [r, r', q].Nodup := by
    apply List.Nodup.of_map Rec.name
    simp only [List.map_cons, List.map_nil, hname, hname', List.nodup_cons, List.mem_cons,
      List.not_mem_nil, or_false, List.nodup_nil, and_true, not_false_eq_true, not_or]
    exact ⟨⟨hne, hdot.symm⟩, hdotDot.symm⟩
  have hsub : [r, r', q] ⊆ (view g d).entries c := by
    intro x hx
    simp only [List.mem_cons, List.not_mem_nil, or_false] at hx
    rcases hx with rfl | rfl | rfl
    · exact hr
    · exact hr'
    · exact hq
  exact (hnodup.subperm hsub).length_le

/-- The search finds an entry of the subdirectory. -/
theorem SubEntry.found (h : DirTree g d dirs parent) (hsub : SubEntry g d dirs parent p fname c) :
    ∃ k off swp pre r post,
      searchLoop d ((view g d).inode p) fname 0 0 0 = some (.found k off swp) ∧
        FoundAt (view g d) p fname k off swp pre r post ∧ r.ino = c ∧ r.ft = ext2FtDir ∧
        dInode ((view g d).dirBlock p k) off = c ∧
        dFileType ((view g d).dirBlock p k) off = ext2FtDir := by
  cases searchLoop_cases (h.directory p hsub.parent_mem) hsub.noNul with
  | inl hnone =>
      obtain ⟨r, hr, hname⟩ := hsub.names.exists_record
      exact absurd hname (hnone.2 r hr)
  | inr hfound =>
      obtain ⟨k, off, swp, pre, r, post, hfound, hat⟩ := hfound
      have hino := hsub.names.ino r hat.mem hat.name
      have hft := hsub.ft r hat.mem hat.name
      refine ⟨k, off, swp, pre, r, post, hfound, hat, hino, hft, ?_, ?_⟩
      · rw [← hino, ← hat.here]
        rfl
      · rw [← hft, ← hat.here]
        rfl

/-- A directory with another entry is not removed, and its third entry is filled in at
address zero. -/
theorem removal_refused (h : DirTree g d dirs parent) (hsub : SubEntry g d dirs parent p fname c)
    (stk : Stack) (ext2Iop : Nat) (mem : Buf) (fuel : Nat)
    (hlen : 2 < ((view g d).entries c).length) :
    ext2RemoveDentryAt g.sb d stk ext2Iop mem fuel fname ((view g d).inode p) =
      some (-1, (view g d).inode p, d,
        ext2FillVfsDentryAt g.sb d stk ext2Iop mem 0 ((view g d).entries c)[2]) := by
  have hdir := h.directory p hsub.parent_mem
  have hchild := h.directory c hsub.mem
  obtain ⟨k, off, swp, pre, r, post, hfound, hat, -, -, hino, hft⟩ := hsub.found h
  obtain ⟨blk, off', hloop, hrec⟩ := hchild.indexLoop_entries hlen
  have hne : ((dNameLen (ext2ReadBlock d (iBlock ((view g d).inode c) blk)) off' : Nat) : Int) ≠
      0 := by
    have hok := hchild.entry_ok (List.getElem_mem hlen)
    have hpos := List.length_pos_iff.mpr hok.name
    rw [← hrec] at hpos
    simp only [recAt, dName, length_bytesAt] at hpos
    omega
  have hread := readInode_eq h.onDisk hchild.owns.valid hchild.owns.used stk.removeRmDir
  simp only [ext2RemoveDentryAt, if_neg hdir.isDir, hfound, hdir.readBlock hat.block, hft, hino,
    if_pos, removeDirectoryAt, hread, ext2ReadDentryByIndexAt, hloop, hrec, if_pos hne]

/-- The device after a removal that comes back: no bit of a bitmap is cleared. -/
theorem removal_accepted (h : DirTree g d dirs parent) (hsub : SubEntry g d dirs parent p fname c)
    {stk : Stack} {ext2Iop fuel : Nat} {mem inode' mem' : Buf} {ret : Int} {d' : Disk}
    (hrun : ext2RemoveDentryAt g.sb d stk ext2Iop mem fuel fname ((view g d).inode p) =
      some (ret, inode', d', mem')) :
    (ret = -1 ∧ d' = d) ∨ (ret = 0 ∧ (view g d').inodeUsed = (view g d).inodeUsed ∧
      (view g d').blockUsed = (view g d).blockUsed) := by
  have hdir := h.directory p hsub.parent_mem
  have hchild := h.directory c hsub.mem
  have hread := readInode_eq h.onDisk hdir.owns.valid hdir.owns.used stk.removeInode
  have hmap := @ext2RemoveDentryAt_map g.sb d stk ext2Iop mem fuel ((view g d).inode p) fname
  rw [hrun] at hmap
  have hiremove : iremove g.sb d stk fuel p fname = some (ret, d') := by
    simp only [iremove, hread, ← hmap, Option.map_some]
  cases iremove_cases h.onDisk hdir hsub.noNul (fun r hr hname => by
      rw [hsub.names.ino r hr hname]
      exact ⟨hchild.owns, fun _ => hchild.pos⟩) hiremove with
  | inl hrefused => exact Or.inl hrefused
  | inr hdone =>
      obtain ⟨hret, -, r, hr, hname, hremoved⟩ := hdone
      refine Or.inr ⟨hret, ?_⟩
      cases hremoved with
      | inl hsame =>
          rw [hsame.2]
          exact ⟨rfl, rfl⟩
      | inr hunlinked =>
          obtain ⟨-, k, hk, buf, -, hview⟩ := hunlinked
          rw [hview]
          exact ⟨rfl, rfl⟩

/-- Without a third entry the removal goes on, and the inode of the parent becomes that of
the root, unless the record fills its block. -/
theorem removal_goesOn (h : DirTree g d dirs parent) (hsub : SubEntry g d dirs parent p fname c)
    (stk : Stack) (ext2Iop : Nat) (mem : Buf)
    (hnone : (ext2ReadDentryByIndexAt g.sb d stk ext2Iop mem 2 ((view g d).inode c) 0).1 = 0)
    (hlen : ∀ r ∈ (view g d).entries p, r.name = fname → r.recLen ≠ blocksize) :
    ∃ k, ∀ fuel > k, ∃ d' mem',
      ext2RemoveDentryAt g.sb d stk ext2Iop mem fuel fname ((view g d).inode p) =
        some (0, (view g d).inode ext2RootIno, d', mem') := by
  have hdir := h.directory p hsub.parent_mem
  have hchild := h.directory c hsub.mem
  obtain ⟨k, off, swp, pre, r, post, hfound, hat, -, -, hino, hft⟩ := hsub.found h
  have hrecLen : dRecLen ((view g d).dirBlock p k) off ≠ blocksize := by
    rw [(hat.inside hdir).2.2]
    exact hlen r hat.mem hat.name
  have hread := readInode_eq h.onDisk hchild.owns.valid hchild.owns.used stk.removeRmDir
  have hne : ¬ (ext2ReadDentryByIndexAt g.sb d stk ext2Iop mem 2 ((view g d).inode c) 0).1 ≠ 0 :=
    not_not.mpr hnone
  -- the subdirectory is not above its parent, so the climb ends at the root
  obtain ⟨m, steps, hfirst⟩ := h.exists_stop c hsub.parent_mem
  have hroot : m = ext2RootIno := by
    cases hfirst.holds with
    | inl hroot => exact hroot
    | inr hself =>
        have habove : Above parent c (parent c) := ⟨steps, by
          rw [hsub.up, ← hself]
          exact hfirst.climbs⟩
        exact absurd habove (not_above_parent h.root (h.climbs c hsub.mem) hsub.ne)
  subst hroot
  refine ⟨steps, fun fuel hfuel => ?_⟩
  have hanc := ext2IsAncestor_climb h stk hsub.mem hsub.parent_mem hfirst hfuel
  have hfalse : decide (ext2RootIno ≠ ext2RootIno) = false := by
    simp
  rw [hfalse] at hanc
  simp only [ext2RemoveDentryAt, if_neg hdir.isDir, hfound, hdir.readBlock hat.block, hft, hino,
    if_pos, removeDirectoryAt, hread, if_neg hne, hanc]
  by_cases hoff : off = 0
  · rw [if_pos ⟨hoff, hrecLen⟩]
    exact ⟨_, _, rfl⟩
  · rw [if_neg fun hzero => hoff hzero.1, if_neg hoff]
    exact ⟨_, _, rfl⟩

/-- The removal is as it should be exactly when it has to be refused and the memory at
address zero holds the third entry of the subdirectory already. -/
theorem removesRight_iff (h : DirTree g d dirs parent) (hsub : SubEntry g d dirs parent p fname c)
    (stk : Stack) (ext2Iop : Nat) (mem : Buf) :
    RemovesRight g d stk ext2Iop mem p fname c ↔
      HasOther (view g d) c ∧ ∃ hlen : 2 < ((view g d).entries c).length,
        ext2FillVfsDentryAt g.sb d stk ext2Iop mem 0 ((view g d).entries c)[2] = mem := by
  have hchild := h.directory c hsub.mem
  constructor
  · intro hright
    obtain ⟨k, hright⟩ := hright
    obtain ⟨ret, inode', d', mem', hrun, hiff, hrefused, haccepted⟩ := hright (k + 1) (by omega)
    by_cases hother : HasOther (view g d) c
    · have hlen := h.third hsub.mem hother
      refine ⟨hother, hlen, ?_⟩
      have hsome := (removal_refused h hsub stk ext2Iop mem (k + 1) hlen).symm.trans hrun
      simp only [Option.some.injEq, Prod.mk.injEq] at hsome
      obtain ⟨rfl, -, -, hmem⟩ := hsome
      exact hmem.trans (hrefused rfl).2
    · have hne : ret ≠ -1 := fun heq => hother (hiff.mp heq)
      cases removal_accepted h hsub hrun with
      | inl hstop => exact absurd hstop.1 hne
      | inr hdone =>
          have hfree := (haccepted hne).1.inodeUsed
          have hused := hchild.owns.used
          rw [hdone.2.1] at hfree
          rw [hfree, Function.update_self] at hused
          exact absurd hused (by simp)
  · intro hcond
    obtain ⟨hother, hlen, hmem⟩ := hcond
    refine ⟨0, fun fuel _ =>
      ⟨-1, (view g d).inode p, d, mem, ?_, by simp [hother], by simp, by simp⟩⟩
    rw [removal_refused h hsub stk ext2Iop mem fuel hlen, hmem]

end Removal

/-! ## The tree of three directories -/

theorem subEntry_tree : SubEntry smallGroup treeDisk treeDirs treeParent 2 [100] 12 ∧
    SubEntry smallGroup treeDisk treeDirs treeParent 12 [101] 13 := by
  have h₂ : 2 ∈ treeDirs := by simp [treeDirs]
  have h₁₂ : 12 ∈ treeDirs := by simp [treeDirs]
  have h₁₃ : 13 ∈ treeDirs := by simp [treeDirs]
  have hentries := (directory_tree 2 h₂).2.1
  have hentries' := (directory_tree 12 h₁₂).2.1
  have hft : ∀ r ∈ treeRecords 2, r.name = [100] → r.ft = ext2FtDir := by decide
  have hft' : ∀ r ∈ treeRecords 12, r.name = [101] → r.ft = ext2FtDir := by decide
  refine ⟨⟨h₂, h₁₂, rfl, by decide, by decide, ?_, ?_⟩, h₁₂, h₁₃, rfl, by decide, by decide, ?_, ?_⟩
  · exact names_tree h₂ (by decide) (by decide)
  · rw [hentries]
    exact hft
  · exact names_tree h₁₂ (by decide) (by decide)
  · rw [hentries']
    exact hft'

/-- The subdirectory of the root has a third entry. -/
theorem third_tree : HasOther (view smallGroup treeDisk) 12 ∧
    ∃ hlen : 2 < ((view smallGroup treeDisk).entries 12).length,
      ((view smallGroup treeDisk).entries 12)[2] = ⟨13, 1000, 2, [101]⟩ := by
  have hentries := (directory_tree 12 (by simp [treeDirs])).2.1
  constructor
  · rw [HasOther, hentries]
    decide
  · have hlen : 2 < (treeRecords 12).length := by
      decide
    simp only [hentries]
    exact ⟨hlen, rfl⟩

/-- The innermost directory has none. -/
theorem no_third_tree (stk : Stack) (ext2Iop : Nat) (mem : Buf) :
    (ext2ReadDentryByIndexAt smallGroup.sb treeDisk stk ext2Iop mem 2
      ((view smallGroup treeDisk).inode 13) 0).1 = 0 := by
  obtain ⟨hdir, -, hblocks, htiles⟩ := directory_tree 13 (by simp [treeDirs])
  have hloop : indexLoop treeDisk ((view smallGroup treeDisk).inode 13) 2 0 0 = none := by
    cases indexLoop_tiles (fun _ => Rec.Ok.fits) (hdir.readBlock hdir.pos) (tiles_iff.mp htiles)
        le_rfl 2 with
    | inl hin =>
        obtain ⟨hlt, -⟩ := hin
        exact absurd hlt (by decide)
    | inr hout =>
        rw [hout.2, indexLoop, if_pos ⟨le_rfl, hblocks.le⟩]
  simp only [ext2ReadDentryByIndexAt, hloop]

/-- Over a memory of zeros a refused removal stores the name of the third entry, and an
accepted one leaves the inode number in use and the inode of the root in the place of that
of the parent. -/
theorem removal_wrong :
    (∀ fuel, ∃ mem', ext2RemoveDentryAt smallGroup.sb treeDisk default 0 (fun _ => 0) fuel [100]
        ((view smallGroup treeDisk).inode 2) =
      some (-1, (view smallGroup treeDisk).inode 2, treeDisk, mem') ∧ mem' 0 = 101) ∧
    ∃ k, ∀ fuel > k, ∃ d' mem', ext2RemoveDentryAt smallGroup.sb treeDisk default 0 (fun _ => 0)
          fuel [101] ((view smallGroup treeDisk).inode 12) =
        some (0, (view smallGroup treeDisk).inode 2, d', mem') ∧
      (view smallGroup treeDisk).inode 2 ≠ (view smallGroup treeDisk).inode 12 ∧
      (view smallGroup d').inodeUsed 13 = true := by
  have htree := dirTree_tree
  obtain ⟨hsub, hsub'⟩ := subEntry_tree
  obtain ⟨-, hlen, hthird⟩ := third_tree
  constructor
  · intro fuel
    refine ⟨_, removal_refused htree hsub default 0 (fun _ => 0) fuel hlen, ?_⟩
    have hname := @fill_name smallGroup.sb treeDisk default 0 (fun _ => 0) 0 ⟨13, 1000, 2, [101]⟩
      (by decide) 0 (by decide)
    rw [hthird]
    exact hname
  · have hrecLen : ∀ r ∈ treeRecords 12, r.name = [101] → r.recLen ≠ blocksize := by decide
    obtain ⟨k, hrun⟩ := removal_goesOn htree hsub' default 0 (fun _ => 0)
      (no_third_tree default 0 fun _ => 0) (by
        rw [(directory_tree 12 hsub'.parent_mem).2.1]
        exact hrecLen)
    refine ⟨k, fun fuel hfuel => ?_⟩
    obtain ⟨d', mem', hsome⟩ := hrun fuel hfuel
    refine ⟨d', mem', hsome, fun heq => ?_, ?_⟩
    · exact absurd (htree.inode_inj hsub.parent_mem hsub'.parent_mem heq) (by decide)
    · cases removal_accepted htree hsub' hsome with
      | inl hstop => exact absurd hstop.1 (by decide)
      | inr hdone =>
          rw [hdone.2.1]
          exact (htree.directory 13 hsub'.mem).owns.used

/-- `removesRight_iff` for the subdirectory of the root, over a memory that an earlier
refusal has left. -/
theorem removesRight_iff_tree :
    ∃ mem, RemovesRight smallGroup treeDisk default 0 mem 2 [100] 12 := by
  obtain ⟨hother, hlen, hthird⟩ := third_tree
  refine ⟨ext2FillVfsDentryAt smallGroup.sb treeDisk default 0 (fun _ => 0) 0 ⟨13, 1000, 2, [101]⟩,
    (removesRight_iff dirTree_tree subEntry_tree.1 default 0 _).mpr ⟨hother, hlen, ?_⟩⟩
  rw [hthird]
  exact fill_idem _

end Ext2
end NochOS
