import NochOS.Ext2.Space
import NochOS.Library.Climb

/-!
# ext2 - the ancestor test

`ext2_is_ancestor` climbs from one directory to its parents and stops at the root
before it compares.  The inode it climbs with is the one the caller has passed as
constant.

Main results:

- Theorem `ancestorLoop_climb`: the loop stops at the first node that is the root or
  the directory it looks for.
- Theorem `ext2IsAncestor_terminates`: the test comes back in every tree.
- Theorem `ext2IsAncestor_iff`: when the answer is right and the inode unchanged.
-/

namespace NochOS
namespace Ext2

open Library

/-! ## Trees of directories -/

/-- The directory has an entry of this name, and every such entry names the inode. -/
structure Names (v : View) (n : Nat) (fname : List UInt8) (m : Nat) : Prop where
  exists_record : ∃ r ∈ v.entries n, r.name = fname
  ino : ∀ r ∈ v.entries n, r.name = fname → r.ino = m

/-- A tree of directories: each of them names itself and its parent, the root is its own
parent, and every climb comes to the root. -/
structure DirTree (g : Geometry) (d : Disk) (dirs : Set Nat) (parent : Nat → Nat) : Prop where
  onDisk : OnDisk g d
  directory : ∀ n ∈ dirs, Directory g (view g d) n
  self : ∀ n ∈ dirs, Names (view g d) n dot n
  up : ∀ n ∈ dirs, Names (view g d) n dotDot (parent n)
  closed : ∀ n ∈ dirs, parent n ∈ dirs
  root : parent ext2RootIno = ext2RootIno
  climbs : ∀ n ∈ dirs, ∃ k, parent^[k] n = ext2RootIno

section Tree

variable {g : Geometry} {d : Disk} {dirs : Set Nat} {parent : Nat → Nat}

/-- A search for a name that the directory has fills in the inode number. -/
theorem Names.read {n m : Nat} {fname : List UInt8} (h : Names (view g d) n fname m)
    (hdir : Directory g (view g d) n) (hname : 0 ∉ fname) (stk : Stack) (dentry : Dentry) :
    ∃ res dentry', ext2ReadDentryByName g.sb d stk fname ((view g d).inode n) dentry =
      some (res, dentry') ∧ dentry'.iIno = m := by
  cases searchLoop_cases hdir hname with
  | inl hnone =>
      obtain ⟨r, hr, hrname⟩ := h.exists_record
      exact absurd hrname (hnone.2 r hr)
  | inr hfound =>
      obtain ⟨k, off, swp, pre, r, post, hfound, hat⟩ := hfound
      have hino : dInode ((view g d).dirBlock n k) off = m := by
        rw [← h.ino r hat.mem hat.name, ← hat.here]
        rfl
      refine ⟨dNameLen ((view g d).dirBlock n k) off,
        ext2FillVfsDentry g.sb d stk ((view g d).dirBlock n k) off, ?_, hino⟩
      simp only [ext2ReadDentryByName, if_neg hdir.isDir, hfound, hdir.readBlock hat.block]

/-- Directories with the same inode are the same one, since each names itself. -/
theorem DirTree.inode_inj (h : DirTree g d dirs parent) {n m : Nat} (hn : n ∈ dirs) (hm : m ∈ dirs)
    (heq : (view g d).inode n = (view g d).inode m) : n = m := by
  have hentries : (view g d).entries n = (view g d).entries m := by
    have hrecords : (view g d).dirRecords n = (view g d).dirRecords m := by
      funext k
      rw [View.dirRecords, View.dirRecords, View.dirBlock, View.dirBlock, heq]
    rw [View.entries, View.entries, heq, hrecords]
  obtain ⟨r, hr, hname⟩ := (h.self n hn).exists_record
  have hleft := (h.self n hn).ino r hr hname
  rw [hentries] at hr
  exact hleft.symm.trans ((h.self m hm).ino r hr hname)

/-- A climb stays among the directories. -/
theorem DirTree.iterate_mem (h : DirTree g d dirs parent) {n : Nat} (hn : n ∈ dirs) (k : Nat) :
    parent^[k] n ∈ dirs := by
  induction k with
  | zero => exact hn
  | succ k ih =>
      rw [Function.iterate_succ_apply']
      exact h.closed _ ih

/-! ## The climb -/

/-- Where the loop is left: at the root, or at the directory with the number. -/
def Stops (t n : Nat) : Prop := n = ext2RootIno ∨ n = t

instance (t : Nat) : DecidablePred (Stops t) := fun n =>
  inferInstanceAs (Decidable (n = ext2RootIno ∨ n = t))

/-- The loop comes to the first node where it is left, and answers whether that is not
the root. -/
theorem ancestorLoop_climb (h : DirTree g d dirs parent) (stk : Stack) {t s m k : Nat}
    (hs : s ∈ dirs) (hfirst : FirstOn parent (Stops t) s m k) {dThis : Dentry}
    (hthis : dThis.iIno = s) {fuel : Nat} (hfuel : k < fuel) :
    ancestorLoop g.sb d stk t fuel dThis ((view g d).inode s) =
      some (decide (m ≠ ext2RootIno), (view g d).inode m) := by
  -- the induction is on the number of steps that are left
  induction k generalizing s dThis fuel with
  | zero =>
      obtain ⟨fuel, rfl⟩ : ∃ f, fuel = f + 1 := ⟨fuel - 1, by omega⟩
      have hsm : s = m := hfirst.climbs
      subst hsm
      by_cases hroot : s = ext2RootIno
      · rw [ancestorLoop, hthis, if_pos hroot]
        simp [hroot]
      · have ht : s = t := hfirst.holds.resolve_left hroot
        rw [ancestorLoop, hthis, if_neg hroot, if_pos ht]
        simp [hroot]
  | succ k ih =>
      obtain ⟨fuel, rfl⟩ : ∃ f, fuel = f + 1 := ⟨fuel - 1, by omega⟩
      obtain ⟨hgo, hrest⟩ := hfirst.step
      have hroot : ¬ s = ext2RootIno := fun heq => hgo (Or.inl heq)
      have ht : ¬ s = t := fun heq => hgo (Or.inr heq)
      obtain ⟨res, dentry', hread, hino⟩ :=
        (h.up s hs).read (h.directory s hs) (by decide) stk dThis
      have hparent := h.directory _ (h.closed s hs)
      have hinode : (ext2ReadInode g.sb d dentry'.iIno ((view g d).inode s)).2 =
          (view g d).inode (parent s) := by
        rw [hino, readInode_eq h.onDisk hparent.owns.valid hparent.owns.used]
      rw [ancestorLoop, hthis, if_neg hroot, if_neg ht, hread]
      simp only [hinode]
      exact ih (h.closed s hs) hrest hino (by omega)

/-- The test climbs from the second directory. -/
theorem ext2IsAncestor_climb (h : DirTree g d dirs parent) (stk : Stack) {t s m k : Nat}
    (ht : t ∈ dirs) (hs : s ∈ dirs) (hfirst : FirstOn parent (Stops t) s m k) {fuel : Nat}
    (hfuel : k < fuel) :
    ext2IsAncestor g.sb d stk fuel ((view g d).inode t) ((view g d).inode s) =
      some (decide (m ≠ ext2RootIno), (view g d).inode m) := by
  obtain ⟨res, dThat, hthat, hthatIno⟩ :=
    (h.self t ht).read (h.directory t ht) (by decide) stk stk.ancestorThat
  obtain ⟨res', dThis, hthis, hthisIno⟩ :=
    (h.self s hs).read (h.directory s hs) (by decide) stk stk.ancestorThis
  simp only [ext2IsAncestor, hthat, hthis, hthatIno]
  exact ancestorLoop_climb h stk hs hfirst hthisIno hfuel

/-- A climb comes to a node where the loop is left. -/
theorem DirTree.exists_stop (h : DirTree g d dirs parent) (t : Nat) {s : Nat} (hs : s ∈ dirs) :
    ∃ m k, FirstOn parent (Stops t) s m k := by
  obtain ⟨k, hk⟩ := h.climbs s hs
  exact exists_firstOn ⟨k, Or.inl hk⟩

/-- The test comes back for every two directories, and the inode it leaves is that of the
first node on the way up that is the root or the directory it looks for. -/
theorem ext2IsAncestor_terminates (h : DirTree g d dirs parent) (stk : Stack) {t s : Nat}
    (ht : t ∈ dirs) (hs : s ∈ dirs) :
    ∃ m k, FirstOn parent (Stops t) s m k ∧ ∀ fuel > k,
      ext2IsAncestor g.sb d stk fuel ((view g d).inode t) ((view g d).inode s) =
        some (decide (m ≠ ext2RootIno), (view g d).inode m) := by
  obtain ⟨m, k, hfirst⟩ := h.exists_stop t hs
  exact ⟨m, k, hfirst, fun fuel hfuel => ext2IsAncestor_climb h stk ht hs hfirst hfuel⟩

/-- The answer is right for every directory but the root. -/
theorem answer_iff (h : DirTree g d dirs parent) {t s m k : Nat}
    (hfirst : FirstOn parent (Stops t) s m k) :
    ((m ≠ ext2RootIno) ↔ Above parent t s) ↔ t ≠ ext2RootIno ∨ ¬ Above parent t s := by
  have habove : m = t → Above parent t s := fun heq => ⟨k, hfirst.climbs.trans heq⟩
  have hroot := h.root
  constructor
  · intro hright
    by_cases ht : t = ext2RootIno
    · refine Or.inr fun hab => hright.mpr hab ?_
      exact (hfirst.eq_of_above hroot hab).trans ht
    · exact Or.inl ht
  · intro hcond
    constructor
    · intro hm
      exact habove (hfirst.holds.resolve_left hm)
    · intro hab
      have hmt := hfirst.eq_of_above hroot hab
      rw [hmt]
      exact hcond.resolve_right fun hnot => hnot hab

/-- The test as it should be: it comes back, answers whether the first directory is on the
way from the second one up to and including the root, and leaves the inode as it was. -/
def AncestorTest (g : Geometry) (d : Disk) (parent : Nat → Nat) (stk : Stack) (t s : Nat) : Prop :=
  ∃ k ans, (∀ fuel > k,
      ext2IsAncestor g.sb d stk fuel ((view g d).inode t) ((view g d).inode s) =
        some (ans, (view g d).inode s)) ∧
    (ans = true ↔ Above parent t s)

/-- The test is right exactly when the directory it looks for is not the root and the climb
ends where it starts: at the root, or at the directory itself. -/
theorem ext2IsAncestor_iff (h : DirTree g d dirs parent) (stk : Stack) {t s : Nat}
    (ht : t ∈ dirs) (hs : s ∈ dirs) :
    AncestorTest g d parent stk t s ↔ t ≠ ext2RootIno ∧ (s = ext2RootIno ∨ s = t) := by
  obtain ⟨m, k, hfirst, hrun⟩ := ext2IsAncestor_terminates h stk ht hs
  have hrootAbove : Above parent ext2RootIno s := h.climbs s hs
  constructor
  · intro htest
    obtain ⟨k', ans, hsame, hans⟩ := htest
    have heq := (hrun (k + k' + 1) (by omega)).symm.trans (hsame (k + k' + 1) (by omega))
    simp only [Option.some.injEq, Prod.mk.injEq] at heq
    obtain ⟨rfl, hinode⟩ := heq
    have hmem : m ∈ dirs := by
      rw [← hfirst.climbs]
      exact h.iterate_mem hs k
    have hms := h.inode_inj hmem hs hinode
    subst hms
    rw [decide_eq_true_iff, answer_iff h hfirst] at hans
    refine ⟨fun heq => ?_, hfirst.holds⟩
    cases hans with
    | inl hne => exact hne heq
    | inr hnot =>
        rw [heq] at hnot
        exact hnot hrootAbove
  · intro hcond
    obtain ⟨hne, hstop⟩ := hcond
    have hzero := hfirst.zero_iff.mpr hstop
    have hms : s = m := by
      have hclimbs := hfirst.climbs
      rw [hzero] at hclimbs
      exact hclimbs
    refine ⟨k, decide (m ≠ ext2RootIno), fun fuel hfuel => ?_, ?_⟩
    · rw [hrun fuel hfuel, hms]
    · rw [decide_eq_true_iff, answer_iff h hfirst]
      exact Or.inl hne

end Tree

/-! ## A tree of three directories -/

/-- The records of the root, of its subdirectory 12, and of the subdirectory 13 of that. -/
def treeRecords (n : Nat) : List Rec :=
  if n = 2 then [⟨2, 12, 2, dot⟩, ⟨2, 12, 2, dotDot⟩, ⟨12, 1000, 2, [100]⟩]
  else if n = 12 then [⟨12, 12, 2, dot⟩, ⟨2, 12, 2, dotDot⟩, ⟨13, 1000, 2, [101]⟩]
  else [⟨13, 12, 2, dot⟩, ⟨12, 1012, 2, dotDot⟩]

/-- The block of each directory. -/
def treeBlock (n : Nat) : Nat := if n = 2 then 7 else if n = 12 then 8 else 9

/-- The parent of each directory. -/
def treeParent (n : Nat) : Nat := if n = 13 then 12 else 2

/-- The numbers of the directories. -/
def treeDirs : Set Nat := {2, 12, 13}

/-- An image with the three directories. -/
def treeView : View where
  blockUsed b := decide (b ≤ 9)
  inodeUsed ino := decide (ino ≤ 13 ∨ 16 < ino)
  inode ino := newInode 0x41FF blocksize [treeBlock ino]
  data b := layOut 0 (treeRecords (if b = 7 then 2 else if b = 8 then 12 else 13)) fun _ => 0

/-- The image on a device. -/
def treeDisk : Disk := format smallGroup treeView

theorem view_tree : view smallGroup treeDisk = treeView.trim smallGroup := view_format _ _

/-- A property of the three directories holds when each of them has it. -/
theorem forall_treeDirs {P : Nat → Prop} (h₂ : P 2) (h₁₂ : P 12) (h₁₃ : P 13) :
    ∀ n ∈ treeDirs, P n := by
  intro n hn
  simp only [treeDirs, Set.mem_insert_iff, Set.mem_singleton_iff] at hn
  rcases hn with rfl | rfl | rfl
  · exact h₂
  · exact h₁₂
  · exact h₁₃

theorem tiles_treeRecords : ∀ n ∈ treeDirs,
    Tiles (layOut 0 (treeRecords n) fun _ => 0) 0 (treeRecords n) 1024 := by
  have hsum : ∀ n ∈ treeDirs, 0 + ((treeRecords n).map Rec.recLen).sum = 1024 := by
    refine forall_treeDirs ?_ ?_ ?_ <;> decide
  have hlens : ∀ n ∈ treeDirs, ∀ r ∈ treeRecords n, r.ft ≠ 0 ∧ r.name ≠ [] ∧ 0 ∉ r.name ∧
      8 + padded r.name.length ≤ r.recLen ∧ r.ino < 2 ^ 32 ∧ r.recLen < 2 ^ 16 ∧
      r.ft < 2 ^ 8 ∧ r.name.length < 2 ^ 8 := by
    refine forall_treeDirs ?_ ?_ ?_ <;> decide
  intro n hn
  rw [← hsum n hn]
  apply tiles_layOut
  intro r hr
  obtain ⟨hft, hname, hnul, hroom, hbounds⟩ := hlens n hn r hr
  exact ⟨⟨hft, hname, hnul, hroom⟩, hbounds⟩

theorem directory_tree : ∀ n ∈ treeDirs, Directory smallGroup (view smallGroup treeDisk) n ∧
    (view smallGroup treeDisk).entries n = treeRecords n ∧
    iBlocks ((view smallGroup treeDisk).inode n) = 1 ∧
    Tiles ((view smallGroup treeDisk).dirBlock n 0) 0 (treeRecords n) 1024 := by
  have hvalid : ∀ n ∈ treeDirs, smallGroup.ValidIno n ∧ treeView.inodeUsed n = true := by
    refine forall_treeDirs ?_ ?_ ?_ <;> decide
  have hblock : ∀ n ∈ treeDirs, 7 ≤ treeBlock n ∧ treeBlock n ≤ bitmapBits ∧
      treeView.blockUsed (treeBlock n) = true ∧
      (if treeBlock n = 7 then 2 else if treeBlock n = 8 then 12 else 13) = n := by
    refine forall_treeDirs ?_ ?_ ?_ <;> decide
  intro n hn
  obtain ⟨hlo, hhi, hbused, hback⟩ := hblock n hn
  have hdata : treeView.data (treeBlock n) = layOut 0 (treeRecords n) fun _ => 0 := by
    simp only [treeView, hback]
  obtain ⟨hdir, hentries, hblocks, htiles⟩ := @directory_of_format smallGroup treeView n 0x41FF
    (treeBlock n) (treeRecords n) (hvalid n hn).1 (hvalid n hn).2 rfl (by decide) (by decide)
    (smallGroup_isData hlo hhi) hbused
    (by rw [hdata]; exact tiles_treeRecords n hn)
  have hrecs : (treeView.trim smallGroup).dirRecords n 0 = treeRecords n := by
    rw [← hentries, View.entries, hblocks]
    simp
  rw [hrecs] at htiles
  rw [view_tree]
  exact ⟨hdir, hentries, hblocks, htiles⟩

/-- The names in a directory of the tree. -/
theorem names_tree {n m : Nat} {fname : List UInt8} (hn : n ∈ treeDirs)
    (hname : ∃ r ∈ treeRecords n, r.name = fname)
    (hino : ∀ r ∈ treeRecords n, r.name = fname → r.ino = m) :
    Names (view smallGroup treeDisk) n fname m := by
  rw [← (directory_tree n hn).2.1] at hname hino
  exact ⟨hname, hino⟩

theorem dirTree_tree : DirTree smallGroup treeDisk treeDirs treeParent := by
  have hself : ∀ n ∈ treeDirs, (∃ r ∈ treeRecords n, r.name = dot) ∧
      ∀ r ∈ treeRecords n, r.name = dot → r.ino = n := by
    refine forall_treeDirs ?_ ?_ ?_ <;> decide
  have hup : ∀ n ∈ treeDirs, (∃ r ∈ treeRecords n, r.name = dotDot) ∧
      ∀ r ∈ treeRecords n, r.name = dotDot → r.ino = treeParent n := by
    refine forall_treeDirs ?_ ?_ ?_ <;> decide
  have hclosed : ∀ n ∈ treeDirs, treeParent n ∈ treeDirs := by
    refine forall_treeDirs ?_ ?_ ?_ <;> simp [treeParent, treeDirs]
  exact ⟨onDisk_format _ _, fun n hn => (directory_tree n hn).1,
    fun n hn => names_tree hn (hself n hn).1 (hself n hn).2,
    fun n hn => names_tree hn (hup n hn).1 (hup n hn).2,
    hclosed, rfl, forall_treeDirs ⟨0, rfl⟩ ⟨1, rfl⟩ ⟨2, rfl⟩⟩

/-- `ext2IsAncestor_iff` for the innermost directory and itself. -/
theorem ext2IsAncestor_iff_tree :
    AncestorTest smallGroup treeDisk treeParent default 13 13 :=
  (ext2IsAncestor_iff dirTree_tree default (t := 13) (s := 13) (by simp [treeDirs])
    (by simp [treeDirs])).mpr ⟨by decide, Or.inr rfl⟩

/-- The root is above its subdirectory, and the test denies it.  It affirms that the
subdirectory is above the innermost directory; in both cases the inode it was given
becomes that of another directory. -/
theorem ext2IsAncestor_wrong :
    (Above treeParent 2 12 ∧ (∀ fuel > 1, ext2IsAncestor smallGroup.sb treeDisk default fuel
        ((view smallGroup treeDisk).inode 2) ((view smallGroup treeDisk).inode 12) =
          some (false, (view smallGroup treeDisk).inode 2)) ∧
      (view smallGroup treeDisk).inode 2 ≠ (view smallGroup treeDisk).inode 12) ∧
    (Above treeParent 12 13 ∧ (∀ fuel > 1, ext2IsAncestor smallGroup.sb treeDisk default fuel
        ((view smallGroup treeDisk).inode 12) ((view smallGroup treeDisk).inode 13) =
          some (true, (view smallGroup treeDisk).inode 12)) ∧
      (view smallGroup treeDisk).inode 12 ≠ (view smallGroup treeDisk).inode 13) := by
  have htree := dirTree_tree
  have h₂ : 2 ∈ treeDirs := by simp [treeDirs]
  have h₁₂ : 12 ∈ treeDirs := by simp [treeDirs]
  have h₁₃ : 13 ∈ treeDirs := by simp [treeDirs]
  have hfirst : FirstOn treeParent (Stops 2) 12 2 1 :=
    ⟨rfl, Or.inl rfl, fun i hi => by
      obtain rfl : i = 0 := by omega
      decide⟩
  have hfirst' : FirstOn treeParent (Stops 12) 13 12 1 :=
    ⟨rfl, Or.inr rfl, fun i hi => by
      obtain rfl : i = 0 := by omega
      decide⟩
  refine ⟨⟨⟨1, rfl⟩, fun fuel hfuel => ?_, fun heq => ?_⟩,
    ⟨1, rfl⟩, fun fuel hfuel => ?_, fun heq => ?_⟩
  · exact ext2IsAncestor_climb htree default h₂ h₁₂ hfirst hfuel
  · exact absurd (htree.inode_inj h₂ h₁₂ heq) (by decide)
  · exact ext2IsAncestor_climb htree default h₁₂ h₁₃ hfirst' hfuel
  · exact absurd (htree.inode_inj h₁₂ h₁₃ heq) (by decide)

end Ext2
end NochOS
