import NochOS.Library.Transition
import NochOS.Ext2.Mkdir

/-!
# ext2 - no block has two owners

This module runs the inode operations one after the other: creations, `mkdir`,
writes and removals.  A state is the device together with the inodes that were known
so far: those a path led to at some time.  A removed file keeps its inode number and
its blocks, since a release marks them as used, so it stays sound like the others.

Main results:

- Definition `imageSystem`: the runs of the inode operations.
- Theorem `Inv.step`: every operation keeps the known inodes sound and apart.
- Theorem `blocks_exclusive`: no block is referenced twice in a reachable state.
-/

namespace NochOS
namespace Ext2

open Library

/-! ## What the operations touch -/

section Effects

variable {g : Geometry} {v v' : View} {ino n mode : Nat} {name : List UInt8}

/-- A creation works on the storage of the directory. -/
theorem Created.touches (hc : Created g v v' ino n mode name) (h : Directory g v ino) :
    Touches v v' ino := by
  have hle := h.le
  refine ⟨fun b hb => hc.used hb, fun m hm => hc.inodeUsed_of hm, fun m hm => ?_, fun m hm _ => ?_,
    fun b hb hforeign => ?_⟩
  · rw [hc.inode_other (hc.ne hm)]
  · exact hc.inode_other (hc.ne hm)
  · rcases hc.entry with
      ⟨-, -, k, hk, buf, recs, stop, as, cs, hdata, -⟩ | ⟨-, b', hb', buf, -, hdata⟩
    · rw [hdata]
      apply Function.update_of_ne
      rintro rfl
      exact hforeign (iBlock_mem_refs (by unfold directCount; omega))
    · rw [hdata]
      apply Function.update_of_ne
      rintro rfl
      rw [(mem_freeBlocks.mp hb').2] at hb
      exact absurd hb (by simp)

/-- The entries of the directory after a creation are the new one and the old ones. -/
theorem Created.entry_cases (hc : Created g v v' ino n mode name) (h : Directory g v ino) {r : Rec}
    (hr : r ∈ v'.entries ino) :
    (r.ino = n ∧ r.ft = imodeToFt mode) ∨
      ∃ r₀ ∈ v.entries ino, r₀.ino = r.ino ∧ r₀.ft = r.ft := by
  obtain ⟨-, ⟨-, as, cs, hold, hnew⟩ | ⟨-, hsame⟩⟩ := hc.directory h
  · have hkey : r.key ∈ (v'.entries ino).map Rec.key := List.mem_map_of_mem hr
    rw [hnew, List.mem_append, List.mem_cons] at hkey
    have hcases : r.key = (name, n, imodeToFt mode) ∨ r.key ∈ (v.entries ino).map Rec.key := by
      rw [hold, List.mem_append]
      tauto
    rcases hcases with heq | hmem
    · simp only [Rec.key, Prod.mk.injEq] at heq
      exact Or.inl heq.2
    · obtain ⟨r₀, hr₀, heq⟩ := List.mem_map.mp hmem
      simp only [Rec.key, Prod.mk.injEq] at heq
      exact Or.inr ⟨r₀, hr₀, heq.2⟩
  · rw [hsame] at hr
    exact Or.inr ⟨r, hr, rfl, rfl⟩

/-- The new inode references nothing. -/
theorem Created.newOwns (hc : Created g v v' ino n mode name) :
    Owns g v' n ∧ iMode (v'.inode n) = mode ∧ iBlocks (v'.inode n) = 0 := by
  obtain ⟨inode, hinode, hmode, -, hblocks⟩ := hc.newInode
  have hself : v'.inode n = inode := by
    rw [hinode]
    exact Function.update_self _ _ _
  have hused : v'.inodeUsed n = true := by
    rw [hc.inodeUsed]
    exact Function.update_self _ _ _
  have hempty : iBlocks (v'.inode n) = 0 := by rw [hself, hblocks]
  exact ⟨owns_of_empty hc.valid hused hempty, by rw [hself, hmode], hempty⟩

/-- A removal works on the storage of the directory. -/
theorem Removed.touches {r : Rec} (hr : Removed v v' ino r) (h : Directory g v ino) :
    Touches v v' ino ∧ v'.inode = v.inode := by
  have hle := h.le
  rcases hr with ⟨-, rfl⟩ | ⟨-, k, hk, buf, -, rfl⟩
  · exact ⟨⟨fun _ hb => hb, fun _ hn => hn, fun _ _ => rfl, fun _ _ _ => rfl,
      fun _ _ _ => rfl⟩, rfl⟩
  · refine ⟨⟨fun _ hb => hb, fun _ hn => hn, fun _ _ => rfl, fun _ _ _ => rfl,
      fun b _ hforeign => ?_⟩, rfl⟩
    apply Function.update_of_ne
    rintro rfl
    exact hforeign (iBlock_mem_refs (by unfold directCount; omega))

/-- The entries of the directory after a removal are old ones. -/
theorem Removed.entry_cases {r r' : Rec} (hr : Removed v v' ino r) (h : Directory g v ino)
    (hr' : r' ∈ v'.entries ino) : ∃ r₀ ∈ v.entries ino, r₀.ino = r'.ino ∧ r₀.ft = r'.ft := by
  obtain ⟨-, ⟨-, rfl⟩ | ⟨-, as, cs, hold, hnew⟩⟩ := hr.directory h
  · exact ⟨r', hr', rfl, rfl⟩
  · have hkey : r'.key ∈ (v'.entries ino).map Rec.key := List.mem_map_of_mem hr'
    have hmem : r'.key ∈ (v.entries ino).map Rec.key := by
      rw [hnew, List.mem_append] at hkey
      rw [hold, List.mem_append, List.mem_cons]
      tauto
    obtain ⟨r₀, hr₀, heq⟩ := List.mem_map.mp hmem
    simp only [Rec.key, Prod.mk.injEq] at heq
    exact ⟨r₀, hr₀, heq.2⟩

/-- A write works on the storage of its file. -/
theorem Rewrite.touches {fsize : Nat} {bs : List Nat} (hw : Rewrite v v' ino fsize bs)
    (hmeta : MetaUsed g v) (hown : Owns g v ino) (hsize : fsize ≤ 12 * blocksize) :
    Touches v v' ino := by
  refine ⟨fun b hb => hw.used hb, fun m hm => by rw [hw.inodeUsed]; exact hm, fun m _ => ?_,
    fun m _ hne => hw.inode_other hne, fun b hb hforeign => ?_⟩
  · by_cases hm : m = ino
    · rw [hm, (hw.fields hsize).2.2]
    · rw [hw.inode_other hm]
  · apply hw.keep_foreign hmeta hown hsize hb
    rintro k hk rfl
    exact hforeign (iBlock_mem_refs hk)

/-- The blocks of a file after a write were its own or unused. -/
theorem Rewrite.refs {fsize : Nat} {bs : List Nat} (hw : Rewrite v v' ino fsize bs)
    (hmeta : MetaUsed g v) (hown : Owns g v ino) (hsize : fsize ≤ 12 * blocksize) :
    iBlocks (v'.inode ino) ≤ 12 ∧
      ∀ b ∈ v'.refs ino, b ∈ v.refs ino ∨ v.blockUsed b = false := by
  have hblocks := (hw.fields hsize).2.1
  have hle : iBlocks (v'.inode ino) ≤ 12 := by
    rw [hblocks]
    exact blocksFor_le hsize
  refine ⟨hle, fun b hb => ?_⟩
  rw [refs_of_le hle, hblocks] at hb
  obtain ⟨k, hk, rfl⟩ := List.mem_map.mp hb
  rcases hw.slot_cases hmeta hown hsize (List.mem_range.mp hk) with ⟨hlt, heq⟩ | hmem
  · rw [heq]
    exact Or.inl (iBlock_mem_refs hlt)
  · exact Or.inr (mem_freeBlocks.mp (hw.fresh.free _ hmem)).2

/-- Making a directory works on the storage of the new inode. -/
theorem Populated.touches (hp : Populated v v' ino n) (hmode : iMode (v.inode n) = 0x41FF) :
    Touches v v' n := by
  obtain ⟨b, hb, inode, buf, rfl, hmode', -, -, -, -⟩ := hp
  have hfree := (mem_freeBlocks.mp hb).2
  have hne : ∀ c, v.blockUsed c = true → c ≠ b := by
    rintro c hc rfl
    rw [hfree] at hc
    exact absurd hc (by simp)
  refine ⟨fun c hc => ?_, fun _ hm => hm, fun m _ => ?_, fun m _ hm => ?_, fun c hc _ => ?_⟩
  · exact (Function.update_of_ne (hne c hc) _ _).trans hc
  · by_cases hm : m = n
    · rw [hm, hmode]
      simp only [Function.update_self, hmode']
    · simp only [Function.update_of_ne hm]
  · exact Function.update_of_ne hm _ _
  · exact Function.update_of_ne (hne c hc) _ _

/-- The new directory is well-formed, in a block that was unused. -/
theorem Populated.directory (hp : Populated v v' ino n) (hmeta : MetaUsed g v)
    (hvalid : g.ValidIno n) (hused : v.inodeUsed n = true) :
    Directory g v' n ∧ iBlocks (v'.inode n) = 1 ∧
      (∀ b ∈ v'.refs n, v.blockUsed b = false) ∧
      v'.entries n = [⟨n, 12, ext2FtDir, dot⟩, ⟨ino, 12, ext2FtDir, dotDot⟩] := by
  obtain ⟨b, hb, inode, buf, hv', hmode, hblocks, hslot, htiles, htail⟩ := hp
  have hself : v'.inode n = inode := by
    rw [hv']
    exact Function.update_self _ _ _
  have hbuf : v'.dirBlock n 0 = buf := by
    rw [View.dirBlock, hself, hslot, hv']
    exact Function.update_self _ _ _
  have hrecs : v'.dirRecords n 0 = [⟨n, 12, ext2FtDir, dot⟩, ⟨ino, 12, ext2FtDir, dotDot⟩] := by
    rw [View.dirRecords, hbuf]
    exact htiles.records_eq (Or.inr htail)
  have hone : ∀ k < directCount (v'.inode n), k = 0 := by
    intro k hk
    rw [directCount, hself, hblocks] at hk
    omega
  have hbused : v'.blockUsed b = true := by
    rw [hv']
    exact Function.update_self _ _ _
  have hown : Owns g v' n := by
    refine ⟨hvalid, by rw [hv']; exact hused, fun k hk => ?_, fun i hi j hj _ => ?_⟩
    · rw [hone k hk, hself, hslot]
      exact ⟨isData_of_free hmeta hb, hbused⟩
    · rw [hone i hi, hone j hj]
  refine ⟨⟨hown, ?_, ?_, ?_, fun k hk => ?_⟩, by rw [hself, hblocks], ?_, ?_⟩
  · rw [hself, hmode]
    decide
  · rw [hself, hblocks]
  · rw [hself, hblocks]
    decide
  · rw [hself, hblocks] at hk
    obtain rfl : k = 0 := by omega
    refine ⟨24, ?_, Or.inr ⟨?_, ?_⟩⟩
    · rw [hbuf, hrecs]
      exact htiles
    · rw [hself, hblocks]
    · rw [hbuf]
      exact htail
  · rw [refs_of_le (by rw [hself, hblocks]; decide), hself, hblocks]
    simpa [hslot] using (mem_freeBlocks.mp hb).2
  · rw [View.entries, hself, hblocks]
    simpa using hrecs

end Effects

/-! ## Runs -/

/-- The device, and the inodes known so far. -/
structure Image where
  disk : Disk
  known : Set Nat

/-- The state after an operation: whatever can be reached now is known. -/
def Image.after (g : Geometry) (s : Image) (d' : Disk) : Image :=
  ⟨d', {n | Reach (view g d') s.known n}⟩

/-- The inodes of files and directories: a path from the root leads to them. -/
def Live (v : View) (n : Nat) : Prop := Reach v {ext2RootIno} n

/-- A well-formed image: metadata blocks and the numbers behind the inode table are
marked as used, the root is a directory, live inodes are sound and share no block, and
entries of type directory lead to directories. -/
structure WellFormed (g : Geometry) (d : Disk) : Prop where
  onDisk : OnDisk g d
  root : (view g d).IsDir ext2RootIno
  holds : Holds g (view g d) {n | Live (view g d) n}
  types : ∀ n, Live (view g d) n → (view g d).IsDir n → ∀ r ∈ (view g d).entries n,
    r.ft = ext2FtDir → (view g d).IsDir r.ino

/-- The operations that return, on known inodes. -/
inductive ImageStep (g : Geometry) (s : Image) : Image → Prop
  | create {ino mode : Nat} {stk : Stack} {dentry dentry' : Dentry} {ret : Int} {d' : Disk}
      (hino : ino ∈ s.known) (hdir : (view g s.disk).IsDir ino) (hname : NewName dentry.filename)
      (hnew : ∀ r ∈ (view g s.disk).entries ino, r.name ≠ dentry.filename)
      (hmode : mode < 2 ^ 16) (hft : imodeToFt mode ≠ 0) (hfile : mode &&& ext2SIfdir = 0)
      (hrun : icreate g.sb s.disk stk ino dentry mode = some (ret, dentry', d')) :
      ImageStep g s (s.after g d')
  | mkdir {ino : Nat} {stk : Stack} {dirname : List UInt8} {ret : Int} {d' : Disk}
      (hino : ino ∈ s.known) (hdir : (view g s.disk).IsDir ino) (hname : NewName dirname)
      (hnew : ∀ r ∈ (view g s.disk).entries ino, r.name ≠ dirname) (hzero : UnusedRest stk)
      (hrun : imkdir g.sb s.disk stk ino dirname = some (ret, d')) : ImageStep g s (s.after g d')
  | write {self self' : File} {stack buf : Buf} {nbytes : Nat} {d' : Disk}
      (hino : self.iIno ∈ s.known) (hfile : ¬ (view g s.disk).IsDir self.iIno)
      (hsize : self.fPos + nbytes ≤ 12 * blocksize)
      (hrun : fileFwrite g.sb s.disk self stack buf nbytes = some (d', self')) :
      ImageStep g s (s.after g d')
  | remove {ino fuel : Nat} {stk : Stack} {fname : List UInt8} {ret : Int} {d' : Disk}
      (hino : ino ∈ s.known) (hdir : (view g s.disk).IsDir ino) (hname : 0 ∉ fname)
      (hrun : iremove g.sb s.disk stk fuel ino fname = some (ret, d')) :
      ImageStep g s (s.after g d')

/-- The runs that start from a well-formed image, where the live inodes are known. -/
def imageSystem (g : Geometry) : TransitionSystem Image where
  init s := WellFormed g s.disk ∧ s.known = {n | Live (view g s.disk) n}
  step s s' := ImageStep g s s'

/-! ## The invariant -/

/-- The known inodes are sound, share no block and are closed under entries. -/
structure Inv (g : Geometry) (s : Image) : Prop where
  onDisk : OnDisk g s.disk
  root : ext2RootIno ∈ s.known
  holds : Holds g (view g s.disk) s.known
  closed : Closed (view g s.disk) s.known s.known

section Invariant

variable {g : Geometry} {s : Image}

/-- The invariant after an operation follows from facts about any closed set around
the inodes known before. -/
theorem Inv.after (hi : Inv g s) {d' : Disk} {T : Set Nat} (hd' : OnDisk g d')
    (hsub : s.known ⊆ T) (hholds : Holds g (view g d') T) (hclosed : Closed (view g d') T T) :
    Inv g (s.after g d') := by
  have hmem : ∀ n ∈ (s.after g d').known, n ∈ T := fun n hn => Reach.mem hn hsub hclosed
  refine ⟨hd', Reach.root hi.root, ⟨hholds.metaUsed, hholds.padUsed, fun n hn =>
    hholds.sound n (hmem n hn), fun m hm n hn => hholds.apart m (hmem m hm) n (hmem n hn)⟩,
    fun n hn hdir r hr => ⟨Reach.entry hn hdir hr, ?_⟩⟩
  exact (hclosed n (hmem n hn) hdir r hr).2

/-- The known inodes are apart from each other. -/
theorem Inv.sep (hi : Inv g s) {t : Nat} (ht : t ∈ s.known) :
    ∀ n ∈ s.known, n ≠ t →
      ((view g s.disk).refs n).Disjoint ((view g s.disk).refs t) := fun n hn hne =>
  hi.holds.apart n hn t ht hne

theorem Inv.used (hi : Inv g s) : ∀ n ∈ s.known, (view g s.disk).inodeUsed n = true := fun n hn =>
  (hi.holds.sound n hn).used

/-- The invariant after an operation on the storage of a known inode. -/
theorem Inv.touch (hi : Inv g s) {d' : Disk} {t : Nat} (ht : t ∈ s.known) (hd' : OnDisk g d')
    (htouch : Touches (view g s.disk) (view g d') t) (hsound : Sound g (view g d') t)
    (hrefs : ∀ b ∈ (view g d').refs t,
      b ∈ (view g s.disk).refs t ∨ (view g s.disk).blockUsed b = false)
    (hentries : (view g d').IsDir t → ∀ r ∈ (view g d').entries t,
      ∃ r₀ ∈ (view g s.disk).entries t, r₀.ino = r.ino ∧ r₀.ft = r.ft) :
    Inv g (s.after g d') := by
  have hholds := hi.holds.touch htouch (hi.sep ht) hsound hrefs
  have hclosed := hi.closed.touch hi.holds htouch (hi.sep ht) hi.used subset_rfl
    fun hdir r hr => by
      obtain ⟨r₀, hr₀, hino, hft⟩ := hentries hdir r hr
      have hused := (hi.holds.sound t ht).used
      obtain ⟨hmem, htype⟩ := hi.closed t ht ((htouch.isDir_iff hused).mp hdir) r₀ hr₀
      rw [hino] at hmem htype
      rw [hft] at htype
      exact ⟨hmem, fun hr => (htouch.isDir_iff (hi.used _ hmem)).mpr (htype hr)⟩
  rw [Set.insert_eq_of_mem ht] at hholds hclosed
  exact hi.after hd' subset_rfl hholds hclosed

/-- A mode with the file type of a directory is the mode of a directory. -/
theorem isDir_of_ft {mode : Nat} (hft : imodeToFt mode = ext2FtDir) :
    mode &&& ext2SIfdir ≠ 0 := by
  intro hzero
  have hfour : mode % 2 ^ 16 / 2 ^ 12 = 4 := by
    unfold imodeToFt ext2FtDir at hft
    split at hft <;> first | assumption | omega
  have hbit := congrArg (fun m => Nat.testBit m 14) hzero
  simp only [Nat.testBit_and, ext2SIfdir, Nat.zero_testBit] at hbit
  have hmask : Nat.testBit 0x4000 14 = true := by decide
  rw [hmask, Bool.and_true, Nat.testBit_eq_decide_div_mod_eq, decide_eq_false_iff_not] at hbit
  omega

/-- After a creation in a known directory the known inodes hold together, and their
entries lead to them or to the new inode. -/
theorem Inv.created (hi : Inv g s) {v' : View} {ino n mode : Nat} {name : List UInt8}
    (hino : ino ∈ s.known) (hdir : (view g s.disk).IsDir ino)
    (hc : Created g (view g s.disk) v' ino n mode name) :
    Holds g v' s.known ∧ Closed v' s.known (insert n s.known) ∧ v'.refs n = [] ∧
      ∀ m ∈ s.known, v'.refs m = (view g s.disk).refs m := by
  obtain ⟨h, hle⟩ := (hi.holds.sound ino hino).dir hdir
  have htouch := hc.touches h
  have hinode := hc.inode_other (hc.ne h.owns.used)
  have hdirectory := (hc.directory h).1
  have hsound : Sound g v' ino :=
    hdirectory.owns.sound hdirectory.le fun _ => ⟨hdirectory, by rw [hinode]; exact hle⟩
  have hrefs : v'.refs ino = (view g s.disk).refs ino := by
    rw [refs_of_le hdirectory.le, refs_of_le h.le, hinode]
  have hholds := hi.holds.touch htouch (hi.sep hino) hsound fun b hb => Or.inl (hrefs ▸ hb)
  obtain ⟨hown, hnewMode, hnewBlocks⟩ := hc.newOwns
  have hclosed := hi.closed.touch hi.holds htouch (hi.sep hino) hi.used (Set.subset_insert n _)
    fun _ r hr => by
      rcases hc.entry_cases h hr with ⟨rfl, hft⟩ | ⟨r₀, hr₀, hino₀, hft⟩
      · refine ⟨Set.mem_insert _ _, fun htype => ?_⟩
        rw [View.IsDir, hnewMode]
        exact isDir_of_ft (hft.symm.trans htype)
      · obtain ⟨hmem, htype⟩ := hi.closed ino hino hdir r₀ hr₀
        rw [hino₀] at hmem htype
        rw [hft] at htype
        exact ⟨Set.mem_insert_of_mem n hmem,
          fun hr => (htouch.isDir_iff (hi.used _ hmem)).mpr (htype hr)⟩
  rw [Set.insert_eq_of_mem hino] at hholds hclosed
  refine ⟨hholds, hclosed, ?_, fun m hm => ?_⟩
  · rw [refs_of_le (by omega), hnewBlocks]
    rfl
  · by_cases hne : m = ino
    · rw [hne, hrefs]
    · exact htouch.refs (hi.holds.sound m hm) hne (hi.sep hino m hm hne)

/-- After the creation of a file the known inodes and the new one hold together. -/
theorem Inv.create (hi : Inv g s) {v' : View} {ino n mode : Nat} {name : List UInt8}
    (hino : ino ∈ s.known) (hdir : (view g s.disk).IsDir ino) (hfile : mode &&& ext2SIfdir = 0)
    (hc : Created g (view g s.disk) v' ino n mode name) :
    Holds g v' (insert n s.known) ∧ Closed v' (insert n s.known) (insert n s.known) := by
  obtain ⟨hholds, hclosed, hrefs, -⟩ := hi.created hino hdir hc
  obtain ⟨hown, hmode, hblocks⟩ := hc.newOwns
  have hnot : ¬ v'.IsDir n := by
    rw [View.IsDir, hmode, hfile]
    simp
  have hsound : Sound g v' n := hown.sound (by omega) fun hdir => absurd hdir hnot
  refine ⟨hholds.touch (Touches.refl _ n)
      (fun m _ _ => by rw [hrefs]; exact List.disjoint_nil_right _)
      hsound fun b hb => Or.inl hb, fun m hm hdir r hr => ?_⟩
  rcases hm with rfl | hm
  · exact absurd hdir hnot
  · exact hclosed m hm hdir r hr

/-- After the creation of a directory the known inodes and the new one hold together. -/
theorem Inv.mkdir (hi : Inv g s) {v₁ v' : View} {ino n : Nat} {name : List UInt8}
    (hino : ino ∈ s.known) (hdir : (view g s.disk).IsDir ino)
    (hc : Created g (view g s.disk) v₁ ino n 0x41FF name) (hp : Populated v₁ v' ino n) :
    Holds g v' (insert n s.known) ∧ Closed v' (insert n s.known) (insert n s.known) := by
  obtain ⟨hholds, hclosed, hrefs, -⟩ := hi.created hino hdir hc
  obtain ⟨hown, hmode, -⟩ := hc.newOwns
  have htouch := hp.touches hmode
  obtain ⟨hdirectory, hblocks, hfresh, hentries⟩ :=
    hp.directory hholds.metaUsed hown.valid hown.used
  have hsep : ∀ m ∈ s.known, m ≠ n → (v₁.refs m).Disjoint (v₁.refs n) := fun m _ _ => by
    rw [hrefs]
    exact List.disjoint_nil_right _
  have hsound : Sound g v' n :=
    hdirectory.owns.sound hdirectory.le fun _ => ⟨hdirectory, by omega⟩
  have hused : ∀ m ∈ insert n s.known, v₁.inodeUsed m = true := by
    rintro m (rfl | hm)
    · exact hown.used
    · exact (hholds.sound m hm).used
  have hdir' : v'.IsDir ino :=
    (htouch.isDir_iff (hholds.sound ino hino).used).mpr
      (((hc.touches ((hi.holds.sound ino hino).dir hdir).1).isDir_iff (hi.used ino hino)).mpr hdir)
  refine ⟨hholds.touch htouch hsep hsound fun b hb => Or.inr (hfresh b hb),
    hclosed.touch hholds htouch hsep hused subset_rfl fun hnew r hr => ?_⟩
  -- the entries of the new directory are itself and its parent
  rw [hentries] at hr
  simp only [List.mem_cons, List.not_mem_nil, or_false] at hr
  rcases hr with rfl | rfl
  · exact ⟨Set.mem_insert _ _, fun _ => hnew⟩
  · exact ⟨Set.mem_insert_of_mem n hino, fun _ => hdir'⟩

/-- Every operation keeps the invariant. -/
theorem Inv.step (hi : Inv g s) {s' : Image} (hstep : ImageStep g s s') : Inv g s' := by
  have hmeta := hi.holds.metaUsed
  have hpad := hi.holds.padUsed
  cases hstep with
  | create hino hdir hname hnew hmode hft hfile hrun =>
      obtain ⟨h, hle⟩ := (hi.holds.sound _ hino).dir hdir
      obtain ⟨-, hd', -, hc⟩ :=
        icreate_spec hi.onDisk hmeta hpad h (fun _ => hle) hname hmode hft hnew hrun
      obtain ⟨hholds, hclosed⟩ := hi.create hino hdir hfile hc
      exact hi.after hd' (Set.subset_insert _ _) hholds hclosed
  | mkdir hino hdir hname hnew hzero hrun =>
      obtain ⟨h, hle⟩ := (hi.holds.sound _ hino).dir hdir
      obtain ⟨-, hd', n, v₁, hc, hp⟩ :=
        imkdir_spec hi.onDisk hmeta hpad h (fun _ => hle) hname hnew hzero hrun
      obtain ⟨hholds, hclosed⟩ := hi.mkdir hino hdir hc hp
      exact hi.after hd' (Set.subset_insert _ _) hholds hclosed
  | write hino hfile hsize hrun =>
      have hown := (hi.holds.sound _ hino).owns
      obtain ⟨hd', -, ⟨bs, hw⟩, -⟩ := fileFwrite_spec hi.onDisk hmeta hown hsize hrun
      have htouch := hw.touches hmeta hown hsize
      have hfile' := mt (htouch.isDir_iff hown.used).mp hfile
      obtain ⟨hle, hrefs⟩ := hw.refs hmeta hown hsize
      exact hi.touch hino hd' htouch
        ((hw.owns hmeta hown hsize).sound hle fun hdir => absurd hdir hfile') hrefs
        fun hdir => absurd hdir hfile'
  | @remove ino fuel stk fname ret d' hino hdir hname hrun =>
      obtain ⟨h, hle⟩ := (hi.holds.sound _ hino).dir hdir
      have hfile : ∀ r ∈ (view g s.disk).entries ino, r.name = fname →
          Owns g (view g s.disk) r.ino ∧
            (r.ft = ext2FtDir → 1 ≤ iBlocks ((view g s.disk).inode r.ino)) := by
        intro r hr _
        obtain ⟨hmem, htype⟩ := hi.closed ino hino hdir r hr
        have hsound := hi.holds.sound r.ino hmem
        exact ⟨hsound.owns, fun hft => (hsound.dir (htype hft)).1.pos⟩
      rcases iremove_cases hi.onDisk h hname hfile hrun with
        ⟨-, rfl⟩ | ⟨-, hd', r, -, -, hremoved⟩
      · exact hi.after hi.onDisk subset_rfl hi.holds hi.closed
      · obtain ⟨htouch, hinode⟩ := hremoved.touches h
        have hdirectory := (hremoved.directory h).1
        have hrefs : (view g d').refs ino = (view g s.disk).refs ino := by
          rw [refs_of_le hdirectory.le, refs_of_le h.le, hinode]
        exact hi.touch hino hd' htouch
          (hdirectory.owns.sound hdirectory.le fun _ => ⟨hdirectory, by rw [hinode]; exact hle⟩)
          (fun b hb => Or.inl (hrefs ▸ hb)) fun _ r' hr' => hremoved.entry_cases h hr'

/-- A well-formed image satisfies the invariant. -/
theorem WellFormed.inv {d : Disk} (h : WellFormed g d) :
    Inv g ⟨d, {n | Live (view g d) n}⟩ :=
  ⟨h.onDisk, Reach.root rfl, h.holds, fun n hn hdir r hr =>
    ⟨Reach.entry hn hdir hr, h.types n hn hdir r hr⟩⟩

/-- The invariant holds in every run. -/
theorem isInvariant (g : Geometry) : (imageSystem g).IsInvariant (Inv g) where
  init := by
    rintro ⟨d, known⟩ ⟨hwell, hknown⟩
    obtain rfl : known = {n | Live (view g d) n} := hknown
    exact hwell.inv
  step _ _ hi hstep := hi.step hstep

end Invariant

/-! ## Exclusive blocks -/

/-- No block is referenced by two inodes of the set or twice by one of them; the
referenced blocks are marked as used, and none is a metadata block. -/
structure Exclusive (g : Geometry) (v : View) (S : Set Nat) : Prop where
  apart : ∀ m ∈ S, ∀ n ∈ S, m ≠ n → (v.refs m).Disjoint (v.refs n)
  nodup : ∀ n ∈ S, (v.refs n).Nodup
  data : ∀ n ∈ S, ∀ b ∈ v.refs n, ¬ g.Meta b
  used : ∀ n ∈ S, ∀ b ∈ v.refs n, v.blockUsed b = true

/-- In every state that operations reach from a well-formed image, the live inodes are
known and the known inodes have their blocks for themselves. -/
theorem blocks_exclusive {g : Geometry} {s : Image} (hs : (imageSystem g).Reachable s) :
    (∀ n, Live (view g s.disk) n → n ∈ s.known) ∧ Exclusive g (view g s.disk) s.known := by
  have hi := (isInvariant g).of_reachable hs
  refine ⟨fun n hn => Reach.mem hn (Set.singleton_subset_iff.mpr hi.root) hi.closed,
    hi.holds.apart, fun n hn => (hi.holds.sound n hn).nodup, fun n hn b hb => ?_,
    fun n hn b hb => ?_⟩
  · exact ((hi.holds.sound n hn).data b hb).1.2
  · exact ((hi.holds.sound n hn).data b hb).2

/-! ## A run -/

section Sample

variable {g : Geometry} {d : Disk} {n : Nat}

/-- A root that leads to itself and to the inode 12 of a file. -/
structure RootWithFile (g : Geometry) (d : Disk) : Prop where
  onDisk : OnDisk g d
  metaUsed : MetaUsed g (view g d)
  padUsed : PadUsed g (view g d)
  dir : Directory g (view g d) ext2RootIno
  le : iBlocks ((view g d).inode ext2RootIno) ≤ 11
  entries : ∀ r ∈ (view g d).entries ext2RootIno,
    r.ino = ext2RootIno ∨ (r.ino = 12 ∧ r.ft ≠ ext2FtDir)
  owns : Owns g (view g d) 12
  mode : iMode ((view g d).inode 12) = 0x81FF
  empty : iBlocks ((view g d).inode 12) = 0

theorem RootWithFile.file (h : RootWithFile g d) :
    ¬ (view g d).IsDir 12 ∧ (view g d).refs 12 = [] := by
  constructor
  · rw [View.IsDir, h.mode]
    decide
  · have hempty := h.empty
    rw [refs_of_le (by omega), hempty]
    rfl

/-- The root and the file are the live inodes. -/
theorem RootWithFile.live (h : RootWithFile g d) (hn : Live (view g d) n) :
    n = ext2RootIno ∨ n = 12 := by
  induction hn with
  | root hn => exact Or.inl hn
  | entry _ hdir hr ih =>
      rcases ih with rfl | rfl
      · exact (h.entries _ hr).imp id And.left
      · exact absurd hdir h.file.1

theorem RootWithFile.wellFormed (h : RootWithFile g d) : WellFormed g d := by
  obtain ⟨hfile, hrefs⟩ := h.file
  have hempty := h.empty
  refine ⟨h.onDisk, h.dir.isDir, ⟨h.metaUsed, h.padUsed, fun n hn => ?_, fun m hm n hn hmn => ?_⟩,
    fun n hn hndir r hr hft => ?_⟩
  · rcases h.live hn with rfl | rfl
    · exact h.dir.owns.sound h.dir.le fun _ => ⟨h.dir, h.le⟩
    · exact h.owns.sound (by omega) fun hndir => absurd hndir hfile
  · rcases h.live hm with rfl | rfl
    · rcases h.live hn with rfl | rfl
      · exact absurd rfl hmn
      · rw [hrefs]
        exact List.disjoint_nil_right _
    · rw [hrefs]
      exact List.disjoint_nil_left _
  · rcases h.live hn with rfl | rfl
    · rcases h.entries r hr with hroot | ⟨-, hne⟩
      · rw [hroot]
        exact h.dir.isDir
      · exact absurd hft hne
    · exact absurd hndir hfile

end Sample

/-- The image with two directory blocks has such a root. -/
theorem rootWithFile_sparseRoot : RootWithFile smallGroup sparseRootDisk := by
  obtain ⟨hdir, hentries, hblocks⟩ := directory_sparseRoot
  have hinos : ∀ r ∈ sparseRecords 0 ++ sparseRecords 1,
      r.ino = ext2RootIno ∨ (r.ino = 12 ∧ r.ft ≠ ext2FtDir) := by decide
  refine ⟨onDisk_sparseRoot, metaUsed_sparseRoot, padUsed_sparseRoot, hdir, ?_, ?_, owns_sparseRoot,
    inode_sparseRoot.1, inode_sparseRoot.2⟩
  · rw [ext2RootIno, hblocks]
    decide
  · rw [ext2RootIno, hentries]
    exact hinos

/-- `blocks_exclusive` after a creation. -/
theorem blocks_exclusive_sparseRoot :
    ∃ dentry' d', icreate smallGroup.sb sparseRootDisk default 2 ⟨[103], 0, 0, 0, 0⟩ 0x81FF =
        some (0, dentry', d') ∧
      ∃ known, Exclusive smallGroup (view smallGroup d') known ∧
        ∀ n, Live (view smallGroup d') n → n ∈ known := by
  obtain ⟨hdir, hentries, hblocks⟩ := directory_sparseRoot
  have hname : NewName [103] := ⟨by decide, by decide, by decide⟩
  have hnew : ∀ r ∈ (view smallGroup sparseRootDisk).entries 2, r.name ≠ [103] := by
    rw [hentries]
    decide
  have hsome : (icreate smallGroup.sb sparseRootDisk default 2 ⟨[103], 0, 0, 0, 0⟩
      0x81FF).isSome := by
    apply icreate_isSome onDisk_sparseRoot hdir (by omega) hname 0x81FF hnew
    · exact ⟨13, by decide, by decide, by rw [view_sparseRoot]; decide⟩
    · exact ⟨9, mem_freeBlocks.mpr ⟨by decide, by rw [view_sparseRoot]; decide⟩⟩
  obtain ⟨⟨ret, dentry', d'⟩, hrun⟩ := Option.isSome_iff_exists.mp hsome
  obtain ⟨rfl, -⟩ := icreate_spec onDisk_sparseRoot metaUsed_sparseRoot padUsed_sparseRoot hdir
    (fun _ => by omega) hname (by decide) (by decide) hnew hrun
  have hstart : (imageSystem smallGroup).Reachable
      ⟨sparseRootDisk, {n | Live (view smallGroup sparseRootDisk) n}⟩ :=
    TransitionSystem.Reachable.init ⟨rootWithFile_sparseRoot.wellFormed, rfl⟩
  have hreach := hstart.step (@ImageStep.create smallGroup _ 2 0x81FF default
    ⟨[103], 0, 0, 0, 0⟩ dentry' 0 d' (Reach.root rfl) hdir.isDir hname hnew (by decide) (by decide)
    (by decide) hrun)
  obtain ⟨hlive, hexclusive⟩ := blocks_exclusive hreach
  exact ⟨dentry', d', hrun, _, hexclusive, hlive⟩

end Ext2
end NochOS
