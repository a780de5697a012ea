import NochOS.Vfs.ParsePath
import NochOS.Ext2.Exclusive
import NochOS.Ext2.Append

/-!
# VFS - a regular file in a tree

This module embeds `file_fopen`, `file_getkey` and `file_setkey` of `ext2.c`, and puts
path names and file contents together.  A write to a regular file changes neither the
directories nor the key in the inode, so the path of the file goes on leading to it.

Main results:

- Structure `TreeFile`: a regular file whose blocks are its own, in a tree.
- Theorem `TreeFile.fopen`: opening the path of the file.
- Theorems `TreeFile.fwrite`, `TreeFile.fread`, `TreeFile.setkey`: the operations on it.
-/

namespace NochOS
namespace Vfs

open Library Ext2

/-! ## Opening a path, and the key -/

/-- `file_fopen`: the open file, if the path leads to an object. -/
def fileFopen (sb : Super) (d : Disk) (sc : Scratch) (vfs : Globals) (fname : List UInt8) :
    Option (Option File) :=
  match parsePath sb d sc vfs fname (.node sc.dTmp .sRoot) (.node sc.dTmp .sRoot) with
  | none => none
  | some r =>
      if r.retval ≠ 0 then some none
      else
        let dent := r.node.dentry vfs.sRoot
        some (some ⟨dent.iMode, dent.iIno, dent.iSize, 0⟩)

/-- The offset of `aes_key` in an inode. -/
def aesKeyOff : Nat := 8

/-- `file_getkey`: `key` afterwards. -/
def fileGetkey (sb : Super) (d : Disk) (self : File) (inode key : Buf) : Buf :=
  memcpy key 0 (ext2ReadInode sb d self.iIno inode).2 aesKeyOff 16

/-- `file_setkey`: the device afterwards. -/
def fileSetkey (sb : Super) (d : Disk) (self : File) (inode key : Buf) : Disk :=
  (ext2WriteInode sb d self.iIno
    (memcpy (ext2ReadInode sb d self.iIno inode).2 aesKeyOff key 0 16)).2

/-! ## Trees under writes to files -/

section Touch

variable {Obj : Type*} {g : Geometry} {v v' : View} {T : Tree (List UInt8) Obj} {ino : Obj → Nat}
  {t : Nat}

/-- Work on the storage of an inode that is no directory leaves each object of the tree
as it is. -/
theorem Mounts.touch_cases (hM : Mounts g v T ino) (ht : Touches v v' t) (hdir : ¬ v.IsDir t)
    (hapart : ∀ p, v.IsDir (ino p) → (v.refs (ino p)).Disjoint (v.refs t)) (p : Obj) :
    (Directory g v (ino p) ∧ Directory g v' (ino p) ∧ v'.refs (ino p) = v.refs (ino p) ∧
        v'.entries (ino p) = v.entries (ino p)) ∨
      (Plain g v (ino p) ∧ Plain g v' (ino p)) := by
  rcases hM.kind p with h | h
  · left
    have hne : ino p ≠ t := by
      rintro heq
      rw [← heq] at hdir
      exact hdir h.isDir
    have hinode := ht.others _ h.owns.used hne
    have hkeep : ∀ j < iBlocks (v.inode (ino p)),
        v'.data (iBlock (v.inode (ino p)) j) = v.data (iBlock (v.inode (ino p)) j) := by
      intro j hj
      have hle := h.le
      have hdirect : j < directCount (v.inode (ino p)) := by
        unfold directCount
        omega
      exact ht.data _ (h.owns.data j hdirect).2 (hapart p h.isDir (iBlock_mem_refs hdirect))
    obtain ⟨hdir', hentries⟩ := h.frame hinode (ht.inodes _ h.owns.used) ht.blocks hkeep
    refine ⟨h, hdir', ?_, hentries⟩
    rw [refs_of_le hdir'.le, refs_of_le h.le, hinode]
  · right
    refine ⟨h, h.valid, ht.inodes _ h.used, ?_⟩
    rw [ht.mode _ h.used]
    exact h.notDir

/-- The image goes on holding the tree. -/
theorem Mounts.touch (hM : Mounts g v T ino) (ht : Touches v v' t) (hdir : ¬ v.IsDir t)
    (hapart : ∀ p, v.IsDir (ino p) → (v.refs (ino p)).Disjoint (v.refs t)) :
    Mounts g v' T ino := by
  have hcases := hM.touch_cases ht hdir hapart
  refine ⟨hM.root, fun p => ?_, fun p hp r hr => ?_, fun p n c hchild => ?_⟩
  · rcases hcases p with ⟨-, h, -⟩ | ⟨-, h⟩
    · exact Or.inl h
    · exact Or.inr h
  · rcases hcases p with ⟨h, -, -, hentries⟩ | ⟨-, h⟩
    · rw [hentries] at hr
      exact hM.entry p h r hr
    · exact absurd h.notDir hp.isDir
  · obtain ⟨hp, r, hr, hname⟩ := hM.named p n c hchild
    rcases hcases p with ⟨-, h, -, hentries⟩ | ⟨h, -⟩
    · exact ⟨h, r, by rwa [hentries], hname⟩
    · exact absurd h.notDir hp.isDir

end Touch

/-- A regular file of a tree, which has its blocks within the direct ones and shares
none with a directory. -/
structure TreeFile {Obj : Type*} (g : Geometry) (d : Disk) (T : Tree (List UInt8) Obj)
    (ino : Obj → Nat) (o : Obj) : Prop where
  onDisk : OnDisk g d
  mounts : Mounts g (view g d) T ino
  files : Files g (view g d) {ino o}
  regular : iMode ((view g d).inode (ino o)) &&& ext2SIfreg ≠ 0
  notDir : ¬ (view g d).IsDir (ino o)
  apart : ∀ p, (view g d).IsDir (ino p) →
    ((view g d).refs (ino p)).Disjoint ((view g d).refs (ino o))

/-- The key in an inode. -/
def aesKey (v : View) (n : Nat) : List UInt8 := bytesAt (v.inode n) aesKeyOff 16

/-- A resized inode keeps its key. -/
theorem aesKey_resize (inode : Buf) (fsize : Nat) (bs : List Nat) {i : Nat} (hlo : 8 ≤ i)
    (hhi : i < 28) : resize inode fsize bs i = inode i := by
  rw [resize, putBlocks_outside bs _ _ (by omega), setIBlocks, setU32_outside (by omega),
    setISize, setU32_outside (by omega)]

/-- The other fields of an inode lie outside the key. -/
theorem fields_of_outside {a b : Buf}
    (h : ∀ i, i < aesKeyOff ∨ aesKeyOff + 16 ≤ i → a i = b i) :
    iMode a = iMode b ∧ iSize a = iSize b ∧ iBlocks a = iBlocks b ∧ iBlock a = iBlock b := by
  unfold aesKeyOff at h
  refine ⟨?_, ?_, ?_, ?_⟩
  · exact u16At_congr fun i hi => h _ (by omega)
  · exact u32At_congr fun i hi => h _ (by omega)
  · exact u32At_congr fun i hi => h _ (by omega)
  · funext k
    exact u32At_congr fun i hi => h _ (by omega)

namespace TreeFile

variable {Obj : Type*} {g : Geometry} {d d' : Disk} {T : Tree (List UInt8) Obj} {ino : Obj → Nat}
  {o : Obj}

theorem owns (h : TreeFile g d T ino o) : Owns g (view g d) (ino o) := h.files.owns _ rfl

/-- The file stays a file of the tree when its storage is worked on. -/
theorem touch (h : TreeFile g d T ino o) (hd' : OnDisk g d')
    (ht : Touches (view g d) (view g d') (ino o)) (hfiles : Files g (view g d') {ino o})
    (hrefs : ∀ b ∈ (view g d').refs (ino o),
      b ∈ (view g d).refs (ino o) ∨ (view g d).blockUsed b = false) : TreeFile g d' T ino o := by
  have hused := h.owns.used
  refine ⟨hd', h.mounts.touch ht h.notDir h.apart, hfiles, ?_, ?_, fun p hp => ?_⟩
  · rw [ht.mode _ hused]
    exact h.regular
  · rw [ht.isDir_iff hused]
    exact h.notDir
  · rcases h.mounts.touch_cases ht h.notDir h.apart p with ⟨hdir, -, hsame, -⟩ | ⟨-, hplain⟩
    · intro b hb hbo
      rw [hsame] at hb
      rcases hrefs b hbo with hold | hfree
      · exact h.apart p hdir.isDir hb hold
      · rw [refs_of_le hdir.le] at hb
        obtain ⟨j, hj, rfl⟩ := List.mem_map.mp hb
        have hle := hdir.le
        have hlt := List.mem_range.mp hj
        have hdata := hdir.owns.data j (by unfold directCount; omega)
        rw [hdata.2] at hfree
        exact absurd hfree (by simp)
    · exact absurd hplain.notDir hp

/-- Opening a path that leads to the file, from a directory whose chain does not. -/
theorem fopen (h : TreeFile g d T ino o) {vfs : Globals} {cwd : Obj} {fname : List UInt8}
    (sc : Scratch) (hcwd : vfs.At T (fun dentry p => dentry.iIno = ino p ∧ ino p ≠ ino o) cwd)
    (hnul : 0 ∉ fname) (hlen : fname.length < fnameLen)
    (hpath : T.resolve pathSyntax cwd fname = .found o) :
    fileFopen g.sb d sc vfs fname = some (some ⟨iMode ((view g d).inode (ino o)), ino o,
      (view g d).fileSize (ino o), 0⟩) := by
  -- a dentry of the file has been looked up by the call
  have hmarks : Marks (fun dentry p => dentry.iIno = ino p ∧
      (ino p ≠ ino o ∨ Filled (view g d) dentry (ino p))) (view g d) ino :=
    ⟨fun _ _ hp => hp.1, fun _ _ hp => ⟨hp.iIno, Or.inr hp⟩⟩
  have hcwd' : vfs.At T (fun dentry p => dentry.iIno = ino p ∧
      (ino p ≠ ino o ∨ Filled (view g d) dentry (ino p))) cwd :=
    ⟨⟨hcwd.root.1, Or.inl hcwd.root.2⟩,
      hcwd.names.mono fun _ _ hp => ⟨hp.1, Or.inl hp.2⟩, hcwd.slash⟩
  obtain ⟨r, hrun, hr⟩ := parsePath_names h.mounts h.onDisk hmarks hcwd' sc
    (.node sc.dTmp .sRoot) (.node sc.dTmp .sRoot) hnul hlen
  rw [hpath] at hr
  obtain ⟨hret, hnames, -⟩ := hr
  obtain ⟨-, hfields⟩ := hnames.stands hcwd'.root
  have hfilled := hfields.resolve_left (not_not.mpr rfl)
  simp only [fileFopen, hrun, hret, hfilled.iMode, hfilled.iIno, hfilled.iSize, View.fileSize,
    ne_eq, not_true_eq_false, if_false]

/-- A write that starts in the file cuts it there and puts the buffer behind the cut.
The file keeps its key, and uses at most as many new blocks as the range needs. -/
theorem fwrite (h : TreeFile g d T ino o) {self : File} (stack buf : Buf) {nbytes : Nat}
    (hself : self.iIno = ino o) (hpos : self.fPos ≤ (view g d).fileSize (ino o))
    (hsize : self.fPos + nbytes ≤ 12 * blocksize)
    (hroom : blocksFor (self.fPos + nbytes) ≤
      (view g d).freeBlocks.card + blocksFor self.fPos) :
    ∃ d', fileFwrite g.sb d self stack buf nbytes =
        some (d', { self with fPos := self.fPos + nbytes }) ∧
      TreeFile g d' T ino o ∧
      (view g d').contents (ino o) =
        ((view g d).contents (ino o)).take self.fPos ++ (List.range nbytes).map buf ∧
      aesKey (view g d') (ino o) = aesKey (view g d) (ino o) ∧
      (view g d).freeBlocks.card + blocksFor self.fPos ≤
        (view g d').freeBlocks.card + blocksFor (self.fPos + nbytes) := by
  have hown := h.owns
  have hblocks := h.files.blocks _ rfl
  have hmono : blocksFor self.fPos ≤ blocksFor ((view g d).fileSize (ino o)) := blocksFor_mono hpos
  have hgrow : blocksFor self.fPos ≤ blocksFor (self.fPos + nbytes) :=
    blocksFor_mono (Nat.le_add_right _ _)
  rw [← hself] at hown hblocks hmono
  have hwrite : (fileFwrite g.sb d self stack buf nbytes).isSome := by
    apply fileFwrite_isSome h.onDisk hown.valid hown.used
    · unfold blocksize at hsize
      omega
    · rw [hblocks]
      omega
  obtain ⟨⟨d', self'⟩, hrun⟩ := Option.isSome_iff_exists.mp hwrite
  obtain ⟨hd', hself', ⟨bs, hr⟩, -⟩ := fileFwrite_spec h.onDisk h.files.metaUsed hown hsize hrun
  rw [hself] at hown hr hmono
  obtain ⟨-, hfiles', hcontents, -, hfree⟩ :=
    h.files.fileFwrite h.onDisk hself (by rwa [hself]) hsize hrun
  rw [hself] at hcontents hfree
  obtain ⟨-, hrefs⟩ := hr.refs h.files.metaUsed hown hsize
  refine ⟨d', by rw [hrun, hself'],
    h.touch hd' (hr.touches h.files.metaUsed hown hsize) hfiles' hrefs, hcontents, ?_, by omega⟩
  apply bytesAt_congr
  intro i hi
  rw [hr.inode_self]
  exact aesKey_resize _ _ _ (by unfold aesKeyOff; omega) (by unfold aesKeyOff; omega)

/-- A read of the file delivers its bytes from the position on. -/
theorem fread (h : TreeFile g d T ino o) {self : File} (stack buf : Buf) {nbytes : Nat}
    (hself : self.iIno = ino o) (hmode : self.iMode &&& ext2SIfreg ≠ 0)
    (hpos : self.fPos ≤ (view g d).fileSize (ino o)) (hn : nbytes < 2 ^ 31) :
    ∃ (len : Nat) (buf' : Buf), fileFread g.sb d self stack buf nbytes =
        ((len : Int), buf', { self with fPos := self.fPos + len }) ∧
      len = min nbytes ((view g d).fileSize (ino o) - self.fPos) ∧
      ∀ i < len, buf' i = ((view g d).contents (ino o)).getD (self.fPos + i) 0 := by
  have hbound : (view g d).fileSize (ino o) ≤ 12 * blocksize := h.files.size _ rfl
  unfold blocksize at hbound
  obtain ⟨hlen, hbytes, -⟩ := @Files.read g d {ino o} h.files h.onDisk (ino o) rfl stack buf
    self.fPos nbytes (by omega) (by omega)
  rw [← hself] at hlen hbytes
  obtain ⟨r, hr⟩ : ∃ r, ext2ReadData d (ext2ReadInode g.sb d self.iIno stack).2 self.fPos buf
      nbytes = r := ⟨_, rfl⟩
  simp only [hr, length_contents] at hlen hbytes
  rw [hself] at hlen hbytes
  refine ⟨r.1, r.2, ?_, hlen, ?_⟩
  · have hsum : (self.fPos + r.1) % 2 ^ 32 = self.fPos + r.1 := Nat.mod_eq_of_lt (by omega)
    simp only [fileFread, if_neg hmode, hr, if_neg (show ¬ r.1 = 2 ^ 32 - 1 by omega), hsum]
  · intro i hi
    have hget : ((List.range r.1).map r.2).getD i 0 = r.2 i := by
      simp [hi]
    rw [hbytes] at hget
    rw [← hget]
    simp [List.getD_eq_getElem?_getD, show i < nbytes by omega]

/-- Storing a key changes the key of the file and nothing else. -/
theorem setkey (h : TreeFile g d T ino o) {self : File} (stack key : Buf)
    (hself : self.iIno = ino o) :
    TreeFile g (fileSetkey g.sb d self stack key) T ino o ∧
      (view g (fileSetkey g.sb d self stack key)).contents (ino o) =
        (view g d).contents (ino o) ∧
      (view g (fileSetkey g.sb d self stack key)).freeBlocks = (view g d).freeBlocks ∧
      aesKey (view g (fileSetkey g.sb d self stack key)) (ino o) = bytesAt key 0 16 := by
  have hown := h.owns
  obtain ⟨inode, hinode⟩ : ∃ inode, memcpy ((view g d).inode (ino o)) aesKeyOff key 0 16 = inode :=
    ⟨_, rfl⟩
  have hrun : fileSetkey g.sb d self stack key = (ext2WriteInode g.sb d (ino o) inode).2 := by
    rw [fileSetkey, hself, readInode_eq h.onDisk hown.valid hown.used, hinode]
  rw [hrun]
  obtain ⟨hd', hview⟩ := view_writeInode h.onDisk hown.valid hown.used inode
  obtain ⟨d', hd'eq⟩ : ∃ d', (ext2WriteInode g.sb d (ino o) inode).2 = d' := ⟨_, rfl⟩
  rw [hd'eq] at hd' hview ⊢
  have hnew : (view g d').inode (ino o) = inodeBytes inode := by
    rw [hview]
    exact Function.update_self _ _ _
  -- the bytes outside the key are the old ones
  have hsame : ∀ i, i < aesKeyOff ∨ aesKeyOff + 16 ≤ i →
      (view g d').inode (ino o) i = (view g d).inode (ino o) i := by
    intro i hi
    rw [hnew, inodeBytes, ← hinode, memcpy_outside hi]
    by_cases hlt : i < sizeofInode
    · rw [if_pos hlt]
    · simp only [view, if_pos hown.valid, inodeBytes, if_neg hlt]
  obtain ⟨hmode, hsize, hblocks, hslots⟩ := fields_of_outside hsame
  have hothers : ∀ n, n ≠ ino o → (view g d').inode n = (view g d).inode n := by
    intro n hn
    rw [hview]
    exact Function.update_of_ne hn _ _
  have hused : (view g d').blockUsed = (view g d).blockUsed := by rw [hview]
  have hinodes : (view g d').inodeUsed = (view g d).inodeUsed := by rw [hview]
  have hdata : (view g d').data = (view g d).data := by rw [hview]
  have hcount : directCount ((view g d').inode (ino o)) =
      directCount ((view g d).inode (ino o)) := by
    rw [directCount, directCount, hblocks]
  have hfsize : (view g d').fileSize (ino o) = (view g d).fileSize (ino o) := hsize
  have hfiles : Files g (view g d') {ino o} := by
    refine
      { metaUsed := ?_
        owns := ?_
        size := ?_
        blocks := ?_
        apart := ?_ }
    · intro b hb hm
      rw [hused]
      exact h.files.metaUsed b hb hm
    · rintro f rfl
      refine ⟨hown.valid, by rw [hinodes]; exact hown.used, ?_, ?_⟩
      · rw [hcount, hslots, hused]
        exact hown.data
      · rw [hcount, hslots]
        exact hown.inj
    · rintro f rfl
      rw [hfsize]
      exact h.files.size _ rfl
    · rintro f rfl
      rw [hblocks, hfsize]
      exact h.files.blocks _ rfl
    · rintro e rfl f rfl hne
      exact absurd rfl hne
  have htouches : Touches (view g d) (view g d') (ino o) := by
    refine ⟨fun b hb => by rwa [hused], fun n hn => by rwa [hinodes], fun n _ => ?_,
      fun n _ hn => hothers n hn, fun b _ _ => by rw [hdata]⟩
    by_cases hn : n = ino o
    · rw [hn, hmode]
    · rw [hothers n hn]
  have hle : iBlocks ((view g d).inode (ino o)) ≤ 12 := by
    rw [h.files.blocks _ rfl]
    exact blocksFor_le (h.files.size _ rfl)
  have hrefs : (view g d').refs (ino o) = (view g d).refs (ino o) := by
    rw [refs_of_le hle, refs_of_le (by rwa [hblocks]), hblocks, hslots]
  refine ⟨h.touch hd' htouches hfiles fun b hb => Or.inl (by rwa [← hrefs]), ?_, ?_, ?_⟩
  · unfold View.contents View.fileByte
    rw [hfsize, hslots, hdata]
  · unfold View.freeBlocks
    rw [hused]
  · apply bytesAt_congr
    intro i hi
    rw [hnew, inodeBytes, ← hinode, if_pos (by unfold aesKeyOff sizeofInode; omega),
      memcpy_inside (by omega) (by omega), Nat.add_sub_cancel_left]

/-- The key that is read is the one in the inode. -/
theorem getkey (h : TreeFile g d T ino o) {self : File} (stack key : Buf)
    (hself : self.iIno = ino o) :
    bytesAt (fileGetkey g.sb d self stack key) 0 16 = aesKey (view g d) (ino o) := by
  have hown := h.owns
  apply bytesAt_congr
  intro i hi
  rw [fileGetkey, hself, readInode_eq h.onDisk hown.valid hown.used,
    memcpy_inside (by omega) (by omega), Nat.zero_add, Nat.sub_zero]

end TreeFile

/-! ## The file of the image -/

/-- The file of the image has its block for itself. -/
theorem treeFile_treeDisk : TreeFile smallGroup treeDisk smallTree Place.ino .file := by
  obtain ⟨hmode, hsize, hblocks, hslot⟩ := inode_treeDisk
  obtain ⟨hroot, hrootEntries, hdir, hdirEntries⟩ := directories_treeDisk
  have hnotDir : ¬ (view smallGroup treeDisk).IsDir 13 := by
    rw [View.IsDir, hmode]
    decide
  have hrefs : (view smallGroup treeDisk).refs 13 = [9] := by
    rw [refs_of_le (by omega), hblocks]
    simp [hslot]
  have hapart : ∀ n mode b, treeView.inode n = newInode mode blocksize [b] →
      smallGroup.ValidIno n → mode < 2 ^ 16 → b ≠ 9 → b < 2 ^ 32 →
      ((view smallGroup treeDisk).refs n).Disjoint ((view smallGroup treeDisk).refs 13) := by
    intro n mode b hinode hn hmode hb hlt
    obtain ⟨-, -, hcount, hslots⟩ := View.fields_trim smallGroup treeView hn hinode hmode
      (by decide) (by simp) (by simpa using hlt)
    rw [← view_treeDisk, List.length_singleton] at hcount
    rw [← view_treeDisk] at hslots
    rw [hrefs, refs_of_le (by omega), hcount]
    simp [hslots, hb.symm]
  refine
    { onDisk := onDisk_treeDisk
      mounts := mounts_treeDisk
      files := ?_
      regular := ?_
      notDir := hnotDir
      apart := ?_ }
  · refine
      { metaUsed := ?_
        owns := ?_
        size := ?_
        blocks := ?_
        apart := ?_ }
    · rw [view_treeDisk]
      apply metaUsed_smallGroup
      intro b hb
      exact decide_eq_true (show b ≤ 9 by omega)
    · rintro f rfl
      refine ⟨by decide, by rw [view_treeDisk]; decide, ?_, ?_⟩
      · intro k hk
        rw [Place.ino, directCount, hblocks] at hk
        have hzero : k = 0 := by omega
        rw [hzero, Place.ino, hslot, view_treeDisk]
        exact ⟨smallGroup_isData (by decide) (by decide), by decide⟩
      · intro j hj k hk _
        rw [Place.ino, directCount, hblocks] at hj hk
        omega
    · rintro f rfl
      rw [Place.ino, View.fileSize, hsize]
      decide
    · rintro f rfl
      rw [Place.ino, hblocks, View.fileSize, hsize]
      decide
    · rintro e rfl f rfl hne
      exact absurd rfl hne
  · rw [Place.ino, hmode]
    decide
  · intro p hp
    cases p with
    | root => exact hapart 2 0x41FF 7 rfl (by decide) (by decide) (by decide) (by decide)
    | dir => exact hapart 12 0x41FF 8 rfl (by decide) (by decide) (by decide) (by decide)
    | file => exact absurd hp hnotDir

/-- Three blocks of the image are unused. -/
theorem three_le_freeBlocks : 3 ≤ (view smallGroup treeDisk).freeBlocks.card := by
  have hsub : ({10, 11, 12} : Finset Nat) ⊆ (view smallGroup treeDisk).freeBlocks := by
    rw [view_treeDisk]
    intro b hb
    rw [mem_freeBlocks]
    simp only [Finset.mem_insert, Finset.mem_singleton] at hb
    rcases hb with rfl | rfl | rfl
    · decide
    · decide
    · decide
  exact Finset.card_le_card hsub

/-- The bytes of the file. -/
theorem contents_treeDisk : (view smallGroup treeDisk).contents 13 = [65, 0] := by
  obtain ⟨-, hsize, -, hslot⟩ := inode_treeDisk
  have hbytes : ∀ i < 2, (view smallGroup treeDisk).fileByte 13 i = if i = 0 then 65 else 0 := by
    intro i hi
    have hdiv : i / blocksize = 0 := Nat.div_eq_of_lt (by unfold blocksize; omega)
    have hmod : i % blocksize = i := Nat.mod_eq_of_lt (by unfold blocksize; omega)
    rw [View.fileByte, hdiv, hmod, hslot, view_treeDisk]
    rcases (show i = 0 ∨ i = 1 by omega) with rfl | rfl
    · decide
    · decide
  rw [View.contents, View.fileSize, hsize, List.map_congr_left fun i hi =>
    hbytes i (List.mem_range.mp hi)]
  rfl

end Vfs
end NochOS
