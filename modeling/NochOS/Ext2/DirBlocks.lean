import NochOS.Ext2.Space

/-!
# ext2 - the blocks of a directory as lists of records

The blocks of a directory whose last one is full, too, are tiled by aligned records to
their end.  An insertion that finds a record with slack splits it, and a removal of a file
gives its room to a neighbour: both rewrite one block, and the other blocks of the
directory stay as they are.

Main results:

- Structure `Listed`: a directory whose blocks are tiled by given records.
- Theorem `insertDentry_splits`: the block after an insertion.
- Theorem `removeDentry_merges`: the block after a removal.
- Theorem `directory_blocks`: both together.
-/

namespace NochOS
namespace Ext2

open Library

/-! ## Aligned records -/

/-- A record in use whose length is aligned and has room for its name. -/
structure Rec.Fits (r : Rec) : Prop where
  ft : r.ft ≠ 0
  noNul : (0 : UInt8) ∉ r.name
  room : 8 + padded r.name.length ≤ r.recLen
  aligned : r.recLen % 4 = 0

theorem walkable_fits : Walkable Rec.Fits where
  ft _ h := h.ft
  room _ h := h.room

theorem padded_aligned (n : Nat) : padded n % 4 = 0 := by
  unfold padded
  split <;> omega

/-- A directory all of whose blocks are tiled to their end, by the records of the lists. -/
structure Listed (g : Geometry) (v : View) (ino : Nat) (recs : Nat → List Rec) : Prop where
  owns : Owns g v ino
  isDir : iMode (v.inode ino) &&& ext2SIfdir ≠ 0
  pos : 1 ≤ iBlocks (v.inode ino)
  le : iBlocks (v.inode ino) ≤ 12
  tiled : ∀ k < iBlocks (v.inode ino), TilesOf Rec.Fits (v.dirBlock ino k) 0 (recs k) 1024
  unique : (((List.range (iBlocks (v.inode ino))).flatMap recs).map Rec.name).Nodup

/-- One block of the directory is tiled by other records, and no other data block has
changed. -/
def Rewritten (v v' : View) (ino k : Nat) (rs : List Rec) : Prop :=
  ∃ buf, v'.data = Function.update v.data (iBlock (v.inode ino) k) buf ∧
    TilesOf Rec.Fits buf 0 rs 1024

section Listed

variable {g : Geometry} {v v' : View} {d : Disk} {ino k : Nat} {recs : Nat → List Rec}

theorem Listed.isData (h : Listed g v ino recs) (hk : k < iBlocks (v.inode ino)) :
    g.IsData (iBlock (v.inode ino) k) := by
  have hle := h.le
  exact (h.owns.data k (by unfold directCount; omega)).1

theorem Listed.readBlock (h : Listed g (view g d) ino recs)
    (hk : k < iBlocks ((view g d).inode ino)) :
    ext2ReadBlock d (iBlock ((view g d).inode ino) k) = (view g d).dirBlock ino k :=
  readBlock_eq (h.isData hk)

/-- The names of the blocks before, of a block, and of the blocks behind it. -/
theorem names_split {n : Nat} (hk : k < n) (recs : Nat → List Rec) :
    ∃ cs, ∀ rs, ((List.range n).flatMap (Function.update recs k rs)).map Rec.name =
      ((List.range k).flatMap recs).map Rec.name ++ rs.map Rec.name ++ cs := by
  obtain ⟨m, rfl⟩ : ∃ m, n = k + (1 + m) := ⟨n - k - 1, by omega⟩
  refine ⟨(((List.range m).map fun i => k + (1 + i)).flatMap recs).map Rec.name, fun rs => ?_⟩
  have hbefore : (List.range k).flatMap (Function.update recs k rs) =
      (List.range k).flatMap recs := by
    apply List.flatMap_congr
    intro j hj
    have hlt := List.mem_range.mp hj
    exact Function.update_of_ne (by omega) _ _
  have hafter : ((List.range m).map fun i => k + (1 + i)).flatMap (Function.update recs k rs) =
      ((List.range m).map fun i => k + (1 + i)).flatMap recs := by
    apply List.flatMap_congr
    intro j hj
    obtain ⟨i, -, rfl⟩ := List.mem_map.mp hj
    exact Function.update_of_ne (by omega) _ _
  rw [List.range_add, List.range_add, List.map_append, List.flatMap_append, List.flatMap_append,
    hbefore, List.map_map]
  simp only [Function.comp_def, hafter]
  simp

/-- The directory after one of its blocks was rewritten. -/
theorem Listed.rewrite (h : Listed g v ino recs) (hk : k < iBlocks (v.inode ino)) {rs : List Rec}
    (hrewritten : Rewritten v v' ino k rs) (hinode : v'.inode ino = v.inode ino)
    (hused : v'.inodeUsed ino = true) (hblocks : v'.blockUsed = v.blockUsed)
    (hunique : (((List.range (iBlocks (v.inode ino))).flatMap
      (Function.update recs k rs)).map Rec.name).Nodup) :
    Listed g v' ino (Function.update recs k rs) := by
  obtain ⟨buf, hdata, htiles⟩ := hrewritten
  have hle := h.le
  refine ⟨⟨h.owns.valid, hused, ?_, ?_⟩, by rw [hinode]; exact h.isDir, by rw [hinode]; exact h.pos,
    by rw [hinode]; exact h.le, ?_, by rw [hinode]; exact hunique⟩
  · rw [hinode, hblocks]
    exact h.owns.data
  · rw [hinode]
    exact h.owns.inj
  · rw [hinode]
    intro j hj
    rw [View.dirBlock, hinode, hdata]
    by_cases hjk : j = k
    · subst hjk
      rw [Function.update_self, Function.update_self]
      exact htiles
    · have hne : iBlock (v.inode ino) j ≠ iBlock (v.inode ino) k := fun heq =>
        hjk (h.owns.inj j (by unfold directCount; omega) k (by unfold directCount; omega) heq)
      rw [Function.update_of_ne hjk, Function.update_of_ne hne]
      exact h.tiled j hj

/-- Names stay unique when a record of a new name is added. -/
theorem Listed.unique_insert (h : Listed g v ino recs) (hk : k < iBlocks (v.inode ino))
    {as cs rs : List Rec} (hsplit : recs k = as ++ cs) {name : List UInt8}
    (habsent : ∀ k < iBlocks (v.inode ino), ∀ r ∈ recs k, r.name ≠ name)
    (hrs : rs.map Rec.name = as.map Rec.name ++ name :: cs.map Rec.name) :
    (((List.range (iBlocks (v.inode ino))).flatMap
      (Function.update recs k rs)).map Rec.name).Nodup := by
  obtain ⟨back, hnames⟩ := names_split hk recs
  have hold := hnames (recs k)
  rw [Function.update_eq_self, hsplit, List.map_append, List.append_assoc,
    List.append_assoc] at hold
  have hnew : name ∉ ((List.range (iBlocks (v.inode ino))).flatMap recs).map Rec.name := by
    intro hmem
    obtain ⟨q, hq, hqname⟩ := List.mem_map.mp hmem
    obtain ⟨j, hj, hqj⟩ := List.mem_flatMap.mp hq
    exact habsent j (List.mem_range.mp hj) q hqj hqname
  have hunique := h.unique
  rw [hold] at hunique hnew
  have hmove : ∀ front : List (List UInt8),
      front ++ (as.map Rec.name ++ name :: cs.map Rec.name) ++ back =
        (front ++ as.map Rec.name) ++ name :: (cs.map Rec.name ++ back) := by
    simp
  rw [hnames, hrs, hmove, List.nodup_middle, List.nodup_cons, List.append_assoc]
  exact ⟨hnew, hunique⟩

/-- Names stay unique when a record is removed. -/
theorem Listed.unique_remove (h : Listed g v ino recs) (hk : k < iBlocks (v.inode ino))
    {as cs rs : List Rec} {r : Rec} (hsplit : recs k = as ++ r :: cs)
    (hrs : rs.map Rec.name = as.map Rec.name ++ cs.map Rec.name) :
    (((List.range (iBlocks (v.inode ino))).flatMap
      (Function.update recs k rs)).map Rec.name).Nodup := by
  obtain ⟨back, hnames⟩ := names_split hk recs
  have hold := hnames (recs k)
  rw [Function.update_eq_self, hsplit, List.map_append, List.map_cons] at hold
  have hunique := h.unique
  have hmove : ∀ front : List (List UInt8),
      front ++ (as.map Rec.name ++ r.name :: cs.map Rec.name) ++ back =
        (front ++ as.map Rec.name) ++ r.name :: (cs.map Rec.name ++ back) := by
    simp
  rw [hold, hmove, List.nodup_middle, List.nodup_cons] at hunique
  rw [hnames, hrs]
  simpa using hunique.2

end Listed

/-! ## Insertion -/

/-- The first record with slack: none of the records before it has. -/
structure FirstSlack (recs : Nat → List Rec) (len k : Nat) (pre : List Rec) (r : Rec)
    (post : List Rec) : Prop where
  split : recs k = pre ++ r :: post
  slack : Slack len r
  before : ∀ q ∈ pre, ¬ Slack len q
  earlier : ∀ j < k, ∀ q ∈ recs j, ¬ Slack len q

section Insertion

variable {g : Geometry} {d : Disk} {ino k len : Nat} {recs : Nat → List Rec} {pre post : List Rec}
  {r : Rec}

/-- When some record has slack, there is a first one. -/
theorem exists_firstSlack {n : Nat} (h : ∃ k < n, ∃ r ∈ recs k, Slack len r) :
    ∃ k < n, ∃ pre r post, FirstSlack recs len k pre r post := by
  classical
  obtain ⟨hk, r, hr, hslack⟩ := Nat.find_spec h
  rcases first_or_none (Slack len) (recs (Nat.find h)) with hno | ⟨pre, q, post, hsplit, hq, hpre⟩
  · exact absurd hslack (hno r hr)
  · refine ⟨Nat.find h, hk, pre, q, post, hsplit, hq, hpre, fun j hj s hs hslack => ?_⟩
    exact Nat.find_min h hj ⟨hj.trans hk, s, hs, hslack⟩

/-- The insertion loop ends at the first record with slack. -/
theorem insertLoop_first (h : Listed g (view g d) ino recs)
    (hk : k < iBlocks ((view g d).inode ino)) (hfirst : FirstSlack recs len k pre r post) {j : Nat}
    (hj : j ≤ k) :
    ∃ off, TilesOf Rec.Fits ((view g d).dirBlock ino k) 0 pre off ∧
      insertLoop len j 0 ((view g d).inode ino) d =
        some ⟨iBlock ((view g d).inode ino) k, (view g d).dirBlock ino k, off,
          padded r.name.length + 8, (view g d).inode ino, d⟩ := by
  have hle := h.le
  -- the measure is the number of blocks before the one with slack
  induction hm : k - j generalizing j with
  | zero =>
      obtain rfl : j = k := by
        omega
      have htiles := h.tiled j hk
      rw [hfirst.split] at htiles
      obtain ⟨off, hpre, hpost⟩ := htiles.split
      obtain ⟨hrec, hfits, hrest⟩ := hpost.head
      have hroom := hfits.room
      have hend := hrest.le
      refine ⟨off, hpre, ?_⟩
      rw [insertLoop_passOf walkable_fits (by omega) (h.readBlock hk) hpre (by omega) hfirst.before,
        insertLoop_slack (by omega) (by omega) (h.readBlock hk) hrec hfits.ft hfirst.slack]
  | succ m ih =>
      obtain ⟨off, hpre, hloop⟩ := @ih (j + 1) (by omega) (by omega)
      refine ⟨off, hpre, ?_⟩
      have hset : iBlock ((view g d).inode ino) (j + 1) ≠ 0 := by
        have hdata := (@Listed.isData g (view g d) ino (j + 1) recs h (by omega)).2
        intro hzero
        rw [hzero] at hdata
        exact hdata (Or.inl (Nat.zero_le _))
      rw [insertLoop_passOf walkable_fits (by omega) (h.readBlock (by omega))
          (h.tiled j (by omega)) le_rfl (hfirst.earlier j (by omega)),
        insertLoop_cross (by omega) (by omega) hset le_rfl, hloop]

/-- `ext2_alloc_inode` with size zero answers. -/
theorem allocInode_zero (sb : Super) (d : Disk) (ino : Nat) (inode : Buf) :
    ∃ inode' d', ext2AllocInode sb d ino inode 0 = some (inode', d') := by
  have hblocks : blocksFor 0 = 0 := rfl
  simp only [ext2AllocInode, hblocks, Nat.zero_sub, fillBlocks]
  exact ⟨_, _, rfl⟩

/-- An insertion splits the first record with slack: the block of that record is rewritten,
and has the new entry right behind it. -/
theorem insertDentry_splits (hd : OnDisk g d) (h : Listed g (view g d) ino recs) (stk : Stack)
    {dentry : Dentry} (hnul : 0 ∉ dentry.filename) (hshort : dentry.filename.length < fnameLen)
    (habsent : ∀ k < iBlocks ((view g d).inode ino), ∀ r ∈ recs k, r.name ≠ dentry.filename)
    (hn : g.ValidIno dentry.iIno) (hused : (view g d).inodeUsed dentry.iIno = true)
    (hne : dentry.iIno ≠ ino) (hft : imodeToFt dentry.iMode ≠ 0)
    (hroom : ∃ k < iBlocks ((view g d).inode ino), ∃ r ∈ recs k,
      Slack (padded dentry.filename.length) r) :
    ∃ d', ext2InsertDentry g.sb d stk dentry ((view g d).inode ino) =
        some (0, (view g d).inode ino, d') ∧ OnDisk g d' ∧
      ∃ k < iBlocks ((view g d).inode ino), ∃ pre r post rs,
        FirstSlack recs (padded dentry.filename.length) k pre r post ∧
        Rewritten (view g d) (view g d') ino k rs ∧
        rs.map Rec.key = pre.map Rec.key ++
          r.key :: (dentry.filename, dentry.iIno, imodeToFt dentry.iMode) :: post.map Rec.key ∧
        Listed g (view g d') ino (Function.update recs k rs) := by
  obtain ⟨k, hk, pre, r, post, hfirst⟩ := exists_firstSlack hroom
  obtain ⟨off, hpre, hloop⟩ := insertLoop_first h hk hfirst (Nat.zero_le k)
  have hdata := h.isData hk
  have htake : dentry.filename.take fnameLen = dentry.filename :=
    List.take_of_length_le hshort.le
  have hlt : dentry.iIno < 2 ^ 32 := by
    have hbits := validIno_le hn
    unfold bitmapBits at hbits
    omega
  have htiles := h.tiled k hk
  rw [hfirst.split] at htiles
  have hr : r.Fits := htiles.ok r (by simp)
  have hslack := hfirst.slack
  unfold Slack at hslack
  have haligned := hr.aligned
  have hpadded := padded_aligned r.name.length
  -- the record keeps the room for its name, the new one gets the rest
  obtain ⟨hnew, -⟩ := htiles.writeRecord (iBlock ((view g d).inode ino) k) ((view g d).inode ino) d
    walkable_fits hpre le_rfl hfirst.slack hshort hlt
    ⟨hr.ft, hr.noNul, by dsimp only; omega, by dsimp only; omega⟩
    ⟨hft, hnul, by dsimp only; omega, by dsimp only; omega⟩
  obtain ⟨buf, hbuf⟩ : ∃ buf, buf = writeRecord ⟨iBlock ((view g d).inode ino) k,
      (view g d).dirBlock ino k, off, padded r.name.length + 8, (view g d).inode ino, d⟩
      dentry.iIno dentry.iMode dentry.filename := ⟨_, rfl⟩
  rw [← hbuf] at hnew
  have hview := @view_writeBlock g d _ hdata buf
  have hused₁ : (view g (ext2WriteBlock d (iBlock ((view g d).inode ino) k) buf)).inodeUsed
      dentry.iIno = true := by
    rw [hview]
    exact hused
  obtain ⟨inode', d', halloc⟩ := allocInode_zero g.sb
    (ext2WriteBlock d (iBlock ((view g d).inode ino) k) buf) dentry.iIno
    (setIBlocks (setISize (setIMode stk.insertTheInode dentry.iMode) dentry.iSize) dentry.iBlocks)
  obtain ⟨bs, hlen, -, hd', -, hview'⟩ := allocInode_spec (hd.writeData hdata buf) hn hused₁ halloc
  obtain rfl : bs = [] := List.length_eq_zero_iff.mp (by rw [hlen]; exact Nat.zero_sub _)
  rw [mark_nil, hview] at hview'
  have hrewritten : Rewritten (view g d) (view g d') ino k
      (pre ++ { r with recLen := padded r.name.length + 8 } ::
        ⟨dentry.iIno, r.recLen - (padded r.name.length + 8), imodeToFt dentry.iMode,
          dentry.filename⟩ :: post) :=
    ⟨buf, by rw [hview'], hnew⟩
  refine ⟨d', ?_, hd', k, hk, pre, r, post, _, hfirst, hrewritten, by simp [Rec.key], ?_⟩
  · simp only [ext2InsertDentry, htake, hloop, ← hbuf, halloc]
  · apply h.rewrite hk hrewritten
    · rw [hview']
      exact Function.update_of_ne hne.symm _ _
    · rw [hview']
      exact h.owns.used
    · rw [hview']
    · apply h.unique_insert hk (show recs k = (pre ++ [r]) ++ post by simp [hfirst.split]) habsent
      simp

end Insertion

/-! ## Removal -/

section Removal

variable {g : Geometry} {d : Disk} {ino k : Nat} {recs : Nat → List Rec} {pre post : List Rec}
  {r : Rec}

/-- No record before a record has its name. -/
theorem Listed.name_first {v : View} (h : Listed g v ino recs) (hk : k < iBlocks (v.inode ino))
    (hsplit : recs k = pre ++ r :: post) :
    (∀ q ∈ pre, q.name ≠ r.name) ∧ ∀ j < k, ∀ q ∈ recs j, q.name ≠ r.name := by
  obtain ⟨back, hnames⟩ := names_split hk recs
  have hold := hnames (recs k)
  have hunique := h.unique
  rw [Function.update_eq_self, hsplit, List.append_assoc] at hold
  rw [hold, List.nodup_append] at hunique
  obtain ⟨-, hhere, hbefore⟩ := hunique
  rw [List.map_append, List.append_assoc, List.nodup_append] at hhere
  constructor
  · intro q hq heq
    exact hhere.2.2 q.name (List.mem_map_of_mem hq) r.name (by simp) heq
  · intro j hj q hq heq
    refine hbefore q.name (List.mem_map_of_mem ?_) r.name (by simp) heq
    exact List.mem_flatMap.mpr ⟨j, List.mem_range.mpr hj, hq⟩

/-- The search ends at the record of a name. -/
theorem searchLoop_first (h : Listed g (view g d) ino recs)
    (hk : k < iBlocks ((view g d).inode ino)) (hsplit : recs k = pre ++ r :: post) {j : Nat}
    (hj : j ≤ k) (swp : Nat) :
    ∃ off swp', searchLoop d ((view g d).inode ino) r.name j 0 swp = some (.found k off swp') ∧
      TilesOf Rec.Fits ((view g d).dirBlock ino k) 0 pre off ∧
      recAt ((view g d).dirBlock ino k) off = r ∧
      (pre = [] ∨ ∃ pre' q, pre = pre' ++ [q] ∧
        TilesOf Rec.Fits ((view g d).dirBlock ino k) 0 pre' swp') := by
  have hle := h.le
  obtain ⟨hhere, hearlier⟩ := h.name_first hk hsplit
  have htiles := h.tiled k hk
  rw [hsplit] at htiles
  have hname : 0 ∉ r.name := (htiles.ok r (by simp)).noNul
  -- the measure is the number of blocks before the one with the record
  induction hm : k - j generalizing j swp with
  | zero =>
      obtain rfl : j = k := by
        omega
      obtain ⟨off, hpre, hpost⟩ := htiles.split
      obtain ⟨hrec, hfits, hrest⟩ := hpost.head
      have hroom := hfits.room
      have hend := hrest.le
      have hft : dFileType ((view g d).dirBlock ino j) off ≠ 0 := by
        have hft' := hfits.ft
        rw [← hrec] at hft'
        exact hft'
      have hdname : dName ((view g d).dirBlock ino j) off = r.name := by
        rw [← hrec]
        rfl
      obtain ⟨swp', hpass, hswp⟩ := @searchLoop_passOf d ((view g d).inode ino) r.name j 0 swp _
        walkable_fits hname ⟨by omega, hk⟩ _ (h.readBlock hk) _ _ hpre (by omega) hhere
      refine ⟨off, swp', ?_, hpre, hrec, ?_⟩
      · rw [hpass, searchLoop_at hname ⟨by omega, hk⟩ (by omega)]
        simp only [h.readBlock hk, if_neg hft, if_pos hdname]
      · rcases hswp with ⟨rfl, -⟩ | ⟨pre', q, rfl, hpre', -⟩
        · exact Or.inl rfl
        · exact Or.inr ⟨pre', q, rfl, hpre'⟩
  | succ m ih =>
      obtain ⟨swp', hpass, -⟩ := @searchLoop_passOf d ((view g d).inode ino) r.name j 0 swp _
        walkable_fits hname ⟨by omega, by omega⟩ _ (h.readBlock (by omega)) _ _
        (h.tiled j (by omega)) le_rfl (hearlier j (by omega))
      obtain ⟨off, swp'', hloop, hrest⟩ := ih (j := j + 1) (by omega) swp' (by omega)
      exact ⟨off, swp'', by rw [hpass, searchLoop_cross ⟨by omega, by omega⟩ le_rfl, hloop], hrest⟩

/-- Removing a file whose record is not alone in its block gives the room of the record to
the one before it, or to its successor when it is the first. -/
theorem removeDentry_merges (hd : OnDisk g d) (h : Listed g (view g d) ino recs) (stk : Stack)
    (fuel : Nat) (hk : k < iBlocks ((view g d).inode ino)) (hsplit : recs k = pre ++ r :: post)
    (hfile : r.ft ≠ ext2FtDir) (hown : Owns g (view g d) r.ino) (hnot : pre ≠ [] ∨ post ≠ []) :
    ∃ d', ext2RemoveDentry g.sb d stk fuel r.name ((view g d).inode ino) =
        some (0, (view g d).inode ino, d') ∧ OnDisk g d' ∧
      ∃ rs, Rewritten (view g d) (view g d') ino k rs ∧
        rs.map Rec.key = pre.map Rec.key ++ post.map Rec.key ∧
        Listed g (view g d') ino (Function.update recs k rs) := by
  obtain ⟨off, swp, hloop, hpre, hrec, hlast⟩ := searchLoop_first h hk hsplit (Nat.zero_le k) 0
  have hdata := h.isData hk
  have htiles := h.tiled k hk
  rw [hsplit] at htiles
  have hft : dFileType ((view g d).dirBlock ino k) off ≠ ext2FtDir := by
    rw [← hrec] at hfile
    exact hfile
  have hino : dInode ((view g d).dirBlock ino k) off = r.ino := by
    rw [← hrec]
    rfl
  have hrecLen : dRecLen ((view g d).dirBlock ino k) off = r.recLen := by
    rw [← hrec]
    rfl
  obtain ⟨hd₁, hview₁⟩ := release_owned hd hown stk.removeTheInode
  -- once the file is released, one block is written
  have hwrite : ∀ (buf : Buf) (rs : List Rec), TilesOf Rec.Fits buf 0 rs 1024 →
      rs.map Rec.key = pre.map Rec.key ++ post.map Rec.key →
      OnDisk g (ext2WriteBlock (releaseIno (releaseBlocks (ext2ReadInode g.sb d r.ino
        stk.removeTheInode).2 d) r.ino) (iBlock ((view g d).inode ino) k) buf) ∧
      ∃ rs, Rewritten (view g d) (view g (ext2WriteBlock (releaseIno (releaseBlocks
          (ext2ReadInode g.sb d r.ino stk.removeTheInode).2 d) r.ino)
          (iBlock ((view g d).inode ino) k) buf)) ino k rs ∧
        rs.map Rec.key = pre.map Rec.key ++ post.map Rec.key ∧
        Listed g (view g (ext2WriteBlock (releaseIno (releaseBlocks (ext2ReadInode g.sb d r.ino
          stk.removeTheInode).2 d) r.ino) (iBlock ((view g d).inode ino) k) buf)) ino
          (Function.update recs k rs) := by
    intro buf rs hnew hkeys
    have hview := @view_writeBlock g (releaseIno (releaseBlocks (ext2ReadInode g.sb d r.ino
      stk.removeTheInode).2 d) r.ino) _ hdata buf
    rw [hview₁] at hview
    have hrewritten : Rewritten (view g d) (view g (ext2WriteBlock (releaseIno (releaseBlocks
        (ext2ReadInode g.sb d r.ino stk.removeTheInode).2 d) r.ino)
        (iBlock ((view g d).inode ino) k) buf)) ino k rs := ⟨buf, by rw [hview], hnew⟩
    refine ⟨hd₁.writeData hdata buf, rs, hrewritten, hkeys, h.rewrite hk hrewritten (by rw [hview])
      (by rw [hview]; exact h.owns.used) (by rw [hview]) ?_⟩
    apply h.unique_remove hk hsplit
    have hnames := congrArg (List.map Prod.fst) hkeys
    simpa [List.map_append, Function.comp_def, Rec.key] using hnames
  simp only [ext2RemoveDentry, if_neg h.isDir, hloop, h.readBlock hk, if_neg hft, hino, hrecLen]
  rcases hlast with rfl | ⟨pre', q, rfl, hpre'⟩
  · obtain rfl := hpre.eq_of_nil
    cases post with
    | nil => exact absurd hnot (by simp)
    | cons q post =>
        have hr : r.Fits := htiles.ok r (by simp)
        have hq : q.Fits := htiles.ok q (by simp)
        have hroom := hr.room
        have haligned := hr.aligned
        have hroom' := hq.room
        have haligned' := hq.aligned
        have hshort : r.recLen ≠ blocksize := by
          have hend := (TilesOf.head htiles).2.2.head.2.2.le
          unfold blocksize
          omega
        obtain ⟨hnew, -⟩ := TilesOf.replaceFirst walkable_fits htiles le_rfl hq.noNul
          ⟨hq.ft, hq.noNul, by dsimp only; omega, by dsimp only; omega⟩
        rw [if_pos ⟨rfl, hshort⟩]
        exact ⟨_, rfl, hwrite _ _ hnew (by simp [Rec.key])⟩
  · rw [List.append_assoc, List.singleton_append] at htiles
    have hr : r.Fits := htiles.ok r (by simp)
    have hq : q.Fits := htiles.ok q (by simp)
    have hroom := hr.room
    have haligned := hr.aligned
    have hroom' := hq.room
    have haligned' := hq.aligned
    have hoff : off ≠ 0 := by
      obtain ⟨mid, hmid, hone⟩ := hpre.split
      have hmid' := hmid.le
      have hend := hone.head.2.2.eq_of_nil
      omega
    obtain ⟨hnew, -⟩ := TilesOf.annex walkable_fits htiles hpre' hpre le_rfl
      ⟨hq.ft, hq.noNul, by dsimp only; omega, by dsimp only; omega⟩
    rw [if_neg (fun h => hoff h.1), if_neg hoff]
    exact ⟨_, rfl, hwrite _ _ hnew (by simp [Rec.key])⟩

end Removal

/-- An insertion that finds a record with slack and a removal of a file that is not alone
in its block rewrite one block of the directory, which is tiled again: by the old records
with the new entry behind the first one with slack, or by the old records without the
entry.  The other blocks are as before. -/
theorem directory_blocks {g : Geometry} {d : Disk} {ino : Nat} {recs : Nat → List Rec}
    (hd : OnDisk g d) (h : Listed g (view g d) ino recs) :
    (∀ (stk : Stack) (dentry : Dentry), 0 ∉ dentry.filename →
      dentry.filename.length < fnameLen →
      (∀ k < iBlocks ((view g d).inode ino), ∀ r ∈ recs k, r.name ≠ dentry.filename) →
      g.ValidIno dentry.iIno → (view g d).inodeUsed dentry.iIno = true → dentry.iIno ≠ ino →
      imodeToFt dentry.iMode ≠ 0 →
      (∃ k < iBlocks ((view g d).inode ino), ∃ r ∈ recs k,
        Slack (padded dentry.filename.length) r) →
      ∃ d', ext2InsertDentry g.sb d stk dentry ((view g d).inode ino) =
          some (0, (view g d).inode ino, d') ∧ OnDisk g d' ∧
        ∃ k < iBlocks ((view g d).inode ino), ∃ pre r post rs,
          FirstSlack recs (padded dentry.filename.length) k pre r post ∧
          Rewritten (view g d) (view g d') ino k rs ∧
          rs.map Rec.key = pre.map Rec.key ++
            r.key :: (dentry.filename, dentry.iIno, imodeToFt dentry.iMode) :: post.map Rec.key ∧
          Listed g (view g d') ino (Function.update recs k rs)) ∧
    ∀ (stk : Stack) (fuel k : Nat) (pre : List Rec) (r : Rec) (post : List Rec),
      k < iBlocks ((view g d).inode ino) → recs k = pre ++ r :: post → r.ft ≠ ext2FtDir →
      Owns g (view g d) r.ino → pre ≠ [] ∨ post ≠ [] →
      ∃ d', ext2RemoveDentry g.sb d stk fuel r.name ((view g d).inode ino) =
          some (0, (view g d).inode ino, d') ∧ OnDisk g d' ∧
        ∃ rs, Rewritten (view g d) (view g d') ino k rs ∧
          rs.map Rec.key = pre.map Rec.key ++ post.map Rec.key ∧
          Listed g (view g d') ino (Function.update recs k rs) := by
  constructor
  · intro stk dentry hnul hshort habsent hn hused hne hft hroom
    exact insertDentry_splits hd h stk hnul hshort habsent hn hused hne hft hroom
  · intro stk fuel k pre r post hk hsplit hfile hown hnot
    exact removeDentry_merges hd h stk fuel hk hsplit hfile hown hnot

/-! ## A directory with a file -/

/-- A well-formed directory whose blocks are full of aligned records. -/
theorem Directory.listed {g : Geometry} {v : View} {ino : Nat} (h : Directory g v ino)
    (hfull : ∀ k < iBlocks (v.inode ino), Tiles (v.dirBlock ino k) 0 (v.dirRecords ino k) 1024)
    (haligned : ∀ r ∈ v.entries ino, r.recLen % 4 = 0) (hunique : UniqueNames v ino) :
    Listed g v ino (v.dirRecords ino) := by
  refine ⟨h.owns, h.isDir, h.pos, h.le, fun k hk => ?_, hunique⟩
  refine (tiles_iff.mp (hfull k hk)).mono fun r hr hok => ?_
  exact ⟨hok.ft, hok.noNul, hok.room, haligned r (mem_entries.mpr ⟨k, hk, hr⟩)⟩

/-- The root with the two dots and a file. -/
theorem listed_fileRoot : Listed smallGroup (view smallGroup fileRootDisk) 2
    ((view smallGroup fileRootDisk).dirRecords 2) := by
  rw [view_fileRoot]
  obtain ⟨hdir, hentries, hblocks, hfull⟩ := @directory_of_format smallGroup fileRoot 2 0x41FF 7
    fileRecords (by decide) rfl rfl (by decide) (by decide) (smallGroup_isData le_rfl (by decide))
    rfl tiles_fileRecords
  apply hdir.listed
  · intro k hk
    rw [hblocks, Nat.lt_one_iff] at hk
    rw [hk]
    exact hfull
  · rw [hentries]
    decide
  · rw [UniqueNames, hentries]
    decide

theorem records_fileRoot : (view smallGroup fileRootDisk).dirRecords 2 0 = fileRecords := by
  obtain ⟨-, hentries, -, hblocks⟩ := directory_fileRoot
  rw [View.entries, hblocks] at hentries
  simpa using hentries

/-- `directory_blocks` for the root: a link to inode 12 of another name goes behind the
record of the file, and the file is removed from behind the two dots. -/
theorem directory_blocks_fileRoot :
    (∃ d', ext2InsertDentry smallGroup.sb fileRootDisk default ⟨[103], 0, 0, 12, 0x81FF⟩
        ((view smallGroup fileRootDisk).inode 2) =
          some (0, (view smallGroup fileRootDisk).inode 2, d') ∧ OnDisk smallGroup d') ∧
      ∃ d', ext2RemoveDentry smallGroup.sb fileRootDisk default 0 [102]
          ((view smallGroup fileRootDisk).inode 2) =
        some (0, (view smallGroup fileRootDisk).inode 2, d') ∧
        ∃ rs, Rewritten (view smallGroup fileRootDisk) (view smallGroup d') 2 0 rs ∧
          rs.map Rec.key = [(dot, 2, 2), (dotDot, 2, 2)] := by
  obtain ⟨-, -, -, hblocks⟩ := directory_fileRoot
  have hdisk : OnDisk smallGroup fileRootDisk := onDisk_format smallGroup fileRoot
  obtain ⟨hinsert, hremove⟩ := directory_blocks hdisk listed_fileRoot
  have hused : (view smallGroup fileRootDisk).inodeUsed 12 = true := by
    rw [view_fileRoot]
    decide
  constructor
  · obtain ⟨d', hrun, hd', -⟩ := hinsert default ⟨[103], 0, 0, 12, 0x81FF⟩ (by decide) (by decide)
      (fun k hk r hr => by
        rw [hblocks, Nat.lt_one_iff] at hk
        rw [hk, records_fileRoot] at hr
        revert r
        decide)
      (by decide) hused (by decide) (by decide)
      ⟨0, by rw [hblocks]; decide, ⟨12, 1000, 1, [102]⟩, by rw [records_fileRoot]; decide,
        show 4 + 8 + 4 + 8 < 1000 by decide⟩
    exact ⟨d', hrun, hd'⟩
  · obtain ⟨d', hrun, -, rs, hrewritten, hkeys, -⟩ := hremove default 0 0
      [⟨2, 12, 2, dot⟩, ⟨2, 12, 2, dotDot⟩] ⟨12, 1000, 1, [102]⟩ [] (by rw [hblocks]; decide)
      records_fileRoot (by decide) (owns_of_empty (by decide) hused inode_fileRoot.2)
      (Or.inl (by simp))
    exact ⟨d', hrun, rs, hrewritten, hkeys⟩

end Ext2
end NochOS
