import NochOS.Ext2.Create

/-!
# ext2 - removal of directory entries

A removal looks for the record of a name.  The first record of a block is replaced
by its successor, and a record further behind is annexed by the one before it.  When
the record fills its block, only the copy of the directory inode in memory changes.
The blocks and the inode of the file are released, which marks them as used.

Main results:

- Theorems `tiles_replaceFirst`, `tiles_annex`: the records after a removal.
- Theorem `iremove_cases`: the image after a removal.
- Theorem `iremove_correct_iff`: the removals that a later lookup notices.
- Theorem `iremove_only_record`: a removal that it does not notice.
-/

namespace NochOS
namespace Ext2

open Library

/-! ## The records after a removal -/

section Records

variable {buf : Buf} {stop : Nat} {q r : Rec} {pre post : List Rec}

/-- The successor takes the place of the first record. -/
theorem TilesOf.replaceFirst {P : Rec → Prop} (hP : Walkable P)
    (h : TilesOf P buf 0 (r :: q :: post) stop) (hstop : stop ≤ 1024) (hnul : 0 ∉ q.name)
    (hnew : P { q with recLen := r.recLen + q.recLen }) :
    TilesOf P (replaceFirst buf) 0 ({ q with recLen := r.recLen + q.recLen } :: post) stop ∧
      ∀ i, stop ≤ i → replaceFirst buf i = buf i := by
  obtain ⟨hr, hok, hrest⟩ := h.head
  rw [Nat.zero_add] at hrest
  obtain ⟨hq, hok', hrest'⟩ := hrest.head
  have hlen : dRecLen buf 0 = r.recLen := by
    rw [← hr]
    rfl
  have hlen' : dRecLen buf r.recLen = q.recLen := by
    rw [← hq]
    rfl
  have hname : dNameLen buf r.recLen = q.name.length := by
    rw [← hq]
    simp only [recAt, dName, length_bytesAt]
  have hlo := hP.room _ hok
  have hroom := hP.room _ hok'
  have hpad := le_padded q.name.length
  have hle := hrest'.le
  have houtside : ∀ i, r.recLen + q.recLen ≤ i → Ext2.replaceFirst buf i = buf i := fun i hi =>
    replaceFirst_outside hlen (by omega) (by omega)
  have hfirst : recAt (Ext2.replaceFirst buf) 0 = { q with recLen := r.recLen + q.recLen } := by
    rw [recAt_replaceFirst hlen (by omega) (hq ▸ hnul) (by omega), hq, hlen']
  refine ⟨TilesOf.cons' hfirst hnew ?_, fun i hi => houtside i (by omega)⟩
  rw [Nat.zero_add]
  exact hrest'.congr hP fun i hi _ => houtside i hi

/-- The successor takes the place of the first of two proper records. -/
theorem tiles_replaceFirst (h : Tiles buf 0 (r :: q :: post) stop) (hstop : stop ≤ 1024) :
    Tiles (replaceFirst buf) 0 ({ q with recLen := r.recLen + q.recLen } :: post) stop ∧
      ∀ i, stop ≤ i → replaceFirst buf i = buf i := by
  have hok : q.Ok := h.ok q (by simp)
  have hroom := hok.room
  rw [tiles_iff] at h ⊢
  exact h.replaceFirst walkable_ok hstop hok.noNul
    ⟨hok.ft, hok.name, hok.noNul, by dsimp only; omega⟩

/-- When there is no successor, the unused room grows to the whole block. -/
theorem tail_replaceFirst (h : Tiles buf 0 [r] stop) (htail : Tail buf stop) :
    Tail (replaceFirst buf) 0 := by
  obtain ⟨hr, hok, hrest⟩ := h.head
  have hstop := hrest.eq_of_nil
  rw [Nat.zero_add] at hstop
  have hlen : dRecLen buf 0 = stop := by
    rw [← hstop, ← hr]
    rfl
  have hlo := hok.recLen_ge
  refine ⟨by decide, ?_⟩
  rw [dFileType_replaceFirst hlen (by omega)]
  exact htail.2

/-- The record before takes the room of the annexed one. -/
theorem TilesOf.annex {P : Rec → Prop} (hP : Walkable P) {off swp : Nat}
    (h : TilesOf P buf 0 (pre ++ q :: r :: post) stop) (hpre : TilesOf P buf 0 pre swp)
    (hoff : TilesOf P buf 0 (pre ++ [q]) off) (hstop : stop ≤ 1024)
    (hnew : P { q with recLen := r.recLen + q.recLen }) :
    TilesOf P (annex buf off swp) 0 (pre ++ { q with recLen := r.recLen + q.recLen } :: post)
        stop ∧
      ∀ i, stop ≤ i → annex buf off swp i = buf i := by
  obtain ⟨swp', hpre', hpost⟩ := h.split
  obtain rfl := hpre.stop_eq hpre'
  obtain ⟨hq, hok, hrest⟩ := hpost.head
  obtain rfl := hoff.stop_eq (hpre.append (TilesOf.cons' hq hok (TilesOf.nil _)))
  obtain ⟨hr, hok', hrest'⟩ := hrest.head
  have hlen : dRecLen buf swp = q.recLen := by
    rw [← hq]
    rfl
  have hlen' : dRecLen buf (swp + q.recLen) = r.recLen := by
    rw [← hr]
    rfl
  have hroom := hP.room _ hok
  have hroom' := hP.room _ hok'
  have hle := hrest'.le
  have houtside : ∀ i, i < swp + 4 ∨ swp + 6 ≤ i →
      Ext2.annex buf (swp + q.recLen) swp i = buf i :=
    fun i hi => annex_outside hi
  have hhere : recAt (Ext2.annex buf (swp + q.recLen) swp) swp =
      { q with recLen := r.recLen + q.recLen } := by
    rw [recAt_annex _ _ _ (by omega), hq, hlen, hlen']
  refine ⟨(hpre.congr hP fun i _ hi => houtside i (by omega)).append (TilesOf.cons' hhere hnew ?_),
    fun i hi => houtside i (by omega)⟩
  have hsum : swp + (r.recLen + q.recLen) = swp + q.recLen + r.recLen := by omega
  dsimp only
  rw [hsum]
  exact hrest'.congr hP fun i hi _ => houtside i (by omega)

/-- The proper record before takes the room of the annexed one. -/
theorem tiles_annex {off swp : Nat} (h : Tiles buf 0 (pre ++ q :: r :: post) stop)
    (hpre : Tiles buf 0 pre swp) (hoff : Tiles buf 0 (pre ++ [q]) off) (hstop : stop ≤ 1024) :
    Tiles (annex buf off swp) 0 (pre ++ { q with recLen := r.recLen + q.recLen } :: post) stop ∧
      ∀ i, stop ≤ i → annex buf off swp i = buf i := by
  have hok : q.Ok := h.ok q (by simp)
  have hroom := hok.room
  rw [tiles_iff] at h hpre hoff ⊢
  exact h.annex walkable_ok hpre hoff hstop ⟨hok.ft, hok.name, hok.noNul, by dsimp only; omega⟩

end Records

/-! ## Released blocks -/

section Release

variable {g : Geometry} {d : Disk}

/-- Releasing a used block changes nothing. -/
theorem releaseBlkno_used (hd : OnDisk g d) {b : Nat} (hb : g.IsData b)
    (hused : (view g d).blockUsed b = true) :
    OnDisk g (releaseBlkno d b) ∧ view g (releaseBlkno d b) = view g d := by
  obtain ⟨hd', hview⟩ := view_releaseBlkno hd (isData_bounds hb)
  refine ⟨hd', ?_⟩
  rw [hview, ← hused, Function.update_eq_self]

/-- Releasing the direct blocks of an inode changes nothing. -/
theorem releaseBlocks_owned (hd : OnDisk g d) {n : Nat} (hown : Owns g (view g d) n) :
    OnDisk g (releaseBlocks ((view g d).inode n) d) ∧
      view g (releaseBlocks ((view g d).inode n) d) = view g d := by
  obtain ⟨inode, hinode⟩ : ∃ inode, inode = (view g d).inode n := ⟨_, rfl⟩
  have hrun : ∀ m ≤ directCount inode,
      OnDisk g ((List.range m).foldl (fun d i => releaseBlkno d (iBlock inode i)) d) ∧
        view g ((List.range m).foldl (fun d i => releaseBlkno d (iBlock inode i)) d) =
          view g d := by
    intro m
    induction m with
    | zero =>
        intro _
        exact ⟨hd, rfl⟩
    | succ m ih =>
        intro hm
        obtain ⟨hd₁, hview₁⟩ := ih (by omega)
        obtain ⟨hdata, hused⟩ := hown.data m (by rw [← hinode]; omega)
        rw [← hinode] at hdata hused
        rw [← hview₁] at hused
        obtain ⟨hd₂, hview₂⟩ := releaseBlkno_used hd₁ hdata hused
        rw [List.range_succ, List.foldl_append]
        exact ⟨hd₂, hview₂.trans hview₁⟩
  rw [← hinode]
  exact hrun _ le_rfl

/-- Releasing the blocks and the number of an inode changes nothing. -/
theorem release_owned (hd : OnDisk g d) {n : Nat} (hown : Owns g (view g d) n) (inode : Buf) :
    OnDisk g (releaseIno (releaseBlocks (ext2ReadInode g.sb d n inode).2 d) n) ∧
      view g (releaseIno (releaseBlocks (ext2ReadInode g.sb d n inode).2 d) n) = view g d := by
  rw [readInode_eq hd hown.valid hown.used]
  obtain ⟨hd₁, hview₁⟩ := releaseBlocks_owned hd hown
  obtain ⟨hd₂, hview₂⟩ := view_releaseIno hd₁ (validIno_le hown.valid)
  refine ⟨hd₂, ?_⟩
  rw [hview₂, hview₁, ← hown.used, Function.update_eq_self]

/-- The test for a directory that may be removed releases its first block, or stops
the removal. -/
theorem removeDirectory_cases (hd : OnDisk g d) {n : Nat} (hown : Owns g (view g d) n)
    (hpos : 1 ≤ iBlocks ((view g d).inode n)) {stk : Stack} {fuel : Nat} {inode inode' : Buf}
    {goesOn : Bool} {d' : Disk}
    (hrun : removeDirectory g.sb d stk fuel n inode = some (goesOn, inode', d')) :
    (goesOn = false ∧ d' = d) ∨ (goesOn = true ∧ OnDisk g d' ∧ view g d' = view g d) := by
  simp only [removeDirectory, readInode_eq hd hown.valid hown.used] at hrun
  split at hrun
  · simp only [Option.some.injEq, Prod.mk.injEq] at hrun
    exact Or.inl ⟨hrun.1.symm, hrun.2.2.symm⟩
  · cases hanc : ext2IsAncestor g.sb d stk fuel ((view g d).inode n) inode with
    | none =>
        rw [hanc] at hrun
        exact absurd hrun (by simp)
    | some r =>
        obtain ⟨isAncestor, inode₁⟩ := r
        rw [hanc] at hrun
        cases isAncestor with
        | true =>
            simp only [Option.some.injEq, Prod.mk.injEq] at hrun
            exact Or.inl ⟨hrun.1.symm, hrun.2.2.symm⟩
        | false =>
            simp only [Option.some.injEq, Prod.mk.injEq] at hrun
            obtain ⟨rfl, -, rfl⟩ := hrun
            obtain ⟨hdata, hused⟩ := hown.data 0 (by unfold directCount; omega)
            exact Or.inr ⟨rfl, releaseBlkno_used hd hdata hused⟩

end Release

/-! ## The image after a removal -/

/-- A buffer holds the records of a block without one of them. -/
def Dropped (v : View) (ino k : Nat) (r : Rec) (buf : Buf) : Prop :=
  ∃ recs stop as cs, Tiles buf 0 recs stop ∧
    (stop = 1024 ∨ (k + 1 = iBlocks (v.inode ino) ∧ Tail buf stop)) ∧
    (v.dirRecords ino k).map Rec.key = as ++ r.key :: cs ∧ recs.map Rec.key = as ++ cs

/-- One block of the directory is tiled anew: it has one entry less. -/
def Unlinked (v v' : View) (ino : Nat) (r : Rec) : Prop :=
  ∃ k < iBlocks (v.inode ino), ∃ buf, Dropped v ino k r buf ∧
    v' = { v with data := Function.update v.data (iBlock (v.inode ino) k) buf }

section Removal

variable {g : Geometry} {d : Disk} {ino k off swp : Nat} {fname : List UInt8}
  {pre post : List Rec} {r : Rec}

/-- The record that was found is proper and ends in its block. -/
theorem FoundAt.inside {v : View} (h : Directory g v ino)
    (hat : FoundAt v ino fname k off swp pre r post) :
    r.Ok ∧ off + r.recLen ≤ 1024 ∧ dRecLen (v.dirBlock ino k) off = r.recLen := by
  obtain ⟨stop, htiles, hend⟩ := h.tiled k hat.block
  rw [hat.split] at htiles
  obtain ⟨off', hpre, hpost⟩ := htiles.split
  obtain rfl := hat.before.stop_eq hpre
  obtain ⟨-, hok, hrest⟩ := hpost.head
  have hle := hrest.le
  refine ⟨hok, ?_, ?_⟩
  · rcases hend with hend | hend
    · omega
    · have hroom := hend.2.1
      omega
  · rw [← hat.here]
    rfl

/-- Replacing the first record by its successor drops it. -/
theorem dropped_replaceFirst {v : View} (h : Directory g v ino)
    (hat : FoundAt v ino fname k 0 swp pre r post) (hlen : r.recLen ≠ blocksize) :
    Dropped v ino k r (replaceFirst (v.dirBlock ino k)) := by
  obtain ⟨stop, htiles, hend⟩ := h.tiled k hat.block
  have hstop : stop ≤ 1024 := stop_le (hend.imp_right And.right)
  have hpre : pre = [] := by
    cases pre with
    | nil => rfl
    | cons q pre =>
        obtain ⟨-, hok, hrest⟩ := hat.before.head
        have hlo := hok.recLen_ge
        have hle := hrest.le
        omega
  have hsplit := hat.split
  rw [hpre, List.nil_append] at hsplit
  rw [hsplit] at htiles
  cases post with
  | nil =>
      rcases hend with rfl | ⟨hlast, htail⟩
      · have hfull := htiles.head.2.2.eq_of_nil
        rw [Nat.zero_add] at hfull
        exact absurd hfull hlen
      · exact ⟨[], 0, [], [], Tiles.nil 0, Or.inr ⟨hlast, tail_replaceFirst htiles htail⟩,
          by rw [hsplit]; rfl, rfl⟩
  | cons q post =>
      obtain ⟨hnew, hbehind⟩ := tiles_replaceFirst htiles hstop
      refine ⟨_, stop, [], (q :: post).map Rec.key, hnew, ?_, by rw [hsplit]; rfl,
        by simp [Rec.key]⟩
      exact hend.imp id (And.imp_right fun htail => htail.congr hbehind)

/-- Annexing a record drops it. -/
theorem dropped_annex {v : View} (h : Directory g v ino)
    (hat : FoundAt v ino fname k off swp pre r post) (hoff : off ≠ 0) :
    Dropped v ino k r (annex (v.dirBlock ino k) off swp) := by
  obtain ⟨stop, htiles, hend⟩ := h.tiled k hat.block
  have hstop : stop ≤ 1024 := stop_le (hend.imp_right And.right)
  rcases hat.last with ⟨-, hzero⟩ | ⟨pre', q, rfl, hpre', hq⟩
  · exact absurd hzero hoff
  · have hsplit := hat.split
    rw [List.append_assoc, List.singleton_append] at hsplit
    rw [hsplit] at htiles
    obtain ⟨hnew, hbehind⟩ := tiles_annex htiles hpre' hat.before hstop
    refine ⟨_, stop, (pre' ++ [q]).map Rec.key, post.map Rec.key, hnew, ?_, ?_, ?_⟩
    · exact hend.imp id (And.imp_right fun htail => htail.congr hbehind)
    · rw [hsplit]
      simp
    · simp [Rec.key]

/-- The image after the record was removed: nothing has changed when it filled its
block. -/
def Removed (v v' : View) (ino : Nat) (r : Rec) : Prop :=
  (r.recLen = blocksize ∧ v' = v) ∨ (r.recLen ≠ blocksize ∧ Unlinked v v' ino r)

variable {stk : Stack} {fuel : Nat}

/-- `iremove` at the record of a file, or of a directory that may be removed. -/
theorem iremove_goesOn (hd : OnDisk g d) (h : Directory g (view g d) ino)
    (hat : FoundAt (view g d) ino fname k off swp pre r post)
    (hfound : searchLoop d ((view g d).inode ino) fname 0 0 0 = some (.found k off swp))
    (hown : Owns g (view g d) r.ino) {inode₁ : Buf} {d₁ : Disk} (hd₁ : OnDisk g d₁)
    (hview₁ : view g d₁ = view g d)
    (hdir : (if r.ft = ext2FtDir then removeDirectory g.sb d stk fuel r.ino ((view g d).inode ino)
      else some (true, (view g d).inode ino, d)) = some (true, inode₁, d₁)) :
    ∃ d', iremove g.sb d stk fuel ino fname = some (0, d') ∧ OnDisk g d' ∧
      Removed (view g d) (view g d') ino r := by
  have hread := readInode_eq hd h.owns.valid h.owns.used stk.removeInode
  obtain ⟨hok, hin, hrecLen⟩ := hat.inside h
  have hlo := hok.recLen_ge
  have hft : dFileType ((view g d).dirBlock ino k) off = r.ft := by
    rw [← hat.here]
    rfl
  have hino : dInode ((view g d).dirBlock ino k) off = r.ino := by
    rw [← hat.here]
    rfl
  obtain ⟨hdata, hused⟩ := h.owns.data k (by
    have hk := hat.block
    have hle := h.le
    unfold directCount
    omega)
  rw [← hview₁] at hown
  obtain ⟨hd₂, hview₂⟩ := release_owned hd₁ hown stk.removeTheInode
  rw [hview₁] at hview₂
  simp only [iremove, hread, ext2RemoveDentry, if_neg h.isDir, hfound, h.readBlock hat.block, hft,
    hino, hrecLen, hdir]
  by_cases hoff : off = 0
  · subst hoff
    by_cases hlen : r.recLen = blocksize
    · rw [if_neg (by simp [hlen]), if_pos rfl]
      obtain ⟨hd₃, hview₃⟩ := releaseBlkno_used hd₂ hdata (by rw [hview₂]; exact hused)
      refine ⟨_, rfl, hd₃.writeData hdata _, Or.inl ⟨hlen, ?_⟩⟩
      rw [view_writeBlock hdata, hview₃, hview₂, View.dirBlock, Function.update_eq_self]
    · rw [if_pos ⟨rfl, hlen⟩]
      refine ⟨_, rfl, hd₂.writeData hdata _, Or.inr ⟨hlen, k, hat.block, _,
        dropped_replaceFirst h hat hlen, ?_⟩⟩
      rw [view_writeBlock hdata, hview₂]
  · have hlen : r.recLen ≠ blocksize := by
      unfold blocksize
      omega
    rw [if_neg (by simp [hoff]), if_neg hoff]
    refine ⟨_, rfl, hd₂.writeData hdata _, Or.inr ⟨hlen, k, hat.block, _,
      dropped_annex h hat hoff, ?_⟩⟩
    rw [view_writeBlock hdata, hview₂]

/-- `iremove` at the record of a directory that is not removed. -/
theorem iremove_stops (hd : OnDisk g d) (h : Directory g (view g d) ino)
    (hat : FoundAt (view g d) ino fname k off swp pre r post)
    (hfound : searchLoop d ((view g d).inode ino) fname 0 0 0 = some (.found k off swp))
    (hft : r.ft = ext2FtDir) :
    (removeDirectory g.sb d stk fuel r.ino ((view g d).inode ino) = none →
        iremove g.sb d stk fuel ino fname = none) ∧
      ∀ inode₁ d₁,
        removeDirectory g.sb d stk fuel r.ino ((view g d).inode ino) = some (false, inode₁, d₁) →
        iremove g.sb d stk fuel ino fname = some (-1, d₁) := by
  have hread := readInode_eq hd h.owns.valid h.owns.used stk.removeInode
  have hft' : dFileType ((view g d).dirBlock ino k) off = ext2FtDir := by
    rw [← hft, ← hat.here]
    rfl
  have hino : dInode ((view g d).dirBlock ino k) off = r.ino := by
    rw [← hat.here]
    rfl
  constructor
  · intro hdir
    simp only [iremove, hread, ext2RemoveDentry, if_neg h.isDir, hfound, h.readBlock hat.block,
      hft', hino, if_pos, hdir]
  · intro inode₁ d₁ hdir
    simp only [iremove, hread, ext2RemoveDentry, if_neg h.isDir, hfound, h.readBlock hat.block,
      hft', hino, if_pos, hdir]

/-- `iremove` on a name that no entry has fails and changes nothing. -/
theorem iremove_missing (hd : OnDisk g d) (h : Directory g (view g d) ino) (hname : 0 ∉ fname)
    (hno : ∀ r ∈ (view g d).entries ino, r.name ≠ fname) :
    iremove g.sb d stk fuel ino fname = some (-1, d) := by
  have hread := readInode_eq hd h.owns.valid h.owns.used stk.removeInode
  rcases searchLoop_cases h hname with ⟨hnone, -⟩ | ⟨k, off, swp, pre, r, post, -, hat⟩
  · simp only [iremove, hread, ext2RemoveDentry, if_neg h.isDir, hnone]
  · exact absurd hat.name (hno r hat.mem)

/-- `iremove` on the name of a file removes its record. -/
theorem iremove_file (hd : OnDisk g d) (h : Directory g (view g d) ino) (hname : 0 ∉ fname)
    (hsome : ∃ r ∈ (view g d).entries ino, r.name = fname)
    (hfile : ∀ r ∈ (view g d).entries ino, r.name = fname →
      r.ft ≠ ext2FtDir ∧ Owns g (view g d) r.ino) :
    ∃ d', iremove g.sb d stk fuel ino fname = some (0, d') ∧ OnDisk g d' ∧
      ∃ r ∈ (view g d).entries ino, r.name = fname ∧ Removed (view g d) (view g d') ino r := by
  rcases searchLoop_cases h hname with ⟨-, hno⟩ | ⟨k, off, swp, pre, r, post, hfound, hat⟩
  · obtain ⟨r, hr, hrname⟩ := hsome
    exact absurd hrname (hno r hr)
  · obtain ⟨hft, hown⟩ := hfile r hat.mem hat.name
    obtain ⟨d', hrun, hd', hremoved⟩ := @iremove_goesOn g d ino k off swp fname pre post r stk
      fuel hd h hat hfound hown ((view g d).inode ino) d hd rfl (if_neg hft)
    exact ⟨d', hrun, hd', r, hat.mem, hat.name, hremoved⟩

/-- The end of `iremove`: it changes nothing, or removes the record of the name. -/
theorem iremove_cases (hd : OnDisk g d) (h : Directory g (view g d) ino) (hname : 0 ∉ fname)
    (hfile : ∀ r ∈ (view g d).entries ino, r.name = fname →
      Owns g (view g d) r.ino ∧ (r.ft = ext2FtDir → 1 ≤ iBlocks ((view g d).inode r.ino)))
    {ret : Int} {d' : Disk} (hrun : iremove g.sb d stk fuel ino fname = some (ret, d')) :
    (ret = -1 ∧ d' = d) ∨ (ret = 0 ∧ OnDisk g d' ∧
      ∃ r ∈ (view g d).entries ino, r.name = fname ∧ Removed (view g d) (view g d') ino r) := by
  rcases searchLoop_cases h hname with ⟨-, hno⟩ | ⟨k, off, swp, pre, r, post, hfound, hat⟩
  · rw [iremove_missing hd h hname hno] at hrun
    simp only [Option.some.injEq, Prod.mk.injEq] at hrun
    exact Or.inl ⟨hrun.1.symm, hrun.2.symm⟩
  · obtain ⟨hown, hpos⟩ := hfile r hat.mem hat.name
    -- what the removal does when the test lets it go on
    have hgoes : ∀ inode₁ d₁, OnDisk g d₁ → view g d₁ = view g d →
        (if r.ft = ext2FtDir then removeDirectory g.sb d stk fuel r.ino ((view g d).inode ino)
          else some (true, (view g d).inode ino, d)) = some (true, inode₁, d₁) →
        ret = 0 ∧ OnDisk g d' ∧ ∃ r ∈ (view g d).entries ino, r.name = fname ∧
          Removed (view g d) (view g d') ino r := by
      intro inode₁ d₁ hd₁ hview₁ hdir
      obtain ⟨d'', hrun', hd'', hremoved⟩ := iremove_goesOn hd h hat hfound hown hd₁ hview₁ hdir
      rw [hrun'] at hrun
      simp only [Option.some.injEq, Prod.mk.injEq] at hrun
      obtain ⟨rfl, rfl⟩ := hrun
      exact ⟨rfl, hd'', r, hat.mem, hat.name, hremoved⟩
    by_cases hft : r.ft = ext2FtDir
    · obtain ⟨hnone, hfalse⟩ := @iremove_stops g d ino k off swp fname pre post r stk fuel hd h
        hat hfound hft
      cases hdir : removeDirectory g.sb d stk fuel r.ino ((view g d).inode ino) with
      | none =>
          rw [hnone hdir] at hrun
          exact absurd hrun (by simp)
      | some res =>
          obtain ⟨goesOn, inode₁, d₁⟩ := res
          rcases removeDirectory_cases hd hown (hpos hft) hdir with
            ⟨rfl, rfl⟩ | ⟨rfl, hd₁, hview₁⟩
          · rw [hfalse _ _ hdir] at hrun
            simp only [Option.some.injEq, Prod.mk.injEq] at hrun
            exact Or.inl ⟨hrun.1.symm, hrun.2.symm⟩
          · exact Or.inr (hgoes _ _ hd₁ hview₁ ((if_pos hft).trans hdir))
    · exact Or.inr (hgoes _ _ hd rfl (if_neg hft))

end Removal

/-! ## The directory after a removal -/

section After

variable {g : Geometry} {v v' : View} {ino : Nat} {r : Rec}

/-- After a removal the directory is well-formed, and it has one entry less unless its
record filled a block. -/
theorem Removed.directory (hr : Removed v v' ino r) (h : Directory g v ino) :
    Directory g v' ino ∧ ((r.recLen = blocksize ∧ v' = v) ∨
      (r.recLen ≠ blocksize ∧ ∃ as cs, (v.entries ino).map Rec.key = as ++ r.key :: cs ∧
        (v'.entries ino).map Rec.key = as ++ cs)) := by
  rcases hr with ⟨hlen, rfl⟩ | ⟨hlen, k, hk, buf, ⟨recs, stop, as, cs, htiles, hend, hold, hnew⟩,
    hview⟩
  · exact ⟨h, Or.inl ⟨hlen, rfl⟩⟩
  · have hle := h.le
    have hslot : ∀ j < iBlocks (v.inode ino), j < directCount (v.inode ino) := fun j hj => by
      unfold directCount
      omega
    have hdata : ∀ j < iBlocks (v.inode ino), v'.data (iBlock (v.inode ino) j) =
        if j = k then buf else v.data (iBlock (v.inode ino) j) := by
      intro j hj
      rw [hview]
      by_cases hjk : j = k
      · rw [if_pos hjk, hjk]
        exact Function.update_self _ _ _
      · rw [if_neg hjk]
        exact Function.update_of_ne
          (fun heq => hjk (h.owns.inj j (hslot j hj) k (hslot k hk) heq)) _ _
    have hinode : v'.inode ino = v.inode ino := by rw [hview]
    obtain ⟨hdir, hhere, hother⟩ := h.edit hk hinode (by rw [hview]; exact h.owns.used)
      (fun b hb => by rw [hview]; exact hb) hdata htiles hend
    obtain ⟨as', cs', hbefore, hafter⟩ := entries_edit hk hinode hother
    refine ⟨hdir, Or.inr ⟨hlen, as'.map Rec.key ++ as, cs ++ cs'.map Rec.key, ?_, ?_⟩⟩
    · rw [hbefore, List.map_append, List.map_append, hold]
      simp
    · rw [hafter, List.map_append, List.map_append, hhere, hnew]
      simp

end After

/-! ## Removals and lookups -/

section Correct

variable {g : Geometry} {d : Disk} {ino : Nat} {fname : List UInt8}

/-- What a removal promises: a name that is missing is refused and nothing changes; a
name that is present is missing afterwards, and all other names resolve as before. -/
def RemovesEntry (g : Geometry) (d : Disk) (stk : Stack) (fuel ino : Nat) (fname : List UInt8) :
    Prop :=
  ∃ ret d', iremove g.sb d stk fuel ino fname = some (ret, d') ∧
    (Missing g d ino fname → ret = -1 ∧ d' = d) ∧
    ∀ n, Resolves g d ino fname n → ret = 0 ∧ Missing g d' ino fname ∧
      ∀ name m, 0 ∉ name → name ≠ fname → (Resolves g d' ino name m ↔ Resolves g d ino name m)

/-- In a well-formed directory the removal of a file keeps its promise exactly when the
record of the file does not fill its block. -/
theorem iremove_correct_iff (hd : OnDisk g d) (h : Directory g (view g d) ino)
    (hunique : UniqueNames (view g d) ino) (stk : Stack) (fuel : Nat) (hname : 0 ∉ fname)
    (hfile : ∀ r ∈ (view g d).entries ino, r.name = fname →
      r.ft ≠ ext2FtDir ∧ Owns g (view g d) r.ino) :
    RemovesEntry g d stk fuel ino fname ↔
      ∀ r ∈ (view g d).entries ino, r.name = fname → r.recLen ≠ blocksize := by
  by_cases hpresent : ∃ r ∈ (view g d).entries ino, r.name = fname
  · obtain ⟨d', hrun, hd', r, hr, hrname, hremoved⟩ :=
      @iremove_file g d ino fname stk fuel hd h hname hpresent hfile
    have hres : Resolves g d ino fname r.ino :=
      (resolves_iff hd h hunique hname).mpr ⟨r, hr, hrname, rfl⟩
    obtain ⟨hdir, ⟨hlen, hsame⟩ | ⟨hlen, as, cs, hold, hnew⟩⟩ := hremoved.directory h
    · -- the directory on the device is the one it was
      refine iff_of_false ?_ fun hall => hall r hr hrname hlen
      rintro ⟨ret, d'', hrun', -, hremoves⟩
      rw [hrun] at hrun'
      simp only [Option.some.injEq, Prod.mk.injEq] at hrun'
      obtain ⟨rfl, rfl⟩ := hrun'
      have hmiss := (missing_iff hd' hdir hname).mp (hremoves r.ino hres).2.1
      rw [hsame] at hmiss
      exact hmiss r hr hrname
    · have hnames := names_of_keys hold
      have hnames' := names_of_keys hnew
      have hnodup := hunique
      unfold UniqueNames at hnodup
      rw [hnames] at hnodup
      simp only [List.map_append, List.map_cons] at hnodup
      rw [List.nodup_middle, List.nodup_cons] at hnodup
      have hunique' : UniqueNames (view g d') ino := by
        unfold UniqueNames
        rw [hnames', List.map_append]
        exact hnodup.2
      refine iff_of_true ⟨0, d', hrun, fun hmiss => ?_, fun n _ => ⟨rfl, ?_, ?_⟩⟩ ?_
      · exact absurd hrname ((missing_iff hd h hname).mp hmiss r hr)
      · rw [missing_iff hd' hdir hname]
        intro r' hr' hrname'
        have hmem : r'.name ∈ as.map Prod.fst ++ cs.map Prod.fst := by
          rw [← List.map_append, ← hnames']
          exact List.mem_map_of_mem hr'
        apply hnodup.1
        rw [hrname', ← hrname] at hmem
        exact hmem
      · intro name m hnul hne
        rw [resolves_iff_key hd' hdir hunique' hnul, resolves_iff_key hd h hunique hnul, hold, hnew]
        -- an entry of another name is not the one that was removed
        have hother : ∀ ft, (name, m, ft) ≠ r.key := by
          intro ft heq
          have hfst := congrArg Prod.fst heq
          exact hne (hfst.trans hrname)
        simp only [List.mem_append, List.mem_cons, hother, false_or]
      · intro r' hr' hrname'
        rw [hunique.eq hr' hr (hrname'.trans hrname.symm)]
        exact hlen
  · have hno : ∀ r ∈ (view g d).entries ino, r.name ≠ fname := fun r hr hrname =>
      hpresent ⟨r, hr, hrname⟩
    have hmiss := (missing_iff hd h hname).mpr hno
    refine iff_of_true ⟨-1, d, iremove_missing hd h hname hno, fun _ => ⟨rfl, rfl⟩,
      fun n hres => ?_⟩ fun r hr hrname => absurd hrname (hno r hr)
    obtain ⟨r, hr, hrname, -⟩ := (resolves_iff hd h hunique hname).mp hres
    exact absurd hrname (hno r hr)

end Correct

/-! ## A record that fills its block -/

/-- The records of the two blocks: the two dots, and one link to inode 12. -/
def sparseRecords (k : Nat) : List Rec :=
  if k = 0 then [⟨2, 12, 2, dot⟩, ⟨2, 1012, 2, dotDot⟩] else [⟨12, 1024, 1, [102]⟩]

/-- An image whose root directory has the blocks 7 and 8. -/
def sparseRoot : View where
  blockUsed b := decide (b ≤ 8)
  inodeUsed ino := decide (ino ≤ 12 ∨ 16 < ino)
  inode ino := if ino = 2 then newInode 0x41FF (2 * blocksize) [7, 8] else newInode 0x81FF 0 []
  data b := layOut 0 (sparseRecords (b - 7)) fun _ => 0

/-- The image on a device. -/
def sparseRootDisk : Disk := format smallGroup sparseRoot

theorem onDisk_sparseRoot : OnDisk smallGroup sparseRootDisk := onDisk_format _ _

theorem view_sparseRoot : view smallGroup sparseRootDisk = sparseRoot.trim smallGroup :=
  view_format _ _

theorem tiles_sparseRecords (k : Nat) (buf : Buf) :
    Tiles (layOut 0 (sparseRecords k) buf) 0 (sparseRecords k) 1024 := by
  by_cases hk : k = 0
  · have hrecs : sparseRecords k = [⟨2, 12, 2, dot⟩, ⟨2, 1012, 2, dotDot⟩] := if_pos hk
    rw [hrecs]
    apply tiles_layOut
    intro r hr
    simp only [List.mem_cons, List.not_mem_nil, or_false] at hr
    rcases hr with rfl | rfl
    · exact ⟨⟨by decide, by decide, by decide, by decide⟩, by decide⟩
    · exact ⟨⟨by decide, by decide, by decide, by decide⟩, by decide⟩
  · have hrecs : sparseRecords k = [⟨12, 1024, 1, [102]⟩] := if_neg hk
    rw [hrecs]
    apply tiles_layOut
    intro r hr
    rw [List.mem_singleton.mp hr]
    exact ⟨⟨by decide, by decide, by decide, by decide⟩, by decide⟩

theorem directory_sparseRoot : Directory smallGroup (view smallGroup sparseRootDisk) 2 ∧
    (view smallGroup sparseRootDisk).entries 2 = sparseRecords 0 ++ sparseRecords 1 ∧
    iBlocks ((view smallGroup sparseRootDisk).inode 2) = 2 := by
  rw [view_sparseRoot]
  have hdata : ∀ b ∈ [7, 8], smallGroup.IsData b ∧ sparseRoot.blockUsed b = true := by
    intro b hb
    simp only [List.mem_cons, List.not_mem_nil, or_false] at hb
    rcases hb with rfl | rfl
    · exact ⟨smallGroup_isData le_rfl (by decide), rfl⟩
    · exact ⟨smallGroup_isData (by decide) (by decide), rfl⟩
  obtain ⟨hdir, hblocks, hrecs⟩ := @directory_of_blocks smallGroup sparseRoot 2 0x41FF
    (2 * blocksize) [7, 8] sparseRecords (by decide) rfl rfl (by decide) (by decide) (by decide)
    (by decide) (by decide) (by decide) hdata (fun k hk => by
      have htwo : k = 0 ∨ k = 1 := by
        simp only [List.length_cons, List.length_nil] at hk
        omega
      rcases htwo with rfl | rfl
      · exact tiles_sparseRecords 0 _
      · exact tiles_sparseRecords 1 _)
  have hlen : [7, 8].length = 2 := rfl
  rw [hlen] at hblocks
  refine ⟨hdir, ?_, hblocks⟩
  rw [View.entries, hblocks]
  simp [List.range_succ, (hrecs 0 (by decide)).1, (hrecs 1 (by decide)).1]

theorem uniqueNames_sparseRoot : UniqueNames (view smallGroup sparseRootDisk) 2 := by
  rw [UniqueNames, directory_sparseRoot.2.1]
  decide

theorem metaUsed_sparseRoot : MetaUsed smallGroup (view smallGroup sparseRootDisk) := by
  rw [view_sparseRoot]
  apply metaUsed_smallGroup
  intro b hb
  exact decide_eq_true (show b ≤ 8 by omega)

theorem padUsed_sparseRoot : PadUsed smallGroup (view smallGroup sparseRootDisk) := by
  rw [view_sparseRoot]
  apply padUsed_smallGroup
  intro n hn
  exact decide_eq_true (Or.inr hn)

/-- The file in the second block is empty. -/
theorem inode_sparseRoot : iMode ((view smallGroup sparseRootDisk).inode 12) = 0x81FF ∧
    iBlocks ((view smallGroup sparseRootDisk).inode 12) = 0 := by
  rw [view_sparseRoot]
  obtain ⟨hmode, -, hblocks, -⟩ := @View.fields_trim smallGroup sparseRoot 12 0x81FF 0
    [] (by decide) rfl (by decide) (by decide) (by decide) (by simp)
  exact ⟨hmode, hblocks⟩

/-- The inode of the file owns its blocks: it has none. -/
theorem owns_sparseRoot : Owns smallGroup (view smallGroup sparseRootDisk) 12 :=
  owns_of_empty (by decide) (by rw [view_sparseRoot]; decide) inode_sparseRoot.2

theorem file_sparseRoot : ∀ r ∈ (view smallGroup sparseRootDisk).entries 2, r.name = [102] →
    r = ⟨12, 1024, 1, [102]⟩ := by
  rw [directory_sparseRoot.2.1]
  decide

/-- `iremove_correct_iff` for the file in the second block. -/
theorem iremove_correct_sparseRoot :
    RemovesEntry smallGroup sparseRootDisk default 0 2 [102] ↔
      ∀ r ∈ (view smallGroup sparseRootDisk).entries 2, r.name = [102] → r.recLen ≠ blocksize :=
  iremove_correct_iff onDisk_sparseRoot directory_sparseRoot.1 uniqueNames_sparseRoot default 0
    (by decide) fun r hr hrname => by
      rw [file_sparseRoot r hr hrname]
      exact ⟨by decide, owns_sparseRoot⟩

/-- Removing the file in the second block reports success, and its name resolves to the
released inode afterwards. -/
theorem iremove_only_record :
    ∃ d', iremove smallGroup.sb sparseRootDisk default 0 2 [102] = some (0, d') ∧
      Resolves smallGroup sparseRootDisk 2 [102] 12 ∧ Resolves smallGroup d' 2 [102] 12 := by
  obtain ⟨hdir, hentries, -⟩ := directory_sparseRoot
  have hentry : ⟨12, 1024, 1, [102]⟩ ∈ (view smallGroup sparseRootDisk).entries 2 := by
    rw [hentries]
    decide
  obtain ⟨d', hrun, hd', r, hr, hrname, hremoved⟩ := @iremove_file smallGroup sparseRootDisk 2
    [102] default 0 onDisk_sparseRoot hdir (by decide) ⟨_, hentry, rfl⟩ fun r hr hrname => by
      rw [file_sparseRoot r hr hrname]
      exact ⟨by decide, owns_sparseRoot⟩
  obtain rfl := file_sparseRoot r hr hrname
  obtain ⟨hdir', ⟨-, hsame⟩ | ⟨hlen, -⟩⟩ := hremoved.directory hdir
  · have hunique' : UniqueNames (view smallGroup d') 2 := by
      rw [hsame]
      exact uniqueNames_sparseRoot
    refine ⟨d', hrun, ?_, ?_⟩
    · exact (resolves_iff onDisk_sparseRoot hdir uniqueNames_sparseRoot (by decide)).mpr
        ⟨_, hentry, rfl, rfl⟩
    · rw [resolves_iff hd' hdir' hunique' (by decide), hsame]
      exact ⟨_, hentry, rfl, rfl⟩
  · exact absurd rfl hlen

end Ext2
end NochOS
