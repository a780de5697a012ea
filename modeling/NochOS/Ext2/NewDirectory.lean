import NochOS.Ext2.Listing
import NochOS.Ext2.Mkdir

/-!
# ext2 - what a new directory holds

`imkdir` writes a whole block from a local variable and gives both of its records the
length 12, so 1000 bytes of the block are whatever the stack held.  The walks over the
directory read these bytes as further records.

Main results:

- Theorem `searchLoop_rest_iff`: searches behind the two records.
- Theorem `imkdir_never_empty`: the records never fill the block, and the directory
  acts as an empty one exactly when the stack held nothing that a walk can meet.
-/

namespace NochOS
namespace Ext2

open Library

/-! ## The bytes behind the records -/

/-- A name that neither record of an empty directory has. -/
structure OtherName (fname : List UInt8) : Prop where
  noNul : 0 ∉ fname
  nonempty : fname ≠ []
  notDot : fname ≠ dot
  notDotDot : fname ≠ dotDot

/-- The walk from an offset on meets no record of another name, and comes to an end. -/
inductive Quiet (buf : Buf) : Nat → Prop
  | ends {off : Nat} (hoff : 1024 ≤ off) : Quiet buf off
  | unused {off : Nat} (hft : dFileType buf off = 0) : Quiet buf off
  | pass {off : Nat} (hname : ¬ OtherName (dName buf off)) (hlen : dRecLen buf off ≠ 0)
      (hrest : Quiet buf (off + dRecLen buf off)) : Quiet buf off

/-- The walk depends on the bytes from the offset on. -/
theorem Quiet.congr {b b' : Buf} {off : Nat} (h : Quiet b off) (hsame : ∀ i, off ≤ i → b' i = b i) :
    Quiet b' off := by
  induction h with
  | ends hoff => exact Quiet.ends hoff
  | unused hft =>
      apply Quiet.unused
      rw [← hft, dFileType, dFileType, hsame _ (by omega)]
  | @pass off hname hlen _ ih =>
      have hrec : recAt b' off = recAt b off := recAt_congr fun i _ => hsame _ (by omega)
      have hname' : dName b' off = dName b off := congrArg Rec.name hrec
      have hlen' : dRecLen b' off = dRecLen b off := congrArg Rec.recLen hrec
      apply Quiet.pass
      · rw [hname']
        exact hname
      · rw [hlen']
        exact hlen
      · rw [hlen']
        exact ih fun i hi => hsame i (by omega)

section Rest

variable {d : Disk} {inode b : Buf}

/-- A name of a byte that is neither zero nor a dot. -/
theorem otherName_letter : OtherName [97] := ⟨by decide, by decide, by decide, by decide⟩

/-- On a quiet walk a search for another name finds nothing. -/
theorem Quiet.searchLoop (hone : iBlocks inode = 1) (hb : ext2ReadBlock d (iBlock inode 0) = b)
    {off : Nat} (h : Quiet b off) {fname : List UInt8} (hname : OtherName fname) (swp : Nat) :
    Ext2.searchLoop d inode fname 0 off swp = some .notFound := by
  induction h generalizing swp with
  | ends hoff => exact searchLoop_end (by omega) (by omega) hoff
  | @unused off hft =>
      by_cases hoff : 1024 ≤ off
      · exact searchLoop_end (by omega) (by omega) hoff
      · rw [searchLoop_at hname.noNul (by omega) (by omega)]
        simp only [hb, if_pos hft]
  | @pass off hother hlen _ ih =>
      by_cases hoff : 1024 ≤ off
      · exact searchLoop_end (by omega) (by omega) hoff
      · have hne : dName b off ≠ fname := by
          rintro rfl
          exact hother hname
        rw [searchLoop_at hname.noNul (by omega) (by omega)]
        simp only [hb, if_neg hne, if_neg hlen, ih, ite_self]

/-- When searches for all other names find nothing, the walk is quiet. -/
theorem quiet_of_searchLoop (hone : iBlocks inode = 1)
    (hb : ext2ReadBlock d (iBlock inode 0) = b) {off : Nat}
    (h : ∀ fname, OtherName fname → ∃ swp, searchLoop d inode fname 0 off swp = some .notFound) :
    Quiet b off := by
  -- the measure is the number of bytes up to the end of the block
  induction hm : 1024 - off using Nat.strong_induction_on generalizing off with
  | _ m ih =>
      by_cases hoff : 1024 ≤ off
      · exact Quiet.ends hoff
      by_cases hft : dFileType b off = 0
      · exact Quiet.unused hft
      have hat : ∀ fname, OtherName fname →
          dName b off ≠ fname ∧ dRecLen b off ≠ 0 ∧
            searchLoop d inode fname 0 (off + dRecLen b off) off = some .notFound := by
        intro fname hname
        obtain ⟨swp, hrun⟩ := h fname hname
        rw [searchLoop_at hname.noNul (by omega) (by omega)] at hrun
        simp only [hb, if_neg hft] at hrun
        by_cases hsame : dName b off = fname
        · simp [if_pos hsame] at hrun
        by_cases hlen : dRecLen b off = 0
        · simp [if_neg hsame, if_pos hlen] at hrun
        rw [if_neg hsame, if_neg hlen] at hrun
        exact ⟨hsame, hlen, hrun⟩
      have hlen := (hat _ otherName_letter).2.1
      apply Quiet.pass (fun hname => (hat _ hname).1 rfl) hlen
      exact ih _ (by omega) (fun fname hname => ⟨off, (hat fname hname).2.2⟩) rfl

end Rest

/-! ## Lookup and listing -/

/-- The record where a search ends has the length of the name. -/
theorem searchLoop_nameLen {d : Disk} {inode : Buf} {fname : List UInt8} {blk off swp k o s : Nat}
    (h : searchLoop d inode fname blk off swp = some (.found k o s)) :
    dNameLen (ext2ReadBlock d (iBlock inode k)) o = fname.length := by
  fun_induction searchLoop d inode fname blk off swp with
  | case3 =>
      rename_i hmatch
      simp only [Option.some.injEq, Search.found.injEq] at h
      obtain ⟨rfl, rfl, -⟩ := h
      exact hmatch.2.symm
  | case6 =>
      rename_i ih
      exact ih h
  | _ => simp at h

/-- The directory acts as an empty one: lookups of other names fail, and reading it
delivers the two dots. -/
structure ActsEmpty (g : Geometry) (d : Disk) (n : Nat) : Prop where
  lookup : ∀ (stk : Stack) (fname : List UInt8) (dentry : Dentry), OtherName fname →
    ilookup g.sb d stk n dentry fname = some (-1, dentry)
  listing : ∀ (calls : Nat → ReadCall) (self : File), (∀ i, fnameLen ≤ (calls i).nbytes) →
    self.iMode &&& ext2SIfdir ≠ 0 → self.iIno = n → self.fPos = 0 →
    ∀ N > 2, listDir g.sb d calls N 0 self = some [dot, dotDot]

/-- The stack holds nothing behind the two records that a walk can meet: the name
length of the third record is zero, and no record from there on has another name. -/
structure QuietRest (stk : Stack) : Prop where
  nameLen : dNameLen stk.mkdirThisDir 24 = 0
  quiet : Quiet stk.mkdirThisDir 24

/-- A directory in use with one block, which is that of a new directory. -/
structure FreshDir (g : Geometry) (d : Disk) (stk : Stack) (parent n : Nat) : Prop where
  onDisk : OnDisk g d
  valid : g.ValidIno n
  used : (view g d).inodeUsed n = true
  isDir : iMode ((view g d).inode n) &&& ext2SIfdir ≠ 0
  one : iBlocks ((view g d).inode n) = 1
  block : ext2ReadBlock d (iBlock ((view g d).inode n) 0) = newDirBlock stk n parent
  parentLt : parent < 2 ^ 32

section Fresh

variable {g : Geometry} {d : Disk} {stk : Stack} {parent n : Nat}

/-- The inode that `imkdir` has furnished. -/
theorem Furnished.fresh {v : View} (h : Furnished stk v (view g d) parent n) (hd : OnDisk g d)
    (hmeta : MetaUsed g v) (hvalid : g.ValidIno n) (hused : v.inodeUsed n = true)
    (hparent : parent < 2 ^ 32) : FreshDir g d stk parent n := by
  obtain ⟨b, hb, inode, hview, hmode, hblocks, hslot⟩ := h
  have hself : (view g d).inode n = inode := by
    rw [hview]
    exact Function.update_self _ _ _
  refine
    { onDisk := hd
      valid := hvalid
      used := ?_
      isDir := ?_
      one := ?_
      block := ?_
      parentLt := hparent }
  · rw [hview]
    exact hused
  · rw [hself, hmode]
    decide
  · rw [hself]
    exact hblocks
  · rw [hself, hslot, readBlock_eq (isData_of_free hmeta hb), hview]
    exact Function.update_self _ _ _

/-- The records of a new directory. -/
theorem FreshDir.tiles (h : FreshDir g d stk parent n) :
    Tiles (newDirBlock stk n parent) 0
      [⟨n, 12, ext2FtDir, dot⟩, ⟨parent, 12, ext2FtDir, dotDot⟩] 24 :=
  tiles_dots stk (validIno_lt h.valid) h.parentLt

/-- The records of a new directory are entries of the file system. -/
theorem dots_proper (n : Nat) :
    Rec.Proper ⟨n, 12, ext2FtDir, dot⟩ ∧ Rec.Proper ⟨n, 12, ext2FtDir, dotDot⟩ :=
  ⟨⟨by norm_num [ext2FtDir], by simp [dot], by simp [dot], by simp [dot, fnameLen], by simp [dot]⟩,
    ⟨by norm_num [ext2FtDir], by simp [dotDot], by simp [dotDot], by simp [dotDot, fnameLen],
      by simp [dotDot]⟩⟩

/-- A search for another name comes to the bytes behind the records. -/
theorem FreshDir.searchLoop (h : FreshDir g d stk parent n) {fname : List UInt8}
    (hname : OtherName fname) :
    ∃ swp, Ext2.searchLoop d ((view g d).inode n) fname 0 0 0 =
      Ext2.searchLoop d ((view g d).inode n) fname 0 24 swp := by
  have hone := h.one
  have hno : ∀ r ∈ [(⟨n, 12, ext2FtDir, dot⟩ : Rec), ⟨parent, 12, ext2FtDir, dotDot⟩],
      r.name ≠ fname := by
    intro r hr
    rw [List.mem_cons, List.mem_singleton] at hr
    cases hr with
    | inl hr => rw [hr]; exact hname.notDot.symm
    | inr hr => rw [hr]; exact hname.notDotDot.symm
  obtain ⟨swp, hpass, -⟩ := @searchLoop_pass d ((view g d).inode n) fname 0 0 0 hname.noNul
    (by omega) _ h.block _ _ h.tiles (by omega) hno
  exact ⟨swp, hpass⟩

/-- A lookup of another name fails exactly when the search finds nothing. -/
theorem FreshDir.ilookup_iff (h : FreshDir g d stk parent n) {fname : List UInt8}
    (hname : OtherName fname) (stk' : Stack) (dentry : Dentry) :
    ilookup g.sb d stk' n dentry fname = some (-1, dentry) ↔
      Ext2.searchLoop d ((view g d).inode n) fname 0 0 0 = some .notFound := by
  have hone := h.one
  have hread := readInode_eq h.onDisk h.valid h.used stk'.lookupInode
  simp only [ilookup, hread, ext2ReadDentryByName, if_neg h.isDir]
  cases hrun : Ext2.searchLoop d ((view g d).inode n) fname 0 0 0 with
  | none => simp
  | some res =>
      cases res with
      | notFound => simp
      | found blk off swp =>
          have hlen := searchLoop_nameLen hrun
          simp [hlen, hname.nonempty]

/-- Lookups of other names fail exactly when the walk behind the records is quiet. -/
theorem FreshDir.lookups_iff (h : FreshDir g d stk parent n) :
    (∀ (stk' : Stack) (fname : List UInt8) (dentry : Dentry), OtherName fname →
      ilookup g.sb d stk' n dentry fname = some (-1, dentry)) ↔ Quiet stk.mkdirThisDir 24 := by
  have hrest : ∀ i, 24 ≤ i → newDirBlock stk n parent i = stk.mkdirThisDir i := fun i hi =>
    newDirBlock_rest stk n parent hi
  constructor
  · intro hnone
    apply (quiet_of_searchLoop h.one h.block fun fname hname => ?_).congr fun i hi =>
      (hrest i hi).symm
    obtain ⟨swp, hpass⟩ := h.searchLoop hname
    exact ⟨swp, hpass.symm.trans ((h.ilookup_iff hname default default).mp (hnone _ _ _ hname))⟩
  · intro hquiet stk' fname dentry hname
    obtain ⟨swp, hpass⟩ := h.searchLoop hname
    rw [h.ilookup_iff hname, hpass]
    exact (hquiet.congr hrest).searchLoop h.one h.block hname swp

/-- The first three records of the walk to an index. -/
theorem FreshDir.indexLoop (h : FreshDir g d stk parent n) :
    Ext2.indexLoop d ((view g d).inode n) 0 0 0 = some (0, 0) ∧
      Ext2.indexLoop d ((view g d).inode n) 1 0 0 = some (0, 12) ∧
      Ext2.indexLoop d ((view g d).inode n) 2 0 0 = some (0, 24) := by
  obtain ⟨hfirst, -, hrest⟩ := h.tiles.head
  obtain ⟨hsecond, -, -⟩ := hrest.head
  have hlen : dRecLen (newDirBlock stk n parent) 0 = 12 := congrArg Rec.recLen hfirst
  have hlen' : dRecLen (newDirBlock stk n parent) 12 = 12 := congrArg Rec.recLen hsecond
  have hstart := @indexLoop_at d ((view g d).inode n) _ 0 0 h.block (by omega)
  have hnext := @indexLoop_at d ((view g d).inode n) _ 0 12 h.block (by omega)
  have hbehind := @indexLoop_at d ((view g d).inode n) _ 0 24 h.block (by omega)
  refine ⟨(hstart 0).1, ?_, ?_⟩
  · rw [(hstart 0).2, hlen]
    exact (hnext 0).1
  · rw [(hstart 1).2, hlen, (hnext 0).2, hlen']
    exact (hbehind 0).1

variable {self : File} {calls : Nat → ReadCall}

/-- Reading the directory delivers the two dots first. -/
theorem FreshDir.listDir (h : FreshDir g d stk parent n)
    (hcalls : ∀ i, fnameLen ≤ (calls i).nbytes) (hself : self.iMode &&& ext2SIfdir ≠ 0)
    (hino : self.iIno = n) (hpos : self.fPos = 0) (m : Nat) :
    Ext2.listDir g.sb d calls (m + 3) 0 self =
      (Ext2.listDir g.sb d calls (m + 1) 2 { self with fPos := 2 }).map
        (dot :: dotDot :: ·) := by
  subst hino
  have hexist : inoExist d self.iIno = 1 := by
    rw [inoExist_eq h.onDisk (validIno_le h.valid), if_pos h.used]
  have hdisk : diskInode g.sb d self.iIno = (view g d).inode self.iIno := by
    rw [diskInode, readInode_eq h.onDisk h.valid h.used]
  obtain ⟨hzero, hone, -⟩ := h.indexLoop
  obtain ⟨hfirst, -, hrest⟩ := h.tiles.head
  obtain ⟨hsecond, -, -⟩ := hrest.head
  rw [← h.block, ← hdisk] at hfirst hsecond
  rw [← hdisk] at hzero hone
  have hzero' : Ext2.indexLoop d (diskInode g.sb d self.iIno) self.fPos 0 0 = some (0, 0) := by
    rw [hpos]
    exact hzero
  obtain ⟨buf, hrun, hname⟩ := dirFread_record hself hexist hzero' hfirst
    (dots_proper self.iIno).1 (calls 0) (hcalls 0)
  obtain ⟨buf', hrun', hname'⟩ := @dirFread_record g.sb d { self with fPos := 1 } hself hexist 0 12
    hone _ hsecond (dots_proper parent).2 (calls 1) (hcalls 1)
  have hfirstPos : (self.fPos + 1) % 2 ^ 32 = 1 := by
    norm_num [hpos]
  simp only [hfirstPos] at hrun
  have hne : ¬ ((dot.length : Nat) : Int) = 0 := by decide
  have hne' : ¬ ((dotDot.length : Nat) : Int) = 0 := by decide
  rw [Ext2.listDir]
  simp only [hrun, if_neg hne, Int.toNat_natCast, hname]
  rw [Ext2.listDir]
  simp only [hrun', if_neg hne', Int.toNat_natCast, hname', Option.map_map]
  rfl

/-- The third entry is empty exactly when the stack held a zero in its place. -/
theorem FreshDir.third_iff (h : FreshDir g d stk parent n) (hself : self.iMode &&& ext2SIfdir ≠ 0)
    (hino : self.iIno = n) (hpos : self.fPos = 2) (c : ReadCall) (hbytes : fnameLen ≤ c.nbytes) :
    (dirFread g.sb d c self).1 = 0 ↔ dNameLen stk.mkdirThisDir 24 = 0 := by
  have hread := readInode_eq h.onDisk h.valid h.used c.inode
  have hlen : dNameLen (newDirBlock stk n parent) 24 = dNameLen stk.mkdirThisDir 24 := by
    rw [dNameLen, dNameLen, newDirBlock_rest stk n parent (by omega)]
  obtain ⟨-, -, htwo⟩ := h.indexLoop
  have hnat : ¬ ((dNameLen stk.mkdirThisDir 24 : Nat) : Int) = -1 := by
    omega
  simp only [dirFread, if_neg hself, hino, hpos, hread, ext2ReadDentryByIndex, htwo, h.block, hlen,
    if_neg hnat, Int.toNat_natCast]
  unfold fnameLen at hbytes
  split <;> omega

/-- A new directory acts as an empty one exactly when the stack held nothing behind the
records that a walk can meet. -/
theorem FreshDir.actsEmpty_iff (h : FreshDir g d stk parent n) :
    ActsEmpty g d n ↔ QuietRest stk := by
  constructor
  · intro hacts
    refine ⟨?_, h.lookups_iff.mp hacts.lookup⟩
    by_contra hlen
    have hdir : ext2SIfdir &&& ext2SIfdir ≠ 0 := by decide
    have hlist := hacts.listing (fun _ => ⟨default, default, default, default, fnameLen⟩)
      ⟨ext2SIfdir, n, 0, 0⟩ (fun _ => le_rfl) hdir rfl rfl 3 (by decide)
    rw [h.listDir (fun _ => le_rfl) hdir rfl rfl 0] at hlist
    have hthird := (@FreshDir.third_iff g d stk parent n ⟨ext2SIfdir, n, 0, 2⟩ h hdir rfl rfl
      ⟨default, default, default, default, fnameLen⟩ le_rfl).not.mpr hlen
    simp [Ext2.listDir] at hlist
    exact hthird hlist
  · intro hquiet
    refine ⟨h.lookups_iff.mpr hquiet.quiet, fun calls self hcalls hself hino hpos N hN => ?_⟩
    obtain ⟨m, rfl⟩ : ∃ m, N = m + 3 := ⟨N - 3, by omega⟩
    have hthird := (@FreshDir.third_iff g d stk parent n { self with fPos := 2 } h hself hino rfl
      (calls 2) (hcalls 2)).mpr hquiet.nameLen
    rw [h.listDir hcalls hself hino hpos, Ext2.listDir]
    simp [hthird]

/-- A removal of the directory is refused when the stack held a name length in the place
of the third record. -/
theorem FreshDir.iremove_refused (h : FreshDir g d stk parent n) {ino : Nat}
    (hdir : Directory g (view g d) ino) {dirname : List UInt8} (hname : 0 ∉ dirname)
    (hmem : ∃ r ∈ (view g d).entries ino, r.name = dirname)
    (hrec : ∀ r ∈ (view g d).entries ino, r.name = dirname → r.ino = n ∧ r.ft = ext2FtDir)
    (hlen : dNameLen stk.mkdirThisDir 24 ≠ 0) (stk' : Stack) (fuel : Nat) :
    iremove g.sb d stk' fuel ino dirname = some (-1, d) := by
  cases searchLoop_cases hdir hname with
  | inl hnone =>
      obtain ⟨r, hr, hrname⟩ := hmem
      exact absurd hrname (hnone.2 r hr)
  | inr hfound =>
      obtain ⟨k, off, swp, pre, r, post, hloop, hat⟩ := hfound
      obtain ⟨rfl, hft⟩ := hrec r hat.mem hat.name
      have hread := readInode_eq h.onDisk h.valid h.used stk'.removeRmDir
      have hthird : dNameLen (newDirBlock stk r.ino parent) 24 = dNameLen stk.mkdirThisDir 24 := by
        rw [dNameLen, dNameLen, newDirBlock_rest stk r.ino parent (by omega)]
      obtain ⟨-, -, htwo⟩ := h.indexLoop
      apply (@iremove_stops g d ino k off swp dirname pre post r stk' fuel h.onDisk hdir hat hloop
        hft).2 ((view g d).inode ino)
      have hnat : ((dNameLen stk.mkdirThisDir 24 : Nat) : Int) ≠ 0 := by
        omega
      simp only [removeDirectory, hread, ext2ReadDentryByIndex, htwo, h.block, hthird, if_pos hnat]

end Fresh

/-! ## The directory after `imkdir` -/

/-- An empty directory: its block is tiled by the records of the directory and of its
parent, it acts as an empty one, and the entry in the parent can be removed. -/
structure EmptyDirectory (g : Geometry) (d : Disk) (parent n : Nat) (dirname : List UInt8) :
    Prop where
  tiled : ∃ l l', TilesOf (fun _ => True) (ext2ReadBlock d (iBlock ((view g d).inode n) 0)) 0
    [⟨n, l, ext2FtDir, dot⟩, ⟨parent, l', ext2FtDir, dotDot⟩] 1024
  acts : ActsEmpty g d n
  accepted : ∃ stk fuel d', iremove g.sb d stk fuel parent dirname = some (0, d')

/-- The two records of a new directory do not fill its block. -/
theorem FreshDir.not_tiled {g : Geometry} {d : Disk} {stk : Stack} {parent n l l' : Nat}
    (h : FreshDir g d stk parent n) :
    ¬ TilesOf (fun _ => True) (ext2ReadBlock d (iBlock ((view g d).inode n) 0)) 0
      [⟨n, l, ext2FtDir, dot⟩, ⟨parent, l', ext2FtDir, dotDot⟩] 1024 := by
  intro htiled
  rw [h.block] at htiled
  obtain ⟨hfirst, -, hrest⟩ := h.tiles.head
  obtain ⟨hsecond, -, -⟩ := hrest.head
  obtain ⟨hfirst', -, hrest'⟩ := htiled.head
  have hl : l = 12 := congrArg Rec.recLen (hfirst'.symm.trans hfirst)
  subst hl
  obtain ⟨hsecond', -, hend⟩ := hrest'.head
  have hl' : l' = 12 := congrArg Rec.recLen (hsecond'.symm.trans hsecond)
  have hstop := hend.eq_of_nil
  simp only [hl'] at hstop
  omega

section After

variable {g : Geometry} {v v₁ v' : View} {ino n : Nat} {dirname : List UInt8} {stk : Stack}

/-- Furnishing a new inode leaves the other directories alone. -/
theorem Furnished.frame (hf : Furnished stk v v' ino n) {t : Nat} (h : Directory g v t)
    (hne : t ≠ n) : Directory g v' t ∧ v'.entries t = v.entries t := by
  obtain ⟨b, hb, inode, rfl, -⟩ := hf
  have hfree := (mem_freeBlocks.mp hb).2
  have hnot : ∀ c, v.blockUsed c = true → c ≠ b := by
    rintro c hc rfl
    rw [hfree] at hc
    exact absurd hc (by simp)
  apply h.frame
  · exact Function.update_of_ne hne _ _
  · exact h.owns.used
  · intro c hc
    exact (Function.update_of_ne (hnot c hc) _ _).trans hc
  · intro j hj
    have hle := h.le
    exact Function.update_of_ne (hnot _ (h.owns.data j (by unfold directCount; omega)).2) _ _

/-- The new entry is the only one with its name. -/
theorem Created.entry_new {mode : Nat} (hc : Created g v v₁ ino n mode dirname)
    (h : Directory g v ino) (hroom : HasRoom v ino (padded dirname.length))
    (hnew : ∀ r ∈ v.entries ino, r.name ≠ dirname) :
    (∃ r ∈ v₁.entries ino, r.name = dirname) ∧
      ∀ r ∈ v₁.entries ino, r.name = dirname → r.ino = n ∧ r.ft = imodeToFt mode := by
  obtain ⟨-, ⟨-, as, cs, hold, hnow⟩ | ⟨hfull, -⟩⟩ := hc.directory h
  · constructor
    · have hkey : (dirname, n, imodeToFt mode) ∈ (v₁.entries ino).map Rec.key := by
        rw [hnow]
        simp
      obtain ⟨r, hr, hrkey⟩ := List.mem_map.mp hkey
      exact ⟨r, hr, congrArg Prod.fst hrkey⟩
    · intro r hr hrname
      have hkey : r.key ∈ as ++ (dirname, n, imodeToFt mode) :: cs := by
        rw [← hnow]
        exact List.mem_map_of_mem hr
      have hother : r.key ∉ as ++ cs := by
        rw [← hold]
        intro hmem
        obtain ⟨q, hq, hqkey⟩ := List.mem_map.mp hmem
        exact hnew q hq ((congrArg Prod.fst hqkey).trans hrname)
      have heq : r.key = (dirname, n, imodeToFt mode) := by
        simp only [List.mem_append, List.mem_cons] at hkey hother
        tauto
      exact ⟨congrArg (·.2.1) heq, congrArg (·.2.2) heq⟩
  · exact absurd hroom hfull

end After

section Made

variable {g : Geometry} {d d' : Disk} {ino : Nat} {stk : Stack} {dirname : List UInt8}

/-- The directory that `imkdir` has made, with its entry in the parent. -/
theorem imkdir_fresh (hd : OnDisk g d) (hmeta : MetaUsed g (view g d))
    (hpad : PadUsed g (view g d)) (h : Directory g (view g d) ino)
    (hroom : HasRoom (view g d) ino (padded dirname.length)) (hname : NewName dirname)
    (hnew : ∀ r ∈ (view g d).entries ino, r.name ≠ dirname) {ret : Int}
    (hrun : imkdir g.sb d stk ino dirname = some (ret, d')) :
    ret = 0 ∧ ∃ n v₁, Created g (view g d) v₁ ino n 0x41FF dirname ∧ FreshDir g d' stk ino n ∧
      (dNameLen stk.mkdirThisDir 24 ≠ 0 → ∀ stk' fuel,
        iremove g.sb d' stk' fuel ino dirname = some (-1, d')) := by
  obtain ⟨hret, hd', n, v₁, hc, hf⟩ := imkdir_furnishes hd hmeta hpad h
    (fun hfull => absurd hroom hfull) hname hnew hrun
  have hused : v₁.inodeUsed n = true := by
    rw [hc.inodeUsed]
    exact Function.update_self _ _ _
  have hfresh := hf.fresh hd' (fun b hb hm => hc.used (hmeta b hb hm)) hc.valid hused
    (validIno_lt h.owns.valid)
  refine ⟨hret, n, v₁, hc, hfresh, fun hlen stk' fuel => ?_⟩
  obtain ⟨hdir₁, -⟩ := hc.directory h
  obtain ⟨hmem, hrec⟩ := hc.entry_new h hroom hnew
  obtain ⟨hdir', hentries⟩ := hf.frame hdir₁ (hc.ne h.owns.used)
  rw [← hentries] at hmem hrec
  exact hfresh.iremove_refused hdir' hname.noNul hmem hrec hlen stk' fuel

/-- `imkdir` on a new name succeeds when an inode number and a block are unused. -/
theorem imkdir_isSome (stk : Stack) (hd : OnDisk g d)
    (hmeta : MetaUsed g (view g d)) (hpad : PadUsed g (view g d)) (h : Directory g (view g d) ino)
    (hle : iBlocks ((view g d).inode ino) ≤ 11)
    (hroom : HasRoom (view g d) ino (padded dirname.length)) (hname : NewName dirname)
    (hnew : ∀ r ∈ (view g d).entries ino, r.name ≠ dirname)
    (hino : ∃ n, 1 ≤ n ∧ n ≤ searchedBits ∧ (view g d).inodeUsed n = false)
    (hblk : (view g d).freeBlocks.Nonempty) : (imkdir g.sb d stk ino dirname).isSome := by
  have hcreate := @icreate_isSome g d ino stk hd h hle { stk.mkdirDent with filename := dirname }
    hname 0x41FF hnew hino hblk
  obtain ⟨⟨ret, dent, d₁⟩, hrun⟩ := Option.isSome_iff_exists.mp hcreate
  obtain ⟨-, hd₁, -, hc⟩ := icreate_spec hd hmeta hpad h (fun _ => hle) hname (by decide)
    (by decide) hnew hrun
  obtain ⟨b, hb⟩ := hblk
  have hfree := mem_freeBlocks.mp hb
  cases hc.entry with
  | inr hfull => exact absurd hroom hfull.1
  | inl hentry =>
      have hblocks := hentry.2.1
      rcases nextFreeBlkno_spec hd₁ with ⟨-, hfull⟩ | ⟨b', d₂, hsome, -⟩
      · have hused := hfull b hfree.1.1 hfree.1.2
        rw [hblocks, hfree.2] at hused
        exact absurd hused (by simp)
      · by_cases hmany : 12 ≤ iBlocks (ext2ReadInode g.sb d₁ dent.iIno stk.mkdirDirInode).2
        · simp [imkdir, hrun, ext2AllocIblock, hmany]
        · simp [imkdir, hrun, ext2AllocIblock, hsome, hmany]

end Made

/-- The directory that `imkdir` makes is never an empty one: its two records end at byte
24 of the block.  It acts as an empty one exactly when the stack held nothing behind the
records that a walk can meet, and it cannot be removed when the stack held a name length
in the place of a third record. -/
theorem imkdir_never_empty {g : Geometry} {d d' : Disk} {ino : Nat} {stk : Stack}
    (hd : OnDisk g d) (hmeta : MetaUsed g (view g d)) (hpad : PadUsed g (view g d))
    (h : Directory g (view g d) ino) {dirname : List UInt8}
    (hroom : HasRoom (view g d) ino (padded dirname.length)) (hname : NewName dirname)
    (hnew : ∀ r ∈ (view g d).entries ino, r.name ≠ dirname) {ret : Int}
    (hrun : imkdir g.sb d stk ino dirname = some (ret, d')) :
    ∃ n v₁, Created g (view g d) v₁ ino n 0x41FF dirname ∧ FreshDir g d' stk ino n ∧
      ¬ EmptyDirectory g d' ino n dirname ∧ (ActsEmpty g d' n ↔ QuietRest stk) ∧
      (dNameLen stk.mkdirThisDir 24 ≠ 0 → ∀ stk' fuel,
        iremove g.sb d' stk' fuel ino dirname = some (-1, d')) := by
  obtain ⟨-, n, v₁, hc, hfresh, hrefused⟩ := imkdir_fresh hd hmeta hpad h hroom hname hnew hrun
  refine ⟨n, v₁, hc, hfresh, ?_, hfresh.actsEmpty_iff, hrefused⟩
  intro hempty
  obtain ⟨l, l', htiled⟩ := hempty.tiled
  exact hfresh.not_tiled htiled

/-! ## A stack with a record -/

/-- A stack whose bytes behind the two records are a record: an entry `x` of inode 5. -/
def dirtyStack : Stack :=
  { (default : Stack) with mkdirThisDir := putRecord (fun _ => 0) 24 5 1000 1 [120] }

/-- A name that is new in the root, which has room for it. -/
theorem newName_fileRoot : NewName [103] ∧
    (∀ r ∈ (view smallGroup fileRootDisk).entries 2, r.name ≠ [103]) ∧
    HasRoom (view smallGroup fileRootDisk) 2 (padded [(103 : UInt8)].length) := by
  obtain ⟨-, hentries, -⟩ := directory_fileRoot
  refine ⟨⟨by decide, by decide, by decide⟩, ?_, Or.inl ⟨⟨12, 1000, 1, [102]⟩, ?_, ?_⟩⟩
  · rw [hentries]
    decide
  · rw [hentries]
    decide
  · unfold Slack
    decide

/-- `imkdir` in the root succeeds over every stack. -/
theorem imkdir_fileRoot (stk : Stack) :
    ∃ ret d', imkdir smallGroup.sb fileRootDisk stk 2 [103] = some (ret, d') := by
  have hroot := rootWithFile_fileRoot
  obtain ⟨hdir, -, -, hblocks⟩ := directory_fileRoot
  obtain ⟨hname, hnew, hroom⟩ := newName_fileRoot
  have hsome := imkdir_isSome stk hroot.onDisk hroot.metaUsed hroot.padUsed hdir (by omega) hroom
    hname hnew ⟨13, by decide, by decide, by rw [view_fileRoot]; decide⟩
    ⟨8, mem_freeBlocks.mpr ⟨by decide, by rw [view_fileRoot]; decide⟩⟩
  obtain ⟨⟨ret, d'⟩, hrun⟩ := Option.isSome_iff_exists.mp hsome
  exact ⟨ret, d', hrun⟩

/-- `imkdir_never_empty` for a directory in the root. -/
theorem imkdir_never_empty_fileRoot :
    ∃ d' n, imkdir smallGroup.sb fileRootDisk dirtyStack 2 [103] = some (0, d') ∧
      ¬ EmptyDirectory smallGroup d' 2 n [103] := by
  have hroot := rootWithFile_fileRoot
  obtain ⟨hdir, -⟩ := directory_fileRoot
  obtain ⟨hname, hnew, hroom⟩ := newName_fileRoot
  obtain ⟨ret, d', hrun⟩ := imkdir_fileRoot dirtyStack
  obtain ⟨rfl, -⟩ := imkdir_fresh hroot.onDisk hroot.metaUsed hroot.padUsed hdir hroom hname hnew
    hrun
  obtain ⟨n, -, -, -, hnever, -⟩ := imkdir_never_empty hroot.onDisk hroot.metaUsed hroot.padUsed
    hdir hroom hname hnew hrun
  exact ⟨d', n, hrun, hnever⟩

/-- The records in a directory that was made over the stack. -/
def dirtyRecords (n : Nat) : List Rec :=
  [⟨n, 12, ext2FtDir, dot⟩, ⟨2, 12, ext2FtDir, dotDot⟩, ⟨5, 1000, 1, [120]⟩]

/-- The records of the stack and the two dots fill the block. -/
theorem FreshDir.dirty {d : Disk} {n : Nat} (h : FreshDir smallGroup d dirtyStack 2 n) :
    FullDir d ((view smallGroup d).inode n) fun _ => dirtyRecords n := by
  have hone := h.one
  have hthird : recAt (newDirBlock dirtyStack n 2) 24 = ⟨5, 1000, 1, [120]⟩ := by
    have hput : recAt (putRecord (fun _ => 0) 24 5 1000 1 [120]) 24 = ⟨5, 1000, 1, [120]⟩ :=
      recAt_putRecord _ 24 (by decide) (by decide) (by decide) (by decide)
    rw [← hput]
    apply recAt_congr
    intro i _
    exact newDirBlock_rest dirtyStack n 2 (by omega)
  refine ⟨h.isDir, by omega, by omega, fun k hk => ?_, ?_⟩
  · have hzero : k = 0 := by
      omega
    rw [hzero, h.block]
    apply ((tiles_iff.mp h.tiles).mono fun r hr _ => ?_).append
      (TilesOf.cons' hthird ⟨by decide, by decide, by decide, by decide, by decide⟩
        (TilesOf.nil 1024))
    rw [List.mem_cons, List.mem_singleton] at hr
    cases hr with
    | inl hr => rw [hr]; exact (dots_proper n).1
    | inr hr => rw [hr]; exact (dots_proper 2).2
  · rw [hone]
    simp [dirtyRecords, dot, dotDot]

/-- Over a stack with a record the new directory has an entry: a lookup finds it, it is
listed, and the directory cannot be removed. -/
theorem imkdir_dirty :
    ∃ d' n, imkdir smallGroup.sb fileRootDisk dirtyStack 2 [103] = some (0, d') ∧
      (∃ dentry, ilookup smallGroup.sb d' default n default [120] = some (0, dentry) ∧
        dentry.iIno = 5) ∧
      listDir smallGroup.sb d' (fun _ => ⟨default, default, default, default, 48⟩) 4 0
        ⟨0x41FF, n, 1024, 0⟩ = some [dot, dotDot, [120]] ∧
      iremove smallGroup.sb d' default 0 2 [103] = some (-1, d') ∧
      ¬ EmptyDirectory smallGroup d' 2 n [103] := by
  have hroot := rootWithFile_fileRoot
  obtain ⟨hdir, -⟩ := directory_fileRoot
  obtain ⟨hname, hnew, hroom⟩ := newName_fileRoot
  obtain ⟨ret, d', hrun⟩ := imkdir_fileRoot dirtyStack
  obtain ⟨rfl, n, v₁, hc, hfresh, hrefused⟩ := imkdir_fresh hroot.onDisk hroot.metaUsed
    hroot.padUsed hdir hroom hname hnew hrun
  have hfull := hfresh.dirty
  have hone := hfresh.one
  have hexist : inoExist d' n = 1 := by
    rw [inoExist_eq hfresh.onDisk (validIno_le hfresh.valid), if_pos hfresh.used]
  have hdisk : diskInode smallGroup.sb d' n = (view smallGroup d').inode n := by
    rw [diskInode, readInode_eq hfresh.onDisk hfresh.valid hfresh.used]
  refine ⟨d', n, hrun, ?_, ?_, hrefused (by decide) default 0, ?_⟩
  · have hread := readInode_eq hfresh.onDisk hfresh.valid hfresh.used (default : Stack).lookupInode
    obtain ⟨-, dentry, hlookup, hino⟩ := @FullDir.lookup_record smallGroup.sb d' _ _ hfull default
      [120] (by decide) default ⟨5, 1000, 1, [120]⟩ (by rw [hone]; simp [dirtyRecords]) rfl
    refine ⟨dentry, ?_, hino⟩
    simp [ilookup, hread, hlookup]
  · have hmode : 0x41FF &&& ext2SIfdir ≠ 0 := by decide
    have hlist := @FullDir.listDir smallGroup.sb d' (fun _ => dirtyRecords n) ⟨0x41FF, n, 1024, 0⟩
      (by rw [hdisk]; exact hfull) hmode hexist rfl
      (fun _ => ⟨default, default, default, default, 48⟩) (fun _ => le_rfl) 4
      (by rw [hdisk, hone]; simp [dirtyRecords])
    rw [hlist, hdisk, hone]
    simp [dirtyRecords]
  · intro hempty
    obtain ⟨l, l', htiled⟩ := hempty.tiled
    exact hfresh.not_tiled htiled

end Ext2
end NochOS
