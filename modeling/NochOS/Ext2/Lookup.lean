import NochOS.Ext2.Records
import NochOS.Ext2.Format
import Mathlib.Data.List.TakeWhile

/-!
# ext2 - directories as lists of entries

A well-formed directory owns its blocks, and records tile each of them; the last
block may end in unused room.  Its entries are the records of its blocks in order.
The search of the source stops at the first entry of a name, so a lookup resolves
a name to the inode number of that entry.

Main results:

- Definition `View.entries`, structure `Directory`.
- Theorem `searchLoop_cases`: the end of a search.
- Theorems `ilookup_cases`, `ilookup_filled`: what a lookup answers and fills in.
- Theorem `Directory.edit`: a directory after one of its blocks was tiled anew.
-/

namespace NochOS
namespace Ext2

open Library

/-! ## Entries -/

/-- The records of a block from an offset on. -/
def records (buf : Buf) (off : Nat) : List Rec :=
  if 1024 ≤ off ∨ dFileType buf off = 0 ∨ dRecLen buf off = 0 then []
  else recAt buf off :: records buf (off + dRecLen buf off)
termination_by 1024 - off
decreasing_by omega

/-- Unused room at the end of a block, enough for a record of any name. -/
def Tail (buf : Buf) (stop : Nat) : Prop := stop + 8 + fnameLen ≤ 1024 ∧ dFileType buf stop = 0

/-- The unused room only depends on the bytes from its start on. -/
theorem Tail.congr {buf buf' : Buf} {stop : Nat} (h : Tail buf stop)
    (heq : ∀ i, stop ≤ i → buf' i = buf i) : Tail buf' stop := by
  refine ⟨h.1, ?_⟩
  rw [dFileType, heq (stop + 7) (Nat.le_add_right _ _)]
  exact h.2

/-- The records of a block end inside it. -/
theorem stop_le {buf : Buf} {stop : Nat} (hend : stop = 1024 ∨ Tail buf stop) : stop ≤ 1024 := by
  rcases hend with hend | hend
  · exact hend.le
  · have hroom := hend.1
    omega

/-- The records that tile a block are the ones read from it. -/
theorem Tiles.records_eq {buf : Buf} {off stop : Nat} {recs : List Rec}
    (h : Tiles buf off recs stop) (hend : stop = 1024 ∨ Tail buf stop) :
    records buf off = recs := by
  induction h with
  | nil off =>
      rw [records, if_pos]
      rcases hend with hend | hend
      · exact Or.inl hend.ge
      · exact Or.inr (Or.inl hend.2)
  | @cons off stop rs hok hrest ih =>
      have hlen : 12 ≤ dRecLen buf off := hok.recLen_ge
      have hle : off + dRecLen buf off ≤ stop := hrest.le
      have hstop : stop ≤ 1024 := stop_le hend
      have hft : dFileType buf off ≠ 0 := hok.ft
      rw [records, if_neg (by omega)]
      congr 1
      exact ih hend

/-- A block of a directory. -/
def View.dirBlock (v : View) (ino k : Nat) : Buf := v.data (iBlock (v.inode ino) k)

/-- The records of a block of a directory. -/
def View.dirRecords (v : View) (ino k : Nat) : List Rec := records (v.dirBlock ino k) 0

/-- The entries of a directory. -/
def View.entries (v : View) (ino : Nat) : List Rec :=
  (List.range (iBlocks (v.inode ino))).flatMap (v.dirRecords ino)

theorem mem_entries {v : View} {ino : Nat} {r : Rec} :
    r ∈ v.entries ino ↔ ∃ k < iBlocks (v.inode ino), r ∈ v.dirRecords ino k := by
  simp [View.entries]

/-- A well-formed directory. -/
structure Directory (g : Geometry) (v : View) (ino : Nat) : Prop where
  owns : Owns g v ino
  isDir : iMode (v.inode ino) &&& ext2SIfdir ≠ 0
  pos : 1 ≤ iBlocks (v.inode ino)
  le : iBlocks (v.inode ino) ≤ 12
  tiled : ∀ k < iBlocks (v.inode ino), ∃ stop,
    Tiles (v.dirBlock ino k) 0 (v.dirRecords ino k) stop ∧
      (stop = 1024 ∨ (k + 1 = iBlocks (v.inode ino) ∧ Tail (v.dirBlock ino k) stop))

/-! ## One step of the search -/

section Step

variable {d : Disk} {inode : Buf} {fname : List UInt8} {blk off swp : Nat}

/-- The search compares names. -/
theorem name_matches_iff (b : Buf) (off : Nat) (hname : 0 ∉ fname) :
    (strncmpEq b (off + 8) fname (dNameLen b off) = true ∧ fname.length = dNameLen b off) ↔
      dName b off = fname := by
  constructor
  · rintro ⟨hcmp, hlen⟩
    rw [← hlen] at hcmp
    rw [dName, ← hlen]
    exact (strncmpEq_iff b hname (off + 8)).mp hcmp
  · intro h
    have hlen : fname.length = dNameLen b off := by rw [← h, dName, length_bytesAt]
    refine ⟨?_, hlen⟩
    rw [← hlen, strncmpEq_iff b hname, hlen]
    exact h

/-- The search at a record. -/
theorem searchLoop_at (hname : 0 ∉ fname) (hblk : blk < 12 ∧ blk < iBlocks inode)
    (hoff : off < 1024) :
    searchLoop d inode fname blk off swp =
      let b := ext2ReadBlock d (iBlock inode blk)
      if dFileType b off = 0 then some .notFound
      else if dName b off = fname then some (.found blk off swp)
      else if dRecLen b off = 0 then none
      else searchLoop d inode fname blk (off + dRecLen b off) off := by
  have hplace : boundary blk off = (blk, off) := if_neg (by omega)
  rw [searchLoop, if_pos hblk, if_neg (by omega), hplace]
  simp only [name_matches_iff _ _ hname, if_pos hblk.1]

/-- The search at the end of a block goes on with the next one. -/
theorem searchLoop_cross (hblk : blk + 1 < 12 ∧ blk + 1 < iBlocks inode) (hoff : 1024 ≤ off) :
    searchLoop d inode fname blk off swp = searchLoop d inode fname (blk + 1) 0 swp := by
  have hplace : boundary blk off = (blk + 1, 0) := if_pos hoff
  have hplace' : boundary (blk + 1) 0 = (blk + 1, 0) := if_neg (by omega)
  rw [searchLoop, if_pos (by omega), if_neg (by omega), hplace]
  conv => rhs; rw [searchLoop, if_pos hblk, if_neg (by omega), hplace']

/-- The search at the end of the last block finds nothing. -/
theorem searchLoop_end (hblk : blk < 12 ∧ blk < iBlocks inode) (hlast : iBlocks inode ≤ blk + 1)
    (hoff : 1024 ≤ off) : searchLoop d inode fname blk off swp = some .notFound := by
  rw [searchLoop, if_pos hblk, if_pos ⟨hoff, hlast⟩]

/-- The search passes records with other names, and remembers the last one. -/
theorem searchLoop_passOf {P : Rec → Prop} (hP : Walkable P) (hname : 0 ∉ fname)
    (hblk : blk < 12 ∧ blk < iBlocks inode) {b : Buf}
    (hb : ext2ReadBlock d (iBlock inode blk) = b) {recs : List Rec} {stop : Nat}
    (h : TilesOf P b off recs stop) (hstop : stop ≤ 1024) (hno : ∀ r ∈ recs, r.name ≠ fname) :
    ∃ swp', searchLoop d inode fname blk off swp = searchLoop d inode fname blk stop swp' ∧
      ((recs = [] ∧ swp' = swp) ∨ ∃ pre q, recs = pre ++ [q] ∧ TilesOf P b off pre swp' ∧
        recAt b swp' = q) := by
  induction h generalizing swp with
  | nil off => exact ⟨swp, rfl, Or.inl ⟨rfl, rfl⟩⟩
  | @cons off stop rs hok hrest ih =>
      have hlen : 8 + padded (recAt b off).name.length ≤ dRecLen b off := hP.room _ hok
      have hle : off + dRecLen b off ≤ stop := hrest.le
      have hft : dFileType b off ≠ 0 := hP.ft _ hok
      have hne : dName b off ≠ fname := hno _ List.mem_cons_self
      obtain ⟨swp', hpass, hswp⟩ := @ih off hstop fun r hr =>
        hno r (List.mem_cons_of_mem _ hr)
      refine ⟨swp', ?_, Or.inr ?_⟩
      · rw [searchLoop_at hname hblk (by omega)]
        simp only [hb, if_neg hft, if_neg hne, if_neg (show ¬ dRecLen b off = 0 by omega)]
        exact hpass
      · rcases hswp with ⟨rfl, rfl⟩ | ⟨pre, q, rfl, hpre, hq⟩
        · exact ⟨[], recAt b swp', rfl, TilesOf.nil _, rfl⟩
        · exact ⟨recAt b off :: pre, q, rfl, TilesOf.cons hok hpre, hq⟩

/-- The search passes proper records with other names, and remembers the last one. -/
theorem searchLoop_pass (hname : 0 ∉ fname) (hblk : blk < 12 ∧ blk < iBlocks inode) {b : Buf}
    (hb : ext2ReadBlock d (iBlock inode blk) = b) {recs : List Rec} {stop : Nat}
    (h : Tiles b off recs stop) (hstop : stop ≤ 1024) (hno : ∀ r ∈ recs, r.name ≠ fname) :
    ∃ swp', searchLoop d inode fname blk off swp = searchLoop d inode fname blk stop swp' ∧
      ((recs = [] ∧ swp' = swp) ∨ ∃ pre q, recs = pre ++ [q] ∧ Tiles b off pre swp' ∧
        recAt b swp' = q) := by
  simp only [tiles_iff] at h ⊢
  exact searchLoop_passOf walkable_ok hname hblk hb h hstop hno

end Step

/-! ## The search of a directory -/

/-- A list has a first element with a property, or none. -/
theorem first_or_none {α : Type*} (p : α → Prop) (l : List α) :
    (∀ x ∈ l, ¬ p x) ∨ ∃ pre x post, l = pre ++ x :: post ∧ p x ∧ ∀ y ∈ pre, ¬ p y := by
  induction l with
  | nil => exact Or.inl (by simp)
  | cons a l ih =>
      by_cases ha : p a
      · exact Or.inr ⟨[], a, l, rfl, ha, by simp⟩
      · rcases ih with hno | ⟨pre, x, post, rfl, hx, hpre⟩
        · refine Or.inl fun x hx => ?_
          rcases List.mem_cons.mp hx with rfl | hx
          · exact ha
          · exact hno x hx
        · refine Or.inr ⟨a :: pre, x, post, rfl, hx, fun y hy => ?_⟩
          rcases List.mem_cons.mp hy with rfl | hy
          · exact ha
          · exact hpre y hy

section Search

variable {g : Geometry} {d : Disk} {ino : Nat} {fname : List UInt8}

/-- The source reads the blocks of a directory. -/
theorem Directory.readBlock (h : Directory g (view g d) ino) {k : Nat}
    (hk : k < iBlocks ((view g d).inode ino)) :
    ext2ReadBlock d (iBlock ((view g d).inode ino) k) = (view g d).dirBlock ino k := by
  have hle := h.le
  exact readBlock_eq (h.owns.data k (by unfold directCount; omega)).1

/-- Where a search has found a name: the record, the records before it in its
block, and the record before it, if there is one. -/
structure FoundAt (v : View) (ino : Nat) (fname : List UInt8) (k off swp : Nat) (pre : List Rec)
    (r : Rec) (post : List Rec) : Prop where
  block : k < iBlocks (v.inode ino)
  split : v.dirRecords ino k = pre ++ r :: post
  name : r.name = fname
  before : Tiles (v.dirBlock ino k) 0 pre off
  here : recAt (v.dirBlock ino k) off = r
  last : (pre = [] ∧ off = 0) ∨ ∃ pre' q, pre = pre' ++ [q] ∧ Tiles (v.dirBlock ino k) 0 pre' swp ∧
    recAt (v.dirBlock ino k) swp = q

/-- The search from the start of a block on ends at a record of the name, or the
blocks from there on have none. -/
theorem searchLoop_from (h : Directory g (view g d) ino) (hname : 0 ∉ fname) {k : Nat}
    (hk : k < iBlocks ((view g d).inode ino)) (swp : Nat) :
    (searchLoop d ((view g d).inode ino) fname k 0 swp = some .notFound ∧
        ∀ j, k ≤ j → j < iBlocks ((view g d).inode ino) →
          ∀ r ∈ (view g d).dirRecords ino j, r.name ≠ fname) ∨
      ∃ j off swp' pre r post,
        searchLoop d ((view g d).inode ino) fname k 0 swp = some (.found j off swp') ∧
          FoundAt (view g d) ino fname j off swp' pre r post := by
  have hle := h.le
  -- the measure is the number of blocks still to be searched
  induction hm : iBlocks ((view g d).inode ino) - k generalizing k swp with
  | zero => omega
  | succ m ih =>
      have hblk : k < 12 ∧ k < iBlocks ((view g d).inode ino) := ⟨by omega, hk⟩
      have hread := h.readBlock hk
      obtain ⟨stop, htiles, hend⟩ := h.tiled k hk
      have hstop : stop ≤ 1024 := stop_le (hend.imp_right And.right)
      rcases first_or_none (fun r : Rec => r.name = fname) ((view g d).dirRecords ino k) with
        hno | ⟨pre, r, post, hsplit, hr, hpre⟩
      · obtain ⟨swp', hpass, -⟩ := @searchLoop_pass d ((view g d).inode ino) fname k 0 swp hname
          hblk _ hread _ _ htiles hstop hno
        rcases hend with hend | ⟨hlast, htail⟩
        · by_cases hnext : k + 1 < iBlocks ((view g d).inode ino)
          · have hcross := @searchLoop_cross d ((view g d).inode ino) fname k stop swp'
              ⟨by omega, hnext⟩ hend.ge
            rcases ih hnext swp' (by omega) with
              ⟨hnone, hrest⟩ | ⟨j, off, swp'', pre, r, post, hfound, hat⟩
            · refine Or.inl ⟨by rw [hpass, hcross, hnone], fun j hkj hj => ?_⟩
              by_cases hjk : j = k
              · rw [hjk]
                exact hno
              · exact hrest j (by omega) hj
            · exact Or.inr ⟨j, off, swp'', pre, r, post, by rw [hpass, hcross, hfound], hat⟩
          · refine Or.inl ⟨?_, fun j hkj hj => ?_⟩
            · rw [hpass, searchLoop_end hblk (by omega) hend.ge]
            · have hjk : j = k := by omega
              rw [hjk]
              exact hno
        · have hroom := htail.1
          refine Or.inl ⟨?_, fun j hkj hj => ?_⟩
          · rw [hpass, searchLoop_at hname hblk (by omega)]
            simp only [hread, if_pos htail.2]
          · have hjk : j = k := by omega
            rw [hjk]
            exact hno
      · rw [hsplit] at htiles
        obtain ⟨off, htpre, htpost⟩ := htiles.split
        obtain ⟨hrec, hok, hrest⟩ := htpost.head
        have hlen := hok.recLen_ge
        have hle' := hrest.le
        have hft : dFileType ((view g d).dirBlock ino k) off ≠ 0 := by
          have hok' := hok.ft
          rw [← hrec] at hok'
          exact hok'
        have hdname : dName ((view g d).dirBlock ino k) off = fname := by
          rw [← hr, ← hrec]
          rfl
        obtain ⟨swp', hpass, hswp⟩ := @searchLoop_pass d ((view g d).inode ino) fname k 0 swp hname
          hblk _ hread _ _ htpre (by omega) hpre
        refine Or.inr ⟨k, off, swp', pre, r, post, ?_, hk, hsplit, hr, htpre, hrec, ?_⟩
        · rw [hpass, searchLoop_at hname hblk (by omega)]
          simp only [hread, if_neg hft, if_pos hdname]
        · rcases hswp with ⟨rfl, -⟩ | hprev
          · exact Or.inl ⟨rfl, htpre.eq_of_nil.symm⟩
          · exact Or.inr hprev

/-- The end of a search of a directory. -/
theorem searchLoop_cases (h : Directory g (view g d) ino) (hname : 0 ∉ fname) :
    (searchLoop d ((view g d).inode ino) fname 0 0 0 = some .notFound ∧
        ∀ r ∈ (view g d).entries ino, r.name ≠ fname) ∨
      ∃ k off swp pre r post,
        searchLoop d ((view g d).inode ino) fname 0 0 0 = some (.found k off swp) ∧
          FoundAt (view g d) ino fname k off swp pre r post := by
  rcases searchLoop_from h hname (k := 0) h.pos 0 with ⟨hnone, hno⟩ | hfound
  · refine Or.inl ⟨hnone, fun r hr => ?_⟩
    obtain ⟨k, hk, hmem⟩ := mem_entries.mp hr
    exact hno k (Nat.zero_le k) hk r hmem
  · exact Or.inr hfound

theorem FoundAt.mem {v : View} {k off swp : Nat} {pre post : List Rec} {r : Rec}
    (h : FoundAt v ino fname k off swp pre r post) : r ∈ v.entries ino := by
  refine mem_entries.mpr ⟨k, h.block, ?_⟩
  rw [h.split]
  simp

/-! ## Lookups -/

/-- What a lookup in a directory answers. -/
theorem ilookup_cases (hd : OnDisk g d) (h : Directory g (view g d) ino) (hname : 0 ∉ fname)
    (stk : Stack) (dentry : Dentry) :
    (ilookup g.sb d stk ino dentry fname = some (-1, dentry) ∧
        ∀ r ∈ (view g d).entries ino, r.name ≠ fname) ∨
      ∃ r ∈ (view g d).entries ino, r.name = fname ∧
        ∃ dentry', ilookup g.sb d stk ino dentry fname = some (0, dentry') ∧
          dentry'.iIno = r.ino := by
  have hread := readInode_eq hd h.owns.valid h.owns.used stk.lookupInode
  rcases searchLoop_cases h hname with ⟨hnone, hno⟩ | ⟨k, off, swp, pre, r, post, hfound, hat⟩
  · refine Or.inl ⟨?_, hno⟩
    simp [ilookup, hread, ext2ReadDentryByName, h.isDir, hnone]
  · refine Or.inr ⟨r, hat.mem, hat.name, ?_⟩
    obtain ⟨stop, htiles, -⟩ := h.tiled k hat.block
    have hok : r.Ok := htiles.ok r (by rw [hat.split]; simp)
    have hpos : ¬ (0 : Int) ≥ dNameLen ((view g d).dirBlock ino k) off := by
      have hlen := List.length_pos_iff.mpr hok.name
      rw [← hat.here] at hlen
      simp only [recAt, dName, length_bytesAt] at hlen
      omega
    refine ⟨ext2FillVfsDentry g.sb d stk ((view g d).dirBlock ino k) off, ?_, ?_⟩
    · simp only [ilookup, hread, ext2ReadDentryByName, if_neg h.isDir, hfound,
        h.readBlock hat.block, if_neg hpos]
    · rw [← hat.here]
      rfl

/-- A dentry has the number of an inode and the fields of the inode. -/
structure Filled (v : View) (dentry : Dentry) (n : Nat) : Prop where
  iIno : dentry.iIno = n
  iBlocks : dentry.iBlocks = Ext2.iBlocks (v.inode n)
  iSize : dentry.iSize = Ext2.iSize (v.inode n)
  iMode : dentry.iMode = Ext2.iMode (v.inode n)

/-- A lookup that finds a name fills in the fields of the inode. -/
theorem ilookup_filled (hd : OnDisk g d) {stk : Stack} {dentry dentry' : Dentry}
    (hrun : ilookup g.sb d stk ino dentry fname = some (0, dentry'))
    (hvalid : g.ValidIno dentry'.iIno) (hused : (view g d).inodeUsed dentry'.iIno = true) :
    Filled (view g d) dentry' dentry'.iIno := by
  unfold ilookup ext2ReadDentryByName at hrun
  by_cases hdir : iMode (ext2ReadInode g.sb d ino stk.lookupInode).2 &&& ext2SIfdir = 0
  · simp [hdir] at hrun
  · simp only [if_neg hdir] at hrun
    cases hsearch : searchLoop d (ext2ReadInode g.sb d ino stk.lookupInode).2 fname 0 0 0 with
    | none => simp [hsearch] at hrun
    | some found =>
        cases found with
        | notFound => simp [hsearch] at hrun
        | found blk off swp =>
            simp only [hsearch, Option.some.injEq, Prod.mk.injEq] at hrun
            obtain ⟨-, rfl⟩ := hrun
            have hread := readInode_eq hd hvalid hused stk.fillTheInode
            simp only [ext2FillVfsDentry] at hread ⊢
            exact ⟨rfl, by simp only [hread], by simp only [hread], by simp only [hread]⟩

/-- A lookup that finds a name fills it in. -/
theorem ilookup_filename (hd : OnDisk g d) (h : Directory g (view g d) ino) (hname : 0 ∉ fname)
    {stk : Stack} {dentry dentry' : Dentry}
    (hrun : ilookup g.sb d stk ino dentry fname = some (0, dentry')) :
    dentry'.filename = fname := by
  have hread := readInode_eq hd h.owns.valid h.owns.used stk.lookupInode
  rcases searchLoop_cases h hname with ⟨hnone, -⟩ | ⟨k, off, swp, pre, r, post, hfound, hat⟩
  · simp [ilookup, hread, ext2ReadDentryByName, h.isDir, hnone] at hrun
  · simp only [ilookup, hread, ext2ReadDentryByName, if_neg h.isDir, hfound,
      h.readBlock hat.block, Option.some.injEq, Prod.mk.injEq] at hrun
    have hdname : dName ((view g d).dirBlock ino k) off = fname := by
      rw [← hat.name, ← hat.here]
      rfl
    rw [← hrun.2]
    show (dName ((view g d).dirBlock ino k) off).takeWhile (· ≠ 0) = fname
    rw [hdname]
    apply List.takeWhile_eq_self_iff.mpr
    intro c hc
    exact decide_eq_true fun heq => hname (heq ▸ hc)

/-- A lookup in the directory finds the name, whatever its local variables held, and
answers the inode number. -/
def Resolves (g : Geometry) (d : Disk) (ino : Nat) (fname : List UInt8) (n : Nat) : Prop :=
  ∀ stk dentry, ∃ dentry', ilookup g.sb d stk ino dentry fname = some (0, dentry') ∧
    dentry'.iIno = n

/-- A lookup in the directory does not find the name. -/
def Missing (g : Geometry) (d : Disk) (ino : Nat) (fname : List UInt8) : Prop :=
  ∀ stk dentry, ilookup g.sb d stk ino dentry fname = some (-1, dentry)

/-- No two entries of a directory have the same name. -/
def UniqueNames (v : View) (ino : Nat) : Prop := ((v.entries ino).map Rec.name).Nodup

theorem UniqueNames.eq {v : View} {ino : Nat} (h : UniqueNames v ino) {r r' : Rec}
    (hr : r ∈ v.entries ino) (hr' : r' ∈ v.entries ino) (hname : r.name = r'.name) : r = r' :=
  List.inj_on_of_nodup_map h hr hr' hname

/-- With unique names a lookup resolves a name to the inode number of its entry. -/
theorem resolves_iff (hd : OnDisk g d) (h : Directory g (view g d) ino)
    (hunique : UniqueNames (view g d) ino) (hname : 0 ∉ fname) {n : Nat} :
    Resolves g d ino fname n ↔ ∃ r ∈ (view g d).entries ino, r.name = fname ∧ r.ino = n := by
  constructor
  · intro hres
    obtain ⟨dentry', hlookup, hn⟩ := hres default default
    rcases ilookup_cases hd h hname default default with ⟨hnone, -⟩ | ⟨r, hr, hrname, e, he, hino⟩
    · rw [hnone] at hlookup
      simp at hlookup
    · rw [he] at hlookup
      simp only [Option.some.injEq, Prod.mk.injEq, true_and] at hlookup
      exact ⟨r, hr, hrname, by rw [← hino, hlookup, hn]⟩
  · rintro ⟨r, hr, hrname, rfl⟩ stk dentry
    rcases ilookup_cases hd h hname stk dentry with ⟨-, hno⟩ | ⟨r', hr', hrname', e, he, hino⟩
    · exact absurd hrname (hno r hr)
    · have heq := hunique.eq hr' hr (hrname'.trans hrname.symm)
      exact ⟨e, he, by rw [hino, heq]⟩

/-- A lookup misses the names that no entry has. -/
theorem missing_iff (hd : OnDisk g d) (h : Directory g (view g d) ino) (hname : 0 ∉ fname) :
    Missing g d ino fname ↔ ∀ r ∈ (view g d).entries ino, r.name ≠ fname := by
  constructor
  · intro hmiss r hr hrname
    have hlookup := hmiss default default
    rcases ilookup_cases hd h hname default default with ⟨-, hno⟩ | ⟨r', -, -, e, he, -⟩
    · exact hno r hr hrname
    · rw [he] at hlookup
      simp at hlookup
  · intro hno stk dentry
    rcases ilookup_cases hd h hname stk dentry with ⟨hnone, -⟩ | ⟨r, hr, hrname, -⟩
    · exact hnone
    · exact absurd hrname (hno r hr)

end Search

/-! ## Editing one block -/

section Edit

variable {g : Geometry} {v v' : View} {ino : Nat}

/-- The entries before and after one block of a directory has changed. -/
theorem entries_edit {k : Nat} (hk : k < iBlocks (v.inode ino))
    (hinode : v'.inode ino = v.inode ino)
    (hother : ∀ j < iBlocks (v.inode ino), j ≠ k → v'.dirRecords ino j = v.dirRecords ino j) :
    ∃ as cs, v.entries ino = as ++ v.dirRecords ino k ++ cs ∧
      v'.entries ino = as ++ v'.dirRecords ino k ++ cs := by
  obtain ⟨m, hm⟩ : ∃ m, iBlocks (v.inode ino) = k + (1 + m) :=
    ⟨iBlocks (v.inode ino) - k - 1, by omega⟩
  refine ⟨(List.range k).flatMap (v.dirRecords ino),
    ((List.range m).map fun i => k + (1 + i)).flatMap (v.dirRecords ino), ?_, ?_⟩
  · rw [View.entries, hm, List.range_add, List.range_add, List.map_append, List.flatMap_append,
      List.flatMap_append, List.append_assoc, List.map_map]
    simp [Function.comp_def]
  · have hbefore : (List.range k).flatMap (v'.dirRecords ino) =
        (List.range k).flatMap (v.dirRecords ino) := by
      apply List.flatMap_congr
      intro j hj
      have hlt := List.mem_range.mp hj
      exact hother j (by omega) (by omega)
    have hafter : ((List.range m).map fun i => k + (1 + i)).flatMap (v'.dirRecords ino) =
        ((List.range m).map fun i => k + (1 + i)).flatMap (v.dirRecords ino) := by
      apply List.flatMap_congr
      intro j hj
      obtain ⟨i, hi, rfl⟩ := List.mem_map.mp hj
      have hlt := List.mem_range.mp hi
      exact hother _ (by omega) (by omega)
    rw [View.entries, hinode, hm, List.range_add, List.range_add, List.map_append,
      List.flatMap_append, List.flatMap_append, hbefore, ← hafter, List.append_assoc, List.map_map]
    simp [Function.comp_def]

/-- A directory stays well-formed when one of its blocks is tiled anew. -/
theorem Directory.edit (h : Directory g v ino) {k stop : Nat} (hk : k < iBlocks (v.inode ino))
    {buf : Buf} {recs : List Rec} (hinode : v'.inode ino = v.inode ino)
    (hused : v'.inodeUsed ino = true) (hblocks : ∀ b, v.blockUsed b = true → v'.blockUsed b = true)
    (hdata : ∀ j < iBlocks (v.inode ino), v'.data (iBlock (v.inode ino) j) =
      if j = k then buf else v.data (iBlock (v.inode ino) j))
    (htiles : Tiles buf 0 recs stop)
    (hend : stop = 1024 ∨ (k + 1 = iBlocks (v.inode ino) ∧ Tail buf stop)) :
    Directory g v' ino ∧ v'.dirRecords ino k = recs ∧
      ∀ j < iBlocks (v.inode ino), j ≠ k → v'.dirRecords ino j = v.dirRecords ino j := by
  have hhere : v'.dirBlock ino k = buf := by
    rw [View.dirBlock, hinode, hdata k hk, if_pos rfl]
  have hrecs : v'.dirRecords ino k = recs := by
    rw [View.dirRecords, hhere]
    exact htiles.records_eq (hend.imp id And.right)
  have hblock : ∀ j < iBlocks (v.inode ino), j ≠ k → v'.dirBlock ino j = v.dirBlock ino j := by
    intro j hj hne
    rw [View.dirBlock, hinode, hdata j hj, if_neg hne, View.dirBlock]
  have hother : ∀ j < iBlocks (v.inode ino), j ≠ k →
      v'.dirRecords ino j = v.dirRecords ino j := by
    intro j hj hne
    rw [View.dirRecords, hblock j hj hne, View.dirRecords]
  have howns : Owns g v' ino := by
    refine ⟨h.owns.valid, hused, ?_, ?_⟩
    · intro j hj
      rw [hinode] at hj ⊢
      obtain ⟨hisData, hb⟩ := h.owns.data j hj
      exact ⟨hisData, hblocks _ hb⟩
    · intro i hi j hj heq
      rw [hinode] at hi hj heq
      exact h.owns.inj i hi j hj heq
  refine ⟨⟨howns, ?_, ?_, ?_, ?_⟩, hrecs, hother⟩
  · rw [hinode]
    exact h.isDir
  · rw [hinode]
    exact h.pos
  · rw [hinode]
    exact h.le
  · intro j hj
    rw [hinode] at hj ⊢
    by_cases hjk : j = k
    · subst hjk
      exact ⟨stop, by rw [hhere, hrecs]; exact htiles, by rw [hhere]; exact hend⟩
    · obtain ⟨stop', htiles', hend'⟩ := h.tiled j hj
      exact ⟨stop', by rw [hblock j hj hjk, hother j hj hjk]; exact htiles',
        by rw [hblock j hj hjk]; exact hend'⟩

/-- A directory stays as it is when its inode and its blocks do. -/
theorem Directory.frame (h : Directory g v ino) (hinode : v'.inode ino = v.inode ino)
    (hused : v'.inodeUsed ino = true) (hblocks : ∀ b, v.blockUsed b = true → v'.blockUsed b = true)
    (hdata : ∀ j < iBlocks (v.inode ino),
      v'.data (iBlock (v.inode ino) j) = v.data (iBlock (v.inode ino) j)) :
    Directory g v' ino ∧ v'.entries ino = v.entries ino := by
  obtain ⟨stop, htiles, hend⟩ := h.tiled 0 h.pos
  have hdata' : ∀ j < iBlocks (v.inode ino), v'.data (iBlock (v.inode ino) j) =
      if j = 0 then v.dirBlock ino 0 else v.data (iBlock (v.inode ino) j) := by
    intro j hj
    by_cases hzero : j = 0
    · rw [if_pos hzero, hdata j hj, hzero, View.dirBlock]
    · rw [if_neg hzero, hdata j hj]
  obtain ⟨hdir, hfirst, hother⟩ := h.edit h.pos hinode hused hblocks hdata' htiles hend
  obtain ⟨as, cs, hold, hnew⟩ := entries_edit h.pos hinode hother
  exact ⟨hdir, by rw [hold, hnew, hfirst]⟩

end Edit

/-- A formatted image with a directory whose blocks are full of records. -/
theorem directory_of_blocks (g : Geometry) (v : View) {ino mode fsize : Nat} {bs : List Nat}
    {recs : Nat → List Rec} (hino : g.ValidIno ino) (hused : v.inodeUsed ino = true)
    (hinode : v.inode ino = newInode mode fsize bs) (hmode : mode < 2 ^ 16)
    (hfsize : fsize < 2 ^ 32) (hdir : mode &&& ext2SIfdir ≠ 0) (hpos : 1 ≤ bs.length)
    (hle : bs.length ≤ 12) (hnodup : bs.Nodup)
    (hbs : ∀ b ∈ bs, g.IsData b ∧ v.blockUsed b = true)
    (htiles : ∀ k < bs.length, Tiles (v.data (bs.getD k 0)) 0 (recs k) 1024) :
    Directory g (v.trim g) ino ∧ iBlocks ((v.trim g).inode ino) = bs.length ∧
      ∀ k < bs.length, (v.trim g).dirRecords ino k = recs k ∧
        Tiles ((v.trim g).dirBlock ino k) 0 ((v.trim g).dirRecords ino k) 1024 := by
  obtain ⟨hm, -, hblocks, hslot⟩ := View.fields_trim g v hino hinode hmode hfsize
    (show bs.length < 2 ^ 32 by omega) (fun b hb => by
      have hble := (hbs b hb).1.1
      unfold bitmapBits at hble
      omega)
  have hget : ∀ k (hk : k < bs.length), iBlock ((v.trim g).inode ino) k = bs[k] := by
    intro k hk
    rw [hslot k (by omega), List.getD_eq_getElem?_getD, List.getElem?_eq_getElem hk,
      Option.getD_some]
  have hblock : ∀ k < bs.length, (v.trim g).dirBlock ino k = v.data (bs.getD k 0) := by
    intro k hk
    rw [View.dirBlock, hget k hk, List.getD_eq_getElem?_getD, List.getElem?_eq_getElem hk,
      Option.getD_some]
    simp only [View.trim, if_pos (hbs _ (List.getElem_mem hk)).1]
  have hrecs : ∀ k < bs.length, (v.trim g).dirRecords ino k = recs k := by
    intro k hk
    rw [View.dirRecords, hblock k hk]
    exact (htiles k hk).records_eq (Or.inl rfl)
  have hcount : directCount ((v.trim g).inode ino) = bs.length := by
    rw [directCount, hblocks]
    omega
  have howns : Owns g (v.trim g) ino := by
    refine ⟨hino, by simp [View.trim, hused, validIno_le hino], ?_, ?_⟩
    · intro k hk
      rw [hcount] at hk
      obtain ⟨hdata, hbused⟩ := hbs _ (List.getElem_mem hk)
      rw [hget k hk]
      refine ⟨hdata, ?_⟩
      have hbounds : 1 ≤ bs[k] ∧ bs[k] ≤ bitmapBits := isData_bounds hdata
      simp [View.trim, hbused, hbounds]
    · intro i hi j hj heq
      rw [hcount] at hi hj
      rw [hget i hi, hget j hj] at heq
      exact hnodup.getElem_inj_iff.mp heq
  refine ⟨⟨howns, ?_, ?_, ?_, ?_⟩, hblocks, fun k hk => ⟨hrecs k hk, ?_⟩⟩
  · rw [hm]
    exact hdir
  · rw [hblocks]
    exact hpos
  · rw [hblocks]
    exact hle
  · intro k hk
    rw [hblocks] at hk
    refine ⟨1024, ?_, Or.inl rfl⟩
    rw [hblock k hk, hrecs k hk]
    exact htiles k hk
  · rw [hblock k hk, hrecs k hk]
    exact htiles k hk

/-- A formatted image with a directory of one block. -/
theorem directory_of_format (g : Geometry) (v : View) {ino mode b : Nat} {recs : List Rec}
    (hino : g.ValidIno ino) (hused : v.inodeUsed ino = true)
    (hinode : v.inode ino = newInode mode blocksize [b]) (hmode : mode < 2 ^ 16)
    (hdir : mode &&& ext2SIfdir ≠ 0) (hb : g.IsData b) (hbused : v.blockUsed b = true)
    (htiles : Tiles (v.data b) 0 recs 1024) :
    Directory g (v.trim g) ino ∧ (v.trim g).entries ino = recs ∧
      iBlocks ((v.trim g).inode ino) = 1 ∧
      Tiles ((v.trim g).dirBlock ino 0) 0 ((v.trim g).dirRecords ino 0) 1024 := by
  obtain ⟨hdirectory, hblocks, hrecs⟩ := @directory_of_blocks g v ino mode blocksize
    [b] (fun _ => recs) hino hused hinode hmode (by decide) hdir le_rfl (by simp) (by simp)
    (by simpa using ⟨hb, hbused⟩) (by simpa using htiles)
  rw [List.length_singleton] at hblocks
  obtain ⟨hfirst, hfull⟩ := hrecs 0 (by simp)
  exact ⟨hdirectory, by simp [View.entries, hblocks, hfirst], hblocks, hfull⟩

end Ext2
end NochOS
