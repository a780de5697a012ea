import NochOS.Ext2.DirBlocks

/-!
# ext2 - listing a directory

`dir_fread` delivers the entries of a directory one by one, through a walk of its own
that counts records and does not look at file types.  On blocks that records fill to
the end, this walk and the search for a name meet the same records, so the names
that a directory lists are the names that can be looked up in it.

Main results:

- Definition `dirFread`: reading from an open directory.
- Theorems `indexLoop_entries`, `searchLoop_entries`: the two walks as functions of
  the list of entries.
- Theorem `listing_agrees`: listing and lookup.
-/

namespace NochOS
namespace Ext2

open Library

/-! ## Reading a directory -/

/-- The arguments of one `dir_fread`, and the bytes its local variables hold before
they are written. -/
structure ReadCall where
  stk : Stack
  inode : Buf
  dent : Dentry
  buf : Buf
  nbytes : Nat

/-- `dir_fread`: the return value, the buffer and the open file afterwards. -/
def dirFread (sb : Super) (d : Disk) (c : ReadCall) (self : File) : Int × Buf × File :=
  if self.iMode &&& ext2SIfdir = 0 then (-1, c.buf, self)
  else
    let inode := (ext2ReadInode sb d self.iIno c.inode).2
    let r := ext2ReadDentryByIndex sb d c.stk self.fPos inode c.dent
    if r.1 = -1 then (-1, c.buf, self)
    else
      let length := if c.nbytes < r.1.toNat then c.nbytes else r.1.toNat
      (length, strncpy c.buf 0 r.2.filename length,
        { self with fPos := (self.fPos + 1) % 2 ^ 32 })

/-- The names that calls of `dir_fread` deliver until one returns zero, when one of
the first calls does. -/
def listDir (sb : Super) (d : Disk) (calls : Nat → ReadCall) : Nat → Nat → File →
    Option (List (List UInt8))
  | 0, _, _ => none
  | n + 1, i, self =>
      let r := dirFread sb d (calls i) self
      if r.1 = 0 then some []
      else (listDir sb d calls n (i + 1) r.2.2).map (bytesAt r.2.1 0 r.1.toNat :: ·)

/-! ## Full blocks -/

/-- A record in use with a proper name that an entry of the file system can hold. -/
structure Rec.Proper (r : Rec) : Prop where
  ft : r.ft ≠ 0
  name : r.name ≠ []
  noNul : (0 : UInt8) ∉ r.name
  short : r.name.length < fnameLen
  room : 8 + r.name.length ≤ r.recLen

/-- An inode of a directory whose one to twelve blocks are tiled to their ends by the
records of the lists, whose names are all different. -/
structure FullDir (d : Disk) (inode : Buf) (recs : Nat → List Rec) : Prop where
  isDir : iMode inode &&& ext2SIfdir ≠ 0
  pos : 1 ≤ iBlocks inode
  le : iBlocks inode ≤ 12
  tiled : ∀ k < iBlocks inode,
    TilesOf Rec.Proper (ext2ReadBlock d (iBlock inode k)) 0 (recs k) 1024
  unique : (((List.range (iBlocks inode)).flatMap recs).map Rec.name).Nodup

/-- The records from a block on. -/
def entriesFrom (inode : Buf) (recs : Nat → List Rec) (k : Nat) : List Rec :=
  (List.range' k (iBlocks inode - k)).flatMap recs

theorem entriesFrom_zero (inode : Buf) (recs : Nat → List Rec) :
    entriesFrom inode recs 0 = (List.range (iBlocks inode)).flatMap recs := by
  rw [entriesFrom, Nat.sub_zero, List.range_eq_range']

/-- The records from a block on are those of the block and those behind it. -/
theorem entriesFrom_cons {inode : Buf} (recs : Nat → List Rec) {k : Nat} (hk : k < iBlocks inode) :
    entriesFrom inode recs k = recs k ++ entriesFrom inode recs (k + 1) := by
  obtain ⟨m, hm⟩ : ∃ m, iBlocks inode - k = m + 1 := ⟨iBlocks inode - k - 1, by omega⟩
  have hm' : iBlocks inode - (k + 1) = m := by
    omega
  rw [entriesFrom, entriesFrom, hm, hm', List.range'_succ, List.flatMap_cons]

theorem entriesFrom_end {inode : Buf} (recs : Nat → List Rec) {k : Nat} (hk : iBlocks inode ≤ k) :
    entriesFrom inode recs k = [] := by
  have hzero : iBlocks inode - k = 0 := by
    omega
  rw [entriesFrom, hzero]
  rfl

section Walks

variable {d : Disk} {inode : Buf} {recs : Nat → List Rec} {b : Buf} {blk off stop : Nat}
  {rs : List Rec} {P : Rec → Prop}

/-- A record of a tiling starts inside the block and has a length. -/
theorem TilesOf.inside (hP : ∀ r, P r → 8 + r.name.length ≤ r.recLen) {r : Rec}
    (h : TilesOf P b off (r :: rs) stop) (hstop : stop ≤ 1024) : off < 1024 ∧ r.recLen ≠ 0 := by
  obtain ⟨-, hok, hrest⟩ := h.head
  have hroom := hP r hok
  have hle := hrest.le
  omega

/-- The walk to an index stops at a record, or steps over it. -/
theorem indexLoop_at (hb : ext2ReadBlock d (iBlock inode blk) = b) (hoff : off < 1024) (n : Nat) :
    indexLoop d inode 0 blk off = some (blk, off) ∧
      indexLoop d inode (n + 1) blk off = indexLoop d inode n blk (off + dRecLen b off) := by
  have hplace : boundary blk off = (blk, off) := if_neg (by omega)
  constructor
  · rw [indexLoop, if_neg (by omega), hplace]
  · rw [indexLoop, if_neg (by omega), hplace]
    simp only [hb]

/-- The walk to an index inside a block: it stops at the record of the index, or steps
over all records of the block. -/
theorem indexLoop_tiles (hP : ∀ r, P r → 8 + r.name.length ≤ r.recLen)
    (hb : ext2ReadBlock d (iBlock inode blk) = b) (h : TilesOf P b off rs stop)
    (hstop : stop ≤ 1024) (n : Nat) :
    (∃ hn : n < rs.length, ∃ at_, indexLoop d inode n blk off = some (blk, at_) ∧
        recAt b at_ = rs[n]) ∨
      rs.length ≤ n ∧ indexLoop d inode n blk off = indexLoop d inode (n - rs.length) blk stop := by
  induction rs generalizing n off with
  | nil =>
      rw [h.eq_of_nil]
      exact Or.inr ⟨Nat.zero_le _, rfl⟩
  | cons r rs ih =>
      obtain ⟨hoff, -⟩ := h.inside hP hstop
      obtain ⟨hrec, -, hrest⟩ := h.head
      have hlen : dRecLen b off = r.recLen := by
        rw [← hrec]
        rfl
      cases n with
      | zero => exact Or.inl ⟨by simp, off, (indexLoop_at hb hoff 0).1, by simpa using hrec⟩
      | succ n =>
          rw [(indexLoop_at hb hoff n).2, hlen]
          cases ih hrest n with
          | inl hin =>
              obtain ⟨hn, at_, hloop, hat⟩ := hin
              exact Or.inl ⟨by simpa using hn, at_, hloop, by simpa using hat⟩
          | inr hout =>
              obtain ⟨hle, hloop⟩ := hout
              refine Or.inr ⟨by simpa using hle, ?_⟩
              rw [hloop, List.length_cons, Nat.add_sub_add_right]

/-- The walk to an index at the end of a block goes on with the next one. -/
theorem indexLoop_cross (hblk : blk + 1 < iBlocks inode) (n : Nat) :
    indexLoop d inode n blk 1024 = indexLoop d inode n (blk + 1) 0 := by
  have hplace : boundary blk 1024 = (blk + 1, 0) := if_pos le_rfl
  have hplace' : boundary (blk + 1) 0 = (blk + 1, 0) := if_neg (by omega)
  rw [indexLoop, if_neg (by omega), hplace]
  conv => rhs; rw [indexLoop, if_neg (by omega), hplace']

/-- The walk to an index finds the record of the index in the list of entries. -/
theorem indexLoop_entries (h : FullDir d inode recs) {k : Nat} (hk : k < iBlocks inode) (n : Nat) :
    (∃ hn : n < (entriesFrom inode recs k).length, ∃ blk off,
        indexLoop d inode n k 0 = some (blk, off) ∧
        recAt (ext2ReadBlock d (iBlock inode blk)) off = (entriesFrom inode recs k)[n]) ∨
      (entriesFrom inode recs k).length ≤ n ∧ indexLoop d inode n k 0 = none := by
  -- the measure is the number of blocks behind this one
  induction hm : iBlocks inode - (k + 1) generalizing k n with
  | zero =>
      have hsplit := entriesFrom_cons recs hk
      rw [entriesFrom_end recs (show iBlocks inode ≤ k + 1 by omega), List.append_nil] at hsplit
      rw [hsplit]
      cases indexLoop_tiles (fun _ => Rec.Proper.room) rfl (h.tiled k hk) le_rfl n with
      | inl hin =>
          obtain ⟨hn, at_, hloop, hat⟩ := hin
          exact Or.inl ⟨hn, k, at_, hloop, hat⟩
      | inr hout =>
          obtain ⟨hle, hloop⟩ := hout
          refine Or.inr ⟨hle, ?_⟩
          rw [hloop, indexLoop, if_pos (by omega)]
  | succ m ih =>
      have hnext : k + 1 < iBlocks inode := by
        omega
      rw [entriesFrom_cons recs hk]
      cases indexLoop_tiles (fun _ => Rec.Proper.room) rfl (h.tiled k hk) le_rfl n with
      | inl hin =>
          obtain ⟨hn, at_, hloop, hat⟩ := hin
          refine Or.inl ⟨by rw [List.length_append]; omega, k, at_, hloop, ?_⟩
          rw [hat, List.getElem_append_left hn]
      | inr hout =>
          obtain ⟨hle, hloop⟩ := hout
          rw [hloop, indexLoop_cross hnext]
          cases ih hnext (n - (recs k).length) (by omega) with
          | inl hin =>
              obtain ⟨hn, blk, off, hloop', hat⟩ := hin
              refine Or.inl ⟨by rw [List.length_append]; omega, blk, off, hloop', ?_⟩
              rw [hat, List.getElem_append_right hle]
          | inr hout =>
              obtain ⟨hle', hloop'⟩ := hout
              refine Or.inr ⟨by rw [List.length_append]; omega, hloop'⟩

/-- The search inside a block: it passes all records of the block, or stops at one
with the name. -/
theorem searchLoop_tiles {fname : List UInt8} (hname : 0 ∉ fname)
    (hblk : blk < 12 ∧ blk < iBlocks inode) (hb : ext2ReadBlock d (iBlock inode blk) = b)
    (h : TilesOf Rec.Proper b off rs 1024) (swp : Nat) :
    ((∀ r ∈ rs, r.name ≠ fname) ∧ ∃ swp',
        searchLoop d inode fname blk off swp = searchLoop d inode fname blk 1024 swp') ∨
      ∃ r ∈ rs, r.name = fname ∧ ∃ at_ swp',
        searchLoop d inode fname blk off swp = some (.found blk at_ swp') ∧ recAt b at_ = r := by
  induction rs generalizing off swp with
  | nil =>
      rw [h.eq_of_nil]
      exact Or.inl ⟨by simp, swp, rfl⟩
  | cons r rs ih =>
      obtain ⟨hoff, hlen⟩ := h.inside (fun _ => Rec.Proper.room) le_rfl
      obtain ⟨hrec, hok, hrest⟩ := h.head
      have hft : dFileType b off ≠ 0 := by
        have hft' := hok.ft
        rw [← hrec] at hft'
        exact hft'
      have hdname : dName b off = r.name := by
        rw [← hrec]
        rfl
      have hrecLen : dRecLen b off = r.recLen := by
        rw [← hrec]
        rfl
      rw [searchLoop_at hname hblk hoff]
      simp only [hb, if_neg hft, hdname, hrecLen, if_neg hlen]
      by_cases heq : r.name = fname
      · rw [if_pos heq]
        exact Or.inr ⟨r, List.mem_cons_self, heq, off, swp, rfl, hrec⟩
      · rw [if_neg heq]
        cases ih hrest off with
        | inl hpass =>
            obtain ⟨hno, swp', hloop⟩ := hpass
            refine Or.inl ⟨fun q hq => ?_, swp', hloop⟩
            cases List.mem_cons.mp hq with
            | inl hqr => rw [hqr]; exact heq
            | inr hq => exact hno q hq
        | inr hfound =>
            obtain ⟨q, hq, hqname, hrun⟩ := hfound
            exact Or.inr ⟨q, List.mem_cons_of_mem _ hq, hqname, hrun⟩

/-- The search for a name finds a record of the name in the list of entries, when
there is one. -/
theorem searchLoop_entries (h : FullDir d inode recs) {fname : List UInt8} (hname : 0 ∉ fname)
    {k : Nat} (hk : k < iBlocks inode) (swp : Nat) :
    ((∀ r ∈ entriesFrom inode recs k, r.name ≠ fname) ∧
        searchLoop d inode fname k 0 swp = some .notFound) ∨
      ∃ r ∈ entriesFrom inode recs k, r.name = fname ∧ ∃ blk off swp',
        searchLoop d inode fname k 0 swp = some (.found blk off swp') ∧
        recAt (ext2ReadBlock d (iBlock inode blk)) off = r := by
  have hle := h.le
  induction hm : iBlocks inode - (k + 1) generalizing k swp with
  | zero =>
      have hsplit := entriesFrom_cons recs hk
      rw [entriesFrom_end recs (show iBlocks inode ≤ k + 1 by omega), List.append_nil] at hsplit
      rw [hsplit]
      cases searchLoop_tiles hname ⟨by omega, hk⟩ rfl (h.tiled k hk) swp with
      | inl hpass =>
          obtain ⟨hno, swp', hloop⟩ := hpass
          refine Or.inl ⟨hno, ?_⟩
          rw [hloop, searchLoop_end ⟨by omega, hk⟩ (by omega) le_rfl]
      | inr hfound =>
          obtain ⟨r, hr, hrname, at_, swp', hloop, hat⟩ := hfound
          exact Or.inr ⟨r, hr, hrname, k, at_, swp', hloop, hat⟩
  | succ m ih =>
      have hnext : k + 1 < iBlocks inode := by
        omega
      rw [entriesFrom_cons recs hk]
      cases searchLoop_tiles hname ⟨by omega, hk⟩ rfl (h.tiled k hk) swp with
      | inl hpass =>
          obtain ⟨hno, swp', hloop⟩ := hpass
          rw [hloop, searchLoop_cross ⟨by omega, hnext⟩ le_rfl]
          cases ih hnext swp' (by omega) with
          | inl hnone =>
              refine Or.inl ⟨fun r hr => ?_, hnone.2⟩
              cases List.mem_append.mp hr with
              | inl hr => exact hno r hr
              | inr hr => exact hnone.1 r hr
          | inr hfound =>
              obtain ⟨r, hr, hrest⟩ := hfound
              exact Or.inr ⟨r, List.mem_append_right _ hr, hrest⟩
      | inr hfound =>
          obtain ⟨r, hr, hrname, at_, swp', hloop, hat⟩ := hfound
          exact Or.inr ⟨r, List.mem_append_left _ hr, hrname, k, at_, swp', hloop, hat⟩

/-- The records of a full directory are proper. -/
theorem FullDir.proper (h : FullDir d inode recs) :
    ∀ r ∈ entriesFrom inode recs 0, r.Proper := by
  intro r hr
  rw [entriesFrom_zero] at hr
  obtain ⟨k, hk, hmem⟩ := List.mem_flatMap.mp hr
  exact (h.tiled k (List.mem_range.mp hk)).ok r hmem

end Walks

/-! ## Listing and lookup -/

/-- The inode on the device. -/
def diskInode (sb : Super) (d : Disk) (ino : Nat) : Buf := (ext2ReadInode sb d ino fun _ => 0).2

/-- What a call reads of an inode in use does not depend on its local variable. -/
theorem readInode_disk {sb : Super} {d : Disk} {ino : Nat} (h : inoExist d ino = 1) (stack : Buf) :
    (ext2ReadInode sb d ino stack).2 = diskInode sb d ino := by
  simp only [diskInode, ext2ReadInode, h, ne_eq, not_true_eq_false, if_false]

section Agree

variable {sb : Super} {d : Disk} {inode : Buf} {recs : Nat → List Rec}

/-- Records one behind the other have room for as many bytes. -/
theorem TilesOf.length_le {b : Buf} {off stop : Nat} {rs : List Rec}
    (h : TilesOf Rec.Proper b off rs stop) : off + rs.length ≤ stop := by
  induction h with
  | nil off => exact le_rfl
  | cons hok _ ih =>
      have hroom := hok.room
      rw [List.length_cons]
      omega

/-- A directory has at most as many records as its blocks have bytes. -/
theorem FullDir.length_le (h : FullDir d inode recs) {k : Nat} (hk : k ≤ iBlocks inode) :
    (entriesFrom inode recs k).length + 1024 * k ≤ 1024 * iBlocks inode := by
  induction hm : iBlocks inode - k generalizing k with
  | zero =>
      have hend : iBlocks inode ≤ k := by
        omega
      rw [entriesFrom_end recs hend]
      simp only [List.length_nil]
      omega
  | succ m ih =>
      have hlt : k < iBlocks inode := by
        omega
      have hrest := ih (show k + 1 ≤ iBlocks inode by omega) (by omega)
      have hhere := (h.tiled k hlt).length_le
      rw [entriesFrom_cons recs hlt, List.length_append]
      omega

/-- What a pass fills in from a record. -/
theorem fillVfsDentry_rec {stk : Stack} {b : Buf} {off : Nat} {r : Rec} (hrec : recAt b off = r)
    (hr : r.Proper) :
    dNameLen b off = r.name.length ∧ (ext2FillVfsDentry sb d stk b off).filename = r.name ∧
      (ext2FillVfsDentry sb d stk b off).iIno = r.ino := by
  have hname : dName b off = r.name := by
    rw [← hrec]
    rfl
  refine ⟨?_, ?_, ?_⟩
  · rw [← hname, dName, length_bytesAt]
  · simp only [ext2FillVfsDentry, hname]
    rw [List.takeWhile_eq_self_iff]
    intro c hc
    apply decide_eq_true
    rintro rfl
    exact hr.noNul hc
  · rw [← hrec]
    rfl

/-- What a call delivers when the walk to its position ends at a record. -/
theorem dirFread_record {self : File} (hself : self.iMode &&& ext2SIfdir ≠ 0)
    (hexist : inoExist d self.iIno = 1) {blk off : Nat}
    (hloop : indexLoop d (diskInode sb d self.iIno) self.fPos 0 0 = some (blk, off)) {r : Rec}
    (hrec : recAt (ext2ReadBlock d (iBlock (diskInode sb d self.iIno) blk)) off = r)
    (hr : r.Proper) (c : ReadCall) (hbytes : fnameLen ≤ c.nbytes) :
    ∃ buf, dirFread sb d c self =
        ((r.name.length : Int), buf, { self with fPos := (self.fPos + 1) % 2 ^ 32 }) ∧
      bytesAt buf 0 r.name.length = r.name := by
  obtain ⟨hlen, hfile, -⟩ := @fillVfsDentry_rec sb d c.stk _ _ _ hrec hr
  have hshort := hr.short
  have hnat : ¬ ((r.name.length : Nat) : Int) = -1 := by
    omega
  have hfits : ¬ c.nbytes < r.name.length := by
    omega
  refine ⟨_, ?_, bytesAt_strncpy c.buf 0 _⟩
  simp only [dirFread, if_neg hself, readInode_disk hexist, ext2ReadDentryByIndex, hloop, hlen,
    hfile, if_neg hnat, Int.toNat_natCast, if_neg hfits]

/-- What a call delivers: the entry at the position, or nothing behind the last one. -/
theorem dirFread_entries {self : File} (hself : self.iMode &&& ext2SIfdir ≠ 0)
    (hexist : inoExist d self.iIno = 1) (h : FullDir d (diskInode sb d self.iIno) recs)
    (c : ReadCall) (hbytes : fnameLen ≤ c.nbytes) :
    (∃ hn : self.fPos < (entriesFrom (diskInode sb d self.iIno) recs 0).length, ∃ buf,
        dirFread sb d c self =
          (((entriesFrom (diskInode sb d self.iIno) recs 0)[self.fPos].name.length : Int), buf,
            { self with fPos := (self.fPos + 1) % 2 ^ 32 }) ∧
        bytesAt buf 0 (entriesFrom (diskInode sb d self.iIno) recs 0)[self.fPos].name.length =
          (entriesFrom (diskInode sb d self.iIno) recs 0)[self.fPos].name) ∨
      (entriesFrom (diskInode sb d self.iIno) recs 0).length ≤ self.fPos ∧
        (dirFread sb d c self).1 = 0 := by
  cases indexLoop_entries h h.pos self.fPos with
  | inl hin =>
      obtain ⟨hn, blk, off, hloop, hat⟩ := hin
      have hproper := h.proper _ (List.getElem_mem hn)
      obtain ⟨buf, hrun, hname⟩ := dirFread_record hself hexist hloop hat hproper c hbytes
      exact Or.inl ⟨hn, buf, hrun, hname⟩
  | inr hout =>
      obtain ⟨hle, hloop⟩ := hout
      refine Or.inr ⟨hle, ?_⟩
      simp [dirFread, hself, readInode_disk hexist, ext2ReadDentryByIndex, hloop]

/-- Calls from a position on deliver the names of the records from there on. -/
theorem listDir_from {self : File} (hself : self.iMode &&& ext2SIfdir ≠ 0)
    (hexist : inoExist d self.iIno = 1) (h : FullDir d (diskInode sb d self.iIno) recs)
    {calls : Nat → ReadCall} (hcalls : ∀ i, fnameLen ≤ (calls i).nbytes) (N i n : Nat)
    (hn : n ≤ (entriesFrom (diskInode sb d self.iIno) recs 0).length)
    (hN : (entriesFrom (diskInode sb d self.iIno) recs 0).length < N + n) :
    listDir sb d calls N i { self with fPos := n } =
      some (((entriesFrom (diskInode sb d self.iIno) recs 0).drop n).map Rec.name) := by
  have hbound := h.length_le (Nat.zero_le _)
  have hle := h.le
  induction N generalizing i n with
  | zero => omega
  | succ N ih =>
      cases @dirFread_entries sb d recs { self with fPos := n } hself hexist h (calls i)
          (hcalls i) with
      | inl hin =>
          obtain ⟨hlt, buf, hrun, hname⟩ := hin
          have hproper := h.proper _ (List.getElem_mem hlt)
          have hpos := List.length_pos_iff.mpr hproper.name
          have hmod : (n + 1) % 2 ^ 32 = n + 1 := by
            apply Nat.mod_eq_of_lt
            omega
          have hlt' : n < (entriesFrom (diskInode sb d self.iIno) recs 0).length := hlt
          have hnext := ih (i + 1) (n + 1) (by omega) (by omega)
          simp only [listDir, hrun, hmod, Int.natCast_eq_zero, Int.toNat_natCast, hpos.ne',
            if_false]
          rw [hnext, Option.map_some, hname, List.drop_eq_getElem_cons hlt', List.map_cons]
      | inr hout =>
          obtain ⟨hge, hzero⟩ := hout
          have hend : (entriesFrom (diskInode sb d self.iIno) recs 0).length ≤ n := hge
          rw [listDir]
          simp only [hzero, if_true]
          rw [List.drop_eq_nil_of_le hend]
          rfl

/-- Reading a full directory from its start lists the names of its records. -/
theorem FullDir.listDir {self : File} (h : FullDir d (diskInode sb d self.iIno) recs)
    (hself : self.iMode &&& ext2SIfdir ≠ 0) (hexist : inoExist d self.iIno = 1)
    (hpos : self.fPos = 0) {calls : Nat → ReadCall} (hcalls : ∀ i, fnameLen ≤ (calls i).nbytes)
    (N : Nat) (hN : N > ((List.range (iBlocks (diskInode sb d self.iIno))).flatMap recs).length) :
    Ext2.listDir sb d calls N 0 self =
      some (((List.range (iBlocks (diskInode sb d self.iIno))).flatMap recs).map Rec.name) := by
  rw [← entriesFrom_zero] at hN ⊢
  have hlist := listDir_from hself hexist h hcalls N 0 0 (Nat.zero_le _) (by omega)
  have hstart : ({ self with fPos := 0 } : File) = self := by
    rw [← hpos]
  rw [hstart, List.drop_zero] at hlist
  exact hlist

/-- A lookup of a name that no record has finds nothing. -/
theorem FullDir.lookup_none (h : FullDir d inode recs) (stk : Stack) {fname : List UInt8}
    (hname : 0 ∉ fname) (dentry : Dentry)
    (hno : fname ∉ ((List.range (iBlocks inode)).flatMap recs).map Rec.name) :
    ext2ReadDentryByName sb d stk fname inode dentry = some (0, dentry) := by
  rw [← entriesFrom_zero] at hno
  rw [ext2ReadDentryByName, if_neg h.isDir]
  cases searchLoop_entries h hname h.pos 0 with
  | inl hnone => rw [hnone.2]
  | inr hfound =>
      obtain ⟨q, hq, hqname, -⟩ := hfound
      exact absurd (hqname ▸ List.mem_map_of_mem hq) hno

/-- A lookup of the name of a record finds its inode number. -/
theorem FullDir.lookup_record (h : FullDir d inode recs) (stk : Stack) {fname : List UInt8}
    (hname : 0 ∉ fname) (dentry : Dentry) (r : Rec)
    (hr : r ∈ (List.range (iBlocks inode)).flatMap recs) (hrname : r.name = fname) :
    0 < fname.length ∧ ∃ dentry', ext2ReadDentryByName sb d stk fname inode dentry =
      some ((fname.length : Int), dentry') ∧ dentry'.iIno = r.ino := by
  have hunique := h.unique
  rw [← entriesFrom_zero] at hr hunique
  rw [ext2ReadDentryByName, if_neg h.isDir]
  cases searchLoop_entries h hname h.pos 0 with
  | inl hnone => exact absurd hrname (hnone.1 r hr)
  | inr hfound =>
      obtain ⟨q, hq, hqname, blk, off, swp, hloop, hat⟩ := hfound
      have hproper := h.proper q hq
      obtain ⟨hlen, -, hino⟩ := @fillVfsDentry_rec sb d stk _ _ _ hat hproper
      have hqr : q = r := List.inj_on_of_nodup_map hunique hq hr (hqname.trans hrname.symm)
      subst hqr
      refine ⟨?_, _, ?_, hino⟩
      · rw [← hqname]
        exact List.length_pos_iff.mpr hproper.name
      · rw [hloop]
        simp only [hlen, hqname]

/-- Reading a directory from its start until nothing is delivered lists the name of
every record once, in the order on the disk; a lookup succeeds exactly for the names
in this list, and finds the inode number of the record with the name. -/
theorem listing_agrees (sb : Super) (d : Disk) (recs : Nat → List Rec) (self : File)
    (hself : self.iMode &&& ext2SIfdir ≠ 0) (hexist : inoExist d self.iIno = 1)
    (hpos : self.fPos = 0) (h : FullDir d (diskInode sb d self.iIno) recs)
    (calls : Nat → ReadCall) (hcalls : ∀ i, fnameLen ≤ (calls i).nbytes) :
    let entries := (List.range (iBlocks (diskInode sb d self.iIno))).flatMap recs
    (∀ N > entries.length, listDir sb d calls N 0 self = some (entries.map Rec.name)) ∧
      (entries.map Rec.name).Nodup ∧
      ∀ (stk : Stack) (fname : List UInt8) (dentry : Dentry), 0 ∉ fname →
        (fname ∉ entries.map Rec.name →
          ext2ReadDentryByName sb d stk fname (diskInode sb d self.iIno) dentry =
            some (0, dentry)) ∧
        ∀ r ∈ entries, r.name = fname → 0 < fname.length ∧ ∃ dentry',
          ext2ReadDentryByName sb d stk fname (diskInode sb d self.iIno) dentry =
            some ((fname.length : Int), dentry') ∧ dentry'.iIno = r.ino := by
  intro entries
  refine ⟨h.listDir hself hexist hpos hcalls, h.unique, fun stk fname dentry hname => ?_⟩
  exact ⟨h.lookup_none stk hname dentry, h.lookup_record stk hname dentry⟩

end Agree

/-- A directory whose blocks are full of aligned records is a full directory when its
names are neither empty nor too long. -/
theorem Listed.fullDir {g : Geometry} {d : Disk} {ino : Nat} {recs : Nat → List Rec}
    (hd : OnDisk g d) (h : Listed g (view g d) ino recs)
    (hnames : ∀ k < iBlocks ((view g d).inode ino), ∀ r ∈ recs k,
      r.name ≠ [] ∧ r.name.length < fnameLen) :
    inoExist d ino = 1 ∧ FullDir d (diskInode g.sb d ino) recs := by
  have hinode : diskInode g.sb d ino = (view g d).inode ino := by
    rw [diskInode, readInode_eq hd h.owns.valid h.owns.used]
  refine ⟨?_, ?_⟩
  · rw [inoExist_eq hd (validIno_le h.owns.valid), if_pos h.owns.used]
  · rw [hinode]
    refine ⟨h.isDir, h.pos, h.le, fun k hk => ?_, h.unique⟩
    rw [h.readBlock hk]
    apply (h.tiled k hk).mono
    intro r hr hfits
    have hroom := hfits.room
    have hpad := le_padded r.name.length
    exact ⟨hfits.ft, (hnames k hk r hr).1, hfits.noNul, (hnames k hk r hr).2, by omega⟩

/-- `listing_agrees` for the root with the two dots and a file. -/
theorem listing_agrees_fileRoot :
    listDir smallGroup.sb fileRootDisk
        (fun _ => ⟨default, fun _ => 0, default, fun _ => 0, 48⟩) 4 0 ⟨0x41FF, 2, 1024, 0⟩ =
      some [dot, dotDot, [102]] := by
  obtain ⟨-, -, -, hblocks⟩ := directory_fileRoot
  have hdisk : OnDisk smallGroup fileRootDisk := onDisk_format smallGroup fileRoot
  have hinode : diskInode smallGroup.sb fileRootDisk 2 =
      (view smallGroup fileRootDisk).inode 2 := by
    rw [diskInode, readInode_eq hdisk listed_fileRoot.owns.valid listed_fileRoot.owns.used]
  obtain ⟨hexist, hfull⟩ := listed_fileRoot.fullDir hdisk fun k hk r hr => by
    rw [hblocks, Nat.lt_one_iff] at hk
    rw [hk, records_fileRoot] at hr
    revert r
    decide
  obtain ⟨hlist, -⟩ := listing_agrees smallGroup.sb fileRootDisk _ ⟨0x41FF, 2, 1024, 0⟩ (by decide)
    hexist rfl hfull (fun _ => ⟨default, fun _ => 0, default, fun _ => 0, 48⟩) (fun _ => le_rfl)
  have hentries : (List.range (iBlocks (diskInode smallGroup.sb fileRootDisk 2))).flatMap
      ((view smallGroup fileRootDisk).dirRecords 2) = fileRecords := by
    rw [hinode, hblocks]
    simp [records_fileRoot]
  rw [hentries] at hlist
  exact hlist 4 (by decide)

end Ext2
end NochOS
