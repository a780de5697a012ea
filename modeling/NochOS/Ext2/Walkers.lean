import NochOS.Ext2.Limits
import NochOS.Ext2.Directory
import NochOS.Library.Loops

/-!
# ext2 - what the walks over records access

The loops over the records of a directory advance by lengths read from the disk.
Here each loop is written with what a pass accesses: the slots of `i_block` it
uses, and the bytes of the block buffer it reads or writes.  On this hangs whether
the loop terminates and stays inside its buffer, for any content of the disk.

Main results:

- Theorems `searchWalk_safe_iff`, `indexWalk_safe_iff`, `insertWalk_safe_iff`: each
  walk is safe exactly when the records it meets are.
- Theorem `searchWalk_terminates_iff`: the search of `searchLoop` is this walk.
-/

namespace NochOS
namespace Ext2

open Library

/-! ## Accesses -/

/-- A slot of `i_block`, or bytes of the block buffer. -/
inductive Access where
  | slot (k : Nat)
  | bytes (off len : Nat)

/-- An access to a direct block or inside the block buffer. -/
def Access.Inside : Access → Prop
  | .slot k => k ≤ 11
  | .bytes off len => len = 0 ∨ off + len ≤ blocksize

/-- The slot the boundary check of a walk uses when it goes on to the next block. -/
def crossing (blk off : Nat) : List Access := if 1024 ≤ off then [.slot (blk + 1)] else []

theorem crossing_inside {blk off : Nat} (h : 1024 ≤ off → blk + 1 ≤ 11) :
    ∀ a ∈ crossing blk off, a.Inside := by
  intro a ha
  unfold crossing at ha
  by_cases hoff : 1024 ≤ off
  · rw [if_pos hoff, List.mem_singleton] at ha
    subst ha
    exact h hoff
  · rw [if_neg hoff] at ha
    exact absurd ha (by simp)

/-- A walk past the twelfth block uses a slot of no direct block. -/
theorem le_of_crossing_inside {blk off : Nat} (h : ∀ a ∈ crossing blk off, a.Inside)
    (hoff : 1024 ≤ off) : blk + 1 ≤ 11 := by
  apply h (.slot (blk + 1))
  rw [crossing, if_pos hoff]
  exact List.mem_singleton_self _

/-- Bytes that are accessed lie in the buffer. -/
theorem Access.Inside.le {off len : Nat} (h : (Access.bytes off len).Inside) (hlen : len ≠ 0) :
    off + len ≤ blocksize :=
  h.resolve_left hlen

theorem boundary_lt (blk off : Nat) : (boundary blk off).2 < 1024 := by
  unfold boundary
  by_cases hoff : 1024 ≤ off
  · simp [hoff]
  · rw [if_neg hoff]
    simpa using hoff

/-- A position inside a block is not moved by the boundary check. -/
theorem boundary_of_lt {blk off : Nat} (h : off < 1024) : boundary blk off = (blk, off) := by
  rw [boundary, if_neg (by omega)]

/-! ## The search for a name -/

section Search

variable (d : Disk) (inode : Buf) (fname : List UInt8) (found : Buf → Nat → Nat → List Access)

/-- The variables `blk_idx`, `dir_off` and the offset of `swp_dir` of a search. -/
structure Cursor where
  blk : Nat
  off : Nat
  swp : Nat

/-- The search is left without a look at a record. -/
def Exhausted (inode : Buf) (c : Cursor) : Prop :=
  ¬ (c.blk < 12 ∧ c.blk < iBlocks inode) ∨ 1024 ≤ c.off ∧ iBlocks inode ≤ c.blk + 1

instance (c : Cursor) : Decidable (Exhausted inode c) := by
  unfold Exhausted
  infer_instance

/-- The record at an offset has the name. -/
def NameMatches (blkBuf : Buf) (off : Nat) (fname : List UInt8) : Prop :=
  strncmpEq blkBuf (off + 8) fname (dNameLen blkBuf off) = true ∧
    fname.length = dNameLen blkBuf off

instance (blkBuf : Buf) (off : Nat) : Decidable (NameMatches blkBuf off fname) := by
  unfold NameMatches
  infer_instance

/-- The block a pass looks into, and the offset of the record in it. -/
def metBlock (c : Cursor) : Buf := ext2ReadBlock d (iBlock inode (boundary c.blk c.off).1)

/-- The loop of `ext2_read_dentry_by_name` and `ext2_remove_dentry`.  `found` is what
is accessed for the record with the name. -/
def searchWalk : Loop Cursor Access where
  accesses c :=
    if Exhausted inode c then []
    else
      let off := (boundary c.blk c.off).2
      let blkBuf := metBlock d inode c
      crossing c.blk c.off ++ .bytes off 8 ::
        if dFileType blkBuf off = 0 then []
        else
          .bytes (off + 8) (strncmpReads blkBuf (off + 8) fname (dNameLen blkBuf off)) ::
            if NameMatches blkBuf off fname then found blkBuf off c.swp else []
  next c :=
    if Exhausted inode c then none
    else
      let off := (boundary c.blk c.off).2
      let blkBuf := metBlock d inode c
      if dFileType blkBuf off = 0 then none
      else if NameMatches blkBuf off fname then none
      else some ⟨(boundary c.blk c.off).1, off + dRecLen blkBuf off, off⟩

/-- What is asked of the record a search meets: it is in one of the twelve direct
blocks, its header and the compared part of its name lie in the block, and the
search passes it only when it has a length. -/
structure SearchRecord (c : Cursor) : Prop where
  block : 1024 ≤ c.off → c.blk + 1 ≤ 11
  header : (boundary c.blk c.off).2 + 8 ≤ blocksize
  name : dFileType (metBlock d inode c) (boundary c.blk c.off).2 ≠ 0 →
    (Access.bytes ((boundary c.blk c.off).2 + 8)
      (strncmpReads (metBlock d inode c) ((boundary c.blk c.off).2 + 8) fname
        (dNameLen (metBlock d inode c) (boundary c.blk c.off).2))).Inside
  found : dFileType (metBlock d inode c) (boundary c.blk c.off).2 ≠ 0 →
    NameMatches (metBlock d inode c) (boundary c.blk c.off).2 fname →
    ∀ a ∈ found (metBlock d inode c) (boundary c.blk c.off).2 c.swp, a.Inside
  grows : dFileType (metBlock d inode c) (boundary c.blk c.off).2 ≠ 0 →
    ¬ NameMatches (metBlock d inode c) (boundary c.blk c.off).2 fname →
    dRecLen (metBlock d inode c) (boundary c.blk c.off).2 ≠ 0

variable {d inode fname found}

/-- A pass over a record the search goes past. -/
theorem searchWalk_next {c : Cursor} (hin : ¬ Exhausted inode c)
    (htype : dFileType (metBlock d inode c) (boundary c.blk c.off).2 ≠ 0)
    (hname : ¬ NameMatches (metBlock d inode c) (boundary c.blk c.off).2 fname) :
    (searchWalk d inode fname found).next c =
      some ⟨(boundary c.blk c.off).1,
        (boundary c.blk c.off).2 + dRecLen (metBlock d inode c) (boundary c.blk c.off).2,
        (boundary c.blk c.off).2⟩ := by
  simp only [searchWalk, if_neg hin, if_neg htype, if_neg hname]

/-- Where a pass of the search goes on. -/
theorem searchWalk_next_cases {c u : Cursor}
    (h : (searchWalk d inode fname found).next c = some u) :
    ¬ Exhausted inode c ∧
      dFileType (metBlock d inode c) (boundary c.blk c.off).2 ≠ 0 ∧
      ¬ NameMatches (metBlock d inode c) (boundary c.blk c.off).2 fname ∧
      u = ⟨(boundary c.blk c.off).1,
        (boundary c.blk c.off).2 + dRecLen (metBlock d inode c) (boundary c.blk c.off).2,
        (boundary c.blk c.off).2⟩ := by
  by_cases hin : Exhausted inode c
  · simp only [searchWalk, if_pos hin] at h
    exact absurd h (by simp)
  · by_cases htype : dFileType (metBlock d inode c) (boundary c.blk c.off).2 = 0
    · simp only [searchWalk, if_neg hin, if_pos htype] at h
      exact absurd h (by simp)
    · by_cases hname : NameMatches (metBlock d inode c) (boundary c.blk c.off).2 fname
      · simp only [searchWalk, if_neg hin, if_neg htype, if_pos hname] at h
        exact absurd h (by simp)
      · rw [searchWalk_next hin htype hname] at h
        exact ⟨hin, htype, hname, (Option.some.inj h).symm⟩

/-- A record of length zero that is passed keeps the search where it is. -/
theorem searchWalk_stuck {c : Cursor} (hin : ¬ Exhausted inode c)
    (hblock : 1024 ≤ c.off → c.blk + 1 ≤ 11)
    (htype : dFileType (metBlock d inode c) (boundary c.blk c.off).2 ≠ 0)
    (hname : ¬ NameMatches (metBlock d inode c) (boundary c.blk c.off).2 fname)
    (hlen : dRecLen (metBlock d inode c) (boundary c.blk c.off).2 = 0) :
    ¬ (searchWalk d inode fname found).Terminates c := by
  have hlt := boundary_lt c.blk c.off
  apply Loop.not_terminates_of_closed
    (S := fun u => ¬ Exhausted inode u ∧ boundary u.blk u.off = boundary c.blk c.off) ⟨hin, rfl⟩
  rintro u ⟨hu, heq⟩
  have hblk : metBlock d inode u = metBlock d inode c := by
    rw [metBlock, metBlock, heq]
  have hnext := @searchWalk_next d inode fname found u hu (by rw [hblk, heq]; exact htype)
    (by rw [hblk, heq]; exact hname)
  rw [hblk, heq, hlen, Nat.add_zero] at hnext
  refine ⟨_, hnext, ?_, ?_⟩
  · unfold Exhausted at hin ⊢
    unfold boundary at hlt ⊢
    by_cases hoff : 1024 ≤ c.off
    · have hle := hblock hoff
      simp only [if_pos hoff] at hlt ⊢
      omega
    · simp only [if_neg hoff] at hlt ⊢
      omega
  · exact boundary_of_lt hlt

/-- The search is safe exactly when every record it meets is as it should be. -/
theorem searchWalk_safe_iff (c : Cursor) :
    (searchWalk d inode fname found).Safe Access.Inside c ↔
      ∀ t, (searchWalk d inode fname found).Visits c t →
        Exhausted inode t ∨ SearchRecord d inode fname found t := by
  apply Loop.safe_iff (WellFounded.prod_lex Nat.lt_wfRel.wf Nat.lt_wfRel.wf)
    fun c => (13 - c.blk, 1024 - c.off)
  · intro t hgood a ha
    by_cases hin : Exhausted inode t
    · simp only [searchWalk, if_pos hin] at ha
      exact absurd ha (by simp)
    · have hrec := hgood.resolve_left hin
      simp only [searchWalk, if_neg hin, List.mem_append, List.mem_cons] at ha
      rcases ha with hcross | rfl | ha
      · exact crossing_inside hrec.block a hcross
      · exact Or.inr hrec.header
      · by_cases htype : dFileType (metBlock d inode t) (boundary t.blk t.off).2 = 0
        · rw [if_pos htype] at ha
          exact absurd ha (by simp)
        · rw [if_neg htype, List.mem_cons] at ha
          rcases ha with rfl | ha
          · exact hrec.name htype
          · by_cases hname : NameMatches (metBlock d inode t) (boundary t.blk t.off).2 fname
            · rw [if_pos hname] at ha
              exact hrec.found htype hname a ha
            · rw [if_neg hname] at ha
              exact absurd ha (by simp)
  · intro t u _ hgood hnext
    obtain ⟨hin, htype, hname, rfl⟩ := searchWalk_next_cases hnext
    have hrec := hgood.resolve_left hin
    have hblk : t.blk < 12 := by
      unfold Exhausted at hin
      omega
    exact boundary_decreases hblk (hrec.grows htype hname)
  · intro t hends hall
    refine or_iff_not_imp_left.mpr fun hin => ?_
    have hmem : ∀ a, a ∈ (searchWalk d inode fname found).accesses t ↔
        a ∈ crossing t.blk t.off ∨ a = .bytes (boundary t.blk t.off).2 8 ∨
          dFileType (metBlock d inode t) (boundary t.blk t.off).2 ≠ 0 ∧
            (a = .bytes ((boundary t.blk t.off).2 + 8)
                (strncmpReads (metBlock d inode t) ((boundary t.blk t.off).2 + 8) fname
                  (dNameLen (metBlock d inode t) (boundary t.blk t.off).2)) ∨
              NameMatches (metBlock d inode t) (boundary t.blk t.off).2 fname ∧
                a ∈ found (metBlock d inode t) (boundary t.blk t.off).2 t.swp) := by
      intro a
      simp only [searchWalk, if_neg hin, List.mem_append, List.mem_cons]
      by_cases htype : dFileType (metBlock d inode t) (boundary t.blk t.off).2 = 0
      · simp [htype]
      · by_cases hname : NameMatches (metBlock d inode t) (boundary t.blk t.off).2 fname
        · simp [htype, hname]
        · simp [htype, hname]
    refine
      { block := le_of_crossing_inside fun a ha => hall a ((hmem a).mpr (Or.inl ha))
        header := (hall _ ((hmem _).mpr (Or.inr (Or.inl rfl)))).le (by decide)
        name := fun htype => hall _ ((hmem _).mpr (Or.inr (Or.inr ⟨htype, Or.inl rfl⟩)))
        found := fun htype hname a ha =>
          hall a ((hmem a).mpr (Or.inr (Or.inr ⟨htype, Or.inr ⟨hname, ha⟩⟩)))
        grows := fun htype hname hlen => ?_ }
    exact searchWalk_stuck hin (le_of_crossing_inside fun a ha => hall a ((hmem a).mpr (Or.inl ha)))
      htype hname hlen hends

end Search

/-- The loop of the search returns exactly when the walk terminates. -/
theorem searchWalk_terminates_iff (d : Disk) (inode : Buf) (fname : List UInt8)
    (found : Buf → Nat → Nat → List Access) (blk off swp : Nat) :
    (searchWalk d inode fname found).Terminates ⟨blk, off, swp⟩ ↔
      (searchLoop d inode fname blk off swp).isSome := by
  fun_induction searchLoop d inode fname blk off swp with
  | case1 blk off swp hin hend =>
      have hex : Exhausted inode ⟨blk, off, swp⟩ := Or.inr hend
      have hnext : (searchWalk d inode fname found).next ⟨blk, off, swp⟩ = none := by
        simp only [searchWalk, if_pos hex]
      simp [Loop.terminates_stop hnext]
  | case2 blk off swp hin hend q o b htype =>
      have hex : ¬ Exhausted inode ⟨blk, off, swp⟩ :=
        not_or.mpr ⟨not_not.mpr hin, hend⟩
      have hnext : (searchWalk d inode fname found).next ⟨blk, off, swp⟩ = none := by
        simp only [searchWalk, if_neg hex]
        exact if_pos htype
      simp [Loop.terminates_stop hnext]
  | case3 blk off swp hin hend q o b htype hname =>
      have hex : ¬ Exhausted inode ⟨blk, off, swp⟩ :=
        not_or.mpr ⟨not_not.mpr hin, hend⟩
      have hnext : (searchWalk d inode fname found).next ⟨blk, off, swp⟩ = none := by
        simp only [searchWalk, if_neg hex]
        exact (if_neg htype).trans (if_pos hname)
      simp [Loop.terminates_stop hnext]
  | case4 blk off swp hin hend q o b htype hname hlen hblk =>
      have hex : ¬ Exhausted inode ⟨blk, off, swp⟩ :=
        not_or.mpr ⟨not_not.mpr hin, hend⟩
      have hblock : 1024 ≤ off → blk + 1 ≤ 11 := by
        intro hoff
        have hq : q = blk + 1 := by
          simp only [q, boundary, if_pos hoff]
        omega
      have hstuck := @searchWalk_stuck d inode fname found ⟨blk, off, swp⟩ hex hblock htype hname
        hlen
      simp [hstuck]
  | case5 blk off swp hin hend q o b htype hname hlen hblk =>
      have hex : ¬ Exhausted inode ⟨blk, off, swp⟩ :=
        not_or.mpr ⟨not_not.mpr hin, hend⟩
      have hpast : Exhausted inode ⟨q, o + dRecLen b o, o⟩ := Or.inl fun h => hblk h.1
      have hnext : (searchWalk d inode fname found).next ⟨q, o + dRecLen b o, o⟩ = none := by
        simp only [searchWalk, if_pos hpast]
      rw [Loop.terminates_step (searchWalk_next hex htype hname)]
      exact ⟨fun _ => rfl, fun _ => Loop.terminates_stop hnext⟩
  | case6 blk off swp hin hend q o b htype hname hlen ih =>
      have hex : ¬ Exhausted inode ⟨blk, off, swp⟩ :=
        not_or.mpr ⟨not_not.mpr hin, hend⟩
      rw [Loop.terminates_step (searchWalk_next hex htype hname)]
      exact ih
  | case7 blk off swp hin =>
      have hex : Exhausted inode ⟨blk, off, swp⟩ := Or.inl hin
      have hnext : (searchWalk d inode fname found).next ⟨blk, off, swp⟩ = none := by
        simp only [searchWalk, if_pos hex]
      simp [Loop.terminates_stop hnext]

/-! ## The walk to an index -/

section Index

variable (d : Disk) (inode : Buf) (idx : Nat)

/-- The variables `i`, `blk_idx` and `dir_off` of `ext2_read_dentry_by_index`. -/
structure IndexCursor where
  i : Nat
  blk : Nat
  off : Nat

/-- `i <= idx` fails after this pass; `i` is compared as an unsigned value. -/
def LastPass (c : IndexCursor) : Prop := ¬ (c.i + 1) % 2 ^ 32 ≤ idx

instance (c : IndexCursor) : Decidable (LastPass idx c) := by
  unfold LastPass
  infer_instance

/-- The blocks end before the record. -/
def IndexEnd (c : IndexCursor) : Prop := 1024 ≤ c.off ∧ iBlocks inode ≤ c.blk + 1

instance (c : IndexCursor) : Decidable (IndexEnd inode c) := by
  unfold IndexEnd
  infer_instance

/-- The block a pass looks into. -/
def indexBlock (c : IndexCursor) : Buf := ext2ReadBlock d (iBlock inode (boundary c.blk c.off).1)

/-- The loop of `ext2_read_dentry_by_index`: of the records it steps over it reads
`rec_len`, of the last one what it fills the entry from. -/
def indexWalk : Loop IndexCursor Access where
  accesses c :=
    if IndexEnd inode c then []
    else
      let off := (boundary c.blk c.off).2
      let blkBuf := indexBlock d inode c
      crossing c.blk c.off ++ .bytes (off + 4) 2 ::
        if LastPass idx c then
          [.bytes off 4, .bytes (off + 6) 1,
            .bytes (off + 8) (strncpyReads blkBuf (off + 8) (dNameLen blkBuf off))]
        else []
  next c :=
    if IndexEnd inode c then none
    else if LastPass idx c then none
    else
      let off := (boundary c.blk c.off).2
      some ⟨c.i + 1, (boundary c.blk c.off).1, off + dRecLen (indexBlock d inode c) off⟩

/-- What is asked of the record a pass of the walk meets.  Only for the largest
index, for which the comparison never fails, the length matters. -/
structure IndexRecord (c : IndexCursor) : Prop where
  block : 1024 ≤ c.off → c.blk + 1 ≤ 11
  recLen : (boundary c.blk c.off).2 + 6 ≤ blocksize
  last : LastPass idx c → (boundary c.blk c.off).2 + 7 ≤ blocksize ∧
    (Access.bytes ((boundary c.blk c.off).2 + 8)
      (strncpyReads (indexBlock d inode c) ((boundary c.blk c.off).2 + 8)
        (dNameLen (indexBlock d inode c) (boundary c.blk c.off).2))).Inside
  grows : idx = 2 ^ 32 - 1 → dRecLen (indexBlock d inode c) (boundary c.blk c.off).2 ≠ 0

variable {d inode idx}

/-- A pass that steps over a record. -/
theorem indexWalk_next {c : IndexCursor} (hin : ¬ IndexEnd inode c) (hlast : ¬ LastPass idx c) :
    (indexWalk d inode idx).next c =
      some ⟨c.i + 1, (boundary c.blk c.off).1,
        (boundary c.blk c.off).2 + dRecLen (indexBlock d inode c) (boundary c.blk c.off).2⟩ := by
  simp only [indexWalk, if_neg hin, if_neg hlast]

/-- Where a pass of the walk goes on. -/
theorem indexWalk_next_cases {c u : IndexCursor} (h : (indexWalk d inode idx).next c = some u) :
    ¬ IndexEnd inode c ∧ ¬ LastPass idx c ∧
      u = ⟨c.i + 1, (boundary c.blk c.off).1,
        (boundary c.blk c.off).2 + dRecLen (indexBlock d inode c) (boundary c.blk c.off).2⟩ := by
  by_cases hin : IndexEnd inode c
  · simp only [indexWalk, if_pos hin] at h
    exact absurd h (by simp)
  · by_cases hlast : LastPass idx c
    · simp only [indexWalk, if_neg hin, if_pos hlast] at h
      exact absurd h (by simp)
    · rw [indexWalk_next hin hlast] at h
      exact ⟨hin, hlast, (Option.some.inj h).symm⟩

/-- The accesses of a pass that meets a record. -/
theorem mem_indexWalk {c : IndexCursor} (hin : ¬ IndexEnd inode c) (a : Access) :
    a ∈ (indexWalk d inode idx).accesses c ↔
      a ∈ crossing c.blk c.off ∨ a = .bytes ((boundary c.blk c.off).2 + 4) 2 ∨
        LastPass idx c ∧ (a = .bytes (boundary c.blk c.off).2 4 ∨
          a = .bytes ((boundary c.blk c.off).2 + 6) 1 ∨
          a = .bytes ((boundary c.blk c.off).2 + 8)
            (strncpyReads (indexBlock d inode c) ((boundary c.blk c.off).2 + 8)
              (dNameLen (indexBlock d inode c) (boundary c.blk c.off).2))) := by
  simp only [indexWalk, if_neg hin, List.mem_append, List.mem_cons]
  by_cases hlast : LastPass idx c
  · simp [hlast]
  · simp [hlast]

/-- In a walk from the first record `i` is at most the index. -/
theorem index_le_of_visits (hidx : idx < 2 ^ 32 - 1) {c : IndexCursor}
    (h : (indexWalk d inode idx).Visits ⟨0, 0, 0⟩ c) : c.i ≤ idx := by
  induction h with
  | start => exact Nat.zero_le _
  | @step t u _ hnext ih =>
      obtain ⟨-, hlast, rfl⟩ := indexWalk_next_cases hnext
      unfold LastPass at hlast
      show t.i + 1 ≤ idx
      omega

/-- With the largest index a record of length zero keeps the walk where it is. -/
theorem indexWalk_stuck {c : IndexCursor} (hidx : idx = 2 ^ 32 - 1) (hin : ¬ IndexEnd inode c)
    (hlen : dRecLen (indexBlock d inode c) (boundary c.blk c.off).2 = 0) :
    ¬ (indexWalk d inode idx).Terminates c := by
  have hlt := boundary_lt c.blk c.off
  apply Loop.not_terminates_of_closed
    (S := fun u => ¬ IndexEnd inode u ∧ boundary u.blk u.off = boundary c.blk c.off) ⟨hin, rfl⟩
  rintro u ⟨hu, heq⟩
  have hblk : indexBlock d inode u = indexBlock d inode c := by
    rw [indexBlock, indexBlock, heq]
  have hlast : ¬ LastPass idx u := by
    unfold LastPass
    omega
  have hnext := indexWalk_next (d := d) hu hlast
  rw [hblk, heq, hlen, Nat.add_zero] at hnext
  refine ⟨_, hnext, fun hend => ?_, boundary_of_lt hlt⟩
  have hoff : 1024 ≤ (boundary c.blk c.off).2 := hend.1
  omega

/-- The walk to an index is safe exactly when every record it meets is as it should
be. -/
theorem indexWalk_safe_iff (hidx : idx < 2 ^ 32) :
    (indexWalk d inode idx).Safe Access.Inside ⟨0, 0, 0⟩ ↔
      ∀ t, (indexWalk d inode idx).Visits ⟨0, 0, 0⟩ t →
        IndexEnd inode t ∨ IndexRecord d inode idx t := by
  have hgood : ∀ t, IndexEnd inode t ∨ IndexRecord d inode idx t →
      ∀ a ∈ (indexWalk d inode idx).accesses t, a.Inside := by
    intro t hgood a ha
    by_cases hin : IndexEnd inode t
    · simp only [indexWalk, if_pos hin] at ha
      exact absurd ha (by simp)
    · have hrec := hgood.resolve_left hin
      have hlen := hrec.recLen
      rw [mem_indexWalk hin] at ha
      rcases ha with hcross | rfl | ⟨hlast, rfl | rfl | rfl⟩
      · exact crossing_inside hrec.block a hcross
      · exact Or.inr (by omega)
      · exact Or.inr (by omega)
      · exact Or.inr (by have := (hrec.last hlast).1; omega)
      · exact (hrec.last hlast).2
  have hback : ∀ t, (indexWalk d inode idx).Terminates t →
      (∀ a ∈ (indexWalk d inode idx).accesses t, a.Inside) →
        IndexEnd inode t ∨ IndexRecord d inode idx t := by
    intro t hends hall
    refine or_iff_not_imp_left.mpr fun hin => ?_
    refine ⟨?_, ?_, fun hlast => ⟨?_, ?_⟩, fun hmax hlen => ?_⟩
    · exact le_of_crossing_inside fun a ha => hall a ((mem_indexWalk hin a).mpr (Or.inl ha))
    · exact (hall _ ((mem_indexWalk hin _).mpr (Or.inr (Or.inl rfl)))).le (by decide)
    · exact (hall _ ((mem_indexWalk hin _).mpr
        (Or.inr (Or.inr ⟨hlast, Or.inr (Or.inl rfl)⟩)))).le (by decide)
    · exact hall _ ((mem_indexWalk hin _).mpr (Or.inr (Or.inr ⟨hlast, Or.inr (Or.inr rfl)⟩)))
    · exact indexWalk_stuck hmax hin hlen hends
  by_cases hmax : idx = 2 ^ 32 - 1
  · apply Loop.safe_iff (WellFounded.prod_lex Nat.lt_wfRel.wf Nat.lt_wfRel.wf)
      (fun c => (13 - c.blk, 1024 - c.off)) hgood _ hback
    intro t u _ hrec hnext
    obtain ⟨hin, -, rfl⟩ := indexWalk_next_cases hnext
    have hok := hrec.resolve_left hin
    exact boundary_decreases_of (fun hoff => (hok.block hoff).trans (by decide)) (hok.grows hmax)
  · apply Loop.safe_iff Nat.lt_wfRel.wf (fun c => idx + 1 - c.i) hgood _ hback
    intro t u hvisit _ hnext
    have hle := index_le_of_visits (by omega) hvisit
    obtain ⟨-, -, rfl⟩ := indexWalk_next_cases hnext
    show idx + 1 - (t.i + 1) < idx + 1 - t.i
    omega

end Index

/-! ## The search for room -/

section Insert

variable (rawLen : Nat)

/-- The variables of the loop of `ext2_insert_dentry` that change: `blk_idx`,
`dir_off`, the inode of the directory, the device and the memory. -/
structure InsertCursor where
  blk : Nat
  off : Nat
  inode : Buf
  disk : Disk
  mem : Kernel

/-- The last block of the directory ends here. -/
def NeedsBlock (c : InsertCursor) : Prop := 1024 ≤ c.off ∧ iBlocks c.inode ≤ c.blk + 1

instance (c : InsertCursor) : Decidable (NeedsBlock c) := by
  unfold NeedsBlock
  infer_instance

/-- The first boundary check: the state with the next block allocated where there is
none; `none` is a page fault of the allocator. -/
def enterBlock (c : InsertCursor) : Option InsertCursor :=
  if NeedsBlock c then
    (ext2AllocIblockRun c.mem c.disk c.inode).map fun r =>
      { c with inode := r.2.2.1, disk := r.2.2.2, mem := r.2.1 }
  else if 1024 ≤ c.off ∧ iBlock c.inode (c.blk + 1) = 0 then
    (ext2AllocIblockRun c.mem c.disk (setIBlocks c.inode (c.blk + 1))).map fun r =>
      { c with inode := r.2.2.1, disk := r.2.2.2, mem := r.2.1 }
  else some c

/-- The block a pass looks into. -/
def roomBlock (c : InsertCursor) : Buf :=
  ext2ReadBlock c.disk (iBlock c.inode (boundary c.blk c.off).1)

/-- There is room behind the name of a record. -/
def RoomBehind (blkBuf : Buf) (off : Nat) : Prop :=
  padded (dNameLen blkBuf off) + 8 + padded rawLen + 8 < dRecLen blkBuf off

instance (blkBuf : Buf) (off : Nat) : Decidable (RoomBehind rawLen blkBuf off) := by
  unfold RoomBehind
  infer_instance

/-- What is accessed for the record a pass meets: its header, and the header and the
name of the new record where it is written. -/
def roomAccesses (blkBuf : Buf) (off : Nat) : List Access :=
  .bytes off 8 ::
    if dFileType blkBuf off = 0 then [.bytes off 8, .bytes (off + 8) rawLen]
    else if RoomBehind rawLen blkBuf off then
      [.bytes (off + (padded (dNameLen blkBuf off) + 8)) 8,
        .bytes (off + (padded (dNameLen blkBuf off) + 8) + 8) rawLen]
    else []

/-- The loop of `ext2_insert_dentry` and the write of the new record behind it, for a
name of `rawLen` bytes. -/
def insertWalk : Loop InsertCursor Access where
  accesses c :=
    if ¬ c.blk < 12 then []
    else
      match enterBlock c with
      | none => if NeedsBlock c then [] else crossing c.blk c.off
      | some c' =>
          crossing c.blk c.off ++
            if NeedsBlock c then [.bytes 0 8, .bytes 8 rawLen]
            else roomAccesses rawLen (roomBlock c') (boundary c.blk c.off).2
  next c :=
    if ¬ c.blk < 12 then none
    else
      match enterBlock c with
      | none => none
      | some c' =>
          let off := (boundary c.blk c.off).2
          if NeedsBlock c then none
          else if dFileType (roomBlock c') off = 0 then none
          else if RoomBehind rawLen (roomBlock c') off then none
          else
            some { c' with
              blk := (boundary c.blk c.off).1
              off := off + dRecLen (roomBlock c') off }

/-- What is asked of the record a pass meets: its header lies in the block, the new
record fits where it is written, and a record that is passed has a length. -/
structure RoomRecord (blkBuf : Buf) (off : Nat) : Prop where
  header : off + 8 ≤ blocksize
  unused : dFileType blkBuf off = 0 → off + 8 + rawLen ≤ blocksize
  room : dFileType blkBuf off ≠ 0 → RoomBehind rawLen blkBuf off →
    off + (padded (dNameLen blkBuf off) + 8) + 8 + rawLen ≤ blocksize
  grows : dFileType blkBuf off ≠ 0 → ¬ RoomBehind rawLen blkBuf off → dRecLen blkBuf off ≠ 0

/-- What is asked of a pass: the walk stays in the twelve direct blocks, and the
record it meets is as it should be. -/
structure InsertPass (c : InsertCursor) : Prop where
  block : 1024 ≤ c.off → (NeedsBlock c → (enterBlock c).isSome) → c.blk + 1 ≤ 11
  record : ¬ NeedsBlock c → ∀ c', enterBlock c = some c' →
    RoomRecord rawLen (roomBlock c') (boundary c.blk c.off).2

variable {rawLen}

/-- Nothing but the record a pass meets decides what it accesses for it. -/
theorem roomAccesses_inside_iff {blkBuf : Buf} {off : Nat} :
    (∀ a ∈ roomAccesses rawLen blkBuf off, a.Inside) ↔
      off + 8 ≤ blocksize ∧
      (dFileType blkBuf off = 0 → off + 8 + rawLen ≤ blocksize) ∧
      (dFileType blkBuf off ≠ 0 → RoomBehind rawLen blkBuf off →
        off + (padded (dNameLen blkBuf off) + 8) + 8 + rawLen ≤ blocksize) := by
  unfold roomAccesses
  by_cases htype : dFileType blkBuf off = 0
  · simp [htype, Access.Inside]
    omega
  · by_cases hroom : RoomBehind rawLen blkBuf off
    · simp [htype, hroom, Access.Inside]
      omega
    · simp [htype, hroom, Access.Inside]

/-- A pass that goes past a record. -/
theorem insertWalk_next {c c' : InsertCursor} (hblk : c.blk < 12) (henter : enterBlock c = some c')
    (hneeds : ¬ NeedsBlock c)
    (htype : dFileType (roomBlock c') (boundary c.blk c.off).2 ≠ 0)
    (hroom : ¬ RoomBehind rawLen (roomBlock c') (boundary c.blk c.off).2) :
    (insertWalk rawLen).next c =
      some { c' with
        blk := (boundary c.blk c.off).1
        off := (boundary c.blk c.off).2 + dRecLen (roomBlock c') (boundary c.blk c.off).2 } := by
  simp only [insertWalk, if_neg (not_not.mpr hblk), henter, if_neg hneeds, if_neg htype,
    if_neg hroom]

/-- Where a pass goes on. -/
theorem insertWalk_next_cases {c u : InsertCursor} (h : (insertWalk rawLen).next c = some u) :
    c.blk < 12 ∧ ¬ NeedsBlock c ∧ ∃ c', enterBlock c = some c' ∧
      dFileType (roomBlock c') (boundary c.blk c.off).2 ≠ 0 ∧
      ¬ RoomBehind rawLen (roomBlock c') (boundary c.blk c.off).2 ∧
      u = { c' with
        blk := (boundary c.blk c.off).1
        off := (boundary c.blk c.off).2 + dRecLen (roomBlock c') (boundary c.blk c.off).2 } := by
  by_cases hblk : c.blk < 12
  · cases henter : enterBlock c with
    | none =>
        simp only [insertWalk, if_neg (not_not.mpr hblk), henter] at h
        exact absurd h (by simp)
    | some c' =>
        simp only [insertWalk, if_neg (not_not.mpr hblk), henter] at h
        by_cases hneeds : NeedsBlock c
        · rw [if_pos hneeds] at h
          exact absurd h (by simp)
        · rw [if_neg hneeds] at h
          by_cases htype : dFileType (roomBlock c') (boundary c.blk c.off).2 = 0
          · rw [if_pos htype] at h
            exact absurd h (by simp)
          · rw [if_neg htype] at h
            by_cases hroom : RoomBehind rawLen (roomBlock c') (boundary c.blk c.off).2
            · rw [if_pos hroom] at h
              exact absurd h (by simp)
            · rw [if_neg hroom] at h
              exact ⟨hblk, hneeds, c', rfl, htype, hroom, (Option.some.inj h).symm⟩
  · simp only [insertWalk, if_pos hblk] at h
    exact absurd h (by simp)

/-- The first boundary check does not move the walk. -/
theorem enterBlock_position {c c' : InsertCursor} (h : enterBlock c = some c') :
    c'.blk = c.blk ∧ c'.off = c.off := by
  unfold enterBlock at h
  by_cases hneeds : NeedsBlock c
  · rw [if_pos hneeds] at h
    obtain ⟨r, -, rfl⟩ := Option.map_eq_some_iff.mp h
    exact ⟨rfl, rfl⟩
  · rw [if_neg hneeds] at h
    by_cases hhole : 1024 ≤ c.off ∧ iBlock c.inode (c.blk + 1) = 0
    · rw [if_pos hhole] at h
      obtain ⟨r, -, rfl⟩ := Option.map_eq_some_iff.mp h
      exact ⟨rfl, rfl⟩
    · rw [if_neg hhole] at h
      rw [← Option.some.inj h]
      exact ⟨rfl, rfl⟩

/-- Inside a block the first boundary check does nothing. -/
theorem enterBlock_of_lt {c : InsertCursor} (h : c.off < 1024) :
    ¬ NeedsBlock c ∧ enterBlock c = some c := by
  have hneeds : ¬ NeedsBlock c := by
    unfold NeedsBlock
    omega
  refine ⟨hneeds, ?_⟩
  rw [enterBlock, if_neg hneeds, if_neg (by omega)]

/-- A record of length zero that is passed keeps the walk where it is. -/
theorem insertWalk_stuck {c c' : InsertCursor} (hblk : c.blk < 12)
    (hblock : 1024 ≤ c.off → c.blk + 1 ≤ 11) (henter : enterBlock c = some c')
    (hneeds : ¬ NeedsBlock c)
    (htype : dFileType (roomBlock c') (boundary c.blk c.off).2 ≠ 0)
    (hroom : ¬ RoomBehind rawLen (roomBlock c') (boundary c.blk c.off).2)
    (hlen : dRecLen (roomBlock c') (boundary c.blk c.off).2 = 0) :
    ¬ (insertWalk rawLen).Terminates c := by
  have hlt := boundary_lt c.blk c.off
  have hnext := insertWalk_next hblk henter hneeds htype hroom
  rw [hlen, Nat.add_zero] at hnext
  generalize hv : ({ c' with
    blk := (boundary c.blk c.off).1
    off := (boundary c.blk c.off).2 } : InsertCursor) = v at hnext
  have hpos : v.blk = (boundary c.blk c.off).1 ∧ v.off = (boundary c.blk c.off).2 := by
    rw [← hv]
    exact ⟨rfl, rfl⟩
  have hq : boundary v.blk v.off = boundary c.blk c.off := by
    rw [hpos.1, hpos.2]
    exact boundary_of_lt hlt
  obtain ⟨hc'blk, hc'off⟩ := enterBlock_position henter
  have hsame : roomBlock v = roomBlock c' := by
    rw [roomBlock, roomBlock, hq, hc'blk, hc'off, ← hv]
  have hvblk : v.blk < 12 := by
    rw [hpos.1]
    unfold boundary
    by_cases hoff : 1024 ≤ c.off
    · rw [if_pos hoff]
      have hle := hblock hoff
      show c.blk + 1 < 12
      omega
    · rw [if_neg hoff]
      exact hblk
  have hvoff : v.off < 1024 := hpos.2 ▸ hlt
  obtain ⟨hvneeds, hventer⟩ := enterBlock_of_lt hvoff
  have hself : (insertWalk rawLen).next v = some v := by
    rw [insertWalk_next hvblk hventer hvneeds (by rw [hsame, hq]; exact htype)
      (by rw [hsame, hq]; exact hroom), hsame, hq, hlen, Nat.add_zero, ← hpos.1, ← hpos.2]
  apply Loop.not_terminates_of_closed (S := fun u => u = c ∨ u = v) (Or.inl rfl)
  rintro u (rfl | rfl)
  · exact ⟨v, hnext, Or.inr rfl⟩
  · exact ⟨u, hself, Or.inr rfl⟩

/-- The search for room is safe exactly when every pass is as it should be. -/
theorem insertWalk_safe_iff (hraw : rawLen ≤ fnameLen) (c : InsertCursor) :
    (insertWalk rawLen).Safe Access.Inside c ↔
      ∀ t, (insertWalk rawLen).Visits c t → ¬ t.blk < 12 ∨ InsertPass rawLen t := by
  unfold fnameLen at hraw
  have hfresh : ∀ a ∈ [Access.bytes 0 8, Access.bytes 8 rawLen], a.Inside := by
    intro a ha
    simp only [List.mem_cons, List.not_mem_nil, or_false] at ha
    rcases ha with rfl | rfl
    · exact Or.inr (by decide)
    · refine Or.inr ?_
      unfold blocksize
      omega
  apply Loop.safe_iff (WellFounded.prod_lex Nat.lt_wfRel.wf Nat.lt_wfRel.wf)
    fun c => (13 - c.blk, 1024 - c.off)
  · intro t hgood a ha
    by_cases hblk : t.blk < 12
    · have hpass := hgood.resolve_left (not_not.mpr hblk)
      cases henter : enterBlock t with
      | none =>
          simp only [insertWalk, if_neg (not_not.mpr hblk), henter] at ha
          by_cases hneeds : NeedsBlock t
          · rw [if_pos hneeds] at ha
            exact absurd ha (by simp)
          · rw [if_neg hneeds] at ha
            exact crossing_inside (fun hoff => hpass.block hoff fun h => absurd h hneeds) a ha
      | some t' =>
          simp only [insertWalk, if_neg (not_not.mpr hblk), henter, List.mem_append] at ha
          cases ha with
          | inl hcross =>
              have hblock : 1024 ≤ t.off → t.blk + 1 ≤ 11 := fun hoff =>
                hpass.block hoff fun _ => by rw [henter]; rfl
              exact crossing_inside hblock a hcross
          | inr ha =>
              by_cases hneeds : NeedsBlock t
              · rw [if_pos hneeds] at ha
                exact hfresh a ha
              · rw [if_neg hneeds] at ha
                have hrec := hpass.record hneeds t' henter
                exact roomAccesses_inside_iff.mpr ⟨hrec.header, hrec.unused, hrec.room⟩ a ha
    · simp only [insertWalk, if_pos hblk] at ha
      exact absurd ha (by simp)
  · intro t u _ hgood hnext
    obtain ⟨hblk, hneeds, t', henter, htype, hroom, rfl⟩ := insertWalk_next_cases hnext
    have hpass := hgood.resolve_left (not_not.mpr hblk)
    exact boundary_decreases hblk ((hpass.record hneeds t' henter).grows htype hroom)
  · intro t hends hall
    refine or_iff_not_imp_left.mpr fun hin => ?_
    have hblk := not_not.mp hin
    have hblock : 1024 ≤ t.off → (NeedsBlock t → (enterBlock t).isSome) → t.blk + 1 ≤ 11 := by
      intro hoff hsome
      refine le_of_crossing_inside (fun a ha => hall a ?_) hoff
      cases henter : enterBlock t with
      | none =>
          by_cases hneeds : NeedsBlock t
          · have hfault := hsome hneeds
            rw [henter] at hfault
            exact absurd hfault (by simp)
          · simp only [insertWalk, if_neg (not_not.mpr hblk), henter, if_neg hneeds]
            exact ha
      | some t' =>
          simp only [insertWalk, if_neg (not_not.mpr hblk), henter]
          exact List.mem_append_left _ ha
    refine ⟨hblock, fun hneeds t' henter => ?_⟩
    have hrec : ∀ a ∈ roomAccesses rawLen (roomBlock t') (boundary t.blk t.off).2, a.Inside := by
      intro a ha
      apply hall a
      simp only [insertWalk, if_neg (not_not.mpr hblk), henter, if_neg hneeds]
      exact List.mem_append_right _ ha
    obtain ⟨hheader, hunused, hfits⟩ := roomAccesses_inside_iff.mp hrec
    refine ⟨hheader, hunused, hfits, fun htype hroom hlen => ?_⟩
    exact insertWalk_stuck hblk (fun hoff => hblock hoff fun h => absurd h hneeds) henter hneeds
      htype hroom hlen hends

end Insert

/-- An allocation that goes through in the model without memory is the same one
here. -/
theorem ext2AllocIblockRun_of_some (k : Kernel) {d d' : Disk} {inode inode' : Buf} {res : Int}
    (h : ext2AllocIblock d inode = some (res, inode', d')) :
    ext2AllocIblockRun k d inode = some (res, k, inode', d') := by
  unfold ext2AllocIblock at h
  unfold ext2AllocIblockRun
  by_cases hfull : 12 ≤ iBlocks inode
  · rw [if_pos hfull] at h ⊢
    simp only [Option.some.injEq, Prod.mk.injEq] at h
    obtain ⟨rfl, rfl, rfl⟩ := h
    rfl
  · rw [if_neg hfull] at h ⊢
    cases hnext : nextFreeBlkno d with
    | none =>
        rw [hnext] at h
        exact absurd h (by simp)
    | some r =>
        obtain ⟨blkno, d₁⟩ := r
        rw [hnext] at h
        simp only [Option.some.injEq, Prod.mk.injEq] at h
        obtain ⟨rfl, rfl, rfl⟩ := h
        rw [nextFreeRun_of_some k d _ hnext]
        simp only [toU32_of_nextFree hnext]

/-- The step to the next block in the model without memory is the same one here. -/
theorem enterBlock_of_some (k : Kernel) {blk off : Nat} {inode inode' : Buf} {d d' : Disk}
    (hneeds : ¬ (1024 ≤ off ∧ iBlocks inode ≤ blk + 1))
    (h : (if 1024 ≤ off ∧ iBlock inode (blk + 1) = 0 then
        (ext2AllocIblock d (setIBlocks inode (blk + 1))).map Prod.snd
      else some (inode, d)) = some (inode', d')) :
    enterBlock ⟨blk, off, inode, d, k⟩ = some ⟨blk, off, inode', d', k⟩ := by
  have hneeds' : ¬ NeedsBlock ⟨blk, off, inode, d, k⟩ := hneeds
  rw [enterBlock, if_neg hneeds']
  by_cases hhole : 1024 ≤ off ∧ iBlock inode (blk + 1) = 0
  · rw [if_pos hhole] at h ⊢
    obtain ⟨⟨res, inode₁, d₁⟩, halloc, heq⟩ := Option.map_eq_some_iff.mp h
    simp only [Prod.mk.injEq] at heq
    obtain ⟨rfl, rfl⟩ := heq
    simp only [ext2AllocIblockRun_of_some k halloc, Option.map_some]
  · rw [if_neg hhole] at h ⊢
    simp only [Option.some.injEq, Prod.mk.injEq] at h
    obtain ⟨rfl, rfl⟩ := h
    rfl

/-- Where the loop of the insertion decides, the walk terminates. -/
theorem insertWalk_terminates {rawLen : Nat} (k : Kernel) {blk off : Nat} {inode : Buf} {d : Disk}
    {slot : Slot} (h : insertLoop (padded rawLen) blk off inode d = some slot) :
    (insertWalk rawLen).Terminates ⟨blk, off, inode, d, k⟩ := by
  fun_induction insertLoop (padded rawLen) blk off inode d generalizing slot with
  | case1 => exact absurd h (by simp)
  | case2 blk off inode d hblk hneeds res inode' d' halloc =>
      have hneeds' : NeedsBlock ⟨blk, off, inode, d, k⟩ := hneeds
      apply Loop.terminates_stop
      simp only [insertWalk, if_neg (not_not.mpr hblk), enterBlock, if_pos hneeds',
        ext2AllocIblockRun_of_some k halloc, Option.map_some]
  | case3 => exact absurd h (by simp)
  | case4 blk off inode d hblk hneeds inode' d' halloc q o blkno b =>
      rename_i htype
      have hneeds' : ¬ NeedsBlock ⟨blk, off, inode, d, k⟩ := hneeds
      apply Loop.terminates_stop
      simp only [insertWalk, if_neg (not_not.mpr hblk), enterBlock_of_some k hneeds halloc,
        if_neg hneeds']
      exact if_pos htype
  | case5 blk off inode d hblk hneeds inode' d' halloc q o blkno b htype =>
      rename_i hroom
      have hneeds' : ¬ NeedsBlock ⟨blk, off, inode, d, k⟩ := hneeds
      apply Loop.terminates_stop
      simp only [insertWalk, if_neg (not_not.mpr hblk), enterBlock_of_some k hneeds halloc,
        if_neg hneeds']
      exact (if_neg htype).trans (if_pos hroom)
  | case6 => exact absurd h (by simp)
  | case7 blk off inode d hblk hneeds inode' d' halloc q o blkno b htype hroom hlen =>
      rename_i ih
      have henter := enterBlock_of_some k hneeds halloc
      rw [Loop.terminates_step (insertWalk_next hblk henter hneeds htype hroom)]
      exact ih h
  | case8 => exact absurd h (by simp)

end Ext2
end NochOS
