import NochOS.Ext2.Directory
import NochOS.Ext2.Write

/-!
# ext2 - the records of a directory

The records of a directory block lie one behind the other.  This module reads a
block as a list of records, shows what the edits of the source do to the list, and
lays out lists of records.

Main results:

- Definitions `TilesOf`, `Tiles`: records one behind the other.
- Theorems `recAt_putRecord`, `recAt_replaceFirst`, `recAt_annex`: the edits.
- Theorem `tiles_layOut`: records that were laid out.
-/

namespace NochOS
namespace Ext2

open Library

/-! ## Records -/

/-- A record. -/
@[ext] structure Rec where
  ino : Nat
  recLen : Nat
  ft : Nat
  name : List UInt8
deriving DecidableEq

/-- The record at an offset. -/
def recAt (buf : Buf) (off : Nat) : Rec :=
  ⟨dInode buf off, dRecLen buf off, dFileType buf off, dName buf off⟩

/-- A record in use with a proper name that fits its length. -/
structure Rec.Ok (r : Rec) : Prop where
  ft : r.ft ≠ 0
  name : r.name ≠ []
  noNul : (0 : UInt8) ∉ r.name
  room : 8 + padded r.name.length ≤ r.recLen

theorem le_padded (n : Nat) : n ≤ padded n := by
  unfold padded
  split <;> omega

theorem imodeToFt_lt (iMode : Nat) : imodeToFt iMode < 8 := by
  unfold imodeToFt
  split <;> decide

/-- A record depends on its own bytes only. -/
theorem recAt_congr {a b : Buf} {off off' : Nat}
    (h : ∀ i < 8 + (recAt b off').name.length, a (off + i) = b (off' + i)) :
    recAt a off = recAt b off' := by
  simp only [recAt, dName, length_bytesAt] at h
  have hlen : dNameLen a off = dNameLen b off' := by
    rw [dNameLen, dNameLen, h 6 (by omega)]
  unfold recAt
  congr 1
  · exact u32At_congr fun i hi => h i (by omega)
  · apply u16At_congr
    intro i hi
    rw [Nat.add_assoc, Nat.add_assoc]
    exact h _ (by omega)
  · rw [dFileType, dFileType, h 7 (by omega)]
  · rw [dName, dName, hlen]
    apply bytesAt_congr
    intro i hi
    rw [Nat.add_assoc, Nat.add_assoc]
    exact h _ (by omega)

/-! ## Edits of a block -/

/-- Filling in a record touches its own bytes only. -/
theorem putRecord_outside {b : Buf} {off ino recLen ft : Nat} {name : List UInt8} {i : Nat}
    (h : i < off ∨ off + 8 + name.length ≤ i) :
    putRecord b off ino recLen ft name i = b i := by
  simp only [putRecord]
  rw [strncpy_outside (by omega), setDFileType, Function.update_of_ne (by omega), setDNameLen,
    Function.update_of_ne (by omega), setDRecLen, setU16_outside (by omega), setDInode,
    setU32_outside (by omega)]

/-- The record after it was filled in. -/
theorem recAt_putRecord (b : Buf) (off : Nat) {ino recLen ft : Nat} {name : List UInt8}
    (hino : ino < 2 ^ 32) (hlen : recLen < 2 ^ 16) (hft : ft < 256) (hname : name.length < 256) :
    recAt (putRecord b off ino recLen ft name) off = ⟨ino, recLen, ft, name⟩ := by
  have hnameLen : dNameLen (putRecord b off ino recLen ft name) off = name.length := by
    simp only [putRecord, dNameLen]
    rw [strncpy_outside (by omega), setDFileType, Function.update_of_ne (by omega), setDNameLen,
      Function.update_self, UInt8.toNat_ofNat']
    exact Nat.mod_eq_of_lt hname
  unfold recAt
  congr 1
  · have hsame : dInode (putRecord b off ino recLen ft name) off =
        dInode (setDInode b off ino) off := by
      apply u32At_congr
      intro i hi
      simp only [putRecord]
      rw [strncpy_outside (by omega), setDFileType, Function.update_of_ne (by omega), setDNameLen,
        Function.update_of_ne (by omega), setDRecLen, setU16_outside (by omega)]
    rw [hsame]
    exact u32At_setU32 b off hino
  · have hsame : dRecLen (putRecord b off ino recLen ft name) off =
        dRecLen (setDRecLen (setDInode b off ino) off recLen) off := by
      apply u16At_congr
      intro i hi
      simp only [putRecord]
      rw [strncpy_outside (by omega), setDFileType, Function.update_of_ne (by omega), setDNameLen,
        Function.update_of_ne (by omega)]
    rw [hsame]
    exact u16At_setU16 _ (off + 4) hlen
  · simp only [putRecord, dFileType]
    rw [strncpy_outside (by omega), setDFileType, Function.update_self, UInt8.toNat_ofNat']
    exact Nat.mod_eq_of_lt hft
  · rw [dName, hnameLen]
    exact bytesAt_strncpy _ (off + 8) name

/-- Changing the length of a record changes nothing else of it. -/
theorem recAt_setDRecLen (b : Buf) (off : Nat) {recLen : Nat} (hlen : recLen < 2 ^ 16) :
    recAt (setDRecLen b off recLen) off = { recAt b off with recLen := recLen } := by
  have hother : ∀ i, i < off + 4 ∨ off + 6 ≤ i → setDRecLen b off recLen i = b i := fun i hi =>
    setU16_outside (by omega)
  have hnameLen : dNameLen (setDRecLen b off recLen) off = dNameLen b off := by
    rw [dNameLen, dNameLen, hother _ (by omega)]
  unfold recAt
  congr 1
  · exact u32At_congr fun i hi => hother _ (by omega)
  · exact u16At_setU16 b (off + 4) hlen
  · rw [dFileType, dFileType, hother _ (by omega)]
  · rw [dName, dName, hnameLen]
    exact bytesAt_congr fun i hi => hother _ (by omega)

/-- What replacing the first record reads of its successor is what the block holds. -/
theorem replaceFirst_eq {b : Buf} {len : Nat} (hlen : dRecLen b 0 = len) (hlo : 8 ≤ len) :
    replaceFirst b =
      strncpyWithin (setDRecLen (setDNameLen (setDFileType (setDInode b 0 (dInode b len)) 0
        (dFileType b len)) 0 (dNameLen b len)) 0 (len + dRecLen b len)) 8 (len + 8)
        (dNameLen b len) := by
  have h₁ : ∀ i, 8 ≤ i → setDInode b 0 (dInode b len) i = b i := fun i hi =>
    setU32_outside (by omega)
  have h₂ : ∀ i, 8 ≤ i → setDFileType (setDInode b 0 (dInode b len)) 0 (dFileType b len) i = b i :=
    fun i hi => by rw [setDFileType, Function.update_of_ne (by omega), h₁ i hi]
  have h₃ : ∀ i, 8 ≤ i → setDNameLen (setDFileType (setDInode b 0 (dInode b len)) 0
      (dFileType b len)) 0 (dNameLen b len) i = b i :=
    fun i hi => by rw [setDNameLen, Function.update_of_ne (by omega), h₂ i hi]
  have hft : dFileType (setDInode b 0 (dInode b len)) len = dFileType b len := by
    rw [dFileType, dFileType, h₁ _ (by omega)]
  have hname : dNameLen (setDFileType (setDInode b 0 (dInode b len)) 0 (dFileType b len)) len =
      dNameLen b len := by
    rw [dNameLen, dNameLen, h₂ _ (by omega)]
  have hrec : dRecLen (setDNameLen (setDFileType (setDInode b 0 (dInode b len)) 0
      (dFileType b len)) 0 (dNameLen b len)) len = dRecLen b len :=
    u16At_congr fun i hi => h₃ _ (by omega)
  have hname' : dNameLen (setDRecLen (setDNameLen (setDFileType (setDInode b 0 (dInode b len)) 0
      (dFileType b len)) 0 (dNameLen b len)) 0 (len + dRecLen b len)) len = dNameLen b len := by
    apply congrArg UInt8.toNat
    rw [setDRecLen, setU16_outside (by omega), h₃ _ (by omega)]
  simp only [replaceFirst, hlen, hft, hname, hrec, hname']

/-- Replacing the first record touches no byte behind the name it copies. -/
theorem replaceFirst_outside {b : Buf} {len i : Nat} (hlen : dRecLen b 0 = len) (hlo : 8 ≤ len)
    (hi : 8 + dNameLen b len ≤ i) : replaceFirst b i = b i := by
  rw [replaceFirst_eq hlen hlo, strncpyWithin_outside _ (by omega), setDRecLen,
    setU16_outside (by omega), setDNameLen, Function.update_of_ne (by omega), setDFileType,
    Function.update_of_ne (by omega), setDInode, setU32_outside (by omega)]

/-- Replacing the first record copies the type of its successor. -/
theorem dFileType_replaceFirst {b : Buf} {len : Nat} (hlen : dRecLen b 0 = len) (hlo : 8 ≤ len) :
    dFileType (replaceFirst b) 0 = dFileType b len := by
  rw [dFileType, replaceFirst_eq hlen hlo, strncpyWithin_outside _ (by omega), setDRecLen,
    setU16_outside (by omega), setDNameLen, Function.update_of_ne (by omega), setDFileType,
    Function.update_self, dFileType, UInt8.ofNat_toNat]

/-- Replacing the first record copies its successor and adds the lengths. -/
theorem recAt_replaceFirst {b : Buf} {len : Nat} (hlen : dRecLen b 0 = len) (hlo : 8 ≤ len)
    (hnul : 0 ∉ (recAt b len).name) (hsum : len + dRecLen b len < 2 ^ 16) :
    recAt (replaceFirst b) 0 = { recAt b len with recLen := len + dRecLen b len } := by
  have hhead : ∀ i < 8, replaceFirst b i = setDRecLen (setDNameLen (setDFileType
      (setDInode b 0 (dInode b len)) 0 (dFileType b len)) 0 (dNameLen b len)) 0
      (len + dRecLen b len) i := fun i hi => by
    rw [replaceFirst_eq hlen hlo, strncpyWithin_outside _ (by omega)]
  have hnameLen : dNameLen (replaceFirst b) 0 = dNameLen b len := by
    rw [dNameLen, hhead _ (by omega), setDRecLen, setU16_outside (by omega), setDNameLen,
      Function.update_self, dNameLen, UInt8.ofNat_toNat]
  have htail : ∀ i, 8 ≤ i → setDRecLen (setDNameLen (setDFileType (setDInode b 0 (dInode b len)) 0
      (dFileType b len)) 0 (dNameLen b len)) 0 (len + dRecLen b len) i = b i := by
    intro i hi
    rw [setDRecLen, setU16_outside (by omega), setDNameLen, Function.update_of_ne (by omega),
      setDFileType, Function.update_of_ne (by omega), setDInode, setU32_outside (by omega)]
  -- the bytes of a proper name are not zero, so that the copy does not stop early
  have hbytes : ∀ j < dNameLen b len, b (len + 8 + j) ≠ 0 := by
    intro j hj hzero
    apply hnul
    rw [← hzero]
    exact List.mem_map.mpr ⟨j, List.mem_range.mpr hj, rfl⟩
  unfold recAt
  congr 1
  · have hsame : dInode (replaceFirst b) 0 = dInode (setDInode b 0 (dInode b len)) 0 := by
      apply u32At_congr
      intro i hi
      rw [hhead _ (by omega), setDRecLen, setU16_outside (by omega), setDNameLen,
        Function.update_of_ne (by omega), setDFileType, Function.update_of_ne (by omega)]
    rw [hsame]
    exact u32At_setU32 b 0 (u32At_lt b len)
  · have hsame : dRecLen (replaceFirst b) 0 = dRecLen (setDRecLen (setDNameLen (setDFileType
        (setDInode b 0 (dInode b len)) 0 (dFileType b len)) 0 (dNameLen b len)) 0
        (len + dRecLen b len)) 0 := u16At_congr fun i hi => hhead _ (by omega)
    rw [hsame]
    exact u16At_setU16 _ 4 hsum
  · exact dFileType_replaceFirst hlen hlo
  · rw [dName, dName, hnameLen]
    apply bytesAt_congr
    intro i hi
    rw [replaceFirst_eq hlen hlo, strncpyWithin_apply _ (by omega) fun j hj => by
      rw [htail _ (by omega)]
      exact hbytes j hj]
    rw [if_pos (by omega), htail _ (by omega)]
    congr 1
    omega

/-- Annexing a record touches the length of the one before it only. -/
theorem annex_outside {b : Buf} {dirOff swpOff i : Nat} (h : i < swpOff + 4 ∨ swpOff + 6 ≤ i) :
    annex b dirOff swpOff i = b i := setU16_outside (by omega)

/-- The record before an annexed one has both lengths. -/
theorem recAt_annex (b : Buf) (dirOff swpOff : Nat)
    (hsum : dRecLen b dirOff + dRecLen b swpOff < 2 ^ 16) :
    recAt (annex b dirOff swpOff) swpOff =
      { recAt b swpOff with recLen := dRecLen b dirOff + dRecLen b swpOff } :=
  recAt_setDRecLen b swpOff hsum

/-! ## Tilings -/

/-- Records with a property one behind the other, from an offset to another one. -/
inductive TilesOf (P : Rec → Prop) (buf : Buf) : Nat → List Rec → Nat → Prop
  | nil (off : Nat) : TilesOf P buf off [] off
  | cons {off stop : Nat} {rs : List Rec} (hok : P (recAt buf off))
      (hrest : TilesOf P buf (off + (recAt buf off).recLen) rs stop) :
      TilesOf P buf off (recAt buf off :: rs) stop

/-- The loops over records pass the records with a property: they are in use, and their
names are inside of them. -/
structure Walkable (P : Rec → Prop) : Prop where
  ft : ∀ r, P r → r.ft ≠ 0
  room : ∀ r, P r → 8 + padded r.name.length ≤ r.recLen

section TilingsOf

variable {P : Rec → Prop} {buf buf' : Buf} {off mid stop : Nat} {recs pre post : List Rec} {r : Rec}

theorem TilesOf.le (h : TilesOf P buf off recs stop) : off ≤ stop := by
  induction h with
  | nil off => exact le_rfl
  | cons hok _ ih => exact (Nat.le_add_right _ _).trans ih

/-- The first record of a tiling. -/
theorem TilesOf.head (h : TilesOf P buf off (r :: recs) stop) :
    recAt buf off = r ∧ P r ∧ TilesOf P buf (off + r.recLen) recs stop := by
  cases h with
  | cons hok hrest => exact ⟨rfl, hok, hrest⟩

theorem TilesOf.cons' (hr : recAt buf off = r) (hok : P r)
    (hrest : TilesOf P buf (off + r.recLen) recs stop) : TilesOf P buf off (r :: recs) stop := by
  subst hr
  exact TilesOf.cons hok hrest

theorem TilesOf.eq_of_nil (h : TilesOf P buf off [] stop) : off = stop := by
  cases h
  rfl

theorem TilesOf.append (h : TilesOf P buf off pre mid) (h' : TilesOf P buf mid post stop) :
    TilesOf P buf off (pre ++ post) stop := by
  induction h with
  | nil => exact h'
  | cons hok _ ih => exact TilesOf.cons hok (ih h')

/-- A tiling can be cut between two records. -/
theorem TilesOf.split (h : TilesOf P buf off (pre ++ post) stop) :
    ∃ mid, TilesOf P buf off pre mid ∧ TilesOf P buf mid post stop := by
  induction pre generalizing off with
  | nil => exact ⟨off, TilesOf.nil off, h⟩
  | cons q pre ih =>
      obtain ⟨hq, hok, hrest⟩ := h.head
      obtain ⟨mid, hpre, hpost⟩ := ih hrest
      exact ⟨mid, TilesOf.cons' hq hok hpre, hpost⟩

/-- The records of a tiling tell where it ends. -/
theorem TilesOf.stop_eq (h : TilesOf P buf off recs stop) (h' : TilesOf P buf off recs mid) :
    stop = mid := by
  induction h with
  | nil => exact h'.eq_of_nil
  | cons _ _ ih => exact ih h'.head.2.2

/-- Every record of a tiling has the property. -/
theorem TilesOf.ok (h : TilesOf P buf off recs stop) : ∀ r ∈ recs, P r := by
  induction h with
  | nil => simp
  | cons hok _ ih =>
      intro r hr
      rcases List.mem_cons.mp hr with rfl | hr
      · exact hok
      · exact ih r hr

/-- The records of a tiling may have another property. -/
theorem TilesOf.mono {Q : Rec → Prop} (h : TilesOf P buf off recs stop)
    (hPQ : ∀ r ∈ recs, P r → Q r) : TilesOf Q buf off recs stop := by
  induction h with
  | nil off => exact TilesOf.nil off
  | cons hok _ ih =>
      exact TilesOf.cons (hPQ _ List.mem_cons_self hok) (ih fun r hr =>
        hPQ r (List.mem_cons_of_mem _ hr))

/-- A tiling depends on its own bytes only. -/
theorem TilesOf.congr (hP : Walkable P) (h : TilesOf P buf off recs stop)
    (hsame : ∀ i, off ≤ i → i < stop → buf' i = buf i) : TilesOf P buf' off recs stop := by
  induction h with
  | nil off => exact TilesOf.nil off
  | @cons off stop rs hok hrest ih =>
      have hroom := hP.room _ hok
      have hlen := le_padded (recAt buf off).name.length
      have hle := hrest.le
      have hrec : recAt buf' off = recAt buf off := by
        apply recAt_congr
        intro i hi
        exact hsame _ (by omega) (by omega)
      exact TilesOf.cons' hrec hok (ih fun i hi => hsame i (by omega))

end TilingsOf

/-- Records one behind the other, from an offset to another one. -/
inductive Tiles (buf : Buf) : Nat → List Rec → Nat → Prop
  | nil (off : Nat) : Tiles buf off [] off
  | cons {off stop : Nat} {rs : List Rec} (hok : (recAt buf off).Ok)
      (hrest : Tiles buf (off + (recAt buf off).recLen) rs stop) :
      Tiles buf off (recAt buf off :: rs) stop

theorem Rec.Ok.recLen_ge {r : Rec} (h : r.Ok) : 12 ≤ r.recLen := by
  have hroom := h.room
  have hpos : 0 < r.name.length := List.length_pos_iff.mpr h.name
  unfold padded at hroom
  split at hroom <;> omega

theorem walkable_ok : Walkable Rec.Ok where
  ft _ h := h.ft
  room _ h := h.room

section Tilings

variable {buf buf' : Buf} {off mid stop : Nat} {recs pre post : List Rec} {r : Rec}

/-- Tilings are tilings of proper records. -/
theorem tiles_iff : Tiles buf off recs stop ↔ TilesOf Rec.Ok buf off recs stop := by
  constructor
  · intro h
    induction h with
    | nil off => exact TilesOf.nil off
    | cons hok _ ih => exact TilesOf.cons hok ih
  · intro h
    induction h with
    | nil off => exact Tiles.nil off
    | cons hok _ ih => exact Tiles.cons hok ih

theorem Tiles.le (h : Tiles buf off recs stop) : off ≤ stop := (tiles_iff.mp h).le

/-- The first record of a tiling. -/
theorem Tiles.head (h : Tiles buf off (r :: recs) stop) :
    recAt buf off = r ∧ r.Ok ∧ Tiles buf (off + r.recLen) recs stop := by
  cases h with
  | cons hok hrest => exact ⟨rfl, hok, hrest⟩

theorem Tiles.cons' (hr : recAt buf off = r) (hok : r.Ok)
    (hrest : Tiles buf (off + r.recLen) recs stop) : Tiles buf off (r :: recs) stop := by
  subst hr
  exact Tiles.cons hok hrest

theorem Tiles.eq_of_nil (h : Tiles buf off [] stop) : off = stop := by
  cases h
  rfl

theorem Tiles.append (h : Tiles buf off pre mid) (h' : Tiles buf mid post stop) :
    Tiles buf off (pre ++ post) stop :=
  tiles_iff.mpr ((tiles_iff.mp h).append (tiles_iff.mp h'))

/-- A tiling can be cut between two records. -/
theorem Tiles.split (h : Tiles buf off (pre ++ post) stop) :
    ∃ mid, Tiles buf off pre mid ∧ Tiles buf mid post stop := by
  obtain ⟨mid, hpre, hpost⟩ := (tiles_iff.mp h).split
  exact ⟨mid, tiles_iff.mpr hpre, tiles_iff.mpr hpost⟩

/-- The records of a tiling tell where it ends. -/
theorem Tiles.stop_eq (h : Tiles buf off recs stop) (h' : Tiles buf off recs mid) :
    stop = mid :=
  (tiles_iff.mp h).stop_eq (tiles_iff.mp h')

/-- Every record of a tiling is proper. -/
theorem Tiles.ok (h : Tiles buf off recs stop) : ∀ r ∈ recs, r.Ok := (tiles_iff.mp h).ok

/-- A tiling depends on its own bytes only. -/
theorem Tiles.congr (h : Tiles buf off recs stop)
    (hsame : ∀ i, off ≤ i → i < stop → buf' i = buf i) : Tiles buf' off recs stop :=
  tiles_iff.mpr ((tiles_iff.mp h).congr walkable_ok hsame)

end Tilings

/-! ## Laying out records -/

/-- A buffer with records put one behind the other from an offset on. -/
def layOut (off : Nat) : List Rec → Buf → Buf
  | [], b => b
  | r :: rs, b => layOut (off + r.recLen) rs (putRecord b off r.ino r.recLen r.ft r.name)

theorem layOut_before {off i : Nat} (recs : List Rec) (b : Buf) (h : i < off) :
    layOut off recs b i = b i := by
  induction recs generalizing off b with
  | nil => rfl
  | cons r recs ih => rw [layOut, ih _ (by omega), putRecord_outside (by omega)]

/-- The records that were laid out tile the buffer. -/
theorem tiles_layOut (off : Nat) (recs : List Rec) (b : Buf)
    (h : ∀ r ∈ recs, r.Ok ∧ r.ino < 2 ^ 32 ∧ r.recLen < 2 ^ 16 ∧ r.ft < 256 ∧
      r.name.length < 256) :
    Tiles (layOut off recs b) off recs (off + (recs.map Rec.recLen).sum) := by
  induction recs generalizing off b with
  | nil => exact Tiles.nil off
  | cons r recs ih =>
      obtain ⟨hok, hino, hlen, hft, hname⟩ := h r List.mem_cons_self
      have hroom := hok.room
      have hpad := le_padded r.name.length
      rw [List.map_cons, List.sum_cons, ← Nat.add_assoc]
      have hput := recAt_putRecord b off hino hlen hft hname
      refine Tiles.cons' ?_ hok (ih _ _ fun q hq => h q (List.mem_cons_of_mem _ hq))
      calc recAt (layOut off (r :: recs) b) off
          = recAt (putRecord b off r.ino r.recLen r.ft r.name) off := by
            apply recAt_congr
            intro i hi
            rw [hput] at hi
            exact layOut_before recs _ (by dsimp only at hi; omega)
        _ = r := hput

end Ext2
end NochOS
