import NochOS.Ext2.Format

/-!
# ext2 - file contents under writes

The contents of a file are the bytes of its blocks up to its size.  A write that
starts inside a file cuts it at the start of the write and puts the buffer behind
the cut; a write that starts at the end appends.  A read delivers a slice of the
contents.

Main results:

- Theorem `Files.fileFwrite`: the contents of all files after one write.
- Theorem `appends_read`: after any run of appends to any files every read
  delivers a slice of the original contents followed by the appends.
- Theorem `fileFwrite_cuts`: a write inside a file keeps what is before it and
  drops what is behind it.
-/

namespace NochOS
namespace Ext2

open Library Bitmap

/-! ## Contents -/

/-- The size of a file. -/
def View.fileSize (v : View) (ino : Nat) : Nat := iSize (v.inode ino)

/-- The contents of a file. -/
def View.contents (v : View) (ino : Nat) : List UInt8 :=
  (List.range (v.fileSize ino)).map (v.fileByte ino)

@[simp] theorem length_contents (v : View) (ino : Nat) :
    (v.contents ino).length = v.fileSize ino := by
  simp [View.contents]

/-- A slice of a tabulated list is tabulated. -/
theorem drop_take_map_range {α : Type*} (f : Nat → α) (size offset nbytes : Nat) :
    (((List.range size).map f).drop offset).take nbytes =
      (List.range (min nbytes (size - offset))).map fun i => f (offset + i) := by
  apply List.ext_getElem
  · simp
  · intro i h₁ h₂
    simp

/-! ## Files that share nothing -/

/-- Regular files in an image: their metadata and blocks are marked as used, their
block counts fit their sizes, which the direct blocks hold, and no two of them
share a block. -/
structure Files (g : Geometry) (v : View) (F : Set Nat) : Prop where
  metaUsed : MetaUsed g v
  owns : ∀ f ∈ F, Owns g v f
  size : ∀ f ∈ F, v.fileSize f ≤ 12 * blocksize
  blocks : ∀ f ∈ F, iBlocks (v.inode f) = blocksFor (v.fileSize f)
  apart : ∀ e ∈ F, ∀ f ∈ F, e ≠ f → ∀ j < iBlocks (v.inode e), ∀ k < iBlocks (v.inode f),
    iBlock (v.inode e) j ≠ iBlock (v.inode f) k

section Writes

variable {g : Geometry} {d d' : Disk} {F : Set Nat}

theorem Files.direct {v : View} (h : Files g v F) {f : Nat} (hf : f ∈ F) :
    directCount (v.inode f) = iBlocks (v.inode f) := by
  have hle := blocksFor_le (h.size f hf)
  rw [← h.blocks f hf] at hle
  unfold directCount
  omega

/-- Every file of the group still owns its blocks after one of them is rewritten,
and they still share nothing. -/
theorem Files.rewrite {v v' : View} (h : Files g v F) {ino fsize : Nat} {bs : List Nat}
    (hino : ino ∈ F) (hr : Rewrite v v' ino fsize bs) (hsize : fsize ≤ 12 * blocksize) :
    Files g v' F := by
  have hown := h.owns ino hino
  obtain ⟨hfsize, hfblocks, -⟩ := hr.fields hsize
  -- the blocks the file has now are none of another file's blocks
  have hapart : ∀ f ∈ F, f ≠ ino → ∀ k < iBlocks (v.inode f), ∀ j < blocksFor fsize,
      iBlock (v.inode f) k ≠ iBlock (v'.inode ino) j := by
    intro f hf hne k hk j hj
    have hkdirect : k < directCount (v.inode f) := by rwa [h.direct hf]
    apply hr.slot_ne h.metaUsed hown hsize ((h.owns f hf).data k hkdirect).2 _ hj
    intro i hi
    rw [h.direct hino] at hi
    exact h.apart f hf ino hino hne k hk i hi
  refine
    { metaUsed := hr.metaUsed h.metaUsed
      owns := ?_
      size := ?_
      blocks := ?_
      apart := ?_ }
  · intro f hf
    by_cases hfs : f = ino
    · rw [hfs]
      exact hr.owns h.metaUsed hown hsize
    · exact hr.owns_other hfs (h.owns f hf)
  · intro f hf
    by_cases hfs : f = ino
    · rw [hfs, View.fileSize, hfsize]
      exact hsize
    · rw [View.fileSize, hr.inode_other hfs]
      exact h.size f hf
  · intro f hf
    by_cases hfs : f = ino
    · rw [hfs, View.fileSize, hfsize, hfblocks]
    · rw [View.fileSize, hr.inode_other hfs]
      exact h.blocks f hf
  · intro e he f hf hne j hj k hk
    by_cases hes : e = ino
    · have hfs : f ≠ ino := fun hfs => hne (hes.trans hfs.symm)
      rw [hes, hfblocks] at hj
      rw [hr.inode_other hfs] at hk ⊢
      rw [hes]
      exact (hapart f hf hfs k hk j hj).symm
    · rw [hr.inode_other hes] at hj ⊢
      by_cases hfs : f = ino
      · rw [hfs, hfblocks] at hk
        rw [hfs]
        exact hapart e he hes j hj k hk
      · rw [hr.inode_other hfs] at hk ⊢
        exact h.apart e he f hf hne j hj k hk

/-- Another file keeps its contents. -/
theorem Files.contents_other {v v' : View} (h : Files g v F) {ino fsize : Nat} {bs : List Nat}
    (hino : ino ∈ F) (hr : Rewrite v v' ino fsize bs) (hsize : fsize ≤ 12 * blocksize) {f : Nat}
    (hf : f ∈ F) (hne : f ≠ ino) : v'.contents f = v.contents f := by
  have hsame := hr.inode_other hne
  unfold View.contents View.fileSize
  rw [hsame]
  apply List.map_congr_left
  intro pos hpos
  have hblk : pos / blocksize < iBlocks (v.inode f) := by
    rw [h.blocks f hf, lt_blocksFor_iff]
    have hlt := List.mem_range.mp hpos
    have hle := Nat.div_mul_le_self pos blocksize
    unfold View.fileSize
    omega
  have hdirect : pos / blocksize < directCount (v.inode f) := by rwa [h.direct hf]
  rw [View.fileByte, View.fileByte, hsame, hr.keep_foreign h.metaUsed (h.owns ino hino) hsize
    ((h.owns f hf).data _ hdirect).2]
  intro k hk
  rw [h.direct hino] at hk
  exact h.apart f hf ino hino hne _ hblk k hk

/-- A write that starts inside a file cuts the file there and puts the buffer
behind the cut.  The other files keep their contents, and all of them still share
nothing. -/
theorem Files.fileFwrite (hfiles : Files g (view g d) F) (hd : OnDisk g d)
    {self self' : File} {stack buf : Buf} {nbytes : Nat} (hself : self.iIno ∈ F)
    (hpos : self.fPos ≤ (view g d).fileSize self.iIno)
    (hsize : self.fPos + nbytes ≤ 12 * blocksize)
    (h : Ext2.fileFwrite g.sb d self stack buf nbytes = some (d', self')) :
    OnDisk g d' ∧ Files g (view g d') F ∧
      (view g d').contents self.iIno =
        ((view g d).contents self.iIno).take self.fPos ++ (List.range nbytes).map buf ∧
      (∀ f ∈ F, f ≠ self.iIno → (view g d').contents f = (view g d).contents f) ∧
      (view g d').freeBlocks.card +
          (blocksFor (self.fPos + nbytes) - blocksFor ((view g d).fileSize self.iIno)) =
        (view g d).freeBlocks.card := by
  have hown := hfiles.owns _ hself
  obtain ⟨hd', -, ⟨bs, hr⟩, hbytes⟩ := fileFwrite_spec hd hfiles.metaUsed hown hsize h
  obtain ⟨hfsize, -, -⟩ := hr.fields hsize
  refine ⟨hd', hfiles.rewrite hself hr hsize, ?_,
    fun f hf hne => hfiles.contents_other hself hr hsize hf hne, ?_⟩
  · have hbefore : ∀ pos < self.fPos,
        (view g d').fileByte self.iIno pos = (view g d).fileByte self.iIno pos := by
      intro pos hlt
      have hslot : iBlock ((view g d').inode self.iIno) (pos / blocksize) =
          iBlock ((view g d).inode self.iIno) (pos / blocksize) := by
        have hblk : pos / blocksize < iBlocks ((view g d).inode self.iIno) := by
          rw [hfiles.blocks _ hself, lt_blocksFor_iff]
          have hle := Nat.div_mul_le_self pos blocksize
          omega
        obtain ⟨-, -, -, hslots, -⟩ :=
          fields_resize ((view g d).inode self.iIno) hr.fresh hsize hr.length
        rw [hr.inode_self, hslots, dif_neg (by omega)]
      rw [hbytes pos (by omega), if_neg (by omega), hslot, View.fileByte]
    have htake : ((view g d).contents self.iIno).take self.fPos =
        (List.range self.fPos).map ((view g d).fileByte self.iIno) := by
      rw [View.contents, ← List.map_take, List.take_range, Nat.min_eq_left hpos]
    rw [htake, View.contents, View.fileSize, hfsize, List.range_add, List.map_append,
      List.map_map]
    congr 1
    · apply List.map_congr_left
      intro pos hmem
      exact hbefore pos (List.mem_range.mp hmem)
    · apply List.map_congr_left
      intro i hmem
      have hi := List.mem_range.mp hmem
      rw [Function.comp_apply, hbytes _ (by omega), if_pos (by omega), Nat.add_sub_cancel_left]
  · have hfree := hr.freeBlocks
    rwa [hfiles.blocks _ hself] at hfree

/-! ## Two files -/

/-- An image with two files: inode 12 has 1022 bytes in block 7, inode 13 is empty. -/
def twoFiles : View where
  blockUsed b := decide (b ≤ 7)
  inodeUsed ino := decide (ino ≤ 13)
  inode ino := if ino = 12 then newInode 0x81FF 1022 [7] else newInode 0x81FF 0 []
  data b i := UInt8.ofNat (b + i)

/-- The image on a device. -/
def twoFilesDisk : Disk := format smallGroup twoFiles

theorem onDisk_twoFiles : OnDisk smallGroup twoFilesDisk := onDisk_format _ _

theorem view_twoFilesDisk : view smallGroup twoFilesDisk = twoFiles.trim smallGroup :=
  view_format _ _

/-- The sizes of the two files. -/
theorem fileSize_twoFiles : (view smallGroup twoFilesDisk).fileSize 12 = 1022 ∧
    (view smallGroup twoFilesDisk).fileSize 13 = 0 := by
  rw [view_twoFilesDisk]
  obtain ⟨-, hsize₁, -, -⟩ := View.fields_trim smallGroup twoFiles
    (show smallGroup.ValidIno 12 by decide) rfl (by decide) (by decide) (by decide) (by simp)
  obtain ⟨-, hsize₂, -, -⟩ := View.fields_trim smallGroup twoFiles
    (show smallGroup.ValidIno 13 by decide) rfl (by decide) (by decide) (by decide) (by simp)
  exact ⟨hsize₁, hsize₂⟩

/-- Two blocks of the image are unused. -/
theorem two_le_freeBlocks : 2 ≤ (view smallGroup twoFilesDisk).freeBlocks.card := by
  have hsub : ({8, 9} : Finset Nat) ⊆ (view smallGroup twoFilesDisk).freeBlocks := by
    rw [view_twoFilesDisk]
    intro b hb
    rw [mem_freeBlocks]
    rcases Finset.mem_insert.mp hb with rfl | hb
    · decide
    · rw [Finset.mem_singleton.mp hb]
      decide
  exact Finset.card_le_card hsub

/-- The two files share nothing. -/
theorem files_twoFiles : Files smallGroup (view smallGroup twoFilesDisk) {12, 13} := by
  rw [view_twoFilesDisk]
  obtain ⟨-, hsize₁, hblocks₁, hslot₁⟩ := View.fields_trim smallGroup twoFiles
    (show smallGroup.ValidIno 12 by decide) rfl (by decide) (by decide) (by decide) (by simp)
  obtain ⟨-, hsize₂, hblocks₂, -⟩ := View.fields_trim smallGroup twoFiles
    (show smallGroup.ValidIno 13 by decide) rfl (by decide) (by decide) (by decide) (by simp)
  have hseven := hslot₁ 0 (by decide)
  rw [List.length_singleton] at hblocks₁
  rw [List.length_nil] at hblocks₂
  refine
    { metaUsed := ?_
      owns := ?_
      size := ?_
      blocks := ?_
      apart := ?_ }
  · apply metaUsed_smallGroup
    intro b hb
    exact decide_eq_true (show b ≤ 7 by omega)
  · rintro f (rfl | rfl)
    · refine ⟨by decide, by decide, ?_, ?_⟩
      · intro k hk
        rw [directCount, hblocks₁] at hk
        have hzero : k = 0 := by omega
        rw [hzero, hseven]
        exact ⟨smallGroup_isData le_rfl (by decide), by decide⟩
      · intro j hj k hk _
        rw [directCount, hblocks₁] at hj hk
        omega
    · refine ⟨by decide, by decide, ?_, ?_⟩
      · intro k hk
        rw [directCount, hblocks₂] at hk
        omega
      · intro j hj
        rw [directCount, hblocks₂] at hj
        omega
  · rintro f (rfl | rfl)
    · rw [View.fileSize, hsize₁]
      decide
    · rw [View.fileSize, hsize₂]
      decide
  · rintro f (rfl | rfl)
    · rw [hblocks₁, View.fileSize, hsize₁]
      decide
    · rw [hblocks₂, View.fileSize, hsize₂]
      decide
  · rintro e (rfl | rfl) f (rfl | rfl) hne j hj k hk
    · exact absurd rfl hne
    · rw [hblocks₂] at hk
      omega
    · rw [hblocks₂] at hj
      omega
    · exact absurd rfl hne

/-- A write that starts inside a file succeeds when enough blocks are unused among the
`searchedBits` that the search for them goes through.  The file then ends where the write
ends: it has the buffer at the position and its old bytes before it, and no other file
changes. -/
theorem fileFwrite_cuts (hd : OnDisk g d) (hfiles : Files g (view g d) F) (self : File)
    (stack buf : Buf) (nbytes : Nat) (hself : self.iIno ∈ F)
    (hpos : self.fPos ≤ (view g d).fileSize self.iIno)
    (hsize : self.fPos + nbytes ≤ 12 * blocksize)
    (hroom : blocksFor (self.fPos + nbytes) - blocksFor ((view g d).fileSize self.iIno) ≤
      (view g d).freeBlocks.card) :
    ∃ d' self', fileFwrite g.sb d self stack buf nbytes = some (d', self') ∧
      (view g d').fileSize self.iIno = self.fPos + nbytes ∧
      ((view g d').contents self.iIno).take self.fPos =
        ((view g d).contents self.iIno).take self.fPos ∧
      ((view g d').contents self.iIno).drop self.fPos = (List.range nbytes).map buf ∧
      ∀ f ∈ F, f ≠ self.iIno → (view g d').contents f = (view g d).contents f := by
  have hown := hfiles.owns _ hself
  have hwrite : (fileFwrite g.sb d self stack buf nbytes).isSome := by
    apply fileFwrite_isSome hd hown.valid hown.used
    · unfold blocksize at hsize
      omega
    · rw [hfiles.blocks _ hself]
      exact hroom
  obtain ⟨⟨d', self'⟩, hrun⟩ := Option.isSome_iff_exists.mp hwrite
  obtain ⟨-, -, hcontents, hother, -⟩ := hfiles.fileFwrite hd hself hpos hsize hrun
  have hlen : (((view g d).contents self.iIno).take self.fPos).length = self.fPos := by
    rw [List.length_take, length_contents, Nat.min_eq_left hpos]
  refine ⟨d', self', hrun, ?_, ?_, ?_, hother⟩
  · rw [← length_contents, hcontents, List.length_append, hlen, List.length_map,
      List.length_range]
  · rw [hcontents, List.take_left' hlen]
  · rw [hcontents, List.drop_left' hlen]

/-- `fileFwrite_cuts` for three bytes at position 1021 of the first file. -/
theorem fileFwrite_cuts_twoFiles :
    ∃ d' self', fileFwrite smallGroup.sb twoFilesDisk ⟨0x81FF, 12, 1022, 1021⟩ (fun _ => 0)
        (fun _ => 65) 3 = some (d', self') ∧
      (view smallGroup d').fileSize 12 = 1024 ∧
      ((view smallGroup d').contents 12).take 1021 =
        ((view smallGroup twoFilesDisk).contents 12).take 1021 ∧
      ((view smallGroup d').contents 12).drop 1021 = (List.range 3).map (fun _ => 65) ∧
      ∀ f ∈ ({12, 13} : Set Nat), f ≠ 12 →
        (view smallGroup d').contents f = (view smallGroup twoFilesDisk).contents f := by
  have hpos : 1021 ≤ (view smallGroup twoFilesDisk).fileSize 12 := by
    rw [fileSize_twoFiles.1]
    decide
  have hroom : blocksFor (1021 + 3) - blocksFor ((view smallGroup twoFilesDisk).fileSize 12) ≤
      (view smallGroup twoFilesDisk).freeBlocks.card := by
    rw [fileSize_twoFiles.1]
    exact (show blocksFor (1021 + 3) - blocksFor 1022 ≤ 2 by decide).trans two_le_freeBlocks
  exact fileFwrite_cuts onDisk_twoFiles files_twoFiles ⟨0x81FF, 12, 1022, 1021⟩ _ _ 3
    (Or.inl rfl) hpos (by decide) hroom

/-- Overwriting the first byte of the first file does not keep its size: the file
ends behind that byte. -/
theorem fileFwrite_first_byte :
    ∃ d' self', fileFwrite smallGroup.sb twoFilesDisk ⟨0x81FF, 12, 1022, 0⟩ (fun _ => 0)
        (fun _ => 65) 1 = some (d', self') ∧
      (view smallGroup d').fileSize 12 = 1 ∧
      (view smallGroup d').fileSize 12 ≠ max ((view smallGroup twoFilesDisk).fileSize 12) 1 := by
  have hown := files_twoFiles.owns 12 (Or.inl rfl)
  have hroom : blocksFor (0 + 1) - iBlocks ((view smallGroup twoFilesDisk).inode 12) ≤
      (view smallGroup twoFilesDisk).freeBlocks.card := by
    rw [files_twoFiles.blocks 12 (Or.inl rfl), fileSize_twoFiles.1]
    exact (show blocksFor (0 + 1) - blocksFor 1022 ≤ 2 by decide).trans two_le_freeBlocks
  have hwrite : (fileFwrite smallGroup.sb twoFilesDisk ⟨0x81FF, 12, 1022, 0⟩ (fun _ => 0)
      (fun _ => 65) 1).isSome :=
    fileFwrite_isSome onDisk_twoFiles hown.valid hown.used (by decide) hroom
  obtain ⟨⟨d', self'⟩, hrun⟩ := Option.isSome_iff_exists.mp hwrite
  obtain ⟨-, -, hcontents, -, -⟩ := files_twoFiles.fileFwrite onDisk_twoFiles (Or.inl rfl)
    (Nat.zero_le _) (by decide) hrun
  have hone : (view smallGroup d').fileSize 12 = 1 := by
    rw [← length_contents, hcontents]
    simp
  refine ⟨d', self', hrun, hone, ?_⟩
  rw [hone, fileSize_twoFiles.1]
  decide

/-! ## Runs of appends -/

/-- One append: the open file, the local variable of the call, and the buffer. -/
structure Append where
  file : File
  stack : Buf
  buf : Buf
  nbytes : Nat

/-- The bytes an append writes. -/
def Append.bytes (a : Append) : List UInt8 := (List.range a.nbytes).map a.buf

/-- An open file with another position. -/
def File.moveTo (self : File) (pos : Nat) : File := { self with fPos := pos }

@[simp] theorem File.moveTo_iIno (self : File) (pos : Nat) : (self.moveTo pos).iIno = self.iIno :=
  rfl

@[simp] theorem File.moveTo_fPos (self : File) (pos : Nat) : (self.moveTo pos).fPos = pos := rfl

/-- `file_fwrite` with the file position at the end of the file. -/
def append (sb : Super) (d : Disk) (a : Append) : Option Disk :=
  let size := iSize (ext2ReadInode sb d a.file.iIno a.stack).2
  (fileFwrite sb d (a.file.moveTo size) a.stack a.buf a.nbytes).map Prod.fst

/-- A run of appends. -/
def appendAll (sb : Super) (d : Disk) : List Append → Option Disk
  | [] => some d
  | a :: run => (append sb d a).bind fun d => appendAll sb d run

/-- The bytes a run appends to a file, in order. -/
def appended (run : List Append) (f : Nat) : List UInt8 :=
  (run.filter fun a => a.file.iIno = f).flatMap Append.bytes

/-- The number of new blocks a run takes, from the sizes of the files before it. -/
def newBlocks (size : Nat → Nat) : List Append → Nat
  | [] => 0
  | a :: run =>
      blocksFor (size a.file.iIno + a.nbytes) - blocksFor (size a.file.iIno) +
        newBlocks (Function.update size a.file.iIno (size a.file.iIno + a.nbytes)) run

theorem appended_cons (a : Append) (run : List Append) (f : Nat) :
    appended (a :: run) f = (if a.file.iIno = f then a.bytes else []) ++ appended run f := by
  by_cases hf : a.file.iIno = f
  · simp [appended, hf]
  · simp [appended, hf]

@[simp] theorem length_bytes (a : Append) : a.bytes.length = a.nbytes := by
  simp [Append.bytes]

/-- The blocks a run takes depend on the sizes of the files it writes to. -/
theorem newBlocks_congr {size size' : Nat → Nat} (run : List Append)
    (h : ∀ a ∈ run, size a.file.iIno = size' a.file.iIno) :
    newBlocks size run = newBlocks size' run := by
  induction run generalizing size size' with
  | nil => rfl
  | cons a run ih =>
      have ha := h a List.mem_cons_self
      rw [newBlocks, newBlocks, ha]
      congr 1
      apply ih
      intro b hb
      by_cases hab : b.file.iIno = a.file.iIno
      · rw [hab, Function.update_self, Function.update_self]
      · rw [Function.update_of_ne hab, Function.update_of_ne hab]
        exact h b (List.mem_cons_of_mem _ hb)

/-- One append succeeds when enough blocks are unused, and puts its bytes behind
the contents of its file. -/
theorem Files.append (hfiles : Files g (view g d) F) (hd : OnDisk g d) (a : Append)
    (hmem : a.file.iIno ∈ F)
    (hsize : (view g d).fileSize a.file.iIno + a.nbytes ≤ 12 * blocksize)
    (hroom : blocksFor ((view g d).fileSize a.file.iIno + a.nbytes) -
      blocksFor ((view g d).fileSize a.file.iIno) ≤ (view g d).freeBlocks.card) :
    ∃ d', Ext2.append g.sb d a = some d' ∧ OnDisk g d' ∧ Files g (view g d') F ∧
      (view g d').contents a.file.iIno = (view g d).contents a.file.iIno ++ a.bytes ∧
      (∀ f ∈ F, f ≠ a.file.iIno → (view g d').contents f = (view g d).contents f) ∧
      (view g d').freeBlocks.card + (blocksFor ((view g d).fileSize a.file.iIno + a.nbytes) -
        blocksFor ((view g d).fileSize a.file.iIno)) = (view g d).freeBlocks.card := by
  have hown := hfiles.owns _ hmem
  obtain ⟨self, hself⟩ : ∃ self, self = a.file.moveTo ((view g d).fileSize a.file.iIno) :=
    ⟨_, rfl⟩
  have hino : self.iIno = a.file.iIno := by rw [hself, File.moveTo_iIno]
  have hpos : self.fPos = (view g d).fileSize a.file.iIno := by rw [hself, File.moveTo_fPos]
  rw [← hino] at hmem hown hpos hsize hroom ⊢
  rw [← hpos] at hsize hroom ⊢
  have hwrite : (Ext2.fileFwrite g.sb d self a.stack a.buf a.nbytes).isSome := by
    apply fileFwrite_isSome hd hown.valid hown.used
    · unfold blocksize at hsize
      omega
    · rw [hfiles.blocks _ hmem, ← hpos]
      exact hroom
  obtain ⟨⟨d', self'⟩, hrun⟩ := Option.isSome_iff_exists.mp hwrite
  obtain ⟨hd', hfiles', hcontents, hother, hcard⟩ :=
    hfiles.fileFwrite hd hmem hpos.le hsize hrun
  rw [← hpos] at hcard
  refine ⟨d', ?_, hd', hfiles', ?_, hother, hcard⟩
  · have hsame : a.file.moveTo (iSize ((view g d).inode a.file.iIno)) = self := hself.symm
    rw [hino] at hown
    simp only [Ext2.append, readInode_eq hd hown.valid hown.used, hsame, hrun, Option.map_some]
  · rw [hcontents, List.take_of_length_le (by rw [length_contents, hpos])]
    rfl

/-- After a run of appends every file holds its contents followed by its appends. -/
theorem Files.appendAll (hfiles : Files g (view g d) F) (hd : OnDisk g d) (run : List Append)
    (hmem : ∀ a ∈ run, a.file.iIno ∈ F)
    (hsize : ∀ f ∈ F, (view g d).fileSize f + (appended run f).length ≤ 12 * blocksize)
    (hroom : newBlocks (view g d).fileSize run ≤ (view g d).freeBlocks.card) :
    ∃ d', Ext2.appendAll g.sb d run = some d' ∧ OnDisk g d' ∧ Files g (view g d') F ∧
      ∀ f ∈ F, (view g d').contents f = (view g d).contents f ++ appended run f := by
  induction run generalizing d with
  | nil => exact ⟨d, rfl, hd, hfiles, fun f _ => (List.append_nil _).symm⟩
  | cons a run ih =>
      have ha := hmem a List.mem_cons_self
      have hasize := hsize _ ha
      rw [appended_cons, if_pos rfl, List.length_append, length_bytes] at hasize
      rw [newBlocks] at hroom
      obtain ⟨d₁, hfirst, hd₁, hfiles₁, hself, hother, hcard⟩ :=
        hfiles.append hd a ha (by omega) (by omega)
      have hsize₁ : (view g d₁).fileSize a.file.iIno =
          (view g d).fileSize a.file.iIno + a.nbytes := by
        rw [← length_contents, hself, List.length_append, length_contents, length_bytes]
      have hother₁ : ∀ f ∈ F, f ≠ a.file.iIno →
          (view g d₁).fileSize f = (view g d).fileSize f := by
        intro f hf hne
        rw [← length_contents, hother f hf hne, length_contents]
      -- the sizes before the rest of the run
      have hblocks : newBlocks (view g d₁).fileSize run = newBlocks (Function.update
          (view g d).fileSize a.file.iIno ((view g d).fileSize a.file.iIno + a.nbytes)) run := by
        apply newBlocks_congr
        intro b hb
        by_cases hab : b.file.iIno = a.file.iIno
        · rw [hab, Function.update_self, hsize₁]
        · rw [Function.update_of_ne hab,
            hother₁ _ (hmem b (List.mem_cons_of_mem _ hb)) hab]
      obtain ⟨d', hrest, hd', hfiles', hcontents⟩ := ih hfiles₁ hd₁
        (fun b hb => hmem b (List.mem_cons_of_mem _ hb))
        (by
          intro f hf
          have hle := hsize f hf
          rw [appended_cons, List.length_append] at hle
          by_cases hfa : f = a.file.iIno
          · subst hfa
            rw [if_pos rfl, length_bytes] at hle
            omega
          · rw [hother₁ f hf hfa]
            omega)
        (by omega)
      refine ⟨d', ?_, hd', hfiles', ?_⟩
      · rw [Ext2.appendAll, hfirst]
        exact hrest
      · intro f hf
        rw [hcontents f hf, appended_cons]
        by_cases hfa : a.file.iIno = f
        · rw [if_pos hfa, ← hfa, hself, List.append_assoc]
        · rw [if_neg hfa, hother f hf (Ne.symm hfa), List.nil_append]

/-- A read of a file delivers a slice of its contents and leaves the rest of the
buffer alone. -/
theorem Files.read (hfiles : Files g (view g d) F) (hd : OnDisk g d) {f : Nat} (hf : f ∈ F)
    (stack buf : Buf) {offset nbytes : Nat} (ho : offset < 2 ^ 32) (hn : nbytes < 2 ^ 32) :
    let inode := (ext2ReadInode g.sb d f stack).2
    let r := ext2ReadData d inode offset buf nbytes
    r.1 = min nbytes (((view g d).contents f).length - offset) ∧
      (List.range r.1).map r.2 = (((view g d).contents f).drop offset).take nbytes ∧
      ∀ i, r.1 ≤ i → r.2 i = buf i := by
  have hown := hfiles.owns f hf
  have hsize : iSize ((view g d).inode f) ≤ 12 * blocksize := hfiles.size f hf
  simp only [readInode_eq hd hown.valid hown.used, length_contents]
  obtain ⟨hret, hbytes⟩ := ext2ReadData_direct d ((view g d).inode f) buf hsize ho hn
  refine ⟨hret, ?_, ?_⟩
  · rw [View.contents, drop_take_map_range, hret]
    apply List.map_congr_left
    intro i hi
    have hlt := List.mem_range.mp hi
    have hblk : (offset + i) / blocksize < directCount ((view g d).inode f) := by
      rw [hfiles.direct hf, hfiles.blocks f hf, lt_blocksFor_iff]
      have hle := Nat.div_mul_le_self (offset + i) blocksize
      unfold View.fileSize
      omega
    rw [hbytes, if_pos hlt, fileByte, blockByte, readBlock_eq (hown.data _ hblk).1]
    rfl
  · intro i hi
    rw [hbytes, if_neg (by omega)]

/-- After any run of appends to any files that each stay within the direct blocks,
with enough unused blocks, a read of a file at any offset and of any length
delivers that slice of the original contents followed by the appends to the file,
in order. -/
theorem appends_read (hd : OnDisk g d) (hfiles : Files g (view g d) F) (run : List Append)
    (hmem : ∀ a ∈ run, a.file.iIno ∈ F)
    (hsize : ∀ f ∈ F, (view g d).fileSize f + (appended run f).length ≤ 12 * blocksize)
    (hroom : newBlocks (view g d).fileSize run ≤ (view g d).freeBlocks.card) :
    ∃ d', appendAll g.sb d run = some d' ∧
      ∀ f ∈ F, ∀ stack buf offset nbytes, offset < 2 ^ 32 → nbytes < 2 ^ 32 →
        let inode := (ext2ReadInode g.sb d' f stack).2
        let r := ext2ReadData d' inode offset buf nbytes
        let content := (view g d).contents f ++ appended run f
        r.1 = min nbytes (content.length - offset) ∧
          (List.range r.1).map r.2 = (content.drop offset).take nbytes ∧
          ∀ i, r.1 ≤ i → r.2 i = buf i := by
  obtain ⟨d', hrun, hd', hfiles', hcontents⟩ := hfiles.appendAll hd run hmem hsize hroom
  refine ⟨d', hrun, ?_⟩
  intro f hf stack buf offset nbytes ho hn
  rw [← hcontents f hf]
  exact hfiles'.read hd' hf stack buf ho hn

/-- Three appends to two files in turn. -/
def threeAppends : List Append :=
  [⟨⟨0x81FF, 12, 1022, 0⟩, fun _ => 0, fun _ => 65, 3⟩, ⟨⟨0x81FF, 13, 0, 0⟩, fun _ => 0,
    fun _ => 66, 5⟩, ⟨⟨0x81FF, 12, 1022, 0⟩, fun _ => 0, fun _ => 67, 1⟩]

/-- `appends_read` for three appends to two files in turn. -/
theorem appends_read_twoFiles :
    ∃ d', appendAll smallGroup.sb twoFilesDisk threeAppends = some d' ∧
      ∀ f ∈ ({12, 13} : Set Nat), ∀ stack buf offset nbytes, offset < 2 ^ 32 → nbytes < 2 ^ 32 →
        let inode := (ext2ReadInode smallGroup.sb d' f stack).2
        let r := ext2ReadData d' inode offset buf nbytes
        let content :=
          (view smallGroup twoFilesDisk).contents f ++ appended threeAppends f
        r.1 = min nbytes (content.length - offset) ∧
          (List.range r.1).map r.2 = (content.drop offset).take nbytes ∧
          ∀ i, r.1 ≤ i → r.2 i = buf i := by
  apply appends_read onDisk_twoFiles files_twoFiles
  · intro a ha
    simp only [threeAppends, List.mem_cons, List.not_mem_nil, or_false] at ha
    rcases ha with rfl | rfl | rfl
    · exact Or.inl rfl
    · exact Or.inr rfl
    · exact Or.inl rfl
  · rintro f (rfl | rfl)
    · rw [fileSize_twoFiles.1]
      decide
    · rw [fileSize_twoFiles.2]
      decide
  · have htwo : newBlocks (view smallGroup twoFilesDisk).fileSize threeAppends = 2 := by
      simp [newBlocks, threeAppends, fileSize_twoFiles, blocksFor, blocksize]
    rw [htwo]
    exact two_le_freeBlocks

end Writes

end Ext2
end NochOS
