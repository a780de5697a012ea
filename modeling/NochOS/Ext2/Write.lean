import NochOS.Ext2.View
import NochOS.Ext2.FileData
import Mathlib.Order.Interval.Finset.Nat
import Mathlib.Data.Finset.Card

/-!
# ext2 - allocation and the effect of a write

A write first resizes the file: the inode gets the size the write ends at and new
data blocks where it lacks some.  Then the range is copied into the blocks.  This
module states the effect of both on the four parts of the image.

Main results:

- Theorems `fillBlocks_spec`, `fillBlocks_isSome`: the loop that allocates blocks.
- Theorem `fields_resize`: the inode after it was resized.
- Structure `Rewrite`: an image with one file rewritten.
- Theorem `fileFwrite_spec`: the image after `file_fwrite`.
-/

namespace NochOS
namespace Ext2

open Library Bitmap

/-! ## Fresh blocks -/

/-- The image with some blocks marked as used. -/
def View.mark (v : View) (bs : List Nat) : View :=
  { v with blockUsed := fun b => v.blockUsed b || decide (b ∈ bs) }

/-- The unused blocks the allocator looks at. -/
def View.freeBlocks (v : View) : Finset Nat :=
  (Finset.Icc 1 searchedBits).filter fun b => v.blockUsed b = false

/-- A list of different unused blocks that the allocator looks at. -/
structure Fresh (v : View) (bs : List Nat) : Prop where
  nodup : bs.Nodup
  free : ∀ b ∈ bs, b ∈ v.freeBlocks

theorem mem_freeBlocks {v : View} {b : Nat} :
    b ∈ v.freeBlocks ↔ (1 ≤ b ∧ b ≤ searchedBits) ∧ v.blockUsed b = false := by
  rw [View.freeBlocks, Finset.mem_filter, Finset.mem_Icc]

@[simp] theorem mark_nil (v : View) : v.mark [] = v := by
  simp [View.mark]

theorem mark_cons (v : View) (b : Nat) (bs : List Nat) :
    ({ v with blockUsed := Function.update v.blockUsed b true } : View).mark bs =
      v.mark (b :: bs) := by
  ext x
  · by_cases hx : x = b
    · simp [View.mark, hx]
    · simp [View.mark, hx]
  · rfl
  · rfl
  · rfl

/-- Marking fresh blocks takes exactly them from the unused ones. -/
theorem card_freeBlocks_mark {v : View} {bs : List Nat} (h : Fresh v bs) :
    (v.mark bs).freeBlocks.card + bs.length = v.freeBlocks.card := by
  have hsplit : (v.mark bs).freeBlocks = v.freeBlocks \ bs.toFinset := by
    ext b
    rw [Finset.mem_sdiff, mem_freeBlocks, mem_freeBlocks, List.mem_toFinset]
    simp only [View.mark, Bool.or_eq_false_iff, decide_eq_false_iff_not, and_assoc]
  have hsub : bs.toFinset ⊆ v.freeBlocks := by
    intro b hb
    exact h.free b (List.mem_toFinset.mp hb)
  have hcard := Finset.card_sdiff_add_card_eq_card hsub
  rw [hsplit, ← List.toFinset_card_of_nodup h.nodup]
  exact hcard

/-! ## The allocation loop -/

/-- The block numbers `bs` stored from `i_block[i]` on. -/
def putBlocks (inode : Buf) (i : Nat) : List Nat → Buf
  | [] => inode
  | b :: bs => putBlocks (setIBlock inode i b) (i + 1) bs

/-- Storing block numbers touches their own slots only. -/
theorem putBlocks_outside (bs : List Nat) (inode : Buf) (i : Nat) {j : Nat}
    (hj : j < 40 + 4 * i ∨ 40 + 4 * (i + bs.length) ≤ j) : putBlocks inode i bs j = inode j := by
  induction bs generalizing inode i with
  | nil => rfl
  | cons b bs ih =>
      rw [List.length_cons] at hj
      rw [putBlocks, ih _ _ (by omega), setIBlock, setU32_outside (by omega)]

/-- The slots after block numbers were stored. -/
theorem iBlock_putBlocks (bs : List Nat) (inode : Buf) (i : Nat) (hlt : ∀ b ∈ bs, b < 2 ^ 32)
    (k : Nat) :
    iBlock (putBlocks inode i bs) k =
      if h : i ≤ k ∧ k < i + bs.length then bs[k - i] else iBlock inode k := by
  induction bs generalizing inode i with
  | nil =>
      rw [dif_neg]
      · rfl
      · simp
  | cons b bs ih =>
      rw [putBlocks, ih _ _ fun c hc => hlt c (List.mem_cons_of_mem _ hc)]
      by_cases hk : k = i
      · subst hk
        rw [dif_neg (by omega), dif_pos (by simp)]
        simp only [Nat.sub_self, List.getElem_cons_zero]
        exact u32At_setU32 inode _ (hlt b List.mem_cons_self)
      · by_cases hin : i + 1 ≤ k ∧ k < i + 1 + bs.length
        · rw [dif_pos hin, dif_pos (by rw [List.length_cons]; omega)]
          have hsub : k - i = (k - (i + 1)) + 1 := by omega
          simp only [hsub, List.getElem_cons_succ]
        · rw [dif_neg hin, dif_neg (by rw [List.length_cons]; omega)]
          exact u32At_setU32_of_disjoint (by omega)

section Allocation

variable {g : Geometry} {d : Disk}

/-- The loop takes fresh blocks and stores their numbers. -/
theorem fillBlocks_spec (hd : OnDisk g d) {n i : Nat} {inode inode' : Buf} {d' : Disk}
    (h : fillBlocks i n inode d = some (inode', d')) :
    ∃ bs, bs.length = n ∧ Fresh (view g d) bs ∧ OnDisk g d' ∧ view g d' = (view g d).mark bs ∧
      inode' = putBlocks inode i bs := by
  induction n generalizing i inode d with
  | zero =>
      simp only [fillBlocks, Option.some.injEq, Prod.mk.injEq] at h
      obtain ⟨rfl, rfl⟩ := h
      exact ⟨[], rfl, ⟨List.nodup_nil, by simp⟩, hd, (mark_nil _).symm, rfl⟩
  | succ n ih =>
      rcases nextFreeBlkno_spec hd with ⟨hnone, -⟩ | ⟨b, d₁, hsome, hlo, hhi, hfree, hd₁, hview⟩
      · rw [fillBlocks, hnone] at h
        exact absurd h (by simp)
      · rw [fillBlocks, hsome] at h
        obtain ⟨bs, hlen, hfresh, hd', hview', rfl⟩ := ih hd₁ h
        have hmem : b ∈ (view g d).freeBlocks := mem_freeBlocks.mpr ⟨⟨hlo, hhi⟩, hfree⟩
        -- a block taken later is unused after the first one was taken
        have hlater : ∀ c ∈ bs, c ≠ b ∧ c ∈ (view g d).freeBlocks := by
          intro c hc
          have hcfree := mem_freeBlocks.mp (hfresh.free c hc)
          rw [hview] at hcfree
          by_cases hcb : c = b
          · subst hcb
            simp at hcfree
          · simp only [Function.update_of_ne hcb] at hcfree
            exact ⟨hcb, mem_freeBlocks.mpr hcfree⟩
        refine ⟨b :: bs, by rw [List.length_cons, hlen], ⟨?_, ?_⟩, hd', ?_, rfl⟩
        · refine List.nodup_cons.mpr ⟨fun hb => (hlater b hb).1 rfl, hfresh.nodup⟩
        · intro c hc
          rcases List.mem_cons.mp hc with rfl | hc
          · exact hmem
          · exact (hlater c hc).2
        · rw [hview', hview, mark_cons]

/-- The loop succeeds when enough blocks are unused. -/
theorem fillBlocks_isSome (hd : OnDisk g d) {n : Nat} (i : Nat) (inode : Buf)
    (hroom : n ≤ (view g d).freeBlocks.card) : (fillBlocks i n inode d).isSome := by
  induction n generalizing i inode d with
  | zero => rfl
  | succ n ih =>
      rcases nextFreeBlkno_spec hd with ⟨-, hfull⟩ | ⟨b, d₁, hsome, hlo, hhi, hfree, hd₁, hview⟩
      · have hempty : (view g d).freeBlocks = ∅ := by
          apply Finset.eq_empty_of_forall_notMem
          intro b hb
          have hmem := mem_freeBlocks.mp hb
          rw [hfull b hmem.1.1 hmem.1.2] at hmem
          exact absurd hmem.2 (by simp)
        rw [hempty, Finset.card_empty] at hroom
        omega
      · have hfresh : Fresh (view g d) [b] :=
          ⟨List.nodup_singleton b, by simp [mem_freeBlocks, hlo, hhi, hfree]⟩
        have hcard := card_freeBlocks_mark hfresh
        rw [← mark_cons, mark_nil, ← hview, List.length_singleton] at hcard
        rw [fillBlocks, hsome]
        exact ih hd₁ _ _ (by omega)

end Allocation

/-! ## Resizing an inode -/

/-- The inode `ext2_alloc_inode` writes back, with the blocks it has taken. -/
def resize (inode : Buf) (fsize : Nat) (bs : List Nat) : Buf :=
  putBlocks (setIBlocks (setISize inode fsize) (blocksFor fsize)) (iBlocks inode) bs

theorem blocksFor_le {fsize : Nat} (h : fsize ≤ 12 * blocksize) : blocksFor fsize ≤ 12 := by
  unfold blocksize at h
  unfold blocksFor blocksize
  split <;> omega

/-- A position lies in the blocks of a file exactly when its block does. -/
theorem lt_blocksFor_iff (k fsize : Nat) : k < blocksFor fsize ↔ k * blocksize < fsize := by
  unfold blocksFor blocksize
  split <;> omega

theorem blocksFor_mono {m n : Nat} (h : m ≤ n) : blocksFor m ≤ blocksFor n := by
  by_contra hlt
  have hin := (lt_blocksFor_iff (blocksFor n) m).mp (by omega)
  have hout := mt (lt_blocksFor_iff (blocksFor n) n).mpr (by omega)
  omega

/-- The fields of an inode that was resized within the direct blocks: size and
block count are new, the blocks it had stay and the fresh ones follow them. -/
theorem fields_resize {v : View} (inode : Buf) {fsize : Nat} {bs : List Nat}
    (hfresh : Fresh v bs) (hsize : fsize ≤ 12 * blocksize)
    (hlen : bs.length = blocksFor fsize - iBlocks inode) :
    iSize (resize inode fsize bs) = fsize ∧ iBlocks (resize inode fsize bs) = blocksFor fsize ∧
      iMode (resize inode fsize bs) = iMode inode ∧
      (∀ k, iBlock (resize inode fsize bs) k =
        if h : iBlocks inode ≤ k ∧ k < iBlocks inode + bs.length then bs[k - iBlocks inode]
        else iBlock inode k) ∧
      ∀ i, sizeofInode ≤ i → resize inode fsize bs i = inode i := by
  have hblocks := blocksFor_le hsize
  -- a byte before the slots is not touched when they are filled
  have hbefore : ∀ i < 40, resize inode fsize bs i =
      setIBlocks (setISize inode fsize) (blocksFor fsize) i := fun i hi =>
    putBlocks_outside bs _ _ (by omega)
  refine ⟨?_, ?_, ?_, ?_, ?_⟩
  · have hcongr : iSize (resize inode fsize bs) =
        iSize (setIBlocks (setISize inode fsize) (blocksFor fsize)) :=
      u32At_congr fun i hi => hbefore _ (by omega)
    have hlt : fsize < 2 ^ 32 := by
      unfold blocksize at hsize
      omega
    rw [hcongr, iSize, setIBlocks, u32At_setU32_of_disjoint (by omega)]
    exact u32At_setU32 inode 4 hlt
  · have hcongr : iBlocks (resize inode fsize bs) =
        iBlocks (setIBlocks (setISize inode fsize) (blocksFor fsize)) :=
      u32At_congr fun i hi => hbefore _ (by omega)
    rw [hcongr]
    exact u32At_setU32 _ 28 (by omega)
  · apply u16At_congr
    intro i hi
    rw [hbefore _ (by omega), setIBlocks, setU32_outside (by omega), setISize,
      setU32_outside (by omega)]
  · intro k
    have hlt : ∀ b ∈ bs, b < 2 ^ 32 := by
      intro b hb
      have hmem := (mem_freeBlocks.mp (hfresh.free b hb)).1.2
      unfold searchedBits at hmem
      omega
    have hold : iBlock (setIBlocks (setISize inode fsize) (blocksFor fsize)) k =
        iBlock inode k := by
      rw [iBlock, setIBlocks, u32At_setU32_of_disjoint (by omega), setISize,
        u32At_setU32_of_disjoint (by omega), iBlock]
    rw [resize, iBlock_putBlocks bs _ _ hlt, hold]
  · intro i hi
    unfold sizeofInode at hi
    rw [resize, putBlocks_outside bs _ _ (by omega), setIBlocks, setU32_outside (by omega),
      setISize, setU32_outside (by omega)]

/-! ## Owned blocks -/

/-- Every metadata block is marked as used. -/
def MetaUsed (g : Geometry) (v : View) : Prop := ∀ b, 1 ≤ b → g.Meta b → v.blockUsed b = true

/-- The number of slots of an inode that hold direct blocks in use. -/
def directCount (inode : Buf) : Nat := min (iBlocks inode) 12

/-- An inode in use whose direct blocks are different data blocks marked as used. -/
structure Owns (g : Geometry) (v : View) (ino : Nat) : Prop where
  valid : g.ValidIno ino
  used : v.inodeUsed ino = true
  data : ∀ k < directCount (v.inode ino),
    g.IsData (iBlock (v.inode ino) k) ∧ v.blockUsed (iBlock (v.inode ino) k) = true
  inj : ∀ j < directCount (v.inode ino), ∀ k < directCount (v.inode ino),
    iBlock (v.inode ino) j = iBlock (v.inode ino) k → j = k

/-- An inode without blocks owns them. -/
theorem owns_of_empty {g : Geometry} {v : View} {ino : Nat} (hvalid : g.ValidIno ino)
    (hused : v.inodeUsed ino = true) (hempty : iBlocks (v.inode ino) = 0) : Owns g v ino := by
  have hnone : directCount (v.inode ino) = 0 := by
    rw [directCount, hempty, Nat.zero_min]
  refine ⟨hvalid, hused, ?_, ?_⟩
  · intro k hk
    rw [hnone] at hk
    exact absurd hk (Nat.not_lt_zero k)
  · intro j hj
    rw [hnone] at hj
    exact absurd hj (Nat.not_lt_zero j)

/-- An unused block number the allocator looks at names a data block. -/
theorem isData_of_free {g : Geometry} {v : View} (hmeta : MetaUsed g v) {b : Nat}
    (hb : b ∈ v.freeBlocks) : g.IsData b := by
  obtain ⟨⟨hlo, hhi⟩, hfree⟩ := mem_freeBlocks.mp hb
  refine ⟨hhi.trans (by decide), fun hm => ?_⟩
  rw [hmeta b hlo hm] at hfree
  exact absurd hfree (by simp)

/-- The slots of a resized inode hold its old blocks and fresh ones, all different
data blocks. -/
theorem blocks_resize {g : Geometry} {v : View} {ino : Nat} (hmeta : MetaUsed g v)
    (hown : Owns g v ino) {fsize : Nat} {bs : List Nat} (hfresh : Fresh v bs)
    (hsize : fsize ≤ 12 * blocksize) (hlen : bs.length = blocksFor fsize - iBlocks (v.inode ino)) :
    (∀ k < blocksFor fsize,
        (k < directCount (v.inode ino) ∧
            iBlock (resize (v.inode ino) fsize bs) k = iBlock (v.inode ino) k) ∨
          iBlock (resize (v.inode ino) fsize bs) k ∈ bs) ∧
      (∀ k < blocksFor fsize, g.IsData (iBlock (resize (v.inode ino) fsize bs) k)) ∧
      ∀ j < blocksFor fsize, ∀ k < blocksFor fsize,
        iBlock (resize (v.inode ino) fsize bs) j = iBlock (resize (v.inode ino) fsize bs) k →
        j = k := by
  have hblocks := blocksFor_le hsize
  obtain ⟨-, -, -, hslot, -⟩ := fields_resize (v.inode ino) hfresh hsize hlen
  have hcases : ∀ k < blocksFor fsize,
      (k < directCount (v.inode ino) ∧
          iBlock (resize (v.inode ino) fsize bs) k = iBlock (v.inode ino) k) ∨
        ∃ h : k - iBlocks (v.inode ino) < bs.length, iBlocks (v.inode ino) ≤ k ∧
          iBlock (resize (v.inode ino) fsize bs) k = bs[k - iBlocks (v.inode ino)] := by
    intro k hk
    by_cases hold : k < iBlocks (v.inode ino)
    · left
      refine ⟨by unfold directCount; omega, ?_⟩
      rw [hslot, dif_neg (by omega)]
    · right
      have hin : iBlocks (v.inode ino) ≤ k ∧ k < iBlocks (v.inode ino) + bs.length := by omega
      refine ⟨by omega, hin.1, ?_⟩
      rw [hslot, dif_pos hin]
  -- a fresh block is none of the old ones, which are marked as used
  have happart : ∀ k < directCount (v.inode ino), iBlock (v.inode ino) k ∉ bs := by
    intro k hk hin
    have hfree := (mem_freeBlocks.mp (hfresh.free _ hin)).2
    rw [(hown.data k hk).2] at hfree
    exact absurd hfree (by simp)
  refine ⟨?_, ?_, ?_⟩
  · intro k hk
    rcases hcases k hk with hold | ⟨h, -, heq⟩
    · exact Or.inl hold
    · exact Or.inr (heq ▸ List.getElem_mem h)
  · intro k hk
    rcases hcases k hk with ⟨hlt, heq⟩ | ⟨h, -, heq⟩
    · rw [heq]
      exact (hown.data k hlt).1
    · rw [heq]
      exact isData_of_free hmeta (hfresh.free _ (List.getElem_mem h))
  · intro j hj k hk hjk
    rcases hcases j hj with ⟨hltj, heqj⟩ | ⟨hbj, hgej, heqj⟩
    · rcases hcases k hk with ⟨hltk, heqk⟩ | ⟨hbk, hgek, heqk⟩
      · exact hown.inj j hltj k hltk (by rw [← heqj, hjk, heqk])
      · have hin : iBlock (v.inode ino) j ∈ bs := by
          rw [← heqj, hjk, heqk]
          exact List.getElem_mem hbk
        exact absurd hin (happart j hltj)
    · rcases hcases k hk with ⟨hltk, heqk⟩ | ⟨hbk, hgek, heqk⟩
      · have hin : iBlock (v.inode ino) k ∈ bs := by
          rw [← heqk, ← hjk, heqj]
          exact List.getElem_mem hbj
        exact absurd hin (happart k hltk)
      · rw [heqj, heqk] at hjk
        have hidx := hfresh.nodup.getElem_inj_iff.mp hjk
        omega

/-! ## Rewritten files -/

/-- The byte at a position of a file. -/
def View.fileByte (v : View) (ino pos : Nat) : UInt8 :=
  v.data (iBlock (v.inode ino) (pos / blocksize)) (pos % blocksize)

/-- The second image is the first one with an inode resized to `fsize` by the
fresh blocks `bs`, and other contents in blocks of that inode only. -/
structure Rewrite (v v' : View) (ino fsize : Nat) (bs : List Nat) : Prop where
  fresh : Fresh v bs
  length : bs.length = blocksFor fsize - iBlocks (v.inode ino)
  parts : v' =
    { v.mark bs with
      inode := Function.update v.inode ino (resize (v.inode ino) fsize bs)
      data := v'.data }
  keep : ∀ b, (∀ k < blocksFor fsize, b ≠ iBlock (resize (v.inode ino) fsize bs) k) →
    v'.data b = v.data b

namespace Rewrite

variable {g : Geometry} {v v' : View} {ino fsize : Nat} {bs : List Nat}

theorem blockUsed (h : Rewrite v v' ino fsize bs) :
    v'.blockUsed = fun b => v.blockUsed b || decide (b ∈ bs) := by
  rw [h.parts]
  rfl

theorem inodeUsed (h : Rewrite v v' ino fsize bs) : v'.inodeUsed = v.inodeUsed := by
  rw [h.parts]
  rfl

theorem inode_self (h : Rewrite v v' ino fsize bs) :
    v'.inode ino = resize (v.inode ino) fsize bs := by
  rw [h.parts]
  exact Function.update_self _ _ _

theorem inode_other (h : Rewrite v v' ino fsize bs) {f : Nat} (hf : f ≠ ino) :
    v'.inode f = v.inode f := by
  rw [h.parts]
  exact Function.update_of_ne hf _ _

/-- A used block stays used. -/
theorem used (h : Rewrite v v' ino fsize bs) {b : Nat} (hb : v.blockUsed b = true) :
    v'.blockUsed b = true := by
  rw [h.blockUsed]
  simp [hb]

theorem metaUsed (h : Rewrite v v' ino fsize bs) (hmeta : MetaUsed g v) : MetaUsed g v' :=
  fun b hb hm => h.used (hmeta b hb hm)

/-- The fields of the rewritten inode. -/
theorem fields (h : Rewrite v v' ino fsize bs) (hsize : fsize ≤ 12 * blocksize) :
    iSize (v'.inode ino) = fsize ∧ iBlocks (v'.inode ino) = blocksFor fsize ∧
      iMode (v'.inode ino) = iMode (v.inode ino) := by
  obtain ⟨h₁, h₂, h₃, -, -⟩ := fields_resize (v.inode ino) h.fresh hsize h.length
  rw [h.inode_self]
  exact ⟨h₁, h₂, h₃⟩

/-- A block of the rewritten inode is one it had or a fresh one. -/
theorem slot_cases (h : Rewrite v v' ino fsize bs) (hmeta : MetaUsed g v) (hown : Owns g v ino)
    (hsize : fsize ≤ 12 * blocksize) {k : Nat} (hk : k < blocksFor fsize) :
    (k < directCount (v.inode ino) ∧ iBlock (v'.inode ino) k = iBlock (v.inode ino) k) ∨
      iBlock (v'.inode ino) k ∈ bs := by
  obtain ⟨hcases, -, -⟩ := blocks_resize hmeta hown h.fresh hsize h.length
  rw [h.inode_self]
  exact hcases k hk

/-- The rewritten inode owns its blocks. -/
theorem owns (h : Rewrite v v' ino fsize bs) (hmeta : MetaUsed g v) (hown : Owns g v ino)
    (hsize : fsize ≤ 12 * blocksize) : Owns g v' ino := by
  obtain ⟨-, hdata, hinj⟩ := blocks_resize hmeta hown h.fresh hsize h.length
  have hle := blocksFor_le hsize
  have hcount : directCount (v'.inode ino) = blocksFor fsize := by
    rw [directCount, (h.fields hsize).2.1]
    omega
  rw [← h.inode_self] at hdata hinj
  refine ⟨hown.valid, by rw [h.inodeUsed]; exact hown.used, ?_, ?_⟩
  · intro k hk
    rw [hcount] at hk
    refine ⟨hdata k hk, ?_⟩
    rcases h.slot_cases hmeta hown hsize hk with ⟨hlt, heq⟩ | hmem
    · rw [heq]
      exact h.used (hown.data k hlt).2
    · rw [h.blockUsed]
      simp [hmem]
  · intro j hj k hk heq
    rw [hcount] at hj hk
    exact hinj j hj k hk heq

/-- Every other inode owns what it owned. -/
theorem owns_other (h : Rewrite v v' ino fsize bs) {f : Nat} (hf : f ≠ ino)
    (hown : Owns g v f) : Owns g v' f := by
  refine ⟨hown.valid, by rw [h.inodeUsed]; exact hown.used, ?_, ?_⟩
  · intro k hk
    rw [h.inode_other hf] at hk ⊢
    exact ⟨(hown.data k hk).1, h.used (hown.data k hk).2⟩
  · intro j hj k hk heq
    rw [h.inode_other hf] at hj hk heq
    exact hown.inj j hj k hk heq

/-- A used block that the inode did not own is none of its blocks now. -/
theorem slot_ne (h : Rewrite v v' ino fsize bs) (hmeta : MetaUsed g v) (hown : Owns g v ino)
    (hsize : fsize ≤ 12 * blocksize) {b : Nat} (hb : v.blockUsed b = true)
    (hforeign : ∀ k < directCount (v.inode ino), b ≠ iBlock (v.inode ino) k) {k : Nat}
    (hk : k < blocksFor fsize) : b ≠ iBlock (v'.inode ino) k := by
  rcases h.slot_cases hmeta hown hsize hk with ⟨hlt, heq⟩ | hmem
  · rw [heq]
    exact hforeign k hlt
  · rintro rfl
    have hfree := (mem_freeBlocks.mp (h.fresh.free _ hmem)).2
    rw [hb] at hfree
    exact absurd hfree (by simp)

/-- A used block that the inode did not own keeps its contents. -/
theorem keep_foreign (h : Rewrite v v' ino fsize bs) (hmeta : MetaUsed g v) (hown : Owns g v ino)
    (hsize : fsize ≤ 12 * blocksize) {b : Nat} (hb : v.blockUsed b = true)
    (hforeign : ∀ k < directCount (v.inode ino), b ≠ iBlock (v.inode ino) k) :
    v'.data b = v.data b := by
  apply h.keep
  intro k hk
  rw [← h.inode_self]
  exact h.slot_ne hmeta hown hsize hb hforeign hk

/-- The blocks that are unused afterwards. -/
theorem freeBlocks (h : Rewrite v v' ino fsize bs) :
    v'.freeBlocks.card + (blocksFor fsize - iBlocks (v.inode ino)) = v.freeBlocks.card := by
  have hsame : v'.freeBlocks = (v.mark bs).freeBlocks := by
    unfold View.freeBlocks
    rw [h.blockUsed]
    rfl
  rw [hsame, ← h.length]
  exact card_freeBlocks_mark h.fresh

end Rewrite

/-! ## The effect of a write -/

section Effect

variable {g : Geometry} {d : Disk}

/-- `ext2_alloc_inode` on an inode in use marks fresh blocks and writes the
resized inode back. -/
theorem allocInode_spec (hd : OnDisk g d) {ino : Nat} (hino : g.ValidIno ino)
    (hused : (view g d).inodeUsed ino = true) {inode inode' : Buf} {fsize : Nat} {d' : Disk}
    (h : ext2AllocInode g.sb d ino inode fsize = some (inode', d')) :
    ∃ bs, bs.length = blocksFor fsize - iBlocks inode ∧ Fresh (view g d) bs ∧ OnDisk g d' ∧
      inode' = resize inode fsize bs ∧
      view g d' =
        { (view g d).mark bs with
          inode := Function.update (view g d).inode ino (inodeBytes inode') } := by
  rw [ext2AllocInode, inoTrySet_used hd (validIno_le hino) hused] at h
  simp only [if_neg (show ¬ (1 = 0) by decide)] at h
  cases hfill : fillBlocks (iBlocks inode) (blocksFor fsize - iBlocks inode)
      (setIBlocks (setISize inode fsize) (blocksFor fsize)) d with
  | none =>
      rw [hfill] at h
      exact absurd h (by simp)
  | some r =>
      obtain ⟨inode₁, d₁⟩ := r
      rw [hfill] at h
      simp only [Option.some.injEq, Prod.mk.injEq] at h
      obtain ⟨rfl, rfl⟩ := h
      obtain ⟨bs, hlen, hfresh, hd₁, hview, rfl⟩ := fillBlocks_spec hd hfill
      have hused₁ : (view g d₁).inodeUsed ino = true := by
        rw [hview]
        exact hused
      obtain ⟨hd', hview'⟩ := view_writeInode hd₁ hino hused₁
        (putBlocks (setIBlocks (setISize inode fsize) (blocksFor fsize)) (iBlocks inode) bs)
      refine ⟨bs, hlen, hfresh, hd', rfl, ?_⟩
      rw [hview', hview]
      rfl

/-- A device that differs in data blocks only has the same metadata. -/
theorem view_of_data (hd : OnDisk g d) {d' : Disk} {p : Nat → Prop}
    (hp : ∀ b, p b → g.IsData b) (hsame : ∀ l, (∀ b, p b → l ≠ lba b) → d' l = d l) :
    OnDisk g d' ∧ view g d' = { view g d with data := (view g d').data } ∧
      ∀ b, ¬ p b → (view g d').data b = (view g d).data b := by
  have hlast := g.last
  have hread : ∀ b, b ≤ bitmapBits → ¬ p b → ext2ReadBlock d' b = ext2ReadBlock d b := by
    intro b hb hnot
    apply hsame
    intro c hc heq
    exact hnot (lba_inj hb (hp c hc).1 heq ▸ hc)
  have hmeta : ∀ b, b ≤ bitmapBits → g.Meta b → ext2ReadBlock d' b = ext2ReadBlock d b :=
    fun b hb hm => hread b hb fun hpb => (hp b hpb).2 hm
  have htwo := hmeta 2 (by decide) (Or.inl le_rfl)
  refine ⟨⟨?_, ?_, ?_⟩, ?_, ?_⟩
  · rw [bgBlockBitmap, htwo]
    exact hd.blockBitmap
  · rw [bgInodeBitmap, htwo]
    exact hd.inodeBitmap
  · rw [htwo]
    exact hd.inodeTable
  · ext x i
    · simp only [view]
      rw [hmeta _ hlast.1 (Or.inr (Or.inl rfl))]
    · simp only [view]
      rw [hmeta _ hlast.2.1 (Or.inr (Or.inr (Or.inl rfl)))]
    · simp only [view]
      by_cases hx : g.ValidIno x
      · rw [if_pos hx, if_pos hx, hmeta _ (inodeBlock_le hx) (inodeBlock_meta hx)]
      · rw [if_neg hx, if_neg hx]
    · rfl
  · intro b hb
    simp only [view]
    by_cases hx : g.IsData b
    · rw [if_pos hx, if_pos hx, hread b hx.1 hb]
    · rw [if_neg hx, if_neg hx]

/-- The image after `file_fwrite` on a file whose blocks are its own: it is
rewritten to the end of the write, and its bytes up to there are the buffer in the
range and what its blocks held before it. -/
theorem fileFwrite_spec (hd : OnDisk g d) {self self' : File} {stack buf : Buf} {nbytes : Nat}
    {d' : Disk} (hmeta : MetaUsed g (view g d)) (hown : Owns g (view g d) self.iIno)
    (hsize : self.fPos + nbytes ≤ 12 * blocksize)
    (h : fileFwrite g.sb d self stack buf nbytes = some (d', self')) :
    OnDisk g d' ∧ self' = { self with fPos := self.fPos + nbytes } ∧
      (∃ bs, Rewrite (view g d) (view g d') self.iIno (self.fPos + nbytes) bs) ∧
      ∀ pos < self.fPos + nbytes,
        (view g d').fileByte self.iIno pos =
          if self.fPos ≤ pos then buf (pos - self.fPos)
          else (view g d).data (iBlock ((view g d').inode self.iIno) (pos / blocksize))
            (pos % blocksize) := by
  have hmod : (self.fPos + nbytes) % 2 ^ 32 = self.fPos + nbytes := by
    apply Nat.mod_eq_of_lt
    unfold blocksize at hsize
    omega
  rw [fileFwrite, readInode_eq hd hown.valid hown.used, hmod] at h
  simp only at h
  cases halloc : ext2AllocInode g.sb d self.iIno ((view g d).inode self.iIno)
      (self.fPos + nbytes) with
  | none =>
      rw [halloc] at h
      exact absurd h (by simp)
  | some r =>
      obtain ⟨inode₁, d₁⟩ := r
      rw [halloc] at h
      simp only [Option.some.injEq, Prod.mk.injEq] at h
      obtain ⟨rfl, rfl⟩ := h
      obtain ⟨bs, hlen, hfresh, hd₁, hnew, hview⟩ := allocInode_spec hd hown.valid hown.used halloc
      obtain ⟨hfsize, -, -, -, hpast⟩ :=
        fields_resize ((view g d).inode self.iIno) hfresh hsize hlen
      obtain ⟨-, hdata, hinj⟩ := blocks_resize hmeta hown hfresh hsize hlen
      rw [← hnew] at hfsize hpast hdata hinj
      -- the structure in memory has no byte that the inode on the device lacks
      have hbytes : inodeBytes inode₁ = inode₁ := by
        funext i
        by_cases hi : i < sizeofInode
        · rw [inodeBytes, if_pos hi]
        · rw [inodeBytes, if_neg hi, hpast i (by omega)]
          simp only [view, if_pos hown.valid, inodeBytes, if_neg hi]
      rw [hbytes] at hview
      have hinj₁ : ∀ j k, j * blocksize < iSize inode₁ → k * blocksize < iSize inode₁ →
          lba (iBlock inode₁ j) = lba (iBlock inode₁ k) → j = k := by
        intro j k hj hk heq
        rw [hfsize, ← lt_blocksFor_iff] at hj hk
        exact hinj j hj k hk (lba_inj (hdata j hj).1 (hdata k hk).1 heq)
      obtain ⟨hwrite, hother⟩ := ext2WriteDirect_spec d₁ inode₁ buf hfsize.symm hinj₁
      rw [hfsize] at hwrite hother
      obtain ⟨hd', hview', hkeep⟩ := view_of_data hd₁
        (p := fun b => ∃ k < blocksFor (self.fPos + nbytes), b = iBlock inode₁ k)
        (by
          rintro b ⟨k, hk, rfl⟩
          exact hdata k hk)
        (fun l hl => hother l fun k hk =>
          hl _ ⟨k, (lt_blocksFor_iff k _).mpr hk, rfl⟩)
      have hdata₁ : (view g d₁).data = (view g d).data := by
        rw [hview]
        rfl
      have hrewrite : Rewrite (view g d) (view g (ext2WriteDirect d₁ inode₁ self.fPos buf nbytes).2)
          self.iIno (self.fPos + nbytes) bs := by
        refine ⟨hfresh, hlen, ?_, ?_⟩
        · rw [hview', hview, ← hnew]
        · intro b hb
          rw [← hnew] at hb
          rw [hkeep b, hdata₁]
          rintro ⟨k, hk, heq⟩
          exact hb k hk heq
      refine ⟨hd', rfl, ⟨bs, hrewrite⟩, ?_⟩
      intro pos hpos
      have hblk : pos / blocksize < blocksFor (self.fPos + nbytes) := by
        rw [lt_blocksFor_iff]
        have := Nat.div_mul_le_self pos blocksize
        omega
      have hbyte := hwrite pos hpos
      rw [fileByte, fileByte, blockByte, blockByte, readBlock_eq (hdata _ hblk),
        readBlock_eq (hdata _ hblk), hdata₁] at hbyte
      rw [View.fileByte, hrewrite.inode_self, ← hnew]
      exact hbyte

/-- `file_fwrite` succeeds when enough blocks are unused. -/
theorem fileFwrite_isSome (hd : OnDisk g d) {self : File} {stack buf : Buf} {nbytes : Nat}
    (hvalid : g.ValidIno self.iIno) (hused : (view g d).inodeUsed self.iIno = true)
    (hsize : self.fPos + nbytes < 2 ^ 32)
    (hroom : blocksFor (self.fPos + nbytes) - iBlocks ((view g d).inode self.iIno) ≤
      (view g d).freeBlocks.card) :
    (fileFwrite g.sb d self stack buf nbytes).isSome := by
  have hfill := fillBlocks_isSome hd (iBlocks ((view g d).inode self.iIno))
    (setIBlocks (setISize ((view g d).inode self.iIno) (self.fPos + nbytes))
      (blocksFor (self.fPos + nbytes))) hroom
  obtain ⟨r, hr⟩ := Option.isSome_iff_exists.mp hfill
  rw [fileFwrite, readInode_eq hd hvalid hused, Nat.mod_eq_of_lt hsize]
  simp [ext2AllocInode, inoTrySet_used hd (validIno_le hvalid) hused, hr]

end Effect

end Ext2
end NochOS
