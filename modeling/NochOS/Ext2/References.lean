import NochOS.Ext2.Remove

/-!
# ext2 - which blocks an inode references

An inode references its direct blocks, and when it has more than twelve blocks also
the indirect block and the blocks listed there.  A group of inodes is kept together
in one predicate: each of them is sound, and no two of them share a block.  An
operation works on the storage of one inode, so all the others are carried along.

Main results:

- Definition `View.refs`, structures `Sound`, `Holds`.
- Structure `Touches`: an image in which the storage of one inode has changed.
- Theorems `Touches.sound`, `Touches.entries`, `Holds.touch`: the other inodes.
-/

namespace NochOS
namespace Ext2

open Library

/-! ## References -/

/-- The blocks listed in the indirect block, and the indirect block. -/
def indirectRefs (v : View) (inode : Buf) : List Nat :=
  if iBlocks inode ≤ 12 then []
  else iBlock inode 12 ::
    (List.range (iBlocks inode - 12)).map fun j => u32At (v.data (iBlock inode 12)) (4 * j)

/-- The blocks that an inode references within its block count. -/
def View.refs (v : View) (n : Nat) : List Nat :=
  (List.range (directCount (v.inode n))).map (iBlock (v.inode n)) ++ indirectRefs v (v.inode n)

/-- The inode of a directory. -/
def View.IsDir (v : View) (n : Nat) : Prop := iMode (v.inode n) &&& ext2SIfdir ≠ 0

/-- An inode in use whose blocks are different data blocks marked as used.  A
directory has at most eleven blocks, tiled by records. -/
structure Sound (g : Geometry) (v : View) (n : Nat) : Prop where
  valid : g.ValidIno n
  used : v.inodeUsed n = true
  small : iBlocks (v.inode n) ≤ 12 + 256
  data : ∀ b ∈ v.refs n, g.IsData b ∧ v.blockUsed b = true
  nodup : (v.refs n).Nodup
  dir : v.IsDir n → Directory g v n ∧ iBlocks (v.inode n) ≤ 11

/-- The inodes of a set are sound and share no block. -/
structure Holds (g : Geometry) (v : View) (S : Set Nat) : Prop where
  metaUsed : MetaUsed g v
  padUsed : PadUsed g v
  sound : ∀ n ∈ S, Sound g v n
  apart : ∀ m ∈ S, ∀ n ∈ S, m ≠ n → (v.refs m).Disjoint (v.refs n)

section References

variable {g : Geometry} {v v' : View} {n : Nat}

theorem refs_of_le (h : iBlocks (v.inode n) ≤ 12) :
    v.refs n = (List.range (iBlocks (v.inode n))).map (iBlock (v.inode n)) := by
  rw [View.refs, indirectRefs, if_pos h, List.append_nil, directCount, Nat.min_eq_left h]

/-- A direct block is referenced. -/
theorem iBlock_mem_refs {k : Nat} (hk : k < directCount (v.inode n)) :
    iBlock (v.inode n) k ∈ v.refs n := by
  apply List.mem_append_left
  exact List.mem_map_of_mem (List.mem_range.mpr hk)

/-- The references of an inode depend on the inode and its indirect block. -/
theorem refs_congr (hinode : v'.inode n = v.inode n)
    (hdata : ∀ b ∈ v.refs n, v'.data b = v.data b) : v'.refs n = v.refs n := by
  have hindirect : indirectRefs v' (v.inode n) = indirectRefs v (v.inode n) := by
    by_cases hle : iBlocks (v.inode n) ≤ 12
    · rw [indirectRefs, indirectRefs, if_pos hle, if_pos hle]
    · have hmem : iBlock (v.inode n) 12 ∈ v.refs n := by
        apply List.mem_append_right
        rw [indirectRefs, if_neg hle]
        exact List.mem_cons_self
      rw [indirectRefs, indirectRefs, if_neg hle, if_neg hle, hdata _ hmem]
  rw [View.refs, View.refs, hinode, hindirect]

/-- A sound inode owns its direct blocks. -/
theorem Sound.owns (h : Sound g v n) : Owns g v n := by
  refine ⟨h.valid, h.used, fun k hk => h.data _ (iBlock_mem_refs hk), fun i hi j hj heq => ?_⟩
  have hnodup := h.nodup.of_append_left
  exact List.inj_on_of_nodup_map hnodup (List.mem_range.mpr hi) (List.mem_range.mpr hj) heq

/-- An inode within the direct blocks that owns them is sound, unless it is a directory
that is not well-formed. -/
theorem Owns.sound (h : Owns g v n) (hle : iBlocks (v.inode n) ≤ 12)
    (hdir : v.IsDir n → Directory g v n ∧ iBlocks (v.inode n) ≤ 11) : Sound g v n := by
  have hcount : directCount (v.inode n) = iBlocks (v.inode n) := Nat.min_eq_left hle
  have hdata := h.data
  have hinj := h.inj
  rw [hcount] at hdata hinj
  refine ⟨h.valid, h.used, by omega, ?_, ?_, hdir⟩
  · rw [refs_of_le hle]
    intro b hb
    obtain ⟨k, hk, rfl⟩ := List.mem_map.mp hb
    exact hdata k (List.mem_range.mp hk)
  · rw [refs_of_le hle]
    apply List.Nodup.map_on _ List.nodup_range
    intro i hi j hj heq
    exact hinj i (List.mem_range.mp hi) j (List.mem_range.mp hj) heq

end References

/-! ## Working on the storage of one inode -/

/-- The second image is the first one with other contents in the storage of one inode:
used numbers stay used, and other inodes in use and other used blocks stay as they
are. -/
structure Touches (v v' : View) (t : Nat) : Prop where
  blocks : ∀ b, v.blockUsed b = true → v'.blockUsed b = true
  inodes : ∀ n, v.inodeUsed n = true → v'.inodeUsed n = true
  mode : ∀ n, v.inodeUsed n = true → iMode (v'.inode n) = iMode (v.inode n)
  others : ∀ n, v.inodeUsed n = true → n ≠ t → v'.inode n = v.inode n
  data : ∀ b, v.blockUsed b = true → b ∉ v.refs t → v'.data b = v.data b

namespace Touches

variable {g : Geometry} {v v' : View} {t n : Nat}

theorem refl (v : View) (t : Nat) : Touches v v t :=
  ⟨fun _ hb => hb, fun _ hn => hn, fun _ _ => rfl, fun _ _ _ => rfl, fun _ _ _ => rfl⟩

theorem isDir_iff (ht : Touches v v' t) (hused : v.inodeUsed n = true) :
    v'.IsDir n ↔ v.IsDir n := by
  rw [View.IsDir, View.IsDir, ht.mode n hused]

/-- A sound inode apart from the one worked on keeps its blocks. -/
theorem keep (ht : Touches v v' t) (hn : Sound g v n) (hsep : (v.refs n).Disjoint (v.refs t))
    {b : Nat} (hb : b ∈ v.refs n) : v'.data b = v.data b :=
  ht.data b (hn.data b hb).2 (hsep hb)

theorem refs (ht : Touches v v' t) (hn : Sound g v n) (hne : n ≠ t)
    (hsep : (v.refs n).Disjoint (v.refs t)) : v'.refs n = v.refs n :=
  refs_congr (ht.others n hn.used hne) fun _ hb => ht.keep hn hsep hb

/-- A directory apart from the inode worked on keeps its entries. -/
theorem entries (ht : Touches v v' t) (hn : Sound g v n) (hne : n ≠ t)
    (hsep : (v.refs n).Disjoint (v.refs t)) (hdir : v.IsDir n) :
    Directory g v' n ∧ v'.entries n = v.entries n := by
  obtain ⟨hdirectory, hle⟩ := hn.dir hdir
  refine hdirectory.frame (ht.others n hn.used hne) (ht.inodes n hn.used) ht.blocks ?_
  intro j hj
  apply ht.keep hn hsep
  apply iBlock_mem_refs
  unfold directCount
  omega

/-- An inode apart from the one worked on stays sound. -/
theorem sound (ht : Touches v v' t) (hn : Sound g v n) (hne : n ≠ t)
    (hsep : (v.refs n).Disjoint (v.refs t)) : Sound g v' n := by
  have hinode := ht.others n hn.used hne
  have hrefs := ht.refs hn hne hsep
  refine ⟨hn.valid, ht.inodes n hn.used, ?_, ?_, ?_, fun hdir => ?_⟩
  · rw [hinode]
    exact hn.small
  · rw [hrefs]
    intro b hb
    exact ⟨(hn.data b hb).1, ht.blocks b (hn.data b hb).2⟩
  · rw [hrefs]
    exact hn.nodup
  · have hdir' := (ht.isDir_iff hn.used).mp hdir
    rw [hinode]
    exact ⟨(ht.entries hn hne hsep hdir').1, (hn.dir hdir').2⟩

theorem metaUsed (ht : Touches v v' t) (h : MetaUsed g v) : MetaUsed g v' :=
  fun b hb hm => ht.blocks b (h b hb hm)

theorem padUsed (ht : Touches v v' t) (h : PadUsed g v) : PadUsed g v' := by
  intro n hlo hhi hfree
  apply h n hlo hhi
  by_contra hused
  rw [ht.inodes n (by simpa using hused)] at hfree
  exact absurd hfree (by simp)

end Touches

/-- The group holds together when one inode takes blocks that were its own or unused. -/
theorem Holds.touch {g : Geometry} {v v' : View} {S : Set Nat} {t : Nat} (h : Holds g v S)
    (ht : Touches v v' t) (hsep : ∀ n ∈ S, n ≠ t → (v.refs n).Disjoint (v.refs t))
    (hsound : Sound g v' t) (hrefs : ∀ b ∈ v'.refs t, b ∈ v.refs t ∨ v.blockUsed b = false) :
    Holds g v' (insert t S) := by
  -- the blocks of an inode of the group are apart from the new blocks of the other one
  have hnew : ∀ n ∈ S, n ≠ t → (v'.refs n).Disjoint (v'.refs t) := by
    intro n hn hne b hb hbt
    rw [ht.refs (h.sound n hn) hne (hsep n hn hne)] at hb
    rcases hrefs b hbt with hold | hfree
    · exact hsep n hn hne hb hold
    · rw [((h.sound n hn).data b hb).2] at hfree
      exact absurd hfree (by simp)
  refine ⟨ht.metaUsed h.metaUsed, ht.padUsed h.padUsed, fun n hn => ?_, fun m hm n hn hmn => ?_⟩
  · by_cases hnt : n = t
    · rw [hnt]
      exact hsound
    · have hmem := hn.resolve_left hnt
      exact ht.sound (h.sound n hmem) hnt (hsep n hmem hnt)
  · by_cases hmt : m = t
    · have hnt : n ≠ t := fun hnt => hmn (hmt.trans hnt.symm)
      rw [hmt]
      exact (hnew n (hn.resolve_left hnt) hnt).symm
    · have hmem := hm.resolve_left hmt
      by_cases hnt : n = t
      · rw [hnt]
        exact hnew m hmem hmt
      · have hmem' := hn.resolve_left hnt
        rw [ht.refs (h.sound m hmem) hmt (hsep m hmem hmt),
          ht.refs (h.sound n hmem') hnt (hsep n hmem' hnt)]
        exact h.apart m hmem n hmem' hmn

/-! ## Entries -/

/-- The entries of the directories in one set lead to inodes in another one, and the
entries of type directory to directories. -/
def Closed (v : View) (S T : Set Nat) : Prop :=
  ∀ n ∈ S, v.IsDir n → ∀ r ∈ v.entries n, r.ino ∈ T ∧ (r.ft = ext2FtDir → v.IsDir r.ino)

/-- Working on one inode keeps the entries of the others. -/
theorem Closed.touch {g : Geometry} {v v' : View} {S T T' : Set Nat} {t : Nat}
    (hc : Closed v S T) (h : Holds g v S) (ht : Touches v v' t)
    (hsep : ∀ n ∈ S, n ≠ t → (v.refs n).Disjoint (v.refs t))
    (hused : ∀ n ∈ T, v.inodeUsed n = true) (hsub : T ⊆ T')
    (htarget : v'.IsDir t → ∀ r ∈ v'.entries t, r.ino ∈ T' ∧ (r.ft = ext2FtDir → v'.IsDir r.ino)) :
    Closed v' (insert t S) T' := by
  intro n hn hdir r hr
  by_cases hnt : n = t
  · rw [hnt] at hdir hr
    exact htarget hdir r hr
  · have hmem := hn.resolve_left hnt
    have hsound := h.sound n hmem
    have hdir' := (ht.isDir_iff hsound.used).mp hdir
    rw [(ht.entries hsound hnt (hsep n hmem hnt) hdir').2] at hr
    obtain ⟨hino, hft⟩ := hc n hmem hdir' r hr
    exact ⟨hsub hino, fun hr => (ht.isDir_iff (hused _ hino)).mpr (hft hr)⟩

/-- The inodes that can be reached from a set through the entries of directories. -/
inductive Reach (v : View) (roots : Set Nat) : Nat → Prop
  | root {n : Nat} (h : n ∈ roots) : Reach v roots n
  | entry {dir : Nat} {r : Rec} (h : Reach v roots dir) (hdir : v.IsDir dir)
      (hr : r ∈ v.entries dir) : Reach v roots r.ino

/-- A closed set around the start holds everything that can be reached. -/
theorem Reach.mem {v : View} {roots T : Set Nat} {n : Nat} (h : Reach v roots n)
    (hsub : roots ⊆ T) (hc : Closed v T T) : n ∈ T := by
  induction h with
  | root h => exact hsub h
  | entry _ hdir hr ih => exact (hc _ ih hdir _ hr).1

theorem Reach.mono {v : View} {roots roots' : Set Nat} {n : Nat} (h : Reach v roots n)
    (hsub : roots ⊆ roots') : Reach v roots' n := by
  induction h with
  | root h => exact Reach.root (hsub h)
  | entry _ hdir hr ih => exact Reach.entry ih hdir hr

end Ext2
end NochOS
