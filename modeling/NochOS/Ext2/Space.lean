import NochOS.Ext2.Exclusive

/-!
# ext2 - used numbers and live inodes

In a balanced image a number is marked as used exactly when it is reserved, a
metadata block, a live inode or a block of one.  Allocation keeps the balance as long
as what is allocated is linked: creations in directories with room, and writes that do
not make a file shorter by a block.  Removals lose it, since a release marks the
number as used instead of clearing it.

Main results:

- Definition `Balanced`, definition `spaceSystem`.
- Theorem `space_conserved`: runs without lost blocks keep the balance.
- Theorem `iremove_unbalanced`: a removal that loses it.
-/

namespace NochOS
namespace Ext2

open Library

/-! ## Balance -/

/-- The block and inode numbers that are marked as used whatever the files are. -/
structure Reserved where
  blocks : Set Nat
  inodes : Set Nat

/-- A number is marked as used exactly when it is reserved, metadata, or belongs to a
live inode. -/
structure Balanced (g : Geometry) (R : Reserved) (v : View) : Prop where
  blocks : ∀ b, 1 ≤ b → b ≤ bitmapBits →
    (v.blockUsed b = true ↔ g.Meta b ∨ b ∈ R.blocks ∨ ∃ n, Live v n ∧ b ∈ v.refs n)
  inodes : ∀ n, 1 ≤ n → n ≤ bitmapBits → (v.inodeUsed n = true ↔ n ∈ R.inodes ∨ Live v n)

section Balance

variable {g : Geometry} {R : Reserved} {v v' : View} {ino n mode : Nat} {name : List UInt8}

/-- The balance is kept when the numbers that become used are those that become live. -/
theorem Balanced.extend (hb : Balanced g R v) {N B : Set Nat}
    (hlive : ∀ n, Live v' n ↔ Live v n ∨ n ∈ N)
    (hinodes : ∀ n, v'.inodeUsed n = true ↔ v.inodeUsed n = true ∨ n ∈ N)
    (hrefs : ∀ b, (∃ n, Live v' n ∧ b ∈ v'.refs n) ↔ (∃ n, Live v n ∧ b ∈ v.refs n) ∨ b ∈ B)
    (hblocks : ∀ b, v'.blockUsed b = true ↔ v.blockUsed b = true ∨ b ∈ B) :
    Balanced g R v' := by
  constructor
  · intro b hlo hhi
    rw [hblocks, hrefs, hb.blocks b hlo hhi, or_assoc, or_assoc]
  · intro n hlo hhi
    rw [hinodes, hlive, hb.inodes n hlo hhi, or_assoc]

/-- What is live stays live when directories keep their entries. -/
theorem Live.mono (hkeep : ∀ dir, Live v dir → v.IsDir dir →
      v'.IsDir dir ∧ ∀ r ∈ v.entries dir, ∃ r' ∈ v'.entries dir, r'.ino = r.ino)
    (h : Live v n) : Live v' n := by
  induction h with
  | root h => exact Reach.root h
  | entry hreach hdir hr ih =>
      obtain ⟨hdir', hentries⟩ := hkeep _ hreach hdir
      obtain ⟨r', hr', hino⟩ := hentries _ hr
      rw [← hino]
      exact Reach.entry ih hdir' hr'

/-- A creation keeps the entries of the directory, and adds one when there is room. -/
theorem Created.entries_keep (hc : Created g v v' ino n mode name) (h : Directory g v ino) :
    (∀ r ∈ v.entries ino, ∃ r' ∈ v'.entries ino, r'.ino = r.ino) ∧
      (HasRoom v ino (padded name.length) → ∃ r' ∈ v'.entries ino, r'.ino = n) := by
  obtain ⟨-, ⟨hroom, as, cs, hold, hnew⟩ | ⟨hfull, hsame⟩⟩ := hc.directory h
  · have hmem : ∀ key ∈ (v'.entries ino).map Rec.key, ∃ r' ∈ v'.entries ino, r'.ino = key.2.1 := by
      intro key hkey
      obtain ⟨r', hr', rfl⟩ := List.mem_map.mp hkey
      exact ⟨r', hr', rfl⟩
    rw [hnew] at hmem
    refine ⟨fun r hr => ?_, fun _ => hmem (name, n, imodeToFt mode) (by simp)⟩
    have hkey : r.key ∈ (v.entries ino).map Rec.key := List.mem_map_of_mem hr
    rw [hold, List.mem_append] at hkey
    exact hmem r.key (by rw [List.mem_append, List.mem_cons]; tauto)
  · rw [hsame]
    exact ⟨fun r hr => ⟨r, hr, rfl⟩, fun hroom => absurd hroom hfull⟩

/-- The one block of a new directory. -/
theorem Populated.refs (hp : Populated v v' ino n) :
    ∃ b, v'.refs n = [b] ∧ (∀ c, v'.blockUsed c = true ↔ v.blockUsed c = true ∨ c = b) ∧
      v'.inodeUsed = v.inodeUsed := by
  obtain ⟨b, hb, inode, buf, hv', -, hblocks, hslot, -, -⟩ := hp
  have hself : v'.inode n = inode := by
    rw [hv']
    exact Function.update_self _ _ _
  refine ⟨b, ?_, fun c => ?_, by rw [hv']⟩
  · rw [refs_of_le (by rw [hself, hblocks]; decide), hself, hblocks]
    simp [hslot]
  · rw [hv']
    by_cases hc : c = b
    · simp [hc]
    · simp [hc]

/-- The blocks of a file after a write that does not take blocks away. -/
theorem Rewrite.mem_refs {fsize : Nat} {bs : List Nat} (hw : Rewrite v v' ino fsize bs)
    (hmeta : MetaUsed g v) (hown : Owns g v ino) (hsize : fsize ≤ 12 * blocksize)
    (hgrow : iBlocks (v.inode ino) ≤ blocksFor fsize) (b : Nat) :
    b ∈ v'.refs ino ↔ b ∈ v.refs ino ∨ b ∈ bs := by
  have hle := blocksFor_le hsize
  have hblocks := (hw.fields hsize).2.1
  obtain ⟨-, -, -, hslot, -⟩ := fields_resize (v.inode ino) hw.fresh hsize hw.length
  rw [← hw.inode_self] at hslot
  have hlen := hw.length
  rw [refs_of_le (by omega), refs_of_le (by omega), hblocks]
  constructor
  · intro hb
    obtain ⟨k, hk, rfl⟩ := List.mem_map.mp hb
    rcases hw.slot_cases hmeta hown hsize (List.mem_range.mp hk) with ⟨hlt, heq⟩ | hmem
    · rw [heq]
      refine Or.inl (List.mem_map_of_mem (List.mem_range.mpr ?_))
      unfold directCount at hlt
      omega
    · exact Or.inr hmem
  · rintro (hb | hb)
    · obtain ⟨k, hk, rfl⟩ := List.mem_map.mp hb
      have hlt := List.mem_range.mp hk
      refine List.mem_map.mpr ⟨k, List.mem_range.mpr (by omega), ?_⟩
      rw [hslot, dif_neg (by omega)]
    · obtain ⟨j, hj, rfl⟩ := List.mem_iff_getElem.mp hb
      refine List.mem_map.mpr ⟨iBlocks (v.inode ino) + j, List.mem_range.mpr (by omega), ?_⟩
      rw [hslot, dif_pos (by omega)]
      simp only [Nat.add_sub_cancel_left]

end Balance

/-! ## Runs that lose nothing -/

/-- Operations on live inodes that return successfully, without those that lose numbers:
entries are created where there is room, and no file gets fewer blocks.  A removal is
refused. -/
inductive SpaceStep (g : Geometry) (d : Disk) : Disk → Prop
  | create {ino mode : Nat} {stk : Stack} {dentry dentry' : Dentry} {ret : Int} {d' : Disk}
      (hino : Live (view g d) ino) (hdir : (view g d).IsDir ino) (hname : NewName dentry.filename)
      (hnew : ∀ r ∈ (view g d).entries ino, r.name ≠ dentry.filename)
      (hmode : mode < 2 ^ 16) (hft : imodeToFt mode ≠ 0) (hfile : mode &&& ext2SIfdir = 0)
      (hroom : HasRoom (view g d) ino (padded dentry.filename.length))
      (hrun : icreate g.sb d stk ino dentry mode = some (ret, dentry', d')) : SpaceStep g d d'
  | mkdir {ino : Nat} {stk : Stack} {dirname : List UInt8} {ret : Int} {d' : Disk}
      (hino : Live (view g d) ino) (hdir : (view g d).IsDir ino) (hname : NewName dirname)
      (hnew : ∀ r ∈ (view g d).entries ino, r.name ≠ dirname) (hzero : UnusedRest stk)
      (hroom : HasRoom (view g d) ino (padded dirname.length))
      (hrun : imkdir g.sb d stk ino dirname = some (ret, d')) : SpaceStep g d d'
  | write {self self' : File} {stack buf : Buf} {nbytes : Nat} {d' : Disk}
      (hino : Live (view g d) self.iIno) (hfile : ¬ (view g d).IsDir self.iIno)
      (hsize : self.fPos + nbytes ≤ 12 * blocksize)
      (hgrow : iBlocks ((view g d).inode self.iIno) ≤ blocksFor (self.fPos + nbytes))
      (hrun : fileFwrite g.sb d self stack buf nbytes = some (d', self')) : SpaceStep g d d'
  | refuse {ino fuel : Nat} {stk : Stack} {fname : List UInt8} {d' : Disk}
      (hino : Live (view g d) ino) (hdir : (view g d).IsDir ino) (hname : 0 ∉ fname)
      (hrun : iremove g.sb d stk fuel ino fname = some (-1, d')) : SpaceStep g d d'

/-- The runs of these operations from a balanced well-formed image. -/
def spaceSystem (g : Geometry) (R : Reserved) : TransitionSystem Disk where
  init d := WellFormed g d ∧ Balanced g R (view g d)
  step d d' := SpaceStep g d d'

/-- The live inodes are sound, apart and closed under entries, and the image is
balanced. -/
structure SpaceInv (g : Geometry) (R : Reserved) (d : Disk) : Prop where
  inv : Inv g ⟨d, {n | Live (view g d) n}⟩
  balanced : Balanced g R (view g d)

section Runs

variable {g : Geometry} {R : Reserved} {d d' : Disk}

/-- The invariant of the live inodes holds when a set that holds together is the set of
live inodes. -/
theorem inv_of_live {T : Set Nat} (hd' : OnDisk g d') (hholds : Holds g (view g d') T)
    (hclosed : Closed (view g d') T T) (hT : ∀ n, Live (view g d') n ↔ n ∈ T) :
    Inv g ⟨d', {n | Live (view g d') n}⟩ := by
  have hset : {n | Live (view g d') n} = T := Set.ext hT
  rw [hset]
  exact ⟨hd', (hT _).mp (Reach.root rfl), hholds, hclosed⟩

/-- A creation with room makes the new inode live, and keeps what is live. -/
theorem SpaceInv.created (hs : SpaceInv g R d) {v' : View} {ino n mode : Nat}
    {name : List UInt8} (hino : Live (view g d) ino) (hdir : (view g d).IsDir ino)
    (hroom : HasRoom (view g d) ino (padded name.length))
    (hc : Created g (view g d) v' ino n mode name) :
    (∀ dir, Live (view g d) dir → (view g d).IsDir dir →
        v'.IsDir dir ∧ ∀ r ∈ (view g d).entries dir, ∃ r' ∈ v'.entries dir, r'.ino = r.ino) ∧
      (∃ r' ∈ v'.entries ino, r'.ino = n) ∧ v'.blockUsed = (view g d).blockUsed ∧
      ∀ m, v'.inodeUsed m = true ↔ (view g d).inodeUsed m = true ∨ m = n := by
  have h := ((hs.inv.holds.sound ino hino).dir hdir).1
  have htouch := hc.touches h
  obtain ⟨hkeep, hadd⟩ := hc.entries_keep h
  refine ⟨fun dir hlive hdir' => ?_, hadd hroom, ?_, fun m => ?_⟩
  · have hsound := hs.inv.holds.sound dir hlive
    refine ⟨(htouch.isDir_iff hsound.used).mpr hdir', ?_⟩
    by_cases hne : dir = ino
    · rw [hne]
      exact hkeep
    · rw [(htouch.entries hsound hne (hs.inv.sep hino dir hlive hne) hdir').2]
      exact fun r hr => ⟨r, hr, rfl⟩
  · rcases hc.entry with ⟨-, hblocks, -⟩ | ⟨hfull, -⟩
    · exact hblocks
    · exact absurd hroom hfull
  · rw [hc.inodeUsed]
    by_cases hm : m = n
    · simp [hm]
    · simp [hm]

/-- The balance is kept when a new inode becomes live together with its blocks. -/
theorem SpaceInv.add (hs : SpaceInv g R d) {ino n : Nat} {B : Set Nat} (hd' : OnDisk g d')
    (hino : Live (view g d) ino) (hdir : (view g d).IsDir ino)
    (hholds : Holds g (view g d') (insert n {n | Live (view g d) n}))
    (hclosed : Closed (view g d') (insert n {n | Live (view g d) n})
      (insert n {n | Live (view g d) n}))
    (hkeep : ∀ dir, Live (view g d) dir → (view g d).IsDir dir → (view g d').IsDir dir ∧
      ∀ r ∈ (view g d).entries dir, ∃ r' ∈ (view g d').entries dir, r'.ino = r.ino)
    (hentry : ∃ r' ∈ (view g d').entries ino, r'.ino = n)
    (hinodes : ∀ m, (view g d').inodeUsed m = true ↔ (view g d).inodeUsed m = true ∨ m = n)
    (hblocks : ∀ b, (view g d').blockUsed b = true ↔ (view g d).blockUsed b = true ∨ b ∈ B)
    (hsame : ∀ m, Live (view g d) m → (view g d').refs m = (view g d).refs m)
    (hnew : ∀ b, b ∈ (view g d').refs n ↔ b ∈ B) : SpaceInv g R d' := by
  have hmono : ∀ m, Live (view g d) m → Live (view g d') m := fun m => Live.mono hkeep
  have hlive : ∀ m, Live (view g d') m ↔ m ∈ insert n {n | Live (view g d) n} := by
    intro m
    refine ⟨fun hm => Reach.mem hm ?_ hclosed, fun hm => ?_⟩
    · exact Set.singleton_subset_iff.mpr (Set.mem_insert_of_mem n (Reach.root rfl))
    · rcases hm with rfl | hm
      · obtain ⟨r, hr, hrino⟩ := hentry
        rw [← hrino]
        exact Reach.entry (hmono ino hino) (hkeep ino hino hdir).1 hr
      · exact hmono m hm
  refine ⟨inv_of_live hd' hholds hclosed hlive,
    @Balanced.extend g R _ _ hs.balanced {n} B (fun m => ?_) hinodes (fun b => ?_) hblocks⟩
  · rw [hlive m]
    exact or_comm
  · constructor
    · rintro ⟨m, hm, hb⟩
      rcases (hlive m).mp hm with rfl | hm
      · exact Or.inr ((hnew b).mp hb)
      · exact Or.inl ⟨m, hm, hsame m hm ▸ hb⟩
    · rintro (⟨m, hm, hb⟩ | hb)
      · exact ⟨m, hmono m hm, (hsame m hm).symm ▸ hb⟩
      · exact ⟨n, (hlive n).mpr (Set.mem_insert n _), (hnew b).mpr hb⟩

/-- The creation of a file keeps the balance. -/
theorem SpaceInv.create (hs : SpaceInv g R d) {ino n mode : Nat} {name : List UInt8}
    (hino : Live (view g d) ino) (hdir : (view g d).IsDir ino) (hfile : mode &&& ext2SIfdir = 0)
    (hroom : HasRoom (view g d) ino (padded name.length)) (hd' : OnDisk g d')
    (hc : Created g (view g d) (view g d') ino n mode name) : SpaceInv g R d' := by
  obtain ⟨hholds, hclosed⟩ := hs.inv.create hino hdir hfile hc
  obtain ⟨-, -, hnone, hsame⟩ := hs.inv.created hino hdir hc
  obtain ⟨hkeep, hentry, hblocks, hinodes⟩ := hs.created hino hdir hroom hc
  exact @SpaceInv.add g R d d' hs ino n ∅ hd' hino hdir hholds hclosed hkeep hentry hinodes
    (fun b => by rw [hblocks]; simp) hsame (fun b => by rw [hnone]; simp)

/-- The creation of a directory keeps the balance. -/
theorem SpaceInv.mkdir (hs : SpaceInv g R d) {ino n : Nat} {v₁ : View} {name : List UInt8}
    (hino : Live (view g d) ino) (hdir : (view g d).IsDir ino)
    (hroom : HasRoom (view g d) ino (padded name.length)) (hd' : OnDisk g d')
    (hc : Created g (view g d) v₁ ino n 0x41FF name) (hp : Populated v₁ (view g d') ino n) :
    SpaceInv g R d' := by
  obtain ⟨hholds, hclosed⟩ := hs.inv.mkdir hino hdir hc hp
  obtain ⟨hholds₁, -, hnone, hsame⟩ := hs.inv.created hino hdir hc
  obtain ⟨hkeep, ⟨r, hr, hrino⟩, hblocks, hinodes⟩ := hs.created hino hdir hroom hc
  obtain ⟨hown, hmode, -⟩ := hc.newOwns
  obtain ⟨b, hrefs, hused, hinodeUsed⟩ := hp.refs
  have htouch := hp.touches hmode
  -- the second half works on the new inode, which is none of the live ones
  have hapart : ∀ m, Live (view g d) m → m ≠ n ∧ (v₁.refs m).Disjoint (v₁.refs n) := fun m hm =>
    ⟨hc.ne (hs.inv.used m hm), by rw [hnone]; exact List.disjoint_nil_right _⟩
  have hentries : ∀ dir, Live (view g d) dir → v₁.IsDir dir →
      (view g d').IsDir dir ∧ (view g d').entries dir = v₁.entries dir := by
    intro dir hlive hdir'
    have hsound := hholds₁.sound dir hlive
    obtain ⟨hne, hsep⟩ := hapart dir hlive
    exact ⟨(htouch.isDir_iff hsound.used).mpr hdir', (htouch.entries hsound hne hsep hdir').2⟩
  refine @SpaceInv.add g R d d' hs ino n {b} hd' hino hdir hholds hclosed
    (fun dir hlive hdir' => ?_) ?_ (fun m => ?_) (fun c => ?_) (fun m hm => ?_) fun c => ?_
  · obtain ⟨hdir₁, hkeep₁⟩ := hkeep dir hlive hdir'
    obtain ⟨hdir₂, hsame₂⟩ := hentries dir hlive hdir₁
    exact ⟨hdir₂, by rw [hsame₂]; exact hkeep₁⟩
  · rw [(hentries ino hino (hkeep ino hino hdir).1).2]
    exact ⟨r, hr, hrino⟩
  · rw [hinodeUsed]
    exact hinodes m
  · rw [hused, hblocks]
    rfl
  · obtain ⟨hne, hsep⟩ := hapart m hm
    rw [htouch.refs (hholds₁.sound m hm) hne hsep, hsame m hm]
  · rw [hrefs, List.mem_singleton]
    rfl

/-- A write that takes no blocks away keeps the balance. -/
theorem SpaceInv.write (hs : SpaceInv g R d) {ino fsize : Nat} {bs : List Nat}
    (hino : Live (view g d) ino) (hfile : ¬ (view g d).IsDir ino) (hsize : fsize ≤ 12 * blocksize)
    (hgrow : iBlocks ((view g d).inode ino) ≤ blocksFor fsize) (hd' : OnDisk g d')
    (hw : Rewrite (view g d) (view g d') ino fsize bs) : SpaceInv g R d' := by
  have hmeta := hs.inv.holds.metaUsed
  have hown := (hs.inv.holds.sound ino hino).owns
  have htouch := hw.touches hmeta hown hsize
  have hfile' := mt (htouch.isDir_iff hown.used).mp hfile
  obtain ⟨hle, hrefs⟩ := hw.refs hmeta hown hsize
  have hmem := hw.mem_refs hmeta hown hsize hgrow
  have hsep := hs.inv.sep hino
  have hkeep : ∀ dir, Live (view g d) dir → (view g d).IsDir dir → (view g d').IsDir dir ∧
      ∀ r ∈ (view g d).entries dir, ∃ r' ∈ (view g d').entries dir, r'.ino = r.ino := by
    intro dir hlive hdir
    have hsound := hs.inv.holds.sound dir hlive
    have hne : dir ≠ ino := by
      rintro rfl
      exact hfile hdir
    refine ⟨(htouch.isDir_iff hsound.used).mpr hdir, ?_⟩
    rw [(htouch.entries hsound hne (hsep dir hlive hne) hdir).2]
    exact fun r hr => ⟨r, hr, rfl⟩
  have hsound : Sound g (view g d') ino :=
    (hw.owns hmeta hown hsize).sound hle fun hdir => absurd hdir hfile'
  have hholds := hs.inv.holds.touch htouch hsep hsound hrefs
  have hclosed := hs.inv.closed.touch hs.inv.holds htouch hsep hs.inv.used subset_rfl
    fun hdir => absurd hdir hfile'
  have hset : insert ino {n | Live (view g d) n} = {n | Live (view g d) n} :=
    Set.insert_eq_of_mem hino
  dsimp only at hholds hclosed
  rw [hset] at hholds hclosed
  have hlive : ∀ m, Live (view g d') m ↔ Live (view g d) m := fun m =>
    ⟨fun hm => Reach.mem hm (Set.singleton_subset_iff.mpr hs.inv.root) hclosed, Live.mono hkeep⟩
  refine ⟨inv_of_live hd' hholds hclosed hlive,
    @Balanced.extend g R _ _ hs.balanced ∅ {b | b ∈ bs} (fun m => ?_) (fun m => ?_) (fun b => ?_)
      fun b => ?_⟩
  · rw [hlive m]
    simp
  · rw [hw.inodeUsed]
    simp
  · constructor
    · rintro ⟨m, hm, hb⟩
      have hm' := (hlive m).mp hm
      by_cases hne : m = ino
      · subst hne
        rcases (hmem b).mp hb with hold | hnew
        · exact Or.inl ⟨m, hm', hold⟩
        · exact Or.inr hnew
      · rw [htouch.refs (hs.inv.holds.sound m hm') hne (hsep m hm' hne)] at hb
        exact Or.inl ⟨m, hm', hb⟩
    · rintro (⟨m, hm, hb⟩ | hb)
      · refine ⟨m, (hlive m).mpr hm, ?_⟩
        by_cases hne : m = ino
        · subst hne
          exact (hmem b).mpr (Or.inl hb)
        · rw [htouch.refs (hs.inv.holds.sound m hm) hne (hsep m hm hne)]
          exact hb
      · exact ⟨ino, (hlive ino).mpr hino, (hmem b).mpr (Or.inr hb)⟩
  · rw [hw.blockUsed]
    simp

/-- Every operation that loses nothing keeps the balance. -/
theorem SpaceInv.step (hs : SpaceInv g R d) (hstep : SpaceStep g d d') : SpaceInv g R d' := by
  have hi := hs.inv
  have hmeta := hi.holds.metaUsed
  have hpad := hi.holds.padUsed
  cases hstep with
  | create hino hdir hname hnew hmode hft hfile hroom hrun =>
      obtain ⟨h, hle⟩ := (hi.holds.sound _ hino).dir hdir
      obtain ⟨-, hd', -, hc⟩ :=
        icreate_spec hi.onDisk hmeta hpad h (fun _ => hle) hname hmode hft hnew hrun
      exact hs.create hino hdir hfile hroom hd' hc
  | mkdir hino hdir hname hnew hzero hroom hrun =>
      obtain ⟨h, hle⟩ := (hi.holds.sound _ hino).dir hdir
      obtain ⟨-, hd', n, v₁, hc, hp⟩ :=
        imkdir_spec hi.onDisk hmeta hpad h (fun _ => hle) hname hnew hzero hrun
      exact hs.mkdir hino hdir hroom hd' hc hp
  | write hino hfile hsize hgrow hrun =>
      have hown := (hi.holds.sound _ hino).owns
      obtain ⟨hd', -, ⟨bs, hw⟩, -⟩ := fileFwrite_spec hi.onDisk hmeta hown hsize hrun
      exact hs.write hino hfile hsize hgrow hd' hw
  | @refuse ino fuel stk fname d' hino hdir hname hrun =>
      obtain ⟨h, hle⟩ := (hi.holds.sound _ hino).dir hdir
      have hfile : ∀ r ∈ (view g d).entries ino, r.name = fname → Owns g (view g d) r.ino ∧
          (r.ft = ext2FtDir → 1 ≤ iBlocks ((view g d).inode r.ino)) := by
        intro r hr _
        obtain ⟨hmem, htype⟩ := hi.closed ino hino hdir r hr
        have hsound := hi.holds.sound r.ino hmem
        exact ⟨hsound.owns, fun hft => (hsound.dir (htype hft)).1.pos⟩
      rcases iremove_cases hi.onDisk h hname hfile hrun with ⟨-, rfl⟩ | ⟨hret, -⟩
      · exact hs
      · exact absurd hret (by decide)

end Runs

/-- In every run without lost numbers the image stays balanced. -/
theorem space_conserved {g : Geometry} {R : Reserved} {d : Disk}
    (hd : (spaceSystem g R).Reachable d) : Balanced g R (view g d) := by
  have hinv : (spaceSystem g R).IsInvariant (SpaceInv g R) :=
    ⟨fun _ hinit => ⟨hinit.1.inv, hinit.2⟩, fun _ _ hs hstep => hs.step hstep⟩
  exact (hinv.of_reachable hd).balanced

/-! ## A removal -/

/-- The records of the root: the two dots, and a link to inode 12. -/
def fileRecords : List Rec := [⟨2, 12, 2, dot⟩, ⟨2, 12, 2, dotDot⟩, ⟨12, 1000, 1, [102]⟩]

/-- An image whose root directory is the block 7, with an empty file. -/
def fileRoot : View where
  blockUsed b := decide (b ≤ 7)
  inodeUsed ino := decide (ino ≤ 12 ∨ 16 < ino)
  inode ino := if ino = 2 then newInode 0x41FF blocksize [7] else newInode 0x81FF 0 []
  data _ := layOut 0 fileRecords fun _ => 0

/-- The image on a device. -/
def fileRootDisk : Disk := format smallGroup fileRoot

theorem view_fileRoot : view smallGroup fileRootDisk = fileRoot.trim smallGroup := view_format _ _

/-- The inode numbers below 12 and behind the table are reserved. -/
def smallReserved : Reserved := ⟨∅, {n | n ≤ 11 ∨ 16 < n}⟩

theorem tiles_fileRecords : Tiles (layOut 0 fileRecords fun _ => 0) 0 fileRecords 1024 := by
  have hsum : 0 + (fileRecords.map Rec.recLen).sum = 1024 := by decide
  rw [← hsum]
  apply tiles_layOut
  intro r hr
  simp only [fileRecords, List.mem_cons, List.not_mem_nil, or_false] at hr
  rcases hr with rfl | rfl | rfl
  · exact ⟨⟨by decide, by decide, by decide, by decide⟩, by decide⟩
  · exact ⟨⟨by decide, by decide, by decide, by decide⟩, by decide⟩
  · exact ⟨⟨by decide, by decide, by decide, by decide⟩, by decide⟩

theorem directory_fileRoot : Directory smallGroup (view smallGroup fileRootDisk) 2 ∧
    (view smallGroup fileRootDisk).entries 2 = fileRecords ∧
    (view smallGroup fileRootDisk).refs 2 = [7] ∧
    iBlocks ((view smallGroup fileRootDisk).inode 2) = 1 := by
  rw [view_fileRoot]
  obtain ⟨hdir, hentries, hblocks, -⟩ := @directory_of_format smallGroup fileRoot 2 0x41FF 7
    fileRecords (by decide) rfl rfl (by decide) (by decide) (smallGroup_isData le_rfl (by decide))
    rfl tiles_fileRecords
  obtain ⟨-, -, -, hslot⟩ := @View.fields_trim smallGroup fileRoot 2 0x41FF blocksize
    [7] (by decide) rfl (by decide) (by decide) (by decide) (by simp)
  refine ⟨hdir, hentries, ?_, hblocks⟩
  rw [refs_of_le hdir.le, hblocks]
  simp [hslot]

/-- The empty file. -/
theorem inode_fileRoot : iMode ((view smallGroup fileRootDisk).inode 12) = 0x81FF ∧
    iBlocks ((view smallGroup fileRootDisk).inode 12) = 0 := by
  rw [view_fileRoot]
  obtain ⟨hmode, -, hblocks, -⟩ := @View.fields_trim smallGroup fileRoot 12 0x81FF 0
    [] (by decide) rfl (by decide) (by decide) (by decide) (by simp)
  exact ⟨hmode, hblocks⟩

theorem rootWithFile_fileRoot : RootWithFile smallGroup fileRootDisk := by
  obtain ⟨hdir, hentries, -, hblocks⟩ := directory_fileRoot
  have hinos : ∀ r ∈ fileRecords, r.ino = ext2RootIno ∨ (r.ino = 12 ∧ r.ft ≠ ext2FtDir) := by decide
  refine ⟨onDisk_format _ _, ?_, ?_, hdir, ?_, ?_, ?_, inode_fileRoot.1, inode_fileRoot.2⟩
  · rw [view_fileRoot]
    apply metaUsed_smallGroup
    intro b hb
    exact decide_eq_true (show b ≤ 7 by omega)
  · rw [view_fileRoot]
    apply padUsed_smallGroup
    intro n hn
    exact decide_eq_true (Or.inr hn)
  · rw [ext2RootIno, hblocks]
    decide
  · rw [ext2RootIno, hentries]
    exact hinos
  · exact owns_of_empty (by decide) (by rw [view_fileRoot]; decide) inode_fileRoot.2

/-- The file is live. -/
theorem live_fileRoot : Live (view smallGroup fileRootDisk) 12 := by
  obtain ⟨hdir, hentries, -⟩ := directory_fileRoot
  have hmem : ⟨12, 1000, 1, [102]⟩ ∈ (view smallGroup fileRootDisk).entries 2 := by
    rw [hentries]
    decide
  exact @Reach.entry _ _ 2 ⟨12, 1000, 1, [102]⟩ (Reach.root rfl) hdir.isDir hmem

theorem balanced_fileRoot : Balanced smallGroup smallReserved (view smallGroup fileRootDisk) := by
  have hroot := rootWithFile_fileRoot
  constructor
  · intro b hlo hhi
    have hused : (view smallGroup fileRootDisk).blockUsed b = true ↔ b ≤ 7 := by
      rw [view_fileRoot]
      simp [View.trim, fileRoot, hlo, hhi]
    rw [hused]
    constructor
    · intro hb
      by_cases hseven : b = 7
      · refine Or.inr (Or.inr ⟨2, Reach.root rfl, ?_⟩)
        rw [directory_fileRoot.2.2.1, hseven]
        exact List.mem_singleton_self 7
      · refine Or.inl ?_
        have htable : (smallGroup.sb.sInodesPerGroup + 7) / 8 = 2 := rfl
        unfold Geometry.Meta
        rw [htable]
        simp only [smallGroup]
        omega
    · rintro (hm | hr | ⟨n, hn, hb⟩)
      · have hle := smallGroup_meta hm
        omega
      · exact absurd hr (Set.notMem_empty b)
      · rcases hroot.live hn with rfl | rfl
        · rw [ext2RootIno, directory_fileRoot.2.2.1, List.mem_singleton] at hb
          omega
        · rw [hroot.file.2] at hb
          exact absurd hb List.not_mem_nil
  · intro n hlo hhi
    have hused : (view smallGroup fileRootDisk).inodeUsed n = true ↔ n ≤ 12 ∨ 16 < n := by
      rw [view_fileRoot]
      simp [View.trim, fileRoot, hlo, hhi]
    rw [hused]
    constructor
    · intro hn
      by_cases hfile : n = 12
      · rw [hfile]
        exact Or.inr live_fileRoot
      · exact Or.inl (show n ≤ 11 ∨ 16 < n by omega)
    · rintro (hn | hn)
      · have hn' : n ≤ 11 ∨ 16 < n := hn
        omega
      · rcases hroot.live hn with rfl | rfl
        · decide
        · decide

/-- Removing the file reports success, and its inode number stays marked as used. -/
theorem iremove_unbalanced :
    WellFormed smallGroup fileRootDisk ∧
      Balanced smallGroup smallReserved (view smallGroup fileRootDisk) ∧
      ∃ d', iremove smallGroup.sb fileRootDisk default 0 2 [102] = some (0, d') ∧
        ¬ Balanced smallGroup smallReserved (view smallGroup d') := by
  have hroot := rootWithFile_fileRoot
  obtain ⟨hdir, hentries, -⟩ := directory_fileRoot
  have hname : ∀ r ∈ fileRecords, r.name = [102] → r = ⟨12, 1000, 1, [102]⟩ := by decide
  refine ⟨hroot.wellFormed, balanced_fileRoot, ?_⟩
  obtain ⟨d', hrun, hd', r, hr, hrname, hremoved⟩ := @iremove_file smallGroup fileRootDisk 2
    [102] default 0 hroot.onDisk hdir (by decide)
    ⟨⟨12, 1000, 1, [102]⟩, by rw [hentries]; decide, rfl⟩ fun r hr hrname => by
      rw [hentries] at hr
      rw [hname r hr hrname]
      exact ⟨by decide, hroot.owns⟩
  rw [hentries] at hr
  obtain rfl := hname r hr hrname
  refine ⟨d', hrun, fun hbal => ?_⟩
  obtain ⟨htouch, hinode⟩ := hremoved.touches hdir
  obtain ⟨hdir', ⟨hlen, -⟩ | ⟨-, as, cs, hold, hnew⟩⟩ := hremoved.directory hdir
  · exact absurd hlen (by decide)
  · -- what is left in the root leads back to it
    have hleft : ∀ r ∈ (view smallGroup d').entries 2, r.ino = 2 := by
      intro r hr
      have hkeys : ∀ key ∈ fileRecords.map Rec.key, key ≠ ([102], 12, 1) → key.2.1 = 2 := by decide
      have hnodup : (fileRecords.map Rec.key).Nodup := by decide
      have hkey : r.key ∈ as ++ cs := by
        rw [← hnew]
        exact List.mem_map_of_mem hr
      rw [hentries] at hold
      refine hkeys r.key ?_ ?_
      · rw [hold, List.mem_append, List.mem_cons]
        rw [List.mem_append] at hkey
        tauto
      · intro heq
        rw [hold, List.nodup_middle, List.nodup_cons] at hnodup
        rw [heq] at hkey
        exact hnodup.1 hkey
    have hlive : ∀ n, Live (view smallGroup d') n → n = 2 := by
      intro n hn
      induction hn with
      | root hn => exact hn
      | entry _ _ hr ih =>
          rw [ih] at hr
          exact hleft _ hr
    have hused : (view smallGroup d').inodeUsed 12 = true :=
      htouch.inodes 12 (by rw [view_fileRoot]; decide)
    rcases (hbal.inodes 12 (by decide) (by decide)).mp hused with hres | hres
    · exact absurd hres (by simp [smallReserved])
    · exact absurd (hlive 12 hres) (by decide)

/-- `space_conserved` after a creation. -/
theorem space_conserved_fileRoot :
    ∃ dentry' d', icreate smallGroup.sb fileRootDisk default 2 ⟨[103], 0, 0, 0, 0⟩ 0x81FF =
        some (0, dentry', d') ∧ Balanced smallGroup smallReserved (view smallGroup d') := by
  have hroot := rootWithFile_fileRoot
  obtain ⟨hdir, hentries, -, hblocks⟩ := directory_fileRoot
  have hname : NewName [103] := ⟨by decide, by decide, by decide⟩
  have hnew : ∀ r ∈ (view smallGroup fileRootDisk).entries 2, r.name ≠ [103] := by
    rw [hentries]
    decide
  have hroom : HasRoom (view smallGroup fileRootDisk) 2 (padded [(103 : UInt8)].length) := by
    refine Or.inl ⟨⟨12, 1000, 1, [102]⟩, ?_, ?_⟩
    · rw [hentries]
      decide
    · unfold Slack
      decide
  have hsome : (icreate smallGroup.sb fileRootDisk default 2 ⟨[103], 0, 0, 0, 0⟩
      0x81FF).isSome := by
    apply icreate_isSome hroot.onDisk hdir (by omega) hname 0x81FF hnew
    · exact ⟨13, by decide, by decide, by rw [view_fileRoot]; decide⟩
    · exact ⟨8, mem_freeBlocks.mpr ⟨by decide, by rw [view_fileRoot]; decide⟩⟩
  obtain ⟨⟨ret, dentry', d'⟩, hrun⟩ := Option.isSome_iff_exists.mp hsome
  obtain ⟨rfl, -⟩ := icreate_spec hroot.onDisk hroot.metaUsed hroot.padUsed hdir
    (fun _ => by omega) hname (by decide) (by decide) hnew hrun
  have hstart : (spaceSystem smallGroup smallReserved).Reachable fileRootDisk :=
    TransitionSystem.Reachable.init ⟨hroot.wellFormed, balanced_fileRoot⟩
  have hreach := hstart.step (@SpaceStep.create smallGroup fileRootDisk 2 0x81FF default
    ⟨[103], 0, 0, 0, 0⟩ dentry' 0 d' (Reach.root rfl) hdir.isDir hname hnew (by decide) (by decide)
    (by decide) hroom hrun)
  exact ⟨dentry', d', hrun, space_conserved hreach⟩

end Ext2
end NochOS
