import NochOS.Ext2.FailingDevice

/-!
# ext2 - transfers that fail

What a file operation reports of the failures of its transfers.  The transfers are those that
the operation makes on a device without failures, up to the first one that fails, and their
number is computed from the blocks, the inode and the arguments.

Main results:

- Definition `Counts`: a program over the failing device and the number of its transfers.
- Theorems `counts_fileFread`, `counts_fileFwrite`: the numbers of the file operations.
- Theorem `device_errors_iff`: failures are reported exactly when there are none.
-/

namespace NochOS
namespace Ext2
namespace Failing

open Library Bitmap

section Data

variable (fails : Failures) (sb : Super)

/-! ## The number of transfers -/

/-- The pattern has no failure among the next `n` transfers. -/
def NoneFails (fails : Failures) (s : Dev) (n : Nat) : Prop :=
  ∀ i, s.log.length ≤ i → i < s.log.length + n → fails i = none

/-- A run makes as many transfers as the function of the blocks says when none of them fails,
and one of its transfers fails otherwise. -/
def Counts (fails : Failures) {α : Type} (m : DevM α) (n : Disk → Nat) : Prop :=
  ∀ s, (NoneFails fails s (n s.disk) →
      After (fun _ s' => s'.log.length = s.log.length + n s.disk) (fun _ => True) (m s)) ∧
    (¬ NoneFails fails s (n s.disk) → After (fun _ s' => FailedIn s s') (fun _ => True) (m s))

section Counting

variable {fails : Failures} {α β : Type} {m m' : DevM α} {f f' : Disk → Option (α × Disk)}
  {n n' : Disk → Nat} {s s₁ s' : Dev}

theorem NoneFails.zero (s : Dev) : NoneFails fails s 0 := by
  intro i hle hlt
  omega

theorem NoneFails.take {a b : Nat} (h : NoneFails fails s (a + b)) : NoneFails fails s a := by
  intro i hle hlt
  exact h i hle (by omega)

theorem noneFails_one : NoneFails fails s 1 ↔ fails s.log.length = none := by
  constructor
  · intro h
    exact h _ le_rfl (Nat.lt_succ_self _)
  · intro h i hle hlt
    obtain rfl : i = s.log.length := by omega
    exact h

/-- The next transfers in two parts. -/
theorem noneFails_add {a b : Nat} (hlen : s₁.log.length = s.log.length + a) :
    NoneFails fails s (a + b) ↔ NoneFails fails s a ∧ NoneFails fails s₁ b := by
  constructor
  · intro h
    exact ⟨fun i hle hlt => h i hle (by omega), fun i hle hlt => h i (by omega) (by omega)⟩
  · rintro ⟨h, h₁⟩ i hle hlt
    by_cases hi : i < s.log.length + a
    · exact h i hle hi
    · exact h₁ i (by omega) (by omega)

/-- A run over transfers that do not fail is clean. -/
theorem NoneFails.clean {a : Nat} (h : NoneFails fails s a) (hgrew : Grew fails s s')
    (hlen : s'.log.length = s.log.length + a) : Clean s s' := by
  apply hgrew.clean
  rw [hgrew.not_failedIn_iff]
  intro i hle hlt
  exact h i hle (by omega)

theorem FailedIn.left (h : FailedIn s s₁) (hgrew : Grew fails s₁ s') : FailedIn s s' := by
  obtain ⟨new, hnew, t, ht, hfalse⟩ := h
  obtain ⟨new₁, hnew₁, -⟩ := hgrew
  exact ⟨new ++ new₁, by rw [hnew₁, hnew, List.append_assoc], t, List.mem_append_left _ ht, hfalse⟩

theorem FailedIn.right (h : FailedIn s₁ s') (hgrew : Grew fails s s₁) : FailedIn s s' := by
  obtain ⟨new, hnew, -⟩ := hgrew
  obtain ⟨new₁, hnew₁, t, ht, hfalse⟩ := h
  exact ⟨new ++ new₁, by rw [hnew₁, hnew, List.append_assoc], t, List.mem_append_right _ ht, hfalse⟩

/-- A transfer of a run that comes back failed exactly when one of those fails that the ideal
run makes. -/
theorem Counts.failedIn_iff (h : Counts fails m n) (hm : Refines fails m f) {a : α}
    (hrun : m s = .ok (a, s')) : FailedIn s s' ↔ ¬ NoneFails fails s (n s.disk) := by
  constructor
  · intro hfailed hnone
    have hgrew := ((hm s).ok hrun).1
    have hlen := ((h s).1 hnone).ok hrun
    refine hgrew.not_failedIn_iff.mpr (fun i hle hlt => hnone i hle (by omega)) hfailed
  · intro hsome
    exact ((h s).2 hsome).ok hrun

theorem counts_pure (a : α) : Counts fails (pure a) fun _ => 0 := by
  intro s
  exact ⟨fun _ => After.pure rfl, fun h => absurd (NoneFails.zero s) h⟩

/-- A run that does not come back has any number. -/
theorem counts_throw (e : Undefined) (n : Disk → Nat) :
    Counts fails (throw e : DevM α) n := by
  intro s
  exact ⟨fun _ => After.throw trivial, fun _ => After.throw trivial⟩

theorem Counts.ite {c : Prop} [Decidable c] (h : Counts fails m n) (h' : Counts fails m' n') :
    Counts fails (if c then m else m') fun d => if c then n d else n' d := by
  by_cases hc : c
  · simp only [if_pos hc]
    exact h
  · simp only [if_neg hc]
    exact h'

/-- Another form of the number, that may be larger where the ideal run does not come back. -/
theorem Counts.congr (h : Counts fails m n) (hm : Refines fails m f) (hle : ∀ d, n d ≤ n' d)
    (heq : ∀ d r, f d = some r → n' d = n d) : Counts fails m n' := by
  intro s
  have hle := hle s.disk
  constructor
  · intro hnone
    have hnone' : NoneFails fails s (n s.disk) := fun i hi hlt => hnone i hi (by omega)
    cases hrun : m s with
    | error e => trivial
    | ok r =>
        have hlen := ((h s).1 hnone').ok hrun
        obtain ⟨hgrew, hideal⟩ := (hm s).ok hrun
        have hsame := heq _ _ (hideal (hnone'.clean hgrew hlen))
        exact hlen.trans (by rw [hsame])
  · intro hsome
    by_cases hnone : NoneFails fails s (n s.disk)
    · cases hrun : m s with
      | error e => trivial
      | ok r =>
          have hlen := ((h s).1 hnone).ok hrun
          obtain ⟨hgrew, hideal⟩ := (hm s).ok hrun
          have hsame := heq _ _ (hideal (hnone.clean hgrew hlen))
          exact absurd (by rwa [hsame]) hsome
    · exact (h s).2 hnone

/-- The same number. -/
theorem Counts.of_eq (h : Counts fails m n) (heq : ∀ d, n d = n' d) : Counts fails m n' := by
  have hfun : n = n' := funext heq
  rw [← hfun]
  exact h

/-- A program with its effect and its number of transfers on the ideal device. -/
structure Metered (fails : Failures) {α : Type} (m : DevM α) (f : Disk → Option (α × Disk))
    (n : Disk → Nat) : Prop where
  refines : Refines fails m f
  counts : Counts fails m n

theorem metered_pure (a : α) : Metered fails (pure a) (fun d => some (a, d)) fun _ => 0 :=
  ⟨refines_pure a, counts_pure a⟩

theorem metered_throw (e : Undefined) (f : Disk → Option (α × Disk)) (n : Disk → Nat) :
    Metered fails (throw e : DevM α) f n :=
  ⟨refines_throw e, counts_throw e n⟩

theorem Metered.ite {c : Prop} [Decidable c] (h : Metered fails m f n)
    (h' : Metered fails m' f' n') :
    Metered fails (if c then m else m') (fun d => if c then f d else f' d)
      fun d => if c then n d else n' d :=
  ⟨h.refines.ite h'.refines, h.counts.ite h'.counts⟩

/-- One program after the other, with what is known of the value of the first one: the second
one starts where the ideal run is then. -/
theorem Metered.bind_after {P : α → Prop} {k : α → DevM β} {g : α → Disk → Option (β × Disk)}
    {l : α → Disk → Nat} (h : Metered fails m f n)
    (hpost : ∀ s, After (fun a _ => P a) (fun _ => True) (m s))
    (hk : ∀ a, P a → Metered fails (k a) (g a) (l a)) :
    Metered fails (m >>= k) (fun d => (f d).bind fun r => g r.1 r.2)
      fun d => n d + (f d).elim 0 fun r => l r.1 r.2 := by
  refine ⟨h.refines.bind_after hpost fun a hP => (hk a hP).refines, fun s => ⟨fun hnone => ?_,
    fun hsome => ?_⟩⟩
  · apply After.bind
    cases hrun : m s with
    | error e => trivial
    | ok r =>
        have hP := (hpost s).ok hrun
        have hfirst : NoneFails fails s (n s.disk) := hnone.take
        have hlen := ((h.counts s).1 hfirst).ok hrun
        obtain ⟨hgrew, hideal⟩ := (h.refines s).ok hrun
        have hf := hideal (hfirst.clean hgrew hlen)
        simp only [hf, Option.elim_some] at hnone ⊢
        have hrest := ((noneFails_add hlen).mp hnone).2
        refine (((hk r.1 hP).counts r.2).1 hrest).mono (fun _ s' hs' => ?_) fun _ _ => trivial
        rw [hs', hlen, Nat.add_assoc]
  · apply After.bind
    cases hrun : m s with
    | error e => trivial
    | ok r =>
        have hP := (hpost s).ok hrun
        obtain ⟨hgrew, hideal⟩ := (h.refines s).ok hrun
        by_cases hfirst : NoneFails fails s (n s.disk)
        · have hlen := ((h.counts s).1 hfirst).ok hrun
          have hf := hideal (hfirst.clean hgrew hlen)
          simp only [hf, Option.elim_some] at hsome
          have hrest : ¬ NoneFails fails r.2 (l r.1 r.2.disk) :=
            fun hrest => hsome ((noneFails_add hlen).mpr ⟨hfirst, hrest⟩)
          exact (((hk r.1 hP).counts r.2).2 hrest).mono (fun _ s' hs' => hs'.right hgrew)
            fun _ _ => trivial
        · have hfailed := ((h.counts s).2 hfirst).ok hrun
          exact ((hk r.1 hP).refines r.2).mono (fun _ s' hs' => hfailed.left hs'.1)
            fun _ _ => trivial

/-- One program after the other. -/
theorem Metered.bind {k : α → DevM β} {g : α → Disk → Option (β × Disk)} {l : α → Disk → Nat}
    (h : Metered fails m f n) (hk : ∀ a, Metered fails (k a) (g a) (l a)) :
    Metered fails (m >>= k) (fun d => (f d).bind fun r => g r.1 r.2)
      fun d => n d + (f d).elim 0 fun r => l r.1 r.2 := by
  apply h.bind_after (P := fun _ => True) (fun s => ?_) fun a _ => hk a
  exact (h.refines s).mono (fun _ _ _ => trivial) fun _ _ => trivial

/-- A pass for each element of a list, with the same number of transfers in each. -/
theorem Metered.foldlM {γ : Type} {step : α → γ → DevM α} {g : α → γ → Disk → α × Disk} {k : Nat}
    (hstep : ∀ a c, Metered fails (step a c) (fun d => some (g a c d)) fun _ => k) (cs : List γ)
    (a : α) :
    Metered fails (cs.foldlM step a)
      (fun d => some (cs.foldl (fun r c => g r.1 c r.2) (a, d))) fun _ => k * cs.length := by
  refine ⟨Refines.foldlM (fun a c => (hstep a c).refines) cs a, ?_⟩
  induction cs generalizing a with
  | nil => exact counts_pure a
  | cons c cs ih =>
      have hrest (a' : α) := Metered.mk (Refines.foldlM (fun a c => (hstep a c).refines) cs a')
        (ih a')
      rw [List.foldlM_cons, List.length_cons, Nat.mul_succ, Nat.add_comm]
      exact ((hstep a c).bind hrest).counts

end Counting

/-- A read adds one transfer to the log. -/
theorem devRead_log (addr : Nat) (s : Dev) :
    ∃ r s', devRead fails addr s = .ok (r, s') ∧
      s'.log = s.log ++ [⟨false, addr, (fails s.log.length).isNone⟩] := by
  cases hfails : fails s.log.length with
  | none => exact ⟨_, _, by rw [devRead, hfails], rfl⟩
  | some left => exact ⟨_, _, by rw [devRead, hfails], rfl⟩

/-- So does a write. -/
theorem devWrite_log (addr : Nat) (buf : Buf) (s : Dev) :
    ∃ r s', devWrite fails addr buf s = .ok (r, s') ∧
      s'.log = s.log ++ [⟨true, addr, (fails s.log.length).isNone⟩] := by
  cases hfails : fails s.log.length with
  | none => exact ⟨_, _, by rw [devWrite, hfails], rfl⟩
  | some left => exact ⟨_, _, by rw [devWrite, hfails], rfl⟩

/-- A read or a write is one transfer. -/
theorem counts_devRead (addr : Nat) : Counts fails (devRead fails addr) fun _ => 1 := by
  intro s
  obtain ⟨r, s', hrun, hlog⟩ := devRead_log fails addr s
  rw [noneFails_one]
  constructor
  · intro _
    exact After.of_eq hrun (by rw [hlog, List.length_append, List.length_singleton])
  · intro hsome
    refine After.of_eq hrun ⟨_, hlog, _, List.mem_singleton_self _, ?_⟩
    simpa [Option.isSome_iff_ne_none] using hsome

theorem metered_devRead (addr : Nat) :
    Metered fails (devRead fails addr) (fun d => some ((0, d addr), d)) fun _ => 1 :=
  ⟨refines_devRead fails addr, counts_devRead fails addr⟩

theorem counts_devWrite (addr : Nat) (buf : Buf) :
    Counts fails (devWrite fails addr buf) fun _ => 1 := by
  intro s
  obtain ⟨r, s', hrun, hlog⟩ := devWrite_log fails addr buf s
  rw [noneFails_one]
  constructor
  · intro _
    exact After.of_eq hrun (by rw [hlog, List.length_append, List.length_singleton])
  · intro hsome
    refine After.of_eq hrun ⟨_, hlog, _, List.mem_singleton_self _, ?_⟩
    simpa [Option.isSome_iff_ne_none] using hsome

theorem metered_devWrite (addr : Nat) (buf : Buf) :
    Metered fails (devWrite fails addr buf) (fun d => some (0, Function.update d addr buf))
      fun _ => 1 :=
  ⟨refines_devWrite fails addr buf, counts_devWrite fails addr buf⟩

/-- The transfers for a part of a block. -/
def blockTransfers (rw : Bool) : Nat := if rw then 2 else 1

theorem metered_accessBlockBytes (rw : Bool) (blkno : Nat) (buf : Buf)
    (at_ offset nbytes : Nat) :
    Metered fails (ext2AccessBlockBytes fails rw blkno buf at_ offset nbytes) (fun d =>
      some (if rw then ((0, buf), Ext2.ext2WriteBlockBytes d blkno buf at_ offset nbytes)
        else ((0, Ext2.ext2ReadBlockBytes d blkno buf at_ offset nbytes), d)))
      fun _ => blockTransfers rw := by
  refine ⟨refines_accessBlockBytes fails rw _ _ _ _ _, Counts.of_eq
    ((metered_devRead fails (lba blkno)).bind fun r =>
      ((metered_devWrite fails (lba blkno) (memcpy r.2 offset buf at_ nbytes)).bind fun retval =>
        metered_pure (retval, buf)).ite
      (metered_pure (r.1, memcpy buf at_ r.2 offset nbytes))).counts fun d => ?_⟩
  cases rw <;> rfl

/-- A bitmap is read by two transfers. -/
theorem metered_readBitmap (field : Nat) :
    Metered fails (ext2ReadBitmap fails field) (fun d =>
      some (some (u32At (Ext2.ext2ReadBlock d 2) field,
        Ext2.ext2ReadBlock d (u32At (Ext2.ext2ReadBlock d 2) field)), d)) fun _ => 2 := by
  refine ⟨refines_readBitmap fails field, Counts.of_eq
    ((metered_devRead fails (lba 2)).bind fun r => (metered_pure none).ite (c := r.1 ≠ 0)
      ((metered_devRead fails (lba (u32At r.2 field))).bind fun r' => (metered_pure none).ite
        (c := r'.1 ≠ 0) (metered_pure (some (u32At r.2 field, r'.2))))).counts fun d => ?_⟩
  simp

/-- A program that goes on with the bitmap. -/
theorem counts_withBitmap {α : Type} (field : Nat) {k : Option (Nat × Buf) → DevM α} {e : α}
    (hnone : k none = pure e) {h : Nat → Buf → Disk → Option (α × Disk)}
    {l : Nat → Buf → Disk → Nat} {n : Disk → Nat}
    (hk : ∀ blkno blkBuf, Metered fails (k (some (blkno, blkBuf))) (h blkno blkBuf)
      (l blkno blkBuf))
    (hl : ∀ d, 2 + l (u32At (Ext2.ext2ReadBlock d 2) field)
      (Ext2.ext2ReadBlock d (u32At (Ext2.ext2ReadBlock d 2) field)) d = n d) :
    Counts fails (ext2ReadBitmap fails field >>= k) n := by
  have hgoes (o : Option (Nat × Buf)) : Metered fails (k o)
      (fun d => o.elim (some (e, d)) fun p => h p.1 p.2 d)
      fun d => o.elim 0 fun p => l p.1 p.2 d := by
    cases o with
    | none =>
        rw [hnone]
        exact metered_pure e
    | some p => exact hk p.1 p.2
  exact ((metered_readBitmap fails field).bind hgoes).counts.of_eq hl

/-- `ino_exist` reads no bitmap for the number zero. -/
theorem metered_inoExist (ino : Nat) :
    Metered fails (inoExist fails ino) (fun d => some ((Ext2.inoExist d ino : Int), d))
      fun _ => if ino = 0 then 0 else 2 := by
  refine ⟨refines_inoExist fails ino, (counts_pure (0 : Int)).ite ?_⟩
  apply counts_withBitmap fails 4
  · rfl
  · intro _ blkBuf
    exact metered_pure ((bitmapQueryBit (wordsOf blkBuf) (bitOf ino) : Nat) : Int)
  · exact fun d => rfl

/-- `ino_try_set` writes the bitmap back when the number was not taken. -/
theorem metered_inoTrySet (ino : Nat) :
    Metered fails (inoTrySet fails ino) (fun d =>
      some (((Ext2.inoTrySet d ino).1 : Int), (Ext2.inoTrySet d ino).2))
      fun d => if (Ext2.inoTrySet d ino).1 = 0 then 3 else 2 := by
  refine ⟨refines_inoTrySet fails ino, ?_⟩
  apply counts_withBitmap fails 4
  · rfl
  · intro blkno blkBuf
    exact (metered_pure (1 : Int)).ite (c := bitmapQueryBit (wordsOf blkBuf) (bitOf ino) ≠ 0)
      ((metered_devWrite fails (lba blkno)
        (bytesOf (bitmapSetBit (wordsOf blkBuf) (bitOf ino)))).bind fun _ =>
          metered_pure (0 : Int))
  · intro d
    by_cases hquery : bitmapQueryBit (wordsOf (Ext2.ext2ReadBlock d (bgInodeBitmap d)))
        (bitOf ino) ≠ 0
    · rw [Ext2.inoTrySet, if_pos hquery]
      exact congrArg (2 + ·) (if_pos hquery)
    · rw [Ext2.inoTrySet, if_neg hquery]
      exact congrArg (2 + ·) (if_neg hquery)

/-- `next_free_blkno` writes the bitmap back. -/
theorem metered_nextFreeBlkno :
    Metered fails (nextFreeBlkno fails) (fun d =>
      (Ext2.nextFreeBlkno d).map fun r => ((r.1 : Int), r.2)) fun _ => 3 := by
  refine ⟨refines_nextFreeBlkno fails, ?_⟩
  apply counts_withBitmap fails 0
  · rfl
  · intro blkno blkBuf
    exact (metered_throw Undefined.outside (fun _ => none) fun _ => 1).ite
      (c := (findFreeRegion (wordsOf blkBuf) (blocksize * 4) 0).1 < 0)
      ((metered_devWrite fails (lba blkno)
        (bytesOf (bitmapSetBit (findFreeRegion (wordsOf blkBuf) (blocksize * 4) 0).2
          (findFreeRegion (wordsOf blkBuf) (blocksize * 4) 0).1.toNat))).bind fun _ =>
        metered_pure ((findFreeRegion (wordsOf blkBuf) (blocksize * 4) 0).1 + 1))
  · exact fun d => by simp

/-- The transfers of `ext2_access_inode`. -/
def inodeTransfers (rw : Bool) (d : Disk) (ino : Nat) : Nat :=
  (if ino = 0 then 0 else 2) +
    if Ext2.inoExist d ino ≠ 1 then 0 else 1 + blockTransfers rw

theorem counts_accessInode (rw : Bool) (ino : Nat) (inode : Buf) :
    Counts fails (ext2AccessInode fails sb rw ino inode) fun d => inodeTransfers rw d ino := by
  refine Counts.of_eq ((metered_inoExist fails ino).bind fun exist =>
    (metered_pure ((-1 : Int), inode)).ite (c := exist ≠ 1)
      ((metered_devRead fails _).bind fun r => (metered_pure ((-1 : Int), inode)).ite
        (c := r.1 ≠ 0) (metered_accessBlockBytes fails rw _ _ _ _ _))).counts fun d => ?_
  have hcast : ((Ext2.inoExist d ino : Nat) : Int) ≠ 1 ↔ Ext2.inoExist d ino ≠ 1 := by
    omega
  simp [inodeTransfers]

theorem metered_readInode (ino : Nat) (inode : Buf) :
    Metered fails (ext2AccessInode fails sb false ino inode)
      (fun d => some (Ext2.ext2ReadInode sb d ino inode, d)) fun d => inodeTransfers false d ino :=
  ⟨refines_readInode fails sb ino inode, counts_accessInode fails sb false ino inode⟩

theorem metered_writeInode (ino : Nat) (inode : Buf) :
    Metered fails (ext2AccessInode fails sb true ino inode) (fun d =>
      some (((Ext2.ext2WriteInode sb d ino inode).1, inode),
        (Ext2.ext2WriteInode sb d ino inode).2)) fun d => inodeTransfers true d ino :=
  ⟨refines_writeInode fails sb ino inode, counts_accessInode fails sb true ino inode⟩

/-- Each new block is a number from the bitmap. -/
theorem metered_fillBlocks (n i : Nat) (inode : Buf) :
    Metered fails (fillBlocks fails i n inode) (fun d => Ext2.fillBlocks i n inode d)
      fun _ => 3 * n := by
  induction n generalizing i inode with
  | zero => exact metered_pure inode
  | succ n ih =>
      refine ⟨refines_fillBlocks fails (n + 1) i inode, Counts.congr
        ((metered_nextFreeBlkno fails).bind (l := fun _ _ => 3 * n)
          (g := fun blkno d =>
            Ext2.fillBlocks (i + 1) n (setIBlock inode i (blkno % 2 ^ 32).toNat) d)
          fun blkno => ?_).counts (refines_fillBlocks fails (n + 1) i inode) (fun d => ?_)
        fun d r hr => ?_⟩
      · by_cases hi : 15 ≤ i
        · rw [if_pos hi]
          exact metered_throw _ _ _
        · rw [if_neg hi]
          exact ih _ _
      · cases (Ext2.nextFreeBlkno d).map fun r => ((r.1 : Int), r.2) with
        | none => simp only [Option.elim_none]; omega
        | some r => simp only [Option.elim_some]; omega
      · -- a run that comes back has found a number
        cases hnext : Ext2.nextFreeBlkno d with
        | none => exact absurd hr (by simp [Ext2.fillBlocks, hnext])
        | some r => simp only [Option.map_some, Option.elim_some]; omega

/-- The transfers of `ext2_alloc_inode`: the inode is claimed, the blocks it lacks are taken,
and it is written. -/
def allocTransfers (d : Disk) (ino : Nat) (inode : Buf) (fsize : Nat) : Nat :=
  let blocks := blocksFor fsize
  let claimed := Ext2.inoTrySet d ino
  let i := if claimed.1 = 0 then 0 else iBlocks inode
  (if claimed.1 = 0 then 3 else 2) + 3 * (blocks - i) +
    (Ext2.fillBlocks i (blocks - i) (setIBlocks (setISize inode fsize) blocks) claimed.2).elim 0
      fun r => inodeTransfers true r.2 ino

theorem metered_allocInode (ino : Nat) (inode : Buf) (fsize : Nat) :
    Metered fails (ext2AllocInode fails sb ino inode fsize)
      (fun d => Ext2.ext2AllocInode sb d ino inode fsize)
      fun d => allocTransfers d ino inode fsize := by
  refine ⟨refines_allocInode fails sb ino inode fsize, Counts.of_eq
    ((metered_inoTrySet fails ino).bind fun claimed => (metered_fillBlocks fails _ _ _).bind
      fun inode' => (metered_writeInode fails sb ino inode').bind fun _ =>
        metered_pure inode').counts fun d => ?_⟩
  have hcast : ((Ext2.inoTrySet d ino).1 : Int) = 0 ↔ (Ext2.inoTrySet d ino).1 = 0 := by
    omega
  simp only [allocTransfers, Option.elim_some, hcast, Nat.add_zero, Nat.add_assoc]

/-- The transfers of a loop over the direct blocks, of which there is one piece for each
pass. -/
def directTransfers (rw : Bool) (size offset nbytes : Nat) : Nat :=
  blockTransfers rw * (chunks (offset / blocksize) (offsetIn offset) 0
    ((size + 2 ^ 32 - offset) % 2 ^ 32) nbytes).length

theorem counts_accessDirect (rw : Bool) (inode : Buf) (offset : Nat) (buf : Buf)
    (at_ nbytes : Nat) :
    Counts fails (ext2AccessDirect fails rw inode offset buf at_ nbytes)
      fun _ => directTransfers rw (iSize inode) offset nbytes := by
  have hpass (buf : Buf) (c : Chunk) := Metered.mk (refines_directPass fails rw inode at_ buf c)
    (show Counts fails (directPass fails rw inode at_ buf c) fun _ => blockTransfers rw from ?_)
  · exact ((Metered.foldlM hpass _ buf).bind fun buf' => metered_pure (_, buf')).counts
  · rw [directPass]
    by_cases hc : 15 ≤ c.iblkno
    · rw [if_pos hc]
      exact counts_throw _ _
    · rw [if_neg hc]
      exact ((metered_accessBlockBytes fails rw _ _ _ _ _).bind fun r =>
        metered_pure r.2).counts

/-- The transfers of `ext2_read_indirect`: the list of the numbers, and one for each piece. -/
def indirectTransfers (size offset nbytes : Nat) : Nat :=
  let idrOff := (offset + 2 ^ 32 - blocksize * 12) % 2 ^ 32
  1 + (chunks (idrOff / blocksize) (offsetIn idrOff) 0
    ((size + 2 * 2 ^ 32 - blocksize * 12 - offset) % 2 ^ 32) nbytes).length

theorem counts_readIndirect (inode : Buf) (offset : Nat) (buf : Buf) (at_ nbytes : Nat) :
    Counts fails (ext2ReadIndirect fails inode offset buf at_ nbytes)
      fun _ => indirectTransfers (iSize inode) offset nbytes := by
  have hpass (idrBuf buf : Buf) (c : Chunk) := Metered.mk
    (refines_indirectPass fails idrBuf at_ buf c)
    (show Counts fails (indirectPass fails idrBuf at_ buf c) fun _ => 1 from ?_)
  · refine Counts.of_eq ((metered_devRead fails _).bind fun r =>
      (Metered.foldlM (hpass r.2) _ buf).bind fun buf' => metered_pure (_, buf')).counts
      fun d => ?_
    simp [indirectTransfers]
  · rw [indirectPass]
    by_cases hc : 256 ≤ c.iblkno
    · rw [if_pos hc]
      exact counts_throw _ _
    · rw [if_neg hc]
      exact ((metered_accessBlockBytes fails false _ _ _ _ _).bind fun r =>
        metered_pure r.2).counts

/-- The transfers of `ext2_read_data`. -/
def dataTransfers (size offset nbytes : Nat) : Nat :=
  if size ≤ offset then 0
  else
    let nbytes := if size < (offset + nbytes) % 2 ^ 32 then size - offset else nbytes
    if (offset + nbytes) % 2 ^ 32 ≤ 12 * blocksize then directTransfers false size offset nbytes
    else if 12 * blocksize ≤ offset then indirectTransfers size offset nbytes
    else
      directTransfers false size offset (12 * blocksize - offset) +
        indirectTransfers size (12 * blocksize) (nbytes - (12 * blocksize - offset))

theorem metered_readData (inode : Buf) (offset : Nat) (buf : Buf) (nbytes : Nat) :
    Metered fails (ext2ReadData fails inode offset buf nbytes) (fun d =>
      some (Ext2.ext2ReadData d inode offset buf nbytes, d))
      fun _ => dataTransfers (iSize inode) offset nbytes := by
  refine ⟨refines_readData fails inode offset buf nbytes, ?_⟩
  by_cases hend : iSize inode ≤ offset
  · simp only [ext2ReadData, dataTransfers, if_pos hend]
    exact counts_pure (0, buf)
  · simp only [ext2ReadData, dataTransfers, if_neg hend]
    generalize (if iSize inode < (offset + nbytes) % 2 ^ 32 then iSize inode - offset
      else nbytes) = count
    split_ifs
    · exact counts_accessDirect fails false _ _ _ _ _
    · exact counts_readIndirect fails _ _ _ _ _
    · -- the length of the direct part is never that of an error
      refine ((Metered.mk (refines_readDirect fails inode offset buf 0 _)
        (counts_accessDirect fails false _ _ _ _ _)).bind_after
        (g := fun r d => some (Ext2.ext2ReadIndirect d inode (12 * blocksize) r.2
          (12 * blocksize - offset) (count - (12 * blocksize - offset)), d))
        (l := fun _ _ => indirectTransfers (iSize inode) (12 * blocksize)
          (count - (12 * blocksize - offset)))
        (accessDirect_total fails false _ _ _ _ _) fun r hr => ?_).counts
      have hne : ¬ r.1 = 2 ^ 32 - 1 := Nat.ne_of_lt hr
      simp only [if_neg hne]
      exact ⟨refines_readIndirect fails _ _ r.2 _ _, counts_readIndirect fails _ _ r.2 _ _⟩

/-- The transfers of `file_fread`. -/
def freadTransfers (d : Disk) (self : File) (inode : Buf) (nbytes : Nat) : Nat :=
  if self.iMode &&& ext2SIfreg = 0 then 0
  else
    inodeTransfers false d self.iIno +
      dataTransfers (iSize (Ext2.ext2ReadInode sb d self.iIno inode).2) self.fPos nbytes

theorem counts_fileFread (self : File) (inode buf : Buf) (nbytes : Nat) :
    Counts fails (fileFread fails sb self inode buf nbytes)
      fun d => freadTransfers sb d self inode nbytes := by
  by_cases hreg : self.iMode &&& ext2SIfreg = 0
  · refine Counts.of_eq (n := fun _ => 0) ?_ fun d => (if_pos hreg).symm
    rw [fileFread, if_pos hreg]
    exact counts_pure _
  · rw [fileFread, if_neg hreg]
    have hcounts := ((metered_readInode fails sb self.iIno inode).bind fun r =>
      (metered_readData fails r.2 self.fPos buf nbytes).bind fun r' =>
        (metered_pure ((-1 : Int), r'.2, self)).ite (c := r'.1 = 2 ^ 32 - 1)
          (metered_pure ((r'.1 : Int), r'.2,
            ({ self with fPos := (self.fPos + r'.1) % 2 ^ 32 } : File)))).counts
    refine hcounts.of_eq fun d => ?_
    rw [freadTransfers, if_neg hreg]
    simp only [Option.elim_some, ite_self, Nat.add_zero]

/-- The blocks that are stored in an inode do not change its size. -/
theorem iSize_fillBlocks {i n : Nat} {inode inode' : Buf} {d d' : Disk}
    (h : Ext2.fillBlocks i n inode d = some (inode', d')) : iSize inode' = iSize inode := by
  induction n generalizing i inode d with
  | zero =>
      obtain ⟨rfl, rfl⟩ := Prod.mk.inj (Option.some.inj h)
      rfl
  | succ n ih =>
      cases hnext : Ext2.nextFreeBlkno d with
      | none => exact absurd h (by simp [Ext2.fillBlocks, hnext])
      | some r =>
          rw [Ext2.fillBlocks, hnext] at h
          exact (ih h).trans (u32At_setU32_of_disjoint (by omega))

theorem iSize_allocInode {ino fsize : Nat} (hfsize : fsize < 2 ^ 32) {inode inode' : Buf}
    {d d' : Disk} (h : Ext2.ext2AllocInode sb d ino inode fsize = some (inode', d')) :
    iSize inode' = fsize := by
  rw [Ext2.ext2AllocInode] at h
  cases hfill : Ext2.fillBlocks (if (Ext2.inoTrySet d ino).1 = 0 then 0 else iBlocks inode)
      (blocksFor fsize - if (Ext2.inoTrySet d ino).1 = 0 then 0 else iBlocks inode)
      (setIBlocks (setISize inode fsize) (blocksFor fsize)) (Ext2.inoTrySet d ino).2 with
  | none => exact absurd h (by simp [hfill])
  | some r =>
      simp only [hfill] at h
      obtain ⟨rfl, -⟩ := Prod.mk.inj (Option.some.inj h)
      calc
        iSize r.1 = iSize (setIBlocks (setISize inode fsize) (blocksFor fsize)) :=
          iSize_fillBlocks hfill
        _ = iSize (setISize inode fsize) := u32At_setU32_of_disjoint (by omega)
        _ = fsize := u32At_setU32 inode 4 hfsize

/-- The transfers of `file_fwrite`. -/
def fwriteTransfers (d : Disk) (self : File) (inode : Buf) (nbytes : Nat) : Nat :=
  let fsize := (self.fPos + nbytes) % 2 ^ 32
  inodeTransfers false d self.iIno +
    allocTransfers d self.iIno (Ext2.ext2ReadInode sb d self.iIno inode).2 fsize +
    directTransfers true fsize self.fPos nbytes

theorem counts_fileFwrite (self : File) (inode buf : Buf) (nbytes : Nat) :
    Counts fails (fileFwrite fails sb self inode buf nbytes)
      fun d => fwriteTransfers sb d self inode nbytes := by
  have hcounts := ((metered_readInode fails sb self.iIno inode).bind fun r =>
    (metered_allocInode fails sb self.iIno r.2 ((self.fPos + nbytes) % 2 ^ 32)).bind fun inode' =>
      (Metered.mk (refines_writeDirect fails inode' self.fPos buf nbytes)
        (counts_accessDirect fails true inode' self.fPos buf 0 nbytes)).bind fun _ =>
        metered_pure ((0 : Int),
          ({ self with fPos := (self.fPos + nbytes) % 2 ^ 32 } : File))).counts
  refine hcounts.congr (refines_fileFwrite fails sb self inode buf nbytes) (fun d => ?_)
    fun d r hr => ?_
  · simp only [Option.elim_some, fwriteTransfers]
    cases halloc : Ext2.ext2AllocInode sb d self.iIno (Ext2.ext2ReadInode sb d self.iIno inode).2
        ((self.fPos + nbytes) % 2 ^ 32) with
    | none => simp only [Option.elim_none]; omega
    | some r =>
        have hsize := iSize_allocInode sb (Nat.mod_lt _ (by decide)) halloc
        simp only [Option.elim_some, hsize]
        omega
  · simp only [Option.elim_some, fwriteTransfers]
    cases halloc : Ext2.ext2AllocInode sb d self.iIno (Ext2.ext2ReadInode sb d self.iIno inode).2
        ((self.fPos + nbytes) % 2 ^ 32) with
    | none =>
        have hnone : Ext2.fileFwrite sb d self inode buf nbytes = none := by
          simp only [Ext2.fileFwrite, halloc]
        exact absurd hr (by simp [hnone])
    | some r =>
        have hsize := iSize_allocInode sb (Nat.mod_lt _ (by decide)) halloc
        simp only [Option.elim_some, hsize]
        omega

/-! ## The reports -/

/-- Every write in the log is that of a block that has been read before. -/
def Guarded (s s' : Dev) : Prop :=
  ∀ pre t post, s'.log = s.log ++ pre ++ t :: post → t.isWrite = true →
    ∃ t' ∈ pre, t'.isWrite = false ∧ t'.lba = t.lba ∧ t'.ok = true

/-- A write of a part of a block is a read and a write, whatever the read returns. -/
theorem accessBlockBytes_transfers (blkno : Nat) (buf : Buf) (at_ offset nbytes : Nat)
    (s : Dev) :
    ∃ r s', ext2AccessBlockBytes fails true blkno buf at_ offset nbytes s = .ok (r, s') ∧
      s'.log = s.log ++ [⟨false, lba blkno, (fails s.log.length).isNone⟩] ++
        ⟨true, lba blkno, (fails (s.log.length + 1)).isNone⟩ :: [] := by
  obtain ⟨r₁, s₁, hread, hlog₁⟩ := devRead_log fails (lba blkno) s
  obtain ⟨r₂, s₂, hwrite, hlog₂⟩ := devWrite_log fails (lba blkno)
    (memcpy r₁.2 offset buf at_ nbytes) s₁
  refine ⟨(r₂, buf), s₂, ?_, ?_⟩
  · simp only [ext2AccessBlockBytes, if_true, Bind.bind, StateT.bind, Except.bind, hread, hwrite]
    rfl
  · rw [hlog₂, hlog₁, List.length_append, List.length_singleton]

/-- It follows a successful read exactly when the read does not fail. -/
theorem accessBlockBytes_guarded_iff (blkno : Nat) (buf : Buf) (at_ offset nbytes : Nat)
    (s : Dev) :
    (∀ r s', ext2AccessBlockBytes fails true blkno buf at_ offset nbytes s = .ok (r, s') →
      Guarded s s') ↔ fails s.log.length = none := by
  obtain ⟨r, s', hrun, hlog⟩ := accessBlockBytes_transfers fails blkno buf at_ offset nbytes s
  constructor
  · intro h
    obtain ⟨t', ht', -, -, hok⟩ := h r s' hrun _ _ _ hlog rfl
    rw [List.mem_singleton.mp ht'] at hok
    exact Option.isNone_iff_eq_none.mp hok
  · intro hnone r₁ s₁ hrun₁ pre t post hlog₁ hwrite
    rw [hrun] at hrun₁
    obtain ⟨rfl, rfl⟩ := Prod.mk.inj (Except.ok.inj hrun₁)
    rw [hlog, List.append_assoc, List.append_assoc] at hlog₁
    cases pre with
    | nil =>
        -- the first of the two transfers is the read
        obtain ⟨rfl, -⟩ := List.cons.inj (List.append_cancel_left hlog₁)
        exact absurd hwrite (by simp)
    | cons t₁ pre =>
        obtain ⟨rfl, hrest⟩ := List.cons.inj (List.append_cancel_left hlog₁)
        refine ⟨_, List.mem_cons_self, rfl, ?_, by rw [hnone]; rfl⟩
        cases pre with
        | nil =>
            obtain ⟨rfl, -⟩ := List.cons.inj hrest
            rfl
        | cons t₂ pre => exact absurd (List.cons.inj hrest).2 (by simp)

/-- Reading a regular file never reports a failure. -/
theorem fileFread_ret (self : File) (hreg : self.iMode &&& ext2SIfreg ≠ 0) (inode buf : Buf)
    (nbytes : Nat) (s : Dev) :
    After (fun r _ => r.1 ≠ -1) (fun _ => True) (fileFread fails sb self inode buf nbytes s) := by
  rw [fileFread, if_neg hreg]
  refine After.bind_all (fun _ => trivial) fun r s₁ => ?_
  apply After.bind
  refine (readData_total fails r.2 self.fPos buf nbytes s₁).mono (fun r' s₂ hr => ?_)
    fun _ _ => trivial
  have hne : ¬ r'.1 = 2 ^ 32 - 1 := Nat.ne_of_lt hr
  simp only [if_neg hne]
  apply After.pure
  dsimp only
  omega

/-- Neither does writing. -/
theorem fileFwrite_ret (self : File) (inode buf : Buf) (nbytes : Nat) (s : Dev) :
    After (fun r _ => r.1 ≠ -1) (fun _ => True)
      (fileFwrite fails sb self inode buf nbytes s) := by
  refine After.bind_all (fun _ => trivial) fun r s₁ => ?_
  refine After.bind_all (fun _ => trivial) fun inode' s₂ => ?_
  refine After.bind_all (fun _ => trivial) fun r' s₃ => ?_
  exact After.pure (by simp)

/-- A file operation on a file of another kind makes no transfer. -/
theorem fileFread_other (self : File) (hreg : self.iMode &&& ext2SIfreg = 0) (inode buf : Buf)
    (nbytes : Nat) (s : Dev) :
    fileFread fails sb self inode buf nbytes s = .ok ((-1, buf, self), s) := by
  rw [fileFread, if_pos hreg]
  rfl

/-- A failure of the first transfer leaves the inode of the caller as it was. -/
theorem accessInode_failed {s : Dev} {left : Buf} (hfails : fails s.log.length = some left)
    (rw : Bool) {ino : Nat} (hino : ino ≠ 0) (inode : Buf) :
    ext2AccessInode fails sb rw ino inode s =
      .ok ((-1, inode), { s with log := s.log ++ [⟨false, lba 2, false⟩] }) := by
  simp [ext2AccessInode, inoExist, ext2ReadBitmap, ext2ReadBlock, devRead, hfails, hino, Bind.bind,
    StateT.bind, Except.bind, run_pure]

/-- Nor is the inode claimed then. -/
theorem inoTrySet_failed {s : Dev} {left : Buf} (hfails : fails s.log.length = some left)
    (ino : Nat) :
    inoTrySet fails ino s = .ok (-1, { s with log := s.log ++ [⟨false, lba 2, false⟩] }) := by
  simp [inoTrySet, ext2ReadBitmap, ext2ReadBlock, devRead, hfails, Bind.bind,
    StateT.bind, Except.bind, run_pure]

/-- A write of a part of a block is preceded by a successful read of the block exactly when the
read does not fail, and a file operation that comes back reports the failures of its transfers
exactly when none of the transfers fails that it makes for these blocks, this inode and these
arguments. -/
theorem device_errors_iff (s : Dev) :
    (∀ blkno buf at_ offset nbytes,
      (∀ r s', ext2AccessBlockBytes fails true blkno buf at_ offset nbytes s = .ok (r, s') →
        Guarded s s') ↔ fails s.log.length = none) ∧
    (∀ self inode buf nbytes r s', fileFread fails sb self inode buf nbytes s = .ok (r, s') →
      ((FailedIn s s' → r.1 = -1 ∧ r.2.2.fPos = self.fPos) ↔
        NoneFails fails s (freadTransfers sb s.disk self inode nbytes))) ∧
    ∀ self inode buf nbytes r s', fileFwrite fails sb self inode buf nbytes s = .ok (r, s') →
      ((FailedIn s s' → r.1 = -1) ↔
        NoneFails fails s (fwriteTransfers sb s.disk self inode nbytes)) := by
  refine ⟨fun blkno buf at_ offset nbytes =>
    accessBlockBytes_guarded_iff fails blkno buf at_ offset nbytes s, ?_, ?_⟩
  · intro self inode buf nbytes r s' hrun
    have hfailed := (counts_fileFread fails sb self inode buf nbytes).failedIn_iff
      (refines_fileFread fails sb self inode buf nbytes) hrun
    rw [← not_iff_not, ← hfailed]
    constructor
    · intro hunreported
      by_contra hnone
      exact hunreported fun h => absurd h hnone
    · intro hfailed hreported
      by_cases hreg : self.iMode &&& ext2SIfreg = 0
      · -- there is no transfer that could have failed
        rw [fileFread_other fails sb self hreg] at hrun
        obtain ⟨-, rfl⟩ := Prod.mk.inj (Except.ok.inj hrun)
        exact FailedIn.irrefl hfailed
      · exact (fileFread_ret fails sb self hreg inode buf nbytes s).ok hrun (hreported hfailed).1
  · intro self inode buf nbytes r s' hrun
    have hfailed := (counts_fileFwrite fails sb self inode buf nbytes).failedIn_iff
      (refines_fileFwrite fails sb self inode buf nbytes) hrun
    rw [← not_iff_not, ← hfailed]
    constructor
    · intro hunreported
      by_contra hnone
      exact hunreported fun h => absurd h hnone
    · intro hfailed hreported
      exact (fileFwrite_ret fails sb self inode buf nbytes s).ok hrun (hreported hfailed)

end Data

/-! ## A device that fails at first -/

section Example

/-- The first transfers fail, and leave sevens. -/
def noisy (n : Nat) : Failures := fun i => if i < n then some fun _ => 7 else none

/-- What the variable for the inode holds: one block, with number 8, and five bytes. -/
def staleInode : Buf := setIBlock (setIBlocks (setISize (fun _ => 0) 5) 1) 0 8

/-- A regular file. -/
def someFile : File := ⟨ext2SIfreg, 12, 5, 0⟩

/-- A device of zeros. -/
def zeroDev : Dev := ⟨fun _ _ => 0, []⟩

variable (sb : Super)

theorem fields_staleInode :
    iSize staleInode = 5 ∧ iBlocks staleInode = 1 ∧ iBlock staleInode 0 = 8 := by
  decide

/-- The inode after `ext2_alloc_inode` for three bytes. -/
def shortInode : Buf := setIBlocks (setISize staleInode 3) 1

theorem fields_shortInode : iSize shortInode = 3 ∧ iBlock shortInode 0 = 8 := by
  decide

/-- The transfer of the three bytes is one piece. -/
theorem chunks_three {rmnSize : Nat} (h : 3 ≤ rmnSize) :
    chunks (0 / blocksize) (offsetIn 0) 0 rmnSize 3 = [⟨0, 0, 0, 3⟩] := by
  have hmin : min rmnSize 3 = 3 := min_eq_right h
  rw [chunks_one (by rw [hmin]; decide), hmin]
  rfl

/-- A read of the block, which fails. -/
theorem readData_noisy {fails : Failures} {s : Dev} {left : Buf}
    (hread : fails s.log.length = some left) (buf : Buf) :
    ext2ReadData fails staleInode 0 buf 3 s =
      .ok ((3, memcpy buf 0 left 0 3), { s with log := s.log ++ [⟨false, lba 8, false⟩] }) := by
  obtain ⟨hsize, -, hblock⟩ := fields_staleInode
  have hdirect : ext2ReadData fails staleInode 0 buf 3 =
      ext2AccessDirect fails false staleInode 0 buf 0 3 := by
    simp [ext2ReadData, hsize, blocksize]
  rw [hdirect, ext2AccessDirect, hsize, chunks_three (by decide)]
  simp [directPass, ext2AccessBlockBytes, devRead, hblock, hread, totalSize, Bind.bind,
    StateT.bind, Except.bind, run_pure]

/-- A write of a part of the block, where the read fails. -/
theorem writeDirect_noisy {fails : Failures} {s : Dev} {left : Buf}
    (hread : fails s.log.length = some left) (hwrite : fails (s.log.length + 1) = none)
    (buf : Buf) :
    ext2AccessDirect fails true shortInode 0 buf 0 3 s =
      .ok ((3, buf), ⟨Function.update s.disk (lba 8) (memcpy left 0 buf 0 3),
        s.log ++ [⟨false, lba 8, false⟩, ⟨true, lba 8, true⟩]⟩) := by
  obtain ⟨hsize, hblock⟩ := fields_shortInode
  rw [ext2AccessDirect, hsize, chunks_three (by decide)]
  simp [directPass, ext2AccessBlockBytes, devRead, devWrite, hblock, hread, hwrite, totalSize,
    Bind.bind, StateT.bind, Except.bind, run_pure]

/-- Three sevens are delivered. -/
theorem fileFread_noisy :
    fileFread (noisy 2) sb someFile staleInode (fun _ => 0) 3 zeroDev =
      .ok ((3, memcpy (fun _ => 0) 0 (fun _ => 7) 0 3, { someFile with fPos := 3 }),
        ⟨fun _ _ => 0, [⟨false, lba 2, false⟩, ⟨false, lba 8, false⟩]⟩) := by
  have hreg : ¬ someFile.iMode &&& ext2SIfreg = 0 := by decide
  have hfails : noisy 2 zeroDev.log.length = some fun _ => 7 := rfl
  have hino : someFile.iIno ≠ 0 := by decide
  have hinode := accessInode_failed (noisy 2) sb hfails false hino staleInode
  rw [fileFread, if_neg hreg, run_bind hinode]
  dsimp only
  exact (run_bind (readData_noisy rfl _)).trans rfl

/-- Three bytes of zero and 1021 sevens are stored. -/
theorem fileFwrite_noisy :
    fileFwrite (noisy 4) sb someFile staleInode (fun _ => 0) 3 zeroDev =
      .ok ((0, { someFile with fPos := 3 }),
        ⟨Function.update (fun _ _ => 0) (lba 8) (memcpy (fun _ => 7) 0 (fun _ => 0) 0 3),
          [⟨false, lba 2, false⟩, ⟨false, lba 2, false⟩, ⟨false, lba 2, false⟩,
            ⟨false, lba 8, false⟩, ⟨true, lba 8, true⟩]⟩) := by
  have hfails : ∀ n < 4, noisy 4 n = some fun _ => 7 := fun n hn => if_pos hn
  have hino : someFile.iIno ≠ 0 := by decide
  have hinode := accessInode_failed (noisy 4) sb (hfails zeroDev.log.length (by decide)) false hino
    staleInode
  have hclaimed := @inoTrySet_failed (noisy 4) ⟨fun _ _ => 0, [⟨false, lba 2, false⟩]⟩ _
    (hfails 1 (by decide)) someFile.iIno
  have hupdate := @accessInode_failed (noisy 4) sb
    ⟨fun _ _ => 0, [⟨false, lba 2, false⟩, ⟨false, lba 2, false⟩]⟩ _ (hfails 2 (by decide)) true _
    hino shortInode
  have halloc : ext2AllocInode (noisy 4) sb someFile.iIno staleInode
      ((someFile.fPos + 3) % 2 ^ 32) ⟨fun _ _ => 0, [⟨false, lba 2, false⟩]⟩ =
      .ok (shortInode, ⟨fun _ _ => 0,
        [⟨false, lba 2, false⟩, ⟨false, lba 2, false⟩, ⟨false, lba 2, false⟩]⟩) := by
    -- the inode is not claimed anew, and it has a block already
    have hnofill : blocksFor ((someFile.fPos + 3) % 2 ^ 32) -
        (if (-1 : Int) = 0 then 0 else iBlocks staleInode) = 0 := by decide
    rw [ext2AllocInode, run_bind hclaimed]
    dsimp only
    rw [hnofill, fillBlocks, pure_bind]
    exact run_bind hupdate
  rw [fileFwrite, run_bind hinode]
  dsimp only
  refine (run_bind halloc).trans ?_
  exact run_bind (writeDirect_noisy rfl rfl _)

/-- A write that is not guarded, a read that delivers what a failed transfer has left, and a
write that stores it. -/
theorem device_errors_hidden :
    (∃ r s', ext2AccessBlockBytes (noisy 1) true 8 (fun _ => 0) 0 0 3 zeroDev = .ok (r, s') ∧
      ¬ Guarded zeroDev s') ∧
    (∃ r s', fileFread (noisy 2) ⟨8192, 32, 128⟩ someFile staleInode (fun _ => 0) 3 zeroDev =
        .ok (r, s') ∧
      FailedIn zeroDev s' ∧ r.1 = 3 ∧ r.2.1 0 = 7) ∧
    ∃ r s', fileFwrite (noisy 4) ⟨8192, 32, 128⟩ someFile staleInode (fun _ => 0) 3 zeroDev =
        .ok (r, s') ∧
      FailedIn zeroDev s' ∧ r.1 = 0 ∧ s'.disk (lba 8) 3 = 7 := by
  refine ⟨?_, ?_, ?_⟩
  · obtain ⟨r, s', hrun, hlog⟩ := accessBlockBytes_transfers (noisy 1) 8 (fun _ => 0) 0 0 3 zeroDev
    refine ⟨r, s', hrun, fun hguarded => ?_⟩
    obtain ⟨t, ht, -, -, hok⟩ := hguarded _ _ _ hlog rfl
    rw [List.mem_singleton.mp ht] at hok
    exact absurd hok (by decide)
  · exact ⟨_, _, fileFread_noisy _, ⟨_, rfl, _, List.mem_cons_self, rfl⟩, rfl, by decide⟩
  · refine ⟨_, _, fileFwrite_noisy _, ⟨_, rfl, _, List.mem_cons_self, rfl⟩, rfl, ?_⟩
    dsimp only
    rw [Function.update_self]
    decide

/-- The read that delivers the sevens: it makes two transfers, and three on a device that does
not fail. -/
theorem device_errors_iff_read :
    (FailedIn zeroDev ⟨fun _ _ => 0, [⟨false, lba 2, false⟩, ⟨false, lba 8, false⟩]⟩ →
        (3 : Int) = -1 ∧ 3 = someFile.fPos) ↔
      NoneFails (noisy 2) zeroDev
        (freadTransfers ⟨8192, 32, 128⟩ (fun _ _ => 0) someFile staleInode 3) :=
  (device_errors_iff (noisy 2) ⟨8192, 32, 128⟩ zeroDev).2.1 someFile staleInode (fun _ => 0) 3 _ _
    (fileFread_noisy _)

end Example

end Failing
end Ext2
end NochOS
