import NochOS.Vfs.PathRuns

/-!
# VFS - the callers of parse_path and the heap

This module embeds the functions of `ext2.c` and `syscall.c` that take a path, with the
dentries that they allocate and free.

Main results:

- Definitions `fileFopen`, `sysCreate`, `sysRm`, `sysMkdir`, `sysCd`: the functions.
- Theorem `parseFresh_after`: their common start.
- Theorem `keepsHeap_iff`: when the objects of the heap are the same afterwards.
-/

namespace NochOS
namespace Vfs

open Library Ext2

/-! ## The functions -/

/-- The common start of the functions: two dentries are allocated, and the path is
resolved into them. -/
def parseFresh (sb : Super) (sc : Scratch) (fname : List UInt8) : Run (Int × Nat × Nat) := do
  let base ← malloc sizeofDentry
  let dent ← malloc sizeofDentry
  let res ← heapParsePath sb sc fname (.heap base) (.heap dent)
  pure (res, base, dent)

/-- The jump tables that an open file may have. -/
inductive FileOp where
  | ext2Dir
  | ext2File
  | other

/-- `file_t`. -/
structure OpenFile where
  fOp : FileOp
  fDentry : Node
  fPos : Nat

/-- `file_fopen`: the return value and `*self` afterwards. -/
def heapFopen (sb : Super) (sc : Scratch) (self : OpenFile) (fname : List UInt8) :
    Run (Int × OpenFile) := do
  let (res, _, dent) ← parseFresh sb sc fname
  if res ≠ 0 then
    if res = 1 then do
      freeDentry (.heap dent)
      pure (-1, self)
    else pure (-1, self)
  else do
    let node ← readNode (.heap dent)
    let fOp :=
      if node.dentry.iMode &&& ext2SIfdir ≠ 0 then .ext2Dir
      else if node.dentry.iMode &&& ext2SIfreg ≠ 0 then .ext2File
      else self.fOp
    free (.heap dent)
    pure (0, ⟨fOp, node, 0⟩)

/-- `file_fclose`. -/
def heapFclose (self : OpenFile) : Run Int := do
  freeDentry self.fDentry.dParent
  pure 0

/-- `superblock` and the device after a change of the device. -/
def setDisk (disk : Disk) : Run Unit := fun m => .ok ((), { m with disk := disk })

/-- `cur_dentry = node`. -/
def setCur (node : Node) : Run Unit := fun m => .ok ((), { m with cur := node })

/-- `i_op->create` of the inode in a dentry. -/
def create (sb : Super) (sc : Scratch) (base dent : Ptr) (mode : Nat) : Run Int := do
  let self ← readNode base
  let node ← readNode dent
  let m ← get
  match icreate sb m.disk sc.stk self.dentry.iIno node.dentry mode with
  | none => throw .noReturn
  | some (ret, dentry, disk) => do
      writeNode dent { node with dentry := dentry }
      setDisk disk
      pure ret

/-- `i_op->remove` of the inode in a dentry, with the name in another one. -/
def remove (sb : Super) (sc : Scratch) (fuel : Nat) (base dent : Ptr) : Run Int := do
  let self ← readNode base
  let node ← readNode dent
  let m ← get
  match iremove sb m.disk sc.stk fuel self.dentry.iIno node.dentry.filename with
  | none => throw .noReturn
  | some (ret, disk) => do
      setDisk disk
      pure ret

/-- `i_op->mkdir` of the inode in a dentry, with the name in another one. -/
def mkdir (sb : Super) (sc : Scratch) (base dent : Ptr) : Run Int := do
  let self ← readNode base
  let node ← readNode dent
  let m ← get
  match imkdir sb m.disk sc.stk self.dentry.iIno node.dentry.filename with
  | none => throw .noReturn
  | some (ret, disk) => do
      setDisk disk
      pure ret

/-- `sys_create`; behind its test for -1 there is no other value to free dentries for. -/
def sysCreate (sb : Super) (sc : Scratch) (fname : List UInt8) : Run Int := do
  let (retval, base, dent) ← parseFresh sb sc fname
  if retval = -1 then pure (-1)
  else do
    let retval ← create sb sc (.heap base) (.heap dent) 0x81FF
    freeDentry (.heap dent)
    pure retval

/-- `sys_rm`. -/
def sysRm (sb : Super) (sc : Scratch) (fuel : Nat) (fname : List UInt8) : Run Int := do
  let (retval, base, dent) ← parseFresh sb sc fname
  if retval ≠ 0 then
    if retval ≠ -1 then do
      freeDentry (.heap dent)
      pure (-1)
    else pure (-1)
  else do
    let node ← readNode (.heap dent)
    let m ← get
    if node.dentry.iIno = m.cur.dentry.iIno then pure (-1)
    else do
      let retval ← remove sb sc fuel (.heap base) (.heap dent)
      freeDentry (.heap dent)
      pure retval

/-- `sys_mkdir`. -/
def sysMkdir (sb : Super) (sc : Scratch) (dirName : List UInt8) : Run Int := do
  let (retval, base, dent) ← parseFresh sb sc dirName
  if retval ≠ 1 then
    if retval ≠ -1 then do
      freeDentry (.heap dent)
      pure (-1)
    else pure (-1)
  else do
    let retval ← mkdir sb sc (.heap base) (.heap dent)
    freeDentry (.heap dent)
    pure retval

/-- The part of `sys_cd` that links a dentry to the root of the superblock. -/
def linkRoot (dent : Ptr) : Run Unit := do
  let node ← readNode dent
  let up ← readNode node.dParent
  if firstChar up.dentry = slash ∧ node.dParent ≠ .sRoot then do
    free node.dParent
    setParent dent .sRoot
  else pure ()

/-- The end of `sys_cd`. -/
def enter (dent : Ptr) : Run Int := do
  let node ← readNode dent
  if (node.dentry.iMode >>> 12) &&& 0xF ≠ 4 then do
    freeDentry dent
    pure (-1)
  else do
    let m ← get
    freeDentry m.cur.dParent
    let node ← readNode dent
    setCur node
    freeUnlessRoot dent
    pure 0

/-- `sys_cd`. -/
def sysCd (sb : Super) (sc : Scratch) (dirName : List UInt8) : Run Int := do
  let (res, _, dent) ← parseFresh sb sc dirName
  if res ≠ 0 then
    if res = 1 then do
      freeDentry (.heap dent)
      pure (-1)
    else pure (-1)
  else do
    let node ← readNode (.heap dent)
    let dent := if firstChar node.dentry = slash then .sRoot else .heap dent
    linkRoot dent
    enter dent

/-! ## The start of the functions -/

section Start

variable {Obj : Type} (T : Tree (List UInt8) Obj) (Stands : Dentry → Obj → Prop)

/-- The memory between two calls: `cur_dentry` shows the current directory, and its
parents are dentries in the heap. -/
structure Working (g : Geometry) (d : Disk) (ino : Obj → Nat) (cwd : Obj) (m : Mem) : Prop where
  setting : Setting T Stands g d ino m
  shows : Shows T Stands m.sRoot m.cur.dentry cwd
  chain : ∃ ps others, Leads T Stands m.node m.cur.dParent (T.parent cwd) ps ∧
    Owned m ps others

/-- The memory `m'` behind `parse_path`, which was called with new dentries `b` and `e`. -/
structure Resolved (m : Mem) (b e : Nat) (R : Resolution (List UInt8) Obj) (r : Int) (m' : Mem) :
    Prop where
  delivered : Delivered T Stands b e (dentryObj e :: dentryObj b :: m.live) R r m'
  node : ∀ o ∈ m.live, m'.node o.ptr = m.node o.ptr
  sRoot : m'.sRoot = m.sRoot
  cur : m'.cur = m.cur
  disk : m'.disk = m.disk

variable {T Stands} {g : Geometry} {d : Disk} {ino : Obj → Nat} {cwd : Obj} {m m' : Mem}
  {b e : Nat} {R : Resolution (List UInt8) Obj} {r : Int} {fname : List UInt8}

theorem Working.owned (h : Working T Stands g d ino cwd m) : Owned m [] m.live := by
  obtain ⟨ps, others, -, hown⟩ := h.chain
  exact ⟨hown.consistent, List.Perm.refl _⟩

/-- The two dentries are allocated. -/
theorem parseFresh_start {sb : Super} {sc : Scratch} {Q : Int × Nat × Nat → Mem → Prop}
    {E : Fault → Prop} (hown : Owned m [] m.live) (hmem : E .outOfMemory)
    (h : ∀ b e m₂, Owned m₂ [] (dentryObj e :: dentryObj b :: m.live) → SameNodes m m₂ → b ≠ e →
      (∀ o ∈ m.live, o.ptr ≠ b ∧ o.ptr ≠ e) →
      After (fun r m' => Q (r, b, e) m') E (heapParsePath sb sc fname (.heap b) (.heap e) m₂)) :
    After Q E (parseFresh sb sc fname m) := by
  unfold parseFresh
  rcases malloc_cases hown with hfail | ⟨b, m₁, hallocB, hown₁, hsame₁⟩
  · exact After.bind (After.of_error hfail hmem)
  · rcases malloc_cases hown₁ with hfail | ⟨e, m₂, hallocE, hown₂, hsame₂⟩
    · exact After.bind_ok hallocB (After.bind (After.of_error hfail hmem))
    · have hbe : b ≠ e := fun heq => hown₂.notMem (heq ▸ List.mem_cons_self)
      have hfresh : ∀ o ∈ m.live, o.ptr ≠ b ∧ o.ptr ≠ e := fun o ho =>
        ⟨hown₂.ne_rest (by simp) ho, hown₂.ne_rest (by simp) ho⟩
      exact After.bind_ok hallocB (After.bind_ok hallocE (After.bind
        (h b e m₂ ⟨hown₂.consistent, hown₂.live⟩ (hsame₁.trans hsame₂) hbe hfresh)))

/-- The end of `parse_path` in new dentries, for what was there before. -/
theorem resolved_or_remains {m₂ : Mem} {keep : List Heap.Obj} {run : Except Fault (Int × Mem)}
    {followed : Prop} (hsame : SameNodes m m₂) (hfresh : ∀ o ∈ m.live, o.ptr ≠ b ∧ o.ptr ≠ e)
    (h : Ends T Stands followed (dentryObj b :: keep) b e (dentryObj e :: dentryObj b :: m.live) m₂
      R run) :
    After (fun r m' => (followed ∧ Resolved T Stands m b e R r m') ∨
        (¬ followed ∧ r = -1 ∧ dentryObj b ∉ m.live ∧ Remains (dentryObj b :: keep) m m'))
      (fun fault => fault = .outOfMemory ∨ ¬ followed) run := by
  refine After.mono h ?_ fun _ hfault => hfault
  rintro r m' (⟨hgood, hframe, hdel⟩ | ⟨hbad, hret, hleft⟩)
  · refine Or.inl ⟨hgood, hdel, ?_, ?_, ?_, ?_⟩
    · intro o ho
      obtain ⟨hob, hoe⟩ := hfresh o ho
      rw [hframe.node o (by simp [ho]) hob hoe, hsame.node]
    · rw [hframe.sRoot, hsame.sRoot]
    · rw [hframe.cur, hsame.cur]
    · rw [hframe.disk, hsame.disk]
  · exact Or.inr ⟨hbad, hret, fun hmem => (hfresh _ hmem).1 rfl, hleft.live, hleft.consistent,
      hleft.sRoot.trans hsame.sRoot, hleft.disk.trans hsame.disk⟩

/-- `parse_path` in new dentries.  When it fails, one of these is left, and of the objects that
were there all but the parents of `cur_dentry`. -/
theorem parseFresh_ends {ps : List Nat} {others : List Heap.Obj}
    (hset : Setting T Stands g d ino m) (sc : Scratch)
    (hshows : Shows T Stands m.sRoot m.cur.dentry cwd)
    (hchain : Leads T Stands m.node m.cur.dParent (T.parent cwd) ps) (hown : Owned m ps others)
    (hnul : 0 ∉ fname) :
    After (fun r m' =>
        (FollowedPath T cwd fname ∧
          Resolved T Stands m r.2.1 r.2.2 (T.resolve pathSyntax cwd fname) r.1 m') ∨
        (¬ FollowedPath T cwd fname ∧ r.1 = -1 ∧ dentryObj r.2.1 ∉ m.live ∧
          Remains (dentryObj r.2.1 :: others) m m'))
      (fun fault => fault = .outOfMemory ∨ ¬ FollowedPath T cwd fname)
      (parseFresh g.sb sc fname m) := by
  refine parseFresh_start ⟨hown.consistent, List.Perm.refl _⟩ (Or.inl rfl) ?_
  intro b e m₂ hown₂ hsame hbe hfresh
  have hps : ∀ p ∈ ps, dentryObj p ∈ dentryObj e :: dentryObj b :: m.live ∧ p ≠ b ∧ p ≠ e := by
    intro p hp
    have hmem : dentryObj p ∈ m.live := hown.mem hp
    exact ⟨List.mem_cons_of_mem _ (List.mem_cons_of_mem _ hmem), hfresh _ hmem⟩
  have hkeep : ∀ x ∈ dentryObj b :: others,
      x ∈ dentryObj e :: dentryObj b :: m.live ∧ x.ptr ∉ ps := by
    intro x hx
    rcases List.mem_cons.mp hx with rfl | hx
    · exact ⟨by simp, fun hmem => (hps b hmem).2.1 rfl⟩
    · have hmem : x ∈ m.live := hown.mem_rest hx
      exact ⟨by simp [hmem], fun hmem => hown.ne_rest hmem hx rfl⟩
  have hcur : Shows T Stands m₂.sRoot m₂.cur.dentry cwd := by
    rw [hsame.sRoot, hsame.cur]
    exact hshows
  have hchain₂ : Leads T Stands m₂.node m₂.cur.dParent (T.parent cwd) ps := by
    rw [hsame.node, hsame.cur]
    exact hchain
  exact resolved_or_remains hsame hfresh (heapParsePath_ends (hset.congr hsame.sRoot hsame.disk) sc
    hown₂ (by simp) (by simp) hbe hkeep hcur hchain₂ hps hown.nodup hnul)

/-- For a path from the root `cur_dentry` does not matter. -/
theorem parseFresh_absolute (hset : Setting T Stands g d ino m) (sc : Scratch)
    (hown : Owned m [] m.live) (hnul : 0 ∉ fname) (cwd : Obj) :
    After (fun r m' =>
        (FollowedPath T cwd (slash :: fname) ∧ Resolved T Stands m r.2.1 r.2.2
          (T.resolve pathSyntax cwd (slash :: fname)) r.1 m') ∨
        (¬ FollowedPath T cwd (slash :: fname) ∧ r.1 = -1 ∧ dentryObj r.2.1 ∉ m.live ∧
          Remains (dentryObj r.2.1 :: m.live) m m'))
      (fun fault => fault = .outOfMemory ∨ ¬ FollowedPath T cwd (slash :: fname))
      (parseFresh g.sb sc (slash :: fname) m) := by
  refine parseFresh_start hown (Or.inl rfl) ?_
  intro b e m₂ hown₂ hsame hbe hfresh
  have hkeep : ∀ x ∈ dentryObj b :: m.live, x ∈ dentryObj e :: dentryObj b :: m.live :=
    fun x hx => List.mem_cons_of_mem _ hx
  exact resolved_or_remains hsame hfresh (heapParsePath_absolute (hset.congr hsame.sRoot hsame.disk)
    sc hown₂ (by simp) (by simp) hbe hkeep hnul)

/-- `parse_path` in new dentries, between two calls. -/
theorem parseFresh_after (h : Working T Stands g d ino cwd m) (sc : Scratch) (hnul : 0 ∉ fname) :
    After (fun r m' =>
        (FollowedPath T cwd fname ∧
          Resolved T Stands m r.2.1 r.2.2 (T.resolve pathSyntax cwd fname) r.1 m') ∨
        (¬ FollowedPath T cwd fname ∧ r.1 = -1 ∧ dentryObj r.2.1 ∈ m'.live ∧
          dentryObj r.2.1 ∉ m.live))
      (fun fault => fault = .outOfMemory ∨ ¬ FollowedPath T cwd fname)
      (parseFresh g.sb sc fname m) := by
  obtain ⟨ps, others, hchain, hown⟩ := h.chain
  refine (parseFresh_ends h.setting sc h.shows hchain hown hnul).mono ?_ fun _ hfault => hfault
  rintro r m' (hgood | ⟨hbad, hret, hfresh, hleft⟩)
  · exact Or.inl hgood
  · exact Or.inr ⟨hbad, hret, hleft.live _ List.mem_cons_self, hfresh⟩

/-- The two dentries and the chain above them are all that was allocated. -/
theorem Resolved.chain (h : Resolved T Stands m b e R r m') :
    ∃ qs, Links m'.node (.heap e) (e :: b :: qs) ∧ Owned m' (e :: b :: qs) m.live := by
  obtain ⟨hready, hlink⟩ := h.delivered
  have hupper : ∃ o qs, Leads T Stands m'.node (m'.node b).dParent o qs ∧
      Owned m' qs (dentryObj e :: dentryObj b :: m.live) := by
    cases R with
    | invalid => exact absurd hready id
    | found o =>
        obtain ⟨-, -, -, qs, hqs, hown⟩ := hready
        exact ⟨_, qs, hqs, hown⟩
    | missing base n =>
        obtain ⟨-, -, -, qs, hqs, hown⟩ := hready
        exact ⟨_, qs, hqs, hown⟩
  obtain ⟨o, qs, hqs, hown⟩ := hupper
  refine ⟨qs, Links.heap ?_, ?_⟩
  · rw [hlink]
    exact Links.heap hqs.links
  · have hall : Owned m' (qs ++ [e, b]) m.live := Owned.append_iff.mpr hown
    exact hall.perm List.perm_append_comm

/-- Freeing the dentry that was found frees them all. -/
theorem freeDentry_resolved {m₁ : Mem} (h : Resolved T Stands m b e R r m')
    (hlinks : ∀ p, (m₁.node p).dParent = (m'.node p).dParent) (hheap : m₁.heap = m'.heap)
    (hlive : m₁.live = m'.live) :
    ∃ m₂, freeDentry (.heap e) m₁ = .ok ((), m₂) ∧ m₂.live.Perm m.live := by
  obtain ⟨qs, hchain, hown⟩ := h.chain
  obtain ⟨m₂, hfree, hown₂, -⟩ := freeDentry_links (hchain.congr fun p _ => hlinks p)
    (hown.of_heap hheap hlive)
  exact ⟨m₂, hfree, hown₂.live⟩

/-- The dentries can be read. -/
theorem Resolved.isLive (h : Resolved T Stands m b e R r m') : m'.Live b ∧ m'.Live e := by
  obtain ⟨qs, -, hown⟩ := h.chain
  exact ⟨hown.isLive (by simp), hown.isLive (by simp)⟩

/-- The return value is 0 and `*dent` shows the object, or it is 1. -/
theorem Resolved.ret (h : Resolved T Stands m b e R r m') :
    (r = 0 ∧ ∃ o, R = .found o ∧ Shows T Stands m'.sRoot (m'.node e).dentry o) ∨
      (r = 1 ∧ ∀ o, R ≠ .found o) := by
  obtain ⟨hready, -⟩ := h.delivered
  cases R with
  | invalid => exact absurd hready id
  | found o => exact Or.inl ⟨hready.1, o, rfl, hready.2.1⟩
  | missing base n => exact Or.inr ⟨hready.1, fun o h => by cases h⟩

end Start

/-! ## What the functions keep -/

section Accounts

variable {Obj : Type} {T : Tree (List UInt8) Obj} {Stands : Dentry → Obj → Prop} {g : Geometry}
  {d : Disk} {ino : Obj → Nat} {cwd : Obj} {m m' m₁ : Mem} {b e : Nat}
  {R : Resolution (List UInt8) Obj} {r : Int} {fname : List UInt8} {tidy : Prop}
  {obliged : Int → Prop}

/-- The end of a function that has to keep the objects of the heap when it returns certain
values: it does when it is `tidy`, and otherwise leaves others. -/
def Accounts (tidy : Prop) (obliged : Int → Prop) (m : Mem) : Except Fault (Int × Mem) → Prop :=
  After (fun r m' => (tidy ∧ (obliged r → m'.live.Perm m.live)) ∨
      (¬ tidy ∧ obliged r ∧ ¬ m'.live.Perm m.live))
    (fun fault => fault = .outOfMemory ∨ fault = .noReturn ∨ ¬ tidy)

theorem Accounts.kept (htidy : tidy) (h : obliged r → m'.live.Perm m.live) :
    Accounts tidy obliged m ((pure r : Run Int) m') :=
  Or.inl ⟨htidy, h⟩

/-- A return without freeing the dentries. -/
theorem Accounts.lost (hbad : ¬ tidy) (h : obliged r) (hb : dentryObj b ∈ m'.live)
    (hfresh : dentryObj b ∉ m.live) : Accounts tidy obliged m ((pure r : Run Int) m') :=
  Or.inr ⟨hbad, h, fun hperm => hfresh (hperm.mem_iff.mp hb)⟩

/-- A return behind `free_dentry`. -/
theorem Accounts.freed (h : Resolved T Stands m b e R r m')
    (hlinks : ∀ p, (m₁.node p).dParent = (m'.node p).dParent) (hheap : m₁.heap = m'.heap)
    (hlive : m₁.live = m'.live) (htidy : tidy) (r' : Int) :
    Accounts tidy obliged m ((do freeDentry (.heap e); pure r' : Run Int) m₁) := by
  obtain ⟨m₂, hfree, hperm⟩ := freeDentry_resolved h hlinks hheap hlive
  exact After.bind_ok hfree (Accounts.kept htidy fun _ => hperm)

/-- A function that goes on behind `parse_path`. -/
theorem Accounts.of_parse (h : Working T Stands g d ino cwd m) (sc : Scratch) (hnul : 0 ∉ fname)
    {k : Int × Nat × Nat → Run Int} (htidy : tidy → FollowedPath T cwd fname)
    (hgood : ∀ r b e m', FollowedPath T cwd fname →
      Resolved T Stands m b e (T.resolve pathSyntax cwd fname) r m' →
      Accounts tidy obliged m (k (r, b, e) m'))
    (hbad : ∀ b e m', ¬ tidy → dentryObj b ∈ m'.live → dentryObj b ∉ m.live →
      Accounts tidy obliged m (k (-1, b, e) m')) :
    Accounts tidy obliged m ((parseFresh g.sb sc fname >>= k) m) := by
  refine After.bind ((parseFresh_after h sc hnul).mono ?_ ?_)
  · rintro ⟨r, b, e⟩ m' (⟨hfollowed, hresolved⟩ | ⟨hnot, hret, hmem, hfresh⟩)
    · exact hgood r b e m' hfollowed hresolved
    · simp only at hret
      subst hret
      exact hbad b e m' (fun h => hnot (htidy h)) hmem hfresh
  · rintro fault (hfault | hnot)
    · exact Or.inl hfault
    · exact Or.inr (Or.inr fun h => hnot (htidy h))

/-- `file_fopen`, and `file_fclose` on the open file. -/
def openClose (sb : Super) (sc : Scratch) (self : OpenFile) (fname : List UInt8) : Run Int := do
  let (res, self) ← heapFopen sb sc self fname
  if res = 0 then heapFclose self else pure res

/-- `file_fopen` and `file_fclose` on a path that leads to an object, behind `parse_path`. -/
theorem openClose_found (h : Resolved T Stands m b e R r m') (self : OpenFile) :
    After (fun _ m'' => m''.live.Perm m.live) (fun _ => False)
      ((do
        let node ← readNode (.heap e)
        let fOp :=
          if node.dentry.iMode &&& ext2SIfdir ≠ 0 then .ext2Dir
          else if node.dentry.iMode &&& ext2SIfreg ≠ 0 then .ext2File
          else self.fOp
        free (.heap e)
        heapFclose ⟨fOp, node, 0⟩ : Run Int) m') := by
  obtain ⟨-, helive⟩ := h.isLive
  obtain ⟨qs, hchain, hown⟩ := h.chain
  obtain ⟨m₁, hfree, hown₁, hsame₁⟩ := free_eq hown
  have hparent : Links m₁.node (m'.node e).dParent (b :: qs) := by
    rw [hsame₁.node]
    cases hchain with
    | heap hparent => exact hparent
  obtain ⟨m₂, hclose, hown₂, -⟩ := freeDentry_links hparent hown₁
  exact After.bind_ok (readNode_eq helive) (After.bind_ok hfree (After.bind_ok hclose hown₂.live))

theorem openClose_accounts (h : Working T Stands g d ino cwd m) (sc : Scratch) (hnul : 0 ∉ fname)
    (self : OpenFile) :
    Accounts (FollowedPath T cwd fname) (fun _ => True) m (openClose g.sb sc self fname m) := by
  unfold openClose heapFopen
  rw [bind_assoc]
  refine Accounts.of_parse h sc hnul id ?_ ?_
  · intro r b e m' hfollowed hresolved
    rcases hresolved.ret with ⟨rfl, -⟩ | ⟨rfl, -⟩
    · simp only [ne_eq, not_true_eq_false, if_false, bind_assoc, pure_bind, if_true]
      exact (openClose_found hresolved self).mono (fun _ _ hperm => Or.inl ⟨hfollowed, fun _ => hperm⟩)
        fun _ hfault => absurd hfault id
    · simp only [ne_eq, one_ne_zero, not_false_eq_true, if_true, bind_assoc, pure_bind]
      exact Accounts.freed hresolved (fun _ => rfl) rfl rfl hfollowed (-1)
  · intro b e m' hbad hmem hfresh
    exact Accounts.lost hbad trivial hmem hfresh

theorem sysCreate_accounts (h : Working T Stands g d ino cwd m) (sc : Scratch) (hnul : 0 ∉ fname) :
    Accounts (FollowedPath T cwd fname) (fun _ => True) m (sysCreate g.sb sc fname m) := by
  unfold sysCreate
  refine Accounts.of_parse h sc hnul id ?_ ?_
  · intro r b e m' hfollowed hresolved
    obtain ⟨hblive, helive⟩ := hresolved.isLive
    have hret : r ≠ -1 := by
      rcases hresolved.ret with ⟨rfl, -⟩ | ⟨rfl, -⟩ <;> decide
    simp only [if_neg hret, create, bind_assoc]
    refine After.bind_ok (readNode_eq hblive) (After.bind_ok (readNode_eq helive)
      (After.bind_ok rfl ?_))
    cases icreate g.sb m'.disk sc.stk (m'.node b).dentry.iIno (m'.node e).dentry 0x81FF with
    | none => exact After.bind (After.throw (Or.inr (Or.inl rfl)))
    | some res =>
        obtain ⟨ret, dentry, disk⟩ := res
        simp only [bind_assoc, pure_bind]
        refine After.bind_ok (writeNode_eq helive _) (After.bind_ok rfl ?_)
        refine Accounts.freed hresolved (fun p => ?_) ?_ ?_ hfollowed ret
        · by_cases hp : p = e
          · have hself : ((m'.set e ⟨dentry, (m'.node e).dParent⟩).node e).dParent =
                (m'.node e).dParent := by
              rw [node_set_self]
            rw [hp]
            exact hself
          · exact congrArg Node.dParent (node_set_of_ne m' hp _)
        · rfl
        · rfl
  · intro b e m' hbad hmem hfresh
    exact Accounts.lost hbad trivial hmem hfresh

theorem sysMkdir_accounts (h : Working T Stands g d ino cwd m) (sc : Scratch) (hnul : 0 ∉ fname) :
    Accounts (FollowedPath T cwd fname) (fun _ => True) m (sysMkdir g.sb sc fname m) := by
  unfold sysMkdir
  refine Accounts.of_parse h sc hnul id ?_ ?_
  · intro r b e m' hfollowed hresolved
    obtain ⟨hblive, helive⟩ := hresolved.isLive
    rcases hresolved.ret with ⟨rfl, -⟩ | ⟨rfl, -⟩
    · exact Accounts.freed hresolved (fun _ => rfl) rfl rfl hfollowed (-1)
    · simp only [ne_eq, not_true_eq_false, if_false, mkdir, bind_assoc]
      refine After.bind_ok (readNode_eq hblive) (After.bind_ok (readNode_eq helive)
        (After.bind_ok rfl ?_))
      cases imkdir g.sb m'.disk sc.stk (m'.node b).dentry.iIno (m'.node e).dentry.filename with
      | none => exact After.bind (After.throw (Or.inr (Or.inl rfl)))
      | some res =>
          simp only [bind_assoc, pure_bind]
          refine After.bind_ok rfl (Accounts.freed hresolved (fun p => ?_) ?_ ?_ hfollowed res.1)
          · rfl
          · rfl
          · rfl
  · intro b e m' hbad hmem hfresh
    exact Accounts.lost hbad trivial hmem hfresh

variable (T ino) in
/-- The path does not lead to the current directory. -/
def NotCurrent (cwd : Obj) (fname : List UInt8) : Prop :=
  ∀ o, T.resolve pathSyntax cwd fname = .found o → ino o ≠ ino cwd

theorem sysRm_accounts (h : Working T Stands g d ino cwd m) (sc : Scratch) (fuel : Nat)
    (hnul : 0 ∉ fname) :
    Accounts (FollowedPath T cwd fname ∧ NotCurrent T ino cwd fname) (fun _ => True) m
      (sysRm g.sb sc fuel fname m) := by
  unfold sysRm
  refine Accounts.of_parse h sc hnul And.left ?_ ?_
  · intro r b e m' hfollowed hresolved
    obtain ⟨hblive, helive⟩ := hresolved.isLive
    have hset := h.setting.congr hresolved.sRoot hresolved.disk
    have hcur : m'.cur.dentry.iIno = ino cwd := by
      rw [hresolved.cur]
      exact h.shows.iIno h.setting
    rcases hresolved.ret with ⟨rfl, o, hfound, hshows⟩ | ⟨rfl, hmissing⟩
    · have htarget := hshows.iIno hset
      simp only [ne_eq, not_true_eq_false, if_false, remove, bind_assoc]
      refine After.bind_ok (readNode_eq helive) (After.bind_ok rfl ?_)
      rw [htarget, hcur]
      by_cases hsame : ino o = ino cwd
      · -- the current directory is not removed, and the dentries are not freed
        obtain ⟨qs, -, hown⟩ := hresolved.chain
        have hbmem : dentryObj b ∈ m'.live := hown.mem (by simp)
        have hfresh : dentryObj b ∉ m.live := fun hmem =>
          hown.ne (List.mem_cons_of_mem _ List.mem_cons_self) hmem rfl
        rw [if_pos hsame]
        exact Accounts.lost (fun htidy => htidy.2 o hfound hsame) trivial hbmem hfresh
      · have htidy : FollowedPath T cwd fname ∧ NotCurrent T ino cwd fname := by
          refine ⟨hfollowed, fun o' ho' => ?_⟩
          rw [hfound] at ho'
          cases ho'
          exact hsame
        rw [if_neg hsame]
        refine After.bind_ok (readNode_eq hblive) (After.bind_ok (readNode_eq helive)
          (After.bind_ok rfl ?_))
        cases iremove g.sb m'.disk sc.stk fuel (m'.node b).dentry.iIno
          (m'.node e).dentry.filename with
        | none => exact After.bind (After.throw (Or.inr (Or.inl rfl)))
        | some res =>
            simp only [bind_assoc, pure_bind]
            refine After.bind_ok rfl (Accounts.freed hresolved (fun p => ?_) ?_ ?_ htidy res.1)
            · rfl
            · rfl
            · rfl
    · have htidy : FollowedPath T cwd fname ∧ NotCurrent T ino cwd fname :=
        ⟨hfollowed, fun o ho => absurd ho (hmissing o)⟩
      exact Accounts.freed hresolved (fun _ => rfl) rfl rfl htidy (-1)
  · intro b e m' hbad hmem hfresh
    exact Accounts.lost hbad trivial hmem hfresh

/-! ## The new current directory -/

/-- A dentry shows an object, and its parents are dentries that were allocated. -/
structure Linked (T : Tree (List UInt8) Obj) (Stands : Dentry → Obj → Prop) (m : Mem) (e : Nat)
    (o : Obj) (m' : Mem) : Prop where
  ne : o ≠ T.root
  stands : Stands (m'.node e).dentry o
  chain : ∃ cs, Leads T Stands m'.node (m'.node e).dParent (T.parent o) cs ∧
    Owned m' (e :: cs) m.live
  node : ∀ o ∈ m.live, m'.node o.ptr = m.node o.ptr
  sRoot : m'.sRoot = m.sRoot
  cur : m'.cur = m.cur
  disk : m'.disk = m.disk

/-- A copy of the root among the parents is replaced by the root itself. -/
theorem linkRoot_after (h : Working T Stands g d ino cwd m) {o : Obj} (hne : o ≠ T.root)
    (hresolved : Resolved T Stands m b e (.found o) r m') :
    After (fun _ m'' => Linked T Stands m e o m'') (fun _ => False) (linkRoot (.heap e) m') := by
  obtain ⟨hblive, helive⟩ := hresolved.isLive
  have hset := h.setting.congr hresolved.sRoot hresolved.disk
  obtain ⟨⟨-, hshows, hparent, qs, hqs, hown⟩, hlink⟩ := hresolved.delivered
  have hstands : Stands (m'.node e).dentry o := by
    rcases hshows with ⟨hroot, -⟩ | ⟨-, hstands⟩
    · exact absurd hroot hne
    · exact hstands
  have hall : Owned m' (b :: e :: qs) m.live := by
    have hall : Owned m' (qs ++ [e, b]) m.live := Owned.append_iff.mpr hown
    refine hall.perm (List.perm_append_comm.trans ?_)
    exact List.Perm.swap b e qs
  unfold linkRoot
  refine After.bind_ok (readNode_eq helive) ?_
  rw [hlink]
  refine After.bind_ok (readNode_eq hblive) ?_
  by_cases hroot : T.parent o = T.root
  · have hslash : firstChar (m'.node b).dentry = slash := (hparent.slash_iff hset).mpr hroot
    rw [hroot, T.parent_root] at hqs
    obtain ⟨-, rfl⟩ := hqs.of_root
    obtain ⟨m₁, hfree, hown₁, hsame⟩ := free_eq hall
    have helive₁ : m₁.Live e := hown₁.isLive List.mem_cons_self
    rw [if_pos ⟨hslash, by simp⟩]
    refine After.bind_ok hfree (After.of_eq (setParent_eq helive₁ .sRoot) ?_)
    refine ⟨hne, ?_, ⟨[], ?_, hown₁.set _ _⟩, ?_, ?_, ?_, ?_⟩
    · rw [node_set_self, hsame.node]
      exact hstands
    · rw [node_set_self, hroot]
      exact Leads.sRoot
    · intro x hx
      rw [node_set_of_ne _ (hown₁.ne_rest List.mem_cons_self hx), hsame.node, hresolved.node x hx]
    · exact hsame.sRoot.trans hresolved.sRoot
    · exact hsame.cur.trans hresolved.cur
    · exact hsame.disk.trans hresolved.disk
  · have hslash : ¬ firstChar (m'.node b).dentry = slash := fun hslash =>
      hroot ((hparent.slash_iff hset).mp hslash)
    have hstandsB : Stands (m'.node b).dentry (T.parent o) := by
      rcases hparent with ⟨hroot', -⟩ | ⟨-, hstands⟩
      · exact absurd hroot' hroot
      · exact hstands
    rw [if_neg fun h => hslash h.1]
    refine After.pure ⟨hne, hstands, ⟨b :: qs, ?_, hall.perm (List.Perm.swap e b qs)⟩,
      hresolved.node, hresolved.sRoot, hresolved.cur, hresolved.disk⟩
    rw [hlink]
    exact Leads.heap hroot hstandsB hqs

/-- A dentry may stand for the object and not have the mode of a directory. -/
def NotDirectory (Stands : Dentry → Obj → Prop) (o : Obj) : Prop :=
  ∃ dentry, Stands dentry o ∧ (dentry.iMode >>> 12) &&& 0xF ≠ 4

/-- The current directory is replaced, or the object is no directory and nothing is
allocated. -/
theorem enter_after (h : Working T Stands g d ino cwd m) {o : Obj}
    (hlinked : Linked T Stands m e o m') :
    After (fun r m'' => (r = -1 ∧ NotDirectory Stands o ∧ m''.live.Perm m.live) ∨
        (r = 0 ∧ Working T Stands g d ino o m''))
      (fun _ => False) (enter (.heap e) m') := by
  obtain ⟨ps, others, hps, hown⟩ := h.chain
  obtain ⟨cs, hcs, hnew⟩ := hlinked.chain
  have helive : m'.Live e := hnew.isLive List.mem_cons_self
  unfold enter
  refine After.bind_ok (readNode_eq helive) ?_
  by_cases hmode : ((m'.node e).dentry.iMode >>> 12) &&& 0xF ≠ 4
  · obtain ⟨m₁, hfree, hown₁, -⟩ := freeDentry_links (Links.heap hcs.links) hnew
    rw [if_pos hmode]
    exact After.bind_ok hfree (After.pure (Or.inl ⟨rfl, ⟨_, hlinked.stands, hmode⟩, hown₁.live⟩))
  · have hps' : Links m'.node m'.cur.dParent ps := by
      rw [hlinked.cur]
      refine hps.links.congr fun p hp => ?_
      exact congrArg Node.dParent (hlinked.node _ (hown.mem hp))
    have hall : Owned m' (ps ++ (e :: cs)) others := by
      refine ⟨hnew.consistent, hnew.live.trans ?_⟩
      rw [List.map_append, List.append_assoc]
      refine (hown.live.append_left _).trans ?_
      exact List.perm_append_comm_assoc _ _ _
    obtain ⟨m₁, hfree, hown₁, hsame⟩ := freeDentry_links hps' (Owned.append_iff.mp hall)
    have hown₁' : Owned m₁ (e :: cs) others := Owned.append_iff.mpr hown₁
    have helive₁ : m₁.Live e := hown₁'.isLive List.mem_cons_self
    generalize hm₂ : ({ m₁ with cur := m₁.node e } : Mem) = m₂
    have hown₂ : Owned m₂ (e :: cs) others := by
      rw [← hm₂]
      exact hown₁'.of_heap rfl rfl
    obtain ⟨m₃, hfree', hown₃, hsame'⟩ := free_eq hown₂
    have hset : setCur (m₁.node e) m₁ = .ok ((), m₂) := by
      rw [← hm₂]
      rfl
    rw [if_neg hmode]
    refine After.bind_ok rfl (After.bind_ok hfree (After.bind_ok (readNode_eq helive₁)
      (After.bind_ok hset (After.bind_ok hfree' (After.pure (Or.inr ⟨rfl, ?_⟩))))))
    have hnode : m₃.node = m'.node := by
      rw [hsame'.node, ← hm₂, hsame.node]
    have hcur : m₃.cur = m'.node e := by
      rw [hsame'.cur, ← hm₂, hsame.node]
    have hsRoot : m₃.sRoot = m.sRoot := by
      rw [hsame'.sRoot, ← hm₂, hsame.sRoot, hlinked.sRoot]
    have hdisk : m₃.disk = m.disk := by
      rw [hsame'.disk, ← hm₂, hsame.disk, hlinked.disk]
    refine ⟨h.setting.congr hsRoot hdisk, Or.inr ⟨hlinked.ne, ?_⟩, cs, others, ?_, hown₃⟩
    · rw [hcur]
      exact hlinked.stands
    · rw [hcur, hnode]
      exact hcs

/-- `sys_cd` on a path that it follows: the current directory is replaced, or nothing is
allocated. -/
theorem sysCd_followed (h : Working T Stands g d ino cwd m) {o : Obj}
    (hresolved : Resolved T Stands m b e (.found o) 0 m') :
    After (fun r m'' => (r = -1 ∧ NotDirectory Stands o ∧ m''.live.Perm m.live) ∨
        (r = 0 ∧ Working T Stands g d ino o m''))
      (fun _ => False)
      ((do
        let node ← readNode (.heap e)
        let dent := if firstChar node.dentry = slash then .sRoot else .heap e
        linkRoot dent
        enter dent : Run Int) m') := by
  obtain ⟨-, helive⟩ := hresolved.isLive
  have hset := h.setting.congr hresolved.sRoot hresolved.disk
  obtain ⟨⟨-, hshows, -⟩, -⟩ := hresolved.delivered
  refine After.bind_ok (readNode_eq helive) ?_
  by_cases hroot : o = T.root
  · subst hroot
    obtain ⟨ps, others, hps, hown⟩ := h.chain
    obtain ⟨qs, -, hnew⟩ := hresolved.chain
    have hps' : Links m'.node m'.cur.dParent ps := by
      rw [hresolved.cur]
      refine hps.links.congr fun p hp => ?_
      exact congrArg Node.dParent (hresolved.node _ (hown.mem hp))
    have hall : Owned m' (ps ++ (e :: b :: qs)) others := by
      refine ⟨hnew.consistent, hnew.live.trans ?_⟩
      rw [List.map_append, List.append_assoc]
      refine (hown.live.append_left _).trans ?_
      exact List.perm_append_comm_assoc _ _ _
    obtain ⟨m₁, hfree, hown₁, hsame⟩ := freeDentry_links hps' (Owned.append_iff.mp hall)
    have hslash : firstChar (m'.node e).dentry = slash := (hshows.slash_iff hset).mpr rfl
    have hmode : ¬ (m'.sRoot.iMode >>> 12) &&& 0xF ≠ 4 := not_not.mpr hset.rootMode
    have hsRoot : m₁.sRoot = m.sRoot := hsame.sRoot.trans hresolved.sRoot
    rw [if_pos hslash]
    unfold linkRoot enter
    refine After.bind (After.bind_ok (readNode_sRoot m') (After.bind_ok (readNode_sRoot m') ?_))
    rw [if_neg (by simp)]
    refine After.pure (After.bind_ok (readNode_sRoot m') ?_)
    rw [if_neg hmode]
    refine After.bind_ok rfl (After.bind_ok hfree (After.bind_ok (readNode_sRoot m₁)
      (After.bind_ok rfl (After.bind_ok rfl (After.pure (Or.inr ⟨rfl, ?_⟩))))))
    refine ⟨h.setting.congr hsRoot (hsame.disk.trans hresolved.disk), Or.inl ⟨rfl, rfl⟩,
      [], _, ?_, hown₁.of_heap rfl rfl⟩
    rw [T.parent_root]
    exact Leads.sRoot
  · rw [if_neg fun hslash => hroot ((hshows.slash_iff hset).mp hslash)]
    refine After.bind ((linkRoot_after h hroot hresolved).mono ?_ fun _ hfault => hfault)
    exact fun _ m'' hlinked => enter_after h hlinked

/-- `sys_cd`: what holds behind it. -/
theorem sysCd_after (h : Working T Stands g d ino cwd m) (sc : Scratch) (hnul : 0 ∉ fname) :
    After (fun r m' =>
        (r = -1 ∧ (FollowedPath T cwd fname → m'.live.Perm m.live) ∧
          (¬ FollowedPath T cwd fname → ¬ m'.live.Perm m.live)) ∨
        (r = 0 ∧ FollowedPath T cwd fname ∧ ∃ o, T.resolve pathSyntax cwd fname = .found o ∧
          Working T Stands g d ino o m'))
      (fun fault => fault = .outOfMemory ∨ ¬ FollowedPath T cwd fname)
      (sysCd g.sb sc fname m) := by
  unfold sysCd
  refine After.bind ((parseFresh_after h sc hnul).mono ?_ fun _ hfault => hfault)
  rintro ⟨r, b, e⟩ m' (⟨hfollowed, hresolved⟩ | ⟨hnot, hret, hmem, hfresh⟩)
  · simp only at hresolved
    rcases hresolved.ret with ⟨rfl, o, hfound, -⟩ | ⟨rfl, -⟩
    · rw [hfound] at hresolved ⊢
      refine (sysCd_followed h hresolved).mono ?_ fun _ hfault => absurd hfault id
      rintro r m'' (⟨hr, -, hperm⟩ | ⟨hr, hworking⟩)
      · exact Or.inl ⟨hr, fun _ => hperm, fun hnot => absurd hfollowed hnot⟩
      · exact Or.inr ⟨hr, hfollowed, o, rfl, hworking⟩
    · obtain ⟨m₂, hfree, hperm⟩ := freeDentry_resolved hresolved (fun _ => rfl) rfl rfl
      exact After.bind_ok hfree (After.pure (Or.inl ⟨rfl, fun _ => hperm,
        fun hnot => absurd hfollowed hnot⟩))
  · simp only at hret
    subst hret
    refine After.pure (Or.inl ⟨rfl, fun hfollowed => absurd hfollowed hnot, fun _ hperm => ?_⟩)
    exact hfresh (hperm.mem_iff.mp hmem)

theorem sysCd_accounts (h : Working T Stands g d ino cwd m) (sc : Scratch) (hnul : 0 ∉ fname) :
    Accounts (FollowedPath T cwd fname) (fun r => r = -1) m (sysCd g.sb sc fname m) := by
  refine (sysCd_after h sc hnul).mono ?_ ?_
  · rintro r m' (⟨hr, hgood, hbad⟩ | ⟨hr, hfollowed, -⟩)
    · by_cases hfollowed : FollowedPath T cwd fname
      · exact Or.inl ⟨hfollowed, fun _ => hgood hfollowed⟩
      · exact Or.inr ⟨hfollowed, hr, hbad hfollowed⟩
    · subst hr
      exact Or.inl ⟨hfollowed, fun h => absurd h (by decide)⟩
  · rintro fault (hfault | hnot)
    · exact Or.inl hfault
    · exact Or.inr (Or.inr hnot)

end Accounts

/-! ## The calls -/

/-- The calls: opening a file and closing it again, and the system calls with a path. -/
inductive Call where
  | openClose
  | create
  | rm
  | mkdir
  | cd

namespace Call

/-- The function. -/
def run (sb : Super) (sc : Scratch) (fuel : Nat) (self : OpenFile) :
    Call → List UInt8 → Run Int
  | openClose, fname => Vfs.openClose sb sc self fname
  | create, fname => sysCreate sb sc fname
  | rm, fname => sysRm sb sc fuel fname
  | mkdir, dirName => sysMkdir sb sc dirName
  | cd, dirName => sysCd sb sc dirName

/-- The return values after which nothing may be left over: all, except that a successful
`sys_cd` keeps what it has allocated. -/
def Obliged : Call → Int → Prop
  | cd, r => r = -1
  | _, _ => True

/-- The condition for a call to leave nothing over. -/
def Tidy {Obj : Type} (T : Tree (List UInt8) Obj) (ino : Obj → Nat) (cwd : Obj) :
    Call → List UInt8 → Prop
  | rm, fname => FollowedPath T cwd fname ∧ NotCurrent T ino cwd fname
  | _, fname => FollowedPath T cwd fname

/-- The end of a call has the objects of the heap that there were before it. -/
def KeepsHeap (call : Call) (m : Mem) : Except Fault (Int × Mem) → Prop :=
  After (fun r m' => call.Obliged r → m'.live.Perm m.live) (fun _ => False)

section Calls

variable {Obj : Type} {T : Tree (List UInt8) Obj} {Stands : Dentry → Obj → Prop} {g : Geometry}
  {d : Disk} {ino : Obj → Nat} {cwd : Obj} {m : Mem} {fname : List UInt8}

theorem accounts (call : Call) (h : Working T Stands g d ino cwd m) (sc : Scratch) (fuel : Nat)
    (self : OpenFile) (hnul : 0 ∉ fname) :
    Accounts (call.Tidy T ino cwd fname) call.Obliged m (call.run g.sb sc fuel self fname m) := by
  cases call with
  | openClose => exact openClose_accounts h sc hnul self
  | create => exact sysCreate_accounts h sc hnul
  | rm => exact sysRm_accounts h sc fuel hnul
  | mkdir => exact sysMkdir_accounts h sc hnul
  | cd => exact sysCd_accounts h sc hnul

/-- A call that ends keeps the objects of the heap if and only if the path is followed and,
for `sys_rm`, does not lead to the current directory. -/
theorem keepsHeap_iff (call : Call) (h : Working T Stands g d ino cwd m) (sc : Scratch)
    (fuel : Nat) (self : OpenFile) (hnul : 0 ∉ fname)
    (hmem : call.run g.sb sc fuel self fname m ≠ .error .outOfMemory)
    (hret : call.run g.sb sc fuel self fname m ≠ .error .noReturn) :
    call.KeepsHeap m (call.run g.sb sc fuel self fname m) ↔ call.Tidy T ino cwd fname := by
  have hends := call.accounts h sc fuel self hnul
  cases hrun : call.run g.sb sc fuel self fname m with
  | ok res =>
      rcases hends.ok hrun with ⟨htidy, hkeeps⟩ | ⟨hbad, hobliged, hlost⟩
      · exact ⟨fun _ => htidy, fun _ => hkeeps⟩
      · exact ⟨fun hkeeps => absurd (hkeeps hobliged) hlost, fun htidy => absurd htidy hbad⟩
  | error fault =>
      rcases hends.fails hrun with rfl | rfl | hbad
      · exact absurd hrun hmem
      · exact absurd hrun hret
      · exact ⟨fun hkeeps => absurd hkeeps id, fun htidy => absurd htidy hbad⟩

end Calls
end Call

/-! ## A memory -/

/-- A dentry has the inode number of an object, and its name does not start with a slash. -/
def Entry {Obj : Type} (ino : Obj → Nat) (dentry : Dentry) (o : Obj) : Prop :=
  dentry.iIno = ino o ∧ firstChar dentry ≠ slash

theorem reads_entry {Obj : Type} (T : Tree (List UInt8) Obj) (v : View) (ino : Obj → Nat) :
    Reads T (Entry ino) v ino where
  iIno _ _ h := h.1
  name _ _ h := h.2
  found o n c dentry _ hn hfilled hname := by
    refine ⟨hfilled.iIno, ?_⟩
    rw [firstChar, hname]
    obtain ⟨c, rest, rfl⟩ := List.exists_cons_of_ne_nil hn.ne_nil
    exact fun hslash => hn.slash (by rw [← hslash]; exact List.mem_cons_self)

/-- The root of the superblock of `treeDisk`. -/
def treeRoot : Dentry := ⟨[slash], 1, 1024, 2, 0x41FF⟩

/-- The memory behind the start of the system, with `treeDisk`. -/
def bootMem : Mem where
  heap := Heap.heapInit 0 Heap.blankHeap
  live := []
  node _ := ⟨treeRoot, .sRoot⟩
  sRoot := treeRoot
  cur := ⟨treeRoot, .sRoot⟩
  disk := treeDisk

theorem working_bootMem :
    Working smallTree (Entry Place.ino) smallGroup treeDisk Place.ino .root bootMem := by
  refine ⟨⟨mounts_treeDisk, onDisk_treeDisk, reads_entry _ _ _, fun o n h => ?_, rfl, rfl, rfl,
    by decide⟩, Or.inl ⟨rfl, rfl⟩, [], [], Leads.sRoot, ?_, List.Perm.refl _⟩
  · cases o with
    | root =>
        obtain ⟨-, hc⟩ := Option.ite_none_right_eq_some.mp h
        exact absurd hc (by simp [smallTree])
    | dir =>
        obtain ⟨-, hc⟩ := Option.ite_none_right_eq_some.mp h
        exact absurd hc (by simp [smallTree])
    | file => exact absurd h (by simp [smallTree])
  · exact Heap.consistent_heapInit 0 fun _ => rfl

theorem malloc_ok {m : Mem} {size : Nat} (h : (Heap.malloc m.heap size).1 ≠ 0) :
    malloc size m = .ok ((Heap.malloc m.heap size).1, { m with
      heap := (Heap.malloc m.heap size).2
      live := ⟨(Heap.malloc m.heap size).1, size⟩ :: m.live }) := by
  unfold malloc
  exact if_neg h

/-- A `malloc` that does not fail. -/
theorem malloc_of_ne_null {m : Mem} {ps : List Nat} {rest : List Heap.Obj} (hown : Owned m ps rest)
    (h : (Heap.malloc m.heap sizeofDentry).1 ≠ 0) :
    ∃ p m', malloc sizeofDentry m = .ok (p, m') ∧ Owned m' (p :: ps) rest ∧ SameNodes m m' ∧
      m'.heap = (Heap.malloc m.heap sizeofDentry).2 := by
  have hrun := malloc_ok h
  rcases malloc_cases hown with hfail | ⟨p, m', halloc, hown', hsame⟩
  · rw [hfail] at hrun
    cases hrun
  · refine ⟨p, m', halloc, hown', hsame, ?_⟩
    rw [halloc] at hrun
    cases hrun
    rfl

/-- The two dentries that a function allocates in this memory. -/
theorem mallocs_bootMem :
    ∃ b e m₁ m₂, malloc sizeofDentry bootMem = .ok (b, m₁) ∧
      malloc sizeofDentry m₁ = .ok (e, m₂) ∧ b ≠ e ∧
      Owned m₂ [] [dentryObj e, dentryObj b] ∧ SameNodes bootMem m₂ := by
  have hfirst : (Heap.malloc bootMem.heap sizeofDentry).1 ≠ 0 := by decide +kernel
  have hsecond : (Heap.malloc (Heap.malloc bootMem.heap sizeofDentry).2 sizeofDentry).1 ≠ 0 := by
    decide +kernel
  obtain ⟨b, m₁, hallocB, hown₁, hsame₁, hheap⟩ := malloc_of_ne_null working_bootMem.owned hfirst
  rw [← hheap] at hsecond
  obtain ⟨e, m₂, hallocE, hown₂, hsame₂, -⟩ := malloc_of_ne_null hown₁ hsecond
  exact ⟨b, e, m₁, m₂, hallocB, hallocE, fun heq => hown₂.notMem (heq ▸ List.mem_cons_self),
    ⟨hown₂.consistent, hown₂.live⟩, hsame₁.trans hsame₂⟩

/-- `parse_path` with a slash and one more character, in this memory: the two dentries are all
that it needs of the heap. -/
theorem parseFresh_short {Stands : Dentry → Place → Prop}
    (hset : Setting smallTree Stands smallGroup treeDisk Place.ino bootMem) (sc : Scratch)
    {c : UInt8} (hname : Component [c]) :
    After (fun r m' => Resolved smallTree Stands bootMem r.2.1 r.2.2
        ((smallTree.step pathSyntax .root [c]).elim (.missing .root [c]) .found) r.1 m')
      (fun _ => False) (parseFresh smallGroup.sb sc [slash, c] bootMem) := by
  have hslash : c ≠ slash := fun h => hname.slash (h ▸ List.mem_cons_self)
  have hmallocs := mallocs_bootMem
  have hlive : bootMem.live = [] := rfl
  generalize bootMem = m at hmallocs hset hlive ⊢
  obtain ⟨b, e, m₁, m₂, hallocB, hallocE, hbe, hown, hsame⟩ := hmallocs
  have hset₂ := hset.congr hsame.sRoot hsame.disk
  have htext : StartsWith (Function.update (Function.update sc.name 0 c) 1 0) [c] :=
    startsWith_update (s := [c]) rfl
  have hlast := heapParseLast_after hset₂ sc Leads.sRoot hown (b := b) (e := e) (by simp) (by simp)
    hbe htext hname.slash hname.nul hname.ne_nil hname.short
  have hloop : heapParseLoop smallGroup.sb sc [c] 0 0 sc.name .sRoot .stray m₂ =
      .ok (.left (Function.update sc.name 0 c) 1 .sRoot, m₂) := by
    simp only [heapParseLoop, hslash, false_and, if_false]
    rfl
  have hfirst : ¬ [slash, c].getD 0 0 = 0 := show ¬ slash = 0 by decide
  have hhead : [slash, c].getD 0 0 = slash ∧ [slash, c].getD 1 0 ≠ slash := ⟨rfl, hslash⟩
  have hthird : ¬ ([slash, c].tail.getD 0 0 = slash ∧ [slash, c].tail.getD 1 0 = slash) :=
    fun h => hslash h.1
  unfold parseFresh heapParsePath
  refine After.bind_ok hallocB (After.bind_ok hallocE (After.bind (After.bind_ok rfl ?_)))
  rw [if_neg hfirst, if_pos (Or.inl hhead.1), if_pos hhead]
  simp only [if_neg hthird]
  refine After.bind_ok hloop ?_
  refine hlast.mono ?_ fun _ hfault => hfault
  rintro r m' ⟨hframe, hdelivered⟩
  refine After.pure ⟨?_, fun o ho => ?_, ?_, ?_, ?_⟩
  · rw [hlive]
    exact hdelivered
  · rw [hlive] at ho
    exact absurd ho List.not_mem_nil
  · rw [hframe.sRoot, hsame.sRoot]
  · rw [hframe.cur, hsame.cur]
  · rw [hframe.disk, hsame.disk]

/-- The empty path on this memory: two dentries are left. -/
theorem openClose_empty (sc : Scratch) (fuel : Nat) (self : OpenFile) :
    After (fun r m' => r = -1 ∧ m'.live.length = 2) (fun _ => False)
      (Call.run smallGroup.sb sc fuel self .openClose [] bootMem) := by
  obtain ⟨b, e, m₁, m₂, hallocB, hallocE, -, hown, -⟩ := mallocs_bootMem
  have hlength : m₂.live.length = 2 := hown.live.length_eq
  unfold Call.run openClose heapFopen parseFresh
  simp only [bind_assoc, pure_bind]
  exact After.bind_ok hallocB (After.bind_ok hallocE ⟨rfl, hlength⟩)

/-- `file_fopen` with an empty path does not keep the objects of the heap. -/
theorem not_keepsHeap_empty :
    Working smallTree (Entry Place.ino) smallGroup treeDisk Place.ino .root bootMem ∧
      ¬ Call.openClose.KeepsHeap bootMem (Call.run smallGroup.sb ⟨default, fun _ => 0, default⟩ 0
        ⟨.other, ⟨treeRoot, .sRoot⟩, 0⟩ .openClose [] bootMem) := by
  refine ⟨working_bootMem, fun hkeeps => ?_⟩
  have hrun := openClose_empty ⟨default, fun _ => 0, default⟩ 0 ⟨.other, ⟨treeRoot, .sRoot⟩, 0⟩
  cases hends : Call.run smallGroup.sb ⟨default, fun _ => 0, default⟩ 0
      ⟨.other, ⟨treeRoot, .sRoot⟩, 0⟩ .openClose [] bootMem with
  | ok res =>
      have hlive := (hkeeps.ok hends) trivial
      have hlength := (hrun.ok hends).2
      rw [hlive.length_eq] at hlength
      exact absurd hlength (by decide)
  | error fault => exact hrun.fails hends

theorem component_d : Component [100] :=
  ⟨by decide, by decide, by decide, by decide, by decide, by decide⟩

/-- The directory "/d" is looked up, opened and closed. -/
theorem openClose_directory (sc : Scratch) (fuel : Nat) (self : OpenFile) (fault : Fault) :
    Call.run smallGroup.sb sc fuel self .openClose [slash, 100] bootMem ≠ .error fault := by
  have hrun : After (fun _ m' => m'.live.Perm bootMem.live) (fun _ => False)
      (openClose smallGroup.sb sc self [slash, 100] bootMem) := by
    unfold openClose heapFopen
    rw [bind_assoc]
    refine After.bind ((parseFresh_short working_bootMem.setting sc component_d).mono ?_
      fun _ hfault => hfault)
    rintro ⟨r, b, e⟩ m' hresolved
    rcases hresolved.ret with ⟨rfl, -⟩ | ⟨-, hmissing⟩
    · simp only [ne_eq, not_true_eq_false, if_false, bind_assoc, pure_bind, if_true]
      exact openClose_found hresolved self
    · exact absurd rfl (hmissing .dir)
  exact hrun.ne_error fault

/-- `keepsHeap_iff` for a directory that is found in the root. -/
theorem keepsHeap_iff_directory :
    Call.openClose.KeepsHeap bootMem (Call.run smallGroup.sb ⟨default, fun _ => 0, default⟩ 0
        ⟨.other, ⟨treeRoot, .sRoot⟩, 0⟩ .openClose [slash, 100] bootMem) ↔
      Call.openClose.Tidy smallTree Place.ino .root [slash, 100] :=
  Call.keepsHeap_iff .openClose working_bootMem _ _ _ (by decide)
    (openClose_directory _ _ _ _) (openClose_directory _ _ _ _)

end Vfs
end NochOS
