import NochOS.Vfs.Dentries

/-!
# VFS - what parse_path does to the heap

`parse_path` copies the dentries from the current directory to the root, exchanges them
for others while it goes through the path, and hands what is left over to its caller
behind the two dentries that the caller has allocated.  This module follows the pointers:
at each moment a chain of new dentries leads to the object reached so far, and nothing else
was allocated.  On the way out through an error the dentries of the caller are lost.

Main results:

- Definition `Leads`: the chain of an object.
- Theorem `heapParsePath_ends`: the end of the function, for every path.
-/

namespace NochOS
namespace Vfs

open Library Ext2

/-! ## Chains of objects -/

section Chains

variable {Obj : Type} (T : Tree (List UInt8) Obj) (Stands : Dentry → Obj → Prop)

/-- A pointer leads to an object, and through the parents of the dentry to its parents.
The root is `superblock.s_root` itself. -/
inductive Leads (node : Nat → Node) : Ptr → Obj → List Nat → Prop where
  | sRoot : Leads node .sRoot T.root []
  | heap {p : Nat} {o : Obj} {ps : List Nat} (hne : o ≠ T.root)
      (hstands : Stands (node p).dentry o)
      (hparent : Leads node (node p).dParent (T.parent o) ps) : Leads node (.heap p) o (p :: ps)

/-- A dentry shows an object: the root as it is in the superblock, or another object. -/
def Shows (sRoot dentry : Dentry) (o : Obj) : Prop :=
  (o = T.root ∧ dentry = sRoot) ∨ (o ≠ T.root ∧ Stands dentry o)

/-- A name that leads from an object to another one below it. -/
structure Component (n : List UInt8) : Prop where
  ne_nil : n ≠ []
  slash : slash ∉ n
  nul : 0 ∉ n
  dot : n ≠ dot
  dotDot : n ≠ dotDot
  short : n.length < fnameLen

/-- What it means for a dentry to stand for an object other than the root: at least to have
its inode number and another name than "/", and no more than what a lookup fills in. -/
structure Reads (v : View) (ino : Obj → Nat) : Prop where
  iIno : ∀ dentry o, Stands dentry o → dentry.iIno = ino o
  name : ∀ dentry o, Stands dentry o → firstChar dentry ≠ slash
  found : ∀ o n c dentry, T.child o n = some c → Component n → Filled v dentry (ino c) →
    dentry.filename = n → Stands dentry c

/-- The device holds the tree, whose root is nobody's child, and the superblock knows the
root. -/
structure Setting (g : Geometry) (d : Disk) (ino : Obj → Nat) (m : Mem) : Prop where
  mounts : Mounts g (view g d) T ino
  onDisk : OnDisk g d
  reads : Reads T Stands (view g d) ino
  proper : ∀ o n, T.child o n ≠ some T.root
  disk : m.disk = d
  rootIno : m.sRoot.iIno = ino T.root
  rootName : firstChar m.sRoot = slash
  rootMode : (m.sRoot.iMode >>> 12) &&& 0xF = 4

/-- The dentry behind a pointer. -/
def Mem.at (m : Mem) : Ptr → Node
  | .sRoot => ⟨m.sRoot, .sRoot⟩
  | .heap p => m.node p
  | .stray => m.cur

variable {T Stands} {node node' : Nat → Node} {m m' : Mem} {q : Ptr} {o : Obj} {ps : List Nat}
  {rest : List Heap.Obj}

theorem Leads.links (h : Leads T Stands node q o ps) : Links node q ps := by
  induction h with
  | sRoot => exact Links.sRoot
  | heap _ _ _ ih => exact Links.heap ih

theorem Leads.congr (h : Leads T Stands node q o ps) (hsame : ∀ p ∈ ps, node' p = node p) :
    Leads T Stands node' q o ps := by
  induction h with
  | sRoot => exact Leads.sRoot
  | @heap p o ps hne hstands _ ih =>
      have hp := hsame p List.mem_cons_self
      refine Leads.heap hne (by rw [hp]; exact hstands) ?_
      rw [hp]
      exact ih fun p hp => hsame p (List.mem_cons_of_mem _ hp)

theorem Leads.of_nil (h : Leads T Stands node q o []) : q = .sRoot ∧ o = T.root := by
  cases h with
  | sRoot => exact ⟨rfl, rfl⟩

theorem Leads.of_cons {p : Nat} (h : Leads T Stands node q o (p :: ps)) :
    q = .heap p ∧ o ≠ T.root ∧ Stands (node p).dentry o ∧
      Leads T Stands node (node p).dParent (T.parent o) ps := by
  cases h with
  | heap hne hstands hparent => exact ⟨rfl, hne, hstands, hparent⟩

theorem Leads.of_root (h : Leads T Stands node q T.root ps) : q = .sRoot ∧ ps = [] := by
  cases h with
  | sRoot => exact ⟨rfl, rfl⟩
  | heap hne _ _ => exact absurd rfl hne

/-- The dentry at the start of a chain can be read. -/
theorem Leads.read (h : Leads T Stands m.node q o ps) (hlive : ∀ p ∈ ps, m.Live p) :
    readNode q m = .ok (m.at q, m) := by
  cases h with
  | sRoot => rfl
  | heap _ _ _ => exact readNode_eq (hlive _ List.mem_cons_self)

/-- The chain of the parent. -/
theorem Leads.parent (h : Leads T Stands m.node q o ps) :
    Leads T Stands m.node (m.at q).dParent (T.parent o) ps.tail := by
  cases h with
  | sRoot =>
      rw [T.parent_root]
      exact Leads.sRoot
  | heap _ _ hparent => exact hparent

theorem Leads.shows (h : Leads T Stands m.node q o ps) :
    Shows T Stands m.sRoot (m.at q).dentry o := by
  cases h with
  | sRoot => exact Or.inl ⟨rfl, rfl⟩
  | heap hne hstands _ => exact Or.inr ⟨hne, hstands⟩

section Settings

variable {g : Geometry} {d : Disk} {ino : Obj → Nat} {dentry : Dentry}

theorem Setting.congr (h : Setting T Stands g d ino m) (hroot : m'.sRoot = m.sRoot)
    (hdisk : m'.disk = m.disk) : Setting T Stands g d ino m' where
  mounts := h.mounts
  onDisk := h.onDisk
  reads := h.reads
  proper := h.proper
  disk := hdisk.trans h.disk
  rootIno := by rw [hroot, h.rootIno]
  rootName := by rw [hroot, h.rootName]
  rootMode := by rw [hroot, h.rootMode]

theorem Shows.iIno (h : Shows T Stands m.sRoot dentry o) (hset : Setting T Stands g d ino m) :
    dentry.iIno = ino o := by
  rcases h with ⟨rfl, rfl⟩ | ⟨-, hstands⟩
  · exact hset.rootIno
  · exact hset.reads.iIno _ _ hstands

/-- Only the root is called "/". -/
theorem Shows.slash_iff (h : Shows T Stands m.sRoot dentry o)
    (hset : Setting T Stands g d ino m) : firstChar dentry = slash ↔ o = T.root := by
  rcases h with ⟨rfl, rfl⟩ | ⟨hne, hstands⟩
  · exact ⟨fun _ => rfl, fun _ => hset.rootName⟩
  · exact ⟨fun h => absurd h (hset.reads.name _ _ hstands), fun h => absurd h hne⟩

end Settings

/-! ## Parts of the function -/

/-- The first dentry of a chain is freed, unless the chain is empty. -/
theorem freeUnlessRoot_leads {qs : List Nat} (h : Leads T Stands node q o ps)
    (hown : Owned m (ps.take 1 ++ qs) rest) :
    ∃ m', freeUnlessRoot q m = .ok ((), m') ∧ Owned m' qs rest ∧ SameNodes m m' := by
  cases h with
  | sRoot => exact ⟨m, rfl, hown, SameNodes.refl m⟩
  | heap _ _ _ =>
      obtain ⟨m', hrun, hown', hsame⟩ := free_eq hown
      exact ⟨m', hrun, hown', hsame⟩

theorem setParent_eq {p : Nat} (hp : m.Live p) (q : Ptr) :
    setParent (.heap p) q m = .ok ((), m.set p { m.node p with dParent := q }) := by
  simp only [setParent, bind, StateT.bind, Except.bind, readNode_eq hp]
  exact writeNode_eq hp _

theorem copyNode_eq {p : Nat} (hp : m.Live p) {src : Ptr} {node : Node}
    (hsrc : readNode src m = .ok (node, m)) :
    copyNode (.heap p) src m = .ok ((), m.set p node) := by
  simp only [copyNode, bind, StateT.bind, Except.bind, hsrc]
  exact writeNode_eq hp _

@[simp] theorem node_set_self (m : Mem) (p : Nat) (node : Node) : (m.set p node).node p = node :=
  Function.update_self _ _ _

theorem node_set_of_ne (m : Mem) {p p' : Nat} (h : p' ≠ p) (node : Node) :
    (m.set p node).node p' = m.node p' := Function.update_of_ne h _ _

@[simp] theorem live_set (m : Mem) (p p' : Nat) (node : Node) :
    (m.set p node).Live p' ↔ m.Live p' := Iff.rfl

@[simp] theorem sRoot_set (m : Mem) (p : Nat) (node : Node) : (m.set p node).sRoot = m.sRoot := rfl

@[simp] theorem disk_set (m : Mem) (p : Nat) (node : Node) : (m.set p node).disk = m.disk := rfl

@[simp] theorem cur_set (m : Mem) (p : Nat) (node : Node) : (m.set p node).cur = m.cur := rfl

theorem set_node (m : Mem) (p : Nat) : m.set p (m.node p) = m := by
  unfold Mem.set
  rw [Function.update_eq_self]

section Lookups

variable {g : Geometry} {d : Disk} {ino : Obj → Nat}

/-- A lookup answers as the tree does. -/
theorem lookup_cases (hset : Setting T Stands g d ino m) (h : Leads T Stands m.node q o ps)
    (hlive : ∀ p ∈ ps, m.Live p) {p : Nat} (hp : m.Live p) {n : List UInt8} (hn : Component n)
    (sc : Scratch) :
    (T.child o n = none ∧ lookup g.sb sc q (.heap p) n m = .ok (-1, m)) ∨
      ∃ c dentry, T.child o n = some c ∧
        lookup g.sb sc q (.heap p) n m = .ok (0, m.set p { m.node p with dentry := dentry }) ∧
        Stands dentry c := by
  have hino := h.shows.iIno hset
  have hrun : ∀ res found,
      ilookup g.sb d sc.stk (ino o) (m.node p).dentry n = some (res, found) →
        lookup g.sb sc q (.heap p) n m =
          .ok (res, m.set p { m.node p with dentry := found }) := by
    intro res found hfound
    simp only [lookup, bind, StateT.bind, Except.bind, h.read hlive, readNode_eq hp, get,
      getThe, MonadStateOf.get, StateT.get, pure, Except.pure, hset.disk, hino, hfound,
      writeNode_eq hp]
    rfl
  rcases hset.mounts.ilookup_named hset.onDisk o hn.nul hn.dot hn.dotDot sc.stk (m.node p).dentry
    with ⟨hchild, hmissing⟩ | ⟨c, dentry, hchild, hfound, hfilled, hname⟩
  · left
    have hsame := hrun _ _ hmissing
    rw [set_node] at hsame
    exact ⟨hchild, hsame⟩
  · right
    exact ⟨c, dentry, hchild, hrun _ _ hfound,
      hset.reads.found o n c dentry hchild hn hfilled hname⟩

end Lookups

/-! ## What the function leaves alone -/

/-- The dentries among the given objects are the same in two memories, except two. -/
structure Frame (b e : Nat) (rest : List Heap.Obj) (m m' : Mem) : Prop where
  node : ∀ o ∈ rest, o.ptr ≠ b → o.ptr ≠ e → m'.node o.ptr = m.node o.ptr
  sRoot : m'.sRoot = m.sRoot
  cur : m'.cur = m.cur
  disk : m'.disk = m.disk

section Frames

variable {b e : Nat} {m₁ : Mem}

theorem Frame.refl (b e : Nat) (rest : List Heap.Obj) (m : Mem) : Frame b e rest m m :=
  ⟨fun _ _ _ _ => rfl, rfl, rfl, rfl⟩

theorem Frame.trans (h : Frame b e rest m m₁) (h' : Frame b e rest m₁ m') :
    Frame b e rest m m' where
  node o ho hb he := (h'.node o ho hb he).trans (h.node o ho hb he)
  sRoot := h'.sRoot.trans h.sRoot
  cur := h'.cur.trans h.cur
  disk := h'.disk.trans h.disk

theorem SameNodes.frame (h : SameNodes m m') : Frame b e rest m m' :=
  ⟨fun _ _ _ _ => by rw [h.node], h.sRoot, h.cur, h.disk⟩

theorem Frame.set (h : Frame b e rest m m') {p : Nat}
    (hp : ∀ o ∈ rest, o.ptr ≠ b → o.ptr ≠ e → o.ptr ≠ p) (node : Node) :
    Frame b e rest m (m'.set p node) where
  node o ho hb he := by
    rw [node_set_of_ne m' (hp o ho hb he), h.node o ho hb he]
  sRoot := h.sRoot
  cur := h.cur
  disk := h.disk

theorem Frame.setting {g : Geometry} {d : Disk} {ino : Obj → Nat} (h : Frame b e rest m m')
    (hset : Setting T Stands g d ino m) : Setting T Stands g d ino m' :=
  hset.congr h.sRoot h.disk

/-- A new dentry that is written at once, whatever is written. -/
theorem malloc_set_cases (h : Owned m ps rest) :
    malloc sizeofDentry m = .error .outOfMemory ∨
      ∃ p m₁, malloc sizeofDentry m = .ok (p, m₁) ∧ m₁.Live p ∧ p ∉ ps ∧ m₁.node = m.node ∧
        ∀ b e node, Owned (m₁.set p node) (p :: ps) rest ∧ Frame b e rest m (m₁.set p node) := by
  rcases malloc_cases h with hfail | ⟨p, m₁, halloc, hown₁, hsame⟩
  · exact Or.inl hfail
  · refine Or.inr ⟨p, m₁, halloc, hown₁.isLive List.mem_cons_self, hown₁.notMem, hsame.node,
      fun b e node => ⟨hown₁.set _ _, ?_⟩⟩
    exact hsame.frame.set (fun x hx _ _ => hown₁.ne_rest List.mem_cons_self hx) _

end Frames

/-! ## A pointer that was left behind -/

/-- `free_dentry` on the pointer does not reach the given objects: the pointer was never
written, its object is gone, or it leads along a chain without them. -/
inductive Safe (keep : List Heap.Obj) (m : Mem) : Ptr → Prop where
  | stray : Safe keep m .stray
  | freed {p : Nat} (h : ¬ m.Live p) : Safe keep m (.heap p)
  | chain {q : Ptr} {qs : List Nat} (hlinks : Links m.node q qs)
      (hlive : ∀ p ∈ qs, dentryObj p ∈ m.live) (hnodup : qs.Nodup)
      (hkeep : ∀ x ∈ keep, x.ptr ∉ qs) : Safe keep m q

theorem dentryObj_injective : Function.Injective dentryObj := by
  intro p p' h
  exact congrArg Heap.Obj.ptr h

theorem Owned.nodup (h : Owned m ps rest) : ps.Nodup := by
  have hpair := (List.pairwise_append.mp h.pairwise).1
  rw [List.pairwise_map] at hpair
  refine hpair.imp fun hapart heq => ?_
  exact hapart.ptr_ne heq

/-- There are no more dentries among the other objects than objects. -/
theorem Owned.length_le_live {qs : List Nat} (h : Owned m ps rest) (hnodup : qs.Nodup)
    (hqs : ∀ q ∈ qs, dentryObj q ∈ rest) : qs.length ≤ m.live.length := by
  have hsubset : qs.map dentryObj ⊆ m.live := by
    intro x hx
    obtain ⟨q, hq, rfl⟩ := List.mem_map.mp hx
    exact h.mem_rest (hqs q hq)
  have hlength := (List.subperm_of_subset (hnodup.map dentryObj_injective) hsubset).length_le
  rw [List.length_map] at hlength
  exact hlength

/-- A chain of owned dentries is safe for the objects besides. -/
theorem Leads.safe (h : Leads T Stands m.node q o ps) (hown : Owned m ps rest)
    {keep : List Heap.Obj} (hkeep : ∀ x ∈ keep, x ∈ rest) : Safe keep m q :=
  Safe.chain h.links (fun _ hp => hown.mem hp) hown.nodup fun x hx hmem =>
    hown.ne_rest hmem (hkeep x hx) rfl

/-- A pointer without a dentry behind it is not freed. -/
theorem freeLoop_wild (hread : readNode q m = .error .wild) (rounds : Nat) :
    freeLoop rounds q m = .error .wild := by
  cases q with
  | sRoot => cases hread
  | heap p =>
      cases rounds with
      | zero => rfl
      | succ rounds => simp only [freeLoop, bind, StateT.bind, Except.bind, hread]
  | stray =>
      cases rounds with
      | zero => rfl
      | succ rounds => simp only [freeLoop, bind, StateT.bind, Except.bind, hread]

/-- Some objects are left, the heap can be used, and the superblock and the device are the
same. -/
structure Remains (keep : List Heap.Obj) (m m' : Mem) : Prop where
  live : ∀ x ∈ keep, x ∈ m'.live
  consistent : Heap.Consistent m'.heap m'.live
  sRoot : m'.sRoot = m.sRoot
  disk : m'.disk = m.disk

theorem Owned.remains (h : Owned m ps rest) {keep : List Heap.Obj}
    (hkeep : ∀ x ∈ keep, x ∈ rest) : Remains keep m m :=
  ⟨fun x hx => h.mem_rest (hkeep x hx), h.consistent, rfl, rfl⟩

/-- The given objects are left behind `free_dentry` on a safe pointer. -/
theorem freeDentry_safe (hown : Owned m ps rest) {keep : List Heap.Obj}
    (hkeep : ∀ x ∈ keep, x ∈ rest) (h : Safe keep m q) :
    After (fun _ m' => Remains keep m m') (· = .wild) (freeDentry q m) := by
  cases h with
  | stray => exact After.of_error (freeLoop_wild rfl _) rfl
  | @freed p hp =>
      have hread : readNode (.heap p) m = .error .wild := if_neg hp
      exact After.of_error (freeLoop_wild hread _) rfl
  | @chain _ qs hlinks hlive hnodup hnotin =>
      have hsub : (qs.map dentryObj).Subperm m.live := by
        refine List.subperm_of_subset (hnodup.map dentryObj_injective) ?_
        intro o ho
        obtain ⟨p, hp, rfl⟩ := List.mem_map.mp ho
        exact hlive p hp
      obtain ⟨l, hl, hsublist⟩ := hsub
      obtain ⟨others, hperm⟩ := hsublist.exists_perm_append
      have howned : Owned m qs others := ⟨hown.consistent, hperm.trans (hl.append_right others)⟩
      obtain ⟨m', hrun, h', hsame⟩ := freeDentry_links hlinks howned
      refine After.of_eq hrun ⟨fun x hx => ?_, h'.consistent, hsame.sRoot, hsame.disk⟩
      rcases List.mem_append.mp (howned.live.mem_iff.mp (hown.mem_rest (hkeep x hx))) with
        hmem | hmem
      · obtain ⟨p, hp, rfl⟩ := List.mem_map.mp hmem
        exact absurd hp (hnotin _ hx)
      · exact h'.mem_rest hmem

/-! ## The copy of the parents -/

/-- One round of the copy: a new dentry takes over the node of an original and is the parent of
the last copy. -/
theorem copyRound_cases {p q : Nat} (h : Owned m [p] rest) (hq : dentryObj q ∈ rest) (b e : Nat) :
    malloc sizeofDentry m = .error .outOfMemory ∨
      ∃ p' m₁ m₂ m₃, malloc sizeofDentry m = .ok (p', m₁) ∧
        setParent (.heap p) (.heap p') m₁ = .ok ((), m₂) ∧
        copyNode (.heap p') (.heap q) m₂ = .ok ((), m₃) ∧
        (∀ x, dentryObj x ∈ rest → m₃.node x = m.node x) ∧ m₃.node p' = m.node q ∧
        m₃.node p = { m.node p with dParent := .heap p' } ∧ Frame b e rest m m₃ ∧
        Owned m₃ [p'] (dentryObj p :: rest) := by
  rcases malloc_cases h with hfail | ⟨p', m₁, halloc, h₁, hsame⟩
  · exact Or.inl hfail
  · have hp' : p' ≠ p := fun heq => h₁.notMem (heq ▸ List.mem_cons_self)
    have hp : ∀ x, dentryObj x ∈ rest → x ≠ p := fun x hx =>
      h.ne_rest List.mem_cons_self hx
    have hnew : ∀ x, dentryObj x ∈ rest → x ≠ p' := fun x hx =>
      h₁.ne_rest List.mem_cons_self hx
    have hlive : m₁.Live p := h₁.isLive (by simp)
    have hlive' : m₁.Live p' := h₁.isLive (by simp)
    have hread : readNode (.heap q) (m₁.set p { m₁.node p with dParent := .heap p' }) =
        .ok (m₁.node q, m₁.set p { m₁.node p with dParent := .heap p' }) := by
      have hqlive : m₁.Live q := ⟨dentryObj q, h₁.mem_rest hq, rfl⟩
      rw [readNode_eq ((live_set _ _ _ _).mpr hqlive), node_set_of_ne _ (hp q hq)]
    refine Or.inr ⟨p', m₁, _, _, halloc, setParent_eq hlive _,
      copyNode_eq ((live_set _ _ _ _).mpr hlive') hread, fun x hx => ?_, ?_, ?_, ?_, ?_⟩
    · rw [node_set_of_ne _ (hnew x hx), node_set_of_ne _ (hp x hx), hsame.node]
    · rw [node_set_self, hsame.node]
    · rw [node_set_of_ne _ hp'.symm, node_set_self, hsame.node]
    · refine (hsame.frame.set ?_ _).set ?_ _
      · exact fun x hx _ _ => h.ne_rest List.mem_cons_self hx
      · exact fun x hx _ _ => h₁.ne_rest List.mem_cons_self hx
    · have hall : Owned m₁ ([p'] ++ [p]) rest := h₁
      exact Owned.append_iff.mp ((hall.set _ _).set _ _)

/-- The copy of a chain leads to the same object.  The pointer to the last original that is
left behind is safe, and leads to one of the originals if there is one. -/
theorem copyLoop_after {g : Geometry} {d : Disk} {ino : Obj → Nat} {b e : Nat} {rounds p : Nat}
    {dTmp : Ptr} {qs : List Nat} (hset : Setting T Stands g d ino m) (h : Owned m [p] rest)
    (hb : dentryObj b ∈ rest) (he : dentryObj e ∈ rest) (hne : o ≠ T.root)
    (hstands : Stands (m.node p).dentry o)
    (horig : Leads T Stands m.node (m.node p).dParent (T.parent o) qs)
    (hqs : ∀ q ∈ qs, dentryObj q ∈ rest ∧ q ≠ b ∧ q ≠ e) (hnodup : qs.Nodup)
    (hrounds : qs.length ≤ rounds) {keep : List Heap.Obj} (hkeep : ∀ x ∈ keep, x.ptr ∉ qs)
    (hsafe : ∀ m', Frame b e rest m m' → (∀ o ∈ rest, o ∈ m'.live) → Safe keep m' dTmp) :
    After (fun dTmp' m' => ∃ ps, Owned m' (p :: ps) rest ∧
        Leads T Stands m'.node (.heap p) o (p :: ps) ∧ Frame b e rest m m' ∧ Safe keep m' dTmp' ∧
        (dTmp' = dTmp ∨ ∃ q ∈ qs, dTmp' = .heap q))
      (· = .outOfMemory) (copyLoop rounds (.heap p) dTmp m) := by
  have hlive : m.Live p := h.isLive List.mem_cons_self
  induction qs generalizing m p o rest dTmp rounds with
  | nil =>
      have hread := horig.read (fun q hq => absurd hq List.not_mem_nil)
      have hslash : firstChar (m.at (m.node p).dParent).dentry = slash :=
        (horig.shows.slash_iff hset).mpr horig.of_nil.2
      unfold copyLoop
      refine After.bind_ok (readNode_eq hlive) (After.bind_ok hread ?_)
      rw [if_pos hslash]
      exact After.pure ⟨[], h, Leads.heap hne hstands horig, Frame.refl b e rest m,
        hsafe m (Frame.refl b e rest m) fun o ho => h.mem_rest ho, Or.inl rfl⟩
  | cons q qs ih =>
      have hqlive : ∀ x ∈ q :: qs, m.Live x := fun x hx =>
        ⟨dentryObj x, h.mem_rest (hqs x hx).1, rfl⟩
      obtain ⟨hparent, hne', hstands', horig'⟩ := horig.of_cons
      have hread : readNode (.heap q) m = .ok (m.node q, m) :=
        readNode_eq (hqlive q List.mem_cons_self)
      have hslash : firstChar (m.node q).dentry ≠ slash := hset.reads.name _ _ hstands'
      have hlinks := horig.links
      rw [hparent] at hlinks
      unfold copyLoop
      refine After.bind_ok (readNode_eq hlive) ?_
      rw [hparent]
      refine After.bind_ok hread ?_
      rw [if_neg hslash]
      cases rounds with
      | zero => exact absurd hrounds (by simp)
      | succ rounds =>
          rcases copyRound_cases h (hqs q List.mem_cons_self).1 b e with
            hfail | ⟨p', m₁, m₂, m₃, halloc, hset', hcopy, hother, hnew, hold, hframe, h₃⟩
          · exact After.bind (After.of_error hfail rfl)
          · refine After.bind_ok halloc (After.bind_ok hset' (After.bind_ok hcopy ?_))
            have hqsame : ∀ x ∈ q :: qs, m₃.node x = m.node x := fun x hx =>
              hother x (hqs x hx).1
            have horig₃ :
                Leads T Stands m₃.node (m₃.node p').dParent (T.parent (T.parent o)) qs := by
              rw [hnew]
              exact horig'.congr fun x hx => hqsame x (List.mem_cons_of_mem _ hx)
            have hstands₃ : Stands (m₃.node p').dentry (T.parent o) := by
              rw [hnew]
              exact hstands'
            have hqs₃ : ∀ x ∈ qs, dentryObj x ∈ dentryObj p :: rest ∧ x ≠ b ∧ x ≠ e := by
              intro x hx
              obtain ⟨hmem, hxb, hxe⟩ := hqs x (List.mem_cons_of_mem _ hx)
              exact ⟨List.mem_cons_of_mem _ hmem, hxb, hxe⟩
            -- the original that is left behind leads along the rest of the originals
            have hsafe₃ : ∀ m', Frame b e (dentryObj p :: rest) m₃ m' →
                (∀ o ∈ dentryObj p :: rest, o ∈ m'.live) → Safe keep m' (.heap q) := by
              intro m' hframe' hlive'
              refine Safe.chain (hlinks.congr fun x hx => ?_) (fun x hx => ?_) hnodup hkeep
              · obtain ⟨hmem, hxb, hxe⟩ := hqs x hx
                have hnode := hframe'.node _ (List.mem_cons_of_mem _ hmem) hxb hxe
                exact congrArg Node.dParent (hnode.trans (hqsame x hx))
              · exact hlive' _ (List.mem_cons_of_mem _ (hqs x hx).1)
            have hkeep₃ : ∀ x ∈ keep, x.ptr ∉ qs := fun x hx hmem =>
              hkeep x hx (List.mem_cons_of_mem _ hmem)
            have hrec := @ih m₃ (T.parent o) (dentryObj p :: rest) rounds p' (.heap q)
              (hframe.setting hset) h₃ (List.mem_cons_of_mem _ hb) (List.mem_cons_of_mem _ he)
              hne' hstands₃ horig₃ hqs₃ (List.nodup_cons.mp hnodup).2
              (Nat.le_of_succ_le_succ hrounds) hkeep₃ hsafe₃
              (h₃.isLive List.mem_cons_self)
            refine hrec.mono ?_ fun _ hfault => hfault
            rintro dTmp' m' ⟨ps, h', hleads, hframe', hsafe', hvalue⟩
            have hpsame : m'.node p = m₃.node p := hframe'.node (dentryObj p)
              List.mem_cons_self (h.ne_rest List.mem_cons_self hb).symm
              (h.ne_rest List.mem_cons_self he).symm
            refine ⟨p' :: ps, ?_, ?_, hframe.trans ⟨?_, hframe'.sRoot, hframe'.cur, hframe'.disk⟩,
              hsafe', ?_⟩
            · have hall : Owned m' ((p' :: ps) ++ [p]) rest := Owned.append_iff.mpr h'
              exact hall.perm (List.perm_append_singleton p (p' :: ps))
            · refine Leads.heap hne ?_ ?_
              · rw [hpsame, hold]
                exact hstands
              · rw [hpsame, hold]
                exact hleads
            · exact fun x hx => hframe'.node x (List.mem_cons_of_mem _ hx)
            · right
              rcases hvalue with heq | ⟨x, hx, heq⟩
              · exact ⟨q, List.mem_cons_self, heq⟩
              · exact ⟨x, List.mem_cons_of_mem _ hx, heq⟩

/-! ## The last component -/

section Last

variable (T Stands)

/-- What the two dentries of the caller hold when the path has this meaning; the dentries
above them, and some others, are all that was allocated. -/
def Ready (b e : Nat) (rest : List Heap.Obj) (heads : List Nat) :
    Resolution (List UInt8) Obj → Int → Mem → Prop
  | .invalid, _, _ => False
  | .found o, r, m => r = 0 ∧ Shows T Stands m.sRoot (m.node e).dentry o ∧
      Shows T Stands m.sRoot (m.node b).dentry (T.parent o) ∧
      ∃ qs, Leads T Stands m.node (m.node b).dParent (T.parent (T.parent o)) qs ∧
        Owned m (heads ++ qs) rest
  | .missing base n, r, m => r = 1 ∧ (m.node e).dentry.filename = n ∧
      Shows T Stands m.sRoot (m.node b).dentry base ∧
      ∃ qs, Leads T Stands m.node (m.node b).dParent (T.parent base) qs ∧
        Owned m (heads ++ qs) rest

/-- What the function leaves: the dentries of the caller, with the chain above them. -/
def Delivered (b e : Nat) (rest : List Heap.Obj) (R : Resolution (List UInt8) Obj) (r : Int)
    (m : Mem) : Prop :=
  Ready T Stands b e rest [] R r m ∧ (m.node e).dParent = .heap b

variable {T Stands} {g : Geometry} {d : Disk} {ino : Obj → Nat} {b e : Nat}
  {R : Resolution (List UInt8) Obj} {r : Int}

/-- The end of the function links the two dentries and frees the one it stands at. -/
theorem ready_finish (hleads : Leads T Stands node q o ps) (he : dentryObj e ∈ rest) (hbe : b ≠ e)
    (h : Ready T Stands b e rest (ps.take 1) R r m) :
    After (fun r m' => Frame b e rest m m' ∧ Delivered T Stands b e rest R r m')
      (fun _ => False)
      ((do setParent (.heap e) (.heap b); freeUnlessRoot q; pure r : Run Int) m) := by
  have hown : ∃ qs, Owned m (ps.take 1 ++ qs) rest := by
    cases R with
    | invalid => exact absurd h id
    | found o => exact ⟨_, h.2.2.2.choose_spec.2⟩
    | missing base n => exact ⟨_, h.2.2.2.choose_spec.2⟩
  obtain ⟨qs₀, hown⟩ := hown
  have helive : m.Live e := ⟨dentryObj e, hown.mem_rest he, rfl⟩
  have hset := setParent_eq helive (.heap b)
  generalize hm₁ : m.set e { m.node e with dParent := .heap b } = m₁ at hset
  have hnode : (m₁.node e).dentry = (m.node e).dentry ∧ (m₁.node e).dParent = .heap b := by
    rw [← hm₁, node_set_self]
    exact ⟨rfl, rfl⟩
  have hother : ∀ x, x ≠ e → m₁.node x = m.node x := by
    intro x hx
    rw [← hm₁, node_set_of_ne _ hx]
  have hsRoot : m₁.sRoot = m.sRoot := by
    rw [← hm₁]
    rfl
  have hframe : Frame b e rest m m₁ := by
    rw [← hm₁]
    exact (Frame.refl b e rest m).set (fun x _ _ hxe => hxe) _
  have hmove : ∀ l, Owned m l rest → Owned m₁ l rest := by
    intro l hl
    rw [← hm₁]
    exact hl.set _ _
  -- the chain above lies apart from the dentry that is written
  have hchain : ∀ qs o', Leads T Stands m.node (m.node b).dParent o' qs →
      Owned m (ps.take 1 ++ qs) rest →
      ∃ m', freeUnlessRoot q m₁ = .ok ((), m') ∧ Owned m' qs rest ∧ SameNodes m₁ m' ∧
        Leads T Stands m'.node (m'.node b).dParent o' qs := by
    intro qs o' hqs howned
    obtain ⟨m', hrun, h', hsame⟩ := freeUnlessRoot_leads hleads (hmove _ howned)
    refine ⟨m', hrun, h', hsame, ?_⟩
    rw [hsame.node, hother b hbe]
    exact hqs.congr fun x hx => hother x
      (howned.ne_rest (List.mem_append_right _ hx) he).symm
  refine After.bind_ok hset ?_
  cases R with
  | invalid => exact absurd h id
  | found o =>
      obtain ⟨hr, hshows, hparent, qs, hqs, howned⟩ := h
      obtain ⟨m', hrun, h', hsame, hleads'⟩ := hchain qs _ hqs howned
      refine After.bind_ok hrun (After.pure
        ⟨hframe.trans hsame.frame, ⟨hr, ?_, ?_, qs, hleads', h'⟩, ?_⟩)
      · rw [hsame.node, hsame.sRoot, hnode.1, hsRoot]
        exact hshows
      · rw [hsame.node, hsame.sRoot, hother b hbe, hsRoot]
        exact hparent
      · rw [hsame.node, hnode.2]
  | missing base n =>
      obtain ⟨hr, hname, hparent, qs, hqs, howned⟩ := h
      obtain ⟨m', hrun, h', hsame, hleads'⟩ := hchain qs _ hqs howned
      refine After.bind_ok hrun (After.pure
        ⟨hframe.trans hsame.frame, ⟨hr, ?_, ?_, qs, hleads', h'⟩, ?_⟩)
      · rw [hsame.node, hnode.1, hname]
      · rw [hsame.node, hsame.sRoot, hother b hbe, hsRoot]
        exact hparent
      · rw [hsame.node, hnode.2]

/-- A chain is not changed by a write to another dentry. -/
theorem Leads.set (h : Leads T Stands m.node q o ps) {x : Nat} (hx : x ∉ ps) (nd : Node) :
    Leads T Stands (m.set x nd).node q o ps := by
  refine h.congr fun p hp => node_set_of_ne m ?_ nd
  intro heq
  exact hx (heq ▸ hp)

theorem Leads.read_set (h : Leads T Stands m.node q o ps) (hlive : ∀ p ∈ ps, m.Live p) {x : Nat}
    (hx : x ∉ ps) (nd : Node) : readNode q (m.set x nd) = .ok (m.at q, m.set x nd) := by
  cases h with
  | sRoot => rfl
  | @heap p _ _ _ _ _ =>
      have hne : p ≠ x := fun heq => hx (heq ▸ List.mem_cons_self)
      rw [readNode_eq ((live_set _ _ _ _).mpr (hlive p List.mem_cons_self)), node_set_of_ne m hne]
      rfl

/-- The two dentries of the caller were written, and nothing else. -/
theorem ready_found {m' : Mem} {nodeE nodeB : Node} {qs heads : List Nat}
    (hsame : SameNodes ((m.set e nodeE).set b nodeB) m') (hbe : b ≠ e)
    (hE : Shows T Stands m.sRoot nodeE.dentry o)
    (hB : Shows T Stands m.sRoot nodeB.dentry (T.parent o))
    (hqs : Leads T Stands m.node nodeB.dParent (T.parent (T.parent o)) qs)
    (hb : dentryObj b ∈ rest) (he : dentryObj e ∈ rest) (hown : Owned m' (heads ++ qs) rest) :
    Frame b e rest m m' ∧ Ready T Stands b e rest heads (.found o) 0 m' := by
  have hnodeE : m'.node e = nodeE := by
    rw [hsame.node, node_set_of_ne _ hbe.symm, node_set_self]
  have hnodeB : m'.node b = nodeB := by
    rw [hsame.node, node_set_self]
  have hroot : m'.sRoot = m.sRoot := hsame.sRoot
  have hframe : Frame b e rest m m' := by
    refine Frame.trans ?_ hsame.frame
    refine ((Frame.refl b e rest m).set ?_ _).set ?_ _
    · exact fun _ _ _ he => he
    · exact fun _ _ hb _ => hb
  have hchain : Leads T Stands m'.node nodeB.dParent (T.parent (T.parent o)) qs := by
    refine hqs.congr fun x hx => ?_
    have hxb : x ≠ b := hown.ne (List.mem_append_right _ hx) hb
    have hxe : x ≠ e := hown.ne (List.mem_append_right _ hx) he
    rw [hsame.node, node_set_of_ne _ hxb, node_set_of_ne _ hxe]
  refine ⟨hframe, rfl, ?_, ?_, qs, ?_, hown⟩
  · rw [hnodeE, hroot]
    exact hE
  · rw [hnodeB, hroot]
    exact hB
  · rw [hnodeB]
    exact hchain

theorem perm_first (l : List Nat) : l.Perm (l.take 1 ++ l.tail) := by
  cases l with
  | nil => exact List.Perm.refl _
  | cons a l => exact List.Perm.refl _

theorem perm_second (l : List Nat) : l.Perm (l.tail.take 1 ++ (l.take 1 ++ l.tail.tail)) := by
  cases l with
  | nil => exact List.Perm.refl _
  | cons a l =>
      cases l with
      | nil => exact List.Perm.refl _
      | cons b l => exact List.Perm.swap b a l

theorem perm_third (l : List Nat) :
    l.Perm (l.tail.tail.take 1 ++ (l.tail.take 1 ++ (l.take 1 ++ l.tail.tail.tail))) := by
  cases l with
  | nil => exact List.Perm.refl _
  | cons a l =>
      have hstep := (perm_second l).cons a
      refine hstep.trans ?_
      have hmove : ∀ l₁ l₂ l₃ : List Nat,
          (a :: (l₁ ++ (l₂ ++ l₃))).Perm (l₁ ++ (l₂ ++ (a :: l₃))) := by
        intro l₁ l₂ l₃
        rw [← List.append_assoc, ← List.append_assoc]
        exact List.perm_middle.symm
      exact hmove _ _ _

/-- The last component is resolved from the object that was reached before it. -/
theorem heapParseLast_after (hset : Setting T Stands g d ino m) (sc : Scratch)
    (hleads : Leads T Stands m.node q o ps) (hown : Owned m ps rest) (hb : dentryObj b ∈ rest)
    (he : dentryObj e ∈ rest) (hbe : b ≠ e) {name : Buf} {acc : List UInt8}
    (hname : StartsWith name acc) (hslash : slash ∉ acc) (hnul : 0 ∉ acc) (hne : acc ≠ [])
    (hlen : acc.length < fnameLen) :
    After (fun r m' => Frame b e rest m m' ∧ Delivered T Stands b e rest
        ((T.step pathSyntax o acc).elim (.missing o acc) .found) r m')
      (fun _ => False) (heapParseLast g.sb sc name q (.heap b) (.heap e) m) := by
  obtain ⟨hempty, hdot, hdotDot⟩ := tests_of_startsWith hname hnul
  have hlive : ∀ p ∈ ps, m.Live p := fun p hp => hown.isLive hp
  have hlive₁ : ∀ p ∈ ps.tail, m.Live p := fun p hp => hlive p (List.mem_of_mem_tail hp)
  have hlive₂ : ∀ p ∈ ps.tail.tail, m.Live p := fun p hp => hlive₁ p (List.mem_of_mem_tail hp)
  have hblive : m.Live b := ⟨dentryObj b, hown.mem_rest hb, rfl⟩
  have helive : m.Live e := ⟨dentryObj e, hown.mem_rest he, rfl⟩
  have hbps : b ∉ ps := fun hmem => hown.ne hmem hb rfl
  have heps : e ∉ ps := fun hmem => hown.ne hmem he rfl
  have hbps₁ : b ∉ ps.tail := fun hmem => hbps (List.mem_of_mem_tail hmem)
  have heps₁ : e ∉ ps.tail := fun hmem => heps (List.mem_of_mem_tail hmem)
  have heps₂ : e ∉ ps.tail.tail := fun hmem => heps₁ (List.mem_of_mem_tail hmem)
  have hparent := hleads.parent
  unfold heapParseLast
  refine After.bind_ok (hleads.read hlive) ?_
  simp only [hempty, hdot, hdotDot, if_neg hne, hname.cString_eq hnul hlen]
  have hfinish : ∀ R r m', Frame b e rest m m' ∧ Ready T Stands b e rest (ps.take 1) R r m' →
      After (fun r m' => Frame b e rest m m' ∧ Delivered T Stands b e rest R r m')
        (fun _ => False)
        ((do setParent (.heap e) (.heap b); freeUnlessRoot q; pure r : Run Int) m') := by
    rintro R r m' ⟨hframe, h⟩
    refine (ready_finish hleads he hbe h).mono ?_ fun _ hfault => hfault
    exact fun r' m'' h' => ⟨hframe.trans h'.1, h'.2⟩
  by_cases hself : acc = dot
  · have hstep : T.step pathSyntax o acc = some o := Tree.step_here hself
    rw [if_pos hself, hstep]
    have hown' : Owned ((m.set e (m.at q)).set b (m.at (m.at q).dParent)) ps rest :=
      (hown.set _ _).set _ _
    obtain ⟨m', hfree, hown'', hsame⟩ := freeUnlessRoot_leads hparent (hown'.perm (perm_second ps))
    refine After.bind_ok (writeNode_eq helive _) (After.bind_ok (copyNode_eq
      ((live_set _ _ _ _).mpr hblive) (hparent.read_set hlive₁ heps₁ _)) (After.bind_ok hfree ?_))
    exact hfinish _ 0 m' (ready_found hsame hbe hleads.shows hparent.shows hparent.parent hb he
      hown'')
  · rw [if_neg hself]
    by_cases hup : acc = dotDot
    · have hstep : T.step pathSyntax o acc = some (T.parent o) := Tree.step_up hself hup
      rw [if_pos hup, hstep]
      have hparent' := hparent.parent
      have hown' : Owned ((m.set e (m.at (m.at q).dParent)).set b
          (m.at (m.at (m.at q).dParent).dParent)) ps rest := (hown.set _ _).set _ _
      obtain ⟨m₁, hfree₁, hown₁, hsame₁⟩ := freeUnlessRoot_leads hparent'
        (hown'.perm (perm_third ps))
      obtain ⟨m', hfree, hown'', hsame⟩ := freeUnlessRoot_leads hparent hown₁
      refine After.bind_ok (hparent.read hlive₁) (After.bind_ok (writeNode_eq helive _)
        (After.bind_ok (copyNode_eq ((live_set _ _ _ _).mpr hblive)
          (hparent'.read_set hlive₂ heps₂ _)) (After.bind_ok hfree₁ (After.bind_ok hfree ?_))))
      exact hfinish _ 0 m' (ready_found (hsame₁.trans hsame) hbe hparent.shows hparent'.shows
        hparent'.parent hb he hown'')
    · have hstep : T.step pathSyntax o acc = T.child o acc := Tree.step_child hself hup
      rw [if_neg hup, hstep]
      have hown' : Owned (m.set b (m.at q)) ps rest := hown.set _ _
      have hcomponent : Component acc := ⟨hne, hslash, hnul, hself, hup, hlen⟩
      have hset' : Setting T Stands g d ino (m.set b (m.at q)) := hset.congr rfl rfl
      have helive' : (m.set b (m.at q)).Live e := helive
      refine After.bind_ok (writeNode_eq hblive _) ?_
      rcases lookup_cases hset' (hleads.set hbps _) (fun p hp => hown'.isLive hp) helive'
        hcomponent sc with ⟨hchild, hlookup⟩ | ⟨c, dentry, hchild, hlookup, hstands⟩
      · rw [hchild]
        refine After.bind_ok hlookup ?_
        rw [if_pos rfl]
        refine After.bind_ok (readNode_eq helive') (After.bind_ok (writeNode_eq helive' _) ?_)
        refine hfinish _ 1 _ ⟨?_, rfl, ?_, ?_, ps.tail, ?_, ?_⟩
        · refine ((Frame.refl b e rest m).set ?_ _).set ?_ _
          · exact fun _ _ hb _ => hb
          · exact fun _ _ _ he => he
        · rw [node_set_self]
        · rw [node_set_of_ne _ hbe, node_set_self]
          exact hleads.shows
        · rw [node_set_of_ne _ hbe, node_set_self]
          exact (hparent.set hbps₁ _).set heps₁ _
        · exact (hown'.set _ _).perm (perm_first ps)
      · rw [hchild]
        refine After.bind_ok hlookup ?_
        rw [if_neg (by decide)]
        have hcne : c ≠ T.root := fun hc => hset.proper o acc (hc ▸ hchild)
        have hsame : SameNodes ((m.set e ⟨dentry, (m.node e).dParent⟩).set b (m.at q))
            ((m.set b (m.at q)).set e ⟨dentry, ((m.set b (m.at q)).node e).dParent⟩) := by
          refine ⟨?_, rfl, rfl, rfl⟩
          rw [node_set_of_ne _ hbe.symm]
          exact Function.update_comm hbe _ _ _
        refine hfinish _ 0 _ (ready_found hsame hbe (Or.inr ⟨hcne, hstands⟩) ?_ ?_ hb he
          ((hown'.set _ _).perm (perm_first ps)))
        · rw [T.parent_child hchild]
          exact hleads.shows
        · rw [T.parent_child hchild]
          exact hparent

end Last

/-! ## The loop -/

section Loop

/-- The rest of a path does not run into the limits of the function: the count of its
characters, and the room for a last component behind no slash. -/
def Fits (i : Nat) (acc path : List UInt8) : Prop :=
  i + path.length ≤ fnameLen ∧
    (acc.length < i ∨ i + path.length < fnameLen ∨ slash ∈ path.dropLast)

variable (T) in
/-- The function follows the rest of a path: it fits, it means something, and it does not
lead above the root. -/
def Followed (o : Obj) (i : Nat) (acc path : List UInt8) : Prop :=
  Fits i acc path ∧ T.resolveFrom pathSyntax o (acc ++ path) ≠ .invalid ∧
    ¬ T.climbsFrom pathSyntax o (acc ++ path)

variable (T Stands) in
/-- The end of the function: it delivers what the path means if it follows it, and
otherwise returns -1 and leaves the given objects allocated. -/
def Ends (followed : Prop) (keep : List Heap.Obj) (b e : Nat) (rest : List Heap.Obj) (m : Mem)
    (R : Resolution (List UInt8) Obj) : Except Fault (Int × Mem) → Prop :=
  After (fun r m' => (followed ∧ Frame b e rest m m' ∧ Delivered T Stands b e rest R r m') ∨
      (¬ followed ∧ r = -1 ∧ Remains keep m m'))
    (fun fault => fault = .outOfMemory ∨ ¬ followed)

variable {g : Geometry} {d : Disk} {ino : Obj → Nat} {b e i : Nat} {followed followed' : Prop}
  {R R' : Resolution (List UInt8) Obj} {run : Except Fault (Int × Mem)} {acc path : List UInt8}
  {dTmp : Ptr} {keep : List Heap.Obj}

/-- An end after some steps that keep the frame. -/
theorem Ends.of_frame (h : Ends T Stands followed' keep b e rest m' R' run)
    (hiff : followed ↔ followed') (hR : followed → R' = R) (hframe : Frame b e rest m m') :
    Ends T Stands followed keep b e rest m R run := by
  refine After.mono h ?_ ?_
  · rintro r m'' (⟨hgood, hframe', hdel⟩ | ⟨hbad, hret, hleft⟩)
    · have hgood' := hiff.mpr hgood
      rw [hR hgood'] at hdel
      exact Or.inl ⟨hgood', hframe.trans hframe', hdel⟩
    · exact Or.inr ⟨fun h => hbad (hiff.mp h), hret, hleft.live, hleft.consistent,
        hleft.sRoot.trans hframe.sRoot, hleft.disk.trans hframe.disk⟩
  · rintro fault (hmem | hbad)
    · exact Or.inl hmem
    · exact Or.inr fun h => hbad (hiff.mp h)

/-- A return of -1. -/
theorem Ends.failed (hbad : ¬ followed) (hleft : Remains keep m m') :
    Ends T Stands followed keep b e rest m R ((pure (-1) : Run Int) m') :=
  Or.inr ⟨hbad, rfl, hleft⟩

/-- The end of the loop behind `free_dentry`. -/
theorem Ends.failed_free (hbad : ¬ followed) (sb : Super) (sc : Scratch) (parent node : Ptr)
    (hown : Owned m ps rest) (hkeep : ∀ x ∈ keep, x ∈ rest) (hsafe : Safe keep m dTmp) :
    Ends T Stands followed keep b e rest m R
      ((freeDentry dTmp >>= fun _ => pure .failed >>= heapParseEnd sb sc parent node) m) := by
  refine After.bind ((freeDentry_safe hown hkeep hsafe).mono ?_ fun fault _ => Or.inr hbad)
  exact fun _ m'' hleft => After.pure (Ends.failed hbad hleft)

/-- The last component. -/
theorem Ends.last (hset : Setting T Stands g d ino m) (sc : Scratch)
    (hleads : Leads T Stands m.node q o ps) (hown : Owned m ps rest) (hb : dentryObj b ∈ rest)
    (he : dentryObj e ∈ rest) (hbe : b ≠ e) {name : Buf} {j : Nat}
    (hname : StartsWith (Function.update name j 0) acc) (hslash : slash ∉ acc) (hnul : 0 ∉ acc)
    (hne : acc ≠ []) (hlen : acc.length ≤ j) (hfits : followed ↔ j < fnameLen)
    (hR : R = (T.step pathSyntax o acc).elim (.missing o acc) .found) :
    Ends T Stands followed keep b e rest m R
      (heapParseEnd g.sb sc (.heap b) (.heap e) (.left name j q) m) := by
  subst hR
  unfold heapParseEnd
  simp only []
  by_cases hj : fnameLen ≤ j
  · rw [if_pos hj]
    exact After.throw (Or.inr fun hgood => absurd (hfits.mp hgood) (by omega))
  · rw [if_neg hj]
    refine (heapParseLast_after hset sc hleads hown hb he hbe hname hslash hnul hne
      (by omega)).mono ?_ fun fault hfault => absurd hfault id
    exact fun r m' h => Or.inl ⟨hfits.mpr (by omega), h⟩

theorem fits_nil (hi : acc.length ≤ i) (hin : i ≤ fnameLen) :
    Fits i acc [] ↔ acc.length < fnameLen := by
  simp only [Fits, List.length_nil, List.dropLast_nil, List.not_mem_nil, or_false]
  omega

theorem fits_slash (hi : acc.length ≤ i) (hin : i < fnameLen) :
    Fits i acc [slash] ↔ acc.length + 1 < fnameLen := by
  simp only [Fits, List.length_singleton, List.dropLast_singleton, List.not_mem_nil, or_false]
  omega

theorem fits_inner (hne : path ≠ []) : Fits i acc (slash :: path) ↔ Fits (i + 1) [] path := by
  have hmem : slash ∈ (slash :: path).dropLast := by
    obtain ⟨c, rest, rfl⟩ := List.exists_cons_of_ne_nil hne
    exact List.mem_cons_self
  simp only [Fits, List.length_cons, List.length_nil]
  constructor
  · rintro ⟨hlen, -⟩
    exact ⟨by omega, Or.inl (Nat.succ_pos i)⟩
  · rintro ⟨hlen, -⟩
    exact ⟨by omega, Or.inr (Or.inr hmem)⟩

theorem fits_char {c : UInt8} (hc : c ≠ slash) :
    Fits i acc (c :: path) ↔ Fits (i + 1) (acc ++ [c]) path := by
  have hmem : slash ∈ (c :: path).dropLast ↔ slash ∈ path.dropLast := by
    cases path with
    | nil => simp
    | cons c' path =>
        rw [List.dropLast_cons_cons, List.mem_cons]
        exact or_iff_right hc.symm
  have hlen : i + (path.length + 1) = i + 1 + path.length := by omega
  simp only [Fits, List.length_cons, List.length_append, List.length_nil, hmem, hlen,
    Nat.zero_add, Nat.add_lt_add_iff_right]

/-- An inner name that leads somewhere, and not above the root. -/
theorem followed_inner (hslash : slash ∉ acc) (hpath : path ≠ []) (hne : acc ≠ []) {o' : Obj}
    (hstep : T.step pathSyntax o acc = some o')
    (hup : ¬ (acc = dotDot ∧ acc ≠ dot ∧ o = T.root)) :
    (Followed T o i acc (slash :: path) ↔ Followed T o' (i + 1) [] path) ∧
      T.resolveFrom pathSyntax o' ([] ++ path) =
        T.resolveFrom pathSyntax o (acc ++ slash :: path) := by
  have hresolve : T.resolveFrom pathSyntax o (acc ++ slash :: path) =
      T.resolveFrom pathSyntax o' path := by
    have hinner : T.resolveFrom pathSyntax o (acc ++ slash :: path) = _ :=
      Tree.resolveFrom_inner hslash hpath
    rw [hinner, if_neg hne, hstep]
    rfl
  have hclimbs : T.climbsFrom pathSyntax o (acc ++ slash :: path) ↔
      T.climbsFrom pathSyntax o' path := by
    have hinner : T.climbsFrom pathSyntax o (acc ++ slash :: path) ↔ _ :=
      Tree.climbsFrom_inner hslash hpath
    rw [hinner, hstep]
    constructor
    · rintro (h | ⟨c, hc, h⟩)
      · exact absurd h hup
      · cases hc
        exact h
    · exact fun h => Or.inr ⟨o', rfl, h⟩
  refine ⟨?_, hresolve.symm⟩
  unfold Followed
  rw [fits_inner hpath, hresolve, hclimbs, List.nil_append]

/-- The step into a child: a new dentry below the chain, which a lookup fills in. -/
theorem descend_cases (hset : Setting T Stands g d ino m)
    (hleads : Leads T Stands m.node q o ps) (hown : Owned m ps rest) {n : List UInt8}
    (hn : Component n) (sc : Scratch) (b e : Nat) :
    malloc sizeofDentry m = .error .outOfMemory ∨
      ∃ p m₁ m₂, malloc sizeofDentry m = .ok (p, m₁) ∧
        setParent (.heap p) q m₁ = .ok ((), m₂) ∧
        ((T.child o n = none ∧ lookup g.sb sc q (.heap p) n m₂ = .ok (-1, m₂) ∧
            Links m₂.node (.heap p) (p :: ps) ∧ Owned m₂ (p :: ps) rest ∧ Frame b e rest m m₂) ∨
          ∃ c m₃, T.child o n = some c ∧ lookup g.sb sc q (.heap p) n m₂ = .ok (0, m₃) ∧
            Leads T Stands m₃.node (.heap p) c (p :: ps) ∧ Owned m₃ (p :: ps) rest ∧
            Frame b e rest m m₃) := by
  rcases malloc_set_cases hown with hfail | ⟨p, m₁, halloc, hplive, hp, hnode, hwritten⟩
  · exact Or.inl hfail
  · obtain ⟨hown₂, hframe⟩ := hwritten b e { m₁.node p with dParent := q }
    have hleads₂ : Leads T Stands (m₁.set p { m₁.node p with dParent := q }).node q o ps := by
      rw [← hnode] at hleads
      exact hleads.set hp _
    refine Or.inr ⟨p, m₁, _, halloc, setParent_eq hplive q, ?_⟩
    have hlink : ((m₁.set p { m₁.node p with dParent := q }).node p).dParent = q := by
      rw [node_set_self]
    generalize m₁.set p { m₁.node p with dParent := q } = m₂ at hown₂ hframe hleads₂ hlink ⊢
    rcases lookup_cases (hframe.setting hset) hleads₂
      (fun x hx => hown₂.isLive (List.mem_cons_of_mem _ hx)) (hown₂.isLive List.mem_cons_self) hn
      sc with ⟨hchild, hlookup⟩ | ⟨c, dentry, hchild, hlookup, hstands⟩
    · refine Or.inl ⟨hchild, hlookup, Links.heap ?_, hown₂, hframe⟩
      rw [hlink]
      exact hleads₂.links
    · refine Or.inr ⟨c, _, hchild, hlookup, ?_, hown₂.set _ _,
        hframe.set (fun x hx _ _ => hown₂.ne_rest List.mem_cons_self hx) _⟩
      refine Leads.heap (fun hc => hset.proper o n (hc ▸ hchild)) ?_ ?_
      · rw [node_set_self]
        exact hstands
      · rw [T.parent_child hchild, node_set_self, hlink]
        exact hleads₂.set hown₂.notMem _

/-- From any place in the path on, with the chain of the object reached there. -/
theorem heapParseLoop_ends (hset : Setting T Stands g d ino m) (sc : Scratch)
    (hleads : Leads T Stands m.node q o ps) (hown : Owned m ps rest) (hb : dentryObj b ∈ rest)
    (he : dentryObj e ∈ rest) (hbe : b ≠ e) (hkeep : ∀ x ∈ keep, x ∈ rest)
    (hsafe : Safe keep m dTmp) {name : Buf}
    (hname : bytesAt name 0 acc.length = acc) (hslash : slash ∉ acc) (hnul : 0 ∉ acc ++ path)
    (hne : acc ++ path ≠ []) (hi : acc.length ≤ i) (hin : i ≤ fnameLen) :
    Ends T Stands (Followed T o i acc path) keep b e rest m
      (T.resolveFrom pathSyntax o (acc ++ path))
      ((do
        let loopEnd ← heapParseLoop g.sb sc path i acc.length name q dTmp
        heapParseEnd g.sb sc (.heap b) (.heap e) loopEnd : Run Int) m) := by
  -- the induction is on the rest of the path; the component read so far is in the buffer
  induction path generalizing i name acc q o m ps dTmp with
  | nil =>
      rw [List.append_nil] at hnul hne
      unfold heapParseLoop
      have hresolve : T.resolveFrom pathSyntax o (acc ++ []) =
          (T.step pathSyntax o acc).elim (.missing o acc) .found := by
        rw [List.append_nil]
        exact Tree.resolveFrom_last hslash hne
      refine After.bind_ok rfl (Ends.last hset sc hleads hown hb he hbe (startsWith_update hname)
        hslash hnul hne le_rfl ?_ hresolve)
      rw [← fits_nil hi hin]
      refine and_iff_left ⟨?_, ?_⟩
      · rw [hresolve]
        cases T.step pathSyntax o acc <;> simp
      · rw [List.append_nil]
        exact Tree.not_climbsFrom_last hslash
  | cons c path ih =>
      obtain ⟨haccNul, hrest⟩ := not_or.mp (mt List.mem_append.mpr hnul)
      obtain ⟨hcNul, hpathNul⟩ := not_or.mp (mt List.mem_cons.mpr hrest)
      have hfreed : ¬ Followed T o i acc (c :: path) → _ := fun hbad =>
        @Ends.failed_free _ T Stands m ps rest b e _ (T.resolveFrom pathSyntax o
          (acc ++ c :: path)) dTmp keep hbad g.sb sc (.heap b) (.heap e) hown hkeep hsafe
      unfold heapParseLoop
      by_cases hlong : fnameLen ≤ i
      · rw [if_pos hlong]
        refine After.bind_ok rfl (Ends.failed (fun h => ?_) (hown.remains hkeep))
        have hfits := h.1.1
        rw [List.length_cons] at hfits
        omega
      · rw [if_neg hlong]
        by_cases hc : c = slash
        · subst hc
          have hstart := startsWith_update hname
          obtain ⟨hempty, hdot, hdotDot⟩ := tests_of_startsWith hstart haccNul
          have hstring := hstart.cString_eq haccNul (show acc.length < fnameLen by omega)
          simp only [if_true, true_and, hempty, hdot, hdotDot, hstring]
          by_cases hlast : path = []
          · -- a slash at the end
            subst hlast
            rw [if_neg (by simp)]
            have htrailing : T.resolveFrom pathSyntax o (acc ++ [slash]) = _ :=
              Tree.resolveFrom_trailing hslash
            by_cases hnone : acc = []
            · rw [if_pos hnone] at htrailing ⊢
              rw [bind_assoc]
              exact hfreed fun h => h.2.1 htrailing
            · rw [if_neg hnone] at htrailing ⊢
              refine After.bind_ok rfl (Ends.last hset sc hleads hown hb he hbe
                (hstart.update_past (Nat.lt_succ_self _) 0) hslash haccNul hnone (by omega) ?_
                htrailing)
              rw [← fits_slash hi (by omega)]
              refine and_iff_left ⟨?_, Tree.not_climbsFrom_trailing hslash⟩
              rw [htrailing]
              cases T.step pathSyntax o acc <;> simp
          · -- the end of an inner component
            have hnext : path.getD 0 0 ≠ 0 := by
              obtain ⟨c, rest, rfl⟩ := List.exists_cons_of_ne_nil hlast
              intro hzero
              exact hpathNul (hzero ▸ List.mem_cons_self)
            have hinner : T.resolveFrom pathSyntax o (acc ++ slash :: path) = _ :=
              Tree.resolveFrom_inner hslash hlast
            rw [if_pos hnext]
            by_cases hnone : acc = []
            · rw [if_pos hnone] at hinner ⊢
              rw [bind_assoc]
              exact hfreed fun h => h.2.1 hinner
            · rw [if_neg hnone] at hinner ⊢
              by_cases hself : acc = dot
              · have hstep : T.step pathSyntax o acc = some o := Tree.step_here hself
                obtain ⟨hiff, hR⟩ := followed_inner hslash hlast hnone hstep (i := i)
                  fun h => h.2.1 hself
                rw [if_pos hself]
                exact (@ih m q o ps (i + 1) [] dTmp hset hleads hown hsafe _ rfl (by simp)
                  hpathNul hlast (Nat.zero_le _) (by omega)).of_frame hiff (fun _ => hR)
                  (Frame.refl b e rest m)
              · rw [if_neg hself]
                by_cases hup : acc = dotDot
                · have hstep : T.step pathSyntax o acc = some (T.parent o) :=
                    Tree.step_up hself hup
                  rw [if_pos hup]
                  cases hleads with
                  | sRoot =>
                      -- `free` is called on the root of the superblock
                      have hclimbs : T.climbsFrom pathSyntax T.root (acc ++ slash :: path) :=
                        (Tree.climbsFrom_inner hslash hlast).mpr (Or.inl ⟨hup, hself, rfl⟩)
                      simp only [bind_assoc]
                      refine After.bind_ok (readNode_sRoot m) (After.bind (After.of_error rfl ?_))
                      exact Or.inr fun h => h.2.2 hclimbs
                  | @heap p _ ps hroot hstands hparent =>
                      obtain ⟨hiff, hR⟩ := followed_inner hslash hlast hnone hstep (i := i)
                        fun h => hroot h.2.2
                      obtain ⟨m₁, hfree, hown₁, hsame⟩ := free_eq hown
                      have hparent₁ :
                          Leads T Stands m₁.node (m.node p).dParent (T.parent o) ps := by
                        rw [hsame.node]
                        exact hparent
                      have hset₁ := hset.congr hsame.sRoot hsame.disk
                      simp only [bind_assoc]
                      refine After.bind_ok (readNode_eq (hown.isLive List.mem_cons_self))
                        (After.bind_ok hfree ?_)
                      exact (@ih m₁ _ _ ps (i + 1) [] (.heap p) hset₁ hparent₁ hown₁
                        (Safe.freed (hown.not_live hown₁)) _ rfl (by simp) hpathNul hlast
                        (Nat.zero_le _) (by omega)).of_frame hiff (fun _ => hR) hsame.frame
                · have hstep : T.step pathSyntax o acc = T.child o acc :=
                    Tree.step_child hself hup
                  have hcomponent : Component acc :=
                    ⟨hnone, hslash, haccNul, hself, hup, by omega⟩
                  rw [if_neg hup]
                  simp only [bind_assoc]
                  rcases descend_cases hset hleads hown hcomponent sc b e with
                    hfail | ⟨p, m₁, m₂, halloc, hparent, hlookups⟩
                  · exact After.bind (After.of_error hfail (Or.inl rfl))
                  · refine After.bind_ok halloc (After.bind_ok hparent ?_)
                    rcases hlookups with ⟨hchild, hlookup, hlinks, hown₂, hframe⟩ |
                      ⟨c, m₃, hchild, hlookup, hleads₃, hown₃, hframe⟩
                    · rw [hstep, hchild] at hinner
                      refine After.bind_ok hlookup ?_
                      rw [if_pos rfl, bind_assoc]
                      exact (Ends.failed_free (fun h => h.2.1 hinner) _ _ _ _ hown₂ hkeep
                        (Safe.chain hlinks (fun x hx => hown₂.mem hx) hown₂.nodup
                          fun x hx hmem => hown₂.ne_rest hmem (hkeep x hx) rfl)).of_frame Iff.rfl
                        (fun _ => rfl) hframe
                    · refine After.bind_ok hlookup ?_
                      rw [if_neg (by decide)]
                      rw [hchild] at hstep
                      obtain ⟨hiff, hR⟩ := followed_inner hslash hlast hnone hstep (i := i)
                        fun h => hup h.1
                      exact (@ih m₃ _ _ (p :: ps) (i + 1) [] (.heap p) (hframe.setting hset)
                        hleads₃ hown₃ (hleads₃.safe hown₃ hkeep) _ rfl (by simp) hpathNul hlast
                        (Nat.zero_le _) (by omega)).of_frame hiff (fun _ => hR) hframe
        · simp only [hc, if_false, false_and]
          have hname' := bytesAt_update hname c
          have happend : acc ++ c :: path = (acc ++ [c]) ++ path := List.append_cons _ _ _
          have hslash' : slash ∉ acc ++ [c] := by
            intro hmem
            rcases List.mem_append.mp hmem with hmem | hmem
            · exact hslash hmem
            · exact hc (List.mem_singleton.mp hmem).symm
          have hlength : (acc ++ [c]).length = acc.length + 1 := by simp
          have hiff : Followed T o i acc (c :: path) ↔ Followed T o (i + 1) (acc ++ [c]) path := by
            unfold Followed
            rw [fits_char hc, happend]
          rw [happend] at hnul ⊢
          rw [hiff, ← hlength]
          exact ih hset hleads hown hsafe hname' hslash' hnul (by simp) (by omega) (by omega)

end Loop

/-! ## Path names -/

section PathNames

variable {g : Geometry} {d : Disk} {ino : Obj → Nat} {b e : Nat} {path : List UInt8} {cwd : Obj}
  {keep : List Heap.Obj}

/-- A path fits into the buffer of the function; a slash in front of it is not counted. -/
def FitsPath (path : List UInt8) : Prop :=
  Fits 0 [] (if path.head? = some slash then path.tail else path)

variable (T) in
/-- The function follows a path. -/
def FollowedPath (cwd : Obj) (path : List UInt8) : Prop :=
  FitsPath path ∧ T.resolve pathSyntax cwd path ≠ .invalid ∧ ¬ T.Climbs pathSyntax cwd path

/-- The path "/" alone. -/
theorem heapParseFrom_nil (sc : Scratch) (hown : Owned m [] rest) (hb : dentryObj b ∈ rest)
    (he : dentryObj e ∈ rest) (hbe : b ≠ e) :
    Ends T Stands True keep b e rest m (.found T.root)
      (heapParseFrom g.sb sc [] .sRoot .stray (.heap b) (.heap e) m) := by
  have hblive : m.Live b := ⟨dentryObj b, hown.mem_rest hb, rfl⟩
  have helive : m.Live e := ⟨dentryObj e, hown.mem_rest he, rfl⟩
  have hzero : Function.update sc.name 0 0 0 = 0 := Function.update_self _ _ _
  have hperiod : ¬ (0 : UInt8) = period := by decide
  have hshort : ¬ fnameLen ≤ 0 := by decide
  have hroot : Shows T Stands m.sRoot m.sRoot T.root := Or.inl ⟨rfl, rfl⟩
  have hsame : SameNodes ((m.set e ⟨m.sRoot, .sRoot⟩).set b ⟨m.sRoot, .sRoot⟩)
      ((m.set b ⟨m.sRoot, .sRoot⟩).set e ⟨m.sRoot, .sRoot⟩) :=
    ⟨Function.update_comm hbe _ _ _, rfl, rfl, rfl⟩
  have hparent : Leads T Stands m.node .sRoot (T.parent (T.parent T.root)) [] := by
    rw [T.parent_root, T.parent_root]
    exact Leads.sRoot
  have hparentShows : Shows T Stands m.sRoot m.sRoot (T.parent T.root) := by
    rw [T.parent_root]
    exact hroot
  obtain ⟨hframe, hready⟩ := @ready_found _ T Stands m T.root rest b e _ _ _ [] [] hsame hbe hroot
    hparentShows hparent hb he ((hown.set _ _).set _ _)
  have hleads : Leads T Stands m.node .sRoot T.root [] := Leads.sRoot
  unfold heapParseFrom heapParseLoop heapParseEnd heapParseLast
  refine After.bind_ok rfl ?_
  simp only [if_neg hshort, hzero, hperiod, false_and, if_false, if_true]
  refine After.bind_ok (readNode_sRoot m) (After.bind_ok
    (copyNode_eq hblive (readNode_sRoot m)) (After.bind_ok
      (copyNode_eq ((live_set _ _ _ _).mpr helive) (readNode_sRoot _)) ?_))
  refine (ready_finish hleads he hbe hready).mono ?_ fun _ hfault => absurd hfault id
  exact fun r m' h => Or.inl ⟨trivial, hframe.trans h.1, h.2⟩

/-- The function from its loop on, for a path that is not empty. -/
theorem heapParseFrom_ends (hset : Setting T Stands g d ino m) (sc : Scratch)
    (hleads : Leads T Stands m.node q o ps) (hown : Owned m ps rest) (hb : dentryObj b ∈ rest)
    (he : dentryObj e ∈ rest) (hbe : b ≠ e) (hkeep : ∀ x ∈ keep, x ∈ rest) {dTmp : Ptr}
    (hsafe : Safe keep m dTmp) (hnul : 0 ∉ path) (hne : path ≠ []) :
    Ends T Stands (Followed T o 0 [] path) keep b e rest m (T.resolveFrom pathSyntax o path)
      (heapParseFrom g.sb sc path q dTmp (.heap b) (.heap e) m) :=
  @heapParseLoop_ends _ T Stands m q o ps rest g d ino b e 0 [] path dTmp keep hset sc hleads hown
    hb he hbe hkeep hsafe sc.name rfl (by simp) hnul hne le_rfl (Nat.zero_le _)

/-- The dentry at the start of a path that is not from the root: a copy of the current
directory. -/
theorem startCopy_cases (hown : Owned m [] rest)
    (hchain : Leads T Stands m.node m.cur.dParent (T.parent cwd) ps)
    (hstands : Stands m.cur.dentry cwd) (hps : ∀ p ∈ ps, dentryObj p ∈ rest ∧ p ≠ b ∧ p ≠ e) :
    malloc sizeofDentry m = .error .outOfMemory ∨
      ∃ p m₁ m₂, malloc sizeofDentry m = .ok (p, m₁) ∧
        writeNode (.heap p) m.cur m₁ = .ok ((), m₂) ∧ Frame b e rest m m₂ ∧ Owned m₂ [p] rest ∧
        Stands (m₂.node p).dentry cwd ∧
        Leads T Stands m₂.node (m₂.node p).dParent (T.parent cwd) ps := by
  rcases malloc_set_cases hown with hfail | ⟨p, m₁, halloc, hplive, -, -, hwritten⟩
  · exact Or.inl hfail
  · obtain ⟨hown₂, hframe⟩ := hwritten b e m.cur
    refine Or.inr ⟨p, m₁, _, halloc, writeNode_eq hplive _, hframe, hown₂, ?_, ?_⟩
    · rw [node_set_self]
      exact hstands
    · rw [node_set_self]
      refine hchain.congr fun x hx => ?_
      obtain ⟨hmem, hxb, hxe⟩ := hps x hx
      exact hframe.node _ hmem hxb hxe

/-- `parse_path`, for a path from the root; the current directory does not matter. -/
theorem heapParsePath_absolute (hset : Setting T Stands g d ino m) (sc : Scratch)
    (hown : Owned m [] rest) (hb : dentryObj b ∈ rest) (he : dentryObj e ∈ rest) (hbe : b ≠ e)
    (hkeep : ∀ x ∈ keep, x ∈ rest) (hnul : 0 ∉ path) :
    Ends T Stands (FollowedPath T cwd (slash :: path)) keep b e rest m
      (T.resolve pathSyntax cwd (slash :: path))
      (heapParsePath g.sb sc (slash :: path) (.heap b) (.heap e) m) := by
  have hfirst : ¬ (slash :: path).getD 0 0 = 0 := show ¬ slash = 0 by decide
  have hslash : (slash :: path).getD 0 0 = slash := rfl
  unfold heapParsePath
  refine After.bind_ok rfl ?_
  rw [if_neg hfirst]
  simp only [hslash, true_or, if_true, true_and]
  cases path with
  | nil =>
      have hclimbs : ¬ T.climbsFrom pathSyntax T.root [] :=
        Tree.not_climbsFrom_last (by simp)
      have hfollowed : FollowedPath T cwd [slash] := by
        refine ⟨⟨Nat.zero_le _, Or.inr (Or.inl (by decide))⟩, fun h => ?_, hclimbs⟩
        cases h
      exact (heapParseFrom_nil sc hown hb he hbe).of_frame (iff_true_intro hfollowed)
        (fun _ => rfl) (Frame.refl b e rest m)
  | cons c' path =>
      have hresolve : T.resolve pathSyntax cwd (slash :: c' :: path) =
          T.resolveFrom pathSyntax T.root (c' :: path) := rfl
      have hsecond : (slash :: c' :: path).getD 1 0 = c' := rfl
      rw [hresolve, hsecond]
      by_cases hc' : c' = slash
      · rw [if_neg (not_not.mpr hc'), if_pos ⟨rfl, hc'⟩]
        refine Ends.failed (fun h => h.2.1 ?_) (hown.remains hkeep)
        rw [hresolve, hc', resolveFrom_slash]
      · have hthird : ¬ ((c' :: path).getD 0 0 = slash ∧ (c' :: path).getD 1 0 = slash) :=
          fun h => hc' h.1
        rw [if_pos hc', List.tail_cons, if_neg hthird]
        exact heapParseFrom_ends hset sc Leads.sRoot hown hb he hbe hkeep Safe.stray hnul
          (by simp)

/-- `parse_path`, for every path. -/
theorem heapParsePath_ends (hset : Setting T Stands g d ino m) (sc : Scratch)
    (hown : Owned m [] rest) (hb : dentryObj b ∈ rest) (he : dentryObj e ∈ rest) (hbe : b ≠ e)
    (hkeep : ∀ x ∈ keep, x ∈ rest ∧ x.ptr ∉ ps) (hcur : Shows T Stands m.sRoot m.cur.dentry cwd)
    (hchain : Leads T Stands m.node m.cur.dParent (T.parent cwd) ps)
    (hps : ∀ p ∈ ps, dentryObj p ∈ rest ∧ p ≠ b ∧ p ≠ e) (hnodup : ps.Nodup) (hnul : 0 ∉ path) :
    Ends T Stands (FollowedPath T cwd path) keep b e rest m (T.resolve pathSyntax cwd path)
      (heapParsePath g.sb sc path (.heap b) (.heap e) m) := by
  have hkept : ∀ x ∈ keep, x ∈ rest := fun x hx => (hkeep x hx).1
  cases path with
  | nil =>
      unfold heapParsePath
      refine After.bind_ok rfl ?_
      rw [if_pos (show ([] : List UInt8).getD 0 0 = 0 from rfl)]
      exact Ends.failed (fun h => h.2.1 rfl) (hown.remains hkept)
  | cons c path =>
      obtain ⟨hcNul, hpathNul⟩ := not_or.mp (mt List.mem_cons.mpr hnul)
      by_cases hc : c = slash
      · subst hc
        exact heapParsePath_absolute hset sc hown hb he hbe hkept hpathNul
      · have hfirst : (c :: path).getD 0 0 = c := rfl
        unfold heapParsePath
        refine After.bind_ok rfl ?_
        rw [hfirst, if_neg (Ne.symm hcNul)]
        have hresolve : T.resolve pathSyntax cwd (c :: path) =
            T.resolveFrom pathSyntax cwd (c :: path) := by
          have hsep : ¬ c :: path = [slash] := fun h => hc (List.cons.inj h).1
          have hhead : ¬ some c = some slash := fun h => hc (Option.some.inj h)
          rw [Tree.resolve, if_neg (by simp)]
          exact (if_neg hsep).trans (if_neg hhead)
        have hiff : FollowedPath T cwd (c :: path) ↔ Followed T cwd 0 [] (c :: path) := by
          have hhead : ¬ (c :: path).head? = some slash := fun h => hc (Option.some.inj h)
          have hsep : ¬ (c :: path).head? = some pathSyntax.sep := hhead
          unfold FollowedPath Followed FitsPath Tree.Climbs
          rw [if_neg hhead, if_neg hsep, hresolve, List.nil_append]
        rw [hresolve, hiff]
        simp only [hc, false_or, false_and, if_false]
        by_cases hslash : firstChar m.cur.dentry = slash
        · have hthird : ¬ ((c :: path).getD 0 0 = slash ∧ (c :: path).getD 1 0 = slash) :=
            fun h => hc h.1
          rw [if_pos hslash, if_neg hthird, (hcur.slash_iff hset).mp hslash]
          exact heapParseFrom_ends hset sc Leads.sRoot hown hb he hbe hkept Safe.stray hnul
            (by simp)
        · have hne : cwd ≠ T.root := fun h => hslash ((hcur.slash_iff hset).mpr h)
          have hstands : Stands m.cur.dentry cwd := by
            rcases hcur with ⟨hroot, -⟩ | ⟨-, hstands⟩
            · exact absurd hroot hne
            · exact hstands
          rw [if_neg hslash]
          rcases startCopy_cases hown hchain hstands hps with
            hfail | ⟨p, m₁, m₂, halloc, hwrite, hframe, hown₂, hstands₂, horig⟩
          · exact After.bind (After.of_error hfail (Or.inl rfl))
          · refine After.bind_ok halloc (After.bind_ok hwrite ?_)
            have hrounds : ps.length ≤ m.live.length :=
              hown.length_le_live hnodup fun x hx => (hps x hx).1
            refine After.bind ((copyLoop_after (hframe.setting hset) hown₂ hb he hne hstands₂ horig
              hps hnodup hrounds (fun x hx => (hkeep x hx).2)
              fun m' _ _ => Safe.stray).mono ?_ fun fault hfault => Or.inl hfault)
            rintro dTmp m₃ ⟨ps', hown₃, hleads₃, hframe₃, hsafe₃, -⟩
            have hframe' := hframe.trans hframe₃
            exact (heapParseFrom_ends (hframe'.setting hset) sc hleads₃ hown₃ hb he hbe hkept hsafe₃
              hnul (by simp)).of_frame Iff.rfl (fun _ => rfl) hframe'

end PathNames
end Chains

end Vfs
end NochOS
