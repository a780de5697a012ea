import NochOS.Vfs.ParsePath
import NochOS.Heap.Runs
import NochOS.Library.Outcomes

/-!
# VFS - dentries in the heap

This module embeds `free_dentry` and `parse_path` of `vfs.c` once more, now with the
pointers and the heap: every dentry is an object of `mem.c`, and whatever follows a
pointer needs the object behind it.  A program ends with a value, or in one of three ways
that are no end: the heap is exhausted, a pointer leads to no object, or a lookup does not
return.

`malloc` is not tested by its callers, which use the null pointer; here the program stops
at once.  A pointer that was never written is `stray`.

Main results:

- Definitions `freeDentry`, `heapParsePath`: the functions.
- Structure `Owned`: the objects that a program has to account for.
- Theorem `freeDentry_links`: freeing a chain of dentries.
-/

namespace NochOS
namespace Vfs

open Library Ext2

/-! ## Pointers and memory -/

/-- A `dentry_t *`. -/
inductive Ptr where
  | sRoot
  | heap (ptr : Nat)
  | stray
deriving DecidableEq

/-- A `dentry_t` with its `d_parent`. -/
structure Node where
  dentry : Dentry
  dParent : Ptr

/-- `sizeof(dentry_t)`. -/
def sizeofDentry : Nat := 88

/-- The heap, the dentries in it, `superblock.s_root`, `cur_dentry` and the device. -/
structure Mem extends Heap.Kernel where
  node : Nat → Node
  sRoot : Dentry
  cur : Node
  disk : Disk

/-- How a program does not end. -/
inductive Fault where
  | outOfMemory
  | wild
  | noReturn
deriving DecidableEq

/-- A program on the memory. -/
abbrev Run := StateT Mem (Except Fault)

/-- An object starts at the address. -/
def Mem.Live (m : Mem) (ptr : Nat) : Prop := ∃ o ∈ m.live, o.ptr = ptr

instance (m : Mem) (ptr : Nat) : Decidable (m.Live ptr) :=
  inferInstanceAs (Decidable (∃ o ∈ m.live, o.ptr = ptr))

/-- `malloc`. -/
def malloc (size : Nat) : Run Nat := fun m =>
  let r := Heap.malloc m.heap size
  if r.1 = 0 then .error .outOfMemory
  else .ok (r.1, { m with heap := r.2, live := ⟨r.1, size⟩ :: m.live })

/-- `free`. -/
def free : Ptr → Run Unit
  | .sRoot => throw .wild
  | .stray => throw .wild
  | .heap ptr => fun m =>
      match m.live.find? (fun o => o.ptr = ptr) with
      | none => .error .wild
      | some o => .ok ((), { m with heap := Heap.free m.heap ptr, live := m.live.erase o })

/-- `*p`. -/
def readNode : Ptr → Run Node
  | .sRoot => fun m => .ok (⟨m.sRoot, .sRoot⟩, m)
  | .stray => throw .wild
  | .heap ptr => fun m => if m.Live ptr then .ok (m.node ptr, m) else .error .wild

/-- `*p = node`. -/
def writeNode : Ptr → Node → Run Unit
  | .sRoot, _ => throw .wild
  | .stray, _ => throw .wild
  | .heap ptr, node => fun m =>
      if m.Live ptr then .ok ((), { m with node := Function.update m.node ptr node })
      else .error .wild

/-- `p->d_parent = q`. -/
def setParent (p q : Ptr) : Run Unit := do
  let node ← readNode p
  writeNode p { node with dParent := q }

/-- `*dst = *src`. -/
def copyNode (dst src : Ptr) : Run Unit := do
  let node ← readNode src
  writeNode dst node

/-- `if (p != &superblock.s_root) free(p)`. -/
def freeUnlessRoot (p : Ptr) : Run Unit := if p = .sRoot then pure () else free p

/-- The loop of `free_dentry`; no more rounds than there are objects. -/
def freeLoop : Nat → Ptr → Run Unit
  | _, .sRoot => pure ()
  | 0, _ => throw .wild
  | rounds + 1, dentry => do
      let node ← readNode dentry
      free dentry
      freeLoop rounds node.dParent

/-- `free_dentry`. -/
def freeDentry (dentry : Ptr) : Run Unit := fun m => freeLoop m.live.length dentry m

/-! ## parse_path -/

/-- `i_op->lookup` of the inode in a dentry. -/
def lookup (sb : Super) (sc : Scratch) (self dentry : Ptr) (fname : List UInt8) : Run Int := do
  let base ← readNode self
  let node ← readNode dentry
  let m ← get
  match ilookup sb m.disk sc.stk base.dentry.iIno node.dentry fname with
  | none => throw .noReturn
  | some (res, found) => do
      writeNode dentry { node with dentry := found }
      pure res

/-- The loop of `parse_path` that copies the parents of a dentry: the last of the
originals is in `d_tmp` behind it.  No more rounds than there are objects. -/
def copyLoop : Nat → Ptr → Ptr → Run Ptr
  | rounds, dTrav, dTmp => do
      let trav ← readNode dTrav
      let parent ← readNode trav.dParent
      if firstChar parent.dentry = slash then pure dTmp
      else
        match rounds with
        | 0 => throw .noReturn
        | rounds + 1 => do
            let p ← malloc sizeofDentry
            setParent dTrav (.heap p)
            copyNode (.heap p) trav.dParent
            copyLoop rounds (.heap p) trav.dParent

/-- The end of the loop of `parse_path`: a return of -1, or `name`, `j` and `d_trav`. -/
inductive HeapLoopEnd where
  | failed
  | left (name : Buf) (j : Nat) (dTrav : Ptr)

/-- The loop of `parse_path` on `path + i`. -/
def heapParseLoop (sb : Super) (sc : Scratch) :
    List UInt8 → Nat → Nat → Buf → Ptr → Ptr → Run HeapLoopEnd
  | [], _, j, name, dTrav, _ => pure (.left name j dTrav)
  | c :: path, i, j, name, dTrav, dTmp =>
      if fnameLen ≤ i then pure .failed
      else
        let name := Function.update name j (if c = slash then 0 else c)
        if c = slash ∧ path.getD 0 0 ≠ 0 then
          if name 0 = 0 then do
            freeDentry dTmp
            pure .failed
          else if name 0 = period ∧ name 1 = 0 then
            heapParseLoop sb sc path (i + 1) 0 name dTrav dTmp
          else if name 0 = period ∧ name 1 = period ∧ name 2 = 0 then do
            let trav ← readNode dTrav
            free dTrav
            heapParseLoop sb sc path (i + 1) 0 name trav.dParent dTrav
          else do
            let p ← malloc sizeofDentry
            setParent (.heap p) dTrav
            let res ← lookup sb sc dTrav (.heap p) (cString name fnameLen)
            if res = -1 then do
              freeDentry (.heap p)
              pure .failed
            else heapParseLoop sb sc path (i + 1) 0 name (.heap p) (.heap p)
        else if c = slash then
          if name 0 = 0 then do
            freeDentry dTmp
            pure .failed
          else pure (.left name (j + 1) dTrav)
        else heapParseLoop sb sc path (i + 1) (j + 1) name dTrav dTmp

/-- The part of `parse_path` behind its loop. -/
def heapParseLast (sb : Super) (sc : Scratch) (name : Buf) (dTrav parent node : Ptr) :
    Run Int := do
  let trav ← readNode dTrav
  let retval ←
    if name 0 = period ∧ name 1 = 0 then do
      writeNode node trav
      copyNode parent trav.dParent
      freeUnlessRoot trav.dParent
      pure (0 : Int)
    else if name 0 = period ∧ name 1 = period ∧ name 2 = 0 then do
      let up ← readNode trav.dParent
      writeNode node up
      copyNode parent up.dParent
      freeUnlessRoot up.dParent
      freeUnlessRoot trav.dParent
      pure 0
    else if name 0 = 0 then do
      copyNode parent .sRoot
      copyNode node .sRoot
      pure 0
    else do
      writeNode parent trav
      let res ← lookup sb sc dTrav node (cString name fnameLen)
      if res = -1 then do
        let missing ← readNode node
        writeNode node
          { missing with dentry := { missing.dentry with filename := cString name fnameLen } }
        pure 1
      else pure 0
  setParent node parent
  freeUnlessRoot dTrav
  pure retval

/-- What happens behind the loop of `parse_path`; `name` has room for `FNAME_LEN` bytes. -/
def heapParseEnd (sb : Super) (sc : Scratch) (parent node : Ptr) : HeapLoopEnd → Run Int
  | .failed => pure (-1)
  | .left name j dTrav =>
      if fnameLen ≤ j then throw .wild
      else heapParseLast sb sc (Function.update name j 0) dTrav parent node

/-- `parse_path` from the loop on. -/
def heapParseFrom (sb : Super) (sc : Scratch) (path : List UInt8) (dTrav dTmp parent node : Ptr) :
    Run Int := do
  let loopEnd ← heapParseLoop sb sc path 0 0 sc.name dTrav dTmp
  heapParseEnd sb sc parent node loopEnd

/-- `parse_path`. -/
def heapParsePath (sb : Super) (sc : Scratch) (path : List UInt8) (parent node : Ptr) :
    Run Int := do
  let m ← get
  if path.getD 0 0 = 0 then pure (-1)
  else if path.getD 0 0 = slash ∨ firstChar m.cur.dentry = slash then
    let path := if path.getD 0 0 = slash ∧ path.getD 1 0 ≠ slash then path.tail else path
    if path.getD 0 0 = slash ∧ path.getD 1 0 = slash then pure (-1)
    else heapParseFrom sb sc path .sRoot .stray parent node
  else do
    let p ← malloc sizeofDentry
    writeNode (.heap p) m.cur
    let dTmp ← copyLoop m.live.length (.heap p) .stray
    heapParseFrom sb sc path (.heap p) dTmp parent node

/-! ## Accounting for objects -/

/-- The object of a dentry. -/
def dentryObj (ptr : Nat) : Heap.Obj := ⟨ptr, sizeofDentry⟩

/-- The objects of the heap are the given dentries and some others. -/
structure Owned (m : Mem) (ps : List Nat) (rest : List Heap.Obj) : Prop where
  consistent : Heap.Consistent m.heap m.live
  live : m.live.Perm (ps.map dentryObj ++ rest)

/-- Two memories differ in the heap only. -/
structure SameNodes (m m' : Mem) : Prop where
  node : m'.node = m.node
  sRoot : m'.sRoot = m.sRoot
  cur : m'.cur = m.cur
  disk : m'.disk = m.disk

theorem SameNodes.refl (m : Mem) : SameNodes m m := ⟨rfl, rfl, rfl, rfl⟩

theorem SameNodes.trans {m m₁ m' : Mem} (h : SameNodes m m₁) (h' : SameNodes m₁ m') :
    SameNodes m m' :=
  ⟨h'.node.trans h.node, h'.sRoot.trans h.sRoot, h'.cur.trans h.cur, h'.disk.trans h.disk⟩

/-- An object of the heap is known by its address. -/
theorem eq_of_ptr {s : Heap.HeapState} {live : List Heap.Obj} (h : Heap.Consistent s live)
    {o o' : Heap.Obj} (ho : o ∈ live) (ho' : o' ∈ live) (hptr : o.ptr = o'.ptr) : o = o' := by
  by_contra hne
  exact (h.apart.forall ho ho' hne).ptr_ne hptr

section Owners

variable {m : Mem} {p : Nat} {ps qs : List Nat} {rest : List Heap.Obj}

theorem Owned.perm (h : Owned m ps rest) (hperm : ps.Perm qs) : Owned m qs rest :=
  ⟨h.consistent, h.live.trans ((hperm.map dentryObj).append_right rest)⟩

/-- Dentries that are counted among the others. -/
theorem Owned.append_iff :
    Owned m (ps ++ qs) rest ↔ Owned m ps (qs.map dentryObj ++ rest) := by
  constructor
  · intro h
    have hlive := h.live
    rw [List.map_append, List.append_assoc] at hlive
    exact ⟨h.consistent, hlive⟩
  · intro h
    refine ⟨h.consistent, ?_⟩
    rw [List.map_append, List.append_assoc]
    exact h.live

theorem Owned.mem (h : Owned m ps rest) (hp : p ∈ ps) : dentryObj p ∈ m.live :=
  h.live.mem_iff.mpr (List.mem_append_left _ (List.mem_map_of_mem hp))

theorem Owned.isLive (h : Owned m ps rest) (hp : p ∈ ps) : m.Live p :=
  ⟨dentryObj p, h.mem hp, rfl⟩

theorem Owned.mem_rest (h : Owned m ps rest) {o : Heap.Obj} (ho : o ∈ rest) : o ∈ m.live :=
  h.live.mem_iff.mpr (List.mem_append_right _ ho)

theorem Owned.pairwise (h : Owned m ps rest) :
    (ps.map dentryObj ++ rest).Pairwise Heap.Apart :=
  h.live.pairwise h.consistent.apart fun hab => hab.symm

/-- The dentries are different from the other objects. -/
theorem Owned.ne_rest (h : Owned m ps rest) (hp : p ∈ ps) {o : Heap.Obj} (ho : o ∈ rest) :
    o.ptr ≠ p := by
  have hapart := (List.pairwise_append.mp h.pairwise).2.2 _ (List.mem_map_of_mem hp) o ho
  exact hapart.ptr_ne.symm

theorem Owned.ne (h : Owned m ps rest) (hp : p ∈ ps) {x : Nat} (hx : dentryObj x ∈ rest) :
    p ≠ x := (h.ne_rest hp hx).symm

/-- The dentries are different from one another. -/
theorem Owned.notMem (h : Owned m (p :: ps) rest) : p ∉ ps := by
  intro hp
  have hpair := h.pairwise
  rw [List.map_cons, List.cons_append] at hpair
  have hapart := (List.pairwise_cons.mp hpair).1 _ (List.mem_append_left _ (List.mem_map_of_mem hp))
  exact hapart.ptr_ne rfl

/-- An object that is counted once is none of the others. -/
theorem Owned.fresh {x : Heap.Obj} (h : Owned m ps (x :: rest)) :
    x ∉ ps.map dentryObj ++ rest := by
  intro hx
  have hpair := List.perm_middle.pairwise h.pairwise fun hab => hab.symm
  exact ((List.pairwise_cons.mp hpair).1 x hx).ptr_ne rfl

/-- A dentry that is no longer counted is gone. -/
theorem Owned.not_live {m' : Mem} (h : Owned m (p :: ps) rest) (h' : Owned m' ps rest) :
    ¬ m'.Live p := by
  rintro ⟨o, ho, hptr⟩
  rcases List.mem_append.mp (h'.live.mem_iff.mp ho) with hmem | hmem
  · obtain ⟨p', hp', rfl⟩ := List.mem_map.mp hmem
    exact h.notMem (show p ∈ ps from hptr ▸ hp')
  · exact h.ne_rest List.mem_cons_self hmem hptr

theorem Owned.length_le (h : Owned m ps rest) : ps.length ≤ m.live.length := by
  rw [h.live.length_eq, List.length_append, List.length_map]
  exact Nat.le_add_right _ _

/-- A change of the dentries is none of the heap. -/
theorem Owned.of_heap {m' : Mem} (h : Owned m ps rest) (hheap : m'.heap = m.heap)
    (hlive : m'.live = m.live) : Owned m' ps rest := by
  refine ⟨?_, ?_⟩
  · rw [hheap, hlive]
    exact h.consistent
  · rw [hlive]
    exact h.live

/-- `malloc` delivers a new object, unless the heap is exhausted. -/
theorem malloc_object (h : Owned m ps rest) {size : Nat} (hsize : size < 2 ^ 32) :
    malloc size m = .error .outOfMemory ∨
      ∃ p m', malloc size m = .ok (p, m') ∧ Owned m' ps (⟨p, size⟩ :: rest) ∧
        SameNodes m m' := by
  by_cases hnull : (Heap.malloc m.heap size).1 = 0
  · left
    unfold malloc
    simp only []
    rw [if_pos hnull]
  · right
    have hconsistent := h.consistent.alloc hsize hnull
    refine ⟨_, { m with
      heap := (Heap.malloc m.heap size).2
      live := ⟨(Heap.malloc m.heap size).1, size⟩ :: m.live }, ?_,
      ⟨hconsistent, (h.live.cons _).trans List.perm_middle.symm⟩, ⟨rfl, rfl, rfl, rfl⟩⟩
    unfold malloc
    simp only []
    rw [if_neg hnull]

/-- `malloc` delivers a new dentry, unless the heap is exhausted. -/
theorem malloc_cases (h : Owned m ps rest) :
    malloc sizeofDentry m = .error .outOfMemory ∨
      ∃ p m', malloc sizeofDentry m = .ok (p, m') ∧ Owned m' (p :: ps) rest ∧ SameNodes m m' := by
  rcases malloc_object h (show sizeofDentry < 2 ^ 32 by decide) with
    hfail | ⟨p, m', hrun, hown, hsame⟩
  · exact Or.inl hfail
  · have hall : Owned m' (ps ++ [p]) rest := Owned.append_iff.mpr hown
    exact Or.inr ⟨p, m', hrun, hall.perm (List.perm_append_singleton p ps), hsame⟩

/-- `free` releases the object. -/
theorem free_object {o : Heap.Obj} (h : Owned m ps (o :: rest)) :
    ∃ m', free (.heap o.ptr) m = .ok ((), m') ∧ Owned m' ps rest ∧ SameNodes m m' := by
  have hmem : o ∈ m.live := h.mem_rest List.mem_cons_self
  have hfind : m.live.find? (fun x => x.ptr = o.ptr) = some o := by
    cases hfind : m.live.find? (fun x => x.ptr = o.ptr) with
    | none =>
        have hno := List.find?_eq_none.mp hfind _ hmem
        rw [decide_eq_true_eq] at hno
        exact absurd rfl hno
    | some x =>
        have hptr := List.find?_some hfind
        rw [decide_eq_true_eq] at hptr
        rw [eq_of_ptr h.consistent (List.mem_of_find?_eq_some hfind) hmem hptr]
  have hperm : m.live.Perm (o :: m.live.erase o) := List.perm_cons_erase hmem
  have hfree : Heap.Consistent (Heap.free m.heap o.ptr) (m.live.erase o) :=
    (h.consistent.perm hperm).free
  have hlive : (o :: m.live.erase o).Perm (o :: (ps.map dentryObj ++ rest)) :=
    (hperm.symm.trans h.live).trans List.perm_middle
  refine ⟨{ m with heap := Heap.free m.heap o.ptr, live := m.live.erase o }, ?_,
    ⟨hfree, hlive.cons_inv⟩, ⟨rfl, rfl, rfl, rfl⟩⟩
  unfold free
  simp only [hfind]

/-- `free` releases the dentry. -/
theorem free_eq (h : Owned m (p :: ps) rest) :
    ∃ m', free (.heap p) m = .ok ((), m') ∧ Owned m' ps rest ∧ SameNodes m m' :=
  free_object (Owned.append_iff.mp (h.perm (List.perm_append_singleton p ps).symm))

theorem readNode_eq (hp : m.Live p) : readNode (.heap p) m = .ok (m.node p, m) := if_pos hp

theorem readNode_sRoot (m : Mem) : readNode .sRoot m = .ok (⟨m.sRoot, .sRoot⟩, m) := rfl

/-- The memory after a write to a dentry. -/
def Mem.set (m : Mem) (p : Nat) (node : Node) : Mem :=
  { m with node := Function.update m.node p node }

theorem writeNode_eq (hp : m.Live p) (node : Node) :
    writeNode (.heap p) node m = .ok ((), m.set p node) := if_pos hp

theorem Owned.set (h : Owned m ps rest) (q : Nat) (node : Node) : Owned (m.set q node) ps rest :=
  h.of_heap rfl rfl

end Owners

/-! ## Chains -/

/-- The pointers from a dentry through its parents to the root. -/
inductive Links (node : Nat → Node) : Ptr → List Nat → Prop where
  | sRoot : Links node .sRoot []
  | heap {p : Nat} {ps : List Nat} (hparent : Links node (node p).dParent ps) :
      Links node (.heap p) (p :: ps)

/-- A chain depends on the parents of its dentries only. -/
theorem Links.congr {node node' : Nat → Node} {q : Ptr} {qs : List Nat} (h : Links node q qs)
    (hsame : ∀ p ∈ qs, (node' p).dParent = (node p).dParent) : Links node' q qs := by
  induction h with
  | sRoot => exact Links.sRoot
  | @heap p ps _ ih =>
      refine Links.heap ?_
      rw [hsame p List.mem_cons_self]
      exact ih fun p hp => hsame p (List.mem_cons_of_mem _ hp)

theorem freeLoop_links {q : Ptr} {qs : List Nat} {m : Mem} {rest : List Heap.Obj} {rounds : Nat}
    (hlinks : Links m.node q qs) (h : Owned m qs rest) (hrounds : qs.length ≤ rounds) :
    ∃ m', freeLoop rounds q m = .ok ((), m') ∧ Owned m' [] rest ∧ SameNodes m m' := by
  induction qs generalizing q m rounds with
  | nil =>
      cases hlinks
      refine ⟨m, ?_, h, SameNodes.refl m⟩
      unfold freeLoop
      rfl
  | cons p qs ih =>
      cases hlinks with
      | heap hparent =>
          obtain ⟨rounds, rfl⟩ := Nat.exists_eq_add_of_le hrounds
          obtain ⟨m₁, hfree, h₁, hsame⟩ := free_eq h
          rw [← hsame.node] at hparent
          obtain ⟨m', hrun, h', hsame'⟩ := @ih _ m₁ (qs.length + rounds) hparent h₁ (by omega)
          have hrounds : (p :: qs).length + rounds = qs.length + rounds + 1 := by
            rw [List.length_cons]
            omega
          refine ⟨m', ?_, h', hsame.trans hsame'⟩
          rw [hrounds, ← hrun]
          simp only [freeLoop, bind, StateT.bind, Except.bind,
            readNode_eq (h.isLive List.mem_cons_self), hfree, hsame.node]

/-- `free_dentry` releases the chain. -/
theorem freeDentry_links {q : Ptr} {qs : List Nat} {m : Mem} {rest : List Heap.Obj}
    (hlinks : Links m.node q qs) (h : Owned m qs rest) :
    ∃ m', freeDentry q m = .ok ((), m') ∧ Owned m' [] rest ∧ SameNodes m m' :=
  freeLoop_links hlinks h h.length_le

end Vfs
end NochOS
