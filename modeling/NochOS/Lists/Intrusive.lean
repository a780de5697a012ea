import NochOS.Library.RingFamily
import NochOS.Library.Transition
import NochOS.Signal.Model

/-!
# Intrusive lists - any sequence of operations

`list.h` links the nodes of its lists in place: a list is a circle through its head,
and each operation patches the links at one seam.  This module runs the operations in
any order over any nodes, beside the sequences the lists stand for, and shows that the
two traversals of a list visit its sequence and that sequence backwards.

An operation is given nodes as its callers give them: what is inserted or used as a
replacement is in no list, what is deleted or replaced is a member, and a merge is
between two lists.  A node that is initialised may be anywhere; a list it was in is
given up with that, as is the list a merge has emptied.

Main results:

- Theorem `run_rings`: every operation keeps the lists disjoint rings through their
  heads, with the sequences the operation stands for.
- Theorem `run_frame`: the lists an operation is given no node of keep their sequences
  and their links.
- Theorem `lists_of_reachable`: both traversals of every list, in every reachable state.
-/

namespace NochOS
namespace Lists

open Library Signal

/-! ## list.h -/

/-- `list_insert_after`. -/
def listInsertAfter (l : Links Nat) (node head : Nat) : Links Nat :=
  l.link node head (l.next head)

/-- `list_replace`. -/
def listReplace (l : Links Nat) (dest src : Nat) : Links Nat :=
  let l : Links Nat := { l with next := Function.update l.next src (l.next dest) }
  let l : Links Nat := { l with prev := Function.update l.prev (l.next src) src }
  let l : Links Nat := { l with prev := Function.update l.prev src (l.prev dest) }
  { l with next := Function.update l.next (l.prev src) src }

/-- `list_merge`. -/
def listMerge (l : Links Nat) (head pos : Nat) : Links Nat :=
  if !listIsEmpty l head then
    let first := l.next head
    let last := l.prev head
    let temp := l.next pos
    let l : Links Nat := { l with prev := Function.update l.prev first pos }
    let l : Links Nat := { l with next := Function.update l.next pos first }
    let l : Links Nat := { l with next := Function.update l.next last temp }
    { l with prev := Function.update l.prev temp last }
  else l

/-- `list_itr`: the nodes the loop visits. -/
def listItr (l : Links Nat) (head fuel : Nat) : Option (List Nat) :=
  walk l.next head fuel (l.next head)

/-- `list_itr_rev`: the nodes the loop visits. -/
def listItrRev (l : Links Nat) (head fuel : Nat) : Option (List Nat) :=
  walk l.prev head fuel (l.prev head)

/-! ## Operations and sequences -/

/-- The operations on lists. -/
inductive ListOp
  | init (node : Nat)
  | insertAfter (node pos : Nat)
  | insertBefore (node pos : Nat)
  | delete (node : Nat)
  | replace (dest src : Nat)
  | merge (head pos : Nat)

/-- The sequence of each list, by its head. -/
abbrev Sequences := Nat → Option (List Nat)

namespace ListOp

/-- The operation on the links. -/
def run (l : Links Nat) : ListOp → Links Nat
  | init node => initListHead l node
  | insertAfter node pos => listInsertAfter l node pos
  | insertBefore node pos => listInsertBefore l node pos
  | delete node => listDelete l node
  | replace dest src => listReplace l dest src
  | merge head pos => listMerge l head pos

/-- The nodes the operation is given. -/
def args : ListOp → List Nat
  | init node => [node]
  | insertAfter node pos => [node, pos]
  | insertBefore node pos => [node, pos]
  | delete node => [node]
  | replace dest src => [dest, src]
  | merge head pos => [head, pos]

/-- What callers see to before the operation. -/
def Allowed (lists : Sequences) : ListOp → Prop
  | init _ => True
  | insertAfter node pos => ¬ InList lists node ∧ InList lists pos
  | insertBefore node pos => ¬ InList lists node ∧ InList lists pos
  | delete node => ∃ head xs, lists head = some xs ∧ node ∈ xs
  | replace dest src => (∃ head xs, lists head = some xs ∧ dest ∈ xs) ∧ ¬ InList lists src
  | merge head pos => (∃ xs, lists head = some xs) ∧
      ∃ other xs, lists other = some xs ∧ other ≠ head ∧ pos ∈ other :: xs

/-- The operation on the sequences. -/
def effect (lists : Sequences) : ListOp → Sequences
  | init node => fun head =>
      if head = node then some [] else (lists head).filter fun xs => node ∉ xs
  | insertAfter node pos => fun head => (lists head).map (addAfter head pos [node])
  | insertBefore node pos => fun head => (lists head).map (addBefore head pos [node])
  | delete node => fun head => (lists head).map (substitute node [])
  | replace dest src => fun head => (lists head).map (substitute dest [src])
  | merge source pos => fun head =>
      if head = source then none
      else (lists head).map (addAfter head pos ((lists source).getD []))

end ListOp

/-- The links of all nodes, and the sequences the lists stand for. -/
structure ListState where
  links : Links Nat
  lists : Sequences

/-- Runs of the operations, from nodes in no list. -/
def listSystem : TransitionSystem ListState where
  init s := s.lists = fun _ => none
  step s s' := ∃ op : ListOp, op.Allowed s.lists ∧ s' = ⟨op.run s.links, op.effect s.lists⟩

/-! ## The operations are edits of rings -/

/-- A replacement links the new node in at the seam of the old one. -/
theorem listReplace_eq (l : Links Nat) {dest src : Nat} (hnext : l.next dest ≠ dest) :
    listReplace l dest src = l.link src (l.prev dest) (l.next dest) := by
  simp only [listReplace, Links.link, Function.update_self, Function.update_of_ne hnext.symm]

/-- A merge of a list with members splices them in after the position. -/
theorem listMerge_eq (l : Links Nat) {head : Nat} (pos : Nat) (hnext : l.next head ≠ head) :
    listMerge l head pos = l.splice (l.next head) (l.prev head) pos (l.next pos) := by
  have hempty : listIsEmpty l head = false := by
    rw [listIsEmpty, beq_eq_false_iff_ne]
    exact hnext
  simp only [listMerge, hempty, Bool.not_false, if_true, Links.splice]

/-- Deletion unlinks the node and poisons its own links. -/
theorem listDelete_other (l : Links Nat) {node x : Nat} (hx : x ≠ node) :
    (listDelete l node).next x = (l.unlink (l.prev node) (l.next node)).next x ∧
      (listDelete l node).prev x = (l.unlink (l.prev node) (l.next node)).prev x :=
  ⟨Function.update_of_ne hx .., Function.update_of_ne hx ..⟩

/-- Initialisation changes the links of its node only. -/
theorem initListHead_other (l : Links Nat) {node x : Nat} (hx : x ≠ node) :
    (initListHead l node).next x = l.next x ∧ (initListHead l node).prev x = l.prev x :=
  ⟨Function.update_of_ne hx .., Function.update_of_ne hx ..⟩

variable {l : Links Nat} {lists : Sequences}

/-- A member is not its own successor. -/
theorem next_ne_self {head x : Nat} {xs : List Nat} (h : Ring l head xs) (hx : x ∈ xs) :
    l.next x ≠ x := by
  obtain ⟨us, vs, rfl⟩ := List.append_of_mem hx
  intro heq
  have hnil := h.rotate.next_eq_iff.mp heq
  simp at hnil

/-- After the lists a node is in are given up, the others do not hold it. -/
theorem filter_some {node head : Nat} {xs : List Nat}
    (h : (lists head).filter (fun xs => node ∉ xs) = some xs) :
    lists head = some xs ∧ node ∉ xs := by
  rw [Option.filter_eq_some_iff] at h
  exact ⟨h.1, by simpa using h.2⟩

/-! ## What one operation does -/

/-- An operation other than an initialisation edits one list, at a node it is given, in
the family of the lists it keeps. -/
structure EditOf (l : Links Nat) (lists : Sequences) (op : ListOp) (kept : Sequences)
    (f : Nat → List Nat → List Nat) (head pos : Nat) (xs : List Nat) : Prop where
  sub : ∀ other ys, kept other = some ys → lists other = some ys
  kept_of : ∀ other ys, lists other = some ys → (∀ a ∈ op.args, a ∉ other :: ys) →
    kept other = some ys
  list : kept head = some xs
  arg : pos ∈ op.args
  mem : pos ∈ head :: xs
  id : ∀ other ys, pos ∉ other :: ys → f other ys = ys
  edit : Edit l (op.run l) kept head xs (f head xs)
  effect : op.effect lists = fun other => (kept other).map (f other)

/-- A merge is an edit of the list of its position. -/
theorem merge_edit (h : Rings l lists) {source pos : Nat}
    (hop : (ListOp.merge source pos).Allowed lists) :
    ∃ kept f head xs, EditOf l lists (.merge source pos) kept f head pos xs := by
  obtain ⟨⟨ms, hms⟩, head, xs, hxs, hne, hpos⟩ := hop
  have hkept : (if head = source then none else lists head) = some xs := by
    rw [if_neg hne, hxs]
  refine ⟨fun other => if other = source then none else lists other,
    fun other => addAfter other pos ms, head, xs, ?_, ?_, hkept, by simp [ListOp.args], hpos,
    fun _ _ => addAfter_of_notMem, ?_, ?_⟩
  · intro other ys hys
    split at hys
    · contradiction
    · exact hys
  · intro other ys hys hargs
    have hother : other ≠ source := fun heq =>
      hargs source List.mem_cons_self (heq ▸ List.mem_cons_self)
    rw [if_neg hother, hys]
  · have hsource := h.ring source ms hms
    have hring := h.ring head xs hxs
    by_cases hnil : ms = []
    · -- an empty list is left as it is
      subst hnil
      have hempty : listIsEmpty l source = true := by
        rw [listIsEmpty, beq_iff_eq]
        exact hsource.next_eq_iff.mpr rfl
      have hrun : (ListOp.merge source pos).run l = l := by
        simp only [ListOp.run, listMerge, hempty, Bool.not_true, Bool.false_eq_true, if_false]
      rw [hrun, addAfter_nil]
      exact ⟨hring, fun x hx => Or.inl (List.mem_cons_of_mem head hx), fun _ _ _ => ⟨rfl, rfl⟩⟩
    · have hnext : l.next source ≠ source := fun heq => hnil (hsource.next_eq_iff.mp heq)
      rw [ListOp.run, listMerge_eq l pos hnext]
      refine hring.edit_splice hkept hpos hsource hnil ?_
      rintro x hx ⟨other, ys, hys, hmem⟩
      by_cases hother : other = source
      · simp only [if_pos hother, reduceCtorEq] at hys
      · simp only [if_neg hother] at hys
        exact h.disjoint other ys source ms hys hms hother x hmem
          (List.mem_cons_of_mem source hx)
  · funext other
    simp only [ListOp.effect, hms, Option.getD_some]
    split <;> rfl

/-- Every operation but an initialisation is an edit. -/
theorem exists_edit (h : Rings l lists) {op : ListOp} (hop : op.Allowed lists)
    (hinit : ∀ node, op ≠ .init node) :
    ∃ kept f head pos xs, EditOf l lists op kept f head pos xs := by
  cases op with
  | init node => exact absurd rfl (hinit node)
  | insertAfter node pos =>
      obtain ⟨hnode, head, xs, hxs, hpos⟩ := hop
      exact ⟨lists, fun other => addAfter other pos [node], head, pos, xs, fun _ _ hys => hys,
        fun _ _ hys _ => hys, hxs, by simp [ListOp.args], hpos, fun _ _ => addAfter_of_notMem,
        (h.ring head xs hxs).edit_after hxs hpos hnode, rfl⟩
  | insertBefore node pos =>
      obtain ⟨hnode, head, xs, hxs, hpos⟩ := hop
      exact ⟨lists, fun other => addBefore other pos [node], head, pos, xs, fun _ _ hys => hys,
        fun _ _ hys _ => hys, hxs, by simp [ListOp.args], hpos, fun _ _ => addBefore_of_notMem,
        (h.ring head xs hxs).edit_before hxs hpos hnode, rfl⟩
  | delete node =>
      obtain ⟨head, xs, hxs, hnode⟩ := hop
      exact ⟨lists, fun _ => substitute node [], head, node, xs, fun _ _ hys => hys,
        fun _ _ hys _ => hys, hxs, by simp [ListOp.args], List.mem_cons_of_mem head hnode,
        fun other _ hout => substitute_of_notMem fun hmem => hout (List.mem_cons_of_mem other hmem),
        (h.ring head xs hxs).edit_delete hxs hnode fun _ hx => listDelete_other l hx, rfl⟩
  | replace dest src =>
      obtain ⟨⟨head, xs, hxs, hdest⟩, hsrc⟩ := hop
      have hring := h.ring head xs hxs
      refine ⟨lists, fun _ => substitute dest [src], head, dest, xs, fun _ _ hys => hys,
        fun _ _ hys _ => hys, hxs, by simp [ListOp.args], List.mem_cons_of_mem head hdest,
        fun other _ hout => substitute_of_notMem fun hmem => hout (List.mem_cons_of_mem other hmem),
        ?_, rfl⟩
      rw [ListOp.run, listReplace_eq l (next_ne_self hring hdest)]
      exact hring.edit_replace hxs hdest hsrc
  | merge source pos =>
      obtain ⟨kept, f, head, xs, hedit⟩ := merge_edit h hop
      exact ⟨kept, f, head, pos, xs, hedit⟩

/-- An initialised node is the head of an empty list, in no other list. -/
theorem init_rings (h : Rings l lists) (node : Nat) :
    Rings ((ListOp.init node).run l) ((ListOp.init node).effect lists) := by
  have hlist : (ListOp.init node).effect lists node = some [] := by
    simp only [ListOp.effect, if_true]
  refine h.update hlist ?_ ?_
  · exact Ring.nil_iff.mpr ⟨Function.update_self .., Function.update_self ..⟩
  · intro other ys hne hys
    simp only [ListOp.effect, if_neg hne] at hys
    obtain ⟨hold, hout⟩ := filter_some hys
    refine ⟨hold, fun x hx => ?_⟩
    have hx' : x ≠ node := by
      rintro rfl
      rcases List.mem_cons.mp hx with heq | hmem
      · exact hne heq.symm
      · exact hout hmem
    exact ⟨initListHead_other l hx', by simpa using hx'⟩

/-- Every operation keeps the lists disjoint rings through their heads, with the
sequences the operation stands for. -/
theorem run_rings (h : Rings l lists) {op : ListOp} (hop : op.Allowed lists) :
    Rings (op.run l) (op.effect lists) := by
  by_cases hinit : ∃ node, op = .init node
  · obtain ⟨node, rfl⟩ := hinit
    exact init_rings h node
  · obtain ⟨kept, f, head, pos, xs, he⟩ := exists_edit h hop (not_exists.mp hinit)
    rw [he.effect]
    exact (h.mono he.sub).edit he.list he.mem he.id he.edit

/-- A list the operation is given no node of keeps its sequence and its links. -/
theorem run_frame (h : Rings l lists) {op : ListOp} (hop : op.Allowed lists) {head : Nat}
    {xs : List Nat} (hxs : lists head = some xs) (hargs : ∀ a ∈ op.args, a ∉ head :: xs) :
    op.effect lists head = some xs ∧
      ∀ x ∈ head :: xs, (op.run l).next x = l.next x ∧ (op.run l).prev x = l.prev x := by
  by_cases hinit : ∃ node, op = .init node
  · obtain ⟨node, rfl⟩ := hinit
    have hout := hargs node List.mem_cons_self
    have hne : head ≠ node := fun heq => hout (heq ▸ List.mem_cons_self)
    have hnot : node ∉ xs := fun hmem => hout (List.mem_cons_of_mem head hmem)
    refine ⟨by simp [ListOp.effect, hne, hxs, hnot], fun x hx => initListHead_other l ?_⟩
    rintro rfl
    exact hout hx
  · obtain ⟨kept, f, edited, pos, ys, he⟩ := exists_edit h hop (not_exists.mp hinit)
    have hkept := he.kept_of head xs hxs hargs
    have hpos := hargs pos he.arg
    have hne : head ≠ edited := by
      rintro rfl
      rw [he.list, Option.some.injEq] at hkept
      exact hpos (hkept ▸ he.mem)
    refine ⟨?_, he.edit.frame (h.mono he.sub) he.list hkept hne⟩
    rw [he.effect]
    simp only [hkept, Option.map_some, he.id head xs hpos]

/-! ## Any sequence of operations -/

/-- In every reachable state the lists are disjoint rings through their heads. -/
theorem rings_of_reachable {s : ListState} (hs : listSystem.Reachable s) :
    Rings s.links s.lists := by
  refine TransitionSystem.IsInvariant.of_reachable (I := fun s => Rings s.links s.lists)
    ⟨?_, ?_⟩ hs
  · intro s hinit
    have hnone : ∀ head xs, s.lists head ≠ some xs := by
      intro head xs hxs
      rw [hinit] at hxs
      contradiction
    exact ⟨fun head xs hxs => absurd hxs (hnone head xs),
      fun head xs _ _ hxs => absurd hxs (hnone head xs)⟩
  · rintro s s' h ⟨op, hop, rfl⟩
    exact run_rings h hop

/-- Both traversals of a list visit its sequence, from one end and from the other, and
an operation leaves alone the lists it is given no node of. -/
theorem lists_of_reachable (s : ListState) (hs : listSystem.Reachable s) :
    (∀ head xs, s.lists head = some xs → ∀ fuel, xs.length < fuel →
      listItr s.links head fuel = some xs ∧ listItrRev s.links head fuel = some xs.reverse) ∧
    ∀ op : ListOp, op.Allowed s.lists → ∀ head xs, s.lists head = some xs →
      (∀ a ∈ op.args, a ∉ head :: xs) → op.effect s.lists head = some xs ∧
        ∀ x ∈ head :: xs, (op.run s.links).next x = s.links.next x ∧
          (op.run s.links).prev x = s.links.prev x := by
  have h := rings_of_reachable hs
  constructor
  · intro head xs hxs fuel hfuel
    have hring := h.ring head xs hxs
    exact ⟨hring.walk_next hfuel, hring.walk_prev hfuel⟩
  · intro op hop head xs hxs hargs
    exact run_frame h hop hxs hargs

/-- One run: a head, a node after it and a node at the end. -/
def twoNodes : ListState where
  links := (ListOp.insertBefore 24 8).run ((ListOp.insertAfter 16 8).run
    ((ListOp.init 8).run ⟨fun _ => 0, fun _ => 0⟩))
  lists := (ListOp.insertBefore 24 8).effect ((ListOp.insertAfter 16 8).effect
    ((ListOp.init 8).effect fun _ => none))

theorem twoNodes_reachable : listSystem.Reachable twoNodes := by
  have hinit : listSystem.Reachable ⟨⟨fun _ => 0, fun _ => 0⟩, fun _ => none⟩ :=
    TransitionSystem.Reachable.init rfl
  have hhead := hinit.step ⟨.init 8, trivial, rfl⟩
  have hone := hhead.step ⟨.insertAfter 16 8, ⟨?_, ⟨8, [], rfl, List.mem_cons_self⟩⟩, rfl⟩
  · refine hone.step ⟨.insertBefore 24 8, ⟨?_, ⟨8, [16], rfl, List.mem_cons_self⟩⟩, rfl⟩
    rintro ⟨head, xs, hxs, hmem⟩
    by_cases hhead : head = 8
    · subst hhead
      have hxs' : xs = [16] := (Option.some.inj hxs).symm
      rw [hxs'] at hmem
      exact absurd hmem (by decide)
    · simp [ListOp.effect, hhead] at hxs
  · rintro ⟨head, xs, hxs, hmem⟩
    by_cases hhead : head = 8
    · subst hhead
      have hxs' : xs = [] := (Option.some.inj hxs).symm
      rw [hxs'] at hmem
      exact absurd hmem (by decide)
    · simp [ListOp.effect, hhead] at hxs

theorem lists_of_reachable_two :
    listItr twoNodes.links 8 3 = some [16, 24] ∧
      listItrRev twoNodes.links 8 3 = some [24, 16] :=
  (lists_of_reachable twoNodes twoNodes_reachable).1 8 [16, 24] rfl 3 (by decide)

end Lists
end NochOS
