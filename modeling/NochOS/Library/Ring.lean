import Mathlib.Data.List.Nodup
import Mathlib.Logic.Function.Basic
import Mathlib.Tactic.Common

/-!
# Library - Circular doubly linked lists

Every node has a successor and a predecessor, and a list is a circle through a head.
A segment is a stretch of nodes that are linked both ways; a ring is a segment from
the head back to it through different nodes.  Linking a node in and taking one out
change the links at the seam only.

Main results:

- Theorem `Seg.append_iff`: a segment splits at each of its nodes.
- Theorem `Ring.rotate`: every node of a ring can be its head.
- Theorems `Ring.link_after`, `Ring.link_before`: a node is linked in at an end.
- Theorem `Ring.unlink_first`: the first node is taken out.
- Theorems `Ring.link_member_after`, `Ring.link_member_before`, `Ring.unlink_member`,
  `Ring.relink_member`: the same next to, or for, any member.
- Theorem `Ring.splice`: the members of one ring are moved into another.
- Theorems `Ring.walk_next`, `Ring.walk_prev`: the two traversals visit the members in
  opposite orders.
-/

namespace NochOS
namespace Library

/-- Successors and predecessors. -/
structure Links (α : Type*) where
  next : α → α
  prev : α → α

namespace Links

variable {α : Type*} [DecidableEq α] {l : Links α} {node p n x : α}

/-- The links after a node is put between two others. -/
def link (l : Links α) (node p n : α) : Links α where
  next := Function.update (Function.update l.next node n) p node
  prev := Function.update (Function.update l.prev n node) node p

/-- The links after all nodes between two others are taken out. -/
def unlink (l : Links α) (p n : α) : Links α where
  next := Function.update l.next p n
  prev := Function.update l.prev n p

/-- The links after the nodes from `first` to `last` are put between two others. -/
def splice (l : Links α) (first last p n : α) : Links α where
  next := Function.update (Function.update l.next p first) last n
  prev := Function.update (Function.update l.prev first p) n last

/-- The same nodes linked the other way round. -/
def reverse {α : Type*} (l : Links α) : Links α where
  next := l.prev
  prev := l.next

theorem link_next_prev (l : Links α) (node p n : α) : (l.link node p n).next p = node :=
  Function.update_self ..

theorem link_prev_node (l : Links α) (node p n : α) : (l.link node p n).prev node = p :=
  Function.update_self ..

theorem link_next_node (h : node ≠ p) : (l.link node p n).next node = n := by
  simp only [link, Function.update_of_ne h, Function.update_self]

theorem link_prev_next (h : n ≠ node) : (l.link node p n).prev n = node := by
  simp only [link, Function.update_of_ne h, Function.update_self]

theorem link_next_other (hp : x ≠ p) (hnode : x ≠ node) :
    (l.link node p n).next x = l.next x := by
  simp only [link, Function.update_of_ne hp, Function.update_of_ne hnode]

theorem link_prev_other (hnode : x ≠ node) (hn : x ≠ n) :
    (l.link node p n).prev x = l.prev x := by
  simp only [link, Function.update_of_ne hnode, Function.update_of_ne hn]

theorem unlink_next (l : Links α) (p n : α) : (l.unlink p n).next p = n :=
  Function.update_self ..

theorem unlink_prev (l : Links α) (p n : α) : (l.unlink p n).prev n = p :=
  Function.update_self ..

theorem unlink_next_other (hp : x ≠ p) : (l.unlink p n).next x = l.next x :=
  Function.update_of_ne hp ..

theorem unlink_prev_other (hn : x ≠ n) : (l.unlink p n).prev x = l.prev x :=
  Function.update_of_ne hn ..

/-- Taking nodes out before a node is linked in at the same seam makes no difference. -/
theorem link_unlink (l : Links α) (node p n : α) :
    (l.unlink p n).link node p n = l.link node p n := by
  have hnext : Function.update (Function.update (Function.update l.next p n) node n) p node =
      Function.update (Function.update l.next node n) p node := by
    funext x
    simp only [Function.update_apply]
    split <;> rfl
  have hprev : Function.update (Function.update (Function.update l.prev n p) n node) node p =
      Function.update (Function.update l.prev n node) node p := by
    rw [Function.update_idem]
  simp only [link, unlink, hnext, hprev]

variable {first last : α}

theorem splice_next_last (l : Links α) (first last p n : α) :
    (l.splice first last p n).next last = n :=
  Function.update_self ..

theorem splice_prev_next (l : Links α) (first last p n : α) :
    (l.splice first last p n).prev n = last :=
  Function.update_self ..

theorem splice_next_prev (h : p ≠ last) : (l.splice first last p n).next p = first := by
  simp only [splice, Function.update_of_ne h, Function.update_self]

theorem splice_prev_first (h : first ≠ n) : (l.splice first last p n).prev first = p := by
  simp only [splice, Function.update_of_ne h, Function.update_self]

theorem splice_next_other (hlast : x ≠ last) (hp : x ≠ p) :
    (l.splice first last p n).next x = l.next x := by
  simp only [splice, Function.update_of_ne hlast, Function.update_of_ne hp]

theorem splice_prev_other (hn : x ≠ n) (hfirst : x ≠ first) :
    (l.splice first last p n).prev x = l.prev x := by
  simp only [splice, Function.update_of_ne hn, Function.update_of_ne hfirst]

end Links

variable {α : Type*}

/-- From `a` through the nodes of a list to `b`, neighbours are linked both ways. -/
def Seg (l : Links α) : α → List α → α → Prop
  | a, [], b => l.next a = b ∧ l.prev b = a
  | a, x :: xs, b => l.next a = x ∧ l.prev x = a ∧ Seg l x xs b

/-- The nodes of a list, linked into a circle through the head. -/
structure Ring (l : Links α) (head : α) (xs : List α) : Prop where
  seg : Seg l head xs head
  nodup : (head :: xs).Nodup

namespace Seg

variable {l l' : Links α} {a b : α} {xs : List α}

/-- A segment splits at each of its nodes. -/
theorem append_iff {y : α} {ys : List α} :
    Seg l a (xs ++ y :: ys) b ↔ Seg l a xs y ∧ Seg l y ys b := by
  induction xs generalizing a with
  | nil =>
      constructor
      · rintro ⟨hnext, hprev, hrest⟩
        exact ⟨⟨hnext, hprev⟩, hrest⟩
      · rintro ⟨⟨hnext, hprev⟩, hrest⟩
        exact ⟨hnext, hprev, hrest⟩
  | cons x xs ih =>
      constructor
      · rintro ⟨hnext, hprev, hrest⟩
        obtain ⟨hleft, hright⟩ := ih.mp hrest
        exact ⟨⟨hnext, hprev, hleft⟩, hright⟩
      · rintro ⟨⟨hnext, hprev, hleft⟩, hright⟩
        exact ⟨hnext, hprev, ih.mpr ⟨hleft, hright⟩⟩

/-- A segment depends on the successors of all its nodes but the last, and on the
predecessors of all but the first. -/
theorem congr (h : Seg l a xs b) (hnext : ∀ x ∈ a :: xs, l'.next x = l.next x)
    (hprev : ∀ x ∈ xs, l'.prev x = l.prev x) (hlast : l'.prev b = l.prev b) :
    Seg l' a xs b := by
  induction xs generalizing a with
  | nil => exact ⟨(hnext a List.mem_cons_self).trans h.1, hlast.trans h.2⟩
  | cons x xs ih =>
      refine ⟨(hnext a List.mem_cons_self).trans h.1,
        (hprev x List.mem_cons_self).trans h.2.1, ih h.2.2 ?_ ?_⟩
      · intro y hy
        exact hnext y (List.mem_cons_of_mem a hy)
      · intro y hy
        exact hprev y (List.mem_cons_of_mem x hy)

/-- A segment read the other way round. -/
theorem reverse (h : Seg l a xs b) : Seg l.reverse b xs.reverse a := by
  induction xs generalizing a with
  | nil => exact ⟨h.2, h.1⟩
  | cons x xs ih =>
      obtain ⟨hnext, hprev, hrest⟩ := h
      rw [List.reverse_cons]
      exact append_iff.mpr ⟨ih hrest, hprev, hnext⟩

end Seg

/-- The nodes met from `x` on until the head comes up again, in at most `fuel` steps. -/
def walk [DecidableEq α] (step : α → α) (head : α) : Nat → α → Option (List α)
  | 0, _ => none
  | fuel + 1, x =>
      if x ≠ head then (walk step head fuel (step x)).map (x :: ·)
      else some []

/-- A walk along a segment that ends in the head meets its nodes. -/
theorem Seg.walk_next [DecidableEq α] {l : Links α} {head : α} {xs : List α} :
    ∀ {a : α} {fuel : Nat}, Seg l a xs head → head ∉ xs → xs.length < fuel →
      walk l.next head fuel (l.next a) = some xs := by
  induction xs with
  | nil =>
      intro a fuel h _ hfuel
      obtain ⟨fuel, rfl⟩ := Nat.exists_eq_add_one_of_ne_zero (Nat.ne_zero_of_lt hfuel)
      rw [walk, h.1, if_neg (not_not_intro rfl)]
  | cons x xs ih =>
      intro a fuel h hhead hfuel
      obtain ⟨fuel, rfl⟩ := Nat.exists_eq_add_one_of_ne_zero (Nat.ne_zero_of_lt hfuel)
      obtain ⟨hnext, -, hrest⟩ := h
      have hne : x ≠ head := fun heq => hhead (heq ▸ List.mem_cons_self)
      have hwalk := ih hrest (fun hmem => hhead (List.mem_cons_of_mem x hmem))
        (Nat.lt_of_succ_lt_succ hfuel)
      rw [walk, hnext, if_pos hne, hwalk]
      rfl

namespace Ring

variable {l l' : Links α} {head node : α} {xs : List α}

/-- Every node of a ring can be its head. -/
theorem rotate {ys : List α} {x : α} (h : Ring l head (xs ++ x :: ys)) :
    Ring l x (ys ++ head :: xs) where
  seg := by
    obtain ⟨hleft, hright⟩ := Seg.append_iff.mp h.seg
    exact Seg.append_iff.mpr ⟨hright, hleft⟩
  nodup := by
    have hperm : (x :: (ys ++ head :: xs)).Perm (head :: (xs ++ x :: ys)) :=
      @List.perm_append_comm α (x :: ys) (head :: xs)
    exact hperm.nodup_iff.mpr h.nodup

/-- A rotated circle has the same nodes. -/
theorem mem_rotate_iff {ys : List α} {x y : α} :
    y ∈ x :: (ys ++ head :: xs) ↔ y ∈ head :: (xs ++ x :: ys) := by
  simp only [List.mem_cons, List.mem_append]
  tauto

/-- The head of an empty ring is its own neighbour. -/
theorem nil_iff : Ring l head [] ↔ l.next head = head ∧ l.prev head = head := by
  constructor
  · intro h
    exact h.seg
  · intro h
    exact ⟨h, List.nodup_singleton head⟩

/-- A ring is empty exactly if the head follows itself. -/
theorem next_eq_iff (h : Ring l head xs) : l.next head = head ↔ xs = [] := by
  cases xs with
  | nil => exact ⟨fun _ => rfl, fun _ => h.seg.1⟩
  | cons x xs =>
      constructor
      · intro heq
        have hne := (List.nodup_cons.mp h.nodup).1
        rw [← heq, h.seg.1] at hne
        exact absurd List.mem_cons_self hne
      · intro hnil
        exact absurd hnil (List.cons_ne_nil x xs)

/-- A ring depends on the links of its nodes. -/
theorem congr (h : Ring l head xs) (hnext : ∀ x ∈ head :: xs, l'.next x = l.next x)
    (hprev : ∀ x ∈ head :: xs, l'.prev x = l.prev x) : Ring l' head xs where
  seg := h.seg.congr hnext (fun x hx => hprev x (List.mem_cons_of_mem head hx))
    (hprev head List.mem_cons_self)
  nodup := h.nodup

/-- A ring read the other way round. -/
theorem reverse (h : Ring l head xs) : Ring l.reverse head xs.reverse where
  seg := h.seg.reverse
  nodup := by
    have hperm : (head :: xs.reverse).Perm (head :: xs) := (List.reverse_perm xs).cons head
    exact hperm.nodup_iff.mpr h.nodup

/-- Seen from its predecessor a member comes first, and whatever takes its place
there takes its place in the ring. -/
theorem from_prev {ys : List α} {x : α} (h : Ring l head (xs ++ x :: ys)) :
    ∃ zs, Ring l (l.prev x) (x :: zs) ∧
      (l.prev x :: x :: zs).Perm (head :: (xs ++ x :: ys)) ∧
      ∀ {l' : Links α} {us : List α}, Ring l' (l.prev x) (us ++ zs) →
        Ring l' head (xs ++ (us ++ ys)) := by
  obtain ⟨hleft, -⟩ := Seg.append_iff.mp h.seg
  rcases List.eq_nil_or_concat xs with rfl | ⟨ws, p, rfl⟩
  · rw [hleft.2]
    exact ⟨ys, h, List.Perm.refl _, fun h' => h'⟩
  · rw [List.concat_eq_append] at h hleft ⊢
    have hp : l.prev x = p := (Seg.append_iff.mp hleft).2.2
    have hperm : (p :: x :: (ys ++ head :: ws)).Perm (head :: (ws ++ p :: x :: ys)) :=
      @List.perm_append_comm α (p :: x :: ys) (head :: ws)
    rw [List.append_assoc] at h ⊢
    rw [hp]
    refine ⟨ys ++ head :: ws, h.rotate, hperm, fun {l' us} h' => ?_⟩
    rw [← List.append_assoc] at h'
    rw [List.append_assoc]
    exact h'.rotate

/-- The successor of the head of a ring with members is a member. -/
theorem next_mem (h : Ring l head xs) (hne : xs ≠ []) : l.next head ∈ xs := by
  obtain ⟨x, ys, rfl⟩ := List.exists_cons_of_ne_nil hne
  rw [h.seg.1]
  exact List.mem_cons_self

/-- The predecessor of the head of a ring with members is a member. -/
theorem prev_mem (h : Ring l head xs) (hne : xs ≠ []) : l.prev head ∈ xs :=
  List.mem_reverse.mp (h.reverse.next_mem (by simpa using hne))

/-- The successors of the nodes of a circle are in it. -/
theorem next_mem_circle {x : α} (h : Ring l head xs) (hx : x ∈ head :: xs) :
    l.next x ∈ head :: xs := by
  rcases List.mem_cons.mp hx with rfl | hx
  · by_cases hnil : xs = []
    · subst hnil
      rw [h.seg.1]
      exact List.mem_cons_self
    · exact List.mem_cons_of_mem _ (h.next_mem hnil)
  · obtain ⟨us, vs, rfl⟩ := List.append_of_mem hx
    have hmem := h.rotate.next_mem (by simp)
    exact mem_rotate_iff.mp (List.mem_cons_of_mem x hmem)

/-- The predecessors of the nodes of a circle are in it. -/
theorem prev_mem_circle {x : α} (h : Ring l head xs) (hx : x ∈ head :: xs) :
    l.prev x ∈ head :: xs := by
  have hmem : l.prev x ∈ head :: xs.reverse :=
    h.reverse.next_mem_circle (by simpa using hx)
  simpa using hmem

variable [DecidableEq α]

/-- The traversal along the successors visits the members in order. -/
theorem walk_next {fuel : Nat} (h : Ring l head xs) (hfuel : xs.length < fuel) :
    walk l.next head fuel (l.next head) = some xs :=
  h.seg.walk_next (List.nodup_cons.mp h.nodup).1 hfuel

/-- The traversal along the predecessors visits them in the opposite order. -/
theorem walk_prev {fuel : Nat} (h : Ring l head xs) (hfuel : xs.length < fuel) :
    walk l.prev head fuel (l.prev head) = some xs.reverse :=
  h.reverse.walk_next (by rwa [List.length_reverse])

/-- A node is linked in after the head. -/
theorem link_after (h : Ring l head xs) (hnew : node ∉ head :: xs) :
    Ring (l.link node head (l.next head)) head (node :: xs) := by
  have hne : node ≠ head := fun heq => hnew (heq ▸ List.mem_cons_self)
  have hother : ∀ x ∈ xs, x ≠ node ∧ x ≠ head := by
    intro x hx
    constructor
    · intro heq
      exact hnew (heq ▸ List.mem_cons_of_mem head hx)
    · intro heq
      exact (List.nodup_cons.mp h.nodup).1 (heq ▸ hx)
  refine ⟨?_, ?_⟩
  · refine ⟨Links.link_next_prev .., Links.link_prev_node .., ?_⟩
    cases xs with
    | nil =>
        have hnext := h.seg.1
        rw [hnext]
        exact ⟨Links.link_next_node hne, Links.link_prev_next hne.symm⟩
    | cons x xs =>
        obtain ⟨hnext, -, hrest⟩ := h.seg
        have hx := hother x List.mem_cons_self
        have hnodup := List.nodup_cons.mp (List.nodup_cons.mp h.nodup).2
        rw [hnext]
        refine ⟨Links.link_next_node hne, Links.link_prev_next hx.1, hrest.congr ?_ ?_ ?_⟩
        · intro y hy
          exact Links.link_next_other (hother y hy).2 (hother y hy).1
        · intro y hy
          have hy' := hother y (List.mem_cons_of_mem x hy)
          exact Links.link_prev_other hy'.1 fun heq => hnodup.1 (heq ▸ hy)
        · exact Links.link_prev_other hne.symm hx.2.symm
  · refine List.nodup_cons.mpr ⟨?_, List.nodup_cons.mpr ⟨?_, (List.nodup_cons.mp h.nodup).2⟩⟩
    · intro hmem
      rcases List.mem_cons.mp hmem with heq | hmem
      · exact hne heq.symm
      · exact (List.nodup_cons.mp h.nodup).1 hmem
    · intro hmem
      exact hnew (List.mem_cons_of_mem head hmem)

/-- A node is linked in before the head, at the end of the list. -/
theorem link_before (h : Ring l head xs) (hnew : node ∉ head :: xs) :
    Ring (l.link node (l.prev head) head) head (xs ++ [node]) := by
  rcases List.eq_nil_or_concat xs with rfl | ⟨ys, z, rfl⟩
  · have hself := nil_iff.mp h
    have hring := h.link_after hnew
    rw [hself.1] at hring
    rw [hself.2]
    exact hring
  · -- the last node is the head of a rotated ring, and the new node comes after it
    rw [List.concat_eq_append] at h hnew ⊢
    have hlast : Ring l z (head :: ys) := h.rotate
    obtain ⟨hnext, hprev, -⟩ := hlast.seg
    have hnew' : node ∉ z :: head :: ys := fun hmem =>
      hnew ((@mem_rotate_iff α head ys [] z node).mp hmem)
    have hring := hlast.link_after hnew'
    rw [hnext] at hring
    rw [hprev, List.append_assoc]
    exact @Ring.rotate _ _ z [node] ys head hring

/-- The first node is taken out. -/
theorem unlink_first {x : α} (h : Ring l head (x :: xs)) :
    Ring (l.unlink head (l.next x)) head xs := by
  have hx := List.nodup_cons.mp (List.nodup_cons.mp h.nodup).2
  have hhead := (List.nodup_cons.mp h.nodup).1
  obtain ⟨-, -, hrest⟩ := h.seg
  refine ⟨?_, List.nodup_cons.mpr ⟨fun hmem => hhead (List.mem_cons_of_mem x hmem), hx.2⟩⟩
  cases xs with
  | nil =>
      rw [hrest.1]
      exact ⟨Links.unlink_next .., Links.unlink_prev ..⟩
  | cons y ys =>
      obtain ⟨hnext, -, hrest⟩ := hrest
      have hy := List.nodup_cons.mp hx.2
      rw [hnext]
      refine ⟨Links.unlink_next .., Links.unlink_prev .., hrest.congr ?_ ?_ ?_⟩
      · intro z hz
        refine Links.unlink_next_other fun heq => hhead ?_
        exact heq ▸ List.mem_cons_of_mem x hz
      · intro z hz
        exact Links.unlink_prev_other fun heq => hy.1 (heq ▸ hz)
      · refine Links.unlink_prev_other fun heq => hhead ?_
        exact heq ▸ List.mem_cons_of_mem x List.mem_cons_self

/-! ### At any member -/

/-- A node is linked in after a member. -/
theorem link_member_after {ys : List α} {pos : α} (h : Ring l head (xs ++ pos :: ys))
    (hnew : node ∉ head :: (xs ++ pos :: ys)) :
    Ring (l.link node pos (l.next pos)) head (xs ++ pos :: node :: ys) := by
  have hnew' : node ∉ pos :: (ys ++ head :: xs) := fun hmem => hnew (mem_rotate_iff.mp hmem)
  exact @rotate α _ pos (node :: ys) xs head (h.rotate.link_after hnew')

/-- A node is linked in before a member. -/
theorem link_member_before {ys : List α} {pos : α} (h : Ring l head (xs ++ pos :: ys))
    (hnew : node ∉ head :: (xs ++ pos :: ys)) :
    Ring (l.link node (l.prev pos) pos) head (xs ++ node :: pos :: ys) := by
  have hnew' : node ∉ pos :: (ys ++ head :: xs) := fun hmem => hnew (mem_rotate_iff.mp hmem)
  have hring := h.rotate.link_before hnew'
  rw [List.append_assoc, List.cons_append] at hring
  have hback := hring.rotate
  rwa [List.append_assoc] at hback

/-- A member is taken out. -/
theorem unlink_member {ys : List α} {x : α} (h : Ring l head (xs ++ x :: ys)) :
    Ring (l.unlink (l.prev x) (l.next x)) head (xs ++ ys) := by
  obtain ⟨zs, hring, -, hback⟩ := h.from_prev
  exact @hback _ [] hring.unlink_first

/-- A node takes the place of a member. -/
theorem relink_member {ys : List α} {x : α} (h : Ring l head (xs ++ x :: ys))
    (hnew : node ∉ head :: (xs ++ x :: ys)) :
    Ring (l.link node (l.prev x) (l.next x)) head (xs ++ node :: ys) := by
  obtain ⟨zs, hring, hperm, hback⟩ := h.from_prev
  have hnew' : node ∉ l.prev x :: zs := by
    intro hmem
    apply hnew
    rw [← hperm.mem_iff]
    simp only [List.mem_cons] at hmem ⊢
    tauto
  have hlinked := hring.unlink_first.link_after hnew'
  rw [Links.unlink_next, Links.link_unlink] at hlinked
  exact @hback _ [node] hlinked

/-! ### Moving the members of a ring -/

/-- The members of a ring after the splice, from the position to its old successor. -/
theorem splice_seg {ms : List α} {p n : α} (h : Ring l head ms) (hne : ms ≠ [])
    (hp : p ∉ ms) (hn : n ∉ ms) :
    Seg (l.splice (l.next head) (l.prev head) p n) p ms n := by
  obtain ⟨first, rest, rfl⟩ := List.exists_cons_of_ne_nil hne
  have hnodup := (List.nodup_cons.mp h.nodup).2
  have hfirst : l.next head = first := h.seg.1
  rcases List.eq_nil_or_concat rest with rfl | ⟨mid, last, rfl⟩
  · have hlast : l.prev head = first := h.seg.2.2.2
    rw [hfirst, hlast]
    refine ⟨Links.splice_next_prev ?_, Links.splice_prev_first ?_, Links.splice_next_last ..,
      Links.splice_prev_next ..⟩
    · rintro rfl
      exact hp List.mem_cons_self
    · rintro rfl
      exact hn List.mem_cons_self
  · rw [List.concat_eq_append] at h hp hn hnodup ⊢
    obtain ⟨-, -, hrest⟩ := h.seg
    obtain ⟨hmid, -, hlast⟩ := Seg.append_iff.mp hrest
    have hsplit := List.nodup_append.mp (show ((first :: mid) ++ [last]).Nodup from hnodup)
    rw [hfirst, hlast]
    have hmem : ∀ x ∈ first :: mid, x ≠ last ∧ x ≠ p ∧ x ≠ n := by
      intro x hx
      have hx' : x ∈ first :: (mid ++ [last]) := List.mem_append_left [last] hx
      refine ⟨fun heq => hsplit.2.2 x hx last List.mem_cons_self heq, ?_, ?_⟩
      · rintro rfl
        exact hp hx'
      · rintro rfl
        exact hn hx'
    have hlastmem : last ∈ first :: (mid ++ [last]) := by simp
    refine ⟨Links.splice_next_prev ?_, Links.splice_prev_first ?_,
      Seg.append_iff.mpr ⟨hmid.congr ?_ ?_ ?_, Links.splice_next_last ..,
        Links.splice_prev_next ..⟩⟩
    · rintro rfl
      exact hp hlastmem
    · exact (hmem first List.mem_cons_self).2.2
    · intro x hx
      exact Links.splice_next_other (hmem x hx).1 (hmem x hx).2.1
    · intro x hx
      refine Links.splice_prev_other (hmem x (List.mem_cons_of_mem first hx)).2.2 ?_
      rintro rfl
      exact (List.nodup_cons.mp hsplit.1).1 hx
    · refine Links.splice_prev_other ?_ ?_
      · rintro rfl
        exact hn hlastmem
      · exact (hmem first List.mem_cons_self).1.symm

/-- The members of one ring are moved into another, after its head. -/
theorem splice {ms : List α} {pos : α} {zs : List α} (h : Ring l head ms) (hne : ms ≠ [])
    (hpos : Ring l pos zs) (hdisj : ∀ x ∈ ms, x ∉ pos :: zs) :
    Ring (l.splice (l.next head) (l.prev head) pos (l.next pos)) pos (ms ++ zs) where
  seg := by
    have hp : pos ∉ ms := fun hmem => hdisj pos hmem List.mem_cons_self
    have hn : l.next pos ∉ ms := fun hmem =>
      hdisj _ hmem (hpos.next_mem_circle List.mem_cons_self)
    have hms := h.splice_seg hne hp hn
    cases zs with
    | nil =>
        rw [List.append_nil]
        rw [hpos.seg.1] at hms ⊢
        exact hms
    | cons z zs =>
        have hfirst := h.next_mem hne
        have hlast := h.prev_mem hne
        obtain ⟨hnext, -, hrest⟩ := hpos.seg
        have hout := List.nodup_cons.mp hpos.nodup
        have hz := List.nodup_cons.mp hout.2
        rw [hnext] at hms ⊢
        refine Seg.append_iff.mpr ⟨hms, hrest.congr ?_ ?_ ?_⟩
        · intro x hx
          refine Links.splice_next_other ?_ ?_
          · rintro rfl
            exact hdisj _ hlast (List.mem_cons_of_mem pos hx)
          · rintro rfl
            exact hout.1 hx
        · intro x hx
          refine Links.splice_prev_other ?_ ?_
          · rintro rfl
            exact hz.1 hx
          · rintro rfl
            exact hdisj _ hfirst (List.mem_cons_of_mem pos (List.mem_cons_of_mem z hx))
        · refine Links.splice_prev_other ?_ ?_
          · rintro rfl
            exact hout.1 List.mem_cons_self
          · rintro rfl
            exact hdisj _ hfirst List.mem_cons_self
  nodup := by
    have hms := (List.nodup_cons.mp h.nodup).2
    have hall := List.nodup_append.mpr ⟨hms, hpos.nodup, fun x hx y hy heq =>
      hdisj x hx (heq ▸ hy)⟩
    exact (List.perm_middle.nodup_iff).mp hall

end Ring

end Library
end NochOS
