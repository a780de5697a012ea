import NochOS.Library.Ring

/-!
# Library - Families of disjoint rings

Several lists live in one set of links, each a ring through its own head, and no
node is in two of them.  An operation edits one list, at a member or at the head,
and brings in nodes of no other list; the family stays a family, and the links of
the other lists are left alone.

Main results:

- Theorem `Rings.update`: a family in which one list is new or edited.
- Theorem `Rings.edit`: the same for a sequence edited at one position.
- Theorem `Edit.frame`: the links of the other lists are unchanged.
- Theorems `Ring.edit_after`, `Ring.edit_before`, `Ring.edit_delete`,
  `Ring.edit_replace`, `Ring.edit_splice`: the five edits.
-/

namespace NochOS
namespace Library

variable {α : Type*}

/-! ## Sequences edited at a member -/

section Sequences

variable [DecidableEq α]

/-- The sequence with a member replaced by the nodes of another. -/
def substitute (x : α) (us xs : List α) : List α :=
  xs.flatMap fun y => if y = x then us else [y]

/-- The sequence of a list with nodes added after its head or after a member. -/
def addAfter (head pos : α) (us xs : List α) : List α :=
  if pos = head then us ++ xs else substitute pos (pos :: us) xs

/-- The sequence of a list with nodes added before its head, which is at the end,
or before a member. -/
def addBefore (head pos : α) (us xs : List α) : List α :=
  if pos = head then xs ++ us else substitute pos (us ++ [pos]) xs

variable {x y head pos : α} {us xs ys : List α}

/-- Without the member the sequence stays as it is. -/
theorem substitute_of_notMem (h : x ∉ xs) : substitute x us xs = xs := by
  induction xs with
  | nil => rfl
  | cons y ys ih =>
      have hne : y ≠ x := fun heq => h (heq ▸ List.mem_cons_self)
      rw [substitute, List.flatMap_cons, if_neg hne]
      exact congrArg (y :: ·) (ih fun hmem => h (List.mem_cons_of_mem y hmem))

/-- The nodes come in at the place of the member. -/
theorem substitute_split (hxs : x ∉ xs) (hys : x ∉ ys) :
    substitute x us (xs ++ x :: ys) = xs ++ (us ++ ys) := by
  have hleft := @substitute_of_notMem α _ x us xs hxs
  have hright := @substitute_of_notMem α _ x us ys hys
  unfold substitute at hleft hright ⊢
  rw [List.flatMap_append, List.flatMap_cons, if_pos rfl, hleft, hright]

/-- A member replaced by itself. -/
theorem substitute_self (x : α) (xs : List α) : substitute x [x] xs = xs := by
  induction xs with
  | nil => rfl
  | cons y ys ih =>
      have hself : (if y = x then [x] else [y]) = [y] := by
        split
        · rename_i heq
          rw [heq]
        · rfl
      rw [substitute, List.flatMap_cons, hself]
      exact congrArg (y :: ·) ih

theorem mem_substitute (h : y ∈ substitute x us xs) : y ∈ us ∨ y ∈ xs := by
  obtain ⟨z, hz, hy⟩ := List.mem_flatMap.mp h
  split at hy
  · exact Or.inl hy
  · rw [List.mem_singleton.mp hy]
    exact Or.inr hz

theorem addAfter_of_notMem (h : pos ∉ head :: xs) : addAfter head pos us xs = xs := by
  rw [List.mem_cons, not_or] at h
  rw [addAfter, if_neg h.1, substitute_of_notMem h.2]

theorem addAfter_nil (head pos : α) (xs : List α) : addAfter head pos [] xs = xs := by
  unfold addAfter
  split
  · rfl
  · exact substitute_self pos xs

theorem addBefore_of_notMem (h : pos ∉ head :: xs) : addBefore head pos us xs = xs := by
  rw [List.mem_cons, not_or] at h
  rw [addBefore, if_neg h.1, substitute_of_notMem h.2]

theorem mem_addAfter (hpos : pos ∈ head :: xs) (h : y ∈ addAfter head pos us xs) :
    y ∈ us ∨ y ∈ head :: xs := by
  unfold addAfter at h
  split at h
  · exact (List.mem_append.mp h).imp_right (List.mem_cons_of_mem head)
  · rcases mem_substitute h with hmem | hmem
    · rcases List.mem_cons.mp hmem with rfl | hmem
      · exact Or.inr hpos
      · exact Or.inl hmem
    · exact Or.inr (List.mem_cons_of_mem head hmem)

theorem mem_addBefore (hpos : pos ∈ head :: xs) (h : y ∈ addBefore head pos us xs) :
    y ∈ us ∨ y ∈ head :: xs := by
  unfold addBefore at h
  split at h
  · exact (List.mem_append.mp h).symm.imp_right (List.mem_cons_of_mem head)
  · rcases mem_substitute h with hmem | hmem
    · rcases List.mem_append.mp hmem with hmem | hmem
      · exact Or.inl hmem
      · rw [List.mem_singleton.mp hmem]
        exact Or.inr hpos
    · exact Or.inr (List.mem_cons_of_mem head hmem)

end Sequences

/-- A member splits a sequence of different nodes, and is in neither part. -/
theorem nodup_split {x : α} {xs : List α} (hnodup : xs.Nodup) (hx : x ∈ xs) :
    ∃ us vs, xs = us ++ x :: vs ∧ x ∉ us ∧ x ∉ vs := by
  obtain ⟨us, vs, rfl⟩ := List.append_of_mem hx
  have hsplit := List.nodup_cons.mp (List.nodup_middle.mp hnodup)
  rw [List.mem_append, not_or] at hsplit
  exact ⟨us, vs, rfl, hsplit.1⟩

/-! ## The family -/

/-- The nodes of the lists of a family, heads included. -/
def InList (lists : α → Option (List α)) (x : α) : Prop :=
  ∃ head xs, lists head = some xs ∧ x ∈ head :: xs

/-- Disjoint rings, one for each head that has a list. -/
structure Rings (l : Links α) (lists : α → Option (List α)) : Prop where
  ring : ∀ head xs, lists head = some xs → Ring l head xs
  disjoint : ∀ head xs head' xs', lists head = some xs → lists head' = some xs' →
    head ≠ head' → ∀ x ∈ head :: xs, x ∉ head' :: xs'

/-- What an edit of one list does: the list is a ring again, its nodes are its own or
were in no list, and nodes of other lists keep their links. -/
structure Edit (l l' : Links α) (lists : α → Option (List α)) (head : α) (xs xs' : List α) :
    Prop where
  ring : Ring l' head xs'
  mem : ∀ x ∈ xs', x ∈ head :: xs ∨ ¬ InList lists x
  agree : ∀ x, InList lists x → x ∉ head :: xs →
    l'.next x = l.next x ∧ l'.prev x = l.prev x

/-- A family with fewer lists. -/
theorem Rings.mono {l : Links α} {lists lists' : α → Option (List α)} (h : Rings l lists)
    (hsub : ∀ head xs, lists' head = some xs → lists head = some xs) : Rings l lists' where
  ring := fun head xs hxs => h.ring head xs (hsub head xs hxs)
  disjoint := fun head xs head' xs' hxs hxs' =>
    h.disjoint head xs head' xs' (hsub head xs hxs) (hsub head' xs' hxs')

/-- A family in which the list of one head is new or edited, and every other list is
an old one whose links are unchanged. -/
theorem Rings.update {l l' : Links α} {lists lists' : α → Option (List α)} (h : Rings l lists)
    {head : α} {xs' : List α} (hhead : lists' head = some xs') (hring : Ring l' head xs')
    (hother : ∀ other ys, other ≠ head → lists' other = some ys → lists other = some ys ∧
      ∀ x ∈ other :: ys, (l'.next x = l.next x ∧ l'.prev x = l.prev x) ∧ x ∉ head :: xs') :
    Rings l' lists' where
  ring := by
    intro other ys hys
    by_cases heq : other = head
    · subst heq
      rw [hhead, Option.some.injEq] at hys
      exact hys ▸ hring
    · obtain ⟨hold, hlinks⟩ := hother other ys heq hys
      exact (h.ring other ys hold).congr (fun x hx => (hlinks x hx).1.1)
        (fun x hx => (hlinks x hx).1.2)
  disjoint := by
    intro first ys second zs hys hzs hne x hx hx'
    by_cases hfirst : first = head
    · subst hfirst
      rw [hhead, Option.some.injEq] at hys
      exact ((hother second zs hne.symm hzs).2 x hx').2 (hys ▸ hx)
    · obtain ⟨hold, hlinks⟩ := hother first ys hfirst hys
      by_cases hsecond : second = head
      · subst hsecond
        rw [hhead, Option.some.injEq] at hzs
        exact (hlinks x hx).2 (hzs ▸ hx')
      · exact h.disjoint first ys second zs hold (hother second zs hsecond hzs).1 hne x hx hx'

variable {l l' : Links α} {lists : α → Option (List α)} {head : α} {xs xs' : List α}

/-- The lists other than the edited one keep their links. -/
theorem Edit.frame (he : Edit l l' lists head xs xs') (h : Rings l lists)
    (hhead : lists head = some xs) {other : α} {ys : List α} (hys : lists other = some ys)
    (hne : other ≠ head) :
    ∀ x ∈ other :: ys, l'.next x = l.next x ∧ l'.prev x = l.prev x := by
  intro x hx
  exact he.agree x ⟨other, ys, hys, hx⟩ (h.disjoint other ys head xs hys hhead hne x hx)

/-- A family in which the sequence with a position in it is edited, by an edit that
leaves sequences without the position alone. -/
theorem Rings.edit (h : Rings l lists) (hhead : lists head = some xs) {pos : α}
    (hpos : pos ∈ head :: xs) {f : α → List α → List α}
    (hid : ∀ other ys, pos ∉ other :: ys → f other ys = ys)
    (he : Edit l l' lists head xs (f head xs)) :
    Rings l' fun other => (lists other).map (f other) := by
  have hedited : (lists head).map (f head) = some (f head xs) := by
    rw [hhead, Option.map_some]
  refine h.update hedited he.ring ?_
  intro other ys' hne hys'
  obtain ⟨ys, hys, rfl⟩ := Option.map_eq_some_iff.mp hys'
  have hout := h.disjoint head xs other ys hhead hys hne.symm
  rw [hid other ys (hout pos hpos)]
  refine ⟨hys, fun x hx => ⟨he.frame h hhead hys hne x hx, fun hmem => ?_⟩⟩
  have hx' := h.disjoint other ys head xs hys hhead hne x hx
  rcases List.mem_cons.mp hmem with rfl | hmem
  · exact hx' List.mem_cons_self
  · rcases he.mem x hmem with hold | hnew
    · exact hx' hold
    · exact hnew ⟨other, ys, hys, hx⟩

/-! ## The five edits -/

section Edits

variable [DecidableEq α] {node pos : α}

/-- Nodes of other lists are not at the seam of a node that is linked in. -/
theorem Links.link_agree {p n : α} (hnode : ¬ InList lists node) (hp : p ∈ head :: xs)
    (hn : n ∈ head :: xs) (x : α) (hx : InList lists x) (hout : x ∉ head :: xs) :
    (l.link node p n).next x = l.next x ∧ (l.link node p n).prev x = l.prev x := by
  have hne : x ≠ node := fun heq => hnode (heq ▸ hx)
  have hxp : x ≠ p := fun heq => hout (heq ▸ hp)
  have hxn : x ≠ n := fun heq => hout (heq ▸ hn)
  exact ⟨Links.link_next_other hxp hne, Links.link_prev_other hne hxn⟩

/-- A node of no list is added after the head or a member. -/
theorem Ring.edit_after (h : Ring l head xs) (hhead : lists head = some xs)
    (hpos : pos ∈ head :: xs) (hnode : ¬ InList lists node) :
    Edit l (l.link node pos (l.next pos)) lists head xs (addAfter head pos [node] xs) where
  ring := by
    have hnew : node ∉ head :: xs := fun hmem => hnode ⟨head, xs, hhead, hmem⟩
    by_cases heq : pos = head
    · subst heq
      rw [addAfter, if_pos rfl]
      exact h.link_after hnew
    · have hmem := (List.mem_cons.mp hpos).resolve_left heq
      obtain ⟨us, vs, rfl, hus, hvs⟩ := nodup_split (List.nodup_cons.mp h.nodup).2 hmem
      rw [addAfter, if_neg heq, substitute_split hus hvs]
      exact h.link_member_after hnew
  mem := by
    intro x hx
    rcases mem_addAfter hpos hx with hmem | hmem
    · rw [List.mem_singleton.mp hmem]
      exact Or.inr hnode
    · exact Or.inl hmem
  agree := Links.link_agree hnode hpos (h.next_mem_circle hpos)

/-- A node of no list is added before the head or a member. -/
theorem Ring.edit_before (h : Ring l head xs) (hhead : lists head = some xs)
    (hpos : pos ∈ head :: xs) (hnode : ¬ InList lists node) :
    Edit l (l.link node (l.prev pos) pos) lists head xs (addBefore head pos [node] xs) where
  ring := by
    have hnew : node ∉ head :: xs := fun hmem => hnode ⟨head, xs, hhead, hmem⟩
    by_cases heq : pos = head
    · subst heq
      rw [addBefore, if_pos rfl]
      exact h.link_before hnew
    · have hmem := (List.mem_cons.mp hpos).resolve_left heq
      obtain ⟨us, vs, rfl, hus, hvs⟩ := nodup_split (List.nodup_cons.mp h.nodup).2 hmem
      rw [addBefore, if_neg heq, substitute_split hus hvs]
      exact h.link_member_before hnew
  mem := by
    intro x hx
    rcases mem_addBefore hpos hx with hmem | hmem
    · rw [List.mem_singleton.mp hmem]
      exact Or.inr hnode
    · exact Or.inl hmem
  agree := Links.link_agree hnode (h.prev_mem_circle hpos) hpos

/-- A member is taken out; what its own links become does not matter. -/
theorem Ring.edit_delete (h : Ring l head xs) (hhead : lists head = some xs) (hpos : pos ∈ xs)
    (hlinks : ∀ x, x ≠ pos → l'.next x = (l.unlink (l.prev pos) (l.next pos)).next x ∧
      l'.prev x = (l.unlink (l.prev pos) (l.next pos)).prev x) :
    Edit l l' lists head xs (substitute pos [] xs) where
  ring := by
    obtain ⟨us, vs, rfl, hus, hvs⟩ := nodup_split (List.nodup_cons.mp h.nodup).2 hpos
    rw [substitute_split hus hvs, List.nil_append]
    have hout : ∀ x ∈ head :: (us ++ vs), x ≠ pos := by
      rintro x hx rfl
      have hne := (List.nodup_cons.mp h.nodup).1
      simp only [List.mem_cons, List.mem_append] at hx hne
      tauto
    exact h.unlink_member.congr (fun x hx => (hlinks x (hout x hx)).1)
      (fun x hx => (hlinks x (hout x hx)).2)
  mem := by
    intro x hx
    exact Or.inl (List.mem_cons_of_mem head ((mem_substitute hx).resolve_left (by simp)))
  agree := by
    intro x _ hout
    have hcircle := List.mem_cons_of_mem head hpos
    have hne : x ≠ pos := fun heq => hout (heq ▸ hcircle)
    have hxp : x ≠ l.prev pos := fun heq => hout (heq ▸ h.prev_mem_circle hcircle)
    have hxn : x ≠ l.next pos := fun heq => hout (heq ▸ h.next_mem_circle hcircle)
    rw [(hlinks x hne).1, (hlinks x hne).2]
    exact ⟨Links.unlink_next_other hxp, Links.unlink_prev_other hxn⟩

/-- A node of no list takes the place of a member. -/
theorem Ring.edit_replace (h : Ring l head xs) (hhead : lists head = some xs) (hpos : pos ∈ xs)
    (hnode : ¬ InList lists node) :
    Edit l (l.link node (l.prev pos) (l.next pos)) lists head xs (substitute pos [node] xs) where
  ring := by
    have hnew : node ∉ head :: xs := fun hmem => hnode ⟨head, xs, hhead, hmem⟩
    obtain ⟨us, vs, rfl, hus, hvs⟩ := nodup_split (List.nodup_cons.mp h.nodup).2 hpos
    rw [substitute_split hus hvs]
    exact h.relink_member hnew
  mem := by
    intro x hx
    rcases mem_substitute hx with hmem | hmem
    · rw [List.mem_singleton.mp hmem]
      exact Or.inr hnode
    · exact Or.inl (List.mem_cons_of_mem head hmem)
  agree := Links.link_agree hnode (h.prev_mem_circle (List.mem_cons_of_mem head hpos))
    (h.next_mem_circle (List.mem_cons_of_mem head hpos))

/-- The members of a ring that is no list of the family are added after the head or a
member. -/
theorem Ring.edit_splice {source : α} {ms : List α} (h : Ring l head xs)
    (hhead : lists head = some xs) (hpos : pos ∈ head :: xs) (hms : Ring l source ms)
    (hne : ms ≠ []) (hnew : ∀ x ∈ ms, ¬ InList lists x) :
    Edit l (l.splice (l.next source) (l.prev source) pos (l.next pos)) lists head xs
      (addAfter head pos ms xs) where
  ring := by
    have hdisj : ∀ x ∈ ms, x ∉ head :: xs := fun x hx hmem =>
      hnew x hx ⟨head, xs, hhead, hmem⟩
    by_cases heq : pos = head
    · subst heq
      rw [addAfter, if_pos rfl]
      exact hms.splice hne h hdisj
    · have hmem := (List.mem_cons.mp hpos).resolve_left heq
      obtain ⟨us, vs, rfl, hus, hvs⟩ := nodup_split (List.nodup_cons.mp h.nodup).2 hmem
      rw [addAfter, if_neg heq, substitute_split hus hvs]
      have hdisj' : ∀ x ∈ ms, x ∉ pos :: (vs ++ head :: us) := fun x hx hin =>
        hdisj x hx (Ring.mem_rotate_iff.mp hin)
      have hring := hms.splice hne h.rotate hdisj'
      rw [← List.append_assoc] at hring
      exact hring.rotate
  mem := by
    intro x hx
    exact (mem_addAfter hpos hx).symm.imp_right (hnew x)
  agree := by
    intro x hx hout
    have hxp : x ≠ pos := fun heq => hout (heq ▸ hpos)
    have hxn : x ≠ l.next pos := fun heq => hout (heq ▸ h.next_mem_circle hpos)
    have hfirst : x ≠ l.next source := fun heq => hnew _ (hms.next_mem hne) (heq ▸ hx)
    have hlast : x ≠ l.prev source := fun heq => hnew _ (hms.prev_mem hne) (heq ▸ hx)
    exact ⟨Links.splice_next_other hlast hxp, Links.splice_prev_other hxn hfirst⟩

end Edits

end Library
end NochOS
