import Mathlib.Data.List.Basic

/-!
# Library - Paths in a tree

A path is a sequence of names with separators between them.  It is resolved from left
to right, from an object of a tree on: one name stands for the object itself, one for
its parent, and every other name for a child.  A separator at the end is ignored, and
so is one at the start, which makes the path start at the root.

Main results:

- Definition `Tree.resolve`: what a path means.
- Definition `Tree.Climbs`: whether a path goes above the root on its way.
- Theorem `Tree.resolve_absolute`: what the name of an object from the root on means.
- Theorems `Tree.resolveFrom_last`, `Tree.resolveFrom_trailing`,
  `Tree.resolveFrom_inner`: how the first name of a path is taken off.
-/

namespace NochOS
namespace Library

universe u v

/-- Objects that are found by name in their parents.  The root is its own parent. -/
structure Tree (Name : Type u) (Obj : Type v) where
  root : Obj
  parent : Obj → Obj
  child : Obj → Name → Option Obj
  parent_root : parent root = root
  parent_child : ∀ {o n c}, child o n = some c → parent c = o

/-- The separator, the name of an object in itself, and the name of its parent. -/
structure PathSyntax (α : Type u) where
  sep : α
  here : List α
  up : List α

/-- What a path means: an object, a name that an object does not have, or nothing. -/
inductive Resolution (Name : Type u) (Obj : Type v) where
  | invalid
  | found (o : Obj)
  | missing (base : Obj) (name : Name)

namespace Tree

variable {α : Type u} {Obj : Type v} [DecidableEq α] (T : Tree (List α) Obj) (p : PathSyntax α)

/-- One name. -/
def step (o : Obj) (n : List α) : Option Obj :=
  if n = p.here then some o else if n = p.up then some (T.parent o) else T.child o n

/-- Names from left to right.  Only the last one may be missing. -/
def walk (o : Obj) : List (List α) → Resolution (List α) Obj
  | [] => .found o
  | [n] => (T.step p o n).elim (.missing o n) .found
  | n :: m :: names => (T.step p o n).elim .invalid fun c => walk c (m :: names)

/-- A path without the separator at its end. -/
def trim (path : List α) : List α :=
  if path.getLast? = some p.sep then path.dropLast else path

/-- A path from an object on.  No name is empty. -/
def resolveFrom (o : Obj) (path : List α) : Resolution (List α) Obj :=
  let names := (trim p path).splitOn p.sep
  if [] ∈ names then .invalid else T.walk p o names

/-- A path, with an object that those start at which do not start at the root. -/
def resolve (cwd : Obj) (path : List α) : Resolution (List α) Obj :=
  if path = [] then .invalid
  else if path = [p.sep] then .found T.root
  else if path.head? = some p.sep then T.resolveFrom p T.root path.tail
  else T.resolveFrom p cwd path

variable {T p} {o : Obj} {name : List α}

theorem step_here (h : name = p.here) : T.step p o name = some o := if_pos h

theorem step_up (hhere : name ≠ p.here) (h : name = p.up) :
    T.step p o name = some (T.parent o) := by
  rw [step, if_neg hhere, if_pos h]

theorem step_child (hhere : name ≠ p.here) (hup : name ≠ p.up) :
    T.step p o name = T.child o name := by
  rw [step, if_neg hhere, if_neg hup]

theorem trim_append_sep (path : List α) : trim p (path ++ [p.sep]) = path := by
  simp [trim]

theorem trim_of_notMem (h : p.sep ∉ name) : trim p name = name := by
  rw [trim, if_neg]
  intro hlast
  exact h (List.mem_of_getLast? hlast)

/-- What stands before a path does not matter for the separator at its end. -/
theorem trim_append {rest : List α} (hrest : rest ≠ []) :
    trim p (name ++ rest) = name ++ trim p rest := by
  unfold trim
  rw [List.getLast?_append_of_ne_nil _ hrest, List.dropLast_append_of_ne_nil hrest]
  by_cases hsep : rest.getLast? = some p.sep
  · rw [if_pos hsep, if_pos hsep]
  · rw [if_neg hsep, if_neg hsep]

/-- A path of one name. -/
theorem resolveFrom_last (hsep : p.sep ∉ name) (hne : name ≠ []) :
    T.resolveFrom p o name = (T.step p o name).elim (.missing o name) .found := by
  simp only [resolveFrom, trim_of_notMem hsep, List.splitOn_eq_singleton hsep, List.mem_singleton,
    if_neg (Ne.symm hne), walk]

/-- A path of one name with a separator behind it. -/
theorem resolveFrom_trailing (hsep : p.sep ∉ name) :
    T.resolveFrom p o (name ++ [p.sep]) =
      if name = [] then .invalid else (T.step p o name).elim (.missing o name) .found := by
  simp only [resolveFrom, trim_append_sep, List.splitOn_eq_singleton hsep, List.mem_singleton,
    walk, eq_comm (a := ([] : List α))]

/-- A path of several names: the first one leads to the object the others start at. -/
theorem resolveFrom_inner (hsep : p.sep ∉ name) {rest : List α} (hrest : rest ≠ []) :
    T.resolveFrom p o (name ++ p.sep :: rest) =
      if name = [] then .invalid
      else (T.step p o name).elim .invalid fun c => T.resolveFrom p c rest := by
  have htrim : trim p (name ++ p.sep :: rest) = name ++ p.sep :: trim p rest := by
    rw [List.append_cons, trim_append hrest, ← List.append_cons]
  have hsplit := List.splitOn_append_cons_self_of_not_mem hsep (trim p rest)
  obtain ⟨m, names, hnames⟩ :=
    List.exists_cons_of_ne_nil (List.splitOn_ne_nil p.sep (trim p rest))
  simp only [resolveFrom, htrim, hsplit, hnames]
  by_cases hne : name = []
  · simp [hne]
  · have hhead : ¬ [] = name := Ne.symm hne
    rw [if_neg hne]
    by_cases hempty : [] ∈ m :: names
    · rw [if_pos (List.mem_cons_of_mem _ hempty)]
      cases T.step p o name with
      | none => rfl
      | some c => exact (if_pos hempty).symm
    · rw [if_neg]
      · cases hstep : T.step p o name with
        | none => rw [walk, hstep]; rfl
        | some c => rw [walk, hstep]; exact (if_neg hempty).symm
      · intro hmem
        rcases List.mem_cons.mp hmem with hmem | hmem
        · exact hhead hmem
        · exact hempty hmem

/-! ## Above the root -/

variable (T p)

/-- Before the last name, the name of the parent is taken at the root. -/
def climbsWalk (o : Obj) : List (List α) → Prop
  | [] => False
  | [_] => False
  | n :: m :: names => (n = p.up ∧ n ≠ p.here ∧ o = T.root) ∨
      ∃ c, T.step p o n = some c ∧ climbsWalk c (m :: names)

/-- A path from an object on goes above the root before its last name. -/
def climbsFrom (o : Obj) (path : List α) : Prop :=
  T.climbsWalk p o ((trim p path).splitOn p.sep)

/-- A path goes above the root before its last name. -/
def Climbs (cwd : Obj) (path : List α) : Prop :=
  if path.head? = some p.sep then T.climbsFrom p T.root path.tail else T.climbsFrom p cwd path

variable {T p}

theorem not_climbsFrom_last (hsep : p.sep ∉ name) : ¬ T.climbsFrom p o name := by
  simp [climbsFrom, trim_of_notMem hsep, List.splitOn_eq_singleton hsep, climbsWalk]

theorem not_climbsFrom_trailing (hsep : p.sep ∉ name) : ¬ T.climbsFrom p o (name ++ [p.sep]) := by
  simp [climbsFrom, trim_append_sep, List.splitOn_eq_singleton hsep, climbsWalk]

theorem climbsFrom_inner (hsep : p.sep ∉ name) {rest : List α} (hrest : rest ≠ []) :
    T.climbsFrom p o (name ++ p.sep :: rest) ↔
      (name = p.up ∧ name ≠ p.here ∧ o = T.root) ∨
        ∃ c, T.step p o name = some c ∧ T.climbsFrom p c rest := by
  have htrim : trim p (name ++ p.sep :: rest) = name ++ p.sep :: trim p rest := by
    rw [List.append_cons, trim_append hrest, ← List.append_cons]
  have hsplit := List.splitOn_append_cons_self_of_not_mem hsep (trim p rest)
  obtain ⟨m, names, hnames⟩ :=
    List.exists_cons_of_ne_nil (List.splitOn_ne_nil p.sep (trim p rest))
  simp only [climbsFrom, htrim, hsplit, hnames, climbsWalk]

/-! ## Absolute names -/

variable (p) in
/-- Names with the separator before each. -/
def absolute (names : List (List α)) : List α := names.flatMap fun n => p.sep :: n

/-- A name that is more than a separator away from the others. -/
def IsName (p : PathSyntax α) (n : List α) : Prop := n ≠ [] ∧ p.sep ∉ n

variable {names : List (List α)}

omit [DecidableEq α] in
theorem absolute_cons (n : List α) (names : List (List α)) :
    absolute p (n :: names) = p.sep :: (n ++ absolute p names) := by
  simp [absolute]

omit [DecidableEq α] in
theorem absolute_ne_nil {n : List α} : absolute p (n :: names) ≠ [] := by
  simp [absolute_cons]

omit [DecidableEq α] in
theorem absolute_tail (n m : List α) (names : List (List α)) :
    (absolute p (n :: m :: names)).tail = n ++ p.sep :: (absolute p (m :: names)).tail := by
  simp [absolute_cons]

omit [DecidableEq α] in
theorem absolute_tail_ne_nil {n : List α} (hn : IsName p n) :
    (absolute p (n :: names)).tail ≠ [] := by
  simp [absolute_cons, hn.1]

/-- What an absolute name means behind its first separator. -/
theorem resolveFrom_absolute {n : List α} (hnames : ∀ m ∈ n :: names, IsName p m) :
    T.resolveFrom p o (absolute p (n :: names)).tail = T.walk p o (n :: names) := by
  induction names generalizing n o with
  | nil =>
      obtain ⟨hne, hsep⟩ := hnames n List.mem_cons_self
      have htail : (absolute p [n]).tail = n := by simp [absolute]
      rw [htail, resolveFrom_last hsep hne]
      rfl
  | cons m names ih =>
      obtain ⟨hne, hsep⟩ := hnames n List.mem_cons_self
      have hrest : ∀ k ∈ m :: names, IsName p k := fun k hk => hnames k (List.mem_cons_of_mem _ hk)
      rw [absolute_tail, resolveFrom_inner hsep (absolute_tail_ne_nil (hrest m List.mem_cons_self)),
        if_neg hne, walk]
      cases T.step p o n with
      | none => rfl
      | some c => exact ih hrest

/-- An absolute name means what its names lead to from the root. -/
theorem resolve_absolute {n : List α} (hnames : ∀ m ∈ n :: names, IsName p m) (cwd : Obj) :
    T.resolve p cwd (absolute p (n :: names)) = T.walk p T.root (n :: names) := by
  have hne := (hnames n List.mem_cons_self).1
  have hsep : absolute p (n :: names) ≠ [p.sep] := by
    rw [absolute_cons]
    simp [hne]
  have hhead : (absolute p (n :: names)).head? = some p.sep := by
    rw [absolute_cons]
    rfl
  rw [resolve, if_neg absolute_ne_nil, if_neg hsep, if_pos hhead, resolveFrom_absolute hnames]

/-- An absolute name without the name of the parent does not go above the root. -/
theorem not_climbs_absolute {n : List α} (hnames : ∀ m ∈ n :: names, IsName p m)
    (hup : p.up ∉ n :: names) : ¬ T.climbsFrom p o (absolute p (n :: names)).tail := by
  induction names generalizing n o with
  | nil =>
      have htail : (absolute p [n]).tail = n := by simp [absolute]
      rw [htail]
      exact not_climbsFrom_last (hnames n List.mem_cons_self).2
  | cons m names ih =>
      have hrest : ∀ k ∈ m :: names, IsName p k := fun k hk => hnames k (List.mem_cons_of_mem _ hk)
      rw [absolute_tail, climbsFrom_inner (hnames n List.mem_cons_self).2
        (absolute_tail_ne_nil (hrest m List.mem_cons_self))]
      rintro (⟨heq, -, -⟩ | ⟨c, -, hclimbs⟩)
      · exact hup (heq ▸ List.mem_cons_self)
      · exact ih hrest (fun hmem => hup (List.mem_cons_of_mem _ hmem)) hclimbs

end Tree

end Library
end NochOS
