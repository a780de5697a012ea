import Mathlib.Algebra.Group.Nat.Defs
import Mathlib.Logic.Function.Basic
import Mathlib.Tactic.Common

/-!
# Library - Two-level page tables

A 32-bit processor finds a physical address by two lookups: the page directory
maps 4 MB, either as one large page or through a page table whose entries map
4 kB each.  This module defines the entries' fields and the walk, and says where
an access that user mode is allowed can come from.

Main results:

- Definition `walk`: the physical address of a linear one and who may use it.
- Theorems `walk_large`, `walk_small`: the walk at an entry of each kind.
- Theorem `walk_user_cases`: an access open to user mode passes only entries
  open to user mode.
-/

namespace NochOS
namespace Library
namespace Paging

/-- A page directory or a page table. -/
abbrev Table := Nat → BitVec 32

/-- The flag that an entry is in use. -/
def present (e : BitVec 32) : Bool := e.getLsbD 0

/-- The flag that user mode may use what an entry maps. -/
def user (e : BitVec 32) : Bool := e.getLsbD 2

/-- The flag that a directory entry maps one large page. -/
def large (e : BitVec 32) : Bool := e.getLsbD 7

/-- The address of the large page that a directory entry maps. -/
def largeBase (e : BitVec 32) : Nat := (e &&& 0xFFC00000#32).toNat

/-- The address of the small page, or of the page table, that an entry maps. -/
def smallBase (e : BitVec 32) : Nat := (e &&& 0xFFFFF000#32).toNat

/-- What the processor finds for a linear address. -/
structure Access where
  phys : Nat
  user : Bool
deriving DecidableEq

/-- The walk through a page directory; `tableAt` is the page table at an address. -/
def walk (directory : Table) (tableAt : Nat → Table) (linear : Nat) : Option Access :=
  let pde := directory (linear / 2 ^ 22)
  if present pde then
    if large pde then some ⟨largeBase pde + linear % 2 ^ 22, user pde⟩
    else
      let pte := tableAt (smallBase pde) (linear / 2 ^ 12 % 2 ^ 10)
      if present pte then some ⟨smallBase pte + linear % 2 ^ 12, user pde && user pte⟩
      else none
  else none

variable {directory : Table} {tableAt : Nat → Table} {linear : Nat}

/-- The walk through a large page. -/
theorem walk_large (hpresent : present (directory (linear / 2 ^ 22)) = true)
    (hlarge : large (directory (linear / 2 ^ 22)) = true) :
    walk directory tableAt linear =
      some ⟨largeBase (directory (linear / 2 ^ 22)) + linear % 2 ^ 22,
        user (directory (linear / 2 ^ 22))⟩ := by
  simp only [walk, hpresent, hlarge, if_true]

/-- The walk through a page table. -/
theorem walk_small {table : Table} (hpresent : present (directory (linear / 2 ^ 22)) = true)
    (hlarge : large (directory (linear / 2 ^ 22)) = false)
    (htable : tableAt (smallBase (directory (linear / 2 ^ 22))) = table)
    (hpte : present (table (linear / 2 ^ 12 % 2 ^ 10)) = true) :
    walk directory tableAt linear =
      some ⟨smallBase (table (linear / 2 ^ 12 % 2 ^ 10)) + linear % 2 ^ 12,
        user (directory (linear / 2 ^ 22)) && user (table (linear / 2 ^ 12 % 2 ^ 10))⟩ := by
  simp only [walk, hpresent, hlarge, htable, hpte, if_true, Bool.false_eq_true, if_false]

/-- An access open to user mode goes through a large page open to user mode, or
through a table entry and a directory entry that both are. -/
theorem walk_user_cases {a : Access} (h : walk directory tableAt linear = some a)
    (huser : a.user = true) :
    present (directory (linear / 2 ^ 22)) = true ∧ user (directory (linear / 2 ^ 22)) = true ∧
      ((large (directory (linear / 2 ^ 22)) = true ∧
          a.phys = largeBase (directory (linear / 2 ^ 22)) + linear % 2 ^ 22) ∨
        (large (directory (linear / 2 ^ 22)) = false ∧
          ∃ pte, tableAt (smallBase (directory (linear / 2 ^ 22))) (linear / 2 ^ 12 % 2 ^ 10) =
              pte ∧ present pte = true ∧ user pte = true ∧
            a.phys = smallBase pte + linear % 2 ^ 12)) := by
  unfold walk at h
  by_cases hpresent : present (directory (linear / 2 ^ 22)) = true
  · by_cases hlarge : large (directory (linear / 2 ^ 22)) = true
    · simp only [hpresent, hlarge, if_true, Option.some.injEq] at h
      subst h
      exact ⟨hpresent, huser, Or.inl ⟨hlarge, rfl⟩⟩
    · rw [Bool.not_eq_true] at hlarge
      by_cases hpte : present (tableAt (smallBase (directory (linear / 2 ^ 22)))
          (linear / 2 ^ 12 % 2 ^ 10)) = true
      · simp only [hpresent, hlarge, hpte, if_true, Bool.false_eq_true, if_false,
          Option.some.injEq] at h
        subst h
        rw [Bool.and_eq_true] at huser
        exact ⟨hpresent, huser.1, Or.inr ⟨hlarge, _, rfl, hpte, huser.2, rfl⟩⟩
      · simp only [hpresent, hlarge, hpte, if_true, Bool.false_eq_true, if_false] at h
        exact absurd h (Option.some_ne_none a).symm
  · simp only [hpresent, Bool.false_eq_true, if_false] at h
    exact absurd h (Option.some_ne_none a).symm

/-! ## Addresses of pages -/

/-- Clearing the low bits of an address rounds it down to its page. -/
theorem toNat_and_high (x : BitVec 32) (n : Nat) :
    (x &&& BitVec.allOnes 32 <<< n).toNat = x.toNat / 2 ^ n * 2 ^ n := by
  rw [← BitVec.shiftLeft_ushiftRight, BitVec.toNat_shiftLeft, BitVec.toNat_ushiftRight,
    Nat.shiftRight_eq_div_pow, Nat.shiftLeft_eq]
  have hlt := x.isLt
  have hle := Nat.div_mul_le_self x.toNat (2 ^ n)
  exact Nat.mod_eq_of_lt (by omega)

/-- The address of a large page keeps its high bits. -/
theorem toNat_and_large {a : Nat} (halign : a % 2 ^ 22 = 0) (hlt : a < 2 ^ 32) :
    (BitVec.ofNat 32 a &&& 0xFFC00000#32).toNat = a := by
  have hmask : 0xFFC00000#32 = BitVec.allOnes 32 <<< 22 := by decide
  rw [hmask, toNat_and_high, BitVec.toNat_ofNat, Nat.mod_eq_of_lt hlt]
  omega

/-- The address of a small page keeps its high bits. -/
theorem toNat_and_small {a : Nat} (halign : a % 2 ^ 12 = 0) (hlt : a < 2 ^ 32) :
    (BitVec.ofNat 32 a &&& 0xFFFFF000#32).toNat = a := by
  have hmask : 0xFFFFF000#32 = BitVec.allOnes 32 <<< 12 := by decide
  rw [hmask, toNat_and_high, BitVec.toNat_ofNat, Nat.mod_eq_of_lt hlt]
  omega

end Paging
end Library
end NochOS
