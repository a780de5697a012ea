import NochOS.Library.Ports
import Mathlib.Logic.Function.Basic
import Mathlib.Tactic.Common

/-!
# Interrupts - The two interrupt controllers

The lines of the devices arrive at two 8259 controllers, the slave behind line 2 of the
master.  A chip remembers the requests, masks them, and keeps a bit for every line in
service.  When the processor acknowledges, the chips give the vector of the most urgent
request.  Rotation of the priorities, level-triggered lines and polling, which the kernel
never asks for, are left out.

Main results:

- Definitions `Chip`, `Pair`, `pics`: the chips and their ports.
- Definition `Pair.acknowledge`: what the processor gets.
- Theorem `Chip.request_eq_some_iff`: the request a chip passes on.
-/

namespace NochOS
namespace Interrupt

open Library

/-! ## One chip -/

/-- The word a chip expects at its data port. -/
inductive Phase where
  | ready
  | icw2
  | icw3
  | icw4
deriving DecidableEq

/-- An interrupt controller of eight lines. -/
structure Chip where
  /-- The mask register. -/
  imr : Nat → Bool
  /-- The lines in service. -/
  isr : Nat → Bool
  /-- The requests. -/
  irr : Nat → Bool
  base : Nat
  /-- The third control word: the lines of slaves, or the own line at the master. -/
  cascade : Nat
  phase : Phase
  single : Bool
  needsIcw4 : Bool
  autoEoi : Bool

namespace Chip

/-- A byte at the control port. -/
def control (c : Chip) (v : Nat) : Chip :=
  if v.testBit 4 then
    { imr := fun _ => false
      isr := fun _ => false
      irr := fun _ => false
      base := c.base
      cascade := 0
      phase := .icw2
      single := v.testBit 1
      needsIcw4 := v.testBit 0
      autoEoi := false }
  else if v.testBit 3 then c
  else
    match v / 32 with
    | 1 =>
        match (List.range 8).find? c.isr with
        | some i => { c with isr := Function.update c.isr i false }
        | none => c
    | 3 => { c with isr := Function.update c.isr (v % 8) false }
    | _ => c

/-- A byte at the data port. -/
def data (c : Chip) (v : Nat) : Chip :=
  match c.phase with
  | .ready => { c with imr := fun i => v.testBit i }
  | .icw2 =>
      { c with
        base := v / 8 * 8
        phase := if c.single then (if c.needsIcw4 then .icw4 else .ready) else .icw3 }
  | .icw3 => { c with cascade := v, phase := if c.needsIcw4 then .icw4 else .ready }
  | .icw4 => { c with autoEoi := v.testBit 1, phase := .ready }

/-- The most urgent request that is not masked, if no line as urgent is in service. -/
def request (c : Chip) (wires : Nat → Bool) : Option Nat :=
  if c.phase = .ready then
    ((List.range 8).find? fun i => wires i && !c.imr i).filter fun i =>
      (List.range (i + 1)).all fun j => !c.isr j
  else none

/-- The chip has given the vector of a line. -/
def serve (c : Chip) (i : Nat) : Chip :=
  { c with
    irr := Function.update c.irr i false
    isr := if c.autoEoi then c.isr else Function.update c.isr i true }

/-- A request at a line. -/
def raise (c : Chip) (i : Nat) : Chip :=
  { c with irr := Function.update c.irr i true }

variable {c : Chip} {wires : Nat → Bool} {i : Nat}

theorem request_eq_some_iff (hready : c.phase = .ready) :
    c.request wires = some i ↔ i < 8 ∧ wires i = true ∧ c.imr i = false ∧
      (∀ j, j < i → wires j = true → c.imr j = true) ∧ ∀ j, j ≤ i → c.isr j = false := by
  rw [request, if_pos hready, Option.filter_eq_some_iff, List.find?_range_eq_some]
  simp only [Bool.and_eq_true, List.mem_range, Bool.not_eq_eq_eq_not, Bool.and_eq_false_iff,
    Bool.not_false, List.all_eq_true, Bool.not_true]
  constructor
  · rintro ⟨⟨⟨hw, hm⟩, hi, hmin⟩, hclear⟩
    refine ⟨hi, hw, hm, fun j hj hwj => ?_, fun j hj => hclear j (by omega)⟩
    rcases hmin j hj with h | h
    · rw [h] at hwj
      exact absurd hwj (by decide)
    · exact h
  · rintro ⟨hi, hw, hm, hmin, hclear⟩
    refine ⟨⟨⟨hw, hm⟩, hi, fun j hj => ?_⟩, fun j hj => hclear j (by omega)⟩
    cases hwj : wires j with
    | false => exact Or.inl rfl
    | true => exact Or.inr (hmin j hj hwj)

/-- Without automatic ends of interrupts the line comes into service. -/
theorem serve_manual (hmanual : c.autoEoi = false) (i : Nat) :
    c.serve i =
      { c with
        irr := Function.update c.irr i false
        isr := Function.update c.isr i true } := by
  rw [serve, hmanual, if_neg Bool.false_ne_true]

/-- Without a line in service every request that is not masked counts. -/
theorem request_isSome_iff (hready : c.phase = .ready) (hidle : ∀ i, i < 8 → c.isr i = false) :
    (c.request wires).isSome = true ↔ ∃ i, i < 8 ∧ wires i = true ∧ c.imr i = false := by
  constructor
  · intro h
    obtain ⟨i, hi⟩ := Option.isSome_iff_exists.mp h
    obtain ⟨hlt, hw, hm, -⟩ := (request_eq_some_iff hready).mp hi
    exact ⟨i, hlt, hw, hm⟩
  · rintro ⟨i, hi, hw, hm⟩
    obtain ⟨k, hk⟩ : ∃ k, (List.range 8).find? (fun i => wires i && !c.imr i) = some k := by
      rw [← Option.isSome_iff_exists, List.find?_isSome]
      exact ⟨i, List.mem_range.mpr hi, by simp [hw, hm]⟩
    have hk8 : k < 8 := List.mem_range.mp (List.mem_of_find?_eq_some hk)
    rw [request, if_pos hready, hk, Option.isSome_iff_exists]
    refine ⟨k, Option.filter_eq_some_iff.mpr ⟨rfl, ?_⟩⟩
    rw [List.all_eq_true]
    intro j hj
    rw [List.mem_range] at hj
    rw [hidle j (by omega)]
    rfl

end Chip

/-! ## The pair -/

/-- The master and the slave. -/
structure Pair where
  master : Chip
  slave : Chip

/-- Eight lines as the bits of a byte. -/
def byteOf (f : Nat → Bool) : Nat :=
  (List.range 8).foldr (fun i v => if f i then v ||| 1 <<< i else v) 0

/-- The ports of the chips.  A chip shows its requests and its mask. -/
def pics : Device Port Pair where
  read r p :=
    match r with
    | .byte 0x20 => (byteOf p.master.irr, p)
    | .byte 0x21 => (byteOf p.master.imr, p)
    | .byte 0xA0 => (byteOf p.slave.irr, p)
    | .byte 0xA1 => (byteOf p.slave.imr, p)
    | _ => (0, p)
  write r v p :=
    match r with
    | .byte 0x20 => { p with master := p.master.control (v % 256) }
    | .byte 0x21 => { p with master := p.master.data (v % 256) }
    | .byte 0xA0 => { p with slave := p.slave.control (v % 256) }
    | .byte 0xA1 => { p with slave := p.slave.data (v % 256) }
    | _ => p

namespace Pair

/-- The lines of the master; line 2 is the output of the slave. -/
def wires (p : Pair) (i : Nat) : Bool :=
  if i = 2 then (p.slave.request p.slave.irr).isSome else p.master.irr i

/-- A device raises a line.  No device is at line 2. -/
def raise (p : Pair) (n : Nat) : Pair :=
  if n = 2 then p
  else if n < 8 then { p with master := p.master.raise n }
  else if n < 16 then { p with slave := p.slave.raise (n - 8) }
  else p

/-- The processor acknowledges an interrupt: the vector, and the chips after it.  At a line
with a slave the master leaves the vector to the slave it names. -/
def acknowledge (p : Pair) : Option (Nat × Pair) :=
  match p.master.request p.wires with
  | none => none
  | some i =>
      if p.master.single = false ∧ p.master.cascade.testBit i then
        if i = p.slave.cascade % 8 then
          (p.slave.request p.slave.irr).map fun j =>
            (p.slave.base + j, ⟨p.master.serve i, p.slave.serve j⟩)
        else none
      else some (p.master.base + i, { p with master := p.master.serve i })

end Pair

end Interrupt
end NochOS
