import NochOS.Interrupt.Pic

/-!
# Interrupts - The driver of the controllers

This module embeds `i8259.c`, and the way of an interrupt from the stubs of
`interrupt_asm.S` through `do_irq` to the end-of-interrupt words.  The accesses of the
handlers to the ports of their own devices are left out.

Main results:

- Definitions `i8259Init`, `enableIrq`, `disableIrq`, `sendEoi`: the driver.
- Definition `entry`: what the stub of a vector has `do_irq` send.
- Theorem `entry_eq`: the words each line gets.
- Theorems `run_changeIrq`, `run_i8259Init`: the chips after the operations.
-/

namespace NochOS
namespace Interrupt

open Library

/-! ## Constants of `i8259.h` -/

/-- `MASTER_PORT_CTRL`. -/
def masterPortCtrl : Nat := 0x20

/-- `MASTER_PORT_DATA`. -/
def masterPortData : Nat := 0x21

/-- `SLAVE_PORT_CTRL`. -/
def slavePortCtrl : Nat := 0xA0

/-- `SLAVE_PORT_DATA`. -/
def slavePortData : Nat := 0xA1

/-- `ICW1`. -/
def icw1 : Nat := 0x11

/-- `ICW2_MASTER`. -/
def icw2Master : Nat := 0x20

/-- `ICW2_SLAVE`. -/
def icw2Slave : Nat := 0x28

/-- `ICW3_MASTER`. -/
def icw3Master : Nat := 0x04

/-- `ICW3_SLAVE`. -/
def icw3Slave : Nat := 0x02

/-- `ICW4`. -/
def icw4 : Nat := 0x01

/-- `EOI`. -/
def eoi : Nat := 0x60

/-- `MASTER_IRQ_MAX`. -/
def masterIrqMax : Nat := 7

/-- `SLAVE_IRQ_MIN`. -/
def slaveIrqMin : Nat := 8

/-- `SLAVE_IRQ_MAX`. -/
def slaveIrqMax : Nat := 15

/-- `IRQ_MASK_SET`. -/
def irqMaskSet : BitVec 8 := 0xFF

/-- `IRQ_PIN`, the line of the slave. -/
def irqPin : Nat := 2

/-- `PIT_IRQ_PIN`. -/
def pitIrqPin : Nat := 0

/-- `KEYBOARD_IRQ_PIN`. -/
def keyboardIrqPin : Nat := 1

/-- `RTC_IRQ_PIN`. -/
def rtcIrqPin : Nat := 8

/-- `NET_WORK_PIN`. -/
def netWorkPin : Nat := 11

/-- `MOUSE_IRQ_PIN`. -/
def mouseIrqPin : Nat := 12

/-- `IRQ_BASE`. -/
def irqBase : Nat := 0x20

/-! ## The code -/

/-- `master_mask` and `slave_mask`. -/
structure Masks where
  master : BitVec 8
  slave : BitVec 8
deriving DecidableEq

/-- The masks before the first operation. -/
def Masks.initial : Masks := ⟨irqMaskSet, irqMaskSet⟩

/-- The common part of `enable_irq` and `disable_irq`: a new mask for the chip of the line. -/
def changeIrq (op : BitVec 8 → Nat → BitVec 8) (irqNum : Nat) (masks : Masks) :
    Program Port Masks :=
  if irqNum > slaveIrqMax then pure masks
  else if irqNum ≤ masterIrqMax then do
    let masks := { masks with master := op masks.master irqNum }
    outb masks.master.toNat masterPortData
    pure masks
  else do
    let masks := { masks with slave := op masks.slave (irqNum - slaveIrqMin) }
    outb masks.slave.toNat slavePortData
    pure masks

/-- `mask &= ~(IRQ_BIT_MASK << k)`. -/
def unmask (mask : BitVec 8) (k : Nat) : BitVec 8 := mask &&& ~~~(1#8 <<< k)

/-- `mask |= IRQ_BIT_MASK << k`. -/
def mask (mask : BitVec 8) (k : Nat) : BitVec 8 := mask ||| 1#8 <<< k

/-- `enable_irq(irq_num)`. -/
def enableIrq : Nat → Masks → Program Port Masks := changeIrq unmask

/-- `disable_irq(irq_num)`. -/
def disableIrq : Nat → Masks → Program Port Masks := changeIrq mask

/-- `send_eoi(irq_num)`. -/
def sendEoi (irqNum : Nat) : Program Port Unit :=
  if irqNum > slaveIrqMax then pure ()
  else if irqNum ≤ masterIrqMax then outb (eoi ||| irqNum) masterPortCtrl
  else do
    outb (eoi ||| (irqNum - slaveIrqMin)) slavePortCtrl
    outb (eoi ||| irqPin) masterPortCtrl

/-- `i8259_init`.  The flag of the processor around it is left out; no line is unmasked in
between. -/
def i8259Init (masks : Masks) : Program Port Masks := do
  outb icw1 masterPortCtrl
  outb icw1 slavePortCtrl
  outb icw2Master masterPortData
  outb icw2Slave slavePortData
  outb icw3Master masterPortData
  outb icw3Slave slavePortData
  outb icw4 masterPortData
  outb icw4 slavePortData
  outb irqMaskSet.toNat masterPortData
  outb irqMaskSet.toNat slavePortData
  enableIrq irqPin masks

/-- The words the stubs `int_irq0` to `int_irq15` of `int_table` push. -/
def intTable : List (BitVec 32) :=
  [0xFFFFFFFF, 0xFFFFFFFE, 0xFFFFFFFD, 0xFFFFFFFC, 0xFFFFFFFB, 0xFFFFFFFA, 0xFFFFFFF9,
    0xFFFFFFF8, 0xFFFFFFF7, 0xFFFFFFF6, 0xFFFFFFF5, 0xFFFFFFF4, 0xFFFFFFF3, 0xFFFFFFF2,
    0xFFFFFFF1, 0xFFFFFFF0]

/-- `do_irq(regs)`: what it sends to the chips.  For a tick `do_sched` may send the word
instead, once as well. -/
def doIrq (origEax : BitVec 32) : Program Port Unit :=
  let irq := (~~~origEax).toNat
  if irq = keyboardIrqPin then sendEoi keyboardIrqPin
  else if irq = rtcIrqPin then sendEoi rtcIrqPin
  else if irq = netWorkPin then sendEoi netWorkPin
  else if irq = pitIrqPin then sendEoi pitIrqPin
  else if irq = mouseIrqPin then sendEoi mouseIrqPin
  else pure ()

/-- The interrupt of a vector, by the gate that `int_set_idt` stores for its line. -/
def entry (vector : Nat) : Program Port Unit :=
  match intTable[vector - irqBase]? with
  | some origEax => doIrq origEax
  | none => pure ()

/-! ## The chips after the operations -/

/-- `do_irq` has a case for the line. -/
def handled (n : Nat) : Bool :=
  n == pitIrqPin || n == keyboardIrqPin || n == rtcIrqPin || n == netWorkPin || n == mouseIrqPin

/-- The stub of a line pushes the complement of its number. -/
theorem intTable_getElem : ∀ n < 16, ∃ v, intTable[n]? = some v ∧ (~~~v).toNat = n := by
  have h : ∀ n < 16, intTable[n]?.map (fun v => (~~~v).toNat) = some n := by
    decide +kernel
  intro n hn
  exact Option.map_eq_some_iff.mp (h n hn)

/-- A line with a case in `do_irq` gets its end-of-interrupt words, the others get none. -/
theorem doIrq_eq (v : BitVec 32) :
    doIrq v = if handled (~~~v).toNat then sendEoi (~~~v).toNat else pure () := by
  rw [doIrq]
  generalize (~~~v).toNat = n
  simp only [handled, Bool.or_eq_true, beq_iff_eq]
  by_cases h : (((n = pitIrqPin ∨ n = keyboardIrqPin) ∨ n = rtcIrqPin) ∨ n = netWorkPin) ∨
    n = mouseIrqPin
  · rw [if_pos h]
    rcases h with (((h | h) | h) | h) | h
    · rw [h, if_neg (by decide), if_neg (by decide), if_neg (by decide), if_pos rfl]
    · rw [h, if_pos rfl]
    · rw [h, if_neg (by decide), if_pos rfl]
    · rw [h, if_neg (by decide), if_neg (by decide), if_pos rfl]
    · rw [h, if_neg (by decide), if_neg (by decide), if_neg (by decide), if_neg (by decide),
        if_pos rfl]
  · rw [if_neg h, if_neg fun hn => h (by simp [hn]), if_neg fun hn => h (by simp [hn]),
      if_neg fun hn => h (by simp [hn]), if_neg fun hn => h (by simp [hn]),
      if_neg fun hn => h (by simp [hn])]

theorem entry_eq {n : Nat} (hn : n < 16) :
    entry (irqBase + n) = if handled n then sendEoi n else pure () := by
  obtain ⟨v, hv, hneg⟩ := intTable_getElem n hn
  have hentry : entry (irqBase + n) = doIrq v := by
    unfold entry
    rw [Nat.add_sub_cancel_left, hv]
  rw [hentry, doIrq_eq, hneg]

theorem getLsbD_unmask {m : BitVec 8} {k i : Nat} (hi : i < 8) :
    (unmask m k).getLsbD i = if i = k then false else m.getLsbD i := by
  rw [unmask, BitVec.getLsbD_and, BitVec.getLsbD_not, BitVec.getLsbD_shiftLeft, BitVec.getLsbD_one]
  by_cases hik : i = k
  · subst hik
    simp [hi]
  · by_cases hlt : i < k
    · simp [hi, hik, hlt]
    · simp [hi, hik, show i - k ≠ 0 by omega]

theorem getLsbD_mask {m : BitVec 8} {k i : Nat} (hi : i < 8) :
    (mask m k).getLsbD i = if i = k then true else m.getLsbD i := by
  rw [mask, BitVec.getLsbD_or, BitVec.getLsbD_shiftLeft, BitVec.getLsbD_one]
  by_cases hik : i = k
  · subst hik
    simp [hi]
  · by_cases hlt : i < k
    · simp [hi, hik, hlt]
    · simp [hi, hik, show i - k ≠ 0 by omega]

/-- The bit of a line. -/
def Masks.bit (masks : Masks) (n : Nat) : Bool :=
  if n < 8 then masks.master.getLsbD n else masks.slave.getLsbD (n - 8)

/-- The masks after a change. -/
def Masks.change (op : BitVec 8 → Nat → BitVec 8) (masks : Masks) (n : Nat) : Masks :=
  if n > slaveIrqMax then masks
  else if n ≤ masterIrqMax then { masks with master := op masks.master n }
  else { masks with slave := op masks.slave (n - slaveIrqMin) }

/-- A change of one bit of one chip is a change of one line. -/
theorem Masks.bit_change {op : BitVec 8 → Nat → BitVec 8} {b : Bool}
    (hop : ∀ {m : BitVec 8} {k i : Nat}, i < 8 →
      (op m k).getLsbD i = if i = k then b else m.getLsbD i)
    {masks : Masks} {n i : Nat} (hi : i < 16) :
    (masks.change op n).bit i = if i = n then b else masks.bit i := by
  unfold Masks.change
  split
  next hn =>
    unfold slaveIrqMax at hn
    rw [if_neg (by omega)]
  next hn =>
    unfold slaveIrqMax at hn
    split
    next hmaster =>
      unfold masterIrqMax at hmaster
      by_cases hi8 : i < 8
      · rw [Masks.bit, if_pos hi8, hop hi8, Masks.bit, if_pos hi8]
      · rw [Masks.bit, if_neg hi8, Masks.bit, if_neg hi8, if_neg (by omega)]
    next hslave =>
      unfold masterIrqMax at hslave
      by_cases hi8 : i < 8
      · rw [Masks.bit, if_pos hi8, Masks.bit, if_pos hi8, if_neg (by omega)]
      · rw [Masks.bit, if_neg hi8, hop (by omega), Masks.bit, if_neg hi8]
        exact if_congr (by unfold slaveIrqMin; omega) rfl rfl

/-- A chip with a mask register. -/
def Chip.masked (c : Chip) (m : BitVec 8) : Chip := { c with imr := fun i => m.getLsbD i }

theorem data_mask {c : Chip} (h : c.phase = .ready) (m : BitVec 8) :
    c.data (m.toNat % 256) = c.masked m := by
  rw [Nat.mod_eq_of_lt m.isLt, Chip.data, h]
  simp only [Chip.masked, BitVec.testBit_toNat, h]

/-- The chips with the masks of the driver. -/
def Pair.masked (p : Pair) (masks : Masks) : Pair :=
  ⟨p.master.masked masks.master, p.slave.masked masks.slave⟩

section Masking

variable {p : Pair} {masks : Masks}

/-- The chips show the masks after a change if they did before it. -/
theorem run_changeIrq (hm : p.master.phase = .ready) (hs : p.slave.phase = .ready)
    (hshown : p = p.masked masks) (op : BitVec 8 → Nat → BitVec 8) (n : Nat) :
    (changeIrq op n masks).run pics p =
      some (masks.change op n, p.masked (masks.change op n)) := by
  unfold changeIrq Masks.change
  split
  · rw [Program.run_pure, ← hshown]
  · split
    · have hslave := congrArg Pair.slave hshown
      simp only [outb, Program.run_output_bind, Program.run_pure, pics, masterPortData,
        data_mask hm, Pair.masked] at hslave ⊢
      rw [← hslave]
    · have hmaster := congrArg Pair.master hshown
      simp only [outb, Program.run_output_bind, Program.run_pure, pics, slavePortData,
        data_mask hs, Pair.masked] at hmaster ⊢
      rw [← hmaster]

end Masking

/-- A specific end-of-interrupt word takes one line out of service. -/
theorem control_eoi {c : Chip} {i : Nat} (hi : i < 8) :
    c.control ((eoi ||| i) % 256) = { c with isr := Function.update c.isr i false } := by
  have hword : ∀ i < 8, ((eoi ||| i) % 256).testBit 4 = false ∧
      ((eoi ||| i) % 256).testBit 3 = false ∧ (eoi ||| i) % 256 / 32 = 3 ∧
      (eoi ||| i) % 256 % 8 = i := by
    decide +kernel
  obtain ⟨h4, h3, hcommand, hline⟩ := hword i hi
  rw [Chip.control, h4, h3, if_neg (by decide), if_neg (by decide), hcommand, hline]
  rfl

/-- A chip after the control words of the driver. -/
def Chip.started (base cascade : Nat) (m : BitVec 8) : Chip where
  imr := fun i => m.getLsbD i
  isr := fun _ => false
  irr := fun _ => false
  base := base
  cascade := cascade
  phase := .ready
  single := false
  needsIcw4 := true
  autoEoi := false

/-- After start-up only the line of the slave is enabled, and nothing is left of what the
chips were doing. -/
theorem run_i8259Init (p : Pair) :
    (i8259Init Masks.initial).run pics p =
      some (⟨0xFB, 0xFF⟩, ⟨Chip.started 0x20 4 0xFB, Chip.started 0x28 2 0xFF⟩) := by
  rfl

end Interrupt
end NochOS
