import NochOS.Ide.Transfer

/-!
# IDE driver - the address of a transfer

The driver chooses between three ways to address a sector by the size of the address and the
capabilities of the drive, and leaves out a part of the address for a slave.  This module
says which sector the registers mean in the end.

Main results:

- Theorem `reached_eq_iff`: the addresses at which the driver reaches the sector it is asked
  for.
- Theorem `Primary.does_sendCommand`: the command with its registers.
-/

namespace NochOS
namespace Ide

open Library

/-- The sector that the driver reaches when it is asked for the one at an address. -/
def reached (capabilities : Nat) (slave : Bool) (lbaAddr : Nat) : Nat :=
  if 2 ^ 28 ≤ lbaAddr then lbaAddr
  else if capabilities &&& 0x200 ≠ 0 then if slave then lbaAddr % 2 ^ 24 else lbaAddr
  else
    (lbaAddr / 1008 % 2 ^ 16 * 16 + if slave then 0 else lbaAddr / 63 % 16) * 63 + lbaAddr % 63

/-- The addresses that the driver reaches: all from 2^28 on; below, those with no bits in the
part that a slave does not get, and without linear addresses those within 65536 cylinders. -/
def Reachable (capabilities : Nat) (slave : Bool) (lbaAddr : Nat) : Prop :=
  2 ^ 28 ≤ lbaAddr ∨
    (capabilities &&& 0x200 ≠ 0 ∧ (slave = true → lbaAddr < 2 ^ 24)) ∨
      (capabilities &&& 0x200 = 0 ∧ lbaAddr < 65536 * 1008 ∧
        (slave = true → lbaAddr / 63 % 16 = 0))

/-- The driver reaches the sector it is asked for exactly at these addresses. -/
theorem reached_eq_iff (capabilities : Nat) (slave : Bool) (lbaAddr : Nat) :
    reached capabilities slave lbaAddr = lbaAddr ↔ Reachable capabilities slave lbaAddr := by
  unfold reached Reachable
  by_cases hbig : 2 ^ 28 ≤ lbaAddr
  · rw [if_pos hbig]
    exact ⟨fun _ => Or.inl hbig, fun _ => rfl⟩
  · rw [if_neg hbig]
    by_cases hlba : capabilities &&& 0x200 = 0
    · cases slave with
      | false =>
          simp only [hlba, ne_eq, not_true_eq_false, if_false, false_or, true_and,
            Bool.false_eq_true, false_implies, and_true]
          omega
      | true =>
          simp only [hlba, ne_eq, not_true_eq_false, if_false, false_and, false_or, true_and,
            if_true, true_implies]
          omega
    · cases slave with
      | false => simp [hlba]
      | true =>
          simp only [hlba, ne_eq, not_false_eq_true, if_true, true_and, true_implies, false_and,
            or_false]
          omega

/-! ## The fields of an address -/

/-- A masked byte of a number. -/
theorem and_shiftRight (x k : Nat) : (x &&& 0xFF <<< k) >>> k = x / 2 ^ k % 256 := by
  have hmask : (0xFF <<< k : Nat) >>> k = 2 ^ 8 - 1 := by
    rw [Nat.shiftLeft_eq, Nat.shiftRight_eq_div_pow, Nat.mul_div_cancel _ (Nat.two_pow_pos k)]
    rfl
  rw [Nat.shiftRight_and_distrib, hmask, Nat.and_two_pow_sub_one_eq_mod, Nat.shiftRight_eq_div_pow]

theorem and_byte0 (x : Nat) : x &&& 0xFF = x % 256 :=
  Nat.and_two_pow_sub_one_eq_mod x 8

theorem and_byte1 (x : Nat) : (x &&& 0xFF00) >>> 8 = x / 2 ^ 8 % 256 := and_shiftRight x 8

theorem and_byte2 (x : Nat) : (x &&& 0xFF0000) >>> 16 = x / 2 ^ 16 % 256 := and_shiftRight x 16

theorem and_byte3 (x : Nat) : (x &&& 0xFF000000) >>> 24 = x / 2 ^ 24 % 256 := and_shiftRight x 24

theorem and_head (x : Nat) : (x &&& 0xF000000) >>> 24 = x / 2 ^ 24 % 16 := by
  have hmask : (0xF000000 : Nat) >>> 24 = 2 ^ 4 - 1 := by decide
  rw [Nat.shiftRight_and_distrib, hmask, Nat.and_two_pow_sub_one_eq_mod, Nat.shiftRight_eq_div_pow]

/-- The head, where there is one, has four bits. -/
theorem head_lt (capabilities lbaAddr : Nat) : (selectMode capabilities lbaAddr).head < 16 := by
  unfold selectMode
  split
  · exact Nat.zero_lt_succ _
  · split
    · simp only [and_head]
      omega
    · simp only
      omega

/-- The head in the register that selects the drive. -/
theorem hddevsel_master (addrMode : Nat) {head : Nat} (hhead : head < 16) :
    hddevsel addrMode 0 head = (if addrMode = 0 then 0xA0 else 0xE0) + head := by
  have hor : ∀ x < 16, 0xA0 ||| x = 0xA0 + x ∧ 0xE0 ||| x = 0xE0 + x := by decide
  unfold hddevsel
  split
  · exact (hor head hhead).1
  · exact (hor head hhead).2

/-- For a slave the head is left out. -/
theorem hddevsel_slave (addrMode head : Nat) :
    hddevsel addrMode 1 head = if addrMode = 0 then 0xB0 else 0xF0 := by
  unfold hddevsel
  split
  · rfl
  · rfl

/-- The bit that stands for the slave. -/
def slavebit (slave : Bool) : Nat := if slave then 1 else 0

/-- The selected drive is the one that is asked for. -/
theorem hddevsel_selects (addrMode : Nat) (slave : Bool) {head : Nat} (hhead : head < 16) :
    decide (hddevsel addrMode (slavebit slave) head / 16 % 2 = 1) = slave := by
  cases slave with
  | false =>
      have h := hddevsel_master addrMode hhead
      rw [slavebit, if_neg Bool.false_ne_true, h]
      apply decide_eq_false
      split
      · omega
      · omega
  | true =>
      rw [slavebit, if_pos rfl, hddevsel_slave]
      split
      · rfl
      · rfl

/-! ## The registers of a command -/

/-- The registers after `ide_ata_access` has written them. -/
def regsFor (t : TaskFile) (a : Addressing) (slavebit nsects : Nat) : TaskFile :=
  { seccount := (nsects, if a.addrMode = 2 then 0 else t.seccount.1)
    lbaLow := (a.addrIo 0, if a.addrMode = 2 then a.addrIo 3 else t.lbaLow.1)
    lbaMid := (a.addrIo 1, if a.addrMode = 2 then a.addrIo 4 else t.lbaMid.1)
    lbaHigh := (a.addrIo 2, if a.addrMode = 2 then a.addrIo 5 else t.lbaHigh.1)
    hddevsel := hddevsel a.addrMode slavebit a.head }

section Registers

variable {t : TaskFile} {capabilities lbaAddr nsects : Nat} {slave : Bool}

/-- The number of sectors arrives as it is. -/
theorem count_regsFor (a : Addressing) (sl : Nat) (hpos : nsects ≠ 0) :
    (regsFor t a sl nsects).count = nsects :=
  if_neg hpos

theorem countExt_regsFor {a : Addressing} (sl : Nat) (hpos : nsects ≠ 0) (hmode : a.addrMode = 2) :
    (regsFor t a sl nsects).countExt = nsects := by
  simp [TaskFile.countExt, regsFor, hmode, hpos]

/-- With 48 bits every address arrives. -/
theorem addressExt_regsFor (hbig : 2 ^ 28 ≤ lbaAddr) (hlt : lbaAddr < 2 ^ 32) (sl : Nat) :
    (regsFor t (selectMode capabilities lbaAddr) sl nsects).addressExt = lbaAddr := by
  have hmode : selectMode capabilities lbaAddr = _ := if_pos hbig
  rw [hmode]
  simp only [regsFor, TaskFile.addressExt, if_true, and_byte0, and_byte1, and_byte2, and_byte3]
  omega

/-- The address that arrives with 28 bits, linear or by heads and cylinders. -/
theorem address_regsFor (hsmall : lbaAddr < 2 ^ 28) :
    (regsFor t (selectMode capabilities lbaAddr) (slavebit slave) nsects).address =
      reached capabilities slave lbaAddr := by
  have hnot : ¬ 2 ^ 28 ≤ lbaAddr := Nat.not_le_of_lt hsmall
  have hhead := head_lt capabilities lbaAddr
  unfold reached
  rw [if_neg hnot]
  by_cases hlba : capabilities &&& 0x200 = 0
  · -- cylinder, head and sector
    have hmode : selectMode capabilities lbaAddr = _ :=
      (if_neg hnot).trans (if_neg (not_not.mpr hlba))
    rw [hmode] at hhead ⊢
    rw [if_neg (not_not.mpr hlba)]
    have hcyl : ∀ c : Nat, (c >>> 8) &&& 0xFF = c / 256 % 256 := by
      intro c
      rw [and_byte0, Nat.shiftRight_eq_div_pow]
    cases slave with
    | false =>
        simp only [regsFor, TaskFile.address, slavebit, Bool.false_eq_true, if_false,
          hddevsel_master 0 hhead, if_true, and_byte0, hcyl]
        rw [if_neg (by omega)]
        omega
    | true =>
        simp only [regsFor, TaskFile.address, slavebit, if_true, hddevsel_slave, and_byte0, hcyl]
        rw [if_neg (by omega)]
        omega
  · have hmode : selectMode capabilities lbaAddr = _ := (if_neg hnot).trans (if_pos hlba)
    rw [hmode] at hhead ⊢
    rw [if_pos hlba]
    cases slave with
    | false =>
        have hsel := hddevsel_master 1 (show lbaAddr / 2 ^ 24 % 16 < 16 by omega)
        rw [if_neg Nat.one_ne_zero] at hsel
        simp only [regsFor, TaskFile.address, slavebit, Bool.false_eq_true, if_false, and_byte0,
          and_byte1, and_byte2, and_head, hsel]
        rw [if_pos (by omega)]
        omega
    | true =>
        simp only [regsFor, TaskFile.address, slavebit, if_true, hddevsel_slave, if_false,
          Nat.one_ne_zero, and_byte0, and_byte1, and_byte2]
        omega

/-- The registers select the drive that is asked for. -/
theorem slave_regsFor :
    (regsFor t (selectMode capabilities lbaAddr) (slavebit slave) nsects).slave = slave :=
  hddevsel_selects _ slave (head_lt capabilities lbaAddr)

end Registers

/-! ## Commands -/

section Commands

variable {τ : Type} (rest : Device Port τ) {ch : IdeChannel} {c : Chan}

/-- The channel with other registers. -/
def Chan.withRegs (c : Chan) (t : TaskFile) : Chan := { c with regs := t }

/-- A selected drive that takes commands takes registers. -/
theorem Chan.Ready.accepts (hr : c.Ready) : c.accepts = true := by
  unfold Chan.accepts
  cases hsel : c.selected with
  | none => rfl
  | some d =>
      obtain ⟨hbusy, hidle⟩ := hr _ d hsel
      simp [hbusy, hidle]

/-- A drive that takes commands takes each register below the command. -/
theorem Chan.Ready.writeRegister (hr : c.Ready) {reg : Nat} (hreg : reg ≠ 7) (v : Nat) :
    c.writeRegister reg v = c.withRegs (c.regs.put reg v) := by
  rw [Chan.writeRegister, if_pos hr.accepts, if_neg hreg]
  rfl

theorem Chan.Ready.withRegs (hr : c.Ready) {t : TaskFile} : (c.withRegs t).Ready := hr

theorem Primary.does_put (h : Primary ch) (hr : c.Ready) {reg : Nat} (hreg : reg < 7) (v : Nat) :
    Does rest (fun _ => ideWrite ch reg v) c () (c.withRegs (c.regs.put reg v)) := by
  rw [← hr.writeRegister (by omega)]
  exact h.does_low rest (by omega) v

theorem Primary.does_put_high (h : Primary ch) (hr : c.Ready) {reg : Nat} (hlo : 8 ≤ reg)
    (hhi : reg < 12) (v : Nat) :
    Does rest (fun _ => ideWrite ch reg v) c () (c.withRegs (c.regs.put (reg - 6) v)) := by
  rw [← hr.writeRegister (by omega)]
  exact h.does_high rest hlo hhi v

/-- The drives take all registers of a command, and the one that is asked for the command. -/
theorem Primary.does_sendCommand (h : Primary ch) (hr : c.Ready) (a : Addressing) (rw_ : Rw)
    (slavebit nsects : Nat) :
    Does rest (fun _ => sendCommand ch a rw_ slavebit nsects) c ()
      ((c.withRegs (regsFor c.regs a slavebit nsects)).writeRegister 7
        (commandOf a.addrMode rw_)) := by
  unfold sendCommand
  refine Does.bind (h.does_put rest hr (by decide) _) ?_
  by_cases hmode : a.addrMode = 2
  · -- the high order bytes go first, into the same registers
    have hregs : regsFor c.regs a slavebit nsects =
        ((((((((c.regs.put 6 (hddevsel a.addrMode slavebit a.head)).put 2 0).put 3
          (a.addrIo 3)).put 4 (a.addrIo 4)).put 5 (a.addrIo 5)).put 2 nsects).put 3
          (a.addrIo 0)).put 4 (a.addrIo 1)).put 5 (a.addrIo 2) := by
      simp only [regsFor, TaskFile.put, push, if_pos hmode]
    simp only [if_pos hmode]
    refine Does.bind (h.does_put_high rest hr.withRegs (by decide) (by decide) _) ?_
    refine Does.bind (h.does_put_high rest hr.withRegs (by decide) (by decide) _) ?_
    refine Does.bind (h.does_put_high rest hr.withRegs (by decide) (by decide) _) ?_
    refine Does.bind (h.does_put_high rest hr.withRegs (by decide) (by decide) _) ?_
    refine Does.bind (h.does_put rest hr.withRegs (by decide) _) ?_
    refine Does.bind (h.does_put rest hr.withRegs (by decide) _) ?_
    refine Does.bind (h.does_put rest hr.withRegs (by decide) _) ?_
    refine Does.bind (h.does_put rest hr.withRegs (by decide) _) ?_
    rw [hregs]
    exact h.does_low rest (by decide) _
  · have hregs : regsFor c.regs a slavebit nsects =
        ((((c.regs.put 6 (hddevsel a.addrMode slavebit a.head)).put 2 nsects).put 3
          (a.addrIo 0)).put 4 (a.addrIo 1)).put 5 (a.addrIo 2) := by
      simp only [regsFor, TaskFile.put, push, if_neg hmode]
    simp only [if_neg hmode]
    refine Does.bind (h.does_put rest hr.withRegs (by decide) _) ?_
    refine Does.bind (h.does_put rest hr.withRegs (by decide) _) ?_
    refine Does.bind (h.does_put rest hr.withRegs (by decide) _) ?_
    refine Does.bind (h.does_put rest hr.withRegs (by decide) _) ?_
    rw [hregs]
    exact h.does_low rest (by decide) _

end Commands

end Ide
end NochOS
