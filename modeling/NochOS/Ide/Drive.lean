import NochOS.Ide.Driver

/-!
# IDE driver - the drives of a channel

This module says what the hardware at the ports of the primary channel does: two drives
share the registers of the command block, and the selected one executes the commands for
programmed input and output.  How long a drive is busy, which of its sectors fail and which
of the two drives exist is arbitrary.  A register that is written while the selected drive
is busy or in a transfer is not taken.

Main results:

- Definitions `Drive`, `Chan`: the state of a drive and of the channel.
- Definition `bus`: the channel beside whatever answers at the other ports.
- Theorems `Chan.read_status`, `Chan.write_register`: the accesses of the driver.
-/

namespace NochOS
namespace Ide

open Library

/-! ## One drive -/

/-- Why an access to a sector fails. -/
inductive Flaw where
  | error
  | fault
deriving DecidableEq

/-- The bits of the status that report it. -/
def Flaw.bits : Flaw → Nat
  | error => ataSrErr
  | fault => ataSrDf

/-- What is fixed about a drive: its identification, the sectors that fail, those behind the
last one among them, and for how many reads of the status it is busy the first time, the
second time and so on. -/
structure DriveSpec where
  ident : Buf
  flaw : Nat → Option Flaw
  delay : Nat → Nat

/-- A drive waits for a command, hands out the sector at an address or takes one in, at a
word, with a number of further sectors left. -/
inductive Phase where
  | idle
  | dataIn (data : Buf) (pos addr left : Nat)
  | dataOut (data : Buf) (pos addr left : Nat)

/-- The drive is in a transfer. -/
def Phase.active : Phase → Bool
  | idle => false
  | dataIn _ _ _ _ => true
  | dataOut _ _ _ _ => true

/-- A drive: its sectors, the reads of the status until it is no longer busy, and how often
it has been busy. -/
structure Drive where
  spec : DriveSpec
  sectors : Nat → Buf
  phase : Phase
  error : Option Flaw
  busy : Nat
  times : Nat

namespace Drive

/-- The drive in another phase. -/
def withPhase (d : Drive) (p : Phase) : Drive := { d with phase := p }

/-- The drive has something to do. -/
def goBusy (d : Drive) : Drive := { d with busy := d.spec.delay d.times, times := d.times + 1 }

/-- The drive ends the command with an error. -/
def fail (d : Drive) (f : Flaw) : Drive := { d.goBusy with phase := .idle, error := some f }

/-- The drive turns to the next sector it hands out. -/
def nextIn (d : Drive) (addr : Nat) : Nat → Drive
  | 0 => d.withPhase .idle
  | left + 1 =>
      match d.spec.flaw addr with
      | none => d.goBusy.withPhase (.dataIn (d.sectors addr) 0 addr left)
      | some f => d.fail f

/-- The drive turns to the next sector it takes in. -/
def nextOut (d : Drive) (addr : Nat) : Nat → Drive
  | 0 => d.goBusy.withPhase .idle
  | left + 1 => d.goBusy.withPhase (.dataOut (fun _ => 0) 0 addr left)

/-- The status register. -/
def status (d : Drive) : Nat :=
  if 0 < d.busy then ataSrBsy
  else
    match d.phase.active, d.error with
    | true, _ => 0x40 ||| ataSrDrq
    | false, none => 0x40
    | false, some f => 0x40 ||| f.bits

/-- One more read of the status. -/
def tick (d : Drive) : Drive := { d with busy := d.busy - 1 }

/-- A read of the data register. -/
def takeWord (d : Drive) : Nat × Drive :=
  match d.busy, d.phase with
  | 0, .dataIn data pos addr left =>
      (u16At data (2 * pos),
        if pos + 1 < 256 then d.withPhase (.dataIn data (pos + 1) addr left)
        else d.nextIn (addr + 1) left)
  | _, _ => (0, d)

/-- The drive has taken in a whole sector. -/
def commit (d : Drive) (data : Buf) (addr left : Nat) : Drive :=
  match d.spec.flaw addr with
  | none => { d with sectors := Function.update d.sectors addr data }.nextOut (addr + 1) left
  | some f => d.fail f

/-- A write to the data register. -/
def putWord (d : Drive) (w : Nat) : Drive :=
  match d.busy, d.phase with
  | 0, .dataOut data pos addr left =>
      if pos + 1 < 256 then d.withPhase (.dataOut (setU16 data (2 * pos) w) (pos + 1) addr left)
      else d.commit (setU16 data (2 * pos) w) addr left
  | _, _ => d

/-- The drive takes a command. -/
def Ready (d : Drive) : Prop := d.busy = 0 ∧ d.phase.active = false

end Drive

/-! ## The channel -/

/-- The registers of the command block.  Those for the address and the number of sectors
keep the value written last and the one before. -/
structure TaskFile where
  seccount : Nat × Nat
  lbaLow : Nat × Nat
  lbaMid : Nat × Nat
  lbaHigh : Nat × Nat
  hddevsel : Nat

namespace TaskFile

/-- The address in a command with 28 bits: linear, or by 16 heads of 63 sectors. -/
def address (t : TaskFile) : Nat :=
  if t.hddevsel / 64 % 2 = 1 then
    t.lbaLow.1 + 2 ^ 8 * t.lbaMid.1 + 2 ^ 16 * t.lbaHigh.1 + 2 ^ 24 * (t.hddevsel % 16)
  else ((t.lbaHigh.1 * 256 + t.lbaMid.1) * 16 + t.hddevsel % 16) * 63 + (t.lbaLow.1 - 1)

/-- The address in a command with 48 bits. -/
def addressExt (t : TaskFile) : Nat :=
  t.lbaLow.1 + 2 ^ 8 * t.lbaMid.1 + 2 ^ 16 * t.lbaHigh.1 + 2 ^ 24 * t.lbaLow.2 +
    2 ^ 32 * t.lbaMid.2 + 2 ^ 40 * t.lbaHigh.2

/-- The number of sectors in a command with 28 bits. -/
def count (t : TaskFile) : Nat := if t.seccount.1 = 0 then 256 else t.seccount.1

/-- The number of sectors in a command with 48 bits. -/
def countExt (t : TaskFile) : Nat :=
  if t.seccount.1 + 256 * t.seccount.2 = 0 then 65536 else t.seccount.1 + 256 * t.seccount.2

/-- The selected drive is the slave. -/
def slave (t : TaskFile) : Bool := t.hddevsel / 16 % 2 = 1

end TaskFile

/-- A write to a register that keeps two values. -/
def push (r : Nat × Nat) (v : Nat) : Nat × Nat := (v, r.1)

/-- A write to one of the registers below the command. -/
def TaskFile.put (t : TaskFile) (reg v : Nat) : TaskFile :=
  match reg with
  | 2 => { t with seccount := push t.seccount v }
  | 3 => { t with lbaLow := push t.lbaLow v }
  | 4 => { t with lbaMid := push t.lbaMid v }
  | 5 => { t with lbaHigh := push t.lbaHigh v }
  | 6 => { t with hddevsel := v }
  | _ => t

/-- A drive executes a command. -/
def Drive.execute (d : Drive) (t : TaskFile) (cmd : Nat) : Drive :=
  let d := { d with error := none }
  if cmd = ataCmdIdentify then d.goBusy.withPhase (.dataIn d.spec.ident 0 0 0)
  else if cmd = ataCmdReadPio then d.nextIn t.address t.count
  else if cmd = ataCmdReadPioExt then d.nextIn t.addressExt t.countExt
  else if cmd = ataCmdWritePio then d.nextOut t.address t.count
  else if cmd = ataCmdWritePioExt then d.nextOut t.addressExt t.countExt
  else if cmd = ataCmdCacheFlush ∨ cmd = ataCmdCacheFlushExt then d.goBusy
  else d.fail .error

/-- The channel: the registers, the master and the slave where they exist, and the commands
that were not taken. -/
structure Chan where
  regs : TaskFile
  drives : Bool → Option Drive
  lost : List Nat

namespace Chan

/-- The selected drive. -/
def selected (c : Chan) : Option Drive := c.drives c.regs.slave

/-- The channel with another state of the selected drive. -/
def withSelected (c : Chan) (d : Drive) : Chan :=
  { c with drives := Function.update c.drives c.regs.slave (some d) }

/-- Each drive takes a command. -/
def Ready (c : Chan) : Prop := ∀ b d, c.drives b = some d → d.Ready

/-- The selected drive takes registers. -/
def accepts (c : Chan) : Bool :=
  match c.selected with
  | none => true
  | some d => d.busy = 0 && !d.phase.active

/-- A write to a register of the command block, by its offset. -/
def writeRegister (c : Chan) (reg v : Nat) : Chan :=
  if c.accepts then
    if reg = 7 then
      match c.selected with
      | none => c
      | some d => c.withSelected (d.execute c.regs v)
    else { c with regs := c.regs.put reg v }
  else if reg = 7 then { c with lost := c.lost ++ [v] }
  else c

/-- A read of a register of the command block; nothing is there without a drive. -/
def readRegister (c : Chan) (reg : Nat) : Nat × Chan :=
  match c.selected with
  | none => (0, c)
  | some d =>
      match reg with
      | 4 => (c.regs.lbaMid.1, c)
      | 5 => (c.regs.lbaHigh.1, c)
      | 7 => (d.status, c.withSelected d.tick)
      | _ => (0, c)

/-- A read of the data register. -/
def readData (c : Chan) : Nat × Chan :=
  match c.selected with
  | none => (0, c)
  | some d => (d.takeWord.1, c.withSelected d.takeWord.2)

/-- A write to the data register. -/
def writeData (c : Chan) (w : Nat) : Chan :=
  match c.selected with
  | none => c
  | some d => c.withSelected (d.putWord w)

end Chan

/-- The registers of the command block. -/
def CommandBlock (p : Port) : Prop := 0x1F0 ≤ p.number ∧ p.number < 0x1F8

instance : DecidablePred CommandBlock := fun _ => inferInstanceAs (Decidable (_ ∧ _))

/-- The channel at its ports. -/
def chan : Device Port Chan where
  read
    | .byte n, c => c.readRegister (n - 0x1F0)
    | .word _, c => c.readData
    | .long _, c => (c.readData.1 + 65536 * c.readData.2.readData.1, c.readData.2.readData.2)
  write
    | .byte n, v, c => c.writeRegister (n - 0x1F0) v
    | .word _, v, c => c.writeData v
    | .long _, v, c => (c.writeData (v % 65536)).writeData (v / 65536)

/-- The channel, beside whatever answers at the other ports. -/
def bus {τ : Type} (rest : Device Port τ) : Device Port (Chan × τ) :=
  Device.beside CommandBlock chan rest

/-! ## The selected drive -/

namespace Chan

variable {c : Chan} {d d' : Drive}

@[simp] theorem selected_withSelected : (c.withSelected d).selected = some d := by
  simp [selected, withSelected]

@[simp] theorem regs_withSelected : (c.withSelected d).regs = c.regs := rfl

@[simp] theorem withSelected_withSelected :
    (c.withSelected d).withSelected d' = c.withSelected d' := by
  simp [withSelected]

theorem withSelected_self (h : c.selected = some d) : c.withSelected d = c := by
  have hdrives : Function.update c.drives c.regs.slave (some d) = c.drives :=
    Function.update_eq_self_iff.mpr h.symm
  rw [withSelected, hdrives]

/-- The channel, with a selected drive that has a state, is the one with that state. -/
theorem exists_withSelected (h : c.selected = some d) : ∃ c₀ : Chan, c = c₀.withSelected d :=
  ⟨c, (withSelected_self h).symm⟩

theorem readRegister_status :
    (c.withSelected d).readRegister 7 = (d.status, c.withSelected d.tick) := by
  simp [readRegister]

end Chan

/-! ## Waiting -/

/-- The drive when it is no longer busy. -/
def Drive.settle (d : Drive) : Drive := { d with busy := 0 }

/-- The channel when its selected drive is no longer busy. -/
def Chan.settle (c : Chan) : Chan :=
  match c.selected with
  | none => c
  | some d => c.withSelected d.settle

/-- What `ide_poll` makes of the status when the drive is no longer busy. -/
def Drive.pollCode (d : Drive) : Nat :=
  match d.phase.active, d.error with
  | true, _ => 0
  | false, none => 3
  | false, some .error => 1
  | false, some .fault => 2

@[inherit_doc Drive.pollCode]
def Chan.pollCode (c : Chan) : Nat :=
  match c.selected with
  | none => 3
  | some d => d.pollCode

/-- For how many more reads of the status the selected drive is busy. -/
def Chan.busy (c : Chan) : Nat :=
  match c.selected with
  | none => 0
  | some d => d.busy

section Waiting

variable {c : Chan} {d : Drive}

@[simp] theorem Chan.settle_withSelected : (c.withSelected d).settle = c.withSelected d.settle := by
  simp [settle]

@[simp] theorem Chan.busy_withSelected : (c.withSelected d).busy = d.busy := by
  simp [busy]

theorem Drive.status_of_busy (h : 0 < d.busy) : d.status = ataSrBsy := if_pos h

/-- A drive that is not busy says so. -/
theorem Drive.status_settle : d.settle.status &&& ataSrBsy = 0 := by
  have hbusy : ¬ 0 < d.settle.busy := Nat.lt_irrefl 0
  rw [status, if_neg hbusy]
  cases d.settle.phase.active with
  | true =>
      show (0x40 ||| ataSrDrq) &&& ataSrBsy = 0
      decide
  | false =>
      cases d.settle.error with
      | none => decide
      | some f =>
          cases f with
          | error => decide
          | fault => decide

theorem Drive.tick_settle : d.settle.tick = d.settle := rfl

theorem Drive.settle_of_not_busy (h : d.busy = 0) : d.settle = d := by
  rw [settle, ← h]

theorem Drive.settle_tick : d.tick.settle = d.settle := rfl

end Waiting

end Ide
end NochOS
