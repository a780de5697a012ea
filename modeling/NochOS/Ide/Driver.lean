import NochOS.Library.Ports
import Mathlib.Logic.Function.Basic
import Mathlib.Tactic.Common

/-!
# IDE driver - the code

This module embeds `pci_ide.c`: access to the registers of a channel, polling, detection of
the drives and the transfer of sectors by programmed input and output.  The code is a
program over the ports.  It runs on a model of the drives in the other modules.

Memory that a transfer reads or writes is a buffer that starts at `mem`.  A loop that waits
for a drive has fuel.

Main results:

- Definitions `ideRead`, `ideWrite`, `idePoll`: the registers of a channel.
- Definition `ideAtaAccess`: the transfer of sectors.
- Definition `ideInit`: the tables of channels and devices after start-up.
-/

namespace NochOS
namespace Ide

open Library

/-! ## Constants of `ata.h` and `pci_ide.h` -/

/-- `SECT_SIZE`. -/
def sectSize : Nat := 512

/-- `IDENT_BUF_SIZE`. -/
def identBufSize : Nat := 128

/-- `IDE_ATA`. -/
def ideAta : Nat := 0x00

/-- `IDE_ATAPI`. -/
def ideAtapi : Nat := 0x01

/-- `ATA_SR_BSY`. -/
def ataSrBsy : Nat := 0x80

/-- `ATA_SR_DF`. -/
def ataSrDf : Nat := 0x20

/-- `ATA_SR_DRQ`. -/
def ataSrDrq : Nat := 0x08

/-- `ATA_SR_ERR`. -/
def ataSrErr : Nat := 0x01

/-- `ATA_CMD_READ_PIO`. -/
def ataCmdReadPio : Nat := 0x20

/-- `ATA_CMD_READ_PIO_EXT`. -/
def ataCmdReadPioExt : Nat := 0x24

/-- `ATA_CMD_WRITE_PIO`. -/
def ataCmdWritePio : Nat := 0x30

/-- `ATA_CMD_WRITE_PIO_EXT`. -/
def ataCmdWritePioExt : Nat := 0x34

/-- `ATA_CMD_CACHE_FLUSH`. -/
def ataCmdCacheFlush : Nat := 0xE7

/-- `ATA_CMD_CACHE_FLUSH_EXT`. -/
def ataCmdCacheFlushExt : Nat := 0xEA

/-- `ATA_CMD_IDENTIFY_PACKET`. -/
def ataCmdIdentifyPacket : Nat := 0xA1

/-- `ATA_CMD_IDENTIFY`. -/
def ataCmdIdentify : Nat := 0xEC

/-- `ATA_HDDEVSEL_MASTER_LBA`. -/
def ataHddevselMasterLba : Nat := 0xE0

/-- `ATA_HDDEVSEL_SLAVE_LBA`. -/
def ataHddevselSlaveLba : Nat := 0xF0

/-- `ATA_HDDEVSEL_MASTER_CHS`. -/
def ataHddevselMasterChs : Nat := 0xA0

/-- `ATA_HDDEVSEL_SLAVE_CHS`. -/
def ataHddevselSlaveChs : Nat := 0xB0

/-- `ATA_CTRL_NIEN`. -/
def ataCtrlNien : Nat := 0x02

/-- `ATA_CTRL_HOB`. -/
def ataCtrlHob : Nat := 0x80

/-- `ATA_REG_DATA`. -/
def ataRegData : Nat := 0x00

/-- `ATA_REG_SECCOUNT0`. -/
def ataRegSeccount0 : Nat := 0x02

/-- `ATA_REG_LBA_LOW`. -/
def ataRegLbaLow : Nat := 0x03

/-- `ATA_REG_LBA_MID`. -/
def ataRegLbaMid : Nat := 0x04

/-- `ATA_REG_LBA_HIGH`. -/
def ataRegLbaHigh : Nat := 0x05

/-- `ATA_REG_HDDEVSEL`. -/
def ataRegHddevsel : Nat := 0x06

/-- `ATA_REG_COMMAND`. -/
def ataRegCommand : Nat := 0x07

/-- `ATA_REG_STATUS`. -/
def ataRegStatus : Nat := 0x07

/-- `ATA_REG_SECCOUNT1`. -/
def ataRegSeccount1 : Nat := 0x08

/-- `ATA_REG_LBA_3`. -/
def ataRegLba3 : Nat := 0x09

/-- `ATA_REG_LBA_4`. -/
def ataRegLba4 : Nat := 0x0A

/-- `ATA_REG_LBA_5`. -/
def ataRegLba5 : Nat := 0x0B

/-- `ATA_REG_CONTROL`. -/
def ataRegControl : Nat := 0x0C

/-- `ATA_REG_ALTSTATUS`. -/
def ataRegAltstatus : Nat := 0x0C

/-- `BAR0` to `BAR4`. -/
def bar0 : Nat := 0x1F0

@[inherit_doc bar0] def bar1 : Nat := 0x3F6

@[inherit_doc bar0] def bar2 : Nat := 0x170

@[inherit_doc bar0] def bar3 : Nat := 0x376

@[inherit_doc bar0] def bar4 : Nat := 0xC040

/-- `ATA_READ` and `ATA_WRITE`. -/
inductive Rw where
  | read
  | write
deriving DecidableEq

/-! ## Tables -/

/-- `ide_channel_t`. -/
structure IdeChannel where
  base : Nat
  ctrl : Nat
  bmIde : Nat
  nIen : Nat

/-- `ide_device_t`. -/
structure IdeDevice where
  reserved : Nat
  channel : Nat
  drive : Nat
  type : Nat
  signature : Nat
  capabilities : Nat
  commandSets : Nat
  size : Nat
  model : Buf

/-- The static variables: `ide_channels`, `ide_devices` and `ide_buf`. -/
structure Tables where
  channels : Nat → IdeChannel
  devices : Nat → IdeDevice
  ideBuf : Buf

/-- An entry of `ide_channels` before start-up. -/
def IdeChannel.zero : IdeChannel := ⟨0, 0, 0, 0⟩

/-- An entry of `ide_devices` before start-up. -/
def IdeDevice.zero : IdeDevice := ⟨0, 0, 0, 0, 0, 0, 0, 0, fun _ => 0⟩

/-- The static variables before start-up. -/
def Tables.zero : Tables := ⟨fun _ => .zero, fun _ => .zero, fun _ => 0⟩

/-- `ide_channels[channel].n_ien = n_ien`. -/
def Tables.setNIen (ide : Tables) (channel nIen : Nat) : Tables :=
  { ide with
    channels := Function.update ide.channels channel { ide.channels channel with nIen := nIen } }

/-! ## Registers of a channel -/

/-- The port that stands for a register, by the cascade `ide_read`, `ide_write` and
`ide_read_buf` share; there is none from 0x16 on. -/
def portOf (ch : IdeChannel) (reg : Nat) : Option Nat :=
  if reg < 0x08 then some (ch.base + reg)
  else if reg < 0x0C then some (ch.base + reg - 0x06)
  else if reg < 0x0E then some (ch.ctrl + reg - 0x0A)
  else if reg < 0x16 then some (ch.bmIde + reg - 0x0E)
  else none

/-- The cascade of `ide_write`. -/
def writeReg (ch : IdeChannel) (reg data : Nat) : Program Port Unit :=
  match portOf ch reg with
  | some port => outb data port
  | none => pure ()

/-- A register for the high order bytes, before and after whose access the control register
is written. -/
def highOrder (reg : Nat) : Bool := 0x07 < reg && reg < 0x0C

/-- `ide_write`. -/
def ideWrite (ch : IdeChannel) (reg data : Nat) : Program Port Unit := do
  if highOrder reg then writeReg ch ataRegControl (ataCtrlHob ||| ch.nIen)
  writeReg ch reg data
  if highOrder reg then writeReg ch ataRegControl ch.nIen

/-- `ide_read`; without a port the value is not initialised. -/
def ideRead (ch : IdeChannel) (reg : Nat) : Program Port Nat := do
  if highOrder reg then ideWrite ch ataRegControl (ataCtrlHob ||| ch.nIen)
  let result ← match portOf ch reg with
    | some port => inb port
    | none => Program.stuck
  if highOrder reg then ideWrite ch ataRegControl ch.nIen
  pure result

/-- `ide_read_buf`. -/
def ideReadBuf (ch : IdeChannel) (reg : Nat) (buf : Buf) (longs : Nat) : Program Port Buf := do
  if highOrder reg then ideWrite ch ataRegControl (ataCtrlHob ||| ch.nIen)
  let buf ← match portOf ch reg with
    | some port => insl port buf 0 longs
    | none => pure buf
  if highOrder reg then ideWrite ch ataRegControl ch.nIen
  pure buf

/-- `while (ide_read(channel, ATA_REG_STATUS) & ATA_SR_BSY);`. -/
def waitNotBusy (ch : IdeChannel) (fuel : Nat) : Program Port Nat :=
  (ideRead ch ataRegStatus).repeatUntil (fun v => v &&& ataSrBsy = 0) fuel

/-- The four reads of the alternate status that `ide_poll` starts with. -/
def delay400 (ch : IdeChannel) : Nat → Program Port Unit
  | 0 => pure ()
  | n + 1 => do
      let _ ← ideRead ch ataRegAltstatus
      delay400 ch n

/-- `ide_poll`. -/
def idePoll (ch : IdeChannel) (advancedCheck : Bool) (fuel : Nat) : Program Port Nat := do
  delay400 ch 4
  let _ ← waitNotBusy ch fuel
  if advancedCheck then
    let state ← ideRead ch ataRegStatus
    if state &&& ataSrErr ≠ 0 then pure 1
    else if state &&& ataSrDf ≠ 0 then pure 2
    else if state &&& ataSrDrq = 0 then pure 3
    else pure 0
  else pure 0

/-! ## Transfer of sectors -/

/-- `addr_mode`, `addr_io` and `head`. -/
structure Addressing where
  addrMode : Nat
  addrIo : Nat → Nat
  head : Nat

/-- The selection of the mode in `ide_ata_access`. -/
def selectMode (capabilities lbaAddr : Nat) : Addressing :=
  if 0x10000000 ≤ lbaAddr then
    { addrMode := 2
      addrIo := fun
        | 0 => lbaAddr &&& 0xFF
        | 1 => (lbaAddr &&& 0xFF00) >>> 8
        | 2 => (lbaAddr &&& 0xFF0000) >>> 16
        | 3 => (lbaAddr &&& 0xFF000000) >>> 24
        | _ => 0
      head := 0 }
  else if capabilities &&& 0x200 ≠ 0 then
    { addrMode := 1
      addrIo := fun
        | 0 => lbaAddr &&& 0xFF
        | 1 => (lbaAddr &&& 0xFF00) >>> 8
        | 2 => (lbaAddr &&& 0xFF0000) >>> 16
        | _ => 0
      head := (lbaAddr &&& 0xF000000) >>> 24 }
  else
    let sect := lbaAddr % 63 + 1
    let cyl := (lbaAddr + 1 - sect) / (16 * 63) % 2 ^ 16
    { addrMode := 0
      addrIo := fun
        | 0 => sect
        | 1 => cyl &&& 0xFF
        | 2 => (cyl >>> 8) &&& 0xFF
        | _ => 0
      head := (lbaAddr + 1 - sect) % (16 * 63) / 63 }

/-- What is written to `ATA_REG_HDDEVSEL`.  In the source the head goes with the master
only: `|` binds tighter than the conditional. -/
def hddevsel (addrMode slavebit head : Nat) : Nat :=
  if addrMode = 0 then
    if slavebit ≠ 0 then ataHddevselSlaveChs else ataHddevselMasterChs ||| head
  else if slavebit ≠ 0 then ataHddevselSlaveLba else ataHddevselMasterLba ||| head

/-- `cmd`. -/
def commandOf (addrMode : Nat) : Rw → Nat
  | .read => if addrMode ≤ 1 then ataCmdReadPio else ataCmdReadPioExt
  | .write => if addrMode ≤ 1 then ataCmdWritePio else ataCmdWritePioExt

/-- From the selection of the drive to the command. -/
def sendCommand (ch : IdeChannel) (a : Addressing) (rw : Rw) (slavebit nsects : Nat) :
    Program Port Unit := do
  ideWrite ch ataRegHddevsel (hddevsel a.addrMode slavebit a.head)
  if a.addrMode = 2 then
    ideWrite ch ataRegSeccount1 0
    ideWrite ch ataRegLba3 (a.addrIo 3)
    ideWrite ch ataRegLba4 (a.addrIo 4)
    ideWrite ch ataRegLba5 (a.addrIo 5)
  ideWrite ch ataRegSeccount0 nsects
  ideWrite ch ataRegLbaLow (a.addrIo 0)
  ideWrite ch ataRegLbaMid (a.addrIo 1)
  ideWrite ch ataRegLbaHigh (a.addrIo 2)
  ideWrite ch ataRegCommand (commandOf a.addrMode rw)

/-- The loop that reads, for `n` more sectors: the error and the memory. -/
def readSectors (ch : IdeChannel) : Nat → Buf → Nat → Nat → Program Port (Nat × Buf)
  | 0, mem, _, _ => pure (0, mem)
  | n + 1, mem, off, fuel => do
      let err ← idePoll ch true fuel
      if err ≠ 0 then pure (err, mem)
      else
        let mem ← insw ch.base mem off (sectSize / 2)
        readSectors ch n mem (off + sectSize / 2 * 2) fuel

/-- The loop that writes, for `n` more sectors. -/
def writeSectors (ch : IdeChannel) : Nat → Buf → Nat → Nat → Program Port Unit
  | 0, _, _, _ => pure ()
  | n + 1, mem, off, fuel => do
      let _ ← idePoll ch false fuel
      outsw ch.base mem off (sectSize / 2)
      writeSectors ch n mem (off + sectSize / 2 * 2) fuel

/-- `ide_ata_access`: the return value, the memory from `mem` on and the tables.  The number
of sectors has eight bits. -/
def ideAtaAccess (ide : Tables) (rw : Rw) (drive lbaAddr nsects : Nat) (mem : Buf) (fuel : Nat) :
    Program Port (Nat × Buf × Tables) := do
  let channel := (ide.devices drive).channel
  let slavebit := (ide.devices drive).drive
  let ide := ide.setNIen channel ataCtrlNien
  let ch := ide.channels channel
  ideWrite ch ataRegControl ch.nIen
  let a := selectMode (ide.devices drive).capabilities lbaAddr
  let _ ← waitNotBusy ch fuel
  sendCommand ch a rw slavebit (nsects % 256)
  match rw with
  | .read =>
      let (err, mem) ← readSectors ch (nsects % 256) mem 0 fuel
      pure (err, mem, ide)
  | .write =>
      writeSectors ch (nsects % 256) mem 0 fuel
      ideWrite ch ataRegCommand
        (if a.addrMode ≤ 1 then ataCmdCacheFlush else ataCmdCacheFlushExt)
      let _ ← idePoll ch false fuel
      pure (0, mem, ide)

/-- The number of sectors in `ide_dev_read` and `ide_dev_write`. -/
def nsectsOf (nbytes : Nat) : Nat :=
  nbytes / sectSize + if nbytes % sectSize ≠ 0 then 1 else 0

/-- `ide_dev_read`. -/
def ideDevRead (ide : Tables) (buf : Buf) (offset nbytes fuel : Nat) :
    Program Port (Nat × Buf × Tables) :=
  ideAtaAccess ide .read 0 offset (nsectsOf nbytes) buf fuel

/-- `ide_dev_write`. -/
def ideDevWrite (ide : Tables) (buf : Buf) (offset nbytes fuel : Nat) :
    Program Port (Nat × Buf × Tables) :=
  ideAtaAccess ide .write 0 offset (nsectsOf nbytes) buf fuel

/-! ## Detection of the drives -/

/-- The entry that `ide_init` fills in from the identification. -/
def describe (ideBuf : Buf) (type channel drive : Nat) : IdeDevice :=
  let commandSets := u32At ideBuf 164
  { reserved := 1
    type := type
    channel := channel
    drive := drive
    signature := u16At ideBuf 0
    capabilities := u16At ideBuf 98
    commandSets := commandSets
    size := if commandSets &&& 0x04000000 ≠ 0 then u32At ideBuf 200 else u32At ideBuf 120
    model := fun k =>
      if k < 40 then ideBuf (54 + (if k % 2 = 0 then k + 1 else k - 1)) else 0 }

/-- The body of the loop over the drives, with the number of entries so far.  The calls of
`sleep` only wait. -/
def detect (ide : Tables) (count i j fuel : Nat) : Program Port (Tables × Nat) := do
  let ide := { ide with
    devices := Function.update ide.devices count { ide.devices count with reserved := 0 } }
  let ch := ide.channels i
  ideWrite ch ataRegHddevsel (ataHddevselMasterChs ||| (j <<< 4))
  ideWrite ch ataRegCommand ataCmdIdentify
  let status ← ideRead ch ataRegStatus
  if status = 0 then pure (ide, count)
  else
    let status ← (ideRead ch ataRegStatus).repeatUntil
      (fun v => v &&& ataSrErr ≠ 0 ∨ (v &&& ataSrBsy = 0 ∧ v &&& ataSrDrq ≠ 0)) fuel
    let found (type : Nat) : Program Port (Tables × Nat) := do
      let ideBuf ← ideReadBuf ch ataRegData ide.ideBuf identBufSize
      pure ({ ide with
        devices := Function.update ide.devices count (describe ideBuf type i j)
        ideBuf := ideBuf }, count + 1)
    if status &&& ataSrErr ≠ 0 then
      let cl ← ideRead ch ataRegLbaMid
      let chi ← ideRead ch ataRegLbaHigh
      if (cl = 0x14 ∧ chi = 0xEB) ∨ (cl = 0x69 ∧ chi = 0x96) then
        ideWrite ch ataRegCommand ataCmdIdentifyPacket
        found ideAtapi
      else pure (ide, count)
    else found ideAta

/-- The set-up of the port numbers in `ide_init`.  The base of the secondary channel is
assigned twice and its control port never. -/
def setPorts (ide : Tables) : Tables :=
  let primary := { ide.channels 0 with base := bar0, ctrl := bar1, bmIde := bar4 }
  let secondary := { ide.channels 1 with base := bar2 }
  let secondary := { secondary with base := bar3, bmIde := bar4 + 8 }
  { ide with channels := Function.update (Function.update ide.channels 0 primary) 1 secondary }

/-- `ide_init`. -/
def ideInit (ide : Tables) (fuel : Nat) : Program Port Tables := do
  let ide := setPorts ide
  ideWrite (ide.channels 0) ataRegControl ataCtrlNien
  ideWrite (ide.channels 1) ataRegControl ataCtrlNien
  let (ide, count) ← detect ide 0 0 0 fuel
  let (ide, count) ← detect ide count 0 1 fuel
  let (ide, count) ← detect ide count 1 0 fuel
  let (ide, _) ← detect ide count 1 1 fuel
  pure ide

end Ide
end NochOS
