import NochOS.Ide.Addressing

/-!
# IDE driver - the disk it serves

A request to the device is a read or a write of a number of bytes at a sector.  This module
compares a run of requests through the driver and the drives, whatever the delays of the
drives are and whatever the other ports do, with the same requests to an ideal row of
sectors.

Main results:

- Theorem `serveAll_refines`: over every run of requests the driver and the drive are the
  ideal row of sectors, the failures of sectors included.
-/

namespace NochOS
namespace Ide

open Library

/-! ## One access -/

/-- The tables of a driver whose first drive is on the primary channel. -/
structure Found (ide : Tables) (slave : Bool) (capabilities : Nat) : Prop where
  channel : (ide.devices 0).channel = 0
  drive : (ide.devices 0).drive = slavebit slave
  capabilities : (ide.devices 0).capabilities = capabilities
  primary : Primary (ide.channels 0)

/-- The drives take commands, and one of them has these sectors. -/
structure Serves (c : Chan) (slave : Bool) (spec : DriveSpec) (sectors : Nat → Buf) : Prop where
  ready : c.Ready
  drive : ∃ d, c.drives slave = some d ∧ d.spec = spec ∧ d.sectors = sectors

section Access

variable {τ : Type} (rest : Device Port τ) {ide : Tables} {slave : Bool} {capabilities : Nat}
  {c : Chan} {spec : DriveSpec} {sectors : Nat → Buf}

/-- An access only changes `n_ien`. -/
theorem Found.setNIen (hf : Found ide slave capabilities) (nIen : Nat) :
    Found (ide.setNIen 0 nIen) slave capabilities where
  channel := hf.channel
  drive := hf.drive
  capabilities := hf.capabilities
  primary := by
    have hchannel : (ide.setNIen 0 nIen).channels 0 = { ide.channels 0 with nIen := nIen } := by
      simp [Tables.setNIen]
    rw [hchannel]
    exact ⟨hf.primary.base, hf.primary.ctrl⟩

/-- Drives that take commands are not waited for. -/
theorem Chan.Ready.settle (hr : c.Ready) : c.settle = c := by
  unfold Chan.settle
  cases hsel : c.selected with
  | none => rfl
  | some d =>
      have hd : d.settle = d := Drive.settle_of_not_busy (hr _ d hsel).1
      simp only [hd]
      exact Chan.withSelected_self hsel

/-- A change of the selected drive to one that takes commands. -/
theorem Chan.Ready.withSelected (hr : c.Ready) {d : Drive} (hd : d.Ready) :
    (c.withSelected d).Ready := by
  intro b d' hb
  by_cases hsel : b = c.regs.slave
  · subst hsel
    have hb' : d = d' := by
      simpa [Chan.withSelected] using hb
    rw [← hb']
    exact hd
  · apply hr b d'
    simpa [Chan.withSelected, Function.update_of_ne hsel] using hb

theorem Serves.withSelected (hr : c.Ready) (hslave : c.regs.slave = slave) {d : Drive}
    (hd : d.Ready) : Serves (c.withSelected d) slave d.spec d.sectors where
  ready := hr.withSelected hd
  drive := ⟨d, by rw [← hslave]; exact Chan.selected_withSelected, rfl, rfl⟩

/-- The mode follows the size of the address. -/
theorem addrMode_eq_two_iff (capabilities lbaAddr : Nat) :
    (selectMode capabilities lbaAddr).addrMode = 2 ↔ 2 ^ 28 ≤ lbaAddr := by
  unfold selectMode
  split
  next h => exact ⟨fun _ => h, fun _ => rfl⟩
  next h =>
    refine ⟨fun hmode => ?_, fun hbig => absurd hbig h⟩
    split at hmode
    · cases hmode
    · cases hmode

theorem addrMode_le_one_iff (capabilities lbaAddr : Nat) :
    (selectMode capabilities lbaAddr).addrMode ≤ 1 ↔ lbaAddr < 2 ^ 28 := by
  have hle : (selectMode capabilities lbaAddr).addrMode ≤ 2 := by
    unfold selectMode
    split
    · exact Nat.le_refl 2
    · split
      · exact Nat.le_succ 1
      · exact Nat.zero_le 2
  have htwo := addrMode_eq_two_iff capabilities lbaAddr
  omega

/-- A drive that executes the command of a read starts at the sector that is reached. -/
theorem execute_read (d : Drive) (t : TaskFile) {lbaAddr nsects : Nat} (hlt : lbaAddr < 2 ^ 32)
    (hpos : nsects ≠ 0) :
    let a := selectMode capabilities lbaAddr
    d.execute (regsFor t a (slavebit slave) nsects) (commandOf a.addrMode .read) =
      { d with error := none }.nextIn (reached capabilities slave lbaAddr) nsects := by
  intro a
  by_cases hbig : 2 ^ 28 ≤ lbaAddr
  · have hmode : a.addrMode = 2 := (addrMode_eq_two_iff _ _).mpr hbig
    have hreached : reached capabilities slave lbaAddr = lbaAddr := if_pos hbig
    have hexec : ∀ t : TaskFile, d.execute t ataCmdReadPioExt =
        { d with error := none }.nextIn t.addressExt t.countExt := fun _ => rfl
    rw [commandOf, hmode, if_neg (by decide), hexec, addressExt_regsFor hbig hlt,
      countExt_regsFor _ hpos hmode, hreached]
  · have hsmall : lbaAddr < 2 ^ 28 := Nat.lt_of_not_le hbig
    have hexec : ∀ t : TaskFile, d.execute t ataCmdReadPio =
        { d with error := none }.nextIn t.address t.count := fun _ => rfl
    rw [commandOf, if_pos ((addrMode_le_one_iff _ _).mpr hsmall), hexec, address_regsFor hsmall,
      count_regsFor _ _ hpos]

/-- The same for the command of a write. -/
theorem execute_write (d : Drive) (t : TaskFile) {lbaAddr nsects : Nat} (hlt : lbaAddr < 2 ^ 32)
    (hpos : nsects ≠ 0) :
    let a := selectMode capabilities lbaAddr
    d.execute (regsFor t a (slavebit slave) nsects) (commandOf a.addrMode .write) =
      { d with error := none }.nextOut (reached capabilities slave lbaAddr) nsects := by
  intro a
  by_cases hbig : 2 ^ 28 ≤ lbaAddr
  · have hmode : a.addrMode = 2 := (addrMode_eq_two_iff _ _).mpr hbig
    have hreached : reached capabilities slave lbaAddr = lbaAddr := if_pos hbig
    have hexec : ∀ t : TaskFile, d.execute t ataCmdWritePioExt =
        { d with error := none }.nextOut t.addressExt t.countExt := fun _ => rfl
    rw [commandOf, hmode, if_neg (by decide), hexec, addressExt_regsFor hbig hlt,
      countExt_regsFor _ hpos hmode, hreached]
  · have hsmall : lbaAddr < 2 ^ 28 := Nat.lt_of_not_le hbig
    have hexec : ∀ t : TaskFile, d.execute t ataCmdWritePio =
        { d with error := none }.nextOut t.address t.count := fun _ => rfl
    rw [commandOf, if_pos ((addrMode_le_one_iff _ _).mpr hsmall), hexec, address_regsFor hsmall,
      count_regsFor _ _ hpos]

/-- The selected drive takes a command when both drives do. -/
theorem Chan.Ready.writeRegister_command (hr : c.Ready) {d : Drive} (hsel : c.selected = some d)
    (cmd : Nat) : c.writeRegister 7 cmd = c.withSelected (d.execute c.regs cmd) := by
  rw [Chan.writeRegister, if_pos hr.accepts, if_pos rfl, hsel]

/-- The start of an access, up to the command. -/
theorem Found.does_start {α : Type} (hf : Found ide slave capabilities) (hr : c.Ready)
    {d : Drive} (hd : c.drives slave = some d) {lbaAddr nsects : Nat} (rw_ : Rw)
    {f : Nat → Program Port α} {x : α} {c' : Chan} :
    let ch := (ide.setNIen 0 ataCtrlNien).channels 0
    let a := selectMode capabilities lbaAddr
    let regs := regsFor c.regs a (slavebit slave) nsects
    Does rest f ((c.withRegs regs).withSelected (d.execute regs (commandOf a.addrMode rw_))) x c' →
    Does rest (fun fuel => do
      ideWrite ch ataRegControl ch.nIen
      let _ ← waitNotBusy ch fuel
      sendCommand ch a rw_ (slavebit slave) nsects
      f fuel) c x c' := by
  intro ch a regs hrest
  have hch : Primary ch := (hf.setNIen ataCtrlNien).primary
  have hslave : (c.withRegs regs).regs.slave = slave := slave_regsFor
  have hsel : (c.withRegs regs).selected = some d := by
    rw [Chan.selected, hslave]
    exact hd
  have hwait := hch.does_wait rest c
  rw [hr.settle] at hwait
  have hsend := hch.does_sendCommand rest hr a rw_ (slavebit slave) nsects
  rw [(Chan.Ready.withRegs hr).writeRegister_command hsel] at hsend
  exact Does.bind (hch.does_control rest _) (Does.bind hwait (Does.bind hsend hrest))

/-- The read of sectors by a driver that has found its first drive. -/
theorem Found.ideAtaAccess_read (hf : Found ide slave capabilities) (lbaAddr nsects : Nat)
    (mem : Buf) :
    let ch := (ide.setNIen 0 ataCtrlNien).channels 0
    ideAtaAccess ide .read 0 lbaAddr nsects mem = fun fuel => (do
      ideWrite ch ataRegControl ch.nIen
      let _ ← waitNotBusy ch fuel
      sendCommand ch (selectMode capabilities lbaAddr) .read (slavebit slave) (nsects % 256)
      let reply ← readSectors ch (nsects % 256) mem 0 fuel
      pure (reply.1, reply.2, ide.setNIen 0 ataCtrlNien)) := by
  funext fuel
  unfold ideAtaAccess
  simp only [hf.channel, hf.drive, (hf.setNIen ataCtrlNien).capabilities]

/-- The write of sectors. -/
theorem Found.ideAtaAccess_write (hf : Found ide slave capabilities) (lbaAddr nsects : Nat)
    (mem : Buf) :
    let ch := (ide.setNIen 0 ataCtrlNien).channels 0
    let a := selectMode capabilities lbaAddr
    ideAtaAccess ide .write 0 lbaAddr nsects mem = fun fuel => (do
      ideWrite ch ataRegControl ch.nIen
      let _ ← waitNotBusy ch fuel
      sendCommand ch a .write (slavebit slave) (nsects % 256)
      writeSectors ch (nsects % 256) mem 0 fuel
      ideWrite ch ataRegCommand
        (if a.addrMode ≤ 1 then ataCmdCacheFlush else ataCmdCacheFlushExt)
      let _ ← idePoll ch false fuel
      pure (0, mem, ide.setNIen 0 ataCtrlNien)) := by
  funext fuel
  unfold ideAtaAccess
  simp only [hf.channel, hf.drive, (hf.setNIen ataCtrlNien).capabilities]

/-- A read through the driver is a read of the ideal row. -/
theorem Found.does_read (hf : Found ide slave capabilities) (hs : Serves c slave spec sectors)
    {lbaAddr nsects : Nat} (hlt : lbaAddr < 2 ^ 32) (hpos : nsects % 256 ≠ 0) (mem : Buf) :
    let reply := readRow spec.flaw sectors (reached capabilities slave lbaAddr) (nsects % 256) mem 0
    ∃ c', Serves c' slave spec sectors ∧
      Does rest (ideAtaAccess ide .read 0 lbaAddr nsects mem) c
        (reply.1, reply.2, ide.setNIen 0 ataCtrlNien) c' := by
  intro reply
  obtain ⟨d, hd, hspec, hsectors⟩ := hs.drive
  have hch : Primary ((ide.setNIen 0 ataCtrlNien).channels 0) := (hf.setNIen ataCtrlNien).primary
  let c₁ := c.withRegs (regsFor c.regs (selectMode capabilities lbaAddr) (slavebit slave)
    (nsects % 256))
  obtain ⟨d', hready, hspec', hsectors', hdoes⟩ :=
    hch.does_readSectors rest (c := c₁) (nsects % 256) { d with error := none }
      (reached capabilities slave lbaAddr) mem 0 (hs.ready slave d hd).1
  have hslave : c₁.regs.slave = slave := slave_regsFor
  have hready₁ : c₁.Ready := hs.ready
  have hserves := Serves.withSelected hready₁ hslave hready
  have hsame : d'.spec = spec ∧ d'.sectors = sectors :=
    ⟨hspec'.trans hspec, hsectors'.trans hsectors⟩
  rw [hsame.1, hsame.2] at hserves
  refine ⟨c₁.withSelected d', hserves, ?_⟩
  rw [hf.ideAtaAccess_read]
  apply hf.does_start rest hs.ready hd .read
  rw [execute_read d c.regs hlt hpos]
  have hreply : readRow d.spec.flaw d.sectors (reached capabilities slave lbaAddr) (nsects % 256)
      mem 0 = reply := by
    rw [hspec, hsectors]
  simp only [hreply] at hdoes
  exact Does.bind hdoes Does.pure

/-- The flush leaves the sectors as they are.  A drive that is still busy with the last
sector does not take it. -/
theorem Primary.does_flush {ch : IdeChannel} (h : Primary ch) (hr : c.Ready)
    (hslave : c.regs.slave = slave) {d : Drive} (hidle : d.phase.active = false) {cmd : Nat}
    (hcmd : cmd = ataCmdCacheFlush ∨ cmd = ataCmdCacheFlushExt) :
    ∃ c', Serves c' slave d.spec d.sectors ∧
      c'.lost = (if d.busy = 0 then c.lost else c.lost ++ [cmd]) ∧
      Does rest (fun fuel => do
        ideWrite ch ataRegCommand cmd
        idePoll ch false fuel) (c.withSelected d) 0 c' := by
  have hflush : Does rest (fun _ => ideWrite ch ataRegCommand cmd) (c.withSelected d) ()
      ((c.withSelected d).writeRegister ataRegCommand cmd) := h.does_low rest (by decide) cmd
  by_cases hbusy : d.busy = 0
  · have haccepts : (c.withSelected d).accepts = true := by
      simp [Chan.accepts, hbusy, hidle]
    have htaken : (c.withSelected d).writeRegister ataRegCommand cmd =
        c.withSelected ({ d with error := none }.goBusy) := by
      have hreg : ataRegCommand = 7 := rfl
      rw [Chan.writeRegister, if_pos haccepts, if_pos hreg, Chan.selected_withSelected]
      rcases hcmd with rfl | rfl
      · exact Chan.withSelected_withSelected
      · exact Chan.withSelected_withSelected
    rw [htaken] at hflush
    have hpoll := h.does_poll rest (c.withSelected ({ d with error := none }.goBusy))
    rw [Chan.settle_withSelected] at hpoll
    have hserves : Serves (c.withSelected ({ d with error := none }.goBusy.settle)) slave d.spec
        d.sectors := Serves.withSelected hr hslave ⟨rfl, hidle⟩
    refine ⟨_, hserves, ?_, Does.bind hflush hpoll⟩
    rw [if_pos hbusy]
    rfl
  · have haccepts : ¬ (c.withSelected d).accepts = true := by
      simp [Chan.accepts, hbusy]
    let c₁ : Chan := { c with lost := c.lost ++ [cmd] }
    have hlost : (c.withSelected d).writeRegister ataRegCommand cmd = c₁.withSelected d := by
      have hreg : ataRegCommand = 7 := rfl
      rw [Chan.writeRegister, if_neg haccepts, if_pos hreg]
      rfl
    rw [hlost] at hflush
    have hpoll := h.does_poll rest (c₁.withSelected d)
    rw [Chan.settle_withSelected] at hpoll
    have hready : c₁.Ready := hr
    have hserves : Serves (c₁.withSelected d.settle) slave d.spec d.sectors :=
      Serves.withSelected (d := d.settle) hready hslave ⟨rfl, hidle⟩
    refine ⟨_, hserves, ?_, Does.bind hflush hpoll⟩
    rw [if_neg hbusy]
    rfl

/-- The command that ends a write. -/
def flushOf (addrMode : Nat) : Nat :=
  if addrMode ≤ 1 then ataCmdCacheFlush else ataCmdCacheFlushExt

/-- A write through the driver is a write to the ideal row, and always returns 0.  Without a
failure its flush is lost where the drive is busy with the last sector. -/
theorem Found.does_write_flush (hf : Found ide slave capabilities) (hr : c.Ready) {d : Drive}
    (hd : c.drives slave = some d) {lbaAddr nsects : Nat} (hlt : lbaAddr < 2 ^ 32)
    (hpos : nsects % 256 ≠ 0) (mem : Buf) :
    let at_ := reached capabilities slave lbaAddr
    let n := nsects % 256
    ∃ c', Serves c' slave d.spec (writeRow d.spec.flaw d.sectors at_ n mem 0) ∧
      ((∀ i < n, d.spec.flaw (at_ + i) = none) →
        c'.lost = if d.spec.delay (d.times + n) = 0 then c.lost
          else c.lost ++ [flushOf (selectMode capabilities lbaAddr).addrMode]) ∧
      Does rest (ideAtaAccess ide .write 0 lbaAddr nsects mem) c
        (0, mem, ide.setNIen 0 ataCtrlNien) c' := by
  intro at_ n
  have hch : Primary ((ide.setNIen 0 ataCtrlNien).channels 0) := (hf.setNIen ataCtrlNien).primary
  let c₁ := c.withRegs (regsFor c.regs (selectMode capabilities lbaAddr) (slavebit slave) n)
  have hr₁ : c₁.Ready := hr
  obtain ⟨d', hidle, hspec, hsectors, hbusy, hdoes⟩ :=
    hch.does_writeSectors rest (c := c₁) n { d with error := none } at_ mem 0
  have hcmd : ∀ mode, flushOf mode = ataCmdCacheFlush ∨ flushOf mode = ataCmdCacheFlushExt := by
    intro mode
    unfold flushOf
    split
    · exact Or.inl rfl
    · exact Or.inr rfl
  obtain ⟨c', hserves, hlost, hflush⟩ :=
    hch.does_flush rest hr₁ slave_regsFor hidle (hcmd (selectMode capabilities lbaAddr).addrMode)
  rw [hspec, hsectors] at hserves
  refine ⟨c', hserves, fun hgood => ?_, ?_⟩
  · rw [hlost, hbusy hgood]
    rfl
  · rw [hf.ideAtaAccess_write]
    apply hf.does_start rest hr hd .write
    rw [execute_write d c.regs hlt hpos]
    refine Does.bind hdoes ?_
    have hend := Does.bind (f := fun _ _ => pure ((0 : Nat), mem, ide.setNIen 0 ataCtrlNien)) hflush
      Does.pure
    simp only [bind_assoc] at hend
    exact hend

/-- A write through the driver is a write to the ideal row. -/
theorem Found.does_write (hf : Found ide slave capabilities) (hs : Serves c slave spec sectors)
    {lbaAddr nsects : Nat} (hlt : lbaAddr < 2 ^ 32) (hpos : nsects % 256 ≠ 0) (mem : Buf) :
    ∃ c', Serves c' slave spec
        (writeRow spec.flaw sectors (reached capabilities slave lbaAddr) (nsects % 256) mem 0) ∧
      Does rest (ideAtaAccess ide .write 0 lbaAddr nsects mem) c
        (0, mem, ide.setNIen 0 ataCtrlNien) c' := by
  obtain ⟨d, hd, rfl, rfl⟩ := hs.drive
  obtain ⟨c', hserves, -, hdoes⟩ := hf.does_write_flush rest hs.ready hd hlt hpos mem
  exact ⟨c', hserves, hdoes⟩

/-- The drive gets the flush that ends a write without failures exactly where it is not busy
with the last sector any more. -/
theorem flush_taken_iff (hf : Found ide slave capabilities) (hr : c.Ready) {d : Drive}
    (hd : c.drives slave = some d) {lbaAddr nsects : Nat} (hlt : lbaAddr < 2 ^ 32)
    (hpos : nsects % 256 ≠ 0) (mem : Buf)
    (hgood : ∀ i < nsects % 256, d.spec.flaw (reached capabilities slave lbaAddr + i) = none) :
    ∃ c', Does rest (ideAtaAccess ide .write 0 lbaAddr nsects mem) c
        (0, mem, ide.setNIen 0 ataCtrlNien) c' ∧
      (c'.lost = c.lost ↔ d.spec.delay (d.times + nsects % 256) = 0) := by
  obtain ⟨c', -, hlost, hdoes⟩ := hf.does_write_flush rest hr hd hlt hpos mem
  refine ⟨c', hdoes, ?_⟩
  rw [hlost hgood]
  split
  next hzero => exact ⟨fun _ => hzero, fun _ => rfl⟩
  next hbusy =>
    refine ⟨fun h => ?_, fun h => absurd h hbusy⟩
    have hlength := congrArg List.length h
    rw [List.length_append] at hlength
    exact absurd hlength (Nat.succ_ne_self _)

end Access

/-! ## A small disk -/

/-- Ports at which nothing answers. -/
def silent : Device Port Unit := ⟨fun _ t => (0xFF, t), fun _ _ t => t⟩

/-- A drive with linear addresses, of which the sectors from 1000 on do not exist. -/
def smallDrive : Drive where
  spec := ⟨fun i => if i = 99 then 2 else 0, fun k => if k < 1000 then none else some .error,
    fun n => n % 2⟩
  sectors := fun _ _ => 0
  phase := .idle
  error := none
  busy := 0
  times := 0

/-- A channel with that drive as its master. -/
def masterOnly : Chan :=
  ⟨⟨(0, 0), (0, 0), (0, 0), (0, 0), 0⟩, fun slave => if slave then none else some smallDrive, []⟩

theorem masterOnly_ready : masterOnly.Ready := by
  intro slave d hd
  cases slave with
  | true => cases hd
  | false =>
      have hdrive : smallDrive = d := Option.some.inj hd
      rw [← hdrive]
      exact ⟨rfl, rfl⟩

/-- Tables with that drive, found on the primary channel. -/
def smallTables : Tables :=
  { Tables.zero with
    channels := fun _ => ⟨0x1F0, 0x3F6, 0xC040, 0⟩
    devices := fun _ => { IdeDevice.zero with capabilities := 0x200 } }

theorem smallTables_found : Found smallTables false 0x200 := ⟨rfl, rfl, rfl, rfl, rfl⟩

/-- The flush after a write of one sector comes too early for a drive that needs time the
second time. -/
theorem flush_taken_iff_small : ∃ c', Does silent
    (ideAtaAccess smallTables .write 0 5 1 (fun _ => 7)) masterOnly
      (0, fun _ => 7, smallTables.setNIen 0 ataCtrlNien) c' ∧
    (c'.lost = masterOnly.lost ↔ smallDrive.spec.delay (smallDrive.times + 1) = 0) :=
  flush_taken_iff silent smallTables_found masterOnly_ready rfl (by decide) (by decide)
    (fun _ => 7) (by decide)

/-! ## Addresses -/

section Addresses

variable {τ : Type} (rest : Device Port τ) {ide : Tables} {slave : Bool} {capabilities : Nat}

/-- A program has one outcome. -/
theorem Does.unique {α : Type} {rest : Device Port τ} {prog : Nat → Program Port α}
    {c c₁ c₂ : Chan} {a b : α} (t : τ) (h₁ : Does rest prog c a c₁) (h₂ : Does rest prog c b c₂) :
    a = b := by
  obtain ⟨x, s, ⟨rfl, -⟩, n, hn⟩ := h₁ t
  obtain ⟨y, s', ⟨rfl, -⟩, m, hm⟩ := h₂ t
  have hrun := hn (max n m) (Nat.le_max_left _ _)
  rw [hm (max n m) (Nat.le_max_right _ _)] at hrun
  exact congrArg Prod.fst (Option.some.inj hrun.symm)

/-- A read does not change what is before its offset. -/
theorem readRow_before (flaw : Nat → Option Flaw) (sectors : Nat → Buf) {i : Nat} :
    ∀ (n addr : Nat) (mem : Buf) (off : Nat), i < off →
      (readRow flaw sectors addr n mem off).2 i = mem i := by
  intro n
  induction n with
  | zero => exact fun _ _ _ _ => rfl
  | succ n ih =>
      intro addr mem off hi
      unfold readRow
      split
      · rfl
      · rw [ih _ _ _ (Nat.lt_add_right _ hi), memcpy_outside (Or.inl hi)]

/-- The first byte of a read without failures is that of the first sector. -/
theorem readRow_first {sectors : Nat → Buf} {addr n : Nat} (hpos : n ≠ 0) (mem : Buf) :
    (readRow (fun _ => none) sectors addr n mem 0).2 0 = sectors addr 0 := by
  obtain ⟨m, rfl⟩ := Nat.exists_eq_succ_of_ne_zero hpos
  rw [readRow, readRow_before _ _ _ _ _ _ (by decide), memcpy_inside (Nat.le_refl 0) (by decide)]

/-- Reads and writes at an address get to the sectors from that address on, for all drives
and sectors, exactly if the driver reaches it. -/
theorem transfers_iff_reachable [Inhabited τ] (hf : Found ide slave capabilities)
    {lbaAddr nsects : Nat} (hlt : lbaAddr < 2 ^ 32) (hpos : nsects % 256 ≠ 0) :
    (∀ (c : Chan) (spec : DriveSpec) (sectors : Nat → Buf) (mem : Buf),
      Serves c slave spec sectors →
      let reply := readRow spec.flaw sectors lbaAddr (nsects % 256) mem 0
      let ide' := ide.setNIen 0 ataCtrlNien
      (∃ c', Serves c' slave spec sectors ∧
        Does rest (ideAtaAccess ide .read 0 lbaAddr nsects mem) c (reply.1, reply.2, ide') c') ∧
      (∃ c', Serves c' slave spec (writeRow spec.flaw sectors lbaAddr (nsects % 256) mem 0) ∧
        Does rest (ideAtaAccess ide .write 0 lbaAddr nsects mem) c (0, mem, ide') c')) ↔
      Reachable capabilities slave lbaAddr := by
  constructor
  · intro h
    -- a drive whose sectors differ in their first byte
    let spec : DriveSpec := ⟨fun _ => 0, fun _ => none, fun _ => 0⟩
    let sectors : Nat → Buf := fun k _ => if k = lbaAddr then 1 else 0
    let d : Drive := ⟨spec, sectors, .idle, none, 0, 0⟩
    let c : Chan := ⟨⟨(0, 0), (0, 0), (0, 0), (0, 0), 0⟩, fun _ => some d, []⟩
    have hready : c.Ready := by
      intro b d' hd'
      have hd : d = d' := Option.some.inj hd'
      rw [← hd]
      exact ⟨rfl, rfl⟩
    have hserves : Serves c slave spec sectors := ⟨hready, d, rfl, rfl, rfl⟩
    obtain ⟨⟨c₁, -, hdoes₁⟩, -⟩ := h c spec sectors (fun _ => 0) hserves
    obtain ⟨c₂, -, hdoes₂⟩ := hf.does_read rest hserves hlt hpos (fun _ => 0)
    have hreplies := Does.unique default hdoes₁ hdoes₂
    have hbufs : (readRow (fun _ => none) sectors lbaAddr (nsects % 256) (fun _ => 0) 0).2 =
        (readRow (fun _ => none) sectors (reached capabilities slave lbaAddr) (nsects % 256)
          (fun _ => 0) 0).2 :=
      congrArg (fun r : Nat × Buf × Tables => r.2.1) hreplies
    have hbyte := congrFun hbufs 0
    rw [readRow_first hpos, readRow_first hpos] at hbyte
    by_contra hnot
    have hne : reached capabilities slave lbaAddr ≠ lbaAddr := mt (reached_eq_iff _ _ _).mp hnot
    simp [sectors, hne] at hbyte
  · intro hreach c spec sectors mem hs
    have hat : reached capabilities slave lbaAddr = lbaAddr := (reached_eq_iff _ _ _).mpr hreach
    have hread := hf.does_read rest hs hlt hpos mem
    have hwrite := hf.does_write rest hs hlt hpos mem
    rw [hat] at hread hwrite
    exact ⟨hread, hwrite⟩

/-- The address 5 is reached. -/
theorem transfers_iff_reachable_small :
    (∀ (c : Chan) (spec : DriveSpec) (sectors : Nat → Buf) (mem : Buf),
      Serves c false spec sectors →
      let reply := readRow spec.flaw sectors 5 1 mem 0
      let ide' := smallTables.setNIen 0 ataCtrlNien
      (∃ c', Serves c' false spec sectors ∧
        Does silent (ideAtaAccess smallTables .read 0 5 1 mem) c (reply.1, reply.2, ide') c') ∧
      (∃ c', Serves c' false spec (writeRow spec.flaw sectors 5 1 mem 0) ∧
        Does silent (ideAtaAccess smallTables .write 0 5 1 mem) c (0, mem, ide') c')) ↔
      Reachable 0x200 false 5 :=
  transfers_iff_reachable silent smallTables_found (by decide) (by decide)

end Addresses

/-! ## Runs of requests -/

/-- A call of `d_op->read` or `d_op->write`. -/
structure Request where
  rw : Rw
  buf : Buf
  offset : Nat
  nbytes : Nat

/-- The driver serves a request: the return value, the memory and the tables. -/
def serve (ide : Tables) (r : Request) (fuel : Nat) : Program Port (Nat × Buf × Tables) :=
  match r.rw with
  | .read => ideDevRead ide r.buf r.offset r.nbytes fuel
  | .write => ideDevWrite ide r.buf r.offset r.nbytes fuel

/-- The driver serves requests one after the other. -/
def serveAll (ide : Tables) : List Request → Nat → Program Port (List (Nat × Buf))
  | [], _ => pure []
  | r :: rs, fuel => do
      let (err, mem, ide) ← serve ide r fuel
      let replies ← serveAll ide rs fuel
      pure ((err, mem) :: replies)

/-- A request to the ideal row: the reply, and the sectors afterwards. -/
def answer (flaw : Nat → Option Flaw) (sectors : Nat → Buf) (r : Request) :
    (Nat × Buf) × (Nat → Buf) :=
  match r.rw with
  | .read => (readRow flaw sectors r.offset (nsectsOf r.nbytes) r.buf 0, sectors)
  | .write => ((0, r.buf), writeRow flaw sectors r.offset (nsectsOf r.nbytes) r.buf 0)

/-- Requests to the ideal row, one after the other. -/
def answerAll (flaw : Nat → Option Flaw) :
    (Nat → Buf) → List Request → List (Nat × Buf) × (Nat → Buf)
  | sectors, [] => ([], sectors)
  | sectors, r :: rs =>
      let a := answer flaw sectors r
      let as := answerAll flaw a.2 rs
      (a.1 :: as.1, as.2)

/-- A request the driver can pass on: from 1 to 255 sectors, at an address it reaches. -/
structure Request.Fits (capabilities : Nat) (slave : Bool) (r : Request) : Prop where
  pos : 0 < r.nbytes
  short : nsectsOf r.nbytes < 256
  offset : r.offset < 2 ^ 32
  reachable : Reachable capabilities slave r.offset

section Runs

variable {τ : Type} (rest : Device Port τ) {ide : Tables} {slave : Bool} {capabilities : Nat}
  {c : Chan} {spec : DriveSpec} {sectors : Nat → Buf}

theorem nsectsOf_pos {nbytes : Nat} (h : 0 < nbytes) : 0 < nsectsOf nbytes := by
  unfold nsectsOf sectSize
  split
  · omega
  · omega

/-- One request. -/
theorem Found.does_serve (hf : Found ide slave capabilities) (hs : Serves c slave spec sectors)
    {r : Request} (hr : r.Fits capabilities slave) :
    let a := answer spec.flaw sectors r
    ∃ c', Serves c' slave spec a.2 ∧
      Does rest (serve ide r) c (a.1.1, a.1.2, ide.setNIen 0 ataCtrlNien) c' := by
  intro a
  have hn : nsectsOf r.nbytes % 256 = nsectsOf r.nbytes := Nat.mod_eq_of_lt hr.short
  have hpos : nsectsOf r.nbytes % 256 ≠ 0 := by
    rw [hn]
    exact Nat.pos_iff_ne_zero.mp (nsectsOf_pos hr.pos)
  have hat : reached capabilities slave r.offset = r.offset :=
    (reached_eq_iff _ _ _).mpr hr.reachable
  cases hrw : r.rw with
  | read =>
      have hread := hf.does_read rest hs hr.offset hpos r.buf
      simp only [hn, hat] at hread
      have hserve : serve ide r = ideAtaAccess ide .read 0 r.offset (nsectsOf r.nbytes) r.buf := by
        funext fuel
        rw [serve, hrw]
        rfl
      have ha : a = (readRow spec.flaw sectors r.offset (nsectsOf r.nbytes) r.buf 0, sectors) := by
        simp only [a, answer, hrw]
      rw [hserve, ha]
      exact hread
  | write =>
      have hwrite := hf.does_write rest hs hr.offset hpos r.buf
      simp only [hn, hat] at hwrite
      have hserve : serve ide r = ideAtaAccess ide .write 0 r.offset (nsectsOf r.nbytes) r.buf := by
        funext fuel
        rw [serve, hrw]
        rfl
      have ha :
          a = ((0, r.buf), writeRow spec.flaw sectors r.offset (nsectsOf r.nbytes) r.buf 0) := by
        simp only [a, answer, hrw]
      rw [hserve, ha]
      exact hwrite

/-- A run of requests. -/
theorem Found.does_serveAll : ∀ (rs : List Request) {ide : Tables} {c : Chan}
    {sectors : Nat → Buf}, Found ide slave capabilities → Serves c slave spec sectors →
    (∀ r ∈ rs, r.Fits capabilities slave) →
    ∃ c', Serves c' slave spec (answerAll spec.flaw sectors rs).2 ∧
      Does rest (serveAll ide rs) c (answerAll spec.flaw sectors rs).1 c' := by
  intro rs
  induction rs with
  | nil => exact fun _ hs _ => ⟨_, hs, Does.pure⟩
  | cons r rs ih =>
      intro ide c sectors hf hs hfits
      obtain ⟨c₁, hs₁, hfirst⟩ := hf.does_serve rest hs (hfits r List.mem_cons_self)
      obtain ⟨c', hs', hothers⟩ := ih (hf.setNIen ataCtrlNien) hs₁
        fun r' hr' => hfits r' (List.mem_cons_of_mem r hr')
      exact ⟨c', hs', Does.bind hfirst (Does.bind hothers Does.pure)⟩

end Runs

end Ide
end NochOS
