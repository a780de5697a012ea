import NochOS.Ide.Disk

/-!
# IDE driver - start-up

`ide_init` sets the ports of the two channels up, asks each drive to identify itself and
fills the table of devices.  The base of the secondary channel is assigned twice, so that
the driver looks for its drives at ports where nothing answers.  This module follows the
detection over every choice of drives on the primary channel, and composes it with the runs
of requests.

Main results:

- Theorem `does_ideInit`: the first entry of the table is the first drive that exists.
- Theorem `disk_from_start`: from start-up on, the device is the ideal row of sectors.
-/

namespace NochOS
namespace Ide

open Library

/-! ## Detection on the primary channel -/

/-- The drives of two states of the channel have the same sectors. -/
def SameDrives (c c' : Chan) : Prop :=
  ∀ b, (c'.drives b).map (fun d => (d.spec, d.sectors)) =
    (c.drives b).map fun d => (d.spec, d.sectors)

/-- What one pass of the detection does to the tables. -/
structure Detected (ide ide' : Tables) (count count' : Nat) : Prop where
  channels : ide'.channels = ide.channels
  earlier : ∀ k < count, ide'.devices k = ide.devices k
  grows : count ≤ count'

section Detect

variable {τ : Type} (rest : Device Port τ) {ide : Tables} {c : Chan}

theorem SameDrives.trans {c₁ c₂ c₃ : Chan} (h : SameDrives c₁ c₂) (h' : SameDrives c₂ c₃) :
    SameDrives c₁ c₃ := fun b => (h' b).trans (h b)

theorem SameDrives.withSelected {d d' : Drive} (hsel : c.selected = some d)
    (hspec : d'.spec = d.spec) (hsectors : d'.sectors = d.sectors) :
    SameDrives c (c.withSelected d') := by
  intro b
  by_cases hb : b = c.regs.slave
  · subst hb
    have hd : c.drives c.regs.slave = some d := hsel
    simp [Chan.withSelected, hd, hspec, hsectors]
  · simp [Chan.withSelected, Function.update_of_ne hb]

theorem Detected.trans {ide ide₁ ide₂ : Tables} {k k₁ k₂ : Nat} (h : Detected ide ide₁ k k₁)
    (h' : Detected ide₁ ide₂ k₁ k₂) : Detected ide ide₂ k k₂ where
  channels := h'.channels.trans h.channels
  earlier i hi := (h'.earlier i (Nat.lt_of_lt_of_le hi h.grows)).trans (h.earlier i hi)
  grows := Nat.le_trans h.grows h'.grows

/-- The tables at the start of a pass. -/
def clearEntry (ide : Tables) (count : Nat) : Tables :=
  { ide with
    devices := Function.update ide.devices count { ide.devices count with reserved := 0 } }

/-- The tables after a pass that finds a drive. -/
def addEntry (ide : Tables) (ident : Buf) (count type i j : Nat) : Tables :=
  let ideBuf := memcpy ide.ideBuf 0 ident 0 512
  { ide with
    devices := Function.update ide.devices count (describe ideBuf type i j)
    ideBuf := ideBuf }

theorem detected_clearEntry (ide : Tables) (count : Nat) :
    Detected ide (clearEntry ide count) count count where
  channels := rfl
  earlier _ hk := Function.update_of_ne (Nat.ne_of_lt hk) _ _
  grows := Nat.le_refl _

theorem detected_addEntry (ide : Tables) (ident : Buf) (count type i j : Nat) :
    Detected ide (addEntry ide ident count type i j) count (count + 1) where
  channels := rfl
  earlier _ hk := Function.update_of_ne (Nat.ne_of_lt hk) _ _
  grows := Nat.le_succ _

theorem devices_addEntry (ide : Tables) (ident : Buf) (count type i j : Nat) :
    (addEntry ide ident count type i j).devices count =
      describe (memcpy ide.ideBuf 0 ident 0 512) type i j :=
  Function.update_self _ _ _

/-- A field of the identification, read out of `ide_buf`. -/
theorem u16At_ident (b ident : Buf) {off : Nat} (hoff : off + 2 ≤ 512) :
    u16At (memcpy b 0 ident 0 512) off = u16At ident off := by
  apply u16At_congr
  intro i hi
  rw [memcpy_inside (Nat.zero_le _) (by omega)]
  congr 1
  omega

/-- The register that selects a drive before it is asked to identify itself. -/
theorem select_slave (t : TaskFile) (slave : Bool) :
    (t.put 6 (ataHddevselMasterChs ||| (slavebit slave <<< 4))).slave = slave := by
  cases slave with
  | false => simp [TaskFile.slave, TaskFile.put, slavebit, ataHddevselMasterChs]
  | true => simp [TaskFile.slave, TaskFile.put, slavebit, ataHddevselMasterChs]

/-- The wait for the identification. -/
def identified (v : Nat) : Bool :=
  v &&& ataSrErr ≠ 0 ∨ (v &&& ataSrBsy = 0 ∧ v &&& ataSrDrq ≠ 0)

/-- The loop that waits for the drive to hand out its identification. -/
theorem Primary.does_identified {ch : IdeChannel} (h : Primary ch) {d : Drive}
    (hactive : d.phase.active = true) :
    Does rest ((ideRead ch ataRegStatus).repeatUntil identified) (c.withSelected d)
      (0x40 ||| ataSrDrq) (c.withSelected d.settle) := by
  intro t
  rw [h.ideRead_status]
  refine Program.Ends.wait (I := fun s => ∃ k, s.1 = c.withSelected { d with busy := k })
    (μ := fun s => s.1.busy) ?_ (c.withSelected d, t) ⟨d.busy, rfl⟩
  rintro ⟨c₁, t₁⟩ ⟨k, hk⟩
  have hc₁ : c₁ = c.withSelected { d with busy := k } := hk
  subst hc₁
  have hread : (inb 0x1F7).run (bus rest) (c.withSelected { d with busy := k }, t₁) =
      some (({ d with busy := k } : Drive).status,
        c.withSelected ({ d with busy := k } : Drive).tick, t₁) := by
    rw [inb, Program.run_input, bus_read_here (commandBlock_byte.mpr (by decide))]
    have hvalue : chan.read (.byte 0x1F7) (c.withSelected { d with busy := k }) =
        (c.withSelected { d with busy := k }).readRegister 7 := rfl
    rw [hvalue, Chan.readRegister_status]
  refine ⟨_, _, hread, ?_⟩
  cases k with
  | succ k =>
      have hstatus : ({ d with busy := k + 1 } : Drive).status = ataSrBsy :=
        Drive.status_of_busy (Nat.succ_pos k)
      have hwait : ¬ identified ({ d with busy := k + 1 } : Drive).status = true := by
        rw [hstatus]
        decide
      rw [if_neg hwait]
      refine ⟨⟨k, rfl⟩, ?_⟩
      rw [Chan.busy_withSelected, Chan.busy_withSelected]
      exact Nat.lt_succ_self k
  | zero =>
      have hstatus : ({ d with busy := 0 } : Drive).status = 0x40 ||| ataSrDrq := by
        simp only [Drive.status, hactive]
        rfl
      have hend : identified ({ d with busy := 0 } : Drive).status = true := by
        rw [hstatus]
        decide
      rw [if_pos hend, hstatus]
      exact ⟨rfl, rfl⟩

/-- The words of an identification. -/
theorem does_insl {d : Drive} (h : d.busy = 0) (data : Buf) (addr : Nat) (mem : Buf) :
    Does rest (fun _ => insl 0x1F0 mem 0 identBufSize)
      (c.withSelected (d.withPhase (.dataIn data 0 addr 0))) (memcpy mem 0 data 0 512)
      (c.withSelected (d.withPhase .idle)) := by
  intro t
  let drive : Nat → Drive := fun i =>
    if i < 128 then d.withPhase (.dataIn data (2 * i) addr 0) else d.withPhase .idle
  have hread : ∀ i < 128, (bus rest).read (.long 0x1F0) (c.withSelected (drive i), t) =
      (u32At data (4 * i), c.withSelected (drive (i + 1)), t) := by
    intro i hi
    have hdrive : drive i = d.withPhase (.dataIn data (2 * i) addr 0) := if_pos hi
    have hfirst := Drive.takeWord_dataIn h data (2 * i) addr 0
    rw [if_pos (by omega)] at hfirst
    have hsecond := Drive.takeWord_dataIn h data (2 * i + 1) addr 0
    have hvalue : u16At data (2 * (2 * i)) + 65536 * u16At data (2 * (2 * i + 1)) =
        u32At data (4 * i) := by
      rw [show 2 * (2 * i) = 4 * i by omega, show 2 * (2 * i + 1) = 4 * i + 2 by omega]
      unfold u16At u32At
      rw [show 4 * i + 2 + 1 = 4 * i + 3 by omega]
      omega
    have hnext : (if 2 * i + 1 + 1 < 256 then d.withPhase (.dataIn data (2 * i + 1 + 1) addr 0)
        else d.nextIn (addr + 1) 0) = drive (i + 1) := by
      by_cases hlast : i + 1 < 128
      · simp only [drive, if_pos hlast, Nat.mul_add]
        rw [if_pos (by omega)]
      · simp only [drive, if_neg hlast]
        rw [if_neg (by omega)]
        rfl
    rw [bus_read_here (by decide), hdrive]
    show (((c.withSelected _).readData.1 + 65536 * (c.withSelected _).readData.2.readData.1,
      (c.withSelected _).readData.2.readData.2, t) : Nat × Chan × τ) = _
    simp only [Chan.readData, Chan.selected_withSelected, hfirst, hsecond,
      Chan.withSelected_withSelected, hvalue, hnext]
  have hrun := run_insl (fun i => (c.withSelected (drive i), t)) 128 hread mem 0
  exact Program.Ends.of_run hrun ⟨rfl, rfl⟩

/-- A pass that finds no drive. -/
theorem does_detect_none (h : Primary (ide.channels 0)) (hr : c.Ready) {slave : Bool}
    (hnone : c.drives slave = none) (count : Nat) :
    ∃ c', c'.Ready ∧ SameDrives c c' ∧
      Does rest (detect ide count 0 (slavebit slave)) c (clearEntry ide count, count) c' := by
  let regs := c.regs.put 6 (ataHddevselMasterChs ||| (slavebit slave <<< 4))
  have hsel : (c.withRegs regs).selected = none := by
    rw [Chan.selected, show (c.withRegs regs).regs.slave = slave from select_slave _ _]
    exact hnone
  have hcommand := h.does_low rest (c := c.withRegs regs) (v := ataCmdIdentify)
    (show ataRegCommand < 8 by decide)
  have hlost : (c.withRegs regs).writeRegister ataRegCommand ataCmdIdentify = c.withRegs regs := by
    have hreg : ataRegCommand = 7 := rfl
    rw [Chan.writeRegister, if_pos (Chan.Ready.withRegs hr).accepts, if_pos hreg, hsel]
  rw [hlost] at hcommand
  have hread : (c.withRegs regs).readRegister 7 = (0, c.withRegs regs) := by
    rw [Chan.readRegister, hsel]
  refine ⟨c.withRegs regs, hr, fun _ => rfl, ?_⟩
  unfold detect
  refine Does.bind (h.does_put rest hr (by decide) _) (Does.bind hcommand ?_)
  have hstatus : Does rest (fun _ => inb 0x1F7) (c.withRegs regs) 0 (c.withRegs regs) := by
    have hinb : Does rest (fun _ => inb 0x1F7) (c.withRegs regs)
        ((c.withRegs regs).readRegister (0x1F7 - 0x1F0)).1
        ((c.withRegs regs).readRegister (0x1F7 - 0x1F0)).2 := Does.inb (by decide)
    rw [show 0x1F7 - 0x1F0 = 7 from rfl, hread] at hinb
    exact hinb
  simp only [h.ideRead_status]
  refine Does.bind hstatus ?_
  exact Does.pure

/-- The status of a drive with an identification to hand out is not zero. -/
theorem Drive.status_ne_zero {d : Drive} (hactive : d.phase.active = true) : d.status ≠ 0 := by
  unfold Drive.status
  split
  · decide
  · simp only [hactive]
    decide

/-- A pass that finds a drive. -/
theorem does_detect_some (h : Primary (ide.channels 0)) (hr : c.Ready) {slave : Bool} {d : Drive}
    (hsome : c.drives slave = some d) (count : Nat) :
    ∃ c', c'.Ready ∧ SameDrives c c' ∧
      Does rest (detect ide count 0 (slavebit slave)) c
        (addEntry (clearEntry ide count) d.spec.ident count ideAta 0 (slavebit slave), count + 1)
        c' := by
  let c₁ := c.withRegs (c.regs.put 6 (ataHddevselMasterChs ||| (slavebit slave <<< 4)))
  have hr₁ : c₁.Ready := hr
  have hsel : c₁.selected = some d := by
    rw [Chan.selected, show c₁.regs.slave = slave from select_slave _ _]
    exact hsome
  -- the drive has its identification ready after a while
  let d₁ : Drive := { d with error := none }.goBusy
  let asked := d₁.withPhase (.dataIn d.spec.ident 0 0 0)
  have hcommand := h.does_low rest (c := c₁) (v := ataCmdIdentify)
    (show ataRegCommand < 8 by decide)
  have htaken : c₁.writeRegister ataRegCommand ataCmdIdentify = c₁.withSelected asked :=
    hr₁.writeRegister_command hsel ataCmdIdentify
  rw [htaken] at hcommand
  have hstatus : Does rest (fun _ => inb 0x1F7) (c₁.withSelected asked) asked.status
      (c₁.withSelected asked.tick) := by
    have hinb : Does rest (fun _ => inb 0x1F7) (c₁.withSelected asked)
        ((c₁.withSelected asked).readRegister (0x1F7 - 0x1F0)).1
        ((c₁.withSelected asked).readRegister (0x1F7 - 0x1F0)).2 := Does.inb (by decide)
    rw [show 0x1F7 - 0x1F0 = 7 from rfl, Chan.readRegister_status] at hinb
    exact hinb
  have hwait := h.does_identified rest (c := c₁) (d := asked.tick) rfl
  have hwords := does_insl rest (c := c₁) (d := d₁.settle) rfl d.spec.ident 0 ide.ideBuf
  let d' := d₁.settle.withPhase .idle
  have hsame : SameDrives c₁ (c₁.withSelected d') := SameDrives.withSelected hsel rfl rfl
  have hready : (c₁.withSelected d').Ready := hr₁.withSelected ⟨rfl, rfl⟩
  refine ⟨c₁.withSelected d', hready, hsame, ?_⟩
  have hreadBuf : ∀ b : Buf, ideReadBuf (ide.channels 0) ataRegData b identBufSize =
      insl 0x1F0 b 0 identBufSize := by
    intro b
    have hlow : highOrder ataRegData = false := rfl
    have hport : portOf (ide.channels 0) ataRegData = some 0x1F0 := h.portOf_low (by decide)
    simp [ideReadBuf, hlow, hport]
  unfold detect
  refine Does.bind (h.does_put rest hr (by decide) _) (Does.bind hcommand ?_)
  rw [h.ideRead_status] at hwait
  simp only [h.ideRead_status]
  refine Does.bind hstatus ?_
  simp only [if_neg (Drive.status_ne_zero (d := asked) rfl)]
  refine Does.bind hwait ?_
  have hnoError : ¬ (0x40 ||| ataSrDrq) &&& ataSrErr ≠ 0 := by decide
  simp only [if_neg hnoError, hreadBuf]
  exact Does.bind hwords Does.pure

end Detect

/-! ## The secondary channel -/

/-- The signature of a packet device. -/
def Atapi (cl chi : Nat) : Prop := (cl = 0x14 ∧ chi = 0xEB) ∨ (cl = 0x69 ∧ chi = 0x96)

/-- Where the driver looks for the drives of the secondary channel there is none: the status
register at 0x37D reads zero, or it shows an error and the registers at 0x37A and 0x37B do not
hold the signature of a packet device. -/
def Vacant {τ : Type} (rest : Device Port τ) : Prop :=
  (∀ t, (rest.read (.byte 0x37D) t).1 = 0) ∨
    (∀ t, (rest.read (.byte 0x37D) t).1 &&& ataSrErr ≠ 0) ∧
      ∀ t, ¬ Atapi (rest.read (.byte 0x37A) t).1
        (rest.read (.byte 0x37B) (rest.read (.byte 0x37A) t).2).1

section Secondary

variable {τ : Type} (rest : Device Port τ) {ide : Tables}

/-- The ports of the secondary channel as `ide_init` sets them up. -/
structure Secondary (ch : IdeChannel) : Prop where
  base : ch.base = 0x376
  ctrl : ch.ctrl = 0

theorem Secondary.ideRead {ch : IdeChannel} (h : Secondary ch) {reg : Nat} (hreg : reg < 8) :
    ideRead ch reg = Library.inb (0x376 + reg) := by
  have hport : portOf ch reg = some (0x376 + reg) := by
    rw [portOf, if_pos hreg, h.base]
  simp [Ide.ideRead, highOrder_low hreg, hport]

/-- A write to a register does not reach the drives. -/
theorem Secondary.does_write {ch : IdeChannel} (h : Secondary ch) {reg : Nat} (hreg : reg < 8)
    (v : Nat) (c : Chan) : Does rest (fun _ => ideWrite ch reg v) c () c := by
  have hport : portOf ch reg = some (0x376 + reg) := by
    rw [portOf, if_pos hreg, h.base]
  rw [ideWrite_plain (highOrder_low hreg), writeReg, hport]
  exact Does.outb_rest (by omega)

/-- The wait for an identification ends where the status shows an error. -/
theorem does_identified_error (herror : ∀ t, (rest.read (.byte 0x37D) t).1 &&& ataSrErr ≠ 0)
    {β : Type} {f : Nat → Nat → Program Port β} {b : β} {c c' : Chan}
    (h : ∀ v, v &&& ataSrErr ≠ 0 → Does rest (fun fuel => f fuel v) c b c') :
    Does rest (fun fuel => (Library.inb 0x37D).repeatUntil identified fuel >>= f fuel) c b c' := by
  intro t
  have hread : (Library.inb 0x37D).run (bus rest) (c, t) =
      some ((rest.read (.byte 0x37D) t).1, c, (rest.read (.byte 0x37D) t).2) := by
    rw [Library.inb, Program.run_input, bus_read_rest (mt commandBlock_byte.mp (by decide))]
  have hend : identified (rest.read (.byte 0x37D) t).1 = true := by
    simp [identified, herror t]
  apply Program.Ends.bind
  -- the first pass of the loop reads an error
  refine ⟨(rest.read (.byte 0x37D) t).1, (c, (rest.read (.byte 0x37D) t).2), h _ (herror t) _, 1,
    fun fuel hfuel => ?_⟩
  obtain ⟨m, rfl⟩ : ∃ m, fuel = m + 1 := ⟨fuel - 1, by omega⟩
  rw [Program.repeatUntil, Program.run_bind_of_eq hread, if_pos hend]
  rfl

/-- A pass over the secondary channel finds nothing. -/
theorem does_detect_secondary (h : Secondary (ide.channels 1)) (hvacant : Vacant rest)
    (count j : Nat) (c : Chan) :
    Does rest (detect ide count 1 j) c (clearEntry ide count, count) c := by
  unfold detect
  refine Does.bind (h.does_write rest (by decide) _ c) ?_
  refine Does.bind (h.does_write rest (by decide) _ c) ?_
  have hstatus : ideRead (ide.channels 1) ataRegStatus = inb 0x37D := h.ideRead (by decide)
  have hmid : ideRead (ide.channels 1) ataRegLbaMid = inb 0x37A := h.ideRead (by decide)
  have hhigh : ideRead (ide.channels 1) ataRegLbaHigh = inb 0x37B := h.ideRead (by decide)
  rw [hstatus, hmid, hhigh]
  intro t
  refine Does.inb_any (by decide) t ?_
  rcases hvacant with hzero | ⟨herror, hsignature⟩
  · simp only [if_pos (hzero t)]
    exact Does.pure _
  · have hne : (rest.read (.byte 0x37D) t).1 ≠ 0 := by
      intro hzero
      apply herror t
      rw [hzero]
      rfl
    simp only [if_neg hne]
    refine does_identified_error rest herror (fun v hv => ?_) _
    simp only [if_pos hv]
    intro t
    refine Does.inb_any (by decide) t (Does.inb_any (by decide) _ ?_)
    simp only [if_neg (show ¬ (_ ∨ _) from hsignature t)]
    exact Does.pure _

end Secondary

/-! ## Start-up -/

section Startup

variable {τ : Type} (rest : Device Port τ) {c : Chan}

theorem primary_setPorts (ide : Tables) : Primary ((setPorts ide).channels 0) where
  base := rfl
  ctrl := rfl

theorem secondary_setPorts : Secondary ((setPorts .zero).channels 1) where
  base := rfl
  ctrl := rfl

/-- A pass over the primary channel, whether it finds a drive or not. -/
theorem does_detect {ide : Tables} (h : Primary (ide.channels 0)) (hr : c.Ready) (slave : Bool)
    (count : Nat) :
    ∃ ide' count' c', Detected ide ide' count count' ∧ c'.Ready ∧ SameDrives c c' ∧
      Does rest (detect ide count 0 (slavebit slave)) c (ide', count') c' := by
  cases hd : c.drives slave with
  | none =>
      obtain ⟨c', hr', hsame, hdoes⟩ := does_detect_none rest h hr hd count
      exact ⟨_, _, c', detected_clearEntry ide count, hr', hsame, hdoes⟩
  | some d =>
      obtain ⟨c', hr', hsame, hdoes⟩ := does_detect_some rest h hr hd count
      exact ⟨_, _, c', (detected_clearEntry ide count).trans (detected_addEntry _ _ _ _ _ _), hr',
        hsame, hdoes⟩

/-- The master where there is one, else the slave. -/
def Chan.firstDrive (c : Chan) : Option (Bool × Drive) :=
  match c.drives false with
  | some d => some (false, d)
  | none => (c.drives true).map fun d => (true, d)

/-- The entry of an identified drive. -/
theorem found_of_describe {ide : Tables} {b ident : Buf} {slave : Bool}
    (hdevice : ide.devices 0 = describe (memcpy b 0 ident 0 512) ideAta 0 (slavebit slave))
    (hprimary : Primary (ide.channels 0)) : Found ide slave (u16At ident 98) where
  channel := by
    rw [hdevice]
    rfl
  drive := by
    rw [hdevice]
    rfl
  capabilities := by
    rw [hdevice]
    exact u16At_ident b ident (by decide)
  primary := hprimary

theorem SameDrives.serves {c' : Chan} {slave : Bool} {d : Drive} (h : SameDrives c c')
    (hr : c'.Ready) (hd : c.drives slave = some d) : Serves c' slave d.spec d.sectors where
  ready := hr
  drive := by
    have hmap := h slave
    rw [hd] at hmap
    obtain ⟨d', hd', heq⟩ := Option.map_eq_some_iff.mp hmap
    exact ⟨d', hd', congrArg Prod.fst heq, congrArg Prod.snd heq⟩

/-- The passes after the first entry is there. -/
theorem does_rest_of_detection {ide : Tables} (hprimary : Primary (ide.channels 0))
    (hsecondary : Secondary (ide.channels 1)) (hvacant : Vacant rest) {count : Nat}
    (hcount : 0 < count) :
    ∃ ide', ide'.devices 0 = ide.devices 0 ∧ Primary (ide'.channels 0) ∧
      Does rest (fun fuel => do
        let (ide, count) ← detect ide count 1 0 fuel
        let (ide, _) ← detect ide count 1 1 fuel
        pure ide) c ide' c := by
  let ide₁ := clearEntry ide count
  have hsecondary₁ : Secondary (ide₁.channels 1) := hsecondary
  have hfirst := does_detect_secondary rest hsecondary hvacant count 0 c
  have hsecond := does_detect_secondary rest hsecondary₁ hvacant count 1 c
  have hdetected := (detected_clearEntry ide count).trans (detected_clearEntry ide₁ count)
  exact ⟨clearEntry ide₁ count, hdetected.earlier 0 hcount, hprimary,
    Does.bind hfirst (Does.bind hsecond Does.pure)⟩

/-- The first entry of the table describes the first drive that exists, which serves
requests from then on. -/
theorem does_ideInit (hr : c.Ready) (hvacant : Vacant rest) {slave : Bool} {d : Drive}
    (hfirst : c.firstDrive = some (slave, d)) :
    ∃ ide' c', Found ide' slave (u16At d.spec.ident 98) ∧ Serves c' slave d.spec d.sectors ∧
      Does rest (ideInit .zero) c ide' c' := by
  let ide := setPorts .zero
  have hprimary : Primary (ide.channels 0) := primary_setPorts _
  have hsecondary : Secondary (ide.channels 1) := secondary_setPorts
  have hcontrol :
      Does rest (fun _ => ideWrite (ide.channels 1) ataRegControl ataCtrlNien) c () c := by
    have hport : portOf (ide.channels 1) ataRegControl = some 2 := rfl
    rw [ideWrite_plain rfl, writeReg, hport]
    exact Does.outb_rest (by decide)
  cases hmaster : c.drives false with
  | some dm =>
      -- the master takes the first entry, whatever the slave is
      have heq : (false, dm) = (slave, d) := by
        simpa [Chan.firstDrive, hmaster] using hfirst
      cases heq
      obtain ⟨c₁, hr₁, hsame₁, hpass₁⟩ := does_detect_some rest hprimary hr hmaster 0
      let ide₁ := addEntry (clearEntry ide 0) d.spec.ident 0 ideAta 0 (slavebit false)
      have hprimary₁ : Primary (ide₁.channels 0) := hprimary
      obtain ⟨ide₂, count₂, c₂, hdetected, hr₂, hsame₂, hpass₂⟩ :=
        does_detect rest hprimary₁ hr₁ true 1
      have hprimary₂ : Primary (ide₂.channels 0) := by
        rw [hdetected.channels]
        exact hprimary
      have hsecondary₂ : Secondary (ide₂.channels 1) := by
        rw [hdetected.channels]
        exact hsecondary
      have hcount₂ : 0 < count₂ := Nat.lt_of_lt_of_le Nat.one_pos hdetected.grows
      obtain ⟨ide', hdevice, hprimary', hpasses⟩ :=
        does_rest_of_detection rest (c := c₂) hprimary₂ hsecondary₂ hvacant hcount₂
      have hentry := devices_addEntry (clearEntry ide 0) d.spec.ident 0 ideAta 0 (slavebit false)
      rw [← hdetected.earlier 0 Nat.one_pos, ← hdevice] at hentry
      refine ⟨ide', c₂, found_of_describe hentry hprimary',
        (hsame₁.trans hsame₂).serves hr₂ hmaster, ?_⟩
      exact Does.bind (hprimary.does_control rest _)
        (Does.bind hcontrol (Does.bind hpass₁ (Does.bind hpass₂ hpasses)))
  | none =>
      -- the slave takes it
      obtain ⟨ds, hslave, heq⟩ : ∃ ds, c.drives true = some ds ∧ (true, ds) = (slave, d) := by
        simpa [Chan.firstDrive, hmaster] using hfirst
      cases heq
      obtain ⟨c₁, hr₁, hsame₁, hpass₁⟩ := does_detect_none rest hprimary hr hmaster 0
      obtain ⟨d₁, hd₁, heq⟩ : ∃ d₁, c₁.drives true = some d₁ ∧
          (d₁.spec, d₁.sectors) = (d.spec, d.sectors) := by
        have hmap := hsame₁ true
        rw [hslave] at hmap
        exact Option.map_eq_some_iff.mp hmap
      let ide₁ := clearEntry ide 0
      have hprimary₁ : Primary (ide₁.channels 0) := hprimary
      obtain ⟨c₂, hr₂, hsame₂, hpass₂⟩ := does_detect_some rest hprimary₁ hr₁ hd₁ 0
      let ide₂ := addEntry (clearEntry ide₁ 0) d₁.spec.ident 0 ideAta 0 (slavebit true)
      have hprimary₂ : Primary (ide₂.channels 0) := hprimary
      have hsecondary₂ : Secondary (ide₂.channels 1) := hsecondary
      obtain ⟨ide', hdevice, hprimary', hpasses⟩ :=
        does_rest_of_detection rest (c := c₂) hprimary₂ hsecondary₂ hvacant Nat.one_pos
      have hentry := devices_addEntry (clearEntry (clearEntry ide 0) 0) d₁.spec.ident 0 ideAta 0
        (slavebit true)
      rw [← hdevice] at hentry
      have hfound := found_of_describe hentry hprimary'
      rw [show d₁.spec = d.spec from congrArg Prod.fst heq] at hfound
      refine ⟨ide', c₂, hfound, (hsame₁.trans hsame₂).serves hr₂ hslave, ?_⟩
      exact Does.bind (hprimary.does_control rest _)
        (Does.bind hcontrol (Does.bind hpass₁ (Does.bind hpass₂ hpasses)))

/-- The device from start-up on: detection, and requests one after the other. -/
def startAndServe (rs : List Request) (fuel : Nat) : Program Port (List (Nat × Buf)) := do
  let ide ← ideInit .zero fuel
  serveAll ide rs fuel

/-- From start-up on the device is the ideal row of the sectors of the first drive, for all
delays of the drives, failures of sectors and answers of the other ports, as long as the driver
finds no drive of the secondary channel and a request is for 1 to 255 sectors at an address
that can be reached. -/
theorem disk_from_start (hr : c.Ready) (hvacant : Vacant rest) {slave : Bool} {d : Drive}
    (hfirst : c.firstDrive = some (slave, d)) (rs : List Request)
    (hfits : ∀ r ∈ rs, r.Fits (u16At d.spec.ident 98) slave) :
    ∃ c', Serves c' slave d.spec (answerAll d.spec.flaw d.sectors rs).2 ∧
      Does rest (startAndServe rs) c (answerAll d.spec.flaw d.sectors rs).1 c' := by
  obtain ⟨ide, c₁, hfound, hserves, hinit⟩ := does_ideInit rest hr hvacant hfirst
  obtain ⟨c', hserves', hall⟩ := Found.does_serveAll rest rs hfound hserves hfits
  exact ⟨c', hserves', Does.bind hinit hall⟩

theorem silent_vacant : Vacant silent :=
  Or.inr ⟨fun _ => show 0xFF &&& ataSrErr ≠ 0 by decide, fun _ =>
    show ¬ ((0xFF = 0x14 ∧ 0xFF = 0xEB) ∨ (0xFF = 0x69 ∧ 0xFF = 0x96)) by decide⟩

/-- A sector is written, and read back together with one that does not exist. -/
theorem disk_from_start_small :
    let rs : List Request := [⟨.write, fun _ => 7, 999, 512⟩, ⟨.read, fun _ => 0, 999, 1024⟩]
    ∃ c', Serves c' false smallDrive.spec
        (answerAll smallDrive.spec.flaw smallDrive.sectors rs).2 ∧
      Does silent (startAndServe rs) masterOnly
        (answerAll smallDrive.spec.flaw smallDrive.sectors rs).1 c' :=
  disk_from_start silent masterOnly_ready silent_vacant rfl _ fun r hr => by
    have hlba : Reachable (u16At smallDrive.spec.ident 98) false 999 :=
      Or.inr (Or.inl ⟨by decide, by decide⟩)
    rcases List.mem_cons.mp hr with rfl | hr
    · exact ⟨by decide, by decide, by decide, hlba⟩
    · rcases List.mem_singleton.mp hr with rfl
      exact ⟨by decide, by decide, by decide, hlba⟩

end Startup

end Ide
end NochOS
