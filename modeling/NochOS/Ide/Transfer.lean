import NochOS.Ide.Drive

/-!
# IDE driver - transfers

This module runs the driver on the drives of the primary channel and compares it with an
ideal row of sectors.
-/

namespace NochOS
namespace Ide

open Library

/-! ## Programs on the channel -/

section Does

variable {τ α β : Type} {rest : Device Port τ}

/-- Whatever the other ports do, the program ends with a value and a state of the channel. -/
def Does (rest : Device Port τ) (prog : Nat → Program Port α) (c : Chan) (a : α) (c' : Chan) :
    Prop :=
  ∀ t, Program.Ends (bus rest) prog (c, t) fun x s => x = a ∧ s.1 = c'

variable {c c' c'' : Chan} {a : α} {b : β}

theorem Does.pure : Does rest (fun _ => Pure.pure a) c a c :=
  fun _ => Program.Ends.pure ⟨rfl, rfl⟩

/-- One program after the other. -/
theorem Does.bind {m : Nat → Program Port α} {f : Nat → α → Program Port β}
    (hm : Does rest m c a c') (hf : Does rest (fun fuel => f fuel a) c' b c'') :
    Does rest (fun fuel => m fuel >>= f fuel) c b c'' := by
  intro t
  apply Program.Ends.bind
  apply (hm t).mono
  rintro x ⟨c₁, t₁⟩ ⟨rfl, rfl⟩
  exact hf t₁

theorem commandBlock_byte {n : Nat} : CommandBlock (.byte n) ↔ 0x1F0 ≤ n ∧ n < 0x1F8 := Iff.rfl

theorem bus_read_here {p : Port} (h : CommandBlock p) (c : Chan) (t : τ) :
    (bus rest).read p (c, t) = ((chan.read p c).1, (chan.read p c).2, t) :=
  Device.beside_read_here h _

theorem bus_read_rest {p : Port} (h : ¬ CommandBlock p) (c : Chan) (t : τ) :
    (bus rest).read p (c, t) = ((rest.read p t).1, c, (rest.read p t).2) :=
  Device.beside_read_rest h _

theorem bus_write_here {p : Port} (h : CommandBlock p) (v : Nat) (c : Chan) (t : τ) :
    (bus rest).write p v (c, t) = (chan.write p v c, t) :=
  Device.beside_write_here h _ _

theorem bus_write_rest {p : Port} (h : ¬ CommandBlock p) (v : Nat) (c : Chan) (t : τ) :
    (bus rest).write p v (c, t) = (c, rest.write p v t) :=
  Device.beside_write_rest h _ _

/-- A write to a register of the channel. -/
theorem Does.outb {v n : Nat} (hn : 0x1F0 ≤ n ∧ n < 0x1F8) :
    Does rest (fun _ => Library.outb v n) c () (c.writeRegister (n - 0x1F0) v) := by
  intro t
  have hrun : (Library.outb v n).run (bus rest) (c, t) =
      some ((), c.writeRegister (n - 0x1F0) v, t) := by
    rw [Library.outb, Program.run_output, bus_write_here (commandBlock_byte.mpr hn)]
    rfl
  exact Program.Ends.of_run hrun ⟨rfl, rfl⟩

/-- A write to another port. -/
theorem Does.outb_rest {v n : Nat} (hn : ¬ (0x1F0 ≤ n ∧ n < 0x1F8)) :
    Does rest (fun _ => Library.outb v n) c () c := by
  intro t
  have hrun : (Library.outb v n).run (bus rest) (c, t) =
      some ((), c, rest.write (.byte n) v t) := by
    rw [Library.outb, Program.run_output, bus_write_rest (mt commandBlock_byte.mp hn)]
  exact Program.Ends.of_run hrun ⟨rfl, rfl⟩

/-- A read of a register of the channel. -/
theorem Does.inb {n : Nat} (hn : 0x1F0 ≤ n ∧ n < 0x1F8) :
    Does rest (fun _ => Library.inb n) c (c.readRegister (n - 0x1F0)).1
      (c.readRegister (n - 0x1F0)).2 := by
  intro t
  have hrun : (Library.inb n).run (bus rest) (c, t) =
      some ((c.readRegister (n - 0x1F0)).1, (c.readRegister (n - 0x1F0)).2, t) := by
    rw [Library.inb, Program.run_input, bus_read_here (commandBlock_byte.mpr hn)]
    rfl
  exact Program.Ends.of_run hrun ⟨rfl, rfl⟩

/-- A read of another port, and what follows it. -/
theorem Does.inb_any {f : Nat → Nat → Program Port β} {n : Nat}
    (hn : ¬ (0x1F0 ≤ n ∧ n < 0x1F8)) (t : τ)
    (h : Program.Ends (bus rest) (fun fuel => f fuel (rest.read (.byte n) t).1)
      (c, (rest.read (.byte n) t).2) fun x s => x = b ∧ s.1 = c') :
    Program.Ends (bus rest) (fun fuel => Library.inb n >>= f fuel) (c, t)
      fun x s => x = b ∧ s.1 = c' := by
  have hrun : (Library.inb n).run (bus rest) (c, t) =
      some ((rest.read (.byte n) t).1, c, (rest.read (.byte n) t).2) := by
    rw [Library.inb, Program.run_input, bus_read_rest (mt commandBlock_byte.mp hn)]
  exact Program.Ends.after_run hrun h

/-- A read of another port whose value does not matter. -/
theorem Does.inb_rest {f : Nat → Program Port β} {n : Nat} (hn : ¬ (0x1F0 ≤ n ∧ n < 0x1F8))
    (h : Does rest f c b c') :
    Does rest (fun fuel => Library.inb n >>= fun _ => f fuel) c b c' :=
  fun t => Does.inb_any hn t (h _)

end Does

/-! ## The registers of the primary channel -/

/-- The ports of the primary channel. -/
structure Primary (ch : IdeChannel) : Prop where
  base : ch.base = 0x1F0
  ctrl : ch.ctrl = 0x3F6

section Registers

variable {τ : Type} (rest : Device Port τ) {ch : IdeChannel} {c : Chan}

theorem Primary.portOf_low (h : Primary ch) {reg : Nat} (hreg : reg < 8) :
    portOf ch reg = some (0x1F0 + reg) := by
  rw [portOf, if_pos hreg, h.base]

theorem Primary.portOf_high (h : Primary ch) {reg : Nat} (hlo : 8 ≤ reg) (hhi : reg < 12) :
    portOf ch reg = some (0x1F0 + reg - 6) := by
  rw [portOf, if_neg (by omega), if_pos hhi, h.base]

theorem Primary.portOf_control (h : Primary ch) : portOf ch ataRegControl = some 0x3F8 := by
  rw [portOf, if_neg (by decide), if_neg (by decide), if_pos (by decide), h.ctrl]
  rfl

theorem highOrder_low {reg : Nat} (hreg : reg < 8) : highOrder reg = false := by
  simp [highOrder]
  omega

theorem ideWrite_plain {reg : Nat} (hreg : highOrder reg = false) (v : Nat) :
    ideWrite ch reg v = writeReg ch reg v := by
  simp [ideWrite, hreg]

theorem ideWrite_highOrder {reg : Nat} (hreg : highOrder reg = true) (v : Nat) :
    ideWrite ch reg v = (do
      writeReg ch ataRegControl (ataCtrlHob ||| ch.nIen)
      writeReg ch reg v
      writeReg ch ataRegControl ch.nIen) := by
  simp [ideWrite, hreg]

/-- The status is read at its port. -/
theorem Primary.ideRead_status (h : Primary ch) : ideRead ch ataRegStatus = inb 0x1F7 := by
  rw [ideRead, highOrder_low (by decide), h.portOf_low (by decide)]
  rfl

/-- What the driver takes for the alternate status is another port. -/
theorem Primary.ideRead_altstatus (h : Primary ch) : ideRead ch ataRegAltstatus = inb 0x3F8 := by
  rw [ideRead, show ataRegAltstatus = ataRegControl from rfl, h.portOf_control]
  rfl

/-- What the driver takes for the control register is another port, too. -/
theorem Primary.writeReg_control (h : Primary ch) (v : Nat) :
    writeReg ch ataRegControl v = outb v 0x3F8 := by
  rw [writeReg, h.portOf_control]

theorem Primary.ideWrite_control (h : Primary ch) (v : Nat) :
    ideWrite ch ataRegControl v = outb v 0x3F8 := by
  rw [ideWrite_plain rfl, h.writeReg_control]

/-- A write to one of the registers below 8. -/
theorem Primary.does_low (h : Primary ch) {reg : Nat} (hreg : reg < 8) (v : Nat) :
    Does rest (fun _ => ideWrite ch reg v) c () (c.writeRegister reg v) := by
  have hprog : ideWrite ch reg v = outb v (0x1F0 + reg) := by
    rw [ideWrite_plain (highOrder_low hreg), writeReg, h.portOf_low hreg]
  have hdoes : Does rest (fun _ => outb v (0x1F0 + reg)) c ()
      (c.writeRegister (0x1F0 + reg - 0x1F0) v) := Does.outb (by omega)
  rw [Nat.add_sub_cancel_left] at hdoes
  rw [hprog]
  exact hdoes

/-- A write to a register for a high order byte reaches the register six below. -/
theorem Primary.does_high (h : Primary ch) {reg : Nat} (hlo : 8 ≤ reg) (hhi : reg < 12) (v : Nat) :
    Does rest (fun _ => ideWrite ch reg v) c () (c.writeRegister (reg - 6) v) := by
  have hprog : ideWrite ch reg v = (do
      outb (ataCtrlHob ||| ch.nIen) 0x3F8
      outb v (0x1F0 + reg - 6)
      outb ch.nIen 0x3F8) := by
    have hhigh : highOrder reg = true := by
      simp [highOrder]
      omega
    rw [ideWrite_highOrder hhigh, h.writeReg_control, h.writeReg_control, writeReg,
      h.portOf_high hlo hhi]
  rw [hprog]
  have hdoes : Does rest (fun _ => outb v (0x1F0 + reg - 6)) c ()
      (c.writeRegister (0x1F0 + reg - 6 - 0x1F0) v) := Does.outb (by omega)
  rw [show 0x1F0 + reg - 6 - 0x1F0 = reg - 6 by omega] at hdoes
  exact Does.bind (Does.outb_rest (by decide)) (Does.bind hdoes (Does.outb_rest (by decide)))

/-- A write to the control register changes nothing on the channel. -/
theorem Primary.does_control (h : Primary ch) (v : Nat) :
    Does rest (fun _ => ideWrite ch ataRegControl v) c () c := by
  rw [h.ideWrite_control]
  exact Does.outb_rest (by decide)

/-- The loops that wait for the drive. -/
theorem Primary.does_wait (h : Primary ch) (c : Chan) :
    Does rest (waitNotBusy ch) c (c.settle.readRegister 7).1 c.settle := by
  intro t
  unfold waitNotBusy
  rw [h.ideRead_status]
  refine Program.Ends.wait (I := fun s => s.1.settle = c.settle) (μ := fun s => s.1.busy) ?_
    (c, t) rfl
  rintro ⟨c₁, t₁⟩ hc₁
  have hread : (inb 0x1F7).run (bus rest) (c₁, t₁) =
      some ((c₁.readRegister 7).1, (c₁.readRegister 7).2, t₁) := by
    rw [inb, Program.run_input, bus_read_here (commandBlock_byte.mpr (by decide))]
    rfl
  refine ⟨_, _, hread, ?_⟩
  cases hsel : c₁.selected with
  | none =>
      -- nothing answers, which reads as not busy
      have hsettle : c₁.settle = c₁ := by
        rw [Chan.settle, hsel]
      have hvalue : c₁.readRegister 7 = (0, c₁) := by
        rw [Chan.readRegister, hsel]
      have hwanted : decide ((c₁.readRegister 7).1 &&& ataSrBsy = 0) = true := by
        rw [hvalue, Nat.zero_and]
        exact decide_eq_true rfl
      rw [if_pos hwanted, ← hc₁, hsettle, hvalue]
      exact ⟨rfl, rfl⟩
  | some d =>
      obtain ⟨c₀, rfl⟩ := Chan.exists_withSelected hsel
      rw [Chan.settle_withSelected] at hc₁
      rw [Chan.readRegister_status]
      by_cases hbusy : 0 < d.busy
      · have hwait : ¬ decide (d.status &&& ataSrBsy = 0) = true := by
          rw [Drive.status_of_busy hbusy]
          decide
        rw [if_neg hwait]
        refine ⟨?_, ?_⟩
        · rw [← hc₁, Chan.settle_withSelected, Drive.settle_tick]
        · rw [Chan.busy_withSelected, Chan.busy_withSelected, Drive.tick]
          exact Nat.sub_lt hbusy Nat.one_pos
      · have hd : d.settle = d := Drive.settle_of_not_busy (by omega)
        rw [← hd, if_pos (decide_eq_true Drive.status_settle), ← hc₁, Chan.readRegister_status]
        exact ⟨rfl, rfl⟩

/-- The delay of `ide_poll` does not reach the channel. -/
theorem Primary.does_delay {β : Type} (h : Primary ch) {f : Nat → Program Port β} {b : β}
    {c c' : Chan} (hf : Does rest f c b c') :
    ∀ n, Does rest (fun fuel => delay400 ch n >>= fun _ => f fuel) c b c' := by
  intro n
  induction n with
  | zero => exact hf
  | succ n ih =>
      simp only [delay400, h.ideRead_altstatus, bind_assoc]
      exact Does.inb_rest (by decide) ih

/-- Polling without a look at the outcome. -/
theorem Primary.does_poll (h : Primary ch) (c : Chan) :
    Does rest (idePoll ch false) c 0 c.settle := by
  unfold idePoll
  apply h.does_delay
  exact Does.bind (h.does_wait rest c) Does.pure

/-- What the checks of `ide_poll` make of a status. -/
def checkOf (state : Nat) : Nat :=
  if state &&& ataSrErr ≠ 0 then 1
  else if state &&& ataSrDf ≠ 0 then 2
  else if state &&& ataSrDrq = 0 then 3
  else 0

theorem pure_checkOf (state : Nat) :
    (if state &&& ataSrErr ≠ 0 then pure 1
      else if state &&& ataSrDf ≠ 0 then pure 2
      else if state &&& ataSrDrq = 0 then pure 3
      else pure 0 : Program Port Nat) = pure (checkOf state) := by
  unfold checkOf
  split
  · rfl
  · split
    · rfl
    · split
      · rfl
      · rfl

/-- The checks read the outcome off the status of a drive that is not busy. -/
theorem checkOf_status (d : Drive) : checkOf d.settle.status = d.pollCode := by
  have hidle : ¬ 0 < d.settle.busy := Nat.lt_irrefl 0
  have hphase : d.settle.phase = d.phase := rfl
  have herror : d.settle.error = d.error := rfl
  rw [Drive.status, if_neg hidle, hphase, herror, Drive.pollCode]
  cases d.phase.active with
  | true =>
      show checkOf (0x40 ||| ataSrDrq) = 0
      decide
  | false =>
      cases d.error with
      | none =>
          show checkOf 0x40 = 3
          decide
      | some f =>
          cases f with
          | error =>
              show checkOf (0x40 ||| ataSrErr) = 1
              decide
          | fault =>
              show checkOf (0x40 ||| ataSrDf) = 2
              decide

/-- Polling with a look at the outcome. -/
theorem Primary.does_poll_check (h : Primary ch) (c : Chan) :
    Does rest (idePoll ch true) c c.pollCode c.settle := by
  unfold idePoll
  apply h.does_delay
  refine Does.bind (h.does_wait rest c) ?_
  simp only [h.ideRead_status, if_true, pure_checkOf]
  refine Does.bind (Does.inb (by decide)) ?_
  cases hsel : c.selected with
  | none =>
      have hsettle : c.settle = c := by
        rw [Chan.settle, hsel]
      have hvalue : c.readRegister 7 = (0, c) := by
        rw [Chan.readRegister, hsel]
      have hcode : c.pollCode = 3 := by
        rw [Chan.pollCode, hsel]
      have hcheck : checkOf 0 = 3 := by decide
      rw [hsettle, hvalue, hcode, hcheck]
      exact Does.pure
  | some d =>
      obtain ⟨c₀, rfl⟩ := Chan.exists_withSelected hsel
      have hcode : (c₀.withSelected d).pollCode = checkOf d.settle.status := by
        rw [checkOf_status, Chan.pollCode, hsel]
      rw [Chan.settle_withSelected, Chan.readRegister_status, Drive.tick_settle, hcode]
      exact Does.pure

end Registers

/-! ## The ideal row of sectors -/

/-- The code `ide_poll` has for the failure of a sector. -/
def Flaw.code : Flaw → Nat
  | error => 1
  | fault => 2

/-- One sector of a buffer. -/
def sectorOf (mem : Buf) (off : Nat) : Buf := memcpy (fun _ => 0) 0 mem off sectSize

/-- A read of sectors from an address on: up to the first one that fails, whose code it
returns. -/
def readRow (flaw : Nat → Option Flaw) (sectors : Nat → Buf) :
    Nat → Nat → Buf → Nat → Nat × Buf
  | _, 0, mem, _ => (0, mem)
  | addr, n + 1, mem, off =>
      match flaw addr with
      | some f => (f.code, mem)
      | none =>
          readRow flaw sectors (addr + 1) n (memcpy mem off (sectors addr) 0 sectSize)
            (off + sectSize)

/-- A write of sectors from an address on: up to the first one that fails. -/
def writeRow (flaw : Nat → Option Flaw) : (Nat → Buf) → Nat → Nat → Buf → Nat → Nat → Buf
  | sectors, _, 0, _, _ => sectors
  | sectors, addr, n + 1, mem, off =>
      match flaw addr with
      | some _ => sectors
      | none =>
          writeRow flaw (Function.update sectors addr (sectorOf mem off)) (addr + 1) n mem
            (off + sectSize)

/-! ## The words of a sector -/

section Words

variable {τ : Type} (rest : Device Port τ) {c : Chan} {d : Drive}

theorem Drive.nextIn_withPhase (p : Phase) (addr left : Nat) :
    (d.withPhase p).nextIn addr left = d.nextIn addr left := by
  cases left with
  | zero => rfl
  | succ left => rfl

theorem Drive.commit_withPhase (p : Phase) (data : Buf) (addr left : Nat) :
    (d.withPhase p).commit data addr left = d.commit data addr left := by
  cases left with
  | zero => rfl
  | succ left => rfl

theorem Drive.takeWord_dataIn (h : d.busy = 0) (data : Buf) (pos addr left : Nat) :
    (d.withPhase (.dataIn data pos addr left)).takeWord =
      (u16At data (2 * pos),
        if pos + 1 < 256 then d.withPhase (.dataIn data (pos + 1) addr left)
        else d.nextIn (addr + 1) left) := by
  rw [← Drive.nextIn_withPhase (.dataIn data pos addr left)]
  simp only [takeWord, withPhase, h]

theorem Drive.putWord_dataOut (h : d.busy = 0) (data : Buf) (pos addr left w : Nat) :
    (d.withPhase (.dataOut data pos addr left)).putWord w =
      if pos + 1 < 256 then d.withPhase (.dataOut (setU16 data (2 * pos) w) (pos + 1) addr left)
      else d.commit (setU16 data (2 * pos) w) addr left := by
  rw [← Drive.commit_withPhase (.dataOut data pos addr left)]
  simp only [putWord, withPhase, h]

theorem bus_read_word (c : Chan) (t : τ) :
    (bus rest).read (.word 0x1F0) (c, t) = (c.readData.1, c.readData.2, t) :=
  bus_read_here (by decide) c t

theorem bus_write_word (c : Chan) (t : τ) (w : Nat) :
    (bus rest).write (.word 0x1F0) w (c, t) = (c.writeData w, t) :=
  bus_write_here (by decide) w c t

/-- A sector is handed out. -/
theorem does_insw (h : d.busy = 0) (data : Buf) (addr left : Nat) (mem : Buf) (off : Nat) :
    Does rest (fun _ => insw 0x1F0 mem off 256)
      (c.withSelected (d.withPhase (.dataIn data 0 addr left))) (memcpy mem off data 0 sectSize)
      (c.withSelected (d.nextIn (addr + 1) left)) := by
  intro t
  let drive : Nat → Drive := fun i =>
    if i < 256 then d.withPhase (.dataIn data i addr left) else d.nextIn (addr + 1) left
  have hread : ∀ i < 256, (bus rest).read (.word 0x1F0) (c.withSelected (drive i), t) =
      (u16At data (2 * i), c.withSelected (drive (i + 1)), t) := by
    intro i hi
    have hdrive : drive i = d.withPhase (.dataIn data i addr left) := if_pos hi
    rw [bus_read_word, hdrive, Chan.readData, Chan.selected_withSelected]
    simp only [Drive.takeWord_dataIn h, Chan.withSelected_withSelected]
    rfl
  have hrun := run_insw (fun i => (c.withSelected (drive i), t)) 256 hread mem off
  exact Program.Ends.of_run hrun ⟨rfl, rfl⟩

/-- A sector is taken in. -/
theorem does_outsw (h : d.busy = 0) (addr left : Nat) (mem : Buf) (off : Nat) :
    Does rest (fun _ => outsw 0x1F0 mem off 256)
      (c.withSelected (d.withPhase (.dataOut (fun _ => 0) 0 addr left))) ()
      (c.withSelected (d.commit (sectorOf mem off) addr left)) := by
  intro t
  let part : Nat → Buf := fun i => memcpy (fun _ => 0) 0 mem off (2 * i)
  have hpart : ∀ i, setU16 (part i) (2 * i) (u16At mem (off + 2 * i)) = part (i + 1) := by
    intro i
    have hcopy := memcpy_memcpy (fun _ => 0) mem 0 off (2 * i) 2
    rw [Nat.zero_add] at hcopy
    rw [setU16_u16At, hcopy]
    rfl
  let drive : Nat → Drive := fun i =>
    if i < 256 then d.withPhase (.dataOut (part i) i addr left)
    else d.commit (sectorOf mem off) addr left
  have hwrite : ∀ i < 256, (bus rest).write (.word 0x1F0) (u16At mem (off + 2 * i))
      (c.withSelected (drive i), t) = (c.withSelected (drive (i + 1)), t) := by
    intro i hi
    have hdrive : drive i = d.withPhase (.dataOut (part i) i addr left) := if_pos hi
    rw [bus_write_word, hdrive, Chan.writeData, Chan.selected_withSelected]
    simp only [Drive.putWord_dataOut h, hpart, Chan.withSelected_withSelected]
    by_cases hlast : i + 1 < 256
    · simp only [drive, if_pos hlast]
    · obtain rfl : i = 255 := by omega
      rfl
  have hstart : drive 0 = d.withPhase (.dataOut (fun _ => 0) 0 addr left) := by
    simp only [drive, part, Nat.mul_zero, memcpy_zero]
    rfl
  have hrun := run_outsw (fun i => (c.withSelected (drive i), t)) 256 hwrite
  rw [hstart] at hrun
  exact Program.Ends.of_run hrun ⟨rfl, rfl⟩

/-- A drive that is in no transfer does not take in anything. -/
theorem does_outsw_idle (h : d.phase.active = false) (mem : Buf) (off n : Nat) :
    Does rest (fun _ => outsw 0x1F0 mem off n) (c.withSelected d) () (c.withSelected d) := by
  intro t
  have hput : ∀ w, d.putWord w = d := by
    intro w
    unfold Drive.putWord
    split
    next hp =>
      rw [hp] at h
      cases h
    · rfl
  have hwrite : ∀ i < n, (bus rest).write (.word 0x1F0) (u16At mem (off + 2 * i))
      (c.withSelected d, t) = (c.withSelected d, t) := by
    intro i _
    rw [bus_write_word, Chan.writeData, Chan.selected_withSelected]
    simp only [hput, Chan.withSelected_withSelected]
  have hrun := run_outsw (fun _ => (c.withSelected d, t)) n hwrite
  exact Program.Ends.of_run hrun ⟨rfl, rfl⟩

end Words

/-! ## The loops over the sectors -/

section Loops

variable {τ : Type} (rest : Device Port τ) {ch : IdeChannel} {c : Chan}

/-- A flaw is no success. -/
theorem Flaw.code_ne_zero (f : Flaw) : f.code ≠ 0 := by
  cases f with
  | error => decide
  | fault => decide

/-- Polling reports the flaw that a drive failed with. -/
theorem Drive.pollCode_fail (d : Drive) (f : Flaw) : (d.fail f).pollCode = f.code := by
  cases f with
  | error => rfl
  | fault => rfl

/-- The loop that reads is a read of the ideal row, and leaves the drive ready. -/
theorem Primary.does_readSectors (h : Primary ch) :
    ∀ (n : Nat) (d : Drive) (addr : Nat) (mem : Buf) (off : Nat), d.busy = 0 →
      ∃ d', d'.Ready ∧ d'.spec = d.spec ∧ d'.sectors = d.sectors ∧
        Does rest (readSectors ch n mem off) (c.withSelected (d.nextIn addr n))
          (readRow d.spec.flaw d.sectors addr n mem off) (c.withSelected d') := by
  intro n
  induction n with
  | zero =>
      intro d addr mem off hbusy
      exact ⟨d.nextIn addr 0, ⟨hbusy, rfl⟩, rfl, rfl, Does.pure⟩
  | succ n ih =>
      intro d addr mem off hbusy
      have hpoll := h.does_poll_check rest (c.withSelected (d.nextIn addr (n + 1)))
      rw [Chan.settle_withSelected] at hpoll
      cases hflaw : d.spec.flaw addr with
      | some f =>
          -- the drive reports the flaw, and the loop returns it
          have hnext : d.nextIn addr (n + 1) = d.fail f := by
            simp only [Drive.nextIn, hflaw]
          have hcode : (c.withSelected (d.fail f)).pollCode = f.code := by
            rw [Chan.pollCode, Chan.selected_withSelected]
            exact d.pollCode_fail f
          rw [hnext, hcode] at hpoll
          refine ⟨(d.fail f).settle, ⟨rfl, rfl⟩, rfl, rfl, ?_⟩
          simp only [hnext, readRow, hflaw]
          refine Does.bind hpoll ?_
          simp only [if_pos f.code_ne_zero]
          exact Does.pure
      | none =>
          have hnext : d.nextIn addr (n + 1) =
              d.goBusy.withPhase (.dataIn (d.sectors addr) 0 addr n) := by
            simp only [Drive.nextIn, hflaw]
          have hcode : (c.withSelected
              (d.goBusy.withPhase (.dataIn (d.sectors addr) 0 addr n))).pollCode = 0 := by
            rw [Chan.pollCode, Chan.selected_withSelected]
            rfl
          rw [hnext, hcode] at hpoll
          have hwords := does_insw rest (c := c) (d := d.goBusy.settle) rfl
            (d.sectors addr) addr n mem off
          obtain ⟨d', hready, hspec, hsectors, hdoes⟩ :=
            ih d.goBusy.settle (addr + 1) (memcpy mem off (d.sectors addr) 0 sectSize)
              (off + sectSize) rfl
          refine ⟨d', hready, hspec, hsectors, ?_⟩
          simp only [hnext, readRow, hflaw]
          refine Does.bind hpoll ?_
          simp only [ne_eq, not_true_eq_false, if_false, h.base]
          exact Does.bind hwords hdoes

/-- The loop that writes to a drive that is in no transfer does not reach its sectors. -/
theorem Primary.does_writeSectors_idle (h : Primary ch) :
    ∀ (n : Nat) (d : Drive) (mem : Buf) (off : Nat), d.phase.active = false →
      ∃ d', d'.phase.active = false ∧ d'.spec = d.spec ∧ d'.sectors = d.sectors ∧
        Does rest (writeSectors ch n mem off) (c.withSelected d) () (c.withSelected d') := by
  intro n
  induction n with
  | zero =>
      intro d mem off hidle
      exact ⟨d, hidle, rfl, rfl, Does.pure⟩
  | succ n ih =>
      intro d mem off hidle
      have hpoll := h.does_poll rest (c.withSelected d)
      rw [Chan.settle_withSelected] at hpoll
      have hwords := does_outsw_idle rest (c := c) (d := d.settle) hidle mem off 256
      obtain ⟨d', hidle', hspec, hsectors, hdoes⟩ := ih d.settle mem (off + sectSize) hidle
      refine ⟨d', hidle', hspec, hsectors, Does.bind hpoll ?_⟩
      simp only [h.base]
      exact Does.bind hwords hdoes

/-- The loop that writes is a write to the ideal row.  Without a failure the drive is left
busy with the last sector. -/
theorem Primary.does_writeSectors (h : Primary ch) :
    ∀ (n : Nat) (d : Drive) (addr : Nat) (mem : Buf) (off : Nat),
      ∃ d', d'.phase.active = false ∧ d'.spec = d.spec ∧
        d'.sectors = writeRow d.spec.flaw d.sectors addr n mem off ∧
        ((∀ i < n, d.spec.flaw (addr + i) = none) → d'.busy = d.spec.delay (d.times + n)) ∧
        Does rest (writeSectors ch n mem off) (c.withSelected (d.nextOut addr n)) ()
          (c.withSelected d') := by
  intro n
  induction n with
  | zero =>
      intro d addr mem off
      exact ⟨d.nextOut addr 0, rfl, rfl, rfl, fun _ => rfl, Does.pure⟩
  | succ n ih =>
      intro d addr mem off
      have hpoll := h.does_poll rest (c.withSelected (d.nextOut addr (n + 1)))
      rw [Chan.settle_withSelected] at hpoll
      have hwords := does_outsw rest (c := c) (d := d.goBusy.settle) rfl addr n mem off
      cases hflaw : d.spec.flaw addr with
      | some f =>
          have hcommit : d.goBusy.settle.commit (sectorOf mem off) addr n =
              d.goBusy.settle.fail f := by
            have hspec : d.goBusy.settle.spec = d.spec := rfl
            simp only [Drive.commit, hspec, hflaw]
          rw [hcommit] at hwords
          obtain ⟨d', hidle, hspec, hsectors, hdoes⟩ :=
            h.does_writeSectors_idle rest (c := c) n (d.goBusy.settle.fail f) mem
              (off + sectSize) rfl
          refine ⟨d', hidle, hspec, ?_, fun hgood => ?_, Does.bind hpoll ?_⟩
          · simp only [writeRow, hflaw]
            exact hsectors
          · have hzero := hgood 0 (Nat.succ_pos n)
            rw [Nat.add_zero, hflaw] at hzero
            cases hzero
          · simp only [h.base]
            exact Does.bind hwords hdoes
      | none =>
          let d₁ : Drive := { d.goBusy.settle with
            sectors := Function.update d.sectors addr (sectorOf mem off) }
          have hcommit : d.goBusy.settle.commit (sectorOf mem off) addr n =
              d₁.nextOut (addr + 1) n := by
            have hspec : d.goBusy.settle.spec = d.spec := rfl
            simp only [Drive.commit, hspec, hflaw]
            rfl
          rw [hcommit] at hwords
          obtain ⟨d', hidle, hspec, hsectors, hbusy, hdoes⟩ := ih d₁ (addr + 1) mem (off + sectSize)
          refine ⟨d', hidle, hspec, ?_, fun hgood => ?_, Does.bind hpoll ?_⟩
          · simp only [writeRow, hflaw]
            exact hsectors
          · have hothers : ∀ i < n, d₁.spec.flaw (addr + 1 + i) = none := by
              intro i hi
              rw [Nat.add_assoc, Nat.add_comm 1]
              exact hgood (i + 1) (Nat.succ_lt_succ hi)
            have htimes : d₁.times + n = d.times + (n + 1) := Nat.succ_add_eq_add_succ _ _
            rw [hbusy hothers, htimes]
            rfl
          · simp only [h.base]
            exact Does.bind hwords hdoes

end Loops

end Ide
end NochOS
