import NochOS.Process.AddressSpace
import NochOS.Signal.Frame

/-!
# Processes - the way back from a child

A system call leaves a register frame at the top of the kernel stack of its process, and
its address in one variable for all processes.  `sys_execute` parks the address in the
control block of the child; when the child exits, the frame gets the exit code and the
processor returns through it.  Meanwhile the child, its own children and the other
sessions run, and the slots of the process table are used again.

Main results:

- Definition `Machine.doSys`: `do_sys` with the frame it is called on.
- Theorem `Sound.trap`: frames are parked in the right control blocks.
- Theorem `Waiting.trap`: the frame and the stack of a process that waits for its child.
- Theorem `execute_exit_bracket`: from an execute to the exit of the child.
-/

namespace NochOS
namespace Process

open Library Signal

/-! ## Frames on the kernel stacks -/

/-- `SYS_HALT`. -/
def sysHaltNum : BitVec 32 := 1

/-- `SYS_EXECUTE`. -/
def sysExecuteNum : BitVec 32 := 2

/-- The offset of `eax` in `struct regs`. -/
def eaxOffset : Nat := 24

/-- The process operations with the memory of the kernel stacks and `cur_regs`. -/
structure Machine where
  kernel : Kernel
  mem : Buf
  curRegs : Nat

/-- The register frame of a system call of a process. -/
def frameOf (pid : Nat) : Nat := getEsp0ByPid pid - regsSize

namespace Machine

/-- The memory after a write. -/
def setMem (m : Machine) (mem : Buf) : Machine := { m with mem := mem }

@[simp] theorem kernel_setMem (m : Machine) (mem : Buf) : (m.setMem mem).kernel = m.kernel := rfl

@[simp] theorem mem_setMem (m : Machine) (mem : Buf) : (m.setMem mem).mem = mem := rfl

/-- A trap from user mode leaves the registers below `esp0`. -/
def pushRegs (m : Machine) (r : Regs) : Machine :=
  m.setMem (memcpy m.mem (m.kernel.tssEsp0 - regsSize) (wordBytes r.words) 0 regsSize)

/-- The end of an operation on the process table: `kill_pid` leaves the exit code in the
frame it resumes, and `sys_execute` falls into `sys_read` when it returns. -/
def goOn (m : Machine) : Kernel × Transfer → Machine × Option Transfer
  | (k, .resume frame eax) =>
      ({ m.setMem (setU32 m.mem (frame + eaxOffset) (BitVec.ofInt 32 eax).toNat) with kernel := k },
        some (.resume frame eax))
  | (k, .ret _) => ({ m with kernel := k }, none)
  | (k, transfer) => ({ m with kernel := k }, some transfer)

/-- `kill_pid` on the running process. -/
def exit (m : Machine) (exitCode : Int) : Machine × Option Transfer :=
  match m.kernel.curProcPcb with
  | none => (m, some .fault)
  | some cur => m.goOn (killPid m.kernel (m.kernel.pcb cur).pid exitCode)

/-- `do_sys`.  Other calls than `sys_halt` and `sys_execute` go on in the kernel. -/
def doSys (m : Machine) (r : Regs) (image : Option Nat) : Machine × Option Transfer :=
  let m := { m.pushRegs r with curRegs := m.kernel.tssEsp0 - regsSize }
  if r.origEax = sysHaltNum then m.exit (r.ebx.toNat % 256 : Nat)
  else if r.origEax = sysExecuteNum then m.goOn (sysExecute m.kernel m.curRegs image)
  else (m, none)

/-- What the running process does in the kernel besides, and the interrupts it takes there,
are on its own kernel stack. -/
def work (m : Machine) (stack : Buf) : Machine :=
  match m.kernel.curProcPcb with
  | none => m
  | some cur =>
      m.setMem fun a =>
        if getPcbByPid cur ≤ a ∧ a < getPcbByPid cur + kstackSize then stack a else m.mem a

end Machine

/-- What happens: a system call, a signal that kills the running process, anything else
that it does in the kernel, the timer and the keys that switch sessions. -/
inductive Trap
  | syscall (r : Regs) (image : Option Nat)
  | fatal (rval : Int)
  | work (stack : Buf)
  | timer (regs shell ebp : Nat)
  | switch (sessId : Nat)

/-- The machine after it, and where execution goes on. -/
def Machine.trap (m : Machine) : Trap → Machine × Option Transfer
  | .syscall r image => m.doSys r image
  | .fatal rval => m.exit rval
  | .work stack => (m.work stack, none)
  | .timer regs shell ebp =>
      let (k, transfer) := doSched (saveKernelEsp m.kernel regs) shell ebp
      ({ m with kernel := k }, some transfer)
  | .switch sessId => ({ m with kernel := (sessSwitch m.kernel sessId).1 }, none)

/-- The exit code of a trap that ends the running process. -/
def Trap.exitCode : Trap → Option Int
  | .syscall r _ => if r.origEax = sysHaltNum then some (r.ebx.toNat % 256 : Nat) else none
  | .fatal rval => some rval
  | .work _ | .timer _ _ _ | .switch _ => none

/-- Runs of traps from the first shell on. -/
def machineSystem : TransitionSystem Machine where
  init m := Started m.kernel
  step m m' := ∃ a, m' = (m.trap a).1

/-- What a trap is among the operations on the process table. -/
def Machine.action (m : Machine) : Trap → Option Action
  | .syscall r image =>
      if r.origEax = sysHaltNum then some (.exit (r.ebx.toNat % 256 : Nat))
      else if r.origEax = sysExecuteNum then
        some (.execute (m.kernel.tssEsp0 - regsSize) image)
      else none
  | .fatal rval => some (.exit rval)
  | .work _ => none
  | .timer regs shell ebp => some (.sched regs shell ebp)
  | .switch sessId => some (.switch sessId)

section Kernels

variable (m : Machine)

@[simp] theorem kernel_pushRegs (r : Regs) : (m.pushRegs r).kernel = m.kernel :=
  Machine.kernel_setMem m _

@[simp] theorem kernel_goOn (result : Kernel × Transfer) : (m.goOn result).1.kernel = result.1 := by
  obtain ⟨k, transfer⟩ := result
  cases transfer with
  | resume frame eax => rfl
  | ret value => rfl
  | enter pid entryPoint => rfl
  | restore esp ebp => rfl
  | spin => rfl
  | fault => rfl

theorem kernel_exit (exitCode : Int) :
    (m.exit exitCode).1.kernel = perform m.kernel (.exit exitCode) := by
  unfold Machine.exit perform
  cases m.kernel.curProcPcb with
  | none => rfl
  | some cur => simp only [kernel_goOn]

@[simp] theorem kernel_work (stack : Buf) : (m.work stack).kernel = m.kernel := by
  unfold Machine.work
  cases m.kernel.curProcPcb with
  | none => rfl
  | some cur => exact Machine.kernel_setMem m _

/-- What an optional operation does to the process table. -/
def performAny (k : Kernel) : Option Action → Kernel
  | none => k
  | some b => perform k b

/-- On the process table a trap is one of its operations, or none. -/
theorem kernel_trap (a : Trap) : (m.trap a).1.kernel = performAny m.kernel (m.action a) := by
  cases a with
  | syscall r image =>
      unfold Machine.trap Machine.doSys Machine.action
      simp only []
      by_cases hhalt : r.origEax = sysHaltNum
      · rw [if_pos hhalt, if_pos hhalt]
        exact kernel_exit _ _
      · rw [if_neg hhalt, if_neg hhalt]
        by_cases hexecute : r.origEax = sysExecuteNum
        · rw [if_pos hexecute, if_pos hexecute]
          exact kernel_goOn _ _
        · rw [if_neg hexecute, if_neg hexecute]
          rfl
  | fatal rval => exact kernel_exit m rval
  | work stack => exact kernel_work m stack
  | timer regs shell ebp => rfl
  | switch sessId => rfl

end Kernels

/-! ## The parents in the control blocks -/

/-- The parent of a process and the frame to return to are the same in two states. -/
structure SameParent (k k' : Kernel) (q : Nat) : Prop where
  parent : (k'.pcb q).parentPid = (k.pcb q).parentPid
  frame : (k'.pcb q).parentEsp = (k.pcb q).parentEsp

theorem SameParent.trans {k k₁ k' : Kernel} {q : Nat} (h : SameParent k k₁ q)
    (h' : SameParent k₁ k' q) : SameParent k k' q :=
  ⟨h'.parent.trans h.parent, h'.frame.trans h.frame⟩

/-- A change of one control block elsewhere. -/
theorem sameParent_update {k k' : Kernel} (p : Nat) (new : Pcb)
    (hpcb : k'.pcb = Function.update k.pcb p new) (hparent : new.parentPid = (k.pcb p).parentPid)
    (hframe : new.parentEsp = (k.pcb p).parentEsp) (q : Nat) : SameParent k k' q := by
  by_cases hq : q = p
  · constructor
    · rw [hpcb, hq, Function.update_self, hparent]
    · rw [hpcb, hq, Function.update_self, hframe]
  · constructor
    · rw [hpcb, Function.update_of_ne hq]
    · rw [hpcb, Function.update_of_ne hq]

theorem sameParent_of_pcb {k k' : Kernel} (hpcb : k'.pcb = k.pcb) (q : Nat) :
    SameParent k k' q := by
  constructor
  · rw [hpcb]
  · rw [hpcb]

theorem saveKernelEsp_sameParent (k : Kernel) (regs q : Nat) :
    SameParent k (saveKernelEsp k regs) q := by
  unfold saveKernelEsp
  cases k.curProcPcb with
  | none => exact sameParent_of_pcb rfl q
  | some cur =>
      exact sameParent_update cur { k.pcb cur with kernelEsp := regs } rfl rfl rfl q

theorem sessSwitch_sameParent (k : Kernel) (sessId q : Nat) :
    SameParent k (sessSwitch k sessId).1 q := by
  apply sameParent_of_pcb
  unfold sessSwitch
  split
  · rfl
  · split
    · rfl
    · cases k.curProcPcb with
      | none => rfl
      | some cur => exact pcb_mapVidmem _ _ _

theorem killPid_sameParent (k : Kernel) (pid : Nat) (exitCode : Int) (q : Nat) :
    SameParent k (killPid k pid exitCode).1 q := by
  unfold killPid
  simp only []
  split
  · exact sameParent_update pid { k.pcb pid with uptime := 0 } rfl rfl rfl q
  · apply sameParent_of_pcb
    simp

theorem switchTo_sameParent (k : Kernel) (next frame q : Nat) :
    SameParent k (switchTo k next frame) q := by
  have hpcb : (switchTo k next frame).pcb = Function.update k.pcb next
      { k.pcb next with uptime := ((k.pcb next).uptime + timeQuantum) % 2 ^ 32 } := by
    simp [switchTo]
  exact sameParent_update _ _ hpcb rfl rfl q

theorem doSched_sameParent (k : Kernel) (shell ebp q : Nat) :
    SameParent k (doSched k shell ebp).1 q := by
  unfold doSched
  split
  · exact sameParent_of_pcb rfl q
  · cases k.curProcPcb with
    | none => exact sameParent_of_pcb rfl q
    | some this =>
        have haside : ∀ p, SameParent k (setAside k p) q := by
          intro p
          apply sameParent_of_pcb
          unfold setAside
          split
          · rfl
          · rfl
        simp only []
        generalize hk : setAside k (k.pcb this).pid = k₁
        have hsame : SameParent k k₁ q := hk ▸ haside (k.pcb this).pid
        generalize schedNext k₁ (k.pcb this).pid = next
        split
        · have hswitch := switchTo_sameParent k₁ next (k₁.pcb next).pid q
          generalize switchTo k₁ next (k₁.pcb next).pid = k₂ at hswitch
          have hactive : SameParent k₂ (setStatus k₂ next .active) q :=
            sameParent_of_pcb (pcb_setStatus k₂ next .active) q
          exact hsame.trans (hswitch.trans hactive)
        · have hswitch := switchTo_sameParent k₁ next next q
          generalize switchTo k₁ next next = k₂ at hswitch
          exact hsame.trans (hswitch.trans (sameParent_update this
            { k₂.pcb this with kernelEbp := ebp } rfl rfl rfl q))

/-- `sys_execute` fails and leaves the parents, or parks the frame of the call in the
control block of the new process. -/
theorem sysExecute_parents {k : Kernel} {t : Sessions} (h : Represents k t)
    (curRegs : Nat) (image : Option Nat) :
    ((sysExecute k curRegs image).2 = .ret (-1) ∧
        ∀ q, SameParent k (sysExecute k curRegs image).1 q) ∨
      ∃ c entryPoint, (sysExecute k curRegs image).2 = .enter c entryPoint ∧
        k.procStatus c = .inactive ∧ Represents (sysExecute k curRegs image).1 (t.push c) ∧
        (∀ q, q ≠ c → SameParent k (sysExecute k curRegs image).1 q) ∧
        ((sysExecute k curRegs image).1.pcb c).parentPid = t.leaf t.current ∧
        ((sysExecute k curRegs image).1.pcb c).parentEsp = curRegs := by
  rcases h.sysExecute curRegs image with ⟨hret, -⟩ | ⟨c, entryPoint, -, hfree, henter, h'⟩
  · left
    refine ⟨hret, sameParent_of_pcb ?_⟩
    by_cases hfull : getNextPid k (t.leaf t.current) .inactive = numProc
    · simp [sysExecute, h.running, h.running_pid, hfull]
    · cases image with
      | none => simp [sysExecute, h.running, h.running_pid, hfull]
      | some entryPoint =>
          obtain ⟨c, henter, -⟩ := h.sysExecute_switches hfull curRegs entryPoint
          rw [henter] at hret
          cases hret
  · right
    have hroom : getNextPid k (t.leaf t.current) .inactive ≠ numProc := by
      intro hfull
      have hret : (sysExecute k curRegs image).2 = .ret (-1) := by
        simp [sysExecute, h.running, h.running_pid, hfull]
      rw [hret] at henter
      cases henter
    cases image with
    | none =>
        have hret : (sysExecute k curRegs none).2 = .ret (-1) := by
          simp [sysExecute, h.running, h.running_pid, hroom]
        rw [hret] at henter
        cases henter
    | some image =>
        obtain ⟨c', k₁, -, -, hinit, -, hpcb₁⟩ := h.childPcbInit_spec hroom
        have hexec : (sysExecute k curRegs (some image)).2 = .enter c' image ∧
            (sysExecute k curRegs (some image)).1.pcb =
              Function.update k₁.pcb c' { k₁.pcb c' with parentEsp := curRegs } := by
          simp [sysExecute, h.running, h.running_pid, hroom, hinit, hpcb₁]
        obtain ⟨henter', hpcb⟩ := hexec
        rw [henter, Transfer.enter.injEq] at henter'
        obtain ⟨rfl, rfl⟩ := henter'
        rw [hpcb₁, Function.update_idem] at hpcb
        refine ⟨c, entryPoint, henter, hfree, h', ?_, ?_, ?_⟩
        · intro q hq
          constructor
          · rw [hpcb, Function.update_of_ne hq]
          · rw [hpcb, Function.update_of_ne hq]
        · rw [hpcb, Function.update_self, Function.update_self]
        · rw [hpcb, Function.update_self]

/-! ## Memory -/

/-- The frames of different processes lie apart. -/
theorem frameOf_apart {p q : Nat} (hp : p < numProc) (hq : q < numProc) (hne : p ≠ q) :
    frameOf p + regsSize ≤ frameOf q ∨ frameOf q + regsSize ≤ frameOf p := by
  unfold numProc at hp hq
  unfold frameOf getEsp0ByPid kernelBot kstackSize regsSize
  omega

/-- The frame of a process lies outside the kernel stacks of the others. -/
theorem frameOf_outside {p q : Nat} (hp : p < numProc) (hq : q < numProc) (hne : p ≠ q) :
    frameOf p + regsSize ≤ getPcbByPid q ∨ getPcbByPid q + kstackSize ≤ frameOf p := by
  unfold numProc at hp hq
  unfold frameOf getEsp0ByPid getPcbByPid kernelBot kstackSize regsSize
  omega

/-- The register frame of a process is the same in two memories. -/
def SameFrame (mem mem' : Buf) (p : Nat) : Prop :=
  ∀ i < regsSize, mem' (frameOf p + i) = mem (frameOf p + i)

theorem SameFrame.trans {mem mem₁ mem' : Buf} {p : Nat} (h : SameFrame mem mem₁ p)
    (h' : SameFrame mem₁ mem' p) : SameFrame mem mem' p :=
  fun i hi => (h' i hi).trans (h i hi)

/-- A new `eax` in a frame. -/
theorem loadRegs_setU32_eax (mem : Buf) (addr : Nat) (v : BitVec 32) :
    loadRegs (setU32 mem (addr + eaxOffset) v.toNat) addr =
      { loadRegs mem addr with eax := v } := by
  have heax : load32 (setU32 mem (addr + eaxOffset) v.toNat) (addr + 24) = v := by
    unfold load32 eaxOffset
    rw [u32At_setU32 _ _ v.isLt, BitVec.ofNat_toNat, BitVec.setWidth_eq]
  have hother : ∀ off, off + 4 ≤ eaxOffset ∨ eaxOffset + 4 ≤ off →
      load32 (setU32 mem (addr + eaxOffset) v.toNat) (addr + off) = load32 mem (addr + off) := by
    intro off hoff
    unfold load32
    rw [u32At_setU32_of_disjoint (by omega)]
  have hfirst := hother 0 (by decide)
  rw [Nat.add_zero] at hfirst
  simp only [loadRegs, Regs.mk.injEq]
  exact ⟨hfirst, hother 4 (by decide), hother 8 (by decide), hother 12 (by decide),
    hother 16 (by decide), hother 20 (by decide), heax, hother 28 (by decide),
    hother 32 (by decide), hother 36 (by decide), hother 40 (by decide), hother 44 (by decide),
    hother 48 (by decide), hother 52 (by decide), hother 56 (by decide), hother 60 (by decide)⟩

section Frames

variable {m : Machine} {cur p : Nat}

/-- A trap of the running process leaves the frames of the others. -/
theorem sameFrame_pushRegs (h : InPlace m.kernel cur) (hcur : cur < numProc) (hp : p < numProc)
    (hne : p ≠ cur) (r : Regs) : SameFrame m.mem (m.pushRegs r).mem p := by
  intro i hi
  have happart := frameOf_apart hp hcur hne
  unfold Machine.pushRegs
  rw [Machine.mem_setMem, h.stack]
  apply memcpy_outside
  unfold frameOf at happart ⊢
  omega

/-- A system call leaves its registers in the frame of the process. -/
theorem mem_pushRegs (h : InPlace m.kernel cur) (r : Regs) {i : Nat} (hi : i < regsSize) :
    (m.pushRegs r).mem (frameOf cur + i) = wordBytes r.words i := by
  unfold Machine.pushRegs
  rw [Machine.mem_setMem, h.stack]
  unfold frameOf
  rw [memcpy_inside (by omega) (by omega)]
  congr 1
  omega

/-- What the running process does in the kernel leaves the frames of the others. -/
theorem sameFrame_work (h : m.kernel.curProcPcb = some cur) (hcur : cur < numProc)
    (hp : p < numProc) (hne : p ≠ cur) (stack : Buf) : SameFrame m.mem (m.work stack).mem p := by
  intro i hi
  have houtside := frameOf_outside hp hcur hne
  have hwork : m.work stack = m.setMem fun a =>
      if getPcbByPid cur ≤ a ∧ a < getPcbByPid cur + kstackSize then stack a else m.mem a := by
    unfold Machine.work
    rw [h]
  rw [hwork, Machine.mem_setMem]
  apply if_neg
  omega

end Frames

/-! ## One trap -/

/-- The process table is settled, the running process is in place, and the control block
of a child holds the register frame of its parent. -/
structure Sound (m : Machine) (t : Sessions) : Prop where
  settled : Settled m.kernel t
  inPlace : InPlace m.kernel (t.leaf t.current)
  parked : ∀ q, m.kernel.Alive q → (m.kernel.pcb q).parentPid ≠ numProc →
    (m.kernel.pcb q).parentEsp = frameOf (m.kernel.pcb q).parentPid

/-- What a trap does to the stacks of the sessions.  The frame of the call that starts a
process is parked in its control block. -/
inductive Moves (k k' : Kernel) (t : Sessions) (a : Trap) : Sessions → Prop
  | keep {t' : Sessions} (hsame : ∀ s, t'.stack s = t.stack s) : Moves k k' t a t'
  | push {c : Nat} (hfree : k.procStatus c = .inactive)
      (hparent : (k'.pcb c).parentPid = t.leaf t.current)
      (hframe : (k'.pcb c).parentEsp = k.tssEsp0 - regsSize) : Moves k k' t a (t.push c)
  | pop {caller : Nat} {rest : List Nat} (hcallers : t.callers t.current = caller :: rest)
      (hexit : a.exitCode.isSome) : Moves k k' t a (t.pop caller rest)

section Traps

variable {m : Machine} {t t' : Sessions} {a : Trap}

theorem action_execute {curRegs : Nat} {image : Option Nat}
    (h : m.action a = some (.execute curRegs image)) : curRegs = m.kernel.tssEsp0 - regsSize := by
  cases a with
  | syscall r image =>
      unfold Machine.action at h
      simp only [] at h
      by_cases hhalt : r.origEax = sysHaltNum
      · rw [if_pos hhalt] at h
        cases h
      · rw [if_neg hhalt] at h
        by_cases hexecute : r.origEax = sysExecuteNum
        · rw [if_pos hexecute, Option.some_inj, Action.execute.injEq] at h
          exact h.1.symm
        · rw [if_neg hexecute] at h
          cases h
  | fatal rval => cases h
  | work stack => cases h
  | timer regs shell ebp => cases h
  | switch sessId => cases h

theorem action_exit {exitCode : Int} (h : m.action a = some (.exit exitCode)) :
    a.exitCode.isSome := by
  cases a with
  | syscall r image =>
      unfold Machine.action at h
      simp only [] at h
      by_cases hhalt : r.origEax = sysHaltNum
      · simp [Trap.exitCode, hhalt]
      · rw [if_neg hhalt] at h
        by_cases hexecute : r.origEax = sysExecuteNum
        · rw [if_pos hexecute] at h
          cases h
        · rw [if_neg hexecute] at h
          cases h
  | fatal rval => rfl
  | work stack => cases h
  | timer regs shell ebp => cases h
  | switch sessId => cases h

/-- What an action comes to, seen on the stacks. -/
theorem moves_of_outcome {b : Action} (h : Represents m.kernel t) (haction : m.action a = some b)
    (hout : Outcome m.kernel t b (perform m.kernel b) t') :
    Moves m.kernel (perform m.kernel b) t a t' := by
  generalize hk : perform m.kernel b = k' at hout
  cases hout with
  | quiet hsame hwait => exact .keep fun s => rfl
  | @started curRegs entryPoint c _ hfree hroom hwait hswitch =>
      rcases sysExecute_parents h curRegs (some entryPoint) with
        ⟨hret, -⟩ | ⟨c', -, -, -, h', -, hparent, hframe⟩
      · obtain ⟨c', henter, -⟩ := h.sysExecute_switches hroom curRegs entryPoint
        rw [hret] at henter
        cases henter
      · have hexec : (sysExecute m.kernel curRegs (some entryPoint)).1 = k' := hk
        rw [hexec] at h' hparent hframe
        have hc : c = c' := by
          have hrun := Option.some_inj.mp (hswitch.running.symm.trans h'.running)
          simpa [Sessions.push] using hrun
        rw [← hc] at hparent hframe
        exact .push hfree hparent (hframe.trans (action_execute haction))
  | exited hcallers hwait hswitch => exact .pop hcallers (action_exit haction)
  | scheduled hs hnext hwait hswitch => exact .keep fun s => rfl
  | displayed hlt hne heq => exact .keep fun s => rfl

/-- A process in use after a trap was in use before, or its parent is the one that ran. -/
theorem Moves.alive {k k' : Kernel} (hmoves : Moves k k' t a t') (h : Represents k t)
    (h' : Represents k' t') {q : Nat} (hq : k'.Alive q) :
    k.Alive q ∨ (k'.pcb q).parentPid = t.leaf t.current ∧
      (k'.pcb q).parentEsp = k.tssEsp0 - regsSize := by
  have hs := h'.bound q hq
  have hmem := (h'.mem _ hs q).mpr ⟨hq, rfl⟩
  cases hmoves with
  | keep hsame =>
      rw [hsame] at hmem
      exact Or.inl ((h.mem _ hs q).mp hmem).1
  | push hfree hparent hframe =>
      by_cases hc : k'.sess q = t.current
      · rw [hc, Sessions.stack_push_current] at hmem
        rcases List.mem_cons.mp hmem with rfl | hmem
        · exact Or.inr ⟨hparent, hframe⟩
        · exact Or.inl ((h.mem _ h.current q).mp hmem).1
      · rw [Sessions.stack_push_of_ne _ _ hc] at hmem
        exact Or.inl ((h.mem _ hs q).mp hmem).1
  | @pop caller rest hcallers hexit =>
      by_cases hc : k'.sess q = t.current
      · rw [hc, Sessions.stack_pop_current] at hmem
        have hold : q ∈ t.stack t.current := by
          rw [Sessions.stack, hcallers]
          exact List.mem_cons_of_mem _ hmem
        exact Or.inl ((h.mem _ h.current q).mp hold).1
      · rw [Sessions.stack_pop_of_ne _ _ _ hc] at hmem
        exact Or.inl ((h.mem _ hs q).mp hmem).1

/-- The parents of the processes in use stay. -/
theorem parents_trap (h : Represents m.kernel t) (a : Trap) {q : Nat} (hq : m.kernel.Alive q) :
    SameParent m.kernel (m.trap a).1.kernel q := by
  rw [kernel_trap]
  cases haction : m.action a with
  | none => exact sameParent_of_pcb rfl q
  | some b =>
      unfold performAny
      simp only []
      cases b with
      | execute curRegs image =>
          rcases sysExecute_parents h curRegs image with
            ⟨-, hsame⟩ | ⟨c, entryPoint, -, hfree, -, hsame, -, -⟩
          · exact hsame q
          · exact hsame q fun hc => hq.2 (hc ▸ hfree)
      | exit exitCode =>
          unfold perform
          simp only [h.running]
          exact killPid_sameParent _ _ _ q
      | sched regs shell ebp =>
          exact (saveKernelEsp_sameParent _ _ q).trans (doSched_sameParent _ _ _ q)
      | switch sessId => exact sessSwitch_sameParent _ _ q

/-- A trap keeps a machine sound. -/
theorem Sound.trap (h : Sound m t) (a : Trap) :
    ∃ t', Sound (m.trap a).1 t' ∧ Moves m.kernel (m.trap a).1.kernel t a t' := by
  have hstep : ∃ t', Settled (m.trap a).1.kernel t' ∧ Moves m.kernel (m.trap a).1.kernel t a t' ∧
      ∃ cur, InPlace (m.trap a).1.kernel cur := by
    rw [kernel_trap]
    cases haction : m.action a with
    | none => exact ⟨t, h.settled, .keep fun s => rfl, _, h.inPlace⟩
    | some b =>
        obtain ⟨t', h', hout⟩ := h.settled.perform b
        exact ⟨t', h', moves_of_outcome h.settled.represents haction hout,
          hout.inPlace ⟨_, h.inPlace⟩⟩
  obtain ⟨t', h', hmoves, cur, hplace⟩ := hstep
  have hcur := Option.some_inj.mp (hplace.running.symm.trans h'.represents.running)
  refine ⟨t', ⟨h', hcur ▸ hplace, ?_⟩, hmoves⟩
  intro q hq hroot
  rcases hmoves.alive h.settled.represents h'.represents hq with hold | ⟨hparent, hframe⟩
  · have hsame := parents_trap h.settled.represents a hold
    rw [hsame.parent] at hroot ⊢
    rw [hsame.frame]
    exact h.parked q hold hroot
  · rw [hparent, hframe, h.inPlace.stack]
    rfl

/-- A machine is sound once the first shell runs. -/
theorem Sound.start (h : Started m.kernel) :
    Sound m { leaf := id, callers := fun _ => [], current := 0 } where
  settled := (Started.spec h).2.1
  inPlace := Started.inPlace h
  parked q hq hroot := by
    have hboot := (Started.spec h).1
    have hlt : q < numSess := by
      by_contra hge
      exact hq.2 (hboot.free q (by omega) hq.1)
    exact absurd (hboot.root q hlt).2.1 hroot

/-- Every reachable machine is sound. -/
theorem Sound.of_reachable (h : machineSystem.Reachable m) : ∃ t, Sound m t := by
  have hinv : machineSystem.IsInvariant fun m => ∃ t, Sound m t := by
    refine ⟨fun m h => ⟨_, Sound.start h⟩, ?_⟩
    rintro m m' ⟨t, h⟩ ⟨a, rfl⟩
    obtain ⟨t', h', -⟩ := h.trap a
    exact ⟨t', h'⟩
  exact hinv.of_reachable h

/-! ## An exit -/

/-- A trap that ends the running process leaves the frames of the others and exits. -/
theorem trap_exit (h : Sound m t) {v : Int} (hexit : a.exitCode = some v) :
    ∃ m₀ : Machine, m₀.kernel = m.kernel ∧ m.trap a = m₀.exit v ∧
      ∀ p < numProc, p ≠ t.leaf t.current → SameFrame m.mem m₀.mem p := by
  cases a with
  | syscall r image =>
      have hhalt : r.origEax = sysHaltNum ∧ ((r.ebx.toNat % 256 : Nat) : Int) = v := by
        unfold Trap.exitCode at hexit
        simp only [] at hexit
        by_cases hhalt : r.origEax = sysHaltNum
        · rw [if_pos hhalt, Option.some_inj] at hexit
          exact ⟨hhalt, hexit⟩
        · rw [if_neg hhalt] at hexit
          cases hexit
      refine ⟨{ m.pushRegs r with curRegs := m.kernel.tssEsp0 - regsSize }, kernel_pushRegs m r,
        ?_, ?_⟩
      · rw [← hhalt.2]
        unfold Machine.trap Machine.doSys
        simp only []
        rw [if_pos hhalt.1]
      · intro p hp hne
        exact sameFrame_pushRegs h.inPlace h.settled.represents.running_lt hp hne r
  | fatal rval =>
      obtain rfl : rval = v := Option.some_inj.mp hexit
      exact ⟨m, rfl, rfl, fun p _ _ i _ => rfl⟩
  | work stack => cases hexit
  | timer regs shell ebp => cases hexit
  | switch sessId => cases hexit

/-- The exit of a process with a parent resumes the frame of the parent. -/
theorem exit_child {m₀ : Machine} (h : Sound m t) (hk : m₀.kernel = m.kernel) {caller : Nat}
    {rest : List Nat} (hcallers : t.callers t.current = caller :: rest) (v : Int) :
    (m₀.exit v).2 = some (.resume (frameOf caller) v) ∧
      (m₀.exit v).1.mem =
        setU32 m₀.mem (frameOf caller + eaxOffset) (BitVec.ofInt 32 v).toNat := by
  have hr := h.settled.represents
  obtain ⟨halive, -, -, hparent⟩ := hr.caller_eq hcallers
  have hlt := halive.1
  have hroot : (m.kernel.pcb (t.leaf t.current)).parentPid ≠ numProc := by
    rw [hparent]
    omega
  have hframe := h.parked _ (hr.leaf_alive hr.current).1 hroot
  rw [hparent] at hframe
  have hkill : (killPid m.kernel (t.leaf t.current) v).2 = .resume (frameOf caller) v := by
    unfold killPid
    simp only [if_neg hroot, hframe]
  unfold Machine.exit
  simp only [hk, hr.running, hr.running_pid]
  generalize killPid m.kernel (t.leaf t.current) v = result at hkill
  obtain ⟨k, transfer⟩ := result
  obtain rfl : transfer = .resume (frameOf caller) v := hkill
  exact ⟨rfl, rfl⟩

/-- The exit of a root writes nothing. -/
theorem exit_root {m₀ : Machine} (h : Represents m.kernel t) (hk : m₀.kernel = m.kernel)
    (hcallers : t.callers t.current = []) (v : Int) : (m₀.exit v).1.mem = m₀.mem := by
  have hlink := h.linked _ h.current
  simp only [Sessions.stack, hcallers, List.cons_append, List.nil_append] at hlink
  have hroot : (m.kernel.pcb (t.leaf t.current)).parentPid = numProc :=
    (List.isChain_cons_cons.mp hlink).1
  have hkill : (killPid m.kernel (t.leaf t.current) v).2 = .spin := by
    unfold killPid
    simp only [if_pos hroot]
  unfold Machine.exit
  simp only [hk, h.running, h.running_pid]
  generalize killPid m.kernel (t.leaf t.current) v = result at hkill
  obtain ⟨k, transfer⟩ := result
  obtain rfl : transfer = .spin := hkill
  rfl

/-- A trap that ends no process leaves the frames of the processes that do not run. -/
theorem sameFrame_of_stay (h : Sound m t) (hexit : a.exitCode = none) {p : Nat}
    (hp : p < numProc) (hne : p ≠ t.leaf t.current) :
    SameFrame m.mem (m.trap a).1.mem p := by
  have hlt := h.settled.represents.running_lt
  cases a with
  | syscall r image =>
      have hpush := sameFrame_pushRegs h.inPlace hlt hp hne r
      unfold Machine.trap Machine.doSys
      simp only []
      by_cases hhalt : r.origEax = sysHaltNum
      · simp [Trap.exitCode, hhalt] at hexit
      · rw [if_neg hhalt]
        by_cases hexecute : r.origEax = sysExecuteNum
        · rw [if_pos hexecute]
          -- `sys_execute` resumes no frame, so that nothing is written after it
          rcases sysExecute_parents h.settled.represents (m.kernel.tssEsp0 - regsSize) image with
            ⟨hret, -⟩ | ⟨c, entryPoint, henter, -⟩
          · rw [kernel_pushRegs]
            generalize sysExecute m.kernel (m.kernel.tssEsp0 - regsSize) image = result at hret
            obtain ⟨k, transfer⟩ := result
            obtain rfl : transfer = .ret (-1) := hret
            exact hpush
          · rw [kernel_pushRegs]
            generalize sysExecute m.kernel (m.kernel.tssEsp0 - regsSize) image = result at henter
            obtain ⟨k, transfer⟩ := result
            obtain rfl : transfer = .enter c entryPoint := henter
            exact hpush
        · rw [if_neg hexecute]
          exact hpush
  | fatal rval => cases hexit
  | work stack => exact sameFrame_work h.settled.represents.running hlt hp hne stack
  | timer regs shell ebp => exact fun i _ => rfl
  | switch sessId => exact fun i _ => rfl

/-- A trap leaves the frame of every process that neither runs nor is resumed. -/
theorem sameFrame_trap (h : Sound m t) {p : Nat} (hp : p < numProc)
    (hne : p ≠ t.leaf t.current)
    (hnot : ∀ rest, a.exitCode.isSome → t.callers t.current ≠ p :: rest) :
    SameFrame m.mem (m.trap a).1.mem p := by
  cases hexit : a.exitCode with
  | none => exact sameFrame_of_stay h hexit hp hne
  | some v =>
      obtain ⟨m₀, hk, htrap, hsame⟩ := trap_exit h hexit
      rw [htrap]
      refine (hsame p hp hne).trans ?_
      cases hcallers : t.callers t.current with
      | nil =>
          rw [exit_root h.settled.represents hk hcallers v]
          exact fun i _ => rfl
      | cons caller rest =>
          have hcaller : p ≠ caller := by
            rintro rfl
            refine hnot rest ?_ hcallers
            rw [hexit]
            rfl
          have hlt := (h.settled.represents.caller_eq hcallers).1.1
          have happart := frameOf_apart hp hlt hcaller
          intro i hi
          rw [(exit_child h hk hcallers v).2]
          apply setU32_outside
          unfold regsSize at hi happart
          unfold eaxOffset
          omega

/-! ## While the parent waits -/

/-- The process `p` waits for its child `c` above `rest` in the stack of session `s`, and
its frame is as in `mem`. -/
structure Waiting (mem : Buf) (s c p : Nat) (rest : List Nat) (m : Machine) (t : Sessions) :
    Prop where
  session : s < numSess
  stacked : ∃ above, t.stack s = above ++ c :: p :: rest
  frame : SameFrame mem m.mem p

section Waits

variable {mem : Buf} {s c p : Nat} {rest : List Nat}

/-- A process that waits is in use and does not run. -/
theorem Waiting.idle (h : Waiting mem s c p rest m t) (hr : Represents m.kernel t) :
    p < numProc ∧ p ≠ t.leaf t.current := by
  obtain ⟨above, hstack⟩ := h.stacked
  have hmem : p ∈ t.stack s := by
    rw [hstack]
    simp
  have hcaller : p ∈ t.callers s := by
    cases above with
    | nil =>
        have htail := (List.cons.inj hstack).2
        rw [htail]
        exact List.mem_cons_self
    | cons q above =>
        have htail := (List.cons.inj hstack).2
        rw [htail]
        simp
  refine ⟨((hr.mem s h.session p).mp hmem).1.1, ?_⟩
  rintro rfl
  exact (hr.runnable _ hr.current).ne_idle (hr.idle s h.session _ hcaller)

/-- Only the exit of its child resumes a process that waits. -/
theorem Waiting.resumed (h : Waiting mem s c p rest m t) (hr : Represents m.kernel t)
    {below : List Nat} (hcallers : t.callers t.current = p :: below) :
    t.current = s ∧ t.leaf s = c := by
  obtain ⟨above, hstack⟩ := h.stacked
  have hmem : p ∈ t.stack s := by
    rw [hstack]
    simp
  obtain ⟨-, hsess, -, -⟩ := hr.caller_eq hcallers
  have hs : t.current = s := hsess.symm.trans ((hr.mem s h.session p).mp hmem).2
  have hnodup := hr.nodup s h.session
  rw [Sessions.stack, ← hs, hcallers] at hnodup
  rw [Sessions.stack, ← hs, hcallers] at hstack
  have hfresh := (List.nodup_cons.mp (List.nodup_cons.mp hnodup).2).1
  refine ⟨hs, ?_⟩
  rw [← hs]
  cases above with
  | nil => exact (List.cons.inj hstack).1
  | cons q above =>
      -- another process above the child would have `p` twice in the stack
      have htail := (List.cons.inj hstack).2
      cases above with
      | nil =>
          have hbelow := (List.cons.inj htail).2
          rw [hbelow] at hfresh
          exact absurd List.mem_cons_self hfresh
      | cons q' above =>
          have hbelow := (List.cons.inj htail).2
          rw [hbelow] at hfresh
          exact absurd (by simp) hfresh

/-- Until the child exits, the process waits on. -/
theorem Waiting.trap (hw : Waiting mem s c p rest m t) (h : Sound m t)
    (hstay : ¬ (m.kernel.curProcPcb = some c ∧ a.exitCode.isSome)) :
    ∃ t', Sound (m.trap a).1 t' ∧ Waiting mem s c p rest (m.trap a).1 t' := by
  have hr := h.settled.represents
  obtain ⟨hp, hne⟩ := hw.idle hr
  have hexit : ∀ below, a.exitCode.isSome → t.callers t.current ≠ p :: below := by
    intro below hexit hcallers
    obtain ⟨hs, hleaf⟩ := hw.resumed hr hcallers
    apply hstay
    rw [hr.running, hs, hleaf]
    exact ⟨rfl, hexit⟩
  obtain ⟨t', h', hmoves⟩ := h.trap a
  refine ⟨t', h', hw.session, ?_, hw.frame.trans (sameFrame_trap h hp hne hexit)⟩
  obtain ⟨above, hstack⟩ := hw.stacked
  cases hmoves with
  | keep hsame => exact ⟨above, (hsame s).trans hstack⟩
  | @push c' hfree hparent hframe =>
      by_cases hs : s = t.current
      · refine ⟨c' :: above, ?_⟩
        rw [hs, Sessions.stack_push_current, ← hs, hstack, List.cons_append]
      · refine ⟨above, ?_⟩
        rw [Sessions.stack_push_of_ne _ _ hs, hstack]
  | @pop caller below hcallers hsome =>
      by_cases hs : s = t.current
      · cases above with
        | nil =>
            have hleaf : t.leaf s = c := (List.cons.inj hstack).1
            refine absurd ⟨?_, hsome⟩ hstay
            rw [hr.running, ← hs, hleaf]
        | cons q above =>
            refine ⟨above, ?_⟩
            have htail := (List.cons.inj hstack).2
            rw [hs, Sessions.stack_pop_current, ← hcallers, ← hs]
            exact htail
      · refine ⟨above, ?_⟩
        rw [Sessions.stack_pop_of_ne _ _ _ hs, hstack]

/-- When the child runs, it is at the top of the stack, right above its parent. -/
theorem Waiting.top (h : Waiting mem s c p rest m t) (hr : Represents m.kernel t)
    (hcur : m.kernel.curProcPcb = some c) : t.current = s ∧ t.callers s = p :: rest := by
  obtain ⟨above, hstack⟩ := h.stacked
  have hleaf : t.leaf t.current = c := Option.some_inj.mp (hr.running.symm.trans hcur)
  have hmem : c ∈ t.stack s := by
    rw [hstack]
    simp
  have hs : t.current = s := by
    rw [← ((hr.mem s h.session c).mp hmem).2, ← hleaf, (hr.leaf_alive hr.current).2]
  refine ⟨hs, ?_⟩
  have hnodup := hr.nodup s h.session
  rw [Sessions.stack, ← hs, hleaf, hs] at hnodup
  rw [Sessions.stack, ← hs, hleaf, hs] at hstack
  cases above with
  | nil => exact (List.cons.inj hstack).2
  | cons q above =>
      have htail := (List.cons.inj hstack).2
      rw [htail] at hnodup
      exact absurd (by simp) (List.nodup_cons.mp hnodup).1

end Waits
end Traps

/-! ## From the execute to the exit -/

/-- A step that is not the exit of the process `c`. -/
def StepBefore (c : Nat) (m m' : Machine) : Prop :=
  ∃ a : Trap, ¬ (m.kernel.curProcPcb = some c ∧ a.exitCode.isSome) ∧ m' = (m.trap a).1

/-- A process that waits for its child waits until the child exits. -/
theorem Waiting.run {mem : Buf} {s c p : Nat} {rest : List Nat} {m m' : Machine} {t : Sessions}
    (hw : Waiting mem s c p rest m t) (h : Sound m t)
    (hrun : Relation.ReflTransGen (StepBefore c) m m') :
    ∃ t', Sound m' t' ∧ Waiting mem s c p rest m' t' := by
  induction hrun with
  | refl => exact ⟨t, h, hw⟩
  | tail _ hstep ih =>
      obtain ⟨t', h', hw'⟩ := ih
      obtain ⟨a, hstay, rfl⟩ := hstep
      exact hw'.trap h' hstay

/-- After the call of `sys_execute` the parent waits, with the registers of the call in its
frame. -/
theorem Sound.execute {m m₁ : Machine} {t : Sessions} (h : Sound m t) {r : Regs}
    {image : Option Nat} {c entryPoint : Nat} (hcall : r.origEax = sysExecuteNum)
    (hexec : m.trap (.syscall r image) = (m₁, some (.enter c entryPoint))) :
    m₁.curRegs = frameOf (t.leaf t.current) ∧
      (∀ i < regsSize, m₁.mem (frameOf (t.leaf t.current) + i) = wordBytes r.words i) ∧
      ∃ t₁, Sound m₁ t₁ ∧
        Waiting m₁.mem t.current c (t.leaf t.current) (t.callers t.current) m₁ t₁ := by
  have hr := h.settled.represents
  have hhalt : r.origEax ≠ sysHaltNum := by
    rw [hcall]
    decide
  have hregs : m.kernel.tssEsp0 - regsSize = frameOf (t.leaf t.current) := by
    rw [h.inPlace.stack]
    rfl
  obtain ⟨t₁, h₁, -⟩ := h.trap (.syscall r image)
  rw [hexec] at h₁
  unfold Machine.trap Machine.doSys at hexec
  simp only [] at hexec
  rw [if_neg hhalt, if_pos hcall, kernel_pushRegs, hregs] at hexec
  rcases sysExecute_parents hr (frameOf (t.leaf t.current)) image with
    ⟨hret, -⟩ | ⟨c', entryPoint', henter, -, h', -⟩
  · generalize sysExecute m.kernel (frameOf (t.leaf t.current)) image = result at hret hexec
    obtain ⟨k, transfer⟩ := result
    obtain rfl : transfer = .ret (-1) := hret
    cases hexec
  · generalize sysExecute m.kernel (frameOf (t.leaf t.current)) image = result at henter hexec h'
    obtain ⟨k, transfer⟩ := result
    obtain rfl : transfer = .enter c' entryPoint' := henter
    have hm₁ := congrArg Prod.fst hexec
    have htransfer := congrArg Prod.snd hexec
    simp only [Machine.goOn] at hm₁ htransfer
    rw [Option.some_inj, Transfer.enter.injEq] at htransfer
    obtain ⟨rfl, rfl⟩ := htransfer
    subst hm₁
    have hleaf : t₁.leaf t₁.current = (t.push c').leaf (t.push c').current :=
      Option.some_inj.mp (h₁.settled.represents.running.symm.trans h'.running)
    have hsound := h₁.inPlace
    rw [hleaf] at hsound
    refine ⟨rfl, fun i hi => mem_pushRegs h.inPlace r hi, t.push c',
      ⟨⟨h', h₁.settled.displayed, h₁.settled.cached, h₁.settled.aligned⟩, hsound, h₁.parked⟩,
      hr.current, ⟨[], Sessions.stack_push_current t c'⟩, fun i _ => rfl⟩

/-- The exit of the child resumes the parent on the frame of its call. -/
theorem Waiting.exit {mem : Buf} {s c p : Nat} {rest : List Nat} {m₂ : Machine} {t₂ : Sessions}
    (hw : Waiting mem s c p rest m₂ t₂) (h : Sound m₂ t₂) (hcur : m₂.kernel.curProcPcb = some c)
    {r : Regs} (hregs : ∀ i < regsSize, mem (frameOf p + i) = wordBytes r.words i)
    {a : Trap} {v : Int} (hexit : a.exitCode = some v) :
    (m₂.trap a).2 = some (.resume (frameOf p) v) ∧
      loadRegs (m₂.trap a).1.mem (frameOf p) = { r with eax := BitVec.ofInt 32 v } ∧
      (m₂.trap a).1.kernel.procStatus p = .active ∧
      ∃ t', Sound (m₂.trap a).1 t' ∧ t'.current = s ∧ t'.stack s = p :: rest := by
  have hr := h.settled.represents
  obtain ⟨hs, hcallers⟩ := hw.top hr hcur
  obtain ⟨hp, hne⟩ := hw.idle hr
  obtain ⟨m₀, hk, htrap, hsame⟩ := trap_exit h hexit
  rw [← hs] at hcallers
  obtain ⟨hresume, hmem⟩ := exit_child h hk hcallers v
  obtain ⟨t', h', -⟩ := h.trap a
  have hkernel : (m₂.trap a).1.kernel = (killPid m₂.kernel (t₂.leaf t₂.current) v).1 := by
    rw [htrap, kernel_exit, hk]
    unfold perform
    simp only [hr.running, hr.running_pid]
  have hframe : loadRegs m₀.mem (frameOf p) = r := by
    apply loadRegs_eq
    intro i hi
    rw [hsame p hp hne i hi, hw.frame i hi, hregs i hi]
  have hrun : (killPid m₂.kernel (t₂.leaf t₂.current) v).1.curProcPcb = some p := by
    have hparent := (hr.caller_eq hcallers).2.2.2
    have hroot : (m₂.kernel.pcb (t₂.leaf t₂.current)).parentPid ≠ numProc := by
      rw [hparent]
      omega
    unfold killPid
    simp only [if_neg hroot]
    rw [hparent]
  rcases hr.killPid_effect v with ⟨hquiet, -, -⟩ | ⟨caller, below, hcallers', hpop, hstatus, -⟩
  · have hstays := hquiet.running
    rw [hrun, hr.running] at hstays
    exact absurd (Option.some_inj.mp hstays) hne
  · rw [hcallers, List.cons.injEq] at hcallers'
    obtain ⟨rfl, rfl⟩ := hcallers'
    rw [← hkernel] at hpop hstatus
    have hleaf : t'.leaf t'.current = (t₂.pop p rest).leaf (t₂.pop p rest).current :=
      Option.some_inj.mp (h'.settled.represents.running.symm.trans hpop.running)
    have hplace := h'.inPlace
    rw [hleaf] at hplace
    refine ⟨?_, ?_, ?_, t₂.pop p rest,
      ⟨⟨hpop, h'.settled.displayed, h'.settled.cached, h'.settled.aligned⟩, hplace, h'.parked⟩,
      hs, ?_⟩
    · rw [htrap, hresume]
    · rw [htrap, hmem, loadRegs_setU32_eax, hframe]
    · rw [hstatus, Function.update_self]
    · rw [← hs]
      exact Sessions.stack_pop_current t₂ p rest

end Process
end NochOS
