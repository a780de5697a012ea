import NochOS.Library.Bytes
import Mathlib.Data.List.Basic

/-!
# Processes - the process table and the operations on it

This module embeds the parts of `proc.c`, `sched.c`, `syscall.c` and `terminal.c`
that create, end and schedule processes.  A pointer to a process control block is
the number of the slot `get_pcb_by_pid` computes it from.  The file system's answer
to a command is a parameter: the entry point of the program it names, or nothing
when the command is null, names no file or names a file that is not a program.
Open files, signals and the argument buffers are not part of this state.

Main results:

- Definitions `sysExecute`, `killPid`, `doSched`: the three operations that write
  the process table, with the place where execution goes on.
- Theorem `getNextPid_cases`: what the search for a process with a given status
  returns.
-/

namespace NochOS
namespace Process

/-- `NUM_PROC`. -/
def numProc : Nat := 6

/-- `NUM_SESS`. -/
def numSess : Nat := 3

/-- `KSTACK_SIZE`. -/
def kstackSize : Nat := 0x2000

/-- `KERNEL_BOT`. -/
def kernelBot : Nat := 0x800000

/-- `PROG_PAGE_SIZE`. -/
def progPageSize : Nat := 0x400000

/-- `USER_VIRT_TOP`. -/
def userVirtTop : Nat := 0x8000000

/-- `VMEM_VIRT_START`. -/
def vmemVirtStart : Nat := 0x8400000

/-- `VIDEO`. -/
def video : Nat := 0xB8000

/-- `VIDMEM_SIZE`. -/
def vidmemSize : Nat := 0x1000

/-- `TIME_QUANTUM`. -/
def timeQuantum : Nat := 30

/-- `EN_P`. -/
def enP : BitVec 32 := 0x1#32

/-- `EN_RW`. -/
def enRw : BitVec 32 := 0x2#32

/-- `EN_US`. -/
def enUs : BitVec 32 := 0x4#32

/-- `EN_A`. -/
def enA : BitVec 32 := 0x20#32

/-- `EN_PS`. -/
def enPs : BitVec 32 := 0x80#32

/-! ## State -/

/-- The values of a `proc_status` entry. -/
inductive ProcStatus
  | inactive
  | active
  | daemon
  | pending
  | idle
deriving DecidableEq, Repr

/-- The fields of `pcb_t` that the operations of this module use. -/
structure Pcb where
  pid : Nat
  parentPid : Nat
  parentEsp : Nat
  kernelEsp : Nat
  kernelEbp : Nat
  uptime : Nat
  activeSess : Nat

/-- The fields of `sess_t` that the operations of this module use. -/
structure Sess where
  cachedVidmem : Nat
  saPcb : Option Nat

/-- What the process operations read and write.  `progPageTableAddr` is the
address of `prog_page_table`. -/
structure Kernel where
  procStatus : Nat → ProcStatus
  pcb : Nat → Pcb
  curProcPcb : Option Nat
  sessDesc : Nat → Sess
  curSessId : Nat
  pageDirectory : Nat → BitVec 32
  progPageTable : Nat → BitVec 32
  progPageTableAddr : BitVec 32
  tssEsp0 : Nat

/-- Where execution goes on after an operation. -/
inductive Transfer
  /-- back to the caller with a value -/
  | ret (value : Int)
  /-- to the entry point of the program of a process, on a fresh user stack -/
  | enter (pid entryPoint : Nat)
  /-- to the register frame at an address, with a new value of `eax` -/
  | resume (frame : Nat) (eax : Int)
  /-- to the interrupted kernel stack of a process -/
  | restore (esp ebp : Nat)
  /-- nowhere: a loop that only an interrupt leaves -/
  | spin
  /-- a null pointer is dereferenced -/
  | fault
deriving DecidableEq

/-! ## Paging and sessions -/

/-- `map_virtual_4mb`. -/
def mapVirtual4mb (k : Kernel) (physStart virtStart : Nat) : Kernel :=
  { k with
    pageDirectory := Function.update k.pageDirectory (virtStart / 2 ^ 22)
      ((BitVec.ofNat 32 physStart &&& 0xFFC00000#32 &&& ~~~enA) ||| enP ||| enRw ||| enUs |||
        enPs) }

/-- `map_virtual_4kb_prog`. -/
def mapVirtual4kbProg (k : Kernel) (physStart virtStart : Nat) : Kernel :=
  { k with
    pageDirectory := Function.update k.pageDirectory (virtStart / 2 ^ 22)
      ((k.progPageTableAddr &&& 0xFFFFF000#32 &&& ~~~enA) ||| enP ||| enRw ||| enUs)
    progPageTable := Function.update k.progPageTable (virtStart * 2 ^ 10 % 2 ^ 32 / 2 ^ 22)
      ((BitVec.ofNat 32 physStart &&& 0xFFFFF000#32 &&& ~~~enA) ||| enP ||| enRw ||| enUs) }

/-- The choice every switch of processes makes for the video page: `VIDEO` when
the process belongs to the displayed session, else the cached screen of `session`. -/
def mapVidmem (k : Kernel) (pcb : Pcb) (session : Nat) : Kernel :=
  if pcb.activeSess = k.curSessId then mapVirtual4kbProg k video vmemVirtStart
  else mapVirtual4kbProg k (k.sessDesc session).cachedVidmem vmemVirtStart

/-- `link_sa_pcb`. -/
def linkSaPcb (k : Kernel) (targetPcb : Option Nat) (sessNum : Nat) : Kernel :=
  if targetPcb = none ∨ numSess ≤ sessNum then k
  else
    { k with
      sessDesc := Function.update k.sessDesc sessNum
        { k.sessDesc sessNum with saPcb := targetPcb } }

/-- `get_cached_vidmem`. -/
def getCachedVidmem (sessId : Nat) : Nat := video + vidmemSize + vidmemSize * sessId

/-! ## proc.c -/

/-- `get_esp0_by_pid`. -/
def getEsp0ByPid (pid : Nat) : Nat := kernelBot - kstackSize * pid - 4

/-- `get_phys_addr_by_pid`. -/
def getPhysAddrByPid (pid : Nat) : Nat := kernelBot + pid * progPageSize

/-- The assignment `proc_status[pid] = status`. -/
def setStatus (k : Kernel) (pid : Nat) (status : ProcStatus) : Kernel :=
  { k with procStatus := Function.update k.procStatus pid status }

/-- `query_proc_status`. -/
def queryProcStatus (k : Kernel) (status : ProcStatus) : Nat :=
  (List.range numProc).countP fun i => k.procStatus i = status

/-- `get_next_pid`. -/
def getNextPid (k : Kernel) (curPid : Nat) (status : ProcStatus) : Nat :=
  ((List.range' (curPid + 1) (numProc - (curPid + 1)) ++ List.range curPid).find?
    fun i => k.procStatus i = status).getD numProc

/-- `child_pcb_init`. -/
def childPcbInit (k : Kernel) (parentPcb : Option Nat) : Option (Nat × Kernel) :=
  let found :=
    match parentPcb with
    | none => some 0
    | some _ => (List.range numProc).find? fun i => k.procStatus i = .inactive
  match found with
  | none => none
  | some childPid =>
      let old := k.pcb childPid
      let child :=
        match parentPcb with
        | none => { old with pid := childPid, uptime := 0 }
        | some parent =>
            { old with
              pid := childPid
              parentPid := (k.pcb parent).pid
              activeSess := (k.pcb parent).activeSess
              uptime := 0 }
      some (childPid,
        { setStatus k childPid .active with pcb := Function.update k.pcb childPid child })

/-- `kill_pid`. -/
def killPid (k : Kernel) (pid : Nat) (exitCode : Int) : Kernel × Transfer :=
  let child := k.pcb pid
  if child.parentPid = numProc then
    let k := { k with pcb := Function.update k.pcb pid { child with uptime := 0 } }
    (setStatus k pid .pending, .spin)
  else
    let parent := child.parentPid
    let k := setStatus k child.pid .inactive
    let k := setStatus k (k.pcb parent).pid .active
    let k := linkSaPcb k (some parent) k.curSessId
    let k := mapVirtual4mb k (getPhysAddrByPid (k.pcb parent).pid) userVirtTop
    let k := mapVidmem k (k.pcb parent) (k.pcb parent).activeSess
    ({ k with tssEsp0 := getEsp0ByPid child.parentPid, curProcPcb := some parent },
      .resume child.parentEsp exitCode)

/-! ## syscall.c -/

/-- `sys_execute`.  `image` is the entry point of the program the command names;
`curRegs` is the register frame of the call. -/
def sysExecute (k : Kernel) (curRegs : Nat) (image : Option Nat) : Kernel × Transfer :=
  let full :=
    match k.curProcPcb with
    | none => false
    | some cur => getNextPid k (k.pcb cur).pid .inactive = numProc
  if full then (k, .ret (-1))
  else
    let k :=
      match k.curProcPcb with
      | none => k
      | some cur => setStatus k (k.pcb cur).pid .idle
    match image with
    | none =>
        match k.curProcPcb with
        | none => (k, .fault)
        | some cur => (setStatus k (k.pcb cur).pid .daemon, .ret (-1))
    | some entryPoint =>
        match childPcbInit k k.curProcPcb with
        | none => (k, .fault)
        | some (child, k) =>
            let k := { k with curProcPcb := some child }
            let k := linkSaPcb k (some child) k.curSessId
            let k :=
              { k with
                pcb := Function.update k.pcb child { k.pcb child with parentEsp := curRegs } }
            let k := mapVirtual4mb k (getPhysAddrByPid (k.pcb child).pid) userVirtTop
            let k := mapVidmem k (k.pcb child) k.curSessId
            ({ k with tssEsp0 := getEsp0ByPid (k.pcb child).pid },
              .enter (k.pcb child).pid entryPoint)

/-! ## sched.c -/

/-- The process `do_sched` switches to, once the running one has been set aside:
the next one whose shell awaits loading, the running one if it alone does, else
the next one in the background. -/
def schedNext (k : Kernel) (thisPid : Nat) : Nat :=
  if queryProcStatus k .pending ≠ 0 then
    if getNextPid k thisPid .pending = numProc then thisPid else getNextPid k thisPid .pending
  else getNextPid k thisPid .daemon

/-- The first assignment of `do_sched`: an active process becomes a daemon. -/
def setAside (k : Kernel) (thisPid : Nat) : Kernel :=
  if k.procStatus thisPid = .active then setStatus k thisPid .daemon else k

/-- What both branches of `do_sched` do for the process they switch to; `frame`
is the process whose physical page each of them maps. -/
def switchTo (k : Kernel) (next frame : Nat) : Kernel :=
  let k := mapVirtual4mb k (getPhysAddrByPid frame) userVirtTop
  let k := mapVidmem k (k.pcb next) (k.pcb next).activeSess
  { k with
    tssEsp0 := getEsp0ByPid (k.pcb next).pid
    curProcPcb := some next
    pcb := Function.update k.pcb next
      { k.pcb next with uptime := ((k.pcb next).uptime + timeQuantum) % 2 ^ 32 } }

/-- `do_sched`.  `shell` is the entry point of the shell program and `ebp` the
frame pointer of the call. -/
def doSched (k : Kernel) (shell ebp : Nat) : Kernel × Transfer :=
  if queryProcStatus k .inactive = numProc then (k, .ret 0)
  else
    match k.curProcPcb with
    | none => (k, .fault)
    | some this =>
        let thisPid := (k.pcb this).pid
        let k := setAside k thisPid
        let next := schedNext k thisPid
        if queryProcStatus k .pending ≠ 0 then
          (setStatus (switchTo k next (k.pcb next).pid) next .active,
            .enter (k.pcb next).pid shell)
        else
          let k' := switchTo k next next
          ({ k' with pcb := Function.update k'.pcb this { k'.pcb this with kernelEbp := ebp } },
            .restore (k'.pcb next).kernelEsp
              (if next = this then ebp else (k'.pcb next).kernelEbp))

/-- The part of `do_irq` that runs before the timer's `do_sched`: the running
process keeps the place where it was interrupted. -/
def saveKernelEsp (k : Kernel) (regs : Nat) : Kernel :=
  match k.curProcPcb with
  | none => k
  | some cur =>
      { k with pcb := Function.update k.pcb cur { k.pcb cur with kernelEsp := regs } }

/-! ## terminal.c -/

/-- `startup_envir_init`, as far as it concerns the process table. -/
def startupEnvirInit (k : Kernel) : Kernel :=
  (List.range numSess).foldl
    (fun k curPid =>
      setStatus
        { k with
          pcb := Function.update k.pcb curPid
            { k.pcb curPid with pid := curPid, parentPid := numProc, activeSess := curPid } }
        curPid .pending) k

/-- `terminal_init`, as far as it concerns processes and the saved screens. -/
def terminalInit (k : Kernel) : Kernel :=
  let k :=
    { k with
      sessDesc := fun i =>
        if i < numSess then { k.sessDesc i with cachedVidmem := getCachedVidmem i }
        else k.sessDesc i }
  let k := startupEnvirInit k
  setStatus { k with curSessId := 0 } 0 .active

/-! ## Searching the table -/

/-- A search of the process table finds another process with the status it looks
for, or returns `NUM_PROC` when no other process has it. -/
theorem getNextPid_cases (k : Kernel) {curPid : Nat} (hcur : curPid < numProc)
    (status : ProcStatus) :
    (getNextPid k curPid status < numProc ∧ getNextPid k curPid status ≠ curPid ∧
        k.procStatus (getNextPid k curPid status) = status) ∨
      (getNextPid k curPid status = numProc ∧
        ∀ i < numProc, i ≠ curPid → k.procStatus i ≠ status) := by
  have hmem : ∀ i, i ∈ List.range' (curPid + 1) (numProc - (curPid + 1)) ++ List.range curPid ↔
      i < numProc ∧ i ≠ curPid := by
    intro i
    rw [List.mem_append, List.mem_range'_1, List.mem_range]
    omega
  unfold getNextPid
  cases hfind : (List.range' (curPid + 1) (numProc - (curPid + 1)) ++ List.range curPid).find?
      fun i => k.procStatus i = status with
  | none =>
      right
      refine ⟨rfl, fun i hi hne => ?_⟩
      have hnot := List.find?_eq_none.mp hfind i ((hmem i).mpr ⟨hi, hne⟩)
      simpa using hnot
  | some i =>
      left
      have hin := (hmem i).mp (List.mem_of_find?_eq_some hfind)
      have hstatus := List.find?_some hfind
      exact ⟨hin.1, hin.2, by simpa using hstatus⟩

/-- Some process has a status exactly when counting finds one. -/
theorem queryProcStatus_ne_zero (k : Kernel) (status : ProcStatus) :
    queryProcStatus k status ≠ 0 ↔ ∃ i < numProc, k.procStatus i = status := by
  unfold queryProcStatus
  rw [Nat.ne_zero_iff_zero_lt, List.countP_pos_iff]
  simp

/-- Counting finds fewer than all processes when one has another status. -/
theorem queryProcStatus_ne_numProc {k : Kernel} {status : ProcStatus} {i : Nat}
    (hi : i < numProc) (hne : k.procStatus i ≠ status) : queryProcStatus k status ≠ numProc := by
  intro hall
  have hlen : (List.range numProc).length = numProc := List.length_range
  have hevery := List.countP_eq_length.mp (hall.trans hlen.symm) i (List.mem_range.mpr hi)
  exact hne (by simpa using hevery)

/-! ## The exits of sys_execute -/

/-- `sys_execute` without a free slot. -/
theorem sysExecute_full {k : Kernel} {cur : Nat} (hcur : k.curProcPcb = some cur)
    (hfull : getNextPid k (k.pcb cur).pid .inactive = numProc) (regs : Nat) (image : Option Nat) :
    sysExecute k regs image = (k, .ret (-1)) := by
  simp [sysExecute, hcur, hfull]

/-- `sys_execute` of a command that names no program. -/
theorem sysExecute_none {k : Kernel} {cur : Nat} (hcur : k.curProcPcb = some cur)
    (hfull : getNextPid k (k.pcb cur).pid .inactive ≠ numProc) (regs : Nat) :
    sysExecute k regs none =
      (setStatus (setStatus k (k.pcb cur).pid .idle) (k.pcb cur).pid .daemon, .ret (-1)) := by
  simp [sysExecute, hcur, hfull, setStatus]

/-- With a free slot and a program `sys_execute` does not return. -/
theorem sysExecute_leaves (k : Kernel) (regs : Nat) (image : Option Nat)
    (h : ∀ cur, k.curProcPcb = some cur →
      getNextPid k (k.pcb cur).pid .inactive ≠ numProc ∧ image ≠ none) (value : Int) :
    (sysExecute k regs image).2 ≠ .ret value := by
  cases hcur : k.curProcPcb with
  | none =>
      cases image with
      | none => simp [sysExecute, hcur]
      | some entryPoint => simp [sysExecute, hcur, childPcbInit]
  | some cur =>
      obtain ⟨hfull, himage⟩ := h cur hcur
      obtain ⟨entryPoint, rfl⟩ := Option.ne_none_iff_exists'.mp himage
      simp only [sysExecute, hcur, hfull, decide_false, Bool.false_eq_true, if_false]
      cases childPcbInit (setStatus k (k.pcb cur).pid .idle)
          (setStatus k (k.pcb cur).pid .idle).curProcPcb with
      | none => exact Transfer.noConfusion
      | some child => exact Transfer.noConfusion

/-- The process 0 runs, and no other one. -/
def alone : Kernel where
  procStatus pid := if pid = 0 then .active else .inactive
  pcb pid := ⟨pid, numProc, 0, 0, 0, 0, 0⟩
  curProcPcb := some 0
  sessDesc sess := ⟨getCachedVidmem sess, none⟩
  curSessId := 0
  pageDirectory _ := 0
  progPageTable _ := 0
  progPageTableAddr := 0
  tssEsp0 := getEsp0ByPid 0

end Process
end NochOS
