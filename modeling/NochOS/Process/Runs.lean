import NochOS.Process.Sessions
import NochOS.Library.Transition

/-!
# Processes - the process table over whole runs

The boot state holds three stacks of one root shell each.  Every successful and
failed `sys_execute`, every exit and every `do_sched` is one of the abstract stack
operations, so that the table holds three stacks in every reachable state.

Main results:

- Theorems `Represents.sysExecute`, `Represents.killPid`, `Represents.doSched`:
  each operation of the source follows an operation on the stacks.
- Theorem `processes_ordered`: in every reachable state each session has exactly
  one runnable process, which is the leaf of its chain, everything else in the
  session waits above it, and neither `sys_execute` nor `do_sched` picks a
  process it must not pick.
-/

namespace NochOS
namespace Process

open Library

/-! ## Operations that leave the process table alone -/

section Untouched

variable (k : Kernel)

@[simp] theorem procStatus_mapVirtual4mb (physStart virtStart : Nat) :
    (mapVirtual4mb k physStart virtStart).procStatus = k.procStatus := rfl

@[simp] theorem pcb_mapVirtual4mb (physStart virtStart : Nat) :
    (mapVirtual4mb k physStart virtStart).pcb = k.pcb := rfl

@[simp] theorem curProcPcb_mapVirtual4mb (physStart virtStart : Nat) :
    (mapVirtual4mb k physStart virtStart).curProcPcb = k.curProcPcb := rfl

@[simp] theorem curProcPcb_mapVidmem (pcb : Pcb) (session : Nat) :
    (mapVidmem k pcb session).curProcPcb = k.curProcPcb := by
  unfold mapVidmem
  split <;> rfl

@[simp] theorem curProcPcb_linkSaPcb (targetPcb : Option Nat) (sessNum : Nat) :
    (linkSaPcb k targetPcb sessNum).curProcPcb = k.curProcPcb := by
  unfold linkSaPcb
  split <;> rfl

@[simp] theorem procStatus_mapVidmem (pcb : Pcb) (session : Nat) :
    (mapVidmem k pcb session).procStatus = k.procStatus := by
  unfold mapVidmem
  split <;> rfl

@[simp] theorem pcb_mapVidmem (pcb : Pcb) (session : Nat) :
    (mapVidmem k pcb session).pcb = k.pcb := by
  unfold mapVidmem
  split <;> rfl

@[simp] theorem procStatus_linkSaPcb (targetPcb : Option Nat) (sessNum : Nat) :
    (linkSaPcb k targetPcb sessNum).procStatus = k.procStatus := by
  unfold linkSaPcb
  split <;> rfl

@[simp] theorem pcb_linkSaPcb (targetPcb : Option Nat) (sessNum : Nat) :
    (linkSaPcb k targetPcb sessNum).pcb = k.pcb := by
  unfold linkSaPcb
  split <;> rfl

@[simp] theorem procStatus_setStatus (pid : Nat) (status : ProcStatus) :
    (setStatus k pid status).procStatus = Function.update k.procStatus pid status := rfl

@[simp] theorem pcb_setStatus (pid : Nat) (status : ProcStatus) :
    (setStatus k pid status).pcb = k.pcb := rfl

@[simp] theorem curProcPcb_setStatus (pid : Nat) (status : ProcStatus) :
    (setStatus k pid status).curProcPcb = k.curProcPcb := rfl

end Untouched

/-- A change of one control block outside its identity. -/
theorem sameIdentity_update {k k' : Kernel} {q : Nat} {new : Pcb}
    (hpcb : k'.pcb = Function.update k.pcb q new) (hpid : new.pid = (k.pcb q).pid)
    (hparent : new.parentPid = (k.pcb q).parentPid)
    (hsess : new.activeSess = (k.pcb q).activeSess) (p : Nat) : SameIdentity k k' p := by
  unfold SameIdentity
  rw [hpcb]
  by_cases hp : p = q
  · subst hp
    rw [Function.update_self]
    exact ⟨hpid, hparent, hsess⟩
  · rw [Function.update_of_ne hp]
    exact ⟨rfl, rfl, rfl⟩

namespace Represents

variable {k k' : Kernel} {t : Sessions}

theorem running_pid (h : Represents k t) :
    (k.pcb (t.leaf t.current)).pid = t.leaf t.current := h.leaf_pid h.current

theorem running_lt (h : Represents k t) : t.leaf t.current < numProc :=
  (h.leaf_alive h.current).1.1

/-- A state with the same table, running process and identities holds the same
stacks. -/
theorem congr (h : Represents k t) (hstatus : k'.procStatus = k.procStatus)
    (hcur : k'.curProcPcb = k.curProcPcb) (hid : ∀ p, SameIdentity k k' p) :
    Represents k' t := by
  refine h.restatus h.current (hcur.trans h.running) hid (fun p _ => by rw [hstatus]) ?_ ?_
  · intro s hs
    rw [hstatus]
    exact h.runnable s hs
  · intro s hs hne
    rw [hstatus]
    exact h.waiting s hs hne

/-- Another runnable status of the running process. -/
theorem restatus_running (h : Represents k t) {status : ProcStatus} (hrun : status.Runnable)
    (hcur : k'.curProcPcb = k.curProcPcb) (hid : ∀ p, SameIdentity k k' p)
    (hstatus : k'.procStatus = Function.update k.procStatus (t.leaf t.current) status) :
    Represents k' t := by
  refine h.restatus h.current (hcur.trans h.running) hid ?_ ?_ ?_
  · intro p hp
    rw [hstatus, Function.update_of_ne (hp _ h.current)]
  · intro s hs
    rw [hstatus]
    by_cases hsc : s = t.current
    · rw [hsc, Function.update_self]
      exact hrun
    · rw [Function.update_of_ne (h.leaf_ne hs h.current hsc)]
      exact h.runnable s hs
  · intro s hs hsc
    rw [hstatus, Function.update_of_ne (h.leaf_ne hs h.current hsc)]
    exact h.waiting s hs hsc

/-! ## sys_execute -/

/-- The slot a new process gets was not in use. -/
theorem childPcbInit_spec (h : Represents k t)
    (hroom : getNextPid k (t.leaf t.current) .inactive ≠ numProc) :
    ∃ c k₁, c < numProc ∧ k.procStatus c = .inactive ∧
      childPcbInit (setStatus k (t.leaf t.current) .idle) (some (t.leaf t.current)) =
        some (c, k₁) ∧
      k₁.procStatus =
        Function.update (Function.update k.procStatus (t.leaf t.current) .idle) c .active ∧
      k₁.pcb = Function.update k.pcb c
        { k.pcb c with
          pid := c
          parentPid := t.leaf t.current
          activeSess := t.current
          uptime := 0 } := by
  have hfree : ∃ i < numProc, i ≠ t.leaf t.current ∧ k.procStatus i = .inactive := by
    rcases getNextPid_cases k h.running_lt .inactive with ⟨hlt, hne, hst⟩ | ⟨hfull, -⟩
    · exact ⟨_, hlt, hne, hst⟩
    · exact absurd hfull hroom
  obtain ⟨i, hi, hine, hist⟩ := hfree
  cases hfind : (List.range numProc).find? fun i =>
      (setStatus k (t.leaf t.current) .idle).procStatus i = .inactive with
  | none =>
      have hnot := List.find?_eq_none.mp hfind i (List.mem_range.mpr hi)
      rw [decide_eq_true_eq, procStatus_setStatus, Function.update_of_ne hine] at hnot
      exact absurd hist hnot
  | some c =>
      have hlt := List.mem_range.mp (List.mem_of_find?_eq_some hfind)
      have hfound := List.find?_some hfind
      have hst := of_decide_eq_true hfound
      rw [procStatus_setStatus] at hst
      have hne : c ≠ t.leaf t.current := by
        rintro rfl
        simp at hst
      rw [Function.update_of_ne hne] at hst
      have hsess : (k.pcb (t.leaf t.current)).activeSess = t.current := (h.leaf_alive h.current).2
      simp only [childPcbInit, hfind, pcb_setStatus, h.running_pid, hsess]
      exact ⟨c, _, hlt, hst, rfl, rfl, rfl⟩

/-- `sys_execute` leaves the stacks as they are and returns -1, or puts a process
that was not in use on top of the running stack. -/
theorem sysExecute (h : Represents k t) (curRegs : Nat) (image : Option Nat) :
    ((Process.sysExecute k curRegs image).2 = .ret (-1) ∧
        Represents (Process.sysExecute k curRegs image).1 t) ∨
      ∃ c entryPoint, c < numProc ∧ k.procStatus c = .inactive ∧
        (Process.sysExecute k curRegs image).2 = .enter c entryPoint ∧
        Represents (Process.sysExecute k curRegs image).1 (t.push c) := by
  by_cases hfull : getNextPid k (t.leaf t.current) .inactive = numProc
  · left
    have heq : Process.sysExecute k curRegs image = (k, .ret (-1)) := by
      simp [Process.sysExecute, h.running, h.running_pid, hfull]
    rw [heq]
    exact ⟨rfl, h⟩
  · cases image with
    | none =>
        left
        have heq : Process.sysExecute k curRegs none =
            (setStatus (setStatus k (t.leaf t.current) .idle) (t.leaf t.current) .daemon,
              .ret (-1)) := by
          simp [Process.sysExecute, h.running, h.running_pid, hfull]
        rw [heq]
        refine ⟨rfl, h.restatus_running ProcStatus.runnable_daemon rfl
          (fun p => ⟨rfl, rfl, rfl⟩) ?_⟩
        simp
    | some entryPoint =>
        right
        obtain ⟨c, k₁, hc, hfree, hinit, hstatus, hpcb⟩ := h.childPcbInit_spec hfull
        have hexec : ∃ k₂, Process.sysExecute k curRegs (some entryPoint) =
              (k₂, .enter c entryPoint) ∧ k₂.procStatus = k₁.procStatus ∧
            k₂.curProcPcb = some c ∧
            k₂.pcb = Function.update k₁.pcb c { k₁.pcb c with parentEsp := curRegs } := by
          simp [Process.sysExecute, h.running, h.running_pid, hfull, hinit, hpcb]
        obtain ⟨k₂, heq, hstatus₂, hcur₂, hpcb₂⟩ := hexec
        rw [heq]
        refine ⟨c, entryPoint, hc, hfree, rfl, ?_⟩
        apply h.push hc hfree hcur₂
        · intro p hp
          simp [SameIdentity, hpcb₂, hpcb, hp]
        · simp [hpcb₂, hpcb]
        · simp [Kernel.CalledBy, hpcb₂, hpcb]
        · simp [Kernel.sess, hpcb₂, hpcb]
        · exact hstatus₂.trans hstatus

/-! ## kill_pid -/

/-- `kill_pid` on the running process makes a root wait for a new shell and takes
any other process off its stack. -/
theorem killPid (h : Represents k t) (exitCode : Int) :
    Represents (Process.killPid k (t.leaf t.current) exitCode).1 t ∨
      ∃ caller rest, t.callers t.current = caller :: rest ∧
        Represents (Process.killPid k (t.leaf t.current) exitCode).1 (t.pop caller rest) := by
  have hlink := h.linked _ h.current
  by_cases hroot : (k.pcb (t.leaf t.current)).parentPid = numProc
  · left
    simp only [Process.killPid, if_pos hroot]
    exact h.restatus_running ProcStatus.runnable_pending rfl
      (sameIdentity_update rfl rfl rfl rfl) rfl
  · right
    cases hcallers : t.callers t.current with
    | nil =>
        simp only [Sessions.stack, hcallers, List.cons_append, List.nil_append] at hlink
        exact absurd (List.isChain_cons_cons.mp hlink).1 hroot
    | cons caller rest =>
        simp only [Sessions.stack, hcallers, List.cons_append] at hlink
        have hparent : (k.pcb (t.leaf t.current)).parentPid = caller :=
          (List.isChain_cons_cons.mp hlink).1
        have hmem : caller ∈ t.stack t.current := by
          rw [Sessions.stack, hcallers]
          simp
        have hpid : (k.pcb caller).pid = caller := h.pid _ ((h.mem _ h.current _).mp hmem).1
        refine ⟨caller, rest, rfl, h.pop hcallers ?_ (fun p => ?_) ?_⟩
        · simp only [Process.killPid, if_neg hroot]
          rw [hparent]
        · simp only [Process.killPid, if_neg hroot]
          exact ⟨by simp, by simp, by simp⟩
        · simp only [Process.killPid, if_neg hroot]
          simp [hparent, hpid, h.running_pid]

/-! ## do_sched -/

/-- Setting the running process aside leaves it runnable but not active. -/
theorem setAside (h : Represents k t) :
    Represents (Process.setAside k (t.leaf t.current)) t ∧
      ∀ s < numSess, (Process.setAside k (t.leaf t.current)).procStatus (t.leaf s) ≠ .active := by
  unfold Process.setAside
  by_cases hactive : k.procStatus (t.leaf t.current) = .active
  · rw [if_pos hactive]
    refine ⟨h.restatus_running ProcStatus.runnable_daemon rfl
      (fun p => ⟨rfl, rfl, rfl⟩) rfl, fun s hs => ?_⟩
    rw [procStatus_setStatus]
    by_cases hsc : s = t.current
    · rw [hsc, Function.update_self]
      decide
    · rw [Function.update_of_ne (h.leaf_ne hs h.current hsc)]
      exact h.waiting s hs hsc
  · rw [if_neg hactive]
    refine ⟨h, fun s hs => ?_⟩
    by_cases hsc : s = t.current
    · rw [hsc]
      exact hactive
    · exact h.waiting s hs hsc

/-- With no process active, the one `do_sched` picks is the top of some stack. -/
theorem schedNext_leaf (h : Represents k t)
    (haside : ∀ s < numSess, k.procStatus (t.leaf s) ≠ .active) :
    ∃ s < numSess, schedNext k (t.leaf t.current) = t.leaf s := by
  -- a process with a runnable status is the top of its own stack
  have htop : ∀ p < numProc, (k.procStatus p).Runnable → ∃ s < numSess, p = t.leaf s := by
    intro p hp hrun
    have halive : k.Alive p := ⟨hp, hrun.ne_inactive⟩
    exact ⟨k.sess p, h.bound p halive, h.eq_leaf halive hrun⟩
  unfold schedNext
  by_cases hpending : queryProcStatus k .pending ≠ 0
  · rw [if_pos hpending]
    by_cases hself : getNextPid k (t.leaf t.current) .pending = numProc
    · rw [if_pos hself]
      exact ⟨t.current, h.current, rfl⟩
    · rw [if_neg hself]
      rcases getNextPid_cases k h.running_lt .pending with ⟨hlt, -, hst⟩ | ⟨hfull, -⟩
      · exact htop _ hlt (Or.inr (Or.inr hst))
      · exact absurd hfull hself
  · rw [if_neg hpending]
    rcases getNextPid_cases k h.running_lt .daemon with ⟨hlt, -, hst⟩ | ⟨-, hnone⟩
    · exact htop _ hlt (Or.inr (Or.inl hst))
    · -- the top of another stack is neither active nor pending, so the search finds it
      obtain ⟨s, hs, hsc⟩ : ∃ s < numSess, s ≠ t.current := by
        by_cases hzero : t.current = 0
        · exact ⟨1, by decide, by omega⟩
        · exact ⟨0, by decide, by omega⟩
      have hlt := (h.leaf_alive hs).1.1
      have hnotdaemon := hnone _ hlt (h.leaf_ne hs h.current hsc)
      rw [queryProcStatus_ne_zero] at hpending
      have hnotpending : k.procStatus (t.leaf s) ≠ .pending := fun hst =>
        hpending ⟨_, hlt, hst⟩
      rcases h.runnable s hs with hst | hst | hst
      · exact absurd hst (haside s hs)
      · exact absurd hst hnotdaemon
      · exact absurd hst hnotpending

/-- The table after a switch: only the running process and one time counter differ. -/
theorem switchTo_spec (k : Kernel) (next frame : Nat) :
    (switchTo k next frame).procStatus = k.procStatus ∧
      (switchTo k next frame).curProcPcb = some next ∧
      ∀ p, SameIdentity k (switchTo k next frame) p := by
  have hpcb : (switchTo k next frame).pcb = Function.update k.pcb next
      { k.pcb next with uptime := ((k.pcb next).uptime + timeQuantum) % 2 ^ 32 } := by
    simp [switchTo]
  exact ⟨by simp [switchTo], by simp [switchTo], sameIdentity_update hpcb rfl rfl rfl⟩

/-- `do_sched` runs another stack, or the same one again, and picks its top. -/
theorem doSched (h : Represents k t) (shell ebp : Nat) :
    ∃ s < numSess,
      schedNext (Process.setAside k (t.leaf t.current)) (t.leaf t.current) = t.leaf s ∧
        Represents (Process.doSched k shell ebp).1 (t.run s) := by
  obtain ⟨haside, hnone⟩ := h.setAside
  obtain ⟨s, hs, hnext⟩ := haside.schedNext_leaf hnone
  refine ⟨s, hs, hnext, ?_⟩
  have hsome : queryProcStatus k .inactive ≠ numProc :=
    queryProcStatus_ne_numProc h.running_lt (h.leaf_alive h.current).1.2
  have hcur := haside.running
  have hpid := h.running_pid
  generalize hk₁ : Process.setAside k (t.leaf t.current) = k₁ at *
  by_cases hpending : queryProcStatus k₁ .pending ≠ 0
  · have heq : (Process.doSched k shell ebp).1 =
        setStatus (switchTo k₁ (t.leaf s) (k₁.pcb (t.leaf s)).pid) (t.leaf s) .active := by
      simp only [Process.doSched, if_neg hsome, h.running, hpid, hk₁, hnext, if_pos hpending]
    obtain ⟨hstatus, hcur', hid⟩ := switchTo_spec k₁ (t.leaf s) (k₁.pcb (t.leaf s)).pid
    rw [heq]
    refine haside.restatus hs hcur' (fun p => hid p) ?_ ?_ ?_
    · intro p hp
      rw [procStatus_setStatus, hstatus, Function.update_of_ne (hp s hs)]
    · intro r hr
      rw [procStatus_setStatus, hstatus]
      by_cases hrs : r = s
      · rw [hrs, Function.update_self]
        exact Or.inl rfl
      · rw [Function.update_of_ne (haside.leaf_ne hr hs hrs)]
        exact haside.runnable r hr
    · intro r hr hrs
      rw [procStatus_setStatus, hstatus, Function.update_of_ne (haside.leaf_ne hr hs hrs)]
      exact hnone r hr
  · obtain ⟨hstatus, hcur', hid⟩ := switchTo_spec k₁ (t.leaf s) (t.leaf s)
    generalize hk₂ : switchTo k₁ (t.leaf s) (t.leaf s) = k₂ at *
    have heq : (Process.doSched k shell ebp).1 =
        { k₂ with
          pcb := Function.update k₂.pcb (t.leaf t.current)
            { k₂.pcb (t.leaf t.current) with kernelEbp := ebp } } := by
      simp only [Process.doSched, if_neg hsome, h.running, hpid, hk₁, hnext, if_neg hpending, hk₂]
    have hid' : ∀ p, SameIdentity k₂ (Process.doSched k shell ebp).1 p := by
      rw [heq]
      exact sameIdentity_update rfl rfl rfl rfl
    have htable : Represents k₂ (t.run s) := by
      refine haside.restatus hs hcur' hid ?_ ?_ ?_
      · intro p _
        rw [hstatus]
      · intro r hr
        rw [hstatus]
        exact haside.runnable r hr
      · intro r hr _
        rw [hstatus]
        exact hnone r hr
    refine htable.congr ?_ ?_ hid'
    · rw [heq]
    · rw [heq]

/-- The timer interrupt notes where the running process was interrupted. -/
theorem saveKernelEsp (h : Represents k t) (regs : Nat) :
    Represents (Process.saveKernelEsp k regs) t := by
  simp only [Process.saveKernelEsp, h.running]
  exact h.congr rfl h.running.symm (sameIdentity_update rfl rfl rfl rfl)

end Represents

/-! ## Whole runs -/

/-- The boot state: the shell of the first session runs, the roots of the other
two sessions await theirs, and no other process is in use. -/
structure Boot (k : Kernel) : Prop where
  running : k.curProcPcb = some 0
  status : k.procStatus 0 = .active ∧ k.procStatus 1 = .pending ∧ k.procStatus 2 = .pending
  free : ∀ p, numSess ≤ p → p < numProc → k.procStatus p = .inactive
  root : ∀ p < numSess,
    (k.pcb p).pid = p ∧ (k.pcb p).parentPid = numProc ∧ (k.pcb p).activeSess = p

/-- The table `terminal_init` sets up. -/
theorem terminalInit_spec (k : Kernel) :
    (terminalInit k).procStatus =
        (fun p => if p = 0 then .active else if p < numSess then .pending else k.procStatus p) ∧
      ∀ p < numSess, ((terminalInit k).pcb p).pid = p ∧
        ((terminalInit k).pcb p).parentPid = numProc ∧ ((terminalInit k).pcb p).activeSess = p := by
  have hcases : ∀ p, p = 0 ∨ p = 1 ∨ p = 2 ∨ numSess ≤ p := by
    intro p
    unfold numSess
    omega
  constructor
  · funext p
    rcases hcases p with rfl | rfl | rfl | hp
    · simp [terminalInit]
    · simp [terminalInit, startupEnvirInit, numSess, List.range_succ]
    · simp [terminalInit, startupEnvirInit, numSess, List.range_succ]
    · unfold numSess at hp
      have h0 : p ≠ 0 := by omega
      have h1 : p ≠ 1 := by omega
      have h2 : p ≠ 2 := by omega
      have h3 : ¬ p < 3 := by omega
      simp [terminalInit, startupEnvirInit, numSess, List.range_succ, h0, h1, h2, h3]
  · intro p hp
    rcases hcases p with rfl | rfl | rfl | hp'
    · simp [terminalInit, startupEnvirInit, numSess, List.range_succ]
    · simp [terminalInit, startupEnvirInit, numSess, List.range_succ]
    · simp [terminalInit, startupEnvirInit, numSess, List.range_succ]
    · omega

/-- The table after a `sys_execute` made before any process runs. -/
theorem sysExecute_first {k : Kernel} (hcur : k.curProcPcb = none) (curRegs entryPoint : Nat) :
    (sysExecute k curRegs (some entryPoint)).1.curProcPcb = some 0 ∧
      (sysExecute k curRegs (some entryPoint)).1.procStatus =
        Function.update k.procStatus 0 .active ∧
      (sysExecute k curRegs (some entryPoint)).1.pcb =
        Function.update k.pcb 0 { k.pcb 0 with pid := 0, uptime := 0, parentEsp := curRegs } := by
  simp [sysExecute, hcur, childPcbInit]

/-- `terminal_init` on an unused table and the first `sys_execute` of the shell,
made before any process runs, lead to the boot state. -/
theorem boot_sysExecute {k : Kernel} (hcur : k.curProcPcb = none)
    (hfree : ∀ p < numProc, k.procStatus p = .inactive) (curRegs entryPoint : Nat) :
    Boot (sysExecute (terminalInit k) curRegs (some entryPoint)).1 := by
  have hnone : (terminalInit k).curProcPcb = none := by
    simp [terminalInit, startupEnvirInit, numSess, List.range_succ, hcur]
  obtain ⟨hrunning, hstatus, hpcb⟩ := sysExecute_first hnone curRegs entryPoint
  obtain ⟨hinit, hroot⟩ := terminalInit_spec k
  refine ⟨hrunning, ?_, ?_, ?_⟩
  · rw [hstatus, hinit]
    simp [numSess]
  · intro p hlo hhi
    have h0 : p ≠ 0 := by
      rintro rfl
      exact absurd hlo (by decide)
    have h3 : ¬ p < numSess := by omega
    rw [hstatus, hinit, Function.update_of_ne h0, if_neg h0, if_neg h3, hfree p hhi]
  · intro p hp
    rw [hpcb]
    by_cases h0 : p = 0
    · subst h0
      rw [Function.update_self]
      exact ⟨rfl, (hroot 0 hp).2⟩
    · rw [Function.update_of_ne h0]
      exact hroot p hp

/-- The operations on the process table; each runs with interrupts disabled.
`kill_pid` is only ever called on the running process. -/
inductive Step (k : Kernel) : Kernel → Prop
  | execute (curRegs : Nat) (image : Option Nat) : Step k (sysExecute k curRegs image).1
  | exit (cur : Nat) (hcur : k.curProcPcb = some cur) (exitCode : Int) :
      Step k (killPid k (k.pcb cur).pid exitCode).1
  | sched (regs shell ebp : Nat) : Step k (doSched (saveKernelEsp k regs) shell ebp).1

/-- Runs of the process operations from boot. -/
def processSystem : TransitionSystem Kernel where
  init := Boot
  step := Step

/-- The boot state holds three stacks of one root each. -/
theorem Boot.represents {k : Kernel} (h : Boot k) :
    Represents k { leaf := id, callers := fun _ => [], current := 0 } := by
  obtain ⟨h0, h1, h2⟩ := h.status
  have hcases : ∀ s < numSess, s = 0 ∨ s = 1 ∨ s = 2 := by
    intro s hs
    unfold numSess at hs
    omega
  have hrunnable : ∀ s < numSess, (k.procStatus s).Runnable := by
    intro s hs
    rcases hcases s hs with rfl | rfl | rfl
    · exact h0 ▸ ProcStatus.runnable_active
    · exact h1 ▸ ProcStatus.runnable_pending
    · exact h2 ▸ ProcStatus.runnable_pending
  have hlow : ∀ p, k.Alive p → p < numSess := by
    intro p hp
    by_contra hge
    exact hp.2 (h.free p (by omega) hp.1)
  refine
    { current := by decide
      running := h.running
      mem := ?_
      bound := ?_
      pid := ?_
      nodup := ?_
      linked := ?_
      runnable := hrunnable
      idle := ?_
      waiting := ?_ }
  · intro s hs p
    simp only [Sessions.stack, id, List.mem_singleton]
    constructor
    · rintro rfl
      have hlt : p < numProc := Nat.lt_of_lt_of_le hs (by decide)
      exact ⟨⟨hlt, (hrunnable p hs).ne_inactive⟩, (h.root p hs).2.2⟩
    · rintro ⟨hp, hsess⟩
      exact (h.root p (hlow p hp)).2.2.symm.trans hsess
  · intro p hp
    have hs := hlow p hp
    rwa [Kernel.sess, (h.root p hs).2.2]
  · intro p hp
    exact (h.root p (hlow p hp)).1
  · intro s _
    simp [Sessions.stack]
  · intro s hs
    exact List.isChain_cons_cons.mpr ⟨(h.root s hs).2.1, List.isChain_singleton _⟩
  · intro s _ p hp
    exact absurd hp List.not_mem_nil
  · intro s hs hne
    rcases hcases s hs with rfl | rfl | rfl
    · exact absurd rfl hne
    · simp [h1]
    · simp [h2]

/-- A process was executed, directly or through others, by the second one. -/
def Kernel.Ancestor (k : Kernel) (q p : Nat) : Prop := Relation.TransGen k.CalledBy p q

/-- The process table in order: one runnable process in each session, which no
process names as its parent; all others in the session are idle ancestors of it;
and the running process is one of the three. -/
structure Ordered (k : Kernel) : Prop where
  bound : ∀ p, k.Alive p → k.sess p < numSess
  one : ∀ s < numSess, ∃! p, k.Alive p ∧ k.sess p = s ∧ (k.procStatus p).Runnable
  leaf : ∀ p, k.Alive p → (k.procStatus p).Runnable → ∀ q, k.Alive q → ¬ k.CalledBy q p
  above : ∀ p q, k.Alive p → (k.procStatus p).Runnable → k.Alive q → k.sess q = k.sess p →
    q ≠ p → k.procStatus q = .idle ∧ k.Ancestor q p
  running : ∃ p, k.curProcPcb = some p ∧ k.Alive p ∧ (k.procStatus p).Runnable

/-- In a chain of callers every member below the first is an ancestor of it. -/
theorem ancestor_of_chain {k : Kernel} {p : Nat} {l : List Nat}
    (h : (p :: l).IsChain k.CalledBy) {q : Nat} (hq : q ∈ l) : k.Ancestor q p := by
  have htrans : (p :: l).IsChain (Relation.TransGen k.CalledBy) :=
    h.imp fun _ _ hab => Relation.TransGen.single hab
  exact (List.pairwise_cons.mp htrans.pairwise).1 q hq

/-- In a chain of callers the parent of a member is below the first member, or is
the mark of a root. -/
theorem parent_of_chain {k : Kernel} {l : List Nat} {q p : Nat}
    (h : (l ++ [numProc]).IsChain k.CalledBy) (hq : q ∈ l) (hcall : k.CalledBy q p) :
    p ∈ l.tail ∨ p = numProc := by
  unfold Kernel.CalledBy at hcall
  induction l with
  | nil => exact absurd hq List.not_mem_nil
  | cons a l ih =>
      rcases List.mem_cons.mp hq with rfl | hq
      · cases l with
        | nil => exact Or.inr (hcall.symm.trans (List.isChain_cons_cons.mp h).1)
        | cons b l =>
            have hnext : p = b := hcall.symm.trans (List.isChain_cons_cons.mp h).1
            exact Or.inl (hnext ▸ List.mem_cons_self)
      · rcases ih h.tail hq with hp | hp
        · exact Or.inl (List.mem_of_mem_tail hp)
        · exact Or.inr hp

/-- Stacks of callers are an ordered process table. -/
theorem Represents.ordered {k : Kernel} {t : Sessions} (h : Represents k t) : Ordered k where
  bound := h.bound
  one s hs := by
    refine ⟨t.leaf s, ⟨(h.leaf_alive hs).1, (h.leaf_alive hs).2, h.runnable s hs⟩, ?_⟩
    rintro p ⟨hp, hsess, hrun⟩
    rw [h.eq_leaf hp hrun, hsess]
  leaf p hp hrun q hq hcall := by
    have hs := h.bound q hq
    have hmem : q ∈ t.stack (k.sess q) := (h.mem _ hs q).mpr ⟨hq, rfl⟩
    rcases parent_of_chain (h.linked _ hs) hmem hcall with hcaller | hroot
    · exact hrun.ne_idle (h.idle _ hs p hcaller)
    · have hlt := hp.1
      omega
  above p q hp hrun hq hsess hne := by
    have hs := h.bound p hp
    have hleaf := h.eq_leaf hp hrun
    have hmem := (h.mem _ hs q).mpr ⟨hq, hsess⟩
    rw [Sessions.stack, ← hleaf, List.mem_cons] at hmem
    have hcaller := hmem.resolve_left hne
    refine ⟨h.idle _ hs q hcaller, ?_⟩
    have hlink := h.linked _ hs
    rw [Sessions.stack, ← hleaf, List.cons_append] at hlink
    exact ancestor_of_chain hlink (List.mem_append_left _ hcaller)
  running := ⟨_, h.running, (h.leaf_alive h.current).1, h.runnable _ h.current⟩

/-- In every reachable state the process table is in order, a process that
`sys_execute` starts was not in use before the call, and the process that runs behind
`do_sched` is in the table, in use and not idle. -/
theorem processes_ordered (k : Kernel) (hk : processSystem.Reachable k) :
    Ordered k ∧
      (∀ curRegs image child entryPoint,
        (sysExecute k curRegs image).2 = .enter child entryPoint →
          child < numProc ∧ k.procStatus child = .inactive) ∧
      ∀ cur, k.curProcPcb = some cur →
        schedNext (setAside k (k.pcb cur).pid) (k.pcb cur).pid < numProc ∧
          k.procStatus (schedNext (setAside k (k.pcb cur).pid) (k.pcb cur).pid) ≠ .inactive ∧
          k.procStatus (schedNext (setAside k (k.pcb cur).pid) (k.pcb cur).pid) ≠ .idle ∧
          ∀ shell ebp, (doSched k shell ebp).1.curProcPcb =
            some (schedNext (setAside k (k.pcb cur).pid) (k.pcb cur).pid) := by
  have hinv : processSystem.IsInvariant fun k => ∃ t, Represents k t := by
    refine ⟨fun k h => ⟨_, h.represents⟩, ?_⟩
    rintro k k' ⟨t, h⟩ hstep
    cases hstep with
    | execute curRegs image =>
        rcases h.sysExecute curRegs image with ⟨-, h'⟩ | ⟨c, entryPoint, -, -, -, h'⟩
        · exact ⟨t, h'⟩
        · exact ⟨t.push c, h'⟩
    | exit cur hcur exitCode =>
        obtain rfl : t.leaf t.current = cur := Option.some_inj.mp (h.running.symm.trans hcur)
        rw [h.running_pid]
        rcases h.killPid exitCode with h' | ⟨caller, rest, -, h'⟩
        · exact ⟨t, h'⟩
        · exact ⟨t.pop caller rest, h'⟩
    | sched regs shell ebp =>
        obtain ⟨s, -, -, h'⟩ := (h.saveKernelEsp regs).doSched shell ebp
        exact ⟨t.run s, h'⟩
  obtain ⟨t, h⟩ := hinv.of_reachable hk
  refine ⟨h.ordered, ?_, ?_⟩
  · intro curRegs image child entryPoint henter
    rcases h.sysExecute curRegs image with ⟨hret, -⟩ | ⟨c, e, hc, hfree, henter', -⟩
    · rw [hret] at henter
      exact absurd henter (by simp)
    · rw [henter', Transfer.enter.injEq] at henter
      rw [← henter.1]
      exact ⟨hc, hfree⟩
  · intro cur hcur
    obtain rfl : t.leaf t.current = cur := Option.some_inj.mp (h.running.symm.trans hcur)
    obtain ⟨s, hs, hnext, -⟩ := h.doSched 0 0
    rw [h.running_pid, hnext]
    have hrun := h.runnable s hs
    refine ⟨(h.leaf_alive hs).1.1, hrun.ne_inactive, hrun.ne_idle, fun shell ebp => ?_⟩
    obtain ⟨s', -, hnext', h'⟩ := h.doSched shell ebp
    rw [h'.running, ← hnext, hnext']
    rfl

/-- A machine before the terminal is initialised. -/
def blankKernel : Kernel :=
  { procStatus := fun _ => .inactive
    pcb := fun _ =>
      { pid := 0, parentPid := 0, parentEsp := 0, kernelEsp := 0, kernelEbp := 0, uptime := 0,
        activeSess := 0 }
    curProcPcb := none
    sessDesc := fun _ => { cachedVidmem := 0, saPcb := none }
    curSessId := 0
    pageDirectory := fun _ => 0
    progPageTable := fun _ => 0
    progPageTableAddr := 0
    tssEsp0 := 0 }

/-- The kernel once the first shell runs. -/
def bootKernel : Kernel := (sysExecute (terminalInit blankKernel) 0 (some 0)).1

/-- After the first shell executes a program, the program runs as process 3 and
the table is in order. -/
theorem processes_ordered_boot :
    (sysExecute bootKernel 0 (some 0)).2 = .enter 3 0 ∧
      Ordered (sysExecute bootKernel 0 (some 0)).1 := by
  have hboot : processSystem.Reachable bootKernel :=
    TransitionSystem.Reachable.init (boot_sysExecute rfl (fun _ _ => rfl) 0 0)
  have hrun : processSystem.Reachable (sysExecute bootKernel 0 (some 0)).1 :=
    hboot.step (Step.execute 0 (some 0))
  exact ⟨by decide +kernel, (processes_ordered _ hrun).1⟩

end Process
end NochOS
