import NochOS.Process.Bracket
import NochOS.Process.CommandLine
import NochOS.Signal.Privilege

/-!
# Processes - what a program finds at its start

A program is entered at the end of `sys_execute`, or by `do_sched` for a process that is pending:
a shell that boot has left to be started, or a root process that has ended and is started again
in its old control block.  `sys_execute` and boot set the signal handlers up, and `do_sched` only
the files.

Main results:

- Theorem `setUp_clean`: what `sys_execute` sets up is clean.
- Theorem `Inv.act`: what tidy acts keep in the control blocks of root processes.
- Theorem `images_start_clean`: in a tidy run every program finds a clean control block.
- Theorem `restarted_dirty`: a shell that is started again finds the handler of its last life.
-/

namespace NochOS
namespace Process
namespace Startup

open Library Signal CommandLine

/-! ## State -/

/-- The fields of `pcb_t` that a program finds at its start, with the memory of the process. -/
structure Image where
  task : SigState
  files : Files
  arg : Buf

/-- A command, as a C string. -/
structure Command where
  text : List UInt8
  noNul : 0 ∉ text

/-- The argument of a command. -/
def Command.argument (c : Command) : List UInt8 := argField c.text (behindCmd c.text)

/-- The name of the file for the output of a command. -/
def Command.output (c : Command) : List UInt8 := outField c.text (behindCmd c.text)

/-- A program that is entered: its control block, and the argument it was started with. -/
structure Entry where
  image : Image
  argument : List UInt8

/-- The process table and the control blocks.  `entered` is not in the source: it records the
programs that were entered. -/
structure System where
  kernel : Kernel
  image : Nat → Image
  entered : List Entry

/-! ## Where programs are entered -/

/-- `clear_args`. -/
def clearArgs (arg : Buf) : Buf := memset arg 0 0 argWordSize

/-- The part of `sys_execute` from `child_pcb_init` to `file_io_init`, for the control block of
the new process. -/
def setUp (c : Command) (io : IoAnswers) (im : Image) : Option Image := do
  let (arg, fout) ← (parseArg c.text (clearArgs im.arg) (fun _ => 0) (behindCmd c.text)).value
  let files ← executeFiles im.files (cString fout fnameLen) io
  pure ⟨procSignalInit im.task, files, arg⟩

/-- `sys_execute`.  `program` is the entry point of the program that the command names. -/
def execute (curRegs : Nat) (command : Option Command) (program : Option Nat) (io : IoAnswers)
    (s : System) : Option System :=
  match command with
  | none => some { s with kernel := (sysExecute s.kernel curRegs none).1 }
  | some c =>
      let r := sysExecute s.kernel curRegs program
      match r.2 with
      | .enter child _ =>
          (setUp c io (s.image child)).map fun im =>
            ⟨r.1, Function.update s.image child im, s.entered ++ [⟨im, c.argument⟩]⟩
      | _ => some { s with kernel := r.1 }

/-- The timer's `do_sched`. -/
def sched (regs shell ebp : Nat) (s : System) : Option System :=
  let r := doSched (saveKernelEsp s.kernel regs) shell ebp
  match r.2 with
  | .enter next _ =>
      (executeFiles (s.image next).files [] default).map fun files =>
        let im := { s.image next with files := files }
        ⟨r.1, Function.update s.image next im, s.entered ++ [⟨im, []⟩]⟩
  | _ => some { s with kernel := r.1 }

/-! ## What happens in between -/

/-- The signals of a process change.  The saved masks are one array for all processes. -/
def setTask (s : System) (pid : Nat) (t : SigState) : System :=
  { s with
    image := fun p =>
      if p = pid then { s.image p with task := t }
      else
        { s.image p with
          task := { (s.image p).task with sigmaskInfo := t.sigmaskInfo } } }

/-- `kill_pid` of the running process. -/
def kill (cur : Nat) (exitCode : Int) (s : System) : System :=
  { s with kernel := (killPid s.kernel (s.kernel.pcb cur).pid exitCode).1 }

/-- The end of a call that may act on a signal of the running process. -/
def deliver (cur : Nat) (r : SigState × Flow) (s : System) : System :=
  match r.2 with
  | .kill rval => kill cur rval (setTask s cur r.1)
  | _ => setTask s cur r.1

/-- What happens to processes: the calls that start and end them, the timer, a switch of the
screen, a request of a signal with the node that `malloc` returns, the calls and returns that
concern signals and files, and a stretch of a program. -/
inductive Act
  | execute (curRegs : Nat) (command : Option Command) (program : Option Nat) (io : IoAnswers)
  | halt (exitCode : Int)
  | sched (regs shell ebp : Nat)
  | sessSwitch (sessId : Nat)
  | request (signum : BitVec 32) (pid node : Nat)
  | setHandler (signum handlerAddress : BitVec 32)
  | retFromInt (regs : Regs)
  | sigreturn (curRegs : Regs)
  | fdCall (io : Answer) (call : FdCall)
  | program (mem : Buf)

/-- An act of the running process.  One that waits to be started again spins and does nothing. -/
def onRunning (s : System) (f : Nat → Option System) : Option System :=
  s.kernel.curProcPcb.bind fun cur =>
    if s.kernel.procStatus cur = .pending then none else f cur

/-- The state after an act; `none` where it cannot happen, or is a fault of the kernel. -/
def System.act (s : System) : Act → Option System
  | .execute curRegs command program io =>
      onRunning s fun _ => Startup.execute curRegs command program io s
  | .halt exitCode => onRunning s fun cur => some (kill cur exitCode s)
  | .sched regs shell ebp => Startup.sched regs shell ebp s
  | .sessSwitch sessId => some { s with kernel := (Process.sessSwitch s.kernel sessId).1 }
  | .request signum pid node =>
      some (setTask s pid (requestSignal (s.image pid).task signum node))
  | .setHandler signum handlerAddress =>
      onRunning s fun cur =>
        some (setTask s cur (sysSetHandler (s.image cur).task signum handlerAddress).1)
  | .retFromInt regs =>
      onRunning s fun cur => some (deliver cur (doSignal (s.image cur).task regs).1 s)
  | .sigreturn curRegs =>
      onRunning s fun cur => some (deliver cur (sysSigreturn (s.image cur).task curRegs).1 s)
  | .fdCall io call =>
      onRunning s fun cur =>
        (runCall (s.image cur).files io call).map fun r =>
          { s with
            image := Function.update s.image cur { s.image cur with files := r.2 } }
  | .program mem =>
      onRunning s fun cur =>
        some (setTask s cur { (s.image cur).task with mem := mem })

/-! ## Runs -/

/-- `"shell"`. -/
def shellCommand : Command := ⟨[115, 104, 101, 108, 108], by decide⟩

/-- `terminal_init`, as far as it concerns processes. -/
def boot (s : System) : System where
  kernel := terminalInit s.kernel
  image p :=
    if p < numSess then { s.image p with task := procSignalInit (s.image p).task } else s.image p
  entered := []

/-- No process is in use, and the arguments in the control blocks of the shells that boot leaves
to be started are zero. -/
structure Blank (s : System) : Prop where
  running : s.kernel.curProcPcb = none
  free : ∀ p < numProc, s.kernel.procStatus p = .inactive
  arg : ∀ p < numSess, p ≠ 0 → ∀ i < argWordSize, (s.image p).arg i = 0

/-- The first shell is executed after `terminal_init`. -/
def Booted (s : System) : Prop :=
  ∃ s₀ curRegs entryPoint, Blank s₀ ∧
    execute curRegs (some shellCommand) (some entryPoint) default (boot s₀) = some s

/-- Runs of allowed acts. -/
def startSystem (allowed : System → Act → Prop) : TransitionSystem System where
  init := Booted
  step s s' := ∃ a, allowed s a ∧ s.act a = some s'

/-! ## Clean starts -/

/-- All handlers are the default ones. -/
def NoHandler (t : SigState) : Prop := ∀ i < sigCount, (t.sighand i).saHandler = sigDfl

/-- No signal is pending. -/
def NoSignal (t : SigState) : Prop := listIsEmpty t.links t.sigpending = true

/-- The control block of a program that is entered is clean: all handlers are the default ones, no
signal is masked or pending, standard input and output and nothing else are open, and the argument
buffer holds the argument and zeros. -/
structure Entry.Clean (e : Entry) : Prop where
  handlers : NoHandler e.image.task
  masks : MasksClear e.image.task
  queue : NoSignal e.image.task
  bitmap : e.image.files.fdBitmap = 0x3
  slots : TableOk e.image.files
  arg : ∀ i < argWordSize, e.image.arg i = e.argument.getD i 0

/-- A root process: it has no parent that it could end to. -/
def Root (k : Kernel) (p : Nat) : Prop := k.Alive p ∧ (k.pcb p).parentPid = numProc

/-- If a root process runs and ends, it has no handler, and no signal is left for it. -/
def QuietEnd (s : System) (ends : SigState → Prop) (left : SigState → SigState) : Prop :=
  ∀ cur, s.kernel.curProcPcb = some cur → Root s.kernel cur → ends (s.image cur).task →
    NoHandler (s.image cur).task ∧ NoSignal (left (s.image cur).task)

/-- The fields of a command fit into their arrays, and the file for its output opens.  Where the
command names no program, only the name is copied. -/
def Fitting (c : Command) (program : Option Nat) (io : IoAnswers) : Prop :=
  (field c.text).length < argWordSize ∧
    (program ≠ none → FieldsFit c.text ∧ RedirectOpens c.output io)

/-- The acts of a tidy run.  A root process ends only when all its handlers are the default ones
and no other signal is pending for it; none is requested for a process that waits to be started;
and the fields of a command fit into their arrays and the file for its output opens. -/
def Tidy (s : System) : Act → Prop
  | .execute _ command program io => ∀ c ∈ command, Fitting c program io
  | .halt _ => QuietEnd s (fun _ => True) id
  | .request _ pid _ => s.kernel.procStatus pid ≠ .pending
  | .retFromInt regs => QuietEnd s (fun t => regs.xcs = userCs ∧ Killed t) dropSignal
  | .sigreturn curRegs =>
      QuietEnd s (fun t => (loadRegs t.mem curRegs.esp.toNat).xcs = userCs ∧ Killed t) dropSignal
  | _ => True

/-! ## The process table -/

/-- A process keeps its parent, and neither comes into use nor begins to wait to be started. -/
structure Keeps (k k' : Kernel) (q : Nat) : Prop where
  parent : (k'.pcb q).parentPid = (k.pcb q).parentPid
  pending : k'.procStatus q = .pending → k.procStatus q = .pending
  inactive : k.procStatus q = .inactive → k'.procStatus q = .inactive

namespace Keeps

variable {k k' : Kernel} {q : Nat}

theorem root (h : Keeps k k' q) (hroot : Root k' q) : Root k q := by
  obtain ⟨⟨hlt, hne⟩, hparent⟩ := hroot
  exact ⟨⟨hlt, fun heq => hne (h.inactive heq)⟩, h.parent.symm.trans hparent⟩

theorem of_status (hparent : SameParent k k' q) (hstatus : k'.procStatus q = k.procStatus q) :
    Keeps k k' q :=
  ⟨hparent.parent, fun h => hstatus.symm.trans h, fun h => hstatus.trans h⟩

/-- Another status for a process that is in use. -/
theorem of_ne (hparent : SameParent k k' q) (hpending : k'.procStatus q ≠ .pending)
    (halive : k.procStatus q ≠ .inactive) : Keeps k k' q :=
  ⟨hparent.parent, fun h => absurd h hpending, fun h => absurd h halive⟩

end Keeps

section Table

variable {k : Kernel} {t : Sessions}

/-- `sys_execute` fails, or starts a process that is not a root in a slot that was free. -/
theorem sysExecute_table (h : Represents k t) (curRegs : Nat) (image : Option Nat) :
    ((sysExecute k curRegs image).2 = .ret (-1) ∧ ∀ q, Keeps k (sysExecute k curRegs image).1 q) ∨
      ∃ c entryPoint, image = some entryPoint ∧
        (sysExecute k curRegs image).2 = .enter c entryPoint ∧
        (∀ q, q ≠ c → Keeps k (sysExecute k curRegs image).1 q) ∧
        ((sysExecute k curRegs image).1.pcb c).parentPid ≠ numProc ∧
        (sysExecute k curRegs image).1.procStatus c ≠ .pending := by
  have halive := (h.leaf_alive h.current).1
  have hparents := sysExecute_parents h curRegs image
  rcases h.sysExecute_effect curRegs image with
    ⟨hsame, -, hstatus⟩ | ⟨c, entryPoint, rfl, -, hroom, -, hstatus, -⟩
  · obtain ⟨hret, hparent⟩ | ⟨c, entryPoint, -, hfree, hpush, -⟩ := hparents
    · refine Or.inl ⟨hret, fun q => ?_⟩
      obtain hstatus | hstatus := hstatus
      · exact Keeps.of_status (hparent q) (congrFun hstatus q)
      · by_cases hq : q = t.leaf t.current
        · subst hq
          refine Keeps.of_ne (hparent _) ?_ halive.2
          rw [hstatus, Function.update_self]
          decide
        · refine Keeps.of_status (hparent q) ?_
          rw [hstatus, Function.update_of_ne hq]
    · -- the process that runs would be the one that was not in use
      have hrunning : some (t.leaf t.current) = some c := by
        rw [← h.running, ← hsame.running, hpush.running]
        exact congrArg some (Function.update_self ..)
      rw [← Option.some.inj hrunning] at hfree
      exact absurd hfree halive.2
  · obtain ⟨c', henter, hstatus', -⟩ := h.sysExecute_switches hroom curRegs entryPoint
    obtain ⟨hret, -⟩ | ⟨d, entryPoint', henter', -, -, hparent, hcaller, -⟩ := hparents
    · rw [henter] at hret
      cases hret
    · rw [henter, Transfer.enter.injEq] at henter'
      obtain ⟨rfl, rfl⟩ := henter'
      refine Or.inr ⟨c', entryPoint, rfl, henter, ?_, ?_, ?_⟩
      · intro q hq
        by_cases hleaf : q = t.leaf t.current
        · subst hleaf
          refine Keeps.of_ne (hparent _ hq) ?_ halive.2
          rw [hstatus', Function.update_of_ne hq, Function.update_self]
          decide
        · refine Keeps.of_status (hparent q hq) ?_
          rw [hstatus', Function.update_of_ne hq, Function.update_of_ne hleaf]
      · rw [hcaller]
        exact Nat.ne_of_lt halive.1
      · rw [hstatus', Function.update_self]
        decide

/-- `kill_pid` of the running process makes a root wait, and ends another process. -/
theorem killPid_table (h : Represents k t) (exitCode : Int) :
    (∀ q, q ≠ t.leaf t.current → Keeps k (killPid k (t.leaf t.current) exitCode).1 q) ∧
      ((killPid k (t.leaf t.current) exitCode).1.pcb (t.leaf t.current)).parentPid =
        (k.pcb (t.leaf t.current)).parentPid ∧
      ((killPid k (t.leaf t.current) exitCode).1.procStatus (t.leaf t.current) = .pending →
        (k.pcb (t.leaf t.current)).parentPid = numProc) := by
  have hparent := killPid_sameParent k (t.leaf t.current) exitCode
  refine ⟨?_, (hparent _).parent, ?_⟩
  · intro q hq
    rcases h.killPid_effect exitCode with ⟨-, -, hstatus⟩ | ⟨caller, rest, hcallers, -, hstatus, -⟩
    · refine Keeps.of_status (hparent q) ?_
      rw [hstatus, Function.update_of_ne hq]
    · by_cases hcaller : q = caller
      · subst hcaller
        refine Keeps.of_ne (hparent _) ?_ (h.caller_eq hcallers).1.2
        rw [hstatus, Function.update_self]
        decide
      · refine Keeps.of_status (hparent q) ?_
        rw [hstatus, Function.update_of_ne hcaller, Function.update_of_ne hq]
  · intro hpending
    by_contra hroot
    simp only [killPid, if_neg hroot, procStatus_mapVidmem, procStatus_mapVirtual4mb,
      procStatus_linkSaPcb, procStatus_setStatus, Function.update_apply, h.running_pid] at hpending
    split at hpending
    · cases hpending
    · simp at hpending

/-- If a process waits to be started, one that does is picked. -/
theorem schedNext_pending {k : Kernel} {curPid : Nat} (hcur : curPid < numProc)
    (hpending : queryProcStatus k .pending ≠ 0) :
    schedNext k curPid < numProc ∧ k.procStatus (schedNext k curPid) = .pending := by
  unfold schedNext
  rw [if_pos hpending]
  rcases getNextPid_cases k hcur .pending with ⟨hlt, -, hstatus⟩ | ⟨hfull, hnone⟩
  · rw [if_neg (Nat.ne_of_lt hlt)]
    exact ⟨hlt, hstatus⟩
  · rw [if_pos hfull]
    obtain ⟨i, hi, hstatus⟩ := (queryProcStatus_ne_zero k .pending).mp hpending
    obtain rfl : i = curPid := by
      by_contra hne
      exact hnone i hi hne hstatus
    exact ⟨hcur, hstatus⟩

/-- Setting a process aside. -/
theorem setAside_keeps (k : Kernel) (pid q : Nat) : Keeps k (setAside k pid) q := by
  unfold setAside
  split
  · rename_i hactive
    by_cases hq : q = pid
    · subst hq
      refine Keeps.of_ne ⟨rfl, rfl⟩ ?_ ?_
      · rw [procStatus_setStatus, Function.update_self]
        decide
      · rw [hactive]
        decide
    · exact Keeps.of_status ⟨rfl, rfl⟩ (Function.update_of_ne hq ..)
  · exact Keeps.of_status ⟨rfl, rfl⟩ rfl

/-- `do_sched` enters only a process that waits to be started. -/
theorem doSched_table (h : Represents k t) (shell ebp : Nat) :
    (∀ q, Keeps k (doSched k shell ebp).1 q) ∧
      ∀ pid entryPoint, (doSched k shell ebp).2 = .enter pid entryPoint →
        pid < numProc ∧ k.procStatus pid = .pending ∧
          (doSched k shell ebp).1.procStatus pid ≠ .pending := by
  have hsome : queryProcStatus k .inactive ≠ numProc :=
    queryProcStatus_ne_numProc h.running_lt (h.leaf_alive h.current).1.2
  have hparent := doSched_sameParent k shell ebp
  have hpid := h.running_pid
  have hkeeps := setAside_keeps k (t.leaf t.current)
  obtain ⟨haside, -⟩ := h.setAside
  generalize hk₁ : setAside k (t.leaf t.current) = k₁ at hkeeps haside
  by_cases hpending : queryProcStatus k₁ .pending ≠ 0
  · obtain ⟨hlt, hwaits⟩ := schedNext_pending h.running_lt hpending
    generalize hnext : schedNext k₁ (t.leaf t.current) = next at hlt hwaits
    have halive : k₁.Alive next := ⟨hlt, by rw [hwaits]; decide⟩
    have heq : doSched k shell ebp =
        (setStatus (switchTo k₁ next next) next .active, .enter next shell) := by
      simp only [doSched, if_neg hsome, h.running, hpid, hk₁, hnext, if_pos hpending,
        haside.pid next halive]
    have hstatus : (doSched k shell ebp).1.procStatus =
        Function.update k₁.procStatus next .active := by
      rw [heq, procStatus_setStatus, (Represents.switchTo_spec k₁ next next).1]
    constructor
    · intro q
      by_cases hq : q = next
      · subst hq
        refine Keeps.of_ne (hparent q) ?_ ?_
        · rw [hstatus, Function.update_self]
          decide
        · rw [(hkeeps q).pending hwaits]
          decide
      · have hsame : (doSched k shell ebp).1.procStatus q = k₁.procStatus q := by
          rw [hstatus, Function.update_of_ne hq]
        refine ⟨(hparent q).parent, ?_, ?_⟩
        · rw [hsame]
          exact (hkeeps q).pending
        · rw [hsame]
          exact (hkeeps q).inactive
    · intro pid entryPoint henter
      rw [heq] at henter
      obtain ⟨rfl, -⟩ := Transfer.enter.inj henter
      refine ⟨hlt, (hkeeps _).pending hwaits, ?_⟩
      rw [hstatus, Function.update_self]
      decide
  · have hstatus : (doSched k shell ebp).1.procStatus = k₁.procStatus ∧
        ∀ pid entryPoint, (doSched k shell ebp).2 ≠ .enter pid entryPoint := by
      simp only [doSched, if_neg hsome, h.running, hpid, hk₁, if_neg hpending]
      exact ⟨(Represents.switchTo_spec k₁ _ _).1, fun _ _ henter => by cases henter⟩
    refine ⟨fun q => ⟨(hparent q).parent, ?_, ?_⟩, fun pid entryPoint henter =>
      absurd henter (hstatus.2 pid entryPoint)⟩
    · rw [hstatus.1]
      exact (hkeeps q).pending
    · rw [hstatus.1]
      exact (hkeeps q).inactive

/-- A switch of the screen. -/
theorem sessSwitch_keeps (h : Represents k t) (sessId q : Nat) :
    Keeps k (sessSwitch k sessId).1 q := by
  refine Keeps.of_status (sessSwitch_sameParent k sessId q) ?_
  obtain ⟨-, ⟨-, heq⟩ | ⟨-, -, heq⟩⟩ := h.sessSwitch_effect sessId
  · rw [heq]
  · rw [heq]
    rfl

end Table

/-! ## Signals -/

/-- `do_signal` in user mode keeps the handlers and masks and takes the first signal off. -/
theorem doSignal_user (t : SigState) {regs : Regs} (hxcs : regs.xcs = userCs) :
    (doSignal t regs).1.1.sighand = t.sighand ∧
      (doSignal t regs).1.1.links = (dropSignal t).links ∧
      (doSignal t regs).1.1.sigpending = (dropSignal t).sigpending := by
  have hrestored := @restore_saved t
    { dropSignal t with sigmaskInfo := (saveSigmask t).sigmaskInfo } rfl (dropSignal_sighand t)
  unfold doSignal
  rw [if_neg (not_not.mpr hxcs), getSignal_saveSigmask]
  cases firstSignal t with
  | none => exact ⟨(hrestored 0).2, rfl, rfl⟩
  | some sig =>
      simp only [Option.map_some]
      split
      · split
        · rw [doDefault_task]
          exact ⟨(hrestored sig).1, rfl, rfl⟩
        · exact ⟨(hrestored sig).1, rfl, rfl⟩
      · exact ⟨(hrestored sig).2, rfl, rfl⟩

/-- What a call that may act on a signal on the way to `regs` leaves: the handlers and masks, and,
where it ends the process, the other signals. -/
structure Kept (t : SigState) (regs : Regs) (r : SigState × Flow) : Prop where
  sighand : r.1.sighand = t.sighand
  killed : r.2.kills = true → regs.xcs = userCs ∧ Killed t
  queue : r.2.kills = true → NoSignal (dropSignal t) → NoSignal r.1

theorem Kept.ret (t : SigState) (regs : Regs) : Kept t regs (t, .ret regs) :=
  ⟨rfl, fun h => absurd h Bool.false_ne_true, fun h => absurd h Bool.false_ne_true⟩

theorem kept_doSignal (t : SigState) (regs : Regs) : Kept t regs (doSignal t regs).1 := by
  by_cases hxcs : regs.xcs = userCs
  · obtain ⟨hsighand, hlinks, hpending⟩ := doSignal_user t hxcs
    refine ⟨hsighand, fun hkills => ⟨hxcs, ?_⟩, fun _ h => ?_⟩
    · by_contra hkilled
      by_cases hhandled : Handled t
      · obtain ⟨eip, esp, hflow⟩ := doSignal_handled hxcs hhandled
        rw [hflow] at hkills
        exact absurd hkills Bool.false_ne_true
      · obtain ⟨t', heq, -⟩ := doSignal_neither hxcs hkilled hhandled
        rw [heq] at hkills
        exact absurd hkills Bool.false_ne_true
    · unfold NoSignal
      rw [hlinks, hpending]
      exact h
  · rw [doSignal_kernel hxcs]
    exact Kept.ret t regs

theorem kept_sysSigreturn (t : SigState) (curRegs : Regs) :
    Kept t (loadRegs t.mem curRegs.esp.toNat) (sysSigreturn t curRegs).1 := by
  unfold sysSigreturn
  simp only []
  split
  · exact Kept.ret t _
  · exact kept_doSignal t _

theorem masksClear_sysSetHandler {t : SigState} (h : MasksClear t)
    (signum handlerAddress : BitVec 32) : MasksClear (sysSetHandler t signum handlerAddress).1 := by
  unfold sysSetHandler
  split
  · exact h
  · intro i hi
    simp only [Function.update_apply]
    split
    · rfl
    · exact h i hi

/-! ## The control block of a new program -/

/-- What is so in the control block of a root process at all times. -/
structure Unset (im : Image) : Prop where
  masks : MasksClear im.task
  arg : ∀ i < argWordSize, im.arg i = 0

/-- What is so besides in the control block of a process that waits to be started. -/
structure Quiet (t : SigState) : Prop where
  handlers : NoHandler t
  queue : NoSignal t

theorem quiet_procSignalInit (t : SigState) : Quiet (procSignalInit t) := by
  constructor
  · intro i hi
    simp only [procSignalInit, if_pos hi]
  · unfold NoSignal listIsEmpty
    rw [beq_iff_eq]
    exact Function.update_self ..

theorem masksClear_procSignalInit (t : SigState) : MasksClear (procSignalInit t) := by
  intro i hi
  simp only [procSignalInit, if_pos hi]

/-- `file_io_init` opens standard input and output. -/
theorem executeFiles_clean {old t : Files} {fout : List UInt8} {io : IoAnswers}
    (h : executeFiles old fout io = some t) (hopens : RedirectOpens fout io) :
    t.fdBitmap = 0x3 ∧ TableOk t := by
  obtain ⟨file, heq, -, -⟩ := executeFiles_cases h
  refine ⟨?_, (tableOk_start_iff h).mpr hopens⟩
  rw [heq]

theorem Command.nul_notMem_output (c : Command) : 0 ∉ c.output := by
  unfold Command.output outField
  split
  · intro hmem
    exact c.noNul (List.mem_of_mem_drop ((List.takeWhile_sublist _).subset hmem))
  · exact List.not_mem_nil

theorem clearArgs_apply (arg : Buf) {i : Nat} (hi : i < argWordSize) : clearArgs arg i = 0 := by
  unfold clearArgs memset
  rw [if_pos ⟨Nat.zero_le i, by omega⟩]

/-- The argument buffer and the name of the output file that `parse_arg` leaves. -/
theorem parseArg_clean (c : Command) (hfit : FieldsFit c.text) (arg : Buf) :
    ∃ arg' fout', (parseArg c.text (clearArgs arg) (fun _ => 0) (behindCmd c.text)).value =
        some (arg', fout') ∧
      (∀ i < argWordSize, arg' i = c.argument.getD i 0) ∧ cString fout' fnameLen = c.output := by
  have hzero : ∀ i < argWordSize, clearArgs arg i = 0 := fun i hi => clearArgs_apply arg hi
  rw [value_parseArg]
  by_cases hshort : c.text.length ≤ behindCmd c.text
  · refine ⟨_, _, congrArg some (if_pos hshort), ?_, ?_⟩
    · intro i hi
      unfold Command.argument
      rw [argField_of_le hshort]
      exact hzero i hi
    · have hnone : c.output = [] := if_neg (not_hasOutput_of_le hshort)
      rw [hnone]
      rfl
  · refine ⟨_, _, congrArg some (if_neg hshort), ?_, ?_⟩
    · exact fun i hi => strncpy_cleared hzero hi c.argument
    have hstarts : StartsWith (if HasOutput c.text (behindCmd c.text) then
        strncpy (fun _ => 0) 0 (outField c.text (behindCmd c.text))
          ((outField c.text (behindCmd c.text)).length + 1)
        else fun _ => 0) c.output := by
      by_cases hout : HasOutput c.text (behindCmd c.text)
      · rw [if_pos hout]
        exact startsWith_strncpy _ _
      · have hnone : c.output = [] := if_neg hout
        rw [if_neg hout, hnone]
        exact fun _ _ => rfl
    exact hstarts.cString_eq c.nul_notMem_output hfit.out

/-- `sys_execute` sets a clean control block up. -/
theorem setUp_clean {c : Command} (hfit : FieldsFit c.text) {io : IoAnswers}
    (hopens : RedirectOpens c.output io) {im im' : Image} (h : setUp c io im = some im') :
    Entry.Clean ⟨im', c.argument⟩ := by
  obtain ⟨arg, fout, hparse, harg, hname⟩ := parseArg_clean c hfit im.arg
  unfold setUp at h
  rw [hparse] at h
  simp only [Option.bind_eq_bind, Option.bind_some, hname] at h
  obtain ⟨files, hfiles, heq⟩ := Option.bind_eq_some_iff.mp h
  rw [← Option.some.inj heq]
  obtain ⟨hbitmap, hslots⟩ := executeFiles_clean hfiles hopens
  have hquiet := quiet_procSignalInit im.task
  exact ⟨hquiet.handlers, masksClear_procSignalInit im.task, hquiet.queue, hbitmap, hslots, harg⟩

/-- `do_sched` makes the control block of a process that waits clean. -/
theorem Unset.clean {im : Image} (h : Unset im) (hquiet : Quiet im.task) {files : Files}
    (hfiles : executeFiles im.files [] default = some files) :
    Entry.Clean ⟨{ im with files := files }, []⟩ := by
  obtain ⟨hbitmap, hslots⟩ := executeFiles_clean hfiles (Or.inl rfl)
  exact ⟨hquiet.handlers, h.masks, hquiet.queue, hbitmap, hslots, h.arg⟩

/-! ## Runs of tidy acts -/

/-- Only root processes wait to be started, and no handler is set and no signal pending for one
that does; no signal is masked for a root process, and it has no argument. -/
structure Inv (s : System) : Prop where
  table : ∃ t, Represents s.kernel t
  waiting : ∀ p < numProc, s.kernel.procStatus p = .pending →
    (s.kernel.pcb p).parentPid = numProc ∧ Quiet (s.image p).task
  roots : ∀ p, Root s.kernel p → Unset (s.image p)
  entered : ∀ e ∈ s.entered, e.Clean

namespace Inv

variable {s : System}

/-- An operation on the process table that keeps all processes. -/
theorem of_keeps (h : Inv s) {k : Kernel} (htable : ∃ t, Represents k t)
    (hkeeps : ∀ q, Keeps s.kernel k q) : Inv { s with kernel := k } where
  table := htable
  waiting p hp hpending := by
    obtain ⟨hparent, hquiet⟩ := h.waiting p hp ((hkeeps p).pending hpending)
    exact ⟨(hkeeps p).parent.trans hparent, hquiet⟩
  roots p hroot := h.roots p ((hkeeps p).root hroot)
  entered := h.entered

/-- The signals of a process change that does not wait to be started. -/
theorem setTask (h : Inv s) {pid : Nat} {t : SigState}
    (hstatus : s.kernel.procStatus pid ≠ .pending)
    (hmasks : MasksClear (s.image pid).task → MasksClear t) : Inv (Startup.setTask s pid t) where
  table := h.table
  waiting p hp hpending := by
    obtain ⟨hparent, hquiet⟩ := h.waiting p hp hpending
    have hne : p ≠ pid := by
      rintro rfl
      exact hstatus hpending
    refine ⟨hparent, ?_⟩
    simp only [Startup.setTask, if_neg hne]
    exact ⟨hquiet.handlers, hquiet.queue⟩
  roots p hp := by
    obtain ⟨hclear, harg⟩ := h.roots p hp
    by_cases heq : p = pid
    · subst heq
      simp only [Startup.setTask, if_true]
      exact ⟨hmasks hclear, harg⟩
    · simp only [Startup.setTask, if_neg heq]
      exact ⟨hclear, harg⟩
  entered := h.entered

/-- The files of a process change. -/
theorem setFiles (h : Inv s) (pid : Nat) (files : Files) :
    Inv { s with
      image := Function.update s.image pid { s.image pid with files := files } } := by
  have hsame : ∀ p, (Function.update s.image pid { s.image pid with files := files } p).task =
        (s.image p).task ∧
      (Function.update s.image pid { s.image pid with files := files } p).arg =
        (s.image p).arg := by
    intro p
    by_cases heq : p = pid
    · subst heq
      rw [Function.update_self]
      exact ⟨rfl, rfl⟩
    · rw [Function.update_of_ne heq]
      exact ⟨rfl, rfl⟩
  refine ⟨h.table, ?_, ?_, h.entered⟩
  · intro p hp hpending
    obtain ⟨hparent, hquiet⟩ := h.waiting p hp hpending
    refine ⟨hparent, ?_⟩
    show Quiet (Function.update s.image pid _ p).task
    rw [(hsame p).1]
    exact hquiet
  · intro p hroot
    obtain ⟨hclear, harg⟩ := h.roots p hroot
    constructor
    · show MasksClear (Function.update s.image pid _ p).task
      rw [(hsame p).1]
      exact hclear
    · show ∀ i < argWordSize, (Function.update s.image pid _ p).arg i = 0
      rw [(hsame p).2]
      exact harg

/-- The running process ends. -/
theorem kill (h : Inv s) {cur : Nat} (hcur : s.kernel.curProcPcb = some cur)
    (hquiet : Root s.kernel cur → Quiet (s.image cur).task) (exitCode : Int) :
    Inv (Startup.kill cur exitCode s) := by
  obtain ⟨t, ht⟩ := h.table
  obtain rfl : t.leaf t.current = cur := Option.some.inj (ht.running.symm.trans hcur)
  have halive := (ht.leaf_alive ht.current).1
  unfold Startup.kill
  rw [ht.running_pid]
  obtain ⟨hkeeps, hparent, hroot⟩ := killPid_table ht exitCode
  have htable : ∃ t', Represents (killPid s.kernel (t.leaf t.current) exitCode).1 t' := by
    rcases ht.killPid exitCode with h' | ⟨caller, rest, -, h'⟩
    · exact ⟨_, h'⟩
    · exact ⟨_, h'⟩
  generalize (killPid s.kernel (t.leaf t.current) exitCode).1 = k at hkeeps hparent hroot htable
  refine ⟨htable, ?_, ?_, h.entered⟩
  · intro p hp hpending
    by_cases heq : p = t.leaf t.current
    · subst heq
      have hparent' := hroot hpending
      exact ⟨hparent.trans hparent', hquiet ⟨halive, hparent'⟩⟩
    · obtain ⟨hparent', hquiet⟩ := h.waiting p hp ((hkeeps p heq).pending hpending)
      exact ⟨(hkeeps p heq).parent.trans hparent', hquiet⟩
  · intro p hp
    by_cases heq : p = t.leaf t.current
    · subst heq
      exact h.roots _ ⟨halive, hparent.symm.trans hp.2⟩
    · exact h.roots p ((hkeeps p heq).root hp)

/-- A call that may act on a signal of the running process comes to its end. -/
theorem deliver (h : Inv s) {cur : Nat} (hcur : s.kernel.curProcPcb = some cur)
    (hstatus : s.kernel.procStatus cur ≠ .pending) {regs : Regs} {r : SigState × Flow}
    (hkept : Kept (s.image cur).task regs r)
    (hends : Root s.kernel cur → regs.xcs = userCs ∧ Killed (s.image cur).task →
      NoHandler (s.image cur).task ∧ NoSignal (dropSignal (s.image cur).task)) :
    Inv (Startup.deliver cur r s) := by
  have htask : Inv (Startup.setTask s cur r.1) := by
    refine h.setTask hstatus fun hclear => ?_
    unfold MasksClear
    rw [hkept.sighand]
    exact hclear
  unfold Startup.deliver
  cases hflow : r.2 with
  | ret regs => exact htask
  | resume regs => exact htask
  | kill rval =>
      have hkills : r.2.kills = true := by
        rw [hflow]
        rfl
      refine htask.kill hcur (fun hroot => ?_) rval
      obtain ⟨hhandlers, hqueue⟩ := hends hroot (hkept.killed hkills)
      simp only [Startup.setTask, if_true]
      refine ⟨?_, hkept.queue hkills hqueue⟩
      unfold NoHandler
      rw [hkept.sighand]
      exact hhandlers

end Inv

/-- The control block of a process is set up anew and its program is entered. -/
theorem Inv.enter {s : System} (h : Inv s) {k : Kernel} {pid : Nat} {im : Image}
    (htable : ∃ t, Represents k t) (hkeeps : ∀ q, q ≠ pid → Keeps s.kernel k q)
    (hstarted : k.procStatus pid ≠ .pending) (hroot : Root k pid → Unset im)
    {argument : List UInt8} (hclean : Entry.Clean ⟨im, argument⟩) :
    Inv ⟨k, Function.update s.image pid im, s.entered ++ [⟨im, argument⟩]⟩ := by
  refine ⟨htable, ?_, ?_, ?_⟩
  · intro p hp hpending
    have hne : p ≠ pid := fun heq => hstarted (heq ▸ hpending)
    obtain ⟨hparent, hquiet⟩ := h.waiting p hp ((hkeeps p hne).pending hpending)
    refine ⟨(hkeeps p hne).parent.trans hparent, ?_⟩
    show Quiet (Function.update s.image pid im p).task
    rw [Function.update_of_ne hne]
    exact hquiet
  · intro p hp
    show Unset (Function.update s.image pid im p)
    by_cases heq : p = pid
    · subst heq
      rw [Function.update_self]
      exact hroot hp
    · rw [Function.update_of_ne heq]
      exact h.roots p ((hkeeps p heq).root hp)
  · intro e he
    rcases List.mem_append.mp he with hold | hnew
    · exact h.entered e hold
    · rw [List.mem_singleton.mp hnew]
      exact hclean

theorem Inv.execute {s s' : System} (h : Inv s) {curRegs : Nat} {command : Option Command}
    {program : Option Nat} {io : IoAnswers}
    (htidy : ∀ c ∈ command, Fitting c program io)
    (hexec : execute curRegs command program io s = some s') : Inv s' := by
  obtain ⟨t, ht⟩ := h.table
  have htable : ∀ image, ∃ t', Represents (sysExecute s.kernel curRegs image).1 t' := by
    intro image
    rcases ht.sysExecute curRegs image with ⟨-, h'⟩ | ⟨c, entryPoint, -, -, -, h'⟩
    · exact ⟨_, h'⟩
    · exact ⟨_, h'⟩
  unfold Startup.execute at hexec
  cases command with
  | none =>
      rw [← Option.some.inj hexec]
      obtain ⟨-, hkeeps⟩ | ⟨c, entryPoint, hnone, -⟩ := sysExecute_table ht curRegs none
      · exact h.of_keeps (htable none) hkeeps
      · cases hnone
  | some c =>
      simp only [] at hexec
      obtain ⟨hret, hkeeps⟩ | ⟨child, entryPoint, hnamed, henter, hkeeps, hparent, hstarted⟩ :=
        sysExecute_table ht curRegs program
      · rw [hret] at hexec
        rw [← Option.some.inj hexec]
        exact h.of_keeps (htable program) hkeeps
      · have hsome : program ≠ none := by
          rw [hnamed]
          exact Option.some_ne_none entryPoint
        obtain ⟨hfit, hopens⟩ := (htidy c rfl).2 hsome
        rw [henter] at hexec
        obtain ⟨im, hsetUp, heq⟩ := Option.map_eq_some_iff.mp hexec
        rw [← heq]
        exact h.enter (htable program) hkeeps hstarted (fun hroot => absurd hroot.2 hparent)
          (setUp_clean hfit hopens hsetUp)

theorem Inv.sched {s s' : System} (h : Inv s) {regs shell ebp : Nat}
    (hsched : sched regs shell ebp s = some s') : Inv s' := by
  obtain ⟨t, ht⟩ := h.table
  have hsaved : Inv { s with kernel := saveKernelEsp s.kernel regs } := by
    refine h.of_keeps ⟨t, ht.saveKernelEsp regs⟩ fun q => Keeps.of_status ?_ ?_
    · exact saveKernelEsp_sameParent s.kernel regs q
    · unfold saveKernelEsp
      split <;> rfl
  obtain ⟨hkeeps, henters⟩ := doSched_table (ht.saveKernelEsp regs) shell ebp
  obtain ⟨r, -, -, htable⟩ := (ht.saveKernelEsp regs).doSched shell ebp
  unfold Startup.sched at hsched
  simp only [] at hsched
  split at hsched
  · rename_i next entryPoint henter
    obtain ⟨hlt, hpending, hstarted⟩ := henters next entryPoint henter
    obtain ⟨files, hfiles, heq⟩ := Option.map_eq_some_iff.mp hsched
    rw [← heq]
    obtain ⟨hparent, hquiet⟩ := hsaved.waiting next hlt hpending
    have hunset : Unset (s.image next) :=
      hsaved.roots next ⟨⟨hlt, by rw [hpending]; decide⟩, hparent⟩
    have hclean : Entry.Clean ⟨{ s.image next with files := files }, []⟩ :=
      hunset.clean hquiet hfiles
    refine hsaved.enter ⟨_, htable⟩ (fun q _ => hkeeps q) hstarted ?_ hclean
    exact fun _ => ⟨hunset.masks, hunset.arg⟩
  · rw [← Option.some.inj hsched]
    exact hsaved.of_keeps ⟨_, htable⟩ hkeeps

theorem onRunning_eq_some {s s' : System} {f : Nat → Option System}
    (h : onRunning s f = some s') :
    ∃ cur, s.kernel.curProcPcb = some cur ∧ s.kernel.procStatus cur ≠ .pending ∧
      f cur = some s' := by
  obtain ⟨cur, hcur, hact⟩ := Option.bind_eq_some_iff.mp h
  by_cases hstatus : s.kernel.procStatus cur = .pending
  · rw [if_pos hstatus] at hact
    cases hact
  · rw [if_neg hstatus] at hact
    exact ⟨cur, hcur, hstatus, hact⟩

/-- Tidy acts keep the invariant. -/
theorem Inv.act {s s' : System} (h : Inv s) {a : Act} (htidy : Tidy s a)
    (hact : s.act a = some s') : Inv s' := by
  cases a with
  | execute curRegs command program io =>
      obtain ⟨cur, -, -, heq⟩ := onRunning_eq_some hact
      exact h.execute htidy heq
  | sched regs shell ebp => exact h.sched hact
  | sessSwitch sessId =>
      obtain ⟨t, ht⟩ := h.table
      rw [← Option.some.inj hact]
      exact h.of_keeps ⟨t, (ht.sessSwitch_effect sessId).1⟩ (sessSwitch_keeps ht sessId)
  | request signum pid node =>
      rw [← Option.some.inj hact]
      exact h.setTask htidy id
  | halt exitCode =>
      obtain ⟨cur, hcur, -, heq⟩ := onRunning_eq_some hact
      rw [← Option.some.inj heq]
      refine h.kill hcur (fun hroot => ?_) exitCode
      obtain ⟨hhandlers, hqueue⟩ := htidy cur hcur hroot trivial
      exact ⟨hhandlers, hqueue⟩
  | setHandler signum handlerAddress =>
      obtain ⟨cur, -, hstatus, heq⟩ := onRunning_eq_some hact
      rw [← Option.some.inj heq]
      exact h.setTask hstatus fun hclear => masksClear_sysSetHandler hclear signum handlerAddress
  | retFromInt regs =>
      obtain ⟨cur, hcur, hstatus, heq⟩ := onRunning_eq_some hact
      rw [← Option.some.inj heq]
      exact h.deliver hcur hstatus (kept_doSignal _ regs) (htidy cur hcur)
  | sigreturn curRegs =>
      obtain ⟨cur, hcur, hstatus, heq⟩ := onRunning_eq_some hact
      rw [← Option.some.inj heq]
      exact h.deliver hcur hstatus (kept_sysSigreturn _ curRegs) (htidy cur hcur)
  | fdCall io call =>
      obtain ⟨cur, -, -, heq⟩ := onRunning_eq_some hact
      obtain ⟨r, -, heq⟩ := Option.map_eq_some_iff.mp heq
      rw [← heq]
      exact h.setFiles cur r.2
  | program mem =>
      obtain ⟨cur, -, hstatus, heq⟩ := onRunning_eq_some hact
      rw [← Option.some.inj heq]
      exact h.setTask hstatus id

/-- The first shell finds a clean control block, and those of the other shells are as boot leaves
them. -/
theorem Booted.inv {s : System} (h : Booted s) : Inv s := by
  obtain ⟨s₀, curRegs, entryPoint, hblank, hexec⟩ := h
  have hboot := boot_sysExecute hblank.running hblank.free curRegs entryPoint
  have hcur : (terminalInit s₀.kernel).curProcPcb = none :=
    (terminalInit_display s₀.kernel).2.1.trans hblank.running
  have henter : (sysExecute (terminalInit s₀.kernel) curRegs (some entryPoint)).2 =
      .enter 0 entryPoint := by
    simp [sysExecute, hcur, childPcbInit]
  simp only [execute, boot, henter, List.nil_append] at hexec
  obtain ⟨im, hsetUp, heq⟩ := Option.map_eq_some_iff.mp hexec
  have hclean : Entry.Clean ⟨im, shellCommand.argument⟩ :=
    setUp_clean ⟨by decide, by decide, by decide⟩ (Or.inl (by decide)) hsetUp
  have hkernel : s.kernel = (sysExecute (terminalInit s₀.kernel) curRegs (some entryPoint)).1 := by
    rw [← heq]
  have hfirst : s.image 0 = im := by
    rw [← heq]
    simp only [Function.update_self]
  have hother : ∀ p < numSess, p ≠ 0 →
      s.image p = { s₀.image p with task := procSignalInit (s₀.image p).task } := by
    intro p hp hne
    rw [← heq]
    simp only [Function.update_of_ne hne, if_pos hp]
  have hentered : s.entered = [⟨im, shellCommand.argument⟩] := by
    rw [← heq]
  rw [← hkernel] at hboot
  have hlow : ∀ p < numProc, s.kernel.procStatus p ≠ .inactive → p < numSess := by
    intro p hp halive
    by_contra hge
    exact halive (hboot.free p (Nat.le_of_not_lt hge) hp)
  refine ⟨⟨_, hboot.represents⟩, ?_, ?_, ?_⟩
  · intro p hp hpending
    have hne : p ≠ 0 := by
      rintro rfl
      rw [hboot.status.1] at hpending
      cases hpending
    have hsess := hlow p hp (by rw [hpending]; decide)
    refine ⟨(hboot.root p hsess).2.1, ?_⟩
    rw [hother p hsess hne]
    exact quiet_procSignalInit _
  · intro p hroot
    have hsess := hlow p hroot.1.1 hroot.1.2
    by_cases hp : p = 0
    · subst hp
      rw [hfirst]
      refine ⟨hclean.masks, fun i hi => ?_⟩
      rw [hclean.arg i hi]
      rfl
    · rw [hother p hsess hp]
      exact ⟨masksClear_procSignalInit _, hblank.arg p hsess hp⟩
  · intro e he
    rw [hentered, List.mem_singleton] at he
    rw [he]
    exact hclean

/-- The invariant holds in every state of a tidy run. -/
theorem inv_of_reachable {s : System} (h : (startSystem Tidy).Reachable s) : Inv s := by
  have hinv : (startSystem Tidy).IsInvariant Inv := by
    constructor
    · exact fun _ => Booted.inv
    · rintro s s' hs ⟨a, htidy, hact⟩
      exact hs.act htidy hact
  exact hinv.of_reachable h

/-- In a run from boot in which every root process ends with the default handlers and no other
signal pending, no signal is requested for a process that waits to be started, and the fields of
every command fit and its output file opens, every program finds a clean control block. -/
theorem images_start_clean (s : System) (h : (startSystem Tidy).Reachable s) :
    ∀ e ∈ s.entered, e.Clean :=
  (inv_of_reachable h).entered

/-! ## Runs from boot -/

/-- The state after a list of acts. -/
def runActs (s : System) (acts : List Act) : Option System := acts.foldlM System.act s

theorem reachable_runActs {allowed : System → Act → Prop} {s s' : System} {acts : List Act}
    (h : (startSystem allowed).Reachable s) (hallowed : ∀ a ∈ acts, ∀ s, allowed s a)
    (hrun : runActs s acts = some s') : (startSystem allowed).Reachable s' := by
  induction acts generalizing s with
  | nil =>
      rw [← Option.some.inj hrun]
      exact h
  | cons a acts ih =>
      unfold runActs at hrun
      rw [List.foldlM_cons] at hrun
      obtain ⟨s₁, hact, hrun⟩ := Option.bind_eq_some_iff.mp hrun
      have hs₁ : (startSystem allowed).Reachable s₁ :=
        h.step ⟨a, hallowed a (List.mem_cons_self ..) s, hact⟩
      exact ih hs₁ (fun a' ha' => hallowed a' (List.mem_cons_of_mem a ha')) hrun

/-- A system before boot. -/
def blankSystem : System := ⟨blankKernel, fun _ => ⟨freshRun.task, noFiles, fun _ => 0⟩, []⟩

/-- The first shell runs. -/
def firstShell : System :=
  (execute 0 (some shellCommand) (some 0) default (boot blankSystem)).getD blankSystem

theorem booted_firstShell : Booted firstShell := by
  refine ⟨blankSystem, 0, 0, ⟨rfl, fun _ _ => rfl, fun _ _ _ _ _ => rfl⟩, ?_⟩
  have hsome : (execute 0 (some shellCommand) (some 0) default (boot blankSystem)).isSome := by
    decide +kernel
  obtain ⟨s, hs⟩ := Option.isSome_iff_exists.mp hsome
  unfold firstShell
  rw [hs]
  rfl

/-- `"cat a"`. -/
def catCommand : Command := ⟨[99, 97, 116, 32, 97], by decide⟩

/-- The shell starts a program with an argument, and the timer the shell of the second session. -/
theorem images_start_clean_cat : ∃ s,
    runActs firstShell [.execute 0 (some catCommand) (some 0) default, .sched 0 0 0] = some s ∧
      s.entered.map Entry.argument = [[], [97], []] ∧ ∀ e ∈ s.entered, e.Clean := by
  have hrun : (runActs firstShell [.execute 0 (some catCommand) (some 0) default,
      .sched 0 0 0]).map (·.entered.map Entry.argument) = some [[], [97], []] := by
    decide +kernel
  obtain ⟨s, hs, harguments⟩ := Option.map_eq_some_iff.mp hrun
  have hfirst : (startSystem Tidy).Reachable firstShell :=
    TransitionSystem.Reachable.init booted_firstShell
  refine ⟨s, hs, harguments, images_start_clean s (reachable_runActs hfirst ?_ hs)⟩
  intro a ha s'
  simp only [List.mem_cons, List.not_mem_nil, or_false] at ha
  rcases ha with rfl | rfl
  · intro c hc
    rw [← Option.some.inj hc]
    exact ⟨by decide, fun _ => ⟨⟨by decide, by decide, by decide⟩, Or.inl (by decide)⟩⟩
  · trivial

/-- The handler that a shell has set is there when it is started again: it ends, and the timer
starts the shells of the other sessions and then the first one. -/
theorem restarted_dirty :
    ¬ ∀ s, (startSystem fun _ _ => True).Reachable s → ∀ e ∈ s.entered, e.Clean := by
  intro h
  have hrun : (runActs firstShell [.setHandler interrupt 0x08048200, .halt 0, .sched 0 0 0,
      .sched 0 0 0, .sched 0 0 0]).map (·.entered.map fun e => (e.image.task.sighand 2).saHandler) =
      some [sigDfl, sigDfl, sigDfl, 0x08048200] := by
    decide +kernel
  obtain ⟨s, hs, hhandlers⟩ := Option.map_eq_some_iff.mp hrun
  have hfirst : (startSystem fun _ _ => True).Reachable firstShell :=
    TransitionSystem.Reachable.init booted_firstShell
  have hlast : (0x08048200 : BitVec 32) ∈
      s.entered.map fun e => (e.image.task.sighand 2).saHandler := by
    rw [hhandlers]
    decide
  obtain ⟨e, he, hset⟩ := List.mem_map.mp hlast
  have hclean := h s (reachable_runActs hfirst (fun _ _ _ => trivial) hs) e he
  rw [hclean.handlers 2 (by decide)] at hset
  exact absurd hset (by decide)

end Startup
end Process
end NochOS
