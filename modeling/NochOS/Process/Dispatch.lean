import NochOS.Library.Cases
import NochOS.Process.Descriptors
import NochOS.Process.Model
import NochOS.Signal.Frame

/-!
# Processes - the dispatch of system calls

This module embeds `do_sys`: the check of the user stack pointer, the `switch` over the
number of the call with its 31 cases, and the store of the return value.  The cases of
`SYS_HALT` and `SYS_EXECUTE` have no break.  `sys_halt`, `sys_execute` and `sys_read` are
embedded too, as far as they decide what comes behind them; the other handlers are any
programs.

Main results:

- Definition `doSys`: the function.
- Theorem `doSys_breaks`: the cases with a break.
- Theorem `dispatch_iff`: when a call is the one of the handler that its number names.
-/

namespace NochOS
namespace Process

open Library Signal

/-! ## Numbers -/

/-- The system call numbers, in order. -/
inductive Sysnum
  | halt | execute | read | write | open | close | getargs | vidmap | setHandler | sigreturn
  | kill | query | info | create | rm | mkdir | cd | seek | encrypt | decrypt | filemode | pwd
  | netPackage | shutdown | setusr | getusr | getpid | textcolor | mapModex | ipconfig | getip
deriving DecidableEq

/-- The value of a macro of `syscall_num.h`. -/
def Sysnum.num : Sysnum → BitVec 32
  | halt => 1
  | execute => 2
  | read => 3
  | write => 4
  | .open => 5
  | close => 6
  | getargs => 7
  | vidmap => 8
  | setHandler => 9
  | sigreturn => 10
  | kill => 11
  | query => 12
  | info => 13
  | create => 14
  | rm => 15
  | mkdir => 16
  | cd => 17
  | seek => 18
  | encrypt => 19
  | decrypt => 20
  | filemode => 21
  | pwd => 22
  | netPackage => 23
  | shutdown => 24
  | setusr => 25
  | getusr => 26
  | getpid => 27
  | textcolor => 28
  | mapModex => 29
  | ipconfig => 30
  | getip => 31

/-! ## The system -/

/-- What a system call works on: the frame `regs` points to, `cur_regs`, the process table,
the descriptors of each process, and whatever else there is. -/
structure World (ρ : Type) where
  regs : Regs
  curRegs : Nat
  kernel : Kernel
  files : Nat → Files
  rest : ρ

/-- A program of the kernel.  It ends with a value, unless control leaves it for good. -/
abbrev Sys (ρ α : Type) := ExceptT Transfer (StateM (World ρ)) α

/-- What the dispatch leads to.  `image` is the entry point of the program that a command
names, if it names one; `abandoned` and `started` are what `sys_execute` leaves besides the
process table when it fails and when it does not; `fread` are the functions of the jump
tables. -/
structure Calls (ρ : Type) where
  image : BitVec 32 → World ρ → Option Nat
  abandoned : BitVec 32 → World ρ → ρ
  started : BitVec 32 → World ρ → (Nat → Files) × ρ
  fread : FileFn → BitVec 32 → BitVec 32 → BitVec 32 → Sys ρ (BitVec 32)
  requestSignal : BitVec 32 → Option Nat → Sys ρ Unit
  sysWrite : BitVec 32 → BitVec 32 → BitVec 32 → Sys ρ (BitVec 32)
  sysOpen : BitVec 32 → Sys ρ (BitVec 32)
  sysClose : BitVec 32 → Sys ρ (BitVec 32)
  sysGetargs : BitVec 32 → BitVec 32 → Sys ρ (BitVec 32)
  sysVidmap : BitVec 32 → Sys ρ (BitVec 32)
  sysSetHandler : BitVec 32 → BitVec 32 → Sys ρ (BitVec 32)
  sysSigreturn : Sys ρ (BitVec 32)
  sysKill : BitVec 32 → BitVec 32 → Sys ρ (BitVec 32)
  sysQuery : BitVec 32 → BitVec 32 → Sys ρ (BitVec 32)
  sysInfo : BitVec 32 → Sys ρ (BitVec 32)
  sysCreate : BitVec 32 → Sys ρ (BitVec 32)
  sysRm : BitVec 32 → Sys ρ (BitVec 32)
  sysMkdir : BitVec 32 → Sys ρ (BitVec 32)
  sysCd : BitVec 32 → Sys ρ (BitVec 32)
  sysSeek : BitVec 32 → BitVec 32 → BitVec 32 → Sys ρ (BitVec 32)
  sysEncrypt : BitVec 32 → Sys ρ (BitVec 32)
  sysDecrypt : BitVec 32 → Sys ρ (BitVec 32)
  sysFilemode : BitVec 32 → Sys ρ (BitVec 32)
  sysPwd : BitVec 32 → Sys ρ (BitVec 32)
  sysNetPackage : BitVec 32 → BitVec 32 → Sys ρ (BitVec 32)
  sysShutdown : Sys ρ (BitVec 32)
  sysSetusr : BitVec 32 → Sys ρ (BitVec 32)
  sysGetusr : BitVec 32 → Sys ρ (BitVec 32)
  sysGetpid : Sys ρ (BitVec 32)
  sysTextcolor : BitVec 8 → Sys ρ (BitVec 32)
  sysMapModex : BitVec 32 → Sys ρ (BitVec 32)
  sysIpconfig : BitVec 32 → Sys ρ (BitVec 32)
  sysGetip : Sys ρ (BitVec 32)

variable {ρ : Type}

/-- The end of an operation on the process table. -/
def leave : Transfer → Sys ρ (BitVec 32)
  | .ret value => pure (BitVec.ofInt 32 value)
  | .enter pid entryPoint => throw (.enter pid entryPoint)
  | .resume frame eax => throw (.resume frame eax)
  | .restore esp ebp => throw (.restore esp ebp)
  | .spin => throw .spin
  | .fault => throw .fault

/-! ## Handlers -/

/-- `sys_halt`. -/
def sysHalt (status : BitVec 32) : Sys ρ (BitVec 32) := do
  let w ← get
  match w.kernel.curProcPcb with
  | none => throw .fault
  | some cur =>
      let r := killPid w.kernel (w.kernel.pcb cur).pid status.toInt
      set { w with kernel := r.1 }
      leave r.2

namespace Calls

variable (calls : Calls ρ)

/-- `sys_execute`. -/
def sysExecute (command : BitVec 32) : Sys ρ (BitVec 32) := do
  let w ← get
  match Process.sysExecute w.kernel w.curRegs (calls.image command w) with
  | (k, .ret value) =>
      set { w with kernel := k, rest := calls.abandoned command w }
      leave (.ret value)
  | (k, transfer) =>
      let (files, rest) := calls.started command w
      set { w with kernel := k, files := files, rest := rest }
      leave transfer

/-- `sys_read`. -/
def sysRead (fd buf nbytes : BitVec 32) : Sys ρ (BitVec 32) :=
  if maxOpenFiles ≤ fd.toNat then pure (-1)
  else do
    let w ← get
    match w.kernel.curProcPcb with
    | none => throw .fault
    | some cur =>
        if fdAvail (w.files cur) fd.toNat then pure (-1)
        else
          match ((w.files cur).fdArray fd.toNat).fOp.readFn with
          | none => throw .fault
          | some fn => calls.fread fn fd buf nbytes

/-! ## The function -/

/-- A handler on the registers of the frame. -/
def onRegs (handler : Regs → Sys ρ (BitVec 32)) : Sys ρ (BitVec 32) := do
  let w ← get
  handler w.regs

/-- A case of the `switch` that ends with a break. -/
def brk (n : Sysnum) (handler : Regs → Sys ρ (BitVec 32)) :
    SwitchCase (BitVec 32) (ExceptT Transfer (StateM (World ρ))) (BitVec 32) :=
  ⟨n.num, onRegs handler, true⟩

/-- A case of the `switch` without a break. -/
def falls (n : Sysnum) (handler : Regs → Sys ρ (BitVec 32)) :
    SwitchCase (BitVec 32) (ExceptT Transfer (StateM (World ρ))) (BitVec 32) :=
  ⟨n.num, onRegs handler, false⟩

/-- The cases of the `switch`, in their order. -/
def cases : List (SwitchCase (BitVec 32) (ExceptT Transfer (StateM (World ρ))) (BitVec 32)) :=
  [ falls .halt fun regs => sysHalt ((regs.ebx.setWidth 8).setWidth 32)
  , falls .execute fun regs => calls.sysExecute regs.ebx
  , brk .read fun regs => calls.sysRead regs.ebx regs.ecx regs.edx
  , brk .write fun regs => calls.sysWrite regs.ebx regs.ecx regs.edx
  , brk .open fun regs => calls.sysOpen regs.ebx
  , brk .close fun regs => calls.sysClose regs.ebx
  , brk .getargs fun regs => calls.sysGetargs regs.ebx regs.ecx
  , brk .vidmap fun regs => calls.sysVidmap regs.ebx
  , brk .setHandler fun regs => calls.sysSetHandler regs.ebx regs.ecx
  , brk .sigreturn fun _ => calls.sysSigreturn
  , brk .kill fun regs => calls.sysKill regs.ebx regs.ecx
  , brk .query fun regs => calls.sysQuery regs.ebx regs.ecx
  , brk .info fun regs => calls.sysInfo regs.ebx
  , brk .create fun regs => calls.sysCreate regs.ebx
  , brk .rm fun regs => calls.sysRm regs.ebx
  , brk .mkdir fun regs => calls.sysMkdir regs.ebx
  , brk .cd fun regs => calls.sysCd regs.ebx
  , brk .seek fun regs => calls.sysSeek regs.ebx regs.ecx regs.edx
  , brk .encrypt fun regs => calls.sysEncrypt regs.ebx
  , brk .decrypt fun regs => calls.sysDecrypt regs.ebx
  , brk .filemode fun regs => calls.sysFilemode regs.ebx
  , brk .pwd fun regs => calls.sysPwd regs.ebx
  , brk .netPackage fun regs => calls.sysNetPackage regs.ebx regs.ecx
  , brk .shutdown fun _ => calls.sysShutdown
  , brk .setusr fun regs => calls.sysSetusr regs.ebx
  , brk .getusr fun regs => calls.sysGetusr regs.ebx
  , brk .getpid fun _ => calls.sysGetpid
  , brk .textcolor fun regs => calls.sysTextcolor (regs.ebx.setWidth 8)
  , brk .mapModex fun regs => calls.sysMapModex regs.ebx
  , brk .ipconfig fun regs => calls.sysIpconfig regs.ebx
  , brk .getip fun _ => calls.sysGetip ]

/-- `chk_usr_esp` lets a frame pass. -/
def Accepted (regs : Regs) : Prop :=
  (regs.origEax ≠ Sysnum.halt.num ∧ regs.origEax ≠ Sysnum.execute.num) →
    userStackTop < regs.esp.toNat ∧ regs.esp.toNat < userVirtBot - 4

instance (regs : Regs) : Decidable (Accepted regs) :=
  inferInstanceAs (Decidable (_ → _))

/-- `regs->eax = retval`. -/
def store (retval : BitVec 32) : Sys ρ Unit :=
  modify fun w => { w with regs := { w.regs with eax := retval } }

/-- `do_sys`, whose frame stands at an address. -/
def doSys (frame : Nat) : Sys ρ Unit := do
  let w ← get
  if ¬ Accepted w.regs then calls.requestSignal stackfault w.kernel.curProcPcb
  else
    set { w with curRegs := frame }
    match ← runSwitch w.regs.origEax calls.cases with
    | none => pure ()
    | some retval => store retval

end Calls

/-! ## The handler of a number -/

namespace Sysnum

/-- The handler that a number names, on the registers of the frame. -/
def handler (calls : Calls ρ) (regs : Regs) : Sysnum → Sys ρ (BitVec 32)
  | halt => sysHalt ((regs.ebx.setWidth 8).setWidth 32)
  | execute => calls.sysExecute regs.ebx
  | read => calls.sysRead regs.ebx regs.ecx regs.edx
  | write => calls.sysWrite regs.ebx regs.ecx regs.edx
  | .open => calls.sysOpen regs.ebx
  | close => calls.sysClose regs.ebx
  | getargs => calls.sysGetargs regs.ebx regs.ecx
  | vidmap => calls.sysVidmap regs.ebx
  | setHandler => calls.sysSetHandler regs.ebx regs.ecx
  | sigreturn => calls.sysSigreturn
  | kill => calls.sysKill regs.ebx regs.ecx
  | query => calls.sysQuery regs.ebx regs.ecx
  | info => calls.sysInfo regs.ebx
  | create => calls.sysCreate regs.ebx
  | rm => calls.sysRm regs.ebx
  | mkdir => calls.sysMkdir regs.ebx
  | cd => calls.sysCd regs.ebx
  | seek => calls.sysSeek regs.ebx regs.ecx regs.edx
  | encrypt => calls.sysEncrypt regs.ebx
  | decrypt => calls.sysDecrypt regs.ebx
  | filemode => calls.sysFilemode regs.ebx
  | pwd => calls.sysPwd regs.ebx
  | netPackage => calls.sysNetPackage regs.ebx regs.ecx
  | shutdown => calls.sysShutdown
  | setusr => calls.sysSetusr regs.ebx
  | getusr => calls.sysGetusr regs.ebx
  | getpid => calls.sysGetpid
  | textcolor => calls.sysTextcolor (regs.ebx.setWidth 8)
  | mapModex => calls.sysMapModex regs.ebx
  | ipconfig => calls.sysIpconfig regs.ebx
  | getip => calls.sysGetip

/-- The numbers, in order. -/
def all : List Sysnum :=
  [halt, execute, read, write, .open, close, getargs, vidmap, setHandler, sigreturn, kill, query,
    info, create, rm, mkdir, cd, seek, encrypt, decrypt, filemode, pwd, netPackage, shutdown,
    setusr, getusr, getpid, textcolor, mapModex, ipconfig, getip]

/-- The call that a number stands for. -/
def ofNum (num : BitVec 32) : Option Sysnum := all.find? fun n => n.num = num

theorem mem_all (n : Sysnum) : n ∈ all := by
  cases n <;> decide

theorem ofNum_num (n : Sysnum) : ofNum n.num = some n := by
  cases n <;> rfl

theorem num_ne_of_ofNum {num : BitVec 32} (h : ofNum num = none) (n : Sysnum) : n.num ≠ num := by
  simpa using List.find?_eq_none.mp h n n.mem_all

end Sysnum

namespace Calls

variable (calls : Calls ρ)

/-- One call of the handler that the number names, if it names one, whose value is stored if
it returns. -/
def named (frame : Nat) : Sys ρ Unit := do
  let w ← get
  set { w with curRegs := frame }
  match Sysnum.ofNum w.regs.origEax with
  | none => pure ()
  | some n => do
      let retval ← n.handler calls w.regs
      store retval

/-! ## Cases that break -/

variable {calls} {frame : Nat} {w : World ρ}

/-- The first access to the state. -/
theorem get_bind {α : Type} (f : World ρ → Sys ρ α) : ((get : Sys ρ (World ρ)) >>= f) w = f w w :=
  rfl

theorem onRegs_run (handler : Regs → Sys ρ (BitVec 32)) : onRegs handler w = handler w.regs w := rfl

/-- The `switch` of `do_sys` and the store behind it. -/
def switchStore (calls : Calls ρ) (num : BitVec 32) : Sys ρ Unit := do
  match ← runSwitch num calls.cases with
  | none => pure ()
  | some retval => store retval

/-- `do_sys` behind the check. -/
theorem doSys_accepted (h : Accepted w.regs) :
    doSys calls frame w = switchStore calls w.regs.origEax { w with curRegs := frame } := by
  unfold doSys
  rw [get_bind, if_neg (not_not.mpr h)]
  rfl

theorem named_none (h : Sysnum.ofNum w.regs.origEax = none) :
    named calls frame w = (.ok (), { w with curRegs := frame }) := by
  unfold named
  rw [get_bind, h]
  rfl

theorem named_num {n : Sysnum} (hnum : w.regs.origEax = n.num) :
    named calls frame w =
      (n.handler calls w.regs >>= fun retval => store retval) { w with curRegs := frame } := by
  unfold named
  rw [get_bind, hnum, n.ofNum_num]
  rfl

theorem labels_cases : calls.cases.map SwitchCase.label = Sysnum.all.map Sysnum.num := rfl

/-- A number without a handler. -/
theorem switchStore_none {num : BitVec 32} (h : Sysnum.ofNum num = none) :
    switchStore calls num w = (.ok (), w) := by
  have hlabels : ∀ c ∈ calls.cases, c.label ≠ num := by
    intro c hc
    have hmem := List.mem_map_of_mem (f := SwitchCase.label) hc
    rw [labels_cases] at hmem
    obtain ⟨n, -, hn⟩ := List.mem_map.mp hmem
    rw [← hn]
    exact Sysnum.num_ne_of_ofNum h n
  unfold switchStore
  rw [runSwitch_none hlabels]
  rfl

theorem find_cases (n : Sysnum) (hhalt : n ≠ .halt) (hexecute : n ≠ .execute) :
    calls.cases.find? (fun c => c.label = n.num) =
      some (brk n fun regs => n.handler calls regs) := by
  cases n with
  | halt => exact absurd rfl hhalt
  | execute => exact absurd rfl hexecute
  | _ => rfl

/-- The cases with a break run the handler that the number names. -/
theorem switchStore_breaks {n : Sysnum} (hhalt : n ≠ .halt) (hexecute : n ≠ .execute) :
    switchStore calls n.num w =
      (n.handler calls w.regs >>= fun retval => store retval) w := by
  unfold switchStore
  rw [runSwitch_breaks (find_cases n hhalt hexecute) rfl, bind_map_left]
  unfold brk onRegs
  rw [bind_assoc, get_bind]

/-! ## The cases that fall through -/

/-- The call of a command that cannot be started returns: the process table is full, or the
command names no program. -/
def ExecuteFails (calls : Calls ρ) (command : BitVec 32) (w : World ρ) : Prop :=
  ∃ cur, w.kernel.curProcPcb = some cur ∧
    (getNextPid w.kernel (w.kernel.pcb cur).pid .inactive = numProc ∨ calls.image command w = none)

/-- What `sys_execute` leaves when it returns. -/
def failed (calls : Calls ρ) (command : BitVec 32) (w : World ρ) : World ρ :=
  { w with
    kernel := (Process.sysExecute w.kernel w.curRegs (calls.image command w)).1
    rest := calls.abandoned command w }

/-- A program returns -1 and changes nothing, `eax` of the frame aside. -/
def Rejects (x : Sys ρ (BitVec 32)) (w : World ρ) : Prop :=
  ∃ w', x w = (.ok (-1), w') ∧
    { w' with regs := { w'.regs with eax := -1 } } = { w with regs := { w.regs with eax := -1 } }

/-- `sys_read` on what is no open descriptor of the process, or on one whose function of the
jump table rejects the arguments. -/
def ReadRefused (calls : Calls ρ) (fd buf nbytes : BitVec 32) (w : World ρ) : Prop :=
  maxOpenFiles ≤ fd.toNat ∨ ∃ cur, w.kernel.curProcPcb = some cur ∧
    (fdAvail (w.files cur) fd.toNat = true ∨
      ∃ fn, ((w.files cur).fdArray fd.toNat).fOp.readFn = some fn ∧
        Rejects (calls.fread fn fd buf nbytes) w)

/-- A call of `sys_execute` that returns, with a command whose address is an open descriptor
that can be read. -/
def Astray (calls : Calls ρ) (w : World ρ) : Prop :=
  w.regs.origEax = Sysnum.execute.num ∧ calls.ExecuteFails w.regs.ebx w ∧
    ¬ calls.ReadRefused w.regs.ebx w.regs.ecx w.regs.edx (calls.failed w.regs.ebx w)

theorem killPid_leaves (k : Kernel) (pid : Nat) (exitCode value : Int) :
    (killPid k pid exitCode).2 ≠ .ret value := by
  unfold killPid
  simp only []
  split
  · exact Transfer.noConfusion
  · exact Transfer.noConfusion

theorem leave_left {t : Transfer} (h : ∀ value, t ≠ .ret value) :
    (leave t : Sys ρ (BitVec 32)) w = (.error t, w) := by
  cases t with
  | ret value => exact absurd rfl (h value)
  | _ => rfl

/-- `sys_halt` does not return. -/
theorem sysHalt_left (status : BitVec 32) (w : World ρ) :
    ∃ t w', (sysHalt status : Sys ρ (BitVec 32)) w = (.error t, w') := by
  unfold sysHalt
  rw [get_bind]
  cases w.kernel.curProcPcb with
  | none => exact ⟨_, _, rfl⟩
  | some cur => exact ⟨_, _, leave_left (killPid_leaves _ _ _)⟩

variable {command : BitVec 32}

theorem sysExecute_fails (h : calls.ExecuteFails command w) :
    calls.sysExecute command w = (.ok (-1), calls.failed command w) := by
  obtain ⟨cur, hcur, hfails⟩ := h
  have hrun : ∃ k, Process.sysExecute w.kernel w.curRegs (calls.image command w) =
      (k, .ret (-1)) := by
    by_cases hfull : getNextPid w.kernel (w.kernel.pcb cur).pid .inactive = numProc
    · exact ⟨_, sysExecute_full hcur hfull _ _⟩
    · rw [hfails.resolve_left hfull]
      exact ⟨_, sysExecute_none hcur hfull _⟩
  obtain ⟨k, hrun⟩ := hrun
  unfold failed sysExecute
  rw [get_bind, hrun]
  rfl

theorem sysExecute_left (h : ¬ calls.ExecuteFails command w) :
    ∃ t w', calls.sysExecute command w = (.error t, w') := by
  have hleaves := sysExecute_leaves w.kernel w.curRegs (calls.image command w) fun cur hcur =>
    ⟨fun hfull => h ⟨cur, hcur, Or.inl hfull⟩, fun himage => h ⟨cur, hcur, Or.inr himage⟩⟩
  unfold sysExecute
  rw [get_bind]
  generalize Process.sysExecute w.kernel w.curRegs (calls.image command w) = r at hleaves ⊢
  obtain ⟨k, t⟩ := r
  cases t with
  | ret value => exact absurd rfl (hleaves value)
  | _ => exact ⟨_, _, rfl⟩

/-- A read that is refused is one that rejects its arguments. -/
theorem sysRead_rejects_iff {fd buf nbytes : BitVec 32} :
    Rejects (calls.sysRead fd buf nbytes) w ↔ calls.ReadRefused fd buf nbytes w := by
  unfold ReadRefused sysRead
  by_cases hfd : maxOpenFiles ≤ fd.toNat
  · rw [if_pos hfd]
    exact iff_of_true ⟨w, rfl, rfl⟩ (Or.inl hfd)
  · rw [if_neg hfd, or_iff_right hfd]
    unfold Rejects
    rw [get_bind]
    cases hcur : w.kernel.curProcPcb with
    | none =>
        refine iff_of_false ?_ (fun h => ?_)
        · rintro ⟨w', hrun, -⟩
          cases hrun
        · obtain ⟨cur, h, -⟩ := h
          cases h
    | some cur =>
        simp only [Option.some.injEq, exists_eq_left']
        by_cases havail : fdAvail (w.files cur) fd.toNat = true
        · rw [if_pos havail]
          exact iff_of_true ⟨w, rfl, rfl⟩ (Or.inl havail)
        · rw [if_neg havail, or_iff_right havail]
          cases ((w.files cur).fdArray fd.toNat).fOp.readFn with
          | none =>
              refine iff_of_false ?_ (fun h => ?_)
              · rintro ⟨w', hrun, -⟩
                cases hrun
              · obtain ⟨fn, h, -⟩ := h
                cases h
          | some fn => simp only [Option.some.injEq, exists_eq_left']

/-- The stored value is -1 and the rest as before, if and only if the program rejects its
arguments. -/
theorem store_eq_iff {x : Sys ρ (BitVec 32)} :
    (x >>= fun retval => store retval) w = (store (-1) : Sys ρ Unit) w ↔ Rejects x w := by
  unfold Rejects
  rcases hx : x w with ⟨value | value, w'⟩
  · rw [bind_left hx]
    refine iff_of_false (fun h => ?_) ?_
    · cases (Prod.mk.inj h).1
    · rintro ⟨w'', hrun, -⟩
      cases (Prod.mk.inj hrun).1
  · rw [bind_returned hx]
    constructor
    · intro h
      have hworld := (Prod.mk.inj h).2
      have hvalue : value = -1 := congrArg (fun w : World ρ => w.regs.eax) hworld
      subst hvalue
      exact ⟨w', rfl, hworld⟩
    · rintro ⟨w'', hrun, hworld⟩
      obtain ⟨hvalue, rfl⟩ := Prod.mk.inj hrun
      obtain rfl := Except.ok.inj hvalue
      exact Prod.ext rfl hworld

/-- The first three cases. -/
theorem cases_eq :
    ∃ others, calls.cases =
      falls .halt (fun regs => sysHalt ((regs.ebx.setWidth 8).setWidth 32)) ::
        falls .execute (fun regs => calls.sysExecute regs.ebx) ::
          brk .read (fun regs => calls.sysRead regs.ebx regs.ecx regs.edx) :: others :=
  ⟨_, rfl⟩

/-- The `switch` at `SYS_HALT`. -/
theorem runSwitch_halt :
    ∃ k, runSwitch Sysnum.halt.num calls.cases =
      some <$> ((onRegs fun regs => sysHalt ((regs.ebx.setWidth 8).setWidth 32)) >>= k) := by
  obtain ⟨others, hcases⟩ := @cases_eq _ calls
  rw [hcases]
  exact ⟨_, runSwitch_falls rfl rfl⟩

/-- The `switch` at `SYS_EXECUTE`. -/
theorem runSwitch_execute :
    runSwitch Sysnum.execute.num calls.cases =
      some <$> ((onRegs fun regs => calls.sysExecute regs.ebx) >>= fun _ =>
        onRegs fun regs => calls.sysRead regs.ebx regs.ecx regs.edx) := by
  obtain ⟨others, hcases⟩ := @cases_eq _ calls
  have hskip : Sysnum.halt.num ≠ Sysnum.execute.num := by decide
  rw [hcases]
  refine (runSwitch_skip hskip).trans ((runSwitch_falls rfl rfl).trans ?_)
  rw [fall_breaks rfl]
  rfl

/-- `SYS_HALT`. -/
theorem switchStore_halt :
    switchStore calls Sysnum.halt.num w =
      (Sysnum.halt.handler calls w.regs >>= fun retval => store retval) w := by
  obtain ⟨t, w', hrun⟩ := sysHalt_left ((w.regs.ebx.setWidth 8).setWidth 32) w
  have hcase : (onRegs fun regs => sysHalt ((regs.ebx.setWidth 8).setWidth 32)) w =
      (.error t, w') := (onRegs_run _).trans hrun
  obtain ⟨k, hswitch⟩ := @runSwitch_halt _ calls
  unfold switchStore
  rw [hswitch, bind_map_left, bind_assoc, bind_left hcase]
  exact (bind_left hrun).symm

/-- `SYS_EXECUTE`: behind a call that returns comes `sys_read`. -/
theorem switchStore_execute :
    switchStore calls Sysnum.execute.num w =
        (Sysnum.execute.handler calls w.regs >>= fun retval => store retval) w ↔
      ¬ (calls.ExecuteFails w.regs.ebx w ∧
        ¬ calls.ReadRefused w.regs.ebx w.regs.ecx w.regs.edx (calls.failed w.regs.ebx w)) := by
  unfold switchStore
  rw [runSwitch_execute, bind_map_left, bind_assoc]
  by_cases hfails : calls.ExecuteFails w.regs.ebx w
  · have hrun := sysExecute_fails hfails
    have hcase : (onRegs fun regs => calls.sysExecute regs.ebx) w =
        (.ok (-1), calls.failed w.regs.ebx w) := (onRegs_run _).trans hrun
    have hnamed : (Sysnum.execute.handler calls w.regs >>= fun retval => store retval) w =
        (store (-1) : Sys ρ Unit) (calls.failed w.regs.ebx w) := bind_returned hrun
    rw [bind_returned hcase, hnamed, and_iff_right hfails, not_not, ← sysRead_rejects_iff,
      ← store_eq_iff]
    unfold onRegs
    rw [bind_assoc, get_bind]
    exact Iff.rfl
  · obtain ⟨t, w', hrun⟩ := sysExecute_left hfails
    have hcase : (onRegs fun regs => calls.sysExecute regs.ebx) w = (.error t, w') :=
      (onRegs_run _).trans hrun
    rw [bind_left hcase]
    exact iff_of_true (bind_left hrun).symm fun h => hfails h.1

/-- A call of an accepted frame is the one of the handler that its number names, and stores
the value of the handler, if and only if it does not go astray. -/
theorem dispatch_iff (calls : Calls ρ) (frame : Nat) (w : World ρ) (h : Accepted w.regs) :
    doSys calls frame w = named calls frame w ↔ ¬ calls.Astray { w with curRegs := frame } := by
  rw [doSys_accepted h]
  cases hnum : Sysnum.ofNum w.regs.origEax with
  | none =>
      rw [named_none hnum, switchStore_none hnum]
      refine iff_of_true rfl fun hastray => ?_
      rw [hastray.1, Sysnum.ofNum_num] at hnum
      cases hnum
  | some n =>
      have hn : w.regs.origEax = n.num := by
        have hfound := List.find?_some hnum
        exact (of_decide_eq_true hfound).symm
      rw [named_num hn, hn]
      by_cases hexecute : n = .execute
      · subst hexecute
        rw [switchStore_execute]
        unfold Astray
        rw [and_iff_right (show w.regs.origEax = Sysnum.execute.num from hn)]
      · have hother : ¬ calls.Astray { w with curRegs := frame } := by
          intro hastray
          have hsame : n.num = Sysnum.execute.num := hn.symm.trans hastray.1
          have hfound := congrArg Sysnum.ofNum hsame
          rw [Sysnum.ofNum_num, Sysnum.ofNum_num] at hfound
          exact hexecute (Option.some.inj hfound)
        refine iff_of_true ?_ hother
        by_cases hhalt : n = .halt
        · subst hhalt
          exact switchStore_halt
        · exact switchStore_breaks hhalt hexecute

/-! ## A null command -/

/-- A system without programs, with one character at its terminal. -/
def oneCharacter : Calls Unit where
  image _ _ := none
  abandoned _ w := w.rest
  started _ w := (w.files, w.rest)
  fread _ _ _ _ := pure 1
  requestSignal _ _ := pure ()
  sysWrite _ _ nbytes := pure nbytes
  sysOpen _ := pure (-1)
  sysClose _ := pure (-1)
  sysGetargs _ _ := pure (-1)
  sysVidmap _ := pure (-1)
  sysSetHandler _ _ := pure 0
  sysSigreturn := onRegs fun regs => pure regs.eax
  sysKill _ _ := pure 0
  sysQuery _ _ := pure (-1)
  sysInfo _ := pure 0
  sysCreate _ := pure (-1)
  sysRm _ := pure (-1)
  sysMkdir _ := pure (-1)
  sysCd _ := pure (-1)
  sysSeek _ _ _ := pure (-1)
  sysEncrypt _ := pure (-1)
  sysDecrypt _ := pure (-1)
  sysFilemode _ := pure 0
  sysPwd _ := pure 1
  sysNetPackage _ _ := pure (-1)
  sysShutdown := pure 0
  sysSetusr _ := pure 0
  sysGetusr _ := pure (-1)
  sysGetpid := pure 0
  sysTextcolor _ := pure 0
  sysMapModex _ := pure (-1)
  sysIpconfig _ := pure (-1)
  sysGetip := pure 0

/-- The process 0 runs alone and has made the call of a number, with these three arguments. -/
def callOf (num ebx ecx edx : BitVec 32) : World Unit where
  regs := ⟨ebx, ecx, edx, 0, 0, 0, num, 0, 0, 0, num, 0x8048000, 0x23, 0x202, 0x83FFF00, 0x2B⟩
  curRegs := 0
  kernel := alone
  files _ := plainFiles
  rest := ()

/-- `execute(NULL)`, with a buffer in `ecx` and its length in `edx`, reads the character. -/
theorem dispatch_null :
    Accepted (callOf Sysnum.execute.num 0 0x8300000 1).regs ∧
      doSys oneCharacter 0x7FFFBC (callOf Sysnum.execute.num 0 0x8300000 1) ≠
        named oneCharacter 0x7FFFBC (callOf Sysnum.execute.num 0 0x8300000 1) := by
  refine ⟨by decide, fun hsame => ?_⟩
  have hcall : (doSys oneCharacter 0x7FFFBC
      (callOf Sysnum.execute.num 0 0x8300000 1)).2.regs.eax = 1 := by decide
  have hnamed : (named oneCharacter 0x7FFFBC
      (callOf Sysnum.execute.num 0 0x8300000 1)).2.regs.eax = -1 := by decide
  rw [hsame, hnamed] at hcall
  exact absurd hcall (by decide)

/-- `dispatch_iff` for `getpid()`. -/
theorem dispatch_iff_getpid :
    doSys oneCharacter 0x7FFFBC (callOf Sysnum.getpid.num 0 0 0) =
        named oneCharacter 0x7FFFBC (callOf Sysnum.getpid.num 0 0 0) ↔
      ¬ oneCharacter.Astray { callOf Sysnum.getpid.num 0 0 0 with curRegs := 0x7FFFBC } :=
  dispatch_iff oneCharacter 0x7FFFBC (callOf Sysnum.getpid.num 0 0 0) (by decide)

end Calls

end Process
end NochOS
