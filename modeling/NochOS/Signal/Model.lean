import NochOS.Library.Bytes
import NochOS.Library.Ring
import Mathlib.Data.List.GetD

/-!
# Signals - pending signals, handlers and their delivery

Every process has a handler and a mask for each signal and an intrusive list of
pending signals.  Before a return to user mode the kernel takes the first pending
signal and acts on it: it kills the process, ignores the signal, or builds a frame on
the user stack and continues in the handler, whose return leads to `sys_sigreturn`.

Main results:

- Definitions `requestSignal`, `getSignal`, `doSignal`: `signal.c`.
- Definition `handleSignal`: the frame of a handler.
- Definitions `sysSetHandler`, `sysSigreturn`: the system calls.
-/

namespace NochOS
namespace Signal

open Library

/-! ## Registers in memory -/

/-- `struct regs`. -/
structure Regs where
  ebx : BitVec 32
  ecx : BitVec 32
  edx : BitVec 32
  esi : BitVec 32
  edi : BitVec 32
  ebp : BitVec 32
  eax : BitVec 32
  xds : BitVec 32
  xes : BitVec 32
  xfs : BitVec 32
  origEax : BitVec 32
  eip : BitVec 32
  xcs : BitVec 32
  eflags : BitVec 32
  esp : BitVec 32
  xss : BitVec 32
deriving DecidableEq

/-- The fields of `struct regs`, in order. -/
def Regs.words (r : Regs) : List (BitVec 32) :=
  [r.ebx, r.ecx, r.edx, r.esi, r.edi, r.ebp, r.eax, r.xds, r.xes, r.xfs, r.origEax, r.eip, r.xcs,
    r.eflags, r.esp, r.xss]

/-- `sizeof(struct regs)`. -/
def regsSize : Nat := 64

/-- The bytes of 32-bit words that stand one after the other. -/
def wordBytes (ws : List (BitVec 32)) : Buf :=
  fun i => UInt8.ofNat ((ws.getD (i / 4) 0).toNat / 256 ^ (i % 4))

/-- The 32-bit word at an address. -/
def load32 (mem : Buf) (addr : Nat) : BitVec 32 := BitVec.ofNat 32 (u32At mem addr)

/-- The `struct regs` at an address. -/
def loadRegs (mem : Buf) (addr : Nat) : Regs where
  ebx := load32 mem addr
  ecx := load32 mem (addr + 4)
  edx := load32 mem (addr + 8)
  esi := load32 mem (addr + 12)
  edi := load32 mem (addr + 16)
  ebp := load32 mem (addr + 20)
  eax := load32 mem (addr + 24)
  xds := load32 mem (addr + 28)
  xes := load32 mem (addr + 32)
  xfs := load32 mem (addr + 36)
  origEax := load32 mem (addr + 40)
  eip := load32 mem (addr + 44)
  xcs := load32 mem (addr + 48)
  eflags := load32 mem (addr + 52)
  esp := load32 mem (addr + 56)
  xss := load32 mem (addr + 60)

/-! ## Constants -/

/-- `SIG_COUNT`. -/
def sigCount : Nat := 6

def divZero : BitVec 32 := 0
def segfault : BitVec 32 := 1
def interrupt : BitVec 32 := 2
def alarm : BitVec 32 := 3
def user1 : BitVec 32 := 4
def stackfault : BitVec 32 := 5

/-- `SIG_MASK_CLEAR`. -/
def sigMaskClear : BitVec 32 := 0

/-- `SIG_MASK_SET`. -/
def sigMaskSet : BitVec 32 := BitVec.allOnes 32

/-- `SIG_DFL`. -/
def sigDfl : BitVec 32 := 0x00100100

/-- `ERR_RVAL`. -/
def errRval : Int := 256

/-- `SIG_INT`. -/
def sigInt : Int := 5

/-- `ERR_STACK`. -/
def errStack : Int := 4

def userCs : BitVec 32 := 0x0023
def userDs : BitVec 32 := 0x002B

/-- `EFLAGS_UNMASK`. -/
def eflagsUnmask : BitVec 32 := 0x200

/-! ## The state of a process -/

/-- `sa_hand`. -/
structure SaHand where
  saHandler : BitVec 32
  saMask : BitVec 32

/-- `ksignal`. -/
structure Ksignal where
  sig : BitVec 32
  saHandler : BitVec 32
  saMask : BitVec 32

/-- What concerns a process's signals: its handlers, the head of its list of pending
signals, the links and the signal numbers of list nodes, the nodes that are allocated,
the saved masks and its memory.  `freedTwice` records a free of a node that was not
allocated. -/
structure SigState where
  sighand : Nat → SaHand
  sigpending : Nat
  links : Links Nat
  sig : Nat → BitVec 32
  allocated : Nat → Bool
  freedTwice : Bool
  sigmaskInfo : Nat → BitVec 32
  mem : Buf

/-! ## list.h -/

/-- `LIST_POISON1`. -/
def listPoison1 : Nat := 0x00100100

/-- `LIST_POISON2`. -/
def listPoison2 : Nat := 0x00200200

/-- The offset of `sig_list` in a `sigaction`. -/
def sigList : Nat := 4

/-- `init_list_head`. -/
def initListHead (l : Links Nat) (node : Nat) : Links Nat where
  next := Function.update l.next node node
  prev := Function.update l.prev node node

/-- `list_is_empty`. -/
def listIsEmpty (l : Links Nat) (head : Nat) : Bool := l.next head == head

/-- `list_insert_before`. -/
def listInsertBefore (l : Links Nat) (node tail : Nat) : Links Nat :=
  l.link node (l.prev tail) tail

/-- `list_delete`. -/
def listDelete (l : Links Nat) (node : Nat) : Links Nat :=
  let l := l.unlink (l.prev node) (l.next node)
  { next := Function.update l.next node listPoison1
    prev := Function.update l.prev node listPoison2 }

/-! ## signal.h -/

/-- `enqueue_signal` of a `sigaction`. -/
def enqueueSignal (t : SigState) (node : Nat) : SigState :=
  { t with links := listInsertBefore t.links (node + sigList) t.sigpending }

/-- `dequeue_signal`. -/
def dequeueSignal (t : SigState) : SigState × Option Nat :=
  if listIsEmpty t.links t.sigpending then (t, none)
  else
    let listFirst := t.links.next t.sigpending
    ({ t with links := listDelete t.links listFirst }, some (listFirst - sigList))

/-- `PUSH_USR`. -/
def pushUsr (mem : Buf) (esp : BitVec 32) (src : Buf) (size : Nat) : Buf × BitVec 32 :=
  let esp := esp - BitVec.ofNat 32 size
  (memcpy mem esp.toNat src 0 size, esp)

/-! ## signal.c -/

/-- `save_sigmask`. -/
def saveSigmask (t : SigState) : SigState :=
  { t with
    sigmaskInfo := fun i => if i < sigCount then (t.sighand i).saMask else t.sigmaskInfo i }

/-- `restore_saved_sigmask`. -/
def restoreSavedSigmask (t : SigState) : SigState :=
  { t with
    sighand := fun i =>
      if i < sigCount then { t.sighand i with saMask := t.sigmaskInfo i } else t.sighand i }

/-- `set_other_sigmask`. -/
def setOtherSigmask (t : SigState) (signum : BitVec 32) : SigState :=
  { t with
    sighand := fun i =>
      if i < sigCount ∧ i ≠ signum.toNat then { t.sighand i with saMask := sigMaskSet }
      else t.sighand i }

/-- `request_signal`, with the node that `malloc` returns. -/
def requestSignal (t : SigState) (signum : BitVec 32) (node : Nat) : SigState :=
  enqueueSignal
    { t with
      allocated := Function.update t.allocated node true
      sig := Function.update t.sig node signum } node

/-- `free` of a node. -/
def freeNode (t : SigState) (node : Nat) : SigState :=
  { t with
    allocated := Function.update t.allocated node false
    freedTwice := t.freedTwice || !t.allocated node }

/-- `get_signal`. -/
def getSignal (t : SigState) : SigState × Option Ksignal :=
  match dequeueSignal t with
  | (t, none) => (t, none)
  | (t, some action) =>
      (freeNode t action,
        some
          { sig := t.sig action
            saHandler := (t.sighand (t.sig action).toNat).saHandler
            saMask := (t.sighand (t.sig action).toNat).saMask })

/-- How a function goes on: it returns, it kills the process with a return value, or
it jumps to `ret_from_sig`; with the register frame. -/
inductive Flow
  | ret (regs : Regs)
  | kill (rval : Int)
  | resume (regs : Regs)
deriving DecidableEq

/-- `do_signal_dfl`, up to `kill_pid`. -/
def doSignalDfl (t : SigState) (rval : Int) : SigState × Flow := (restoreSavedSigmask t, .kill rval)

/-- `SIG_INJECT_SIZE`. -/
def sigInjectSize : Nat := 12

/-- The code that is pushed: `add esp, 4`, `mov eax, 10` and `int 0x80`. -/
def payload : List UInt8 :=
  [0x83, 0xC4, 0x04, 0xB8, 0x0A, 0x00, 0x00, 0x00, 0xCD, 0x80, 0x00, 0x00]

/-- The frame that `handle_signal` pushes, the stack pointer below it and the address of
the code in it. -/
def pushFrame (mem : Buf) (ksig : Ksignal) (regs : Regs) : Buf × BitVec 32 × BitVec 32 :=
  let (mem, userEsp) := pushUsr mem regs.esp (fun i => payload.getD i 0) sigInjectSize
  let retAddr := userEsp
  let (mem, userEsp) := pushUsr mem userEsp (wordBytes regs.words) regsSize
  let (mem, userEsp) := pushUsr mem userEsp (wordBytes [ksig.sig]) 4
  let (mem, userEsp) := pushUsr mem userEsp (wordBytes [retAddr]) 4
  (mem, userEsp, retAddr)

/-- `handle_signal`. -/
def handleSignal (t : SigState) (ksig : Ksignal) (regs : Regs) : SigState × Flow :=
  let t := restoreSavedSigmask t
  let (mem, userEsp, _) := pushFrame t.mem ksig regs
  ({ t with mem := mem },
    .resume
      { regs with
        eip := ksig.saHandler
        xcs := userCs
        eflags := regs.eflags ||| eflagsUnmask
        esp := userEsp
        xss := userDs })

/-- The `switch` of `do_signal` for signals with the default handler. -/
def doDefault (t : SigState) (sig : BitVec 32) (regs : Regs) : SigState × Flow :=
  if sig = divZero ∨ sig = segfault then doSignalDfl t errRval
  else if sig = interrupt then doSignalDfl t sigInt
  else if sig = alarm ∨ sig = user1 then (restoreSavedSigmask t, .ret regs)
  else if sig = stackfault then doSignalDfl t errStack
  else (restoreSavedSigmask t, .ret regs)

/-- `do_signal`, with the signal it acts on. -/
def doSignal (t : SigState) (regs : Regs) : (SigState × Flow) × Option (BitVec 32) :=
  if regs.xcs ≠ userCs then ((t, .ret regs), none)
  else
    match getSignal (saveSigmask t) with
    | (t, none) => ((restoreSavedSigmask t, .ret regs), none)
    | (t, some ksig) =>
        if ksig.saMask = sigMaskClear then
          let t := setOtherSigmask t ksig.sig
          if ksig.saHandler = sigDfl then (doDefault t ksig.sig regs, some ksig.sig)
          else (handleSignal t ksig regs, some ksig.sig)
        else ((restoreSavedSigmask t, .ret regs), none)

/-- `proc_signal_init`. -/
def procSignalInit (t : SigState) : SigState :=
  { t with
    links := initListHead t.links t.sigpending
    sighand := fun i =>
      if i < sigCount then { saHandler := sigDfl, saMask := sigMaskClear } else t.sighand i }

/-! ## syscall.c -/

/-- `sys_set_handler`. -/
def sysSetHandler (t : SigState) (signum handlerAddress : BitVec 32) : SigState × Int :=
  if signum.toInt < divZero.toInt ∨ user1.toInt < signum.toInt then (t, -1)
  else
    ({ t with
      sighand := Function.update t.sighand signum.toNat
        { saHandler := handlerAddress, saMask := sigMaskClear } }, 0)

/-- `sys_sigreturn`; the flow of a return has the register frame it leaves. -/
def sysSigreturn (t : SigState) (curRegs : Regs) : (SigState × Flow) × Option (BitVec 32) :=
  let curRegs := loadRegs t.mem curRegs.esp.toNat
  if listIsEmpty t.links t.sigpending then ((t, .ret curRegs), none)
  else doSignal t curRegs

end Signal
end NochOS
