import NochOS.Process.AddressSpace
import NochOS.Heap.PageTable

/-!
# Memory - the page directory, its three page tables and who edits them

The process operations and the heap share one page directory.  This module puts
their two states together, embeds the rest of `paging.c` and the two system calls
that map video memory, and says what the processor finds for a linear address.

Main results:

- Structure `Machine`: processes, heap and the page tables.
- Definitions `setupPaging`, `sessSwitch`, `sysVidmap`, `sysMapModex`: the edits
  that no other module has.
- Definition `perform`: an action on the machine.
-/

namespace NochOS
namespace Memory

open Library Paging Process

/-- `MODEX_PAGE_SIZE`. -/
def modexPageSize : Nat := 0x1000

/-- `MODEX_PAGE_NUM`. -/
def modexPageNum : Nat := 16

/-- `MODEX_VIRT_START`. -/
def modexVirtStart : Nat := vmemVirtStart + modexPageSize

/-- `USER_VIRT_BOT`. -/
def userVirtBot : Nat := 0x8400000

/-- `NUM_PTE`. -/
def numPte : Nat := 1024

/-- `UTIL_ADDR`. -/
def utilAddr : Nat := 0

/-- The processes, the heap and the page tables.  The page directory is the one of
`kernel`; `heap.pageDirectory` is only used while a heap function runs. -/
structure Machine where
  kernel : Kernel
  heap : Heap.HeapState
  heapPageTableAddr : BitVec 32
  firstPageTable : Table
  firstPageTableAddr : BitVec 32

/-- The page tables at their addresses; `rest` is what lies at any other address. -/
def Machine.tables (m : Machine) (rest : Nat → Table) : Nat → Table :=
  Function.update
    (Function.update (Function.update rest m.firstPageTableAddr.toNat m.firstPageTable)
      m.heapPageTableAddr.toNat m.heap.heapPageTable)
    m.kernel.progPageTableAddr.toNat m.kernel.progPageTable

/-- What the processor finds for a linear address. -/
def Machine.translate (m : Machine) (rest : Nat → Table) (linear : Nat) : Option Access :=
  walk m.kernel.pageDirectory (m.tables rest) linear

/-! ## paging.c -/

/-- An assignment to an entry of the page directory. -/
def setPde (m : Machine) (idx : Nat) (entry : BitVec 32) : Machine :=
  { m with
    kernel :=
      { m.kernel with pageDirectory := Function.update m.kernel.pageDirectory idx entry } }

/-- `map_virtual_4kb_first`. -/
def mapVirtual4kbFirst (m : Machine) (physStart virtStart : Nat) : Machine :=
  let m := setPde m (virtStart / 2 ^ 22)
    ((m.firstPageTableAddr &&& 0xFFFFF000#32 &&& ~~~enA) ||| enP ||| enRw)
  { m with
    firstPageTable := Function.update m.firstPageTable (virtStart * 2 ^ 10 % 2 ^ 32 / 2 ^ 22)
      ((BitVec.ofNat 32 physStart &&& 0xFFFFF000#32 &&& ~~~enA) ||| enP ||| enRw) }

/-- `setup_utility_page`. -/
def setupUtilityPage (m : Machine) : Machine := mapVirtual4kbFirst m utilAddr utilAddr

/-- `setup_first_page_table`. -/
def setupFirstPageTable (m : Machine) : Machine :=
  let m :=
    { m with
      firstPageTable := fun i =>
        if i < numPte then BitVec.ofNat 32 (i * 4096) ||| enRw else m.firstPageTable i }
  setPde m 0 (m.firstPageTableAddr ||| enP ||| enRw)

/-- `setup_kernel_page`. -/
def setupKernelPage (m : Machine) : Machine := setPde m 1 (0x00400000#32 ||| enP ||| enRw ||| enPs)

/-- `setup_video_page`. -/
def setupVideoPage (m : Machine) : Machine :=
  { m with
    firstPageTable := Function.update m.firstPageTable (video / 2 ^ 12 % 2 ^ 10)
      (BitVec.ofNat 32 video ||| enP ||| enRw) }

/-- `setup_history_page`. -/
def setupHistoryPage (m : Machine) : Machine :=
  setPde m 9 (0x02400000#32 ||| enP ||| enRw ||| enPs)

/-- `setup_paging`. -/
def setupPaging (m : Machine) : Machine :=
  setupHistoryPage (setupVideoPage (setupKernelPage (setupUtilityPage (setupFirstPageTable m))))

/-! ## The heap -/

/-- The state a heap function works on. -/
def Machine.heapState (m : Machine) : Heap.HeapState :=
  { m.heap with pageDirectory := m.kernel.pageDirectory }

/-- The machine after a heap function. -/
def Machine.withHeap (m : Machine) (s : Heap.HeapState) : Machine :=
  { m with heap := s, kernel := { m.kernel with pageDirectory := s.pageDirectory } }

/-! ## terminal.c -/

/-- `terminal_init`, with the mappings of the cached screens. -/
def terminalInit (m : Machine) : Machine :=
  let m := (List.range numSess).foldl
    (fun m i => mapVirtual4kbFirst m (getCachedVidmem i) (getCachedVidmem i)) m
  { m with kernel := Process.terminalInit m.kernel }

/-- `sess_switch`, with the mapping of the kernel's own video page. -/
def sessSwitch (m : Machine) (sessId : Nat) : Machine :=
  if numSess ≤ sessId then m
  else if sessId = m.kernel.curSessId then m
  else
    let m := mapVirtual4kbFirst m video video
    { m with kernel := (Process.sessSwitch m.kernel sessId).1 }

/-! ## syscall.c -/

/-- `sys_vidmap`. -/
def sysVidmap (m : Machine) (screenStart : Nat) : Machine × Int :=
  if screenStart = 0 then (m, -1)
  else if screenStart < userVirtTop ∨ userVirtBot ≤ screenStart then (m, -1)
  else ({ m with kernel := mapVirtual4kbProg m.kernel video vmemVirtStart }, 0)

/-- `sys_map_modex`. -/
def sysMapModex (m : Machine) (screenStart : Nat) : Machine × Int :=
  if screenStart = 0 then (m, -1)
  else if screenStart < userVirtTop ∨ userVirtBot ≤ screenStart then (m, -1)
  else
    ({ m with
      kernel := (List.range modexPageNum).foldl
        (fun k i => mapVirtual4kbProg k (video + i * modexPageSize)
          (modexVirtStart + i * modexPageSize)) m.kernel }, 0)

/-! ## Actions -/

/-- What edits the page tables.  `start` is `terminal_init` and the first
`sys_execute`. -/
inductive Action
  | setupPaging
  | heapInit
  | malloc (size : Nat)
  | free (ptr : Nat)
  | start (curRegs entryPoint : Nat)
  | process (a : Process.Action)
  | vidmap (screenStart : Nat)
  | mapModex (screenStart : Nat)

/-- The terminal is started once, and processes act from then on. -/
def Enabled (m : Machine) : Action → Prop
  | .start _ _ => m.kernel.curProcPcb = none
  | .process _ => m.kernel.curProcPcb ≠ none
  | _ => True

/-- The machine after an action of a process. -/
def performProcess (m : Machine) : Process.Action → Machine
  | .switch sessId => sessSwitch m sessId
  | .execute curRegs image =>
      { m with kernel := Process.perform m.kernel (.execute curRegs image) }
  | .exit exitCode => { m with kernel := Process.perform m.kernel (.exit exitCode) }
  | .sched regs shell ebp => { m with kernel := Process.perform m.kernel (.sched regs shell ebp) }

/-- The machine after an action. -/
def perform (m : Machine) : Action → Machine
  | .setupPaging => setupPaging m
  | .heapInit => m.withHeap (Heap.heapInit m.heapPageTableAddr m.heapState)
  | .malloc size => m.withHeap (Heap.malloc m.heapState size).2
  | .free ptr => m.withHeap (Heap.free m.heapState ptr)
  | .start curRegs entryPoint =>
      let m := terminalInit m
      { m with kernel := (sysExecute m.kernel curRegs (some entryPoint)).1 }
  | .process a => performProcess m a
  | .vidmap screenStart => (sysVidmap m screenStart).1
  | .mapModex screenStart => (sysMapModex m screenStart).1

/-- A machine that has only been loaded: no process is in use and all tables are
clear.  The three tables are different, and aligned as they are declared. -/
structure Loaded (m : Machine) : Prop where
  running : m.kernel.curProcPcb = none
  unused : ∀ p < numProc, m.kernel.procStatus p = .inactive
  directory : m.kernel.pageDirectory = fun _ => 0
  prog : m.kernel.progPageTable = fun _ => 0
  heap : m.heap.heapPageTable = fun _ => 0
  aligned : m.kernel.progPageTableAddr.toNat % 2 ^ 12 = 0 ∧
    m.heapPageTableAddr.toNat % 2 ^ 12 = 0 ∧ m.firstPageTableAddr.toNat % 2 ^ 12 = 0
  apart : m.kernel.progPageTableAddr ≠ m.heapPageTableAddr ∧
    m.heapPageTableAddr ≠ m.firstPageTableAddr ∧
    m.kernel.progPageTableAddr ≠ m.firstPageTableAddr

/-- Runs of the actions, in any order the start allows. -/
def machineSystem : TransitionSystem Machine where
  init := Loaded
  step m m' := ∃ a, Enabled m a ∧ m' = perform m a

end Memory
end NochOS
