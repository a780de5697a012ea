import NochOS.Process.Display
import NochOS.Heap.Model
import Mathlib.Order.CompletePartialOrder
import Mathlib.Order.Interval.Set.Disjoint

/-!
# Processes - address space and kernel stack of the running process

Four code paths change the running process, and each of them maps the program page
and sets the stack that the next trap uses on its own.  This module states that the
processor's own view, the walk through the page directory and the task state
segment, is the running process's in every state, and that processes in use share
no memory.

Main results:

- Theorem `Outcome.inPlace`: whatever an action comes to, it leaves the running
  process in place.
- Theorem `addressSpace_follows`: in every reachable state the program page and the
  kernel stack are the running process's, and no two processes in use share memory.
-/

namespace NochOS
namespace Process

open Library Paging

/-- The page tables at their addresses; `rest` is what lies at any other address. -/
def Kernel.tables (k : Kernel) (rest : Nat → Table) : Nat → Table :=
  Function.update rest k.progPageTableAddr.toNat k.progPageTable

/-- What the processor finds for a linear address. -/
def Kernel.translate (k : Kernel) (rest : Nat → Table) (linear : Nat) : Option Access :=
  walk k.pageDirectory (k.tables rest) linear

/-! ## Memory of a process -/

/-- `get_pcb_by_pid`, as an address. -/
def getPcbByPid (pid : Nat) : Nat := kernelBot - kstackSize * (pid + 1)

/-- The physical frame a process is loaded into. -/
def userFrame (pid : Nat) : Set Nat :=
  Set.Ico (getPhysAddrByPid pid) (getPhysAddrByPid pid + progPageSize)

/-- The kernel stack of a process, with its control block at the low end
(`proc_stack`). -/
def procStack (pid : Nat) : Set Nat := Set.Ico (getPcbByPid pid) (getPcbByPid pid + kstackSize)

/-- The physical memory of the heap. -/
def heapFrame : Set Nat :=
  Set.Ico Heap.heapPhysTop (Heap.heapPhysTop + Heap.heapEntry * Heap.heapPageSize)

/-- The physical memory of the terminal history. -/
def historyFrame : Set Nat := Set.Ico 0x02400000 (0x02400000 + 0x400000)

/-- All the memory a process has to itself. -/
def footprint (pid : Nat) : Set Nat := userFrame pid ∪ procStack pid

/-- The stack the processor takes on a trap lies in the kernel stack of its process. -/
theorem getEsp0ByPid_mem {pid : Nat} (h : pid < numProc) : getEsp0ByPid pid ∈ procStack pid := by
  unfold numProc at h
  unfold procStack getPcbByPid getEsp0ByPid kernelBot kstackSize
  rw [Set.mem_Ico]
  omega

/-- The memory of a process is neither heap nor history. -/
theorem footprint_disjoint_kernel {pid : Nat} (h : pid < numProc) :
    Disjoint (footprint pid) (heapFrame ∪ historyFrame) := by
  unfold numProc at h
  rw [Set.disjoint_left]
  intro a ha hb
  simp only [footprint, userFrame, procStack, heapFrame, historyFrame, getPhysAddrByPid,
    getPcbByPid, kernelBot, kstackSize, progPageSize, Heap.heapPhysTop, Heap.heapEntry,
    Heap.heapPageSize, Set.mem_union, Set.mem_Ico] at ha hb
  omega

/-- Different processes have no memory in common. -/
theorem footprint_disjoint {p q : Nat} (hp : p < numProc) (hq : q < numProc) (hne : p ≠ q) :
    Disjoint (footprint p) (footprint q) := by
  unfold numProc at hp hq
  rw [Set.disjoint_left]
  intro a ha hb
  simp only [footprint, userFrame, procStack, getPhysAddrByPid, getPcbByPid, kernelBot,
    kstackSize, progPageSize, Set.mem_union, Set.mem_Ico] at ha hb
  omega

/-! ## The running process in place -/

/-- The program page and the stack of the next trap are the running process's. -/
structure InPlace (k : Kernel) (cur : Nat) : Prop where
  running : k.curProcPcb = some cur
  page : k.pageDirectory (userVirtTop / 2 ^ 22) = largeEntry (getPhysAddrByPid cur)
  stack : k.tssEsp0 = getEsp0ByPid cur

/-- The two mappings of a switch leave the program page of the process. -/
theorem show_page (k : Kernel) (pid vidmem : Nat) :
    (k.show pid vidmem).pageDirectory (userVirtTop / 2 ^ 22) =
      largeEntry (getPhysAddrByPid pid) := by
  have hne : userVirtTop / 2 ^ 22 ≠ vmemVirtStart / 2 ^ 22 := by decide
  simp only [Kernel.show, mapVirtual4kbProg, mapVirtual4mb, Function.update_of_ne hne,
    Function.update_self]
  rfl

theorem InPlace.of_switchesTo {k k' : Kernel} {pid vidmem : Nat} {desc : Nat → Sess}
    (h : SwitchesTo k k' pid vidmem desc) : InPlace k' pid where
  running := h.running
  page := by rw [h.directory, show_page]
  stack := h.tss

/-- Whatever an action comes to, it leaves the running process in place. -/
theorem Outcome.inPlace {k k' : Kernel} {t t' : Sessions} {a : Action}
    (hout : Outcome k t a k' t') (h : ∃ cur, InPlace k cur) : ∃ cur, InPlace k' cur := by
  obtain ⟨cur, h⟩ := h
  cases hout with
  | quiet hsame _ =>
      exact ⟨cur, hsame.running.trans h.running, by rw [hsame.directory, h.page],
        hsame.tss.trans h.stack⟩
  | started _ _ _ hswitch => exact ⟨_, InPlace.of_switchesTo hswitch⟩
  | exited _ _ hswitch => exact ⟨_, InPlace.of_switchesTo hswitch⟩
  | scheduled _ _ _ hswitch => exact ⟨_, InPlace.of_switchesTo hswitch⟩
  | displayed _ _ heq =>
      have hne : userVirtTop / 2 ^ 22 ≠ vmemVirtStart / 2 ^ 22 := by decide
      refine ⟨cur, ?_, ?_, ?_⟩
      · rw [heq]
        exact h.running
      · rw [heq]
        simp only [mapVirtual4kbProg, Function.update_of_ne hne, h.page]
      · rw [heq]
        exact h.stack

/-- A started machine runs the first shell in place. -/
theorem Started.inPlace {k : Kernel} (h : Started k) : InPlace k 0 := by
  obtain ⟨hboot, -, -, -, k₀, -, hdir, -, htss⟩ := Started.spec h
  exact ⟨hboot.running, by rw [hdir, show_page], htss⟩

/-- The processor finds the frame of the process behind the program page. -/
theorem InPlace.translate {k : Kernel} {cur : Nat} (h : InPlace k cur) (hcur : cur < numProc)
    (rest : Nat → Table) {off : Nat} (hoff : off < progPageSize) :
    k.translate rest (userVirtTop + off) = some ⟨getPhysAddrByPid cur + off, true⟩ := by
  unfold progPageSize at hoff
  have hidx : (userVirtTop + off) / 2 ^ 22 = userVirtTop / 2 ^ 22 := by
    unfold userVirtTop
    omega
  have hoffset : (userVirtTop + off) % 2 ^ 22 = off := by
    unfold userVirtTop
    omega
  obtain ⟨hpresent, huser, hlarge⟩ := largeEntry_flags (getPhysAddrByPid cur)
  have hbase : largeBase (largeEntry (getPhysAddrByPid cur)) = getPhysAddrByPid cur := by
    unfold numProc at hcur
    apply largeBase_largeEntry
    · unfold getPhysAddrByPid kernelBot progPageSize
      omega
    · unfold getPhysAddrByPid kernelBot progPageSize
      omega
  have hwalk := @walk_large k.pageDirectory (k.tables rest) (userVirtTop + off)
    (by rw [hidx, h.page, hpresent]) (by rw [hidx, h.page, hlarge])
  rw [hidx, h.page, hbase, huser, hoffset] at hwalk
  exact hwalk

/-- In every reachable state, whatever the order of successful and failed executions,
exits, scheduling and switches of the display: behind the program page lies the frame
of the running process, open to user mode; the next trap takes its kernel stack; and
the frames, stacks and control blocks of the processes in use overlap neither with one
another nor with the heap or the history. -/
theorem addressSpace_follows (k : Kernel)
    (hk : (displaySystem fun _ _ => True).Reachable k) :
    (∃ cur, k.curProcPcb = some cur ∧ k.Alive cur ∧
      (∀ rest, ∀ off < progPageSize, k.translate rest (userVirtTop + off) =
        some ⟨getPhysAddrByPid (k.pcb cur).pid + off, true⟩) ∧
      k.tssEsp0 = getEsp0ByPid (k.pcb cur).pid ∧
      getEsp0ByPid (k.pcb cur).pid ∈ procStack (k.pcb cur).pid) ∧
    (∀ p, k.Alive p → (k.pcb p).pid = p ∧ Disjoint (footprint p) (heapFrame ∪ historyFrame)) ∧
    ∀ p q, k.Alive p → k.Alive q → p ≠ q → Disjoint (footprint p) (footprint q) := by
  have hinv : (displaySystem fun _ _ => True).IsInvariant fun k =>
      (∃ t, Settled k t) ∧ ∃ cur, InPlace k cur := by
    refine ⟨fun k h => ⟨⟨_, (Started.spec h).2.1⟩, 0, Started.inPlace h⟩, ?_⟩
    rintro k k' ⟨⟨t, h⟩, hplace⟩ ⟨a, -, rfl⟩
    obtain ⟨t', h', hout⟩ := h.perform a
    exact ⟨⟨t', h'⟩, hout.inPlace hplace⟩
  obtain ⟨⟨t, h⟩, cur, hplace⟩ := hinv.of_reachable hk
  have hcur : t.leaf t.current = cur :=
    Option.some_inj.mp (h.represents.running.symm.trans hplace.running)
  have halive := (h.represents.leaf_alive h.represents.current).1
  rw [hcur] at halive
  have hpid := h.represents.pid cur halive
  refine ⟨⟨cur, hplace.running, halive, ?_, ?_, ?_⟩, ?_, ?_⟩
  · intro rest off hoff
    rw [hpid]
    exact hplace.translate halive.1 rest hoff
  · rw [hpid]
    exact hplace.stack
  · rw [hpid]
    exact getEsp0ByPid_mem halive.1
  · intro p hp
    exact ⟨h.represents.pid p hp, footprint_disjoint_kernel hp.1⟩
  · intro p q hp hq hne
    exact footprint_disjoint hp.1 hq.1 hne

/-- The first shell executes a program and runs on: the program page is the one of
process 3. -/
theorem addressSpace_follows_boot :
    ∃ cur, (sysExecute bootKernel 0 (some 0)).1.curProcPcb = some cur ∧
      (sysExecute bootKernel 0 (some 0)).1.tssEsp0 =
        getEsp0ByPid ((sysExecute bootKernel 0 (some 0)).1.pcb cur).pid := by
  have hstart : (displaySystem fun _ _ => True).Reachable bootKernel :=
    TransitionSystem.Reachable.init ⟨blankKernel, 0, 0, rfl, fun _ _ => rfl, rfl, rfl⟩
  have hrun : (displaySystem fun _ _ => True).Reachable (sysExecute bootKernel 0 (some 0)).1 :=
    hstart.step ⟨.execute 0 (some 0), trivial, rfl⟩
  obtain ⟨⟨cur, hcur, -, -, htss, -⟩, -, -⟩ := addressSpace_follows _ hrun
  exact ⟨cur, hcur, htss⟩

end Process
end NochOS
