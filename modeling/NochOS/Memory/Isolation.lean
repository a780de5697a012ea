import NochOS.Memory.Model

/-!
# Memory - what user mode can reach

A linear address is open to user mode when the directory entry and, for a small
page, the table entry carry the user flag.  Three directory entries ever carry it:
the program page, the slot of the video pages and the slot of the heap.  This module
shows that what lies behind them is the frame of the running process, video memory
and the heap.

Main results:

- Structure `Sealed`: the entries that carry the user flag are the ones the kernel
  means to.
- Theorem `Isolated.perform`: every action keeps them so.
- Theorem `user_isolated`: what user mode can reach in every reachable state.
- Theorem `user_reaches_heap`: user mode reaches the heap, and pages behind the
  cached screens.
-/

namespace NochOS
namespace Memory

open Library Paging Process

/-- A page that `sys_map_modex` maps: `VIDEO`, a cached screen or a page behind them. -/
def IsVideo (physStart : Nat) : Prop :=
  ∃ n < modexPageNum, physStart = video + n * modexPageSize

/-- The directory entries that carry the user flag. -/
def UserPde (k : Kernel) (heapAddr : BitVec 32) (i : Nat) (pde : BitVec 32) : Prop :=
  (i = userVirtTop / 2 ^ 22 ∧
      ∃ cur, k.curProcPcb = some cur ∧ pde = largeEntry (getPhysAddrByPid cur)) ∨
    (i = vmemVirtStart / 2 ^ 22 ∧ pde = smallEntry k.progPageTableAddr) ∨
    (i = Heap.heapVirtTop / 2 ^ 22 ∧ pde = smallEntry heapAddr)

/-- Every entry that carries the user flag is one of these, and in the table of the
video pages it maps a page of video memory. -/
structure Sealed (k : Kernel) (heapAddr : BitVec 32) : Prop where
  directory : ∀ i, user (k.pageDirectory i) = true → UserPde k heapAddr i (k.pageDirectory i)
  table : ∀ j, user (k.progPageTable j) = true →
    ∃ physStart, IsVideo physStart ∧
      k.progPageTable j = smallEntry (BitVec.ofNat 32 physStart)

/-! ## Edits of the tables -/

section Edits

variable {k k' : Kernel} {heapAddr : BitVec 32}

/-- Tables that nothing edits stay sealed, as long as the same process runs. -/
theorem Sealed.congr (h : Sealed k heapAddr) (hcur : k'.curProcPcb = k.curProcPcb)
    (hdir : k'.pageDirectory = k.pageDirectory) (htab : k'.progPageTable = k.progPageTable)
    (haddr : k'.progPageTableAddr = k.progPageTableAddr) : Sealed k' heapAddr where
  directory i huser := by
    rw [hdir] at huser ⊢
    have hpde := h.directory i huser
    unfold UserPde at hpde ⊢
    rw [hcur, haddr]
    exact hpde
  table j huser := by
    rw [htab] at huser ⊢
    exact h.table j huser

/-- A directory entry without the user flag. -/
theorem Sealed.setPde (h : Sealed k heapAddr) (idx : Nat) {entry : BitVec 32}
    (hentry : user entry = false) :
    Sealed { k with pageDirectory := Function.update k.pageDirectory idx entry } heapAddr where
  directory i huser := by
    by_cases hi : i = idx
    · subst hi
      simp only [Function.update_self, hentry] at huser
      exact absurd huser (by decide)
    · simp only [Function.update_of_ne hi] at huser ⊢
      exact h.directory i huser
  table := h.table

/-- The directory entry of the heap. -/
theorem Sealed.setHeapPde (h : Sealed k heapAddr) :
    Sealed { k with
      pageDirectory := Function.update k.pageDirectory (Heap.heapVirtTop / 2 ^ 22)
        (smallEntry heapAddr) } heapAddr where
  directory i huser := by
    by_cases hi : i = Heap.heapVirtTop / 2 ^ 22
    · subst hi
      simp only [Function.update_self]
      exact Or.inr (Or.inr ⟨rfl, rfl⟩)
    · simp only [Function.update_of_ne hi] at huser ⊢
      exact h.directory i huser
  table := h.table

/-- A page of video memory in the slot of the video pages. -/
theorem Sealed.mapVirtual4kbProg (h : Sealed k heapAddr) {physStart virtStart : Nat}
    (hvideo : IsVideo physStart) (hslot : virtStart / 2 ^ 22 = vmemVirtStart / 2 ^ 22) :
    Sealed (mapVirtual4kbProg k physStart virtStart) heapAddr where
  directory i huser := by
    simp only [Process.mapVirtual4kbProg] at huser ⊢
    by_cases hi : i = virtStart / 2 ^ 22
    · subst hi
      simp only [Function.update_self]
      exact Or.inr (Or.inl ⟨hslot, rfl⟩)
    · simp only [Function.update_of_ne hi] at huser ⊢
      exact h.directory i huser
  table j huser := by
    simp only [Process.mapVirtual4kbProg] at huser ⊢
    by_cases hj : j = virtStart * 2 ^ 10 % 2 ^ 32 / 2 ^ 22
    · subst hj
      simp only [Function.update_self]
      exact ⟨physStart, hvideo, rfl⟩
    · simp only [Function.update_of_ne hj] at huser ⊢
      exact h.table j huser

/-- The program page of the process that is about to run. -/
theorem Sealed.mapProgram (h : Sealed k heapAddr) (pid : Nat) :
    Sealed { mapVirtual4mb k (getPhysAddrByPid pid) userVirtTop with curProcPcb := some pid }
      heapAddr where
  directory i huser := by
    simp only [mapVirtual4mb] at huser ⊢
    by_cases hi : i = userVirtTop / 2 ^ 22
    · subst hi
      simp only [Function.update_self]
      exact Or.inl ⟨rfl, pid, rfl, rfl⟩
    · simp only [Function.update_of_ne hi] at huser ⊢
      rcases h.directory i huser with ⟨hslot, -⟩ | hother
      · exact absurd hslot hi
      · exact Or.inr hother
  table := h.table

/-- A switch to another process. -/
theorem Sealed.switchesTo (h : Sealed k heapAddr) {pid vidmem : Nat} {desc : Nat → Sess}
    (hvideo : IsVideo vidmem) (hswitch : SwitchesTo k k' pid vidmem desc) :
    Sealed k' heapAddr := by
  refine ((h.mapProgram pid).mapVirtual4kbProg hvideo rfl).congr hswitch.running ?_ ?_ ?_
  · exact hswitch.directory
  · exact hswitch.table
  · exact hswitch.tableAddr

end Edits

/-- The page a process gets as its video page is video memory. -/
theorem isVideo_vidmem {k : Kernel} {session : Nat}
    (hcached : (k.sessDesc session).cachedVidmem = getCachedVidmem session)
    (hs : session < numSess) (sess : Nat) : IsVideo (k.vidmem sess session) := by
  unfold numSess at hs
  unfold Kernel.vidmem
  by_cases hdisp : sess = k.curSessId
  · rw [if_pos hdisp]
    exact ⟨0, by decide, rfl⟩
  · rw [if_neg hdisp, hcached]
    refine ⟨session + 1, ?_, ?_⟩
    · unfold modexPageNum
      omega
    · unfold getCachedVidmem modexPageSize vidmemSize
      omega

/-- Whatever a process's action comes to, the tables stay sealed and in place. -/
theorem Sealed.outcome {k k' : Kernel} {t t' : Sessions} {a : Process.Action}
    {heapAddr : BitVec 32} (h : Sealed k heapAddr) (hset : Settled k t)
    (hout : Outcome k t a k' t') :
    Sealed k' heapAddr ∧ k'.progPageTableAddr = k.progPageTableAddr := by
  have hcur := hset.represents.current
  have hvideo : ∀ sess session, session < numSess → IsVideo (k.vidmem sess session) :=
    fun sess session hs => isVideo_vidmem (hset.cached session hs) hs sess
  cases hout with
  | quiet hsame _ =>
      exact ⟨h.congr hsame.running hsame.directory hsame.table hsame.tableAddr, hsame.tableAddr⟩
  | started _ _ _ hswitch =>
      exact ⟨h.switchesTo (hvideo _ _ hset.displayed) hswitch, hswitch.tableAddr⟩
  | exited _ _ hswitch => exact ⟨h.switchesTo (hvideo _ _ hcur) hswitch, hswitch.tableAddr⟩
  | scheduled hs _ _ hswitch => exact ⟨h.switchesTo (hvideo _ _ hs) hswitch, hswitch.tableAddr⟩
  | @displayed sessId _ hlt _ heq =>
      rw [heq]
      refine ⟨Sealed.mapVirtual4kbProg ?_ ?_ rfl, rfl⟩
      · exact h.congr rfl rfl rfl rfl
      · exact @isVideo_vidmem { k with curSessId := sessId } sessId (hset.cached sessId hlt) hlt _

/-! ## The invariant -/

/-- The terminal is not started yet, or the processes are settled. -/
def Phase (k : Kernel) : Prop :=
  (k.curProcPcb = none ∧ ∀ p < numProc, k.procStatus p = .inactive) ∨ ∃ t, Settled k t

/-- Edits of the tables do not concern the processes. -/
theorem settled_tables {k : Kernel} {t : Sessions} (h : Settled k t) (dir prog : Table) :
    Settled { k with pageDirectory := dir, progPageTable := prog } t where
  represents := h.represents.congr rfl rfl fun _ => ⟨rfl, rfl, rfl⟩
  displayed := h.displayed
  cached := h.cached
  aligned := h.aligned

theorem Phase.tables {k : Kernel} (h : Phase k) (dir prog : Table) :
    Phase { k with pageDirectory := dir, progPageTable := prog } := by
  rcases h with h | ⟨t, h⟩
  · exact Or.inl h
  · exact Or.inr ⟨t, settled_tables h dir prog⟩

/-- The process table and the descriptors are apart from the page tables. -/
theorem terminalInit_tables (k : Kernel) :
    (Process.terminalInit k).pageDirectory = k.pageDirectory ∧
      (Process.terminalInit k).progPageTable = k.progPageTable := by
  constructor
  · simp [Process.terminalInit, startupEnvirInit, numSess, List.range_succ, setStatus]
  · simp [Process.terminalInit, startupEnvirInit, numSess, List.range_succ, setStatus]

/-- User mode reaches what it is meant to. -/
structure Isolated (m : Machine) : Prop where
  entries : Sealed m.kernel m.heapPageTableAddr
  heap : Heap.MapsHeap m.heap.heapPageTable
  phase : Phase m.kernel
  aligned : m.kernel.progPageTableAddr.toNat % 2 ^ 12 = 0 ∧
    m.heapPageTableAddr.toNat % 2 ^ 12 = 0 ∧ m.firstPageTableAddr.toNat % 2 ^ 12 = 0
  apart : m.kernel.progPageTableAddr ≠ m.heapPageTableAddr

/-- A machine that has only been loaded opens nothing to user mode. -/
theorem Loaded.isolated {m : Machine} (h : Loaded m) : Isolated m where
  entries := by
    constructor
    · intro i huser
      rw [h.directory] at huser
      simp [user] at huser
    · intro j huser
      rw [h.prog] at huser
      simp [user] at huser
  heap := by
    intro i hpresent
    rw [h.heap] at hpresent
    simp [present] at hpresent
  phase := Or.inl ⟨h.running, h.unused⟩
  aligned := h.aligned
  apart := h.apart.1

namespace Isolated

variable {m : Machine}

/-! ## paging.c -/

/-- A directory entry without the user flag. -/
theorem setPde (h : Isolated m) (idx : Nat) {entry : BitVec 32} (hentry : user entry = false) :
    Isolated (Memory.setPde m idx entry) where
  entries := h.entries.setPde idx hentry
  heap := h.heap
  phase := h.phase.tables _ _
  aligned := h.aligned
  apart := h.apart

/-- No user mode access goes through the first page table. -/
theorem firstPageTable (h : Isolated m) (table : Table) :
    Isolated { m with firstPageTable := table } where
  entries := h.entries
  heap := h.heap
  phase := h.phase
  aligned := h.aligned
  apart := h.apart

theorem mapVirtual4kbFirst (h : Isolated m) (physStart virtStart : Nat) :
    Isolated (Memory.mapVirtual4kbFirst m physStart virtStart) := by
  refine (h.setPde _ ?_).firstPageTable _
  simp [user, enA, enP, enRw]

/-- An aligned address has no bit where the flags are. -/
theorem user_aligned {a : BitVec 32} (h : a.toNat % 2 ^ 12 = 0) :
    user (a ||| enP ||| enRw) = false := by
  have hbit := Nat.testBit_mod_two_pow a.toNat 12 2
  rw [h, Nat.zero_testBit] at hbit
  have hlow : a.getLsbD 2 = false := hbit.symm
  simp only [user, BitVec.getLsbD_or, hlow]
  decide

theorem setupPaging (h : Isolated m) : Isolated (Memory.setupPaging m) := by
  have hfirst : Isolated (setupFirstPageTable m) :=
    (h.firstPageTable _).setPde 0 (user_aligned h.aligned.2.2)
  have hutility := hfirst.mapVirtual4kbFirst utilAddr utilAddr
  have hkernel : Isolated (setupKernelPage (setupUtilityPage (setupFirstPageTable m))) :=
    hutility.setPde 1 (by decide)
  exact (hkernel.firstPageTable _).setPde 9 (by decide)

/-! ## The heap -/

theorem heapInit (h : Isolated m) : Isolated (Memory.perform m .heapInit) where
  entries := h.entries.setHeapPde
  heap := h.heap
  phase := h.phase.tables _ _
  aligned := h.aligned
  apart := h.apart

/-- A heap function that leaves the directory as it is. -/
theorem withHeap (h : Isolated m) {s : Heap.HeapState} (htable : Heap.MapsHeap s.heapPageTable)
    (hdir : s.pageDirectory = m.kernel.pageDirectory) : Isolated (m.withHeap s) where
  entries := h.entries.congr rfl hdir rfl rfl
  heap := htable
  phase := h.phase.tables _ _
  aligned := h.aligned
  apart := h.apart

/-! ## The processes -/

/-- An action of the running process or the timer. -/
theorem kernelStep (h : Isolated m) {t : Sessions} (hset : Settled m.kernel t)
    (a : Process.Action) : Isolated { m with kernel := Process.perform m.kernel a } := by
  obtain ⟨t', hset', hout⟩ := hset.perform a
  obtain ⟨hentries, haddr⟩ := h.entries.outcome hset hout
  refine ⟨hentries, h.heap, Or.inr ⟨t', hset'⟩, ⟨?_, h.aligned.2⟩, ?_⟩
  · rw [haddr]
    exact h.aligned.1
  · rw [haddr]
    exact h.apart

/-- A switch of the displayed session, with the kernel's own mapping of `VIDEO`. -/
theorem sessSwitch (h : Isolated m) {t : Sessions} (hset : Settled m.kernel t) (sessId : Nat) :
    Isolated (Memory.sessSwitch m sessId) := by
  unfold Memory.sessSwitch
  by_cases hsess : numSess ≤ sessId
  · rw [if_pos hsess]
    exact h
  · rw [if_neg hsess]
    by_cases hsame : sessId = m.kernel.curSessId
    · rw [if_pos hsame]
      exact h
    · rw [if_neg hsame]
      exact (h.mapVirtual4kbFirst video video).kernelStep (settled_tables hset _ _)
        (.switch sessId)

theorem performProcess (h : Isolated m) {t : Sessions} (hset : Settled m.kernel t)
    (a : Process.Action) : Isolated (Memory.performProcess m a) := by
  cases a with
  | execute curRegs image => exact h.kernelStep hset (.execute curRegs image)
  | exit exitCode => exact h.kernelStep hset (.exit exitCode)
  | sched regs shell ebp => exact h.kernelStep hset (.sched regs shell ebp)
  | switch sessId => exact h.sessSwitch hset sessId

/-- The first `sys_execute`, right after the descriptors and the process table are set
up. -/
theorem firstShell (h : Isolated m) (hnone : m.kernel.curProcPcb = none)
    (curRegs entryPoint : Nat) :
    Isolated { m with
      kernel := (sysExecute (Process.terminalInit m.kernel) curRegs (some entryPoint)).1 } := by
  have hunused : ∀ p < numProc, m.kernel.procStatus p = .inactive := by
    rcases h.phase with ⟨-, hunused⟩ | ⟨t, hset⟩
    · exact hunused
    · rw [hset.represents.running] at hnone
      exact absurd hnone (Option.some_ne_none _)
  have hstarted : Started (sysExecute (Process.terminalInit m.kernel) curRegs
      (some entryPoint)).1 := ⟨m.kernel, curRegs, entryPoint, hnone, hunused, h.aligned.1, rfl⟩
  obtain ⟨hdisp, hcur, haddr, hcached⟩ := terminalInit_display m.kernel
  have hswitch := sysExecute_first_switches (hcur.trans hnone) curRegs entryPoint
  have hinit : Sealed (Process.terminalInit m.kernel) m.heapPageTableAddr :=
    h.entries.congr hcur (terminalInit_tables m.kernel).1 (terminalInit_tables m.kernel).2 haddr
  have hlt : (Process.terminalInit m.kernel).curSessId < numSess := by
    rw [hdisp]
    decide
  refine ⟨hinit.switchesTo (isVideo_vidmem (hcached _ hlt) hlt _) hswitch, h.heap,
    Or.inr ⟨_, hstarted.spec.2.1⟩, ⟨?_, h.aligned.2⟩, ?_⟩
  · rw [hswitch.tableAddr, haddr]
    exact h.aligned.1
  · rw [hswitch.tableAddr, haddr]
    exact h.apart

/-- `terminal_init` and the first `sys_execute`. -/
theorem start (h : Isolated m) (hnone : m.kernel.curProcPcb = none) (curRegs entryPoint : Nat) :
    Isolated (Memory.perform m (.start curRegs entryPoint)) := by
  have hmaps : ∀ n, Isolated ((List.range n).foldl
      (fun m i => Memory.mapVirtual4kbFirst m (getCachedVidmem i) (getCachedVidmem i)) m) ∧
      ((List.range n).foldl (fun m i =>
        Memory.mapVirtual4kbFirst m (getCachedVidmem i) (getCachedVidmem i)) m).kernel.curProcPcb
          = none := by
    intro n
    induction n with
    | zero => exact ⟨h, hnone⟩
    | succ n ih =>
        rw [List.range_succ, List.foldl_append, List.foldl_cons, List.foldl_nil]
        exact ⟨ih.1.mapVirtual4kbFirst _ _, ih.2⟩
  obtain ⟨hmapped, hnone'⟩ := hmaps numSess
  generalize hm' : (List.range numSess).foldl (fun m i =>
    Memory.mapVirtual4kbFirst m (getCachedVidmem i) (getCachedVidmem i)) m = m' at hmapped hnone'
  have hstart : Memory.perform m (.start curRegs entryPoint) =
      { m' with
        kernel := (sysExecute (Process.terminalInit m'.kernel) curRegs (some entryPoint)).1 } := by
    rw [← hm']
    rfl
  rw [hstart]
  exact hmapped.firstShell hnone' curRegs entryPoint

/-! ## Video memory -/

/-- A page of video memory in the slot of the video pages. -/
theorem mapVirtual4kbProg (h : Isolated m) {physStart virtStart : Nat}
    (hvideo : IsVideo physStart) (hslot : virtStart / 2 ^ 22 = vmemVirtStart / 2 ^ 22) :
    Isolated { m with kernel := Process.mapVirtual4kbProg m.kernel physStart virtStart } where
  entries := h.entries.mapVirtual4kbProg hvideo hslot
  heap := h.heap
  phase := h.phase.tables _ _
  aligned := h.aligned
  apart := h.apart

theorem vidmap (h : Isolated m) (screenStart : Nat) : Isolated (sysVidmap m screenStart).1 := by
  unfold sysVidmap
  by_cases hnull : screenStart = 0
  · rw [if_pos hnull]
    exact h
  · rw [if_neg hnull]
    by_cases hrange : screenStart < userVirtTop ∨ userVirtBot ≤ screenStart
    · rw [if_pos hrange]
      exact h
    · rw [if_neg hrange]
      exact h.mapVirtual4kbProg ⟨0, by decide, rfl⟩ rfl

theorem mapModex (h : Isolated m) (screenStart : Nat) :
    Isolated (sysMapModex m screenStart).1 := by
  have hpages : ∀ n ≤ modexPageNum, Isolated { m with
      kernel := (List.range n).foldl
        (fun k i => Process.mapVirtual4kbProg k (video + i * modexPageSize)
          (modexVirtStart + i * modexPageSize)) m.kernel } := by
    intro n hn
    induction n with
    | zero => exact h
    | succ n ih =>
        rw [List.range_succ, List.foldl_append, List.foldl_cons, List.foldl_nil]
        refine (ih (by omega)).mapVirtual4kbProg ⟨n, by omega, rfl⟩ ?_
        unfold modexPageNum at hn
        unfold modexVirtStart modexPageSize vmemVirtStart
        omega
  unfold sysMapModex
  by_cases hnull : screenStart = 0
  · rw [if_pos hnull]
    exact h
  · rw [if_neg hnull]
    by_cases hrange : screenStart < userVirtTop ∨ userVirtBot ≤ screenStart
    · rw [if_pos hrange]
      exact h
    · rw [if_neg hrange]
      exact hpages modexPageNum (le_refl _)

/-! ## Runs -/

/-- Every action keeps user mode to what it is meant to reach. -/
theorem perform (h : Isolated m) (a : Action) (henabled : Enabled m a) :
    Isolated (Memory.perform m a) := by
  cases a with
  | setupPaging => exact h.setupPaging
  | heapInit => exact h.heapInit
  | malloc size =>
      obtain ⟨htable, hdir⟩ := @Heap.MapsHeap.malloc m.heapState h.heap size
      exact h.withHeap htable hdir
  | free ptr =>
      obtain ⟨htable, hdir⟩ := @Heap.MapsHeap.free m.heapState h.heap ptr
      exact h.withHeap htable hdir
  | start curRegs entryPoint => exact h.start henabled curRegs entryPoint
  | process a =>
      rcases h.phase with ⟨hnone, -⟩ | ⟨t, hset⟩
      · exact absurd hnone henabled
      · exact h.performProcess hset a
  | vidmap screenStart => exact h.vidmap screenStart
  | mapModex screenStart => exact h.mapModex screenStart

theorem of_reachable (hm : machineSystem.Reachable m) : Isolated m := by
  have hinv : machineSystem.IsInvariant Isolated := by
    refine ⟨fun m h => h.isolated, ?_⟩
    rintro m m' h ⟨a, henabled, rfl⟩
    exact h.perform a henabled
  exact hinv.of_reachable hm

end Isolated

/-! ## What user mode can reach -/

/-- The pages from `VIDEO` on that user mode can be given: `VIDEO`, the cached screens
and the pages of `sys_map_modex` behind them. -/
def videoFrame : Set Nat := Set.Ico video (video + modexPageNum * modexPageSize)

/-- The page of the kernel, with the stacks and control blocks of all processes. -/
def kernelFrame : Set Nat := Set.Ico 0x00400000 (0x00400000 + 0x400000)

/-- The user flag lets an entry through only where the slot of one of the three
entries is. -/
theorem userPde_slots {k : Kernel} {heapAddr pde : BitVec 32} {i : Nat}
    (h : UserPde k heapAddr i pde) (hsmall : large pde = false) :
    (i = vmemVirtStart / 2 ^ 22 ∧ pde = smallEntry k.progPageTableAddr) ∨
      (i = Heap.heapVirtTop / 2 ^ 22 ∧ pde = smallEntry heapAddr) := by
  rcases h with ⟨-, cur, -, hpde⟩ | hother
  · rw [hpde, (largeEntry_flags _).2.2] at hsmall
    exact absurd hsmall (by decide)
  · exact hother

/-- The address of a page table that is aligned. -/
theorem smallBase_aligned {addr : BitVec 32} (h : addr.toNat % 2 ^ 12 = 0) :
    smallBase (smallEntry addr) = addr.toNat := by
  have hbase := toNat_and_small h addr.isLt
  rw [BitVec.ofNat_toNat, BitVec.setWidth_eq] at hbase
  rw [smallBase_smallEntry]
  exact hbase

/-- The address of a page that an entry maps. -/
theorem smallBase_ofNat {a : Nat} (h : a % 2 ^ 12 = 0) (hlt : a < 2 ^ 32) :
    smallBase (smallEntry (BitVec.ofNat 32 a)) = a := by
  rw [smallBase_smallEntry]
  exact toNat_and_small h hlt

namespace Isolated

variable {m : Machine} {rest : Nat → Table} {linear : Nat} {a : Access}

/-- Through the table of the video pages, user mode reaches video memory. -/
theorem reach_video (h : Isolated m) {pte : BitVec 32} (huser : user pte = true)
    (hpte : m.tables rest (smallBase (smallEntry m.kernel.progPageTableAddr))
      (linear / 2 ^ 12 % 2 ^ 10) = pte) :
    smallBase pte + linear % 2 ^ 12 ∈ videoFrame := by
  rw [smallBase_aligned h.aligned.1, Machine.tables, Function.update_self] at hpte
  rw [← hpte] at huser ⊢
  obtain ⟨physStart, ⟨n, hn, rfl⟩, hentry⟩ := h.entries.table _ huser
  unfold modexPageNum at hn
  have halign : (video + n * modexPageSize) % 2 ^ 12 = 0 := by
    unfold video modexPageSize
    omega
  have hlt : video + n * modexPageSize < 2 ^ 32 := by
    unfold video modexPageSize
    omega
  rw [hentry, smallBase_ofNat halign hlt]
  unfold videoFrame video modexPageSize modexPageNum
  rw [Set.mem_Ico]
  omega

/-- Through the table of the heap, user mode reaches the heap page of the same index. -/
theorem reach_heap (h : Isolated m) {pte : BitVec 32} (hpresent : present pte = true)
    (hslot : linear / 2 ^ 22 = Heap.heapVirtTop / 2 ^ 22)
    (hpte : m.tables rest (smallBase (smallEntry m.heapPageTableAddr))
      (linear / 2 ^ 12 % 2 ^ 10) = pte) :
    Heap.heapVirtTop ≤ linear ∧
      linear < Heap.heapVirtTop + Heap.heapEntry * Heap.heapPageSize ∧
      smallBase pte + linear % 2 ^ 12 = Heap.heapPhysTop + (linear - Heap.heapVirtTop) := by
  have hne : m.heapPageTableAddr.toNat ≠ m.kernel.progPageTableAddr.toNat :=
    fun heq => h.apart (BitVec.eq_of_toNat_eq heq.symm)
  rw [smallBase_aligned h.aligned.2.1, Machine.tables, Function.update_of_ne hne,
    Function.update_self] at hpte
  rw [← hpte] at hpresent ⊢
  obtain ⟨hlt, hentry⟩ := h.heap _ hpresent
  have hbase : smallBase (Heap.heapPte (linear / 2 ^ 12 % 2 ^ 10)) =
      Heap.heapPhysAddr (linear / 2 ^ 12 % 2 ^ 10) := by
    apply smallBase_ofNat
    · unfold Heap.heapPhysAddr Heap.heapPhysTop Heap.heapPageSize
      omega
    · unfold Heap.heapPhysAddr Heap.heapPhysTop Heap.heapPageSize
      omega
  rw [hentry, hbase]
  unfold Heap.heapVirtTop at hslot ⊢
  unfold Heap.heapPhysAddr Heap.heapEntry Heap.heapPageSize Heap.heapPhysTop
  omega

/-- An access open to user mode goes to the frame of the running process, to video
memory or to the heap. -/
theorem reach (h : Isolated m) (htrans : m.translate rest linear = some a)
    (huser : a.user = true) :
    (∃ cur, m.kernel.curProcPcb = some cur ∧ m.kernel.Alive cur ∧
        a.phys = getPhysAddrByPid cur + linear % 2 ^ 22) ∨
      a.phys ∈ videoFrame ∨
      (Heap.heapVirtTop ≤ linear ∧
        linear < Heap.heapVirtTop + Heap.heapEntry * Heap.heapPageSize ∧
        a.phys = Heap.heapPhysTop + (linear - Heap.heapVirtTop)) := by
  obtain ⟨-, hpde, ⟨hlarge, hphys⟩ | ⟨hsmall, pte, hpte, hpresent, hptUser, hphys⟩⟩ :=
    walk_user_cases htrans huser
  · rcases h.entries.directory _ hpde with ⟨-, cur, hcur, heq⟩ | ⟨-, heq⟩ | ⟨-, heq⟩
    · refine Or.inl ⟨cur, hcur, ?_⟩
      have halive : m.kernel.Alive cur := by
        rcases h.phase with ⟨hnone, -⟩ | ⟨t, hset⟩
        · rw [hnone] at hcur
          exact absurd hcur.symm (Option.some_ne_none cur)
        · have hleaf := (hset.represents.leaf_alive hset.represents.current).1
          rw [hset.represents.running] at hcur
          rw [← Option.some_inj.mp hcur]
          exact hleaf
      refine ⟨halive, ?_⟩
      have hlt := halive.1
      unfold numProc at hlt
      have hbase : largeBase (largeEntry (getPhysAddrByPid cur)) = getPhysAddrByPid cur := by
        apply largeBase_largeEntry
        · unfold getPhysAddrByPid kernelBot progPageSize
          omega
        · unfold getPhysAddrByPid kernelBot progPageSize
          omega
      rw [hphys, heq, hbase]
    · rw [heq, (smallEntry_flags _).2.2] at hlarge
      exact absurd hlarge (by decide)
    · rw [heq, (smallEntry_flags _).2.2] at hlarge
      exact absurd hlarge (by decide)
  · rcases userPde_slots (h.entries.directory _ hpde) hsmall with ⟨-, heq⟩ | ⟨hslot, heq⟩
    · rw [heq] at hpte
      rw [hphys]
      exact Or.inr (Or.inl (h.reach_video hptUser hpte))
    · rw [heq] at hpte
      rw [hphys]
      exact Or.inr (Or.inr (h.reach_heap hpresent hslot hpte))

end Isolated

/-- The frame of a process is neither the kernel page nor the history, and no other
process has it. -/
theorem userFrame_apart {cur x : Nat} (hcur : cur < numProc) (hx : x ∈ userFrame cur) :
    x ∉ kernelFrame ∧ x ∉ historyFrame ∧ ∀ p < numProc, p ≠ cur → x ∉ footprint p := by
  unfold numProc at hcur ⊢
  simp only [footprint, userFrame, procStack, getPhysAddrByPid, getPcbByPid, kernelBot,
    kstackSize, progPageSize, historyFrame, kernelFrame, Set.mem_union, Set.mem_Ico] at hx ⊢
  refine ⟨by omega, by omega, ?_⟩
  intro p hp hne
  omega

/-- Video memory and the heap are neither the kernel page nor the history, and no
process has them. -/
theorem shared_apart {x : Nat} (hx : x ∈ videoFrame ∨ x ∈ heapFrame) :
    x ∉ kernelFrame ∧ x ∉ historyFrame ∧ ∀ p < numProc, x ∉ footprint p := by
  unfold numProc
  simp only [footprint, userFrame, procStack, getPhysAddrByPid, getPcbByPid, kernelBot,
    kstackSize, progPageSize, videoFrame, video, modexPageNum, modexPageSize, heapFrame,
    Heap.heapPhysTop, Heap.heapEntry, Heap.heapPageSize, historyFrame, kernelFrame,
    Set.mem_union, Set.mem_Ico] at hx ⊢
  refine ⟨by omega, by omega, ?_⟩
  intro p hp
  omega

/-- In every reachable state, every access open to user mode goes to the frame of the
running process, to one of the sixteen pages of video memory from `VIDEO` on, or to
the heap page at the same offset of the heap's physical memory: not to the kernel
page, not to the history, and to no memory of another process. -/
theorem user_isolated (m : Machine) (hm : machineSystem.Reachable m) (rest : Nat → Table)
    (linear : Nat) (a : Access) (htrans : m.translate rest linear = some a)
    (huser : a.user = true) :
    ((∃ cur, m.kernel.curProcPcb = some cur ∧ m.kernel.Alive cur ∧ a.phys ∈ userFrame cur) ∨
        a.phys ∈ videoFrame ∨
        (Heap.heapVirtTop ≤ linear ∧
          linear < Heap.heapVirtTop + Heap.heapEntry * Heap.heapPageSize ∧
          a.phys = Heap.heapPhysTop + (linear - Heap.heapVirtTop))) ∧
      a.phys ∉ kernelFrame ∧ a.phys ∉ historyFrame ∧
      ∀ p < numProc, m.kernel.curProcPcb ≠ some p → a.phys ∉ footprint p := by
  rcases (Isolated.of_reachable hm).reach htrans huser with
    ⟨cur, hcur, halive, hphys⟩ | hvideo | ⟨hlow, hhigh, hphys⟩
  · have hmem : a.phys ∈ userFrame cur := by
      unfold userFrame progPageSize
      rw [Set.mem_Ico]
      omega
    obtain ⟨hkernel, hhistory, hothers⟩ := userFrame_apart halive.1 hmem
    refine ⟨Or.inl ⟨cur, hcur, halive, hmem⟩, hkernel, hhistory, ?_⟩
    intro p hp hne
    rw [hcur] at hne
    exact hothers p hp fun heq => hne (congrArg some heq.symm)
  · obtain ⟨hkernel, hhistory, hothers⟩ := shared_apart (Or.inl hvideo)
    exact ⟨Or.inr (Or.inl hvideo), hkernel, hhistory, fun p hp _ => hothers p hp⟩
  · have hmem : a.phys ∈ heapFrame := by
      unfold heapFrame
      rw [Set.mem_Ico]
      omega
    obtain ⟨hkernel, hhistory, hothers⟩ := shared_apart (Or.inr hmem)
    exact ⟨Or.inr (Or.inr ⟨hlow, hhigh, hphys⟩), hkernel, hhistory, fun p hp _ => hothers p hp⟩

/-- A loaded machine. -/
def blankMachine : Machine :=
  { kernel := blankKernel
    heap :=
      { heapMap := fun _ => 0
        heapPageTable := fun _ => 0
        pageDirectory := fun _ => 0
        allocInfo := { pageAlloc := 0, objAlloc := 0 }
        mem := fun _ => 0 }
    heapPageTableAddr := 0x1000
    firstPageTable := fun _ => 0
    firstPageTableAddr := 0x2000 }

theorem loaded_blankMachine : Loaded blankMachine where
  running := rfl
  unused _ _ := rfl
  directory := rfl
  prog := rfl
  heap := rfl
  aligned := by decide
  apart := by decide

/-- The first shell runs, and the heap has one object. -/
def heapMachine : Machine :=
  perform (perform (perform (perform blankMachine .setupPaging) .heapInit) (.start 0 0))
    (.malloc 1)

theorem reachable_perform {m : Machine} (h : machineSystem.Reachable m) (a : Action)
    (henabled : Enabled m a) : machineSystem.Reachable (perform m a) :=
  h.step ⟨a, henabled, rfl⟩

theorem heapMachine_reachable : machineSystem.Reachable heapMachine := by
  have hinit : machineSystem.Reachable blankMachine :=
    TransitionSystem.Reachable.init loaded_blankMachine
  have hpaging := reachable_perform hinit .setupPaging trivial
  have hheap := reachable_perform hpaging .heapInit trivial
  have hstart := reachable_perform hheap (.start 0 0) rfl
  exact reachable_perform hstart (.malloc 1) trivial

/-- The first address of the shell's page is its own frame. -/
theorem user_isolated_boot :
    getPhysAddrByPid 0 ∉ kernelFrame ∧ getPhysAddrByPid 0 ∉ historyFrame :=
  have h := user_isolated heapMachine heapMachine_reachable (fun _ _ => 0) userVirtTop
    ⟨getPhysAddrByPid 0, true⟩ (by decide +kernel) rfl
  ⟨h.2.1, h.2.2.1⟩

/-- Once the heap has an object, user mode reaches the heap's first page; and after
`sys_map_modex` it reaches a page that is neither `VIDEO` nor a cached screen. -/
theorem user_reaches_heap :
    machineSystem.Reachable heapMachine ∧
      heapMachine.translate (fun _ _ => 0) Heap.heapVirtTop = some ⟨Heap.heapPhysTop, true⟩ ∧
      machineSystem.Reachable (perform heapMachine (.mapModex userVirtTop)) ∧
      (perform heapMachine (.mapModex userVirtTop)).translate (fun _ _ => 0)
          (modexVirtStart + 4 * modexPageSize) =
        some ⟨getCachedVidmem numSess, true⟩ :=
  ⟨heapMachine_reachable, by decide +kernel,
    reachable_perform heapMachine_reachable (.mapModex userVirtTop) trivial, by decide +kernel⟩

end Memory
end NochOS
