import NochOS.Process.Runs
import NochOS.Library.Paging

/-!
# Processes - the displayed session and the address space

The keyboard switches the displayed session at any time, while processes of all
sessions execute programs, exit and take turns.  This module adds `sess_switch` to
the operations on the process table and says, once for every operation, what it
does to the mappings, the task state segment and the session descriptors.

Main results:

- Definition `sessSwitch`: the switch of the displayed session.
- Structures `Undisturbed`, `SwitchesTo`: the two things an operation can do to
  what the running process sees.
- Theorems `Represents.sysExecute_effect`, `Represents.killPid_effect`,
  `Represents.doSched_effect`, `Represents.sessSwitch_effect`: which of them each
  operation does.
-/

namespace NochOS
namespace Process

open Library Paging

/-- `sess_switch`, as far as it concerns processes: the displayed session and the
video page of the running process. -/
def sessSwitch (k : Kernel) (sessId : Nat) : Kernel × Transfer :=
  if numSess ≤ sessId then (k, .ret (-1))
  else if sessId = k.curSessId then (k, .ret 0)
  else
    let k := { k with curSessId := sessId }
    match k.curProcPcb with
    | none => (k, .fault)
    | some cur => (mapVidmem k (k.pcb cur) k.curSessId, .ret 0)

/-! ## Page-table entries -/

/-- The directory entry `map_virtual_4mb` writes. -/
def largeEntry (physStart : Nat) : BitVec 32 :=
  (BitVec.ofNat 32 physStart &&& 0xFFC00000#32 &&& ~~~enA) ||| enP ||| enRw ||| enUs ||| enPs

/-- The entries `map_virtual_4kb_prog` writes. -/
def smallEntry (physStart : BitVec 32) : BitVec 32 :=
  (physStart &&& 0xFFFFF000#32 &&& ~~~enA) ||| enP ||| enRw ||| enUs

theorem largeEntry_flags (a : Nat) :
    present (largeEntry a) = true ∧ user (largeEntry a) = true ∧ large (largeEntry a) = true := by
  simp [largeEntry, present, user, large, enA, enP, enRw, enUs, enPs]

theorem smallEntry_flags (a : BitVec 32) :
    present (smallEntry a) = true ∧ user (smallEntry a) = true ∧ large (smallEntry a) = false := by
  simp [smallEntry, present, user, large, enA, enP, enRw, enUs]

/-- The entry of a large page maps the page it was written for. -/
theorem largeBase_largeEntry {a : Nat} (halign : a % 2 ^ 22 = 0) (hlt : a < 2 ^ 32) :
    largeBase (largeEntry a) = a := by
  have hmask : largeEntry a &&& 0xFFC00000#32 = BitVec.ofNat 32 a &&& 0xFFC00000#32 := by
    unfold largeEntry enA enP enRw enUs enPs
    simp only [BitVec.and_or_distrib_right, BitVec.and_assoc]
    simp
  rw [largeBase, hmask, toNat_and_large halign hlt]

/-- The entry of a small page maps the page it was written for. -/
theorem smallBase_smallEntry (a : BitVec 32) : smallBase (smallEntry a) = smallBase a := by
  have hmask : smallEntry a &&& 0xFFFFF000#32 = a &&& 0xFFFFF000#32 := by
    unfold smallEntry enA enP enRw enUs
    simp only [BitVec.and_or_distrib_right, BitVec.and_assoc]
    simp
  rw [smallBase, hmask, smallBase]

/-! ## Effects of an operation -/

/-- The state after the two mappings of a switch to a process: its own frame and
a page of video memory. -/
def Kernel.show (k : Kernel) (pid vidmem : Nat) : Kernel :=
  mapVirtual4kbProg (mapVirtual4mb k (getPhysAddrByPid pid) userVirtTop) vidmem vmemVirtStart

/-- The video page for a process of a session: `VIDEO` when that is displayed, else
the cached screen of another session, which need not be the same one. -/
def Kernel.vidmem (k : Kernel) (sess session : Nat) : Nat :=
  if sess = k.curSessId then video else (k.sessDesc session).cachedVidmem

/-- The operation leaves the running process and everything it sees alone. -/
structure Undisturbed (k k' : Kernel) : Prop where
  running : k'.curProcPcb = k.curProcPcb
  displayed : k'.curSessId = k.curSessId
  sessDesc : k'.sessDesc = k.sessDesc
  directory : k'.pageDirectory = k.pageDirectory
  table : k'.progPageTable = k.progPageTable
  tableAddr : k'.progPageTableAddr = k.progPageTableAddr
  tss : k'.tssEsp0 = k.tssEsp0

/-- The operation makes a process run, with its frame, its kernel stack and a page of
video memory; `sessDesc` are the session descriptors afterwards. -/
structure SwitchesTo (k k' : Kernel) (pid vidmem : Nat) (sessDesc : Nat → Sess) : Prop where
  running : k'.curProcPcb = some pid
  displayed : k'.curSessId = k.curSessId
  sessDesc : k'.sessDesc = sessDesc
  directory : k'.pageDirectory = (k.show pid vidmem).pageDirectory
  table : k'.progPageTable = (k.show pid vidmem).progPageTable
  tableAddr : k'.progPageTableAddr = k.progPageTableAddr
  tss : k'.tssEsp0 = getEsp0ByPid pid

/-- The descriptors after `link_sa_pcb` of a process to the displayed session. -/
def Kernel.linked (k : Kernel) (pid : Nat) : Nat → Sess :=
  if numSess ≤ k.curSessId then k.sessDesc
  else Function.update k.sessDesc k.curSessId
    { k.sessDesc k.curSessId with saPcb := some pid }

/-- The choice of the video page does nothing else than mapping it. -/
theorem mapVidmem_eq (k : Kernel) (pcb : Pcb) (session : Nat) :
    mapVidmem k pcb session =
      mapVirtual4kbProg k (k.vidmem pcb.activeSess session) vmemVirtStart := by
  unfold mapVidmem Kernel.vidmem
  split
  · rfl
  · rfl

/-- Linking a process to the displayed session changes its descriptor only. -/
theorem linkSaPcb_eq (k : Kernel) (pid : Nat) :
    linkSaPcb k (some pid) k.curSessId = { k with sessDesc := k.linked pid } := by
  unfold linkSaPcb Kernel.linked
  by_cases hsess : numSess ≤ k.curSessId
  · simp [hsess]
  · simp [hsess]

/-- Linking a process leaves the cached screens where they are. -/
theorem cachedVidmem_linked (k : Kernel) (pid s : Nat) :
    (k.linked pid s).cachedVidmem = (k.sessDesc s).cachedVidmem := by
  unfold Kernel.linked
  by_cases hsess : numSess ≤ k.curSessId
  · rw [if_pos hsess]
  · rw [if_neg hsess]
    by_cases hs : s = k.curSessId
    · rw [hs, Function.update_self]
    · rw [Function.update_of_ne hs]

@[simp] theorem curSessId_mapVirtual4mb (k : Kernel) (physStart virtStart : Nat) :
    (mapVirtual4mb k physStart virtStart).curSessId = k.curSessId := rfl

/-- Two states agree on everything but the process table, the running process and
the linked processes. -/
structure SameView (k k₁ : Kernel) : Prop where
  displayed : k₁.curSessId = k.curSessId
  cached : ∀ s, (k₁.sessDesc s).cachedVidmem = (k.sessDesc s).cachedVidmem
  directory : k₁.pageDirectory = k.pageDirectory
  table : k₁.progPageTable = k.progPageTable
  tableAddr : k₁.progPageTableAddr = k.progPageTableAddr

/-- A new control block changes nothing but the process table. -/
theorem childPcbInit_table {k k₁ : Kernel} {parent : Option Nat} {c : Nat}
    (h : childPcbInit k parent = some (c, k₁)) :
    k₁.curSessId = k.curSessId ∧ k₁.sessDesc = k.sessDesc ∧ SameView k k₁ := by
  simp only [childPcbInit] at h
  split at h
  · exact absurd h (by simp)
  · simp only [Option.some.injEq, Prod.mk.injEq] at h
    rw [← h.2]
    exact ⟨rfl, rfl, rfl, fun _ => rfl, rfl, rfl, rfl⟩

/-- What the two mappings of a switch do to a state of the same view. -/
theorem SameView.maps {k k₁ : Kernel} (h : SameView k k₁) (pid session : Nat) (child : Pcb) :
    let k' := mapVidmem (mapVirtual4mb k₁ (getPhysAddrByPid pid) userVirtTop) child session
    k'.curSessId = k.curSessId ∧ k'.sessDesc = k₁.sessDesc ∧
      k'.pageDirectory = (k.show pid (k.vidmem child.activeSess session)).pageDirectory ∧
      k'.progPageTable = (k.show pid (k.vidmem child.activeSess session)).progPageTable ∧
      k'.progPageTableAddr = k.progPageTableAddr := by
  have hvid : (mapVirtual4mb k₁ (getPhysAddrByPid pid) userVirtTop).vidmem child.activeSess
      session = k.vidmem child.activeSess session := by
    unfold Kernel.vidmem
    rw [← h.displayed, ← h.cached]
    rfl
  simp only [mapVidmem_eq, hvid, Kernel.show]
  refine ⟨h.displayed, rfl, ?_, ?_, h.tableAddr⟩
  · simp only [mapVirtual4kbProg, mapVirtual4mb, h.directory, h.tableAddr]
  · simp only [mapVirtual4kbProg, mapVirtual4mb, h.table]

namespace Represents

variable {k : Kernel} {t : Sessions}

/-- A successful `sys_execute` makes the new process run. -/
theorem sysExecute_switches (h : Represents k t)
    (hroom : getNextPid k (t.leaf t.current) .inactive ≠ numProc) (curRegs entryPoint : Nat) :
    ∃ c, (Process.sysExecute k curRegs (some entryPoint)).2 = .enter c entryPoint ∧
      (Process.sysExecute k curRegs (some entryPoint)).1.procStatus =
        Function.update (Function.update k.procStatus (t.leaf t.current) .idle) c .active ∧
      SwitchesTo k (Process.sysExecute k curRegs (some entryPoint)).1 c
        (k.vidmem t.current k.curSessId) (k.linked c) := by
  obtain ⟨c, k₁, -, -, hinit, hstatus, hpcb⟩ := h.childPcbInit_spec hroom
  obtain ⟨hdisp, hdesc, hview⟩ := childPcbInit_table hinit
  have hpid : (k₁.pcb c).pid = c := by rw [hpcb, Function.update_self]
  have hsess : (k₁.pcb c).activeSess = t.current := by rw [hpcb, Function.update_self]
  generalize hk₂ : linkSaPcb { k₁ with curProcPcb := some c } (some c) k₁.curSessId = k₂
  have hlinked : k₂ = { k₁ with curProcPcb := some c, sessDesc := k.linked c } := by
    rw [← hk₂]
    refine (linkSaPcb_eq { k₁ with curProcPcb := some c } c).trans ?_
    simp only [Kernel.linked, hdisp, hdesc]
    rfl
  have hpid₂ : (k₂.pcb c).pid = c := by rw [hlinked, hpid]
  have hsess₂ : (k₂.pcb c).activeSess = t.current := by rw [hlinked, hsess]
  have hview₂ : ∀ pcb, SameView k { k₂ with pcb := pcb } := by
    intro pcb
    rw [hlinked]
    exact ⟨hdisp, cachedVidmem_linked k c, hview.directory, hview.table, hview.tableAddr⟩
  have hdesc₂ : k₂.sessDesc = k.linked c := by rw [hlinked]
  have hrun₂ : k₂.curProcPcb = some c := by rw [hlinked]
  have hstatus₂ : k₂.procStatus = k₁.procStatus := by rw [hlinked]
  have hexec : ∃ pcb child, child.activeSess = t.current ∧
      Process.sysExecute k curRegs (some entryPoint) =
        ({ mapVidmem (mapVirtual4mb { k₂ with pcb := pcb } (getPhysAddrByPid c) userVirtTop)
            child k₂.curSessId with tssEsp0 := getEsp0ByPid c }, .enter c entryPoint) := by
    refine ⟨Function.update k₂.pcb c { k₂.pcb c with parentEsp := curRegs },
      { k₂.pcb c with parentEsp := curRegs }, hsess₂, ?_⟩
    simp [Process.sysExecute, h.running, h.running_pid, hroom, hinit, hk₂, hpid₂]
  obtain ⟨pcb, child, hchild, heq⟩ := hexec
  obtain ⟨hsess', hdesc', hdir', htab', haddr'⟩ := (hview₂ pcb).maps c k₂.curSessId child
  have hcur₂ : k₂.curSessId = k.curSessId := (hview₂ pcb).displayed
  rw [heq]
  refine ⟨c, rfl, ?_, ?_, hsess', hdesc'.trans hdesc₂, hdir'.trans ?_, htab'.trans ?_, haddr', rfl⟩
  · simpa [hstatus₂] using hstatus
  · simpa using hrun₂
  · rw [hchild, hcur₂]
  · rw [hchild, hcur₂]

/-- `sys_execute` fails and disturbs nothing, or makes the new process run: with the
cached screen of the displayed session unless its own session is displayed, and
linked to the displayed session. -/
theorem sysExecute_effect (h : Represents k t) (curRegs : Nat) (image : Option Nat) :
    (Undisturbed k (Process.sysExecute k curRegs image).1 ∧
        Represents (Process.sysExecute k curRegs image).1 t ∧
        ((Process.sysExecute k curRegs image).1.procStatus = k.procStatus ∨
          (Process.sysExecute k curRegs image).1.procStatus =
            Function.update k.procStatus (t.leaf t.current) .daemon)) ∨
      ∃ c entryPoint, image = some entryPoint ∧ k.procStatus c = .inactive ∧
        getNextPid k (t.leaf t.current) .inactive ≠ numProc ∧
        Represents (Process.sysExecute k curRegs image).1 (t.push c) ∧
        (Process.sysExecute k curRegs image).1.procStatus =
          Function.update (Function.update k.procStatus (t.leaf t.current) .idle) c .active ∧
        SwitchesTo k (Process.sysExecute k curRegs image).1 c
          (k.vidmem t.current k.curSessId) (k.linked c) := by
  have hspec := h.sysExecute curRegs image
  by_cases hfull : getNextPid k (t.leaf t.current) .inactive = numProc
  · have heq : Process.sysExecute k curRegs image = (k, .ret (-1)) := by
      simp [Process.sysExecute, h.running, h.running_pid, hfull]
    rw [heq]
    exact Or.inl ⟨⟨rfl, rfl, rfl, rfl, rfl, rfl, rfl⟩, h, Or.inl rfl⟩
  · cases image with
    | none =>
        have heq : Process.sysExecute k curRegs none =
            (setStatus (setStatus k (t.leaf t.current) .idle) (t.leaf t.current) .daemon,
              .ret (-1)) := by
          simp [Process.sysExecute, h.running, h.running_pid, hfull]
        rw [heq] at hspec ⊢
        rcases hspec with ⟨-, h'⟩ | ⟨c, e, -, -, henter, -⟩
        · refine Or.inl ⟨⟨rfl, rfl, rfl, rfl, rfl, rfl, rfl⟩, h', Or.inr ?_⟩
          simp
        · exact absurd henter (by simp)
    | some entryPoint =>
        obtain ⟨c, henter, hstatus, hswitch⟩ := h.sysExecute_switches hfull curRegs entryPoint
        rcases hspec with ⟨hret, -⟩ | ⟨c', e, -, hfree, henter', h'⟩
        · rw [henter] at hret
          exact absurd hret (by simp)
        · rw [henter, Transfer.enter.injEq] at henter'
          obtain ⟨rfl, rfl⟩ := henter'
          exact Or.inr ⟨c, entryPoint, rfl, hfree, hfull, h', hstatus, hswitch⟩

/-- The process below the running one is its parent, in use and in its session. -/
theorem caller_eq (h : Represents k t) {caller : Nat} {rest : List Nat}
    (hcallers : t.callers t.current = caller :: rest) :
    k.Alive caller ∧ k.sess caller = t.current ∧ (k.pcb caller).pid = caller ∧
      (k.pcb (t.leaf t.current)).parentPid = caller := by
  have hmem : caller ∈ t.stack t.current := by
    rw [Sessions.stack, hcallers]
    simp
  obtain ⟨halive, hsess⟩ := (h.mem _ h.current _).mp hmem
  have hlink := h.linked _ h.current
  simp only [Sessions.stack, hcallers, List.cons_append] at hlink
  exact ⟨halive, hsess, h.pid _ halive, (List.isChain_cons_cons.mp hlink).1⟩

/-- The exit of a root disturbs nothing; the exit of any other process makes its
caller run, linked to the displayed session. -/
theorem killPid_effect (h : Represents k t) (exitCode : Int) :
    (Undisturbed k (Process.killPid k (t.leaf t.current) exitCode).1 ∧
        Represents (Process.killPid k (t.leaf t.current) exitCode).1 t ∧
        (Process.killPid k (t.leaf t.current) exitCode).1.procStatus =
          Function.update k.procStatus (t.leaf t.current) .pending) ∨
      ∃ caller rest, t.callers t.current = caller :: rest ∧
        Represents (Process.killPid k (t.leaf t.current) exitCode).1 (t.pop caller rest) ∧
        (Process.killPid k (t.leaf t.current) exitCode).1.procStatus =
          Function.update (Function.update k.procStatus (t.leaf t.current) .inactive) caller
            .active ∧
        SwitchesTo k (Process.killPid k (t.leaf t.current) exitCode).1 caller
          (k.vidmem t.current t.current) (k.linked caller) := by
  by_cases hroot : (k.pcb (t.leaf t.current)).parentPid = numProc
  · left
    rcases h.killPid exitCode with h' | ⟨caller, rest, hcallers, -⟩
    · refine ⟨?_, h', ?_⟩
      · simp only [Process.killPid, if_pos hroot]
        exact ⟨rfl, rfl, rfl, rfl, rfl, rfl, rfl⟩
      · simp only [Process.killPid, if_pos hroot, procStatus_setStatus]
    · have hcaller := h.caller_eq hcallers
      have hlt := hcaller.1.1
      rw [hcaller.2.2.2] at hroot
      omega
  · right
    have hlink := h.linked _ h.current
    cases hcallers : t.callers t.current with
    | nil =>
        simp only [Sessions.stack, hcallers, List.cons_append, List.nil_append] at hlink
        exact absurd (List.isChain_cons_cons.mp hlink).1 hroot
    | cons caller rest =>
        obtain ⟨-, hsess, hpid, hparent⟩ := h.caller_eq hcallers
        have hexec : ∃ procStatus, procStatus =
              Function.update (Function.update k.procStatus (t.leaf t.current) .inactive) caller
                .active ∧
            (Process.killPid k (t.leaf t.current) exitCode).1 =
            { mapVidmem (mapVirtual4mb
                  { k with procStatus := procStatus, sessDesc := k.linked caller }
                  (getPhysAddrByPid caller) userVirtTop) (k.pcb caller) t.current with
              tssEsp0 := getEsp0ByPid caller, curProcPcb := some caller } := by
          refine ⟨_, rfl, ?_⟩
          have hlinked : ∀ procStatus, linkSaPcb { k with procStatus := procStatus } (some caller)
              k.curSessId =
                { k with procStatus := procStatus, sessDesc := k.linked caller } :=
            fun procStatus => linkSaPcb_eq { k with procStatus := procStatus } caller
          have hnotroot : caller ≠ numProc := hparent ▸ hroot
          simp [Process.killPid, hnotroot, hparent, hpid, h.running_pid, setStatus, hlinked,
            show (k.pcb caller).activeSess = t.current from hsess]
        obtain ⟨procStatus, hstatus, heq⟩ := hexec
        have hview : SameView k { k with procStatus := procStatus, sessDesc := k.linked caller } :=
          ⟨rfl, cachedVidmem_linked k caller, rfl, rfl, rfl⟩
        obtain ⟨hdisp, hdesc, hdir, htab, haddr⟩ := hview.maps caller t.current (k.pcb caller)
        have hvid : k.vidmem (k.pcb caller).activeSess t.current =
            k.vidmem t.current t.current := by rw [show (k.pcb caller).activeSess = _ from hsess]
        rcases h.killPid exitCode with h' | ⟨caller', rest', hcallers', h'⟩
        · -- the running process has changed, so the stacks have too
          have hrun := h'.running
          rw [heq] at hrun
          have hnodup := h.nodup _ h.current
          rw [Sessions.stack, hcallers] at hnodup
          rw [Option.some_inj.mp hrun] at hnodup
          simp at hnodup
        · rw [hcallers, List.cons.injEq] at hcallers'
          obtain ⟨rfl, rfl⟩ := hcallers'
          refine ⟨caller, rest, rfl, h', ?_, ?_⟩
          · rw [heq]
            simpa using hstatus
          rw [heq]
          exact ⟨rfl, hdisp, hdesc, hdir.trans (by rw [hvid]), htab.trans (by rw [hvid]), haddr,
            rfl⟩

/-- What `do_sched` maps for the process it switches to. -/
theorem switchTo_switches {k₁ : Kernel} (hview : SameView k k₁) {next : Nat}
    (hpid : (k₁.pcb next).pid = next) :
    SwitchesTo k (switchTo k₁ next next) next (k.vidmem (k₁.sess next) (k₁.sess next))
      k₁.sessDesc := by
  obtain ⟨hdisp, hdesc, hdir, htab, haddr⟩ :=
    hview.maps next (k₁.sess next) (k₁.pcb next)
  refine ⟨rfl, hdisp, hdesc, hdir, htab, haddr, ?_⟩
  simp [switchTo, hpid]

/-- Setting the running process aside leaves a shell waiting that waits. -/
theorem procStatus_setAside {p q : Nat} (hpending : k.procStatus p = .pending) :
    (Process.setAside k q).procStatus p = .pending := by
  unfold Process.setAside
  by_cases hactive : k.procStatus q = .active
  · have hne : p ≠ q := by
      rintro rfl
      rw [hpending] at hactive
      exact absurd hactive (by decide)
    rw [if_pos hactive, procStatus_setStatus, Function.update_of_ne hne, hpending]
  · rw [if_neg hactive, hpending]

/-- `do_sched` makes the top of some stack run, with the cached screen of its own
session unless that is displayed, and links no process. -/
theorem doSched_effect (h : Represents k t) (shell ebp : Nat) :
    ∃ s < numSess,
      schedNext (Process.setAside k (t.leaf t.current)) (t.leaf t.current) = t.leaf s ∧
      Represents (Process.doSched k shell ebp).1 (t.run s) ∧
      (∀ r < numSess, r ≠ s → k.procStatus (t.leaf r) = .pending →
        (Process.doSched k shell ebp).1.procStatus (t.leaf r) = .pending) ∧
      SwitchesTo k (Process.doSched k shell ebp).1 (t.leaf s) (k.vidmem s s) k.sessDesc := by
  obtain ⟨s, hs, hnext, h'⟩ := h.doSched shell ebp
  refine ⟨s, hs, hnext, h', ?_⟩
  obtain ⟨haside, -⟩ := h.setAside
  have hview : SameView k (Process.setAside k (t.leaf t.current)) ∧
      (Process.setAside k (t.leaf t.current)).sessDesc = k.sessDesc := by
    unfold Process.setAside
    split
    · exact ⟨⟨rfl, fun _ => rfl, rfl, rfl, rfl⟩, rfl⟩
    · exact ⟨⟨rfl, fun _ => rfl, rfl, rfl, rfl⟩, rfl⟩
  have hsome : queryProcStatus k .inactive ≠ numProc :=
    queryProcStatus_ne_numProc h.running_lt (h.leaf_alive h.current).1.2
  have hpid := h.running_pid
  have hwait : ∀ p, k.procStatus p = .pending →
      (Process.setAside k (t.leaf t.current)).procStatus p = .pending :=
    fun p => procStatus_setAside
  generalize hk₁ : Process.setAside k (t.leaf t.current) = k₁ at *
  obtain ⟨hview, hdesc⟩ := hview
  have hleaf := haside.leaf_pid hs
  have hswitch := switchTo_switches hview hleaf
  rw [(haside.leaf_alive hs).2, hdesc] at hswitch
  by_cases hpending : queryProcStatus k₁ .pending ≠ 0
  · have heq : (Process.doSched k shell ebp).1 =
        setStatus (switchTo k₁ (t.leaf s) (t.leaf s)) (t.leaf s) .active := by
      simp only [Process.doSched, if_neg hsome, h.running, hpid, hk₁, hnext, if_pos hpending,
        hleaf]
    rw [heq]
    refine ⟨fun r hr hrs hpend => ?_, hswitch.running, hswitch.displayed, hswitch.sessDesc,
      hswitch.directory, hswitch.table, hswitch.tableAddr, hswitch.tss⟩
    rw [procStatus_setStatus, Function.update_of_ne (haside.leaf_ne hr hs hrs),
      (switchTo_spec k₁ _ _).1]
    exact hwait _ hpend
  · have hkeep := (switchTo_spec k₁ (t.leaf s) (t.leaf s)).1
    generalize hk₂ : switchTo k₁ (t.leaf s) (t.leaf s) = k₂ at hswitch hkeep
    have heq : (Process.doSched k shell ebp).1 =
        { k₂ with
          pcb := Function.update k₂.pcb (t.leaf t.current)
            { k₂.pcb (t.leaf t.current) with kernelEbp := ebp } } := by
      simp only [Process.doSched, if_neg hsome, h.running, hpid, hk₁, hnext, if_neg hpending, hk₂]
    rw [heq]
    exact ⟨fun r _ _ hpend => by rw [hkeep]; exact hwait _ hpend, hswitch.running,
      hswitch.displayed, hswitch.sessDesc, hswitch.directory, hswitch.table, hswitch.tableAddr,
      hswitch.tss⟩

/-- A switch of the displayed session leaves the processes alone; unless it is none,
it maps the video page of the running process anew, with the cached screen of the
session that is displayed from now on. -/
theorem sessSwitch_effect (h : Represents k t) (sessId : Nat) :
    Represents (sessSwitch k sessId).1 t ∧
      (((numSess ≤ sessId ∨ sessId = k.curSessId) ∧ (sessSwitch k sessId).1 = k) ∨
        (sessId < numSess ∧ sessId ≠ k.curSessId ∧
          (sessSwitch k sessId).1 =
            mapVirtual4kbProg { k with curSessId := sessId }
              (Kernel.vidmem { k with curSessId := sessId } t.current sessId)
              vmemVirtStart)) := by
  unfold sessSwitch
  by_cases hsess : numSess ≤ sessId
  · rw [if_pos hsess]
    exact ⟨h, Or.inl ⟨Or.inl hsess, rfl⟩⟩
  · rw [if_neg hsess]
    by_cases hsame : sessId = k.curSessId
    · rw [if_pos hsame]
      exact ⟨h, Or.inl ⟨Or.inr hsame, rfl⟩⟩
    · rw [if_neg hsame]
      have hcur : (k.pcb (t.leaf t.current)).activeSess = t.current := (h.leaf_alive h.current).2
      simp only [h.running, mapVidmem_eq, hcur]
      refine ⟨h.congr rfl h.running.symm fun p => ⟨rfl, rfl, rfl⟩, Or.inr ⟨by omega, hsame, ?_⟩⟩
      trivial

end Represents

/-! ## Runs -/

/-- What can happen to the processes and the display.  `exit` is the running
process's own; `sched` is the timer's interrupt. -/
inductive Action
  | execute (curRegs : Nat) (image : Option Nat)
  | exit (exitCode : Int)
  | sched (regs shell ebp : Nat)
  | switch (sessId : Nat)

/-- The state after an action. -/
def perform (k : Kernel) : Action → Kernel
  | .execute curRegs image => (sysExecute k curRegs image).1
  | .exit exitCode =>
      match k.curProcPcb with
      | none => k
      | some cur => (killPid k (k.pcb cur).pid exitCode).1
  | .sched regs shell ebp => (doSched (saveKernelEsp k regs) shell ebp).1
  | .switch sessId => (sessSwitch k sessId).1

/-- The first shell was executed after `terminal_init` on an unused process table.
The page table is aligned, as it is declared. -/
def Started (k : Kernel) : Prop :=
  ∃ k₀ curRegs entryPoint, k₀.curProcPcb = none ∧
    (∀ p < numProc, k₀.procStatus p = .inactive) ∧
    k₀.progPageTableAddr.toNat % 2 ^ 12 = 0 ∧
    k = (sysExecute (terminalInit k₀) curRegs (some entryPoint)).1

/-- Runs from the start whose every action is allowed in the state it is taken in. -/
def displaySystem (allowed : Kernel → Action → Prop) : TransitionSystem Kernel where
  init := Started
  step k k' := ∃ a, allowed k a ∧ k' = perform k a

/-- What no action changes, beside the stacks: a session is displayed, and the cached
screens and the page table are where they were put. -/
structure Settled (k : Kernel) (t : Sessions) : Prop where
  represents : Represents k t
  displayed : k.curSessId < numSess
  cached : ∀ s < numSess, (k.sessDesc s).cachedVidmem = getCachedVidmem s
  aligned : k.progPageTableAddr.toNat % 2 ^ 12 = 0

/-- The parts of the initial state that the sessions and the mappings depend on. -/
theorem terminalInit_display (k : Kernel) :
    (terminalInit k).curSessId = 0 ∧ (terminalInit k).curProcPcb = k.curProcPcb ∧
      (terminalInit k).progPageTableAddr = k.progPageTableAddr ∧
      ∀ s, s < numSess → ((terminalInit k).sessDesc s).cachedVidmem = getCachedVidmem s := by
  refine ⟨rfl, by simp [terminalInit, startupEnvirInit, numSess, List.range_succ], ?_, ?_⟩
  · simp [terminalInit, startupEnvirInit, numSess, List.range_succ, setStatus]
  · intro s hs
    have hdesc : (terminalInit k).sessDesc s =
        if s < numSess then { k.sessDesc s with cachedVidmem := getCachedVidmem s }
        else k.sessDesc s := rfl
    rw [hdesc, if_pos hs]

/-- Before any process runs, `sys_execute` starts the first shell in the displayed
session. -/
theorem sysExecute_first_switches {k : Kernel} (hcur : k.curProcPcb = none)
    (curRegs entryPoint : Nat) :
    SwitchesTo k (sysExecute k curRegs (some entryPoint)).1 0
      (k.vidmem (k.sess 0) k.curSessId) (k.linked 0) := by
  have hlinked : ∀ procStatus pcb, linkSaPcb { k with
        procStatus := procStatus
        pcb := pcb
        curProcPcb := some 0 } (some 0) k.curSessId =
      { k with
        procStatus := procStatus
        pcb := pcb
        curProcPcb := some 0
        sessDesc := k.linked 0 } :=
    fun procStatus pcb => linkSaPcb_eq { k with
      procStatus := procStatus
      pcb := pcb
      curProcPcb := some 0 } 0
  have hview : ∀ procStatus pcb, SameView k { k with
      procStatus := procStatus
      pcb := pcb
      curProcPcb := some 0
      sessDesc := k.linked 0 } :=
    fun procStatus pcb => ⟨rfl, cachedVidmem_linked k 0, rfl, rfl, rfl⟩
  have hexec : ∃ procStatus pcb child, child.activeSess = k.sess 0 ∧
      (sysExecute k curRegs (some entryPoint)).1 =
        { mapVidmem (mapVirtual4mb { k with
              procStatus := procStatus
              pcb := pcb
              curProcPcb := some 0
              sessDesc := k.linked 0 } (getPhysAddrByPid 0) userVirtTop) child k.curSessId with
          tssEsp0 := getEsp0ByPid 0 } := by
    refine ⟨Function.update k.procStatus 0 .active,
      Function.update k.pcb 0 { k.pcb 0 with pid := 0, uptime := 0, parentEsp := curRegs },
      { k.pcb 0 with pid := 0, uptime := 0, parentEsp := curRegs }, rfl, ?_⟩
    simp [sysExecute, hcur, childPcbInit, setStatus, hlinked]
  obtain ⟨procStatus, pcb, child, hchild, heq⟩ := hexec
  obtain ⟨hdisp, hdesc, hdir, htab, haddr⟩ :=
    (hview procStatus pcb).maps 0 k.curSessId child
  rw [heq]
  rw [hchild] at hdir htab
  refine ⟨?_, hdisp, hdesc, hdir, htab, haddr, rfl⟩
  simp

/-- A started machine is settled, shows the first session and runs its shell with
`VIDEO` as the video page. -/
theorem Started.spec {k : Kernel} (h : Started k) :
    Boot k ∧ Settled k { leaf := id, callers := fun _ => [], current := 0 } ∧
      k.curSessId = 0 ∧ (k.sessDesc 0).saPcb = some 0 ∧
      ∃ k₀, k₀.progPageTableAddr = k.progPageTableAddr ∧
        k.pageDirectory = (Kernel.show k₀ 0 video).pageDirectory ∧
        k.progPageTable = (Kernel.show k₀ 0 video).progPageTable ∧
        k.tssEsp0 = getEsp0ByPid 0 := by
  obtain ⟨k₀, curRegs, entryPoint, hcur, hfree, halign, rfl⟩ := h
  have hboot := boot_sysExecute hcur hfree curRegs entryPoint
  obtain ⟨hdisp₀, hcur₀, haddr₀, hcached₀⟩ := terminalInit_display k₀
  obtain ⟨-, hroot⟩ := terminalInit_spec k₀
  obtain ⟨hrun, hdisp, hdesc, hdir, htab, haddr, htss⟩ :=
    sysExecute_first_switches (hcur₀.trans hcur) curRegs entryPoint
  have hsess : (terminalInit k₀).sess 0 = 0 := (hroot 0 (by decide)).2.2
  have hvid : (terminalInit k₀).vidmem ((terminalInit k₀).sess 0) (terminalInit k₀).curSessId =
      video := by
    unfold Kernel.vidmem
    rw [hsess, hdisp₀, if_pos rfl]
  rw [hvid] at hdir htab
  refine ⟨hboot, ⟨hboot.represents, ?_, ?_, ?_⟩, hdisp.trans hdisp₀, ?_, terminalInit k₀,
    haddr.symm, hdir, htab, htss⟩
  · rw [hdisp, hdisp₀]
    decide
  · intro s hs
    rw [hdesc, cachedVidmem_linked, hcached₀ s hs]
  · rw [haddr, haddr₀]
    exact halign
  · rw [hdesc, Kernel.linked, hdisp₀, if_neg (by decide), Function.update_self]

/-- A shell that has exited spins until the timer takes it off, and makes no calls. -/
def Able (k : Kernel) : Action → Prop
  | .execute _ _ | .exit _ => ∀ cur, k.curProcPcb = some cur → k.procStatus cur ≠ .pending
  | .sched _ _ _ | .switch _ => True

/-- What an action comes to: it disturbs nothing, makes the new process of a
`sys_execute` or the caller of an exited process run, takes up another stack, or
switches the displayed session.  In the stacks it does not take up, a shell that waits
to be loaded still waits. -/
inductive Outcome (k : Kernel) (t : Sessions) : Action → Kernel → Sessions → Prop
  | quiet {a : Action} {k' : Kernel} (hsame : Undisturbed k k')
      (hwait : Able k a → ∀ r < numSess, k.procStatus (t.leaf r) = .pending →
        k'.procStatus (t.leaf r) = .pending) :
      Outcome k t a k' t
  | started {curRegs entryPoint c : Nat} {k' : Kernel} (hfree : k.procStatus c = .inactive)
      (hroom : getNextPid k (t.leaf t.current) .inactive ≠ numProc)
      (hwait : ∀ r < numSess, r ≠ t.current → k.procStatus (t.leaf r) = .pending →
        k'.procStatus (t.leaf r) = .pending)
      (hswitch : SwitchesTo k k' c (k.vidmem t.current k.curSessId) (k.linked c)) :
      Outcome k t (.execute curRegs (some entryPoint)) k' (t.push c)
  | exited {exitCode : Int} {caller : Nat} {rest : List Nat} {k' : Kernel}
      (hcallers : t.callers t.current = caller :: rest)
      (hwait : ∀ r < numSess, r ≠ t.current → k.procStatus (t.leaf r) = .pending →
        k'.procStatus (t.leaf r) = .pending)
      (hswitch : SwitchesTo k k' caller (k.vidmem t.current t.current) (k.linked caller)) :
      Outcome k t (.exit exitCode) k' (t.pop caller rest)
  | scheduled {regs shell ebp s : Nat} {k' : Kernel} (hs : s < numSess)
      (hnext : schedNext (setAside k (t.leaf t.current)) (t.leaf t.current) = t.leaf s)
      (hwait : ∀ r < numSess, r ≠ s → k.procStatus (t.leaf r) = .pending →
        k'.procStatus (t.leaf r) = .pending)
      (hswitch : SwitchesTo k k' (t.leaf s) (k.vidmem s s) k.sessDesc) :
      Outcome k t (.sched regs shell ebp) k' (t.run s)
  | displayed {sessId : Nat} {k' : Kernel} (hlt : sessId < numSess)
      (hne : sessId ≠ k.curSessId)
      (heq : k' = mapVirtual4kbProg { k with curSessId := sessId }
        (Kernel.vidmem { k with curSessId := sessId } t.current sessId) vmemVirtStart) :
      Outcome k t (.switch sessId) k' t

namespace Settled

variable {k k' : Kernel} {t t' : Sessions}

/-- An undisturbed state stays settled. -/
theorem of_undisturbed (h : Settled k t) (hsame : Undisturbed k k') (h' : Represents k' t) :
    Settled k' t where
  represents := h'
  displayed := hsame.displayed ▸ h.displayed
  cached s hs := by rw [hsame.sessDesc, h.cached s hs]
  aligned := hsame.tableAddr ▸ h.aligned

/-- A switch to another process that moves no cached screen keeps a state settled. -/
theorem of_switchesTo (h : Settled k t) {pid vidmem : Nat} {desc : Nat → Sess}
    (hswitch : SwitchesTo k k' pid vidmem desc)
    (hdesc : ∀ s, (desc s).cachedVidmem = (k.sessDesc s).cachedVidmem)
    (h' : Represents k' t') : Settled k' t' where
  represents := h'
  displayed := hswitch.displayed ▸ h.displayed
  cached s hs := by rw [hswitch.sessDesc, hdesc, h.cached s hs]
  aligned := hswitch.tableAddr ▸ h.aligned

/-- A switch of the displayed session keeps a state settled. -/
theorem of_sessSwitch (h : Settled k t) (sessId : Nat) : Settled (sessSwitch k sessId).1 t := by
  obtain ⟨h', hcases⟩ := h.represents.sessSwitch_effect sessId
  rcases hcases with ⟨-, heq⟩ | ⟨hlt, -, heq⟩
  · rw [heq]
    exact h
  · refine ⟨h', ?_, ?_, ?_⟩
    · rw [heq]
      exact hlt
    · intro s hs
      rw [heq]
      exact h.cached s hs
    · rw [heq]
      exact h.aligned

/-- The timer's note of where the running process was interrupted. -/
theorem saveKernelEsp_effect (h : Settled k t) (regs : Nat) :
    Settled (saveKernelEsp k regs) t ∧ Undisturbed k (saveKernelEsp k regs) := by
  have hsame : Undisturbed k (saveKernelEsp k regs) := by
    simp only [saveKernelEsp, h.represents.running]
    exact ⟨h.represents.running.symm, rfl, rfl, rfl, rfl, rfl, rfl⟩
  exact ⟨h.of_undisturbed hsame (h.represents.saveKernelEsp regs), hsame⟩

/-- The process `do_sched` picks depends on the statuses only. -/
theorem schedNext_setAside_congr (hstatus : k'.procStatus = k.procStatus) (p : Nat) :
    schedNext (setAside k' p) p = schedNext (setAside k p) p := by
  have haside : (setAside k' p).procStatus = (setAside k p).procStatus := by
    unfold setAside
    rw [hstatus]
    by_cases hactive : k.procStatus p = .active
    · rw [if_pos hactive, if_pos hactive, procStatus_setStatus, procStatus_setStatus, hstatus]
    · rw [if_neg hactive, if_neg hactive, hstatus]
  generalize setAside k' p = a at haside
  generalize setAside k p = b at haside
  cases a
  cases b
  subst haside
  rfl

/-- A scheduler's switch seen from a state that something undisturbing was done to. -/
theorem SwitchesTo.of_undisturbed {k₁ : Kernel} (hsame : Undisturbed k k₁) {pid s : Nat}
    (h : SwitchesTo k₁ k' pid (k₁.vidmem s s) k₁.sessDesc) :
    SwitchesTo k k' pid (k.vidmem s s) k.sessDesc := by
  have hvid : k₁.vidmem s s = k.vidmem s s := by
    unfold Kernel.vidmem
    rw [hsame.displayed, hsame.sessDesc]
  refine ⟨h.running, h.displayed.trans hsame.displayed, h.sessDesc.trans hsame.sessDesc,
    h.directory.trans ?_, h.table.trans ?_, h.tableAddr.trans hsame.tableAddr, h.tss⟩
  · rw [hvid]
    simp only [Kernel.show, mapVirtual4kbProg, mapVirtual4mb, hsame.directory, hsame.tableAddr]
  · rw [hvid]
    simp only [Kernel.show, mapVirtual4kbProg, mapVirtual4mb, hsame.table]

/-- Every action keeps a state settled and has one of the outcomes. -/
theorem perform (h : Settled k t) (a : Action) :
    ∃ t', Settled (Process.perform k a) t' ∧ Outcome k t a (Process.perform k a) t' := by
  have hr := h.represents
  cases a with
  | execute curRegs image =>
      rcases hr.sysExecute_effect curRegs image with
        ⟨hsame, h', hstatus⟩ | ⟨c, entryPoint, rfl, hfree, hroom, h', hstatus, hswitch⟩
      · refine ⟨t, h.of_undisturbed hsame h', .quiet hsame fun hable r hrr hpend => ?_⟩
        change (sysExecute k curRegs image).1.procStatus (t.leaf r) = .pending
        rcases hstatus with hstatus | hstatus
        · rw [hstatus, hpend]
        · have hne : t.leaf r ≠ t.leaf t.current := by
            intro heq
            exact hable _ hr.running (heq ▸ hpend)
          rw [hstatus, Function.update_of_ne hne, hpend]
      · refine ⟨_, h.of_switchesTo hswitch (cachedVidmem_linked k c) h',
          .started hfree hroom (fun r hrr hne hpend => ?_) hswitch⟩
        change (sysExecute k curRegs (some entryPoint)).1.procStatus (t.leaf r) = .pending
        have hnec : t.leaf r ≠ c := by
          rintro rfl
          rw [hfree] at hpend
          exact absurd hpend (by decide)
        rw [hstatus, Function.update_of_ne hnec,
          Function.update_of_ne (hr.leaf_ne hrr hr.current hne), hpend]
  | exit exitCode =>
      have heq : Process.perform k (.exit exitCode) =
          (killPid k (t.leaf t.current) exitCode).1 := by
        simp only [Process.perform, hr.running, hr.running_pid]
      rw [heq]
      rcases hr.killPid_effect exitCode with
        ⟨hsame, h', hstatus⟩ | ⟨caller, rest, hcallers, h', hstatus, hswitch⟩
      · refine ⟨t, h.of_undisturbed hsame h', .quiet hsame fun _ r _ hpend => ?_⟩
        rw [hstatus]
        by_cases hne : t.leaf r = t.leaf t.current
        · rw [hne, Function.update_self]
        · rw [Function.update_of_ne hne, hpend]
      · refine ⟨_, h.of_switchesTo hswitch (cachedVidmem_linked k caller) h',
          .exited hcallers (fun r hrr hne hpend => ?_) hswitch⟩
        have hnec : t.leaf r ≠ caller := by
          intro hcaller
          apply hne
          rw [← (hr.leaf_alive hrr).2, hcaller, (hr.caller_eq hcallers).2.1]
        rw [hstatus, Function.update_of_ne hnec,
          Function.update_of_ne (hr.leaf_ne hrr hr.current hne), hpend]
  | sched regs shell ebp =>
      obtain ⟨h₁, hsame⟩ := h.saveKernelEsp_effect regs
      have hstatus : (saveKernelEsp k regs).procStatus = k.procStatus := by
        simp only [saveKernelEsp, hr.running]
      obtain ⟨s, hs, hnext, h', hwait, hswitch⟩ := h₁.represents.doSched_effect shell ebp
      rw [schedNext_setAside_congr hstatus] at hnext
      rw [hstatus] at hwait
      have hswitch' := SwitchesTo.of_undisturbed hsame hswitch
      exact ⟨_, h.of_switchesTo hswitch' (fun _ => rfl) h',
        .scheduled hs hnext hwait hswitch'⟩
  | switch sessId =>
      obtain ⟨h', hcases⟩ := hr.sessSwitch_effect sessId
      refine ⟨t, h.of_sessSwitch sessId, ?_⟩
      rcases hcases with ⟨-, heq⟩ | ⟨hlt, hne, heq⟩
      · refine .quiet ?_ fun _ r _ hpend => ?_
        · change Undisturbed k (sessSwitch k sessId).1
          rw [heq]
          exact ⟨rfl, rfl, rfl, rfl, rfl, rfl, rfl⟩
        · change (sessSwitch k sessId).1.procStatus (t.leaf r) = .pending
          rw [heq, hpend]
      · exact .displayed hlt hne heq

/-- Every state of a run is settled. -/
theorem of_reachable {allowed : Kernel → Action → Prop}
    (hk : (displaySystem allowed).Reachable k) : ∃ t, Settled k t := by
  have hinv : (displaySystem allowed).IsInvariant fun k => ∃ t, Settled k t := by
    refine ⟨fun k h => ⟨_, (Started.spec h).2.1⟩, ?_⟩
    rintro k k' ⟨t, h⟩ ⟨a, -, rfl⟩
    obtain ⟨t', h', -⟩ := h.perform a
    exact ⟨t', h'⟩
  exact hinv.of_reachable hk

end Settled

end Process
end NochOS
