import NochOS.Process.AddressSpace

/-!
# Processes - the screen a process writes to

Programs write to the page at `VMEM_VIRT_START`.  Four functions map it: to `VIDEO`
when the session of the process that is about to run is displayed, else to a cached
screen.  `kill_pid` and `do_sched` take the cached screen of that session;
`sys_execute` and `sess_switch` take the one of the displayed session.

Main results:

- Definition `MapsOwn`: the actions that map the screen of the running process.
- Theorem `Outcome.onScreen`: such an action leaves the running process on its own
  screen.
- Theorem `ownScreen`: in every run of such actions the page is the running process's
  own screen.
- Theorem `ownScreen_switch`: a switch of the display away from the running process
  puts it on the saved screen of another session.
-/

namespace NochOS
namespace Process

open Library Paging

/-- An execution that succeeds happens while the session of the running process is
displayed, and the display is only switched to the session of the running process. -/
def MapsOwn (k : Kernel) : Action → Prop
  | .execute _ image => ∀ cur, k.curProcPcb = some cur → image ≠ none →
      getNextPid k (k.pcb cur).pid .inactive ≠ numProc → k.sess cur = k.curSessId
  | .switch sessId => ∀ cur, k.curProcPcb = some cur → sessId < numSess →
      sessId ≠ k.curSessId → sessId = k.sess cur
  | .exit _ | .sched _ _ _ => True

/-- The tables map the video page to a physical page. -/
structure VideoAt (k : Kernel) (vidmem : Nat) : Prop where
  directory : k.pageDirectory (vmemVirtStart / 2 ^ 22) = smallEntry k.progPageTableAddr
  table : k.progPageTable 0 = smallEntry (BitVec.ofNat 32 vidmem)

/-- The slot of the video page in its table is the first. -/
theorem vmemVirtStart_slot : vmemVirtStart * 2 ^ 10 % 2 ^ 32 / 2 ^ 22 = 0 := by decide

/-- `map_virtual_4kb_prog` maps the video page. -/
theorem videoAt_mapVirtual4kbProg (k : Kernel) (vidmem : Nat) :
    VideoAt (mapVirtual4kbProg k vidmem vmemVirtStart) vidmem := by
  constructor
  · simp only [mapVirtual4kbProg, Function.update_self]
    rfl
  · simp only [mapVirtual4kbProg, vmemVirtStart_slot, Function.update_self]
    rfl

theorem VideoAt.of_switchesTo {k k' : Kernel} {pid vidmem : Nat} {desc : Nat → Sess}
    (h : SwitchesTo k k' pid vidmem desc) : VideoAt k' vidmem := by
  obtain ⟨hdir, htab⟩ :=
    videoAt_mapVirtual4kbProg (mapVirtual4mb k (getPhysAddrByPid pid) userVirtTop) vidmem
  refine ⟨?_, ?_⟩
  · rw [h.directory, h.tableAddr]
    exact hdir
  · rw [h.table]
    exact htab

/-- The processor finds the mapped page behind the video page. -/
theorem VideoAt.translate {k : Kernel} {t : Sessions} (hset : Settled k t) {vidmem : Nat}
    (h : VideoAt k vidmem) (halign : vidmem % 2 ^ 12 = 0) (hlt : vidmem < 2 ^ 32)
    (rest : Nat → Table) {off : Nat} (hoff : off < vidmemSize) :
    k.translate rest (vmemVirtStart + off) = some ⟨vidmem + off, true⟩ := by
  unfold vidmemSize at hoff
  have hdirIdx : (vmemVirtStart + off) / 2 ^ 22 = vmemVirtStart / 2 ^ 22 := by
    unfold vmemVirtStart
    omega
  have htabIdx : (vmemVirtStart + off) / 2 ^ 12 % 2 ^ 10 = 0 := by
    unfold vmemVirtStart
    omega
  have hoffset : (vmemVirtStart + off) % 2 ^ 12 = off := by
    unfold vmemVirtStart
    omega
  obtain ⟨hpresent, huser, hlarge⟩ := smallEntry_flags k.progPageTableAddr
  obtain ⟨hpte, huserPte, -⟩ := smallEntry_flags (BitVec.ofNat 32 vidmem)
  have haddr : smallBase k.progPageTableAddr = k.progPageTableAddr.toNat := by
    have hsame := toNat_and_small hset.aligned k.progPageTableAddr.isLt
    rwa [BitVec.ofNat_toNat, BitVec.setWidth_eq] at hsame
  have hbase : smallBase (smallEntry (BitVec.ofNat 32 vidmem)) = vidmem := by
    rw [smallBase_smallEntry, smallBase, toNat_and_small halign hlt]
  have hwalk := @walk_small k.pageDirectory (k.tables rest) (vmemVirtStart + off) k.progPageTable
    (by rw [hdirIdx, h.directory, hpresent]) (by rw [hdirIdx, h.directory, hlarge])
    (by rw [hdirIdx, h.directory, smallBase_smallEntry, haddr, Kernel.tables,
      Function.update_self])
    (by rw [htabIdx, h.table, hpte])
  rw [hdirIdx, htabIdx, h.directory, h.table, hbase, huser, huserPte, hoffset] at hwalk
  exact hwalk

/-- Video memory and the cached screens are pages. -/
theorem Settled.vidmem_page {k : Kernel} {t : Sessions} (hset : Settled k t) (sess : Nat)
    {session : Nat} (hs : session < numSess) :
    k.vidmem sess session % 2 ^ 12 = 0 ∧ k.vidmem sess session < 2 ^ 32 := by
  unfold Kernel.vidmem
  by_cases hdisp : sess = k.curSessId
  · rw [if_pos hdisp]
    decide
  · rw [if_neg hdisp, hset.cached session hs]
    unfold numSess at hs
    unfold getCachedVidmem video vidmemSize
    omega

/-- The running process writes to `VIDEO` or to the cached screen of its session. -/
def OnScreen (k : Kernel) (t : Sessions) : Prop := VideoAt k (k.vidmem t.current t.current)

/-- The choice of the video page is the same after a switch to another process. -/
theorem SwitchesTo.vidmem {k k' : Kernel} {pid vidmem : Nat} {desc : Nat → Sess}
    (h : SwitchesTo k k' pid vidmem desc)
    (hdesc : ∀ s, (desc s).cachedVidmem = (k.sessDesc s).cachedVidmem) (sess session : Nat) :
    k'.vidmem sess session = k.vidmem sess session := by
  unfold Kernel.vidmem
  rw [h.displayed, h.sessDesc, hdesc]

/-- An action that maps its own screen leaves the running process on its own screen. -/
theorem Outcome.onScreen {k k' : Kernel} {t t' : Sessions} {a : Action}
    (hout : Outcome k t a k' t') (hset : Settled k t) (h : OnScreen k t)
    (hown : MapsOwn k a) : OnScreen k' t' := by
  have hrep := hset.represents
  have hsess : k.sess (t.leaf t.current) = t.current := (hrep.leaf_alive hrep.current).2
  cases hout with
  | quiet hsame _ =>
      have hvid : k'.vidmem t.current t.current = k.vidmem t.current t.current := by
        unfold Kernel.vidmem
        rw [hsame.displayed, hsame.sessDesc]
      unfold OnScreen
      rw [hvid]
      exact ⟨by rw [hsame.directory, hsame.tableAddr, h.directory],
        by rw [hsame.table, h.table]⟩
  | @started _ _ c _ _ hroom _ hswitch =>
      have hdisp := hown _ hrep.running (Option.some_ne_none _) (by rwa [hrep.running_pid])
      rw [hsess] at hdisp
      have hvideo := VideoAt.of_switchesTo hswitch
      rw [← hdisp, ← hswitch.vidmem (cachedVidmem_linked k c)] at hvideo
      exact hvideo
  | @exited _ caller _ _ _ _ hswitch =>
      have hvideo := VideoAt.of_switchesTo hswitch
      rw [← hswitch.vidmem (cachedVidmem_linked k caller)] at hvideo
      exact hvideo
  | scheduled _ _ _ hswitch =>
      have hvideo := VideoAt.of_switchesTo hswitch
      rw [← hswitch.vidmem fun _ => rfl] at hvideo
      exact hvideo
  | @displayed sessId _ hlt hne heq =>
      have hsame := hown _ hrep.running hlt hne
      rw [hsess] at hsame
      subst hsame
      rw [heq]
      exact videoAt_mapVirtual4kbProg _ _

/-- At the start the first shell writes to `VIDEO`. -/
theorem Started.onScreen {k : Kernel} (h : Started k) :
    OnScreen k { leaf := id, callers := fun _ => [], current := 0 } := by
  obtain ⟨-, -, hdisp, -, k₀, haddr, hdir, htab, -⟩ := Started.spec h
  have hvid : k.vidmem 0 0 = video := by
    unfold Kernel.vidmem
    rw [hdisp, if_pos rfl]
  obtain ⟨hdir', htab'⟩ :=
    videoAt_mapVirtual4kbProg (mapVirtual4mb k₀ (getPhysAddrByPid 0) userVirtTop) video
  unfold OnScreen
  rw [hvid]
  refine ⟨?_, ?_⟩
  · rw [hdir, ← haddr]
    exact hdir'
  · rw [htab]
    exact htab'

/-- In every run whose executions happen while the session of the running process is
displayed, and which switches the display to that session only, the page at
`VMEM_VIRT_START` is `VIDEO` if the running process belongs to the displayed session, and
the cached screen of its own session otherwise. -/
theorem ownScreen (k : Kernel) (hk : (displaySystem MapsOwn).Reachable k) :
    ∃ cur, k.curProcPcb = some cur ∧ k.Alive cur ∧
      ∀ rest, ∀ off < vidmemSize, k.translate rest (vmemVirtStart + off) =
        some ⟨(if k.sess cur = k.curSessId then video
          else (k.sessDesc (k.sess cur)).cachedVidmem) + off, true⟩ := by
  have hinv : (displaySystem MapsOwn).IsInvariant fun k => ∃ t, Settled k t ∧ OnScreen k t := by
    refine ⟨fun k h => ⟨_, (Started.spec h).2.1, Started.onScreen h⟩, ?_⟩
    rintro k k' ⟨t, hset, h⟩ ⟨a, hown, rfl⟩
    obtain ⟨t', hset', hout⟩ := hset.perform a
    exact ⟨t', hset', hout.onScreen hset h hown⟩
  obtain ⟨t, hset, h⟩ := hinv.of_reachable hk
  have hrep := hset.represents
  obtain ⟨halive, hsess⟩ := hrep.leaf_alive hrep.current
  refine ⟨_, hrep.running, halive, fun rest off hoff => ?_⟩
  obtain ⟨halign, hlt⟩ := hset.vidmem_page t.current hrep.current
  rw [hsess]
  exact VideoAt.translate hset h halign hlt rest hoff

/-- The first shell runs a program while its session is displayed: the program writes to
`VIDEO`. -/
theorem ownScreen_boot : ∃ cur, (perform bootKernel (.execute 0 (some 0))).curProcPcb = some cur ∧
    ∀ rest, (perform bootKernel (.execute 0 (some 0))).translate rest vmemVirtStart =
      some ⟨(if (perform bootKernel (.execute 0 (some 0))).sess cur =
            (perform bootKernel (.execute 0 (some 0))).curSessId then video
          else ((perform bootKernel (.execute 0 (some 0))).sessDesc
            ((perform bootKernel (.execute 0 (some 0))).sess cur)).cachedVidmem), true⟩ := by
  have hstart : (displaySystem MapsOwn).Reachable bootKernel :=
    TransitionSystem.Reachable.init ⟨blankKernel, 0, 0, rfl, fun _ _ => rfl, rfl, rfl⟩
  have hown : MapsOwn bootKernel (.execute 0 (some 0)) := by
    intro cur hcur _ _
    have hfirst : bootKernel.curProcPcb = some 0 := rfl
    obtain rfl := Option.some_inj.mp (hfirst.symm.trans hcur)
    decide +kernel
  have hrun := hstart.step ⟨_, hown, rfl⟩
  obtain ⟨cur, hcur, -, hall⟩ := ownScreen _ hrun
  exact ⟨cur, hcur, fun rest => hall rest 0 (by decide)⟩

/-- The display is switched to the second session while the first shell runs: the shell's
video page becomes the saved screen of the second session. -/
theorem ownScreen_switch : ∃ k, (displaySystem fun _ _ => True).Reachable k ∧
    k.curProcPcb = some 0 ∧ k.sess 0 = 0 ∧ k.curSessId = 1 ∧
    (k.sessDesc 0).cachedVidmem ≠ (k.sessDesc 1).cachedVidmem ∧
    ∀ rest, k.translate rest vmemVirtStart = some ⟨(k.sessDesc 1).cachedVidmem, true⟩ := by
  have hstart : (displaySystem fun _ _ => True).Reachable bootKernel :=
    TransitionSystem.Reachable.init ⟨blankKernel, 0, 0, rfl, fun _ _ => rfl, rfl, rfl⟩
  have hrun := hstart.step ⟨.switch 1, trivial, rfl⟩
  obtain ⟨t, hset⟩ := Settled.of_reachable hrun
  refine ⟨_, hrun, rfl, rfl, rfl, by decide +kernel, fun rest => ?_⟩
  have hvideo : VideoAt (perform bootKernel (.switch 1)) (getCachedVidmem 1) :=
    videoAt_mapVirtual4kbProg { bootKernel with curSessId := 1 } _
  have hzero : 0 < vidmemSize := by decide
  exact VideoAt.translate hset hvideo (by decide) (by decide) rest hzero

end Process
end NochOS
