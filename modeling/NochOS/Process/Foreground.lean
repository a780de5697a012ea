import NochOS.Process.Display

/-!
# Processes - the process that Ctrl-C reaches

Each session descriptor names the process that Ctrl-C interrupts while its session
is displayed.  `sys_execute` and `kill_pid` write the name into the descriptor of the
displayed session, which need not be the session of the process they make run, and
`do_sched` writes none for a shell that it starts.

Main results:

- Definition `LinksRight`: the actions that leave the names right.
- Theorem `Outcome.linked`: such an action keeps the names of all sessions right.
- Theorem `foreground_linked`: in every run of such actions Ctrl-C reaches the
  process that runs in the displayed session.
- Theorem `foreground_not_linked`: the first scheduling of a run leaves a started
  shell without its name.
-/

namespace NochOS
namespace Process

open Library

/-- The pointer Ctrl-C requests its signal for (`print_regular_key`). -/
def ctrlCTarget (k : Kernel) : Option Nat := (k.sessDesc k.curSessId).saPcb

/-- A process is the one that runs, or waits to go on, in a session; a shell that is
still to be loaded is not. -/
def Kernel.Foreground (k : Kernel) (s p : Nat) : Prop :=
  k.Alive p ∧ k.sess p = s ∧ (k.procStatus p = .active ∨ k.procStatus p = .daemon)

/-- An execution that succeeds, or an exit of a process that is no shell, happens while
the session of the running process is displayed; a shell that the scheduler starts has
been named in its session's descriptor before. -/
def LinksRight (k : Kernel) : Action → Prop
  | .execute _ image => ∀ cur, k.curProcPcb = some cur → image ≠ none →
      getNextPid k (k.pcb cur).pid .inactive ≠ numProc → k.sess cur = k.curSessId
  | .exit _ => ∀ cur, k.curProcPcb = some cur → (k.pcb cur).parentPid ≠ numProc →
      k.sess cur = k.curSessId
  | .sched _ _ _ => ∀ cur next, k.curProcPcb = some cur →
      next = schedNext (setAside k (k.pcb cur).pid) (k.pcb cur).pid →
      k.procStatus next = .pending → (k.sessDesc (k.sess next)).saPcb = some next
  | .switch _ => True

/-- Every session whose shell has been loaded names the top of its stack. -/
def Linked (k : Kernel) (t : Sessions) : Prop :=
  ∀ s < numSess, k.procStatus (t.leaf s) ≠ .pending → (k.sessDesc s).saPcb = some (t.leaf s)

/-- A descriptor after `link_sa_pcb` to the displayed session. -/
theorem saPcb_linked {k : Kernel} (hdisp : k.curSessId < numSess) (pid s : Nat) :
    (k.linked pid s).saPcb = if s = k.curSessId then some pid else (k.sessDesc s).saPcb := by
  unfold Kernel.linked
  rw [if_neg (Nat.not_le.mpr hdisp)]
  by_cases hs : s = k.curSessId
  · rw [if_pos hs, hs, Function.update_self]
  · rw [if_neg hs, Function.update_of_ne hs]

/-- After a link to the top of the running stack, while its session is displayed, the
names of the other sessions are as they were. -/
theorem Linked.link {k k' : Kernel} {t t' : Sessions} (h : Linked k t)
    (hdisp : k.curSessId = t.current) (hlt : k.curSessId < numSess) {pid : Nat}
    (hdesc : k'.sessDesc = k.linked pid) (hleaf : t'.leaf = Function.update t.leaf t.current pid)
    (hwait : ∀ r < numSess, r ≠ t.current → k.procStatus (t.leaf r) = .pending →
      k'.procStatus (t.leaf r) = .pending) : Linked k' t' := by
  intro r hr hstarted
  rw [hdesc, saPcb_linked hlt, hdisp, hleaf]
  by_cases hrc : r = t.current
  · rw [if_pos hrc, hrc, Function.update_self]
  · rw [hleaf, Function.update_of_ne hrc] at hstarted
    rw [if_neg hrc, Function.update_of_ne hrc]
    exact h r hr fun hpend => hstarted (hwait r hr hrc hpend)

/-- An action that links right keeps the names of all sessions right. -/
theorem Outcome.linked {k k' : Kernel} {t t' : Sessions} {a : Action}
    (hout : Outcome k t a k' t') (hset : Settled k t) (h : Linked k t) (hable : Able k a)
    (hright : LinksRight k a) : Linked k' t' := by
  have hrep := hset.represents
  have hsess : k.sess (t.leaf t.current) = t.current := (hrep.leaf_alive hrep.current).2
  cases hout with
  | quiet hsame hwait =>
      intro r hr hstarted
      rw [hsame.sessDesc]
      exact h r hr fun hpend => hstarted (hwait hable r hr hpend)
  | started _ hroom hwait hswitch =>
      have hdisp := hright _ hrep.running (Option.some_ne_none _) (by rwa [hrep.running_pid])
      rw [hsess] at hdisp
      exact h.link hdisp.symm hset.displayed hswitch.sessDesc rfl hwait
  | exited hcallers hwait hswitch =>
      obtain ⟨halive, -, -, hparent⟩ := hrep.caller_eq hcallers
      have hnotroot : (k.pcb (t.leaf t.current)).parentPid ≠ numProc := by
        rw [hparent]
        exact halive.1.ne
      have hdisp := hright _ hrep.running hnotroot
      rw [hsess] at hdisp
      exact h.link hdisp.symm hset.displayed hswitch.sessDesc rfl hwait
  | @scheduled _ _ _ s _ hs hnext hwait hswitch =>
      intro r hr hstarted
      rw [hswitch.sessDesc]
      change k'.procStatus (t.leaf r) ≠ .pending at hstarted
      change (k.sessDesc r).saPcb = some (t.leaf r)
      by_cases hpend : k.procStatus (t.leaf r) = .pending
      · have hrs : r = s := by
          by_contra hne
          exact hstarted (hwait r hr hne hpend)
        subst hrs
        have hname := hright _ _ hrep.running rfl
        rw [hrep.running_pid, hnext, (hrep.leaf_alive hr).2] at hname
        exact hname hpend
      · exact h r hr hpend
  | displayed _ _ heq =>
      intro r hr hstarted
      rw [heq] at hstarted ⊢
      exact h r hr hstarted

/-- At the start the only loaded shell is named. -/
theorem Started.linked {k : Kernel} (h : Started k) :
    Linked k { leaf := id, callers := fun _ => [], current := 0 } := by
  obtain ⟨hboot, -, -, hname, -⟩ := Started.spec h
  obtain ⟨-, h1, h2⟩ := hboot.status
  intro s hs hstarted
  have hcases : s = 0 ∨ s = 1 ∨ s = 2 := by
    unfold numSess at hs
    omega
  rcases hcases with rfl | rfl | rfl
  · exact hname
  · exact absurd h1 hstarted
  · exact absurd h2 hstarted

/-- In every run whose executions and exits happen while their session is displayed, and
whose scheduler starts only shells that are named already, each session with a started
process names the one that runs in it, and so Ctrl-C reaches the one of the displayed
session. -/
theorem foreground_linked (k : Kernel)
    (hk : (displaySystem fun k a => Able k a ∧ LinksRight k a).Reachable k) :
    (∀ s < numSess, ∀ p, k.Foreground s p → (k.sessDesc s).saPcb = some p) ∧
      ∀ p, k.Foreground k.curSessId p → ctrlCTarget k = some p := by
  have hinv : (displaySystem fun k a => Able k a ∧ LinksRight k a).IsInvariant fun k =>
      ∃ t, Settled k t ∧ Linked k t := by
    refine ⟨fun k h => ⟨_, (Started.spec h).2.1, Started.linked h⟩, ?_⟩
    rintro k k' ⟨t, hset, h⟩ ⟨a, ⟨hable, hright⟩, rfl⟩
    obtain ⟨t', hset', hout⟩ := hset.perform a
    exact ⟨t', hset', hout.linked hset h hable hright⟩
  obtain ⟨t, hset, h⟩ := hinv.of_reachable hk
  have hall : ∀ s < numSess, ∀ p, k.Foreground s p → (k.sessDesc s).saPcb = some p := by
    rintro s hs p ⟨halive, hsess, hstatus⟩
    have hrun : (k.procStatus p).Runnable := by
      rcases hstatus with hstatus | hstatus
      · exact Or.inl hstatus
      · exact Or.inr (Or.inl hstatus)
    have hleaf := hset.represents.eq_leaf halive hrun
    rw [hsess] at hleaf
    subst hleaf
    apply h s hs
    rcases hstatus with hstatus | hstatus
    · simp [hstatus]
    · simp [hstatus]
  exact ⟨hall, fun p hp => hall _ hset.displayed p hp⟩

/-- The first shell runs a program while its session is displayed: Ctrl-C reaches the
program. -/
theorem foreground_linked_boot :
    ctrlCTarget (perform bootKernel (.execute 0 (some 0))) = some 3 := by
  have hstart : (displaySystem fun k a => Able k a ∧ LinksRight k a).Reachable bootKernel :=
    TransitionSystem.Reachable.init ⟨blankKernel, 0, 0, rfl, fun _ _ => rfl, rfl, rfl⟩
  have hcur : bootKernel.curProcPcb = some 0 := rfl
  have hallowed : Able bootKernel (.execute 0 (some 0)) ∧
      LinksRight bootKernel (.execute 0 (some 0)) := by
    constructor
    · intro cur hcur'
      obtain rfl := Option.some_inj.mp (hcur.symm.trans hcur')
      decide +kernel
    · intro cur hcur' _ _
      obtain rfl := Option.some_inj.mp (hcur.symm.trans hcur')
      decide +kernel
  have hrun := hstart.step ⟨_, hallowed, rfl⟩
  apply (foreground_linked _ hrun).2 3
  refine ⟨⟨by decide, ?_⟩, ?_, Or.inl ?_⟩
  · decide +kernel
  · decide +kernel
  · decide +kernel

/-- After the first scheduling the shell of the second session runs.  When its session is
displayed, Ctrl-C finds a null pointer. -/
theorem foreground_not_linked : ∃ k, (displaySystem Able).Reachable k ∧ k.curSessId = 1 ∧
    k.Foreground 1 1 ∧ ctrlCTarget k = none := by
  have hstart : (displaySystem Able).Reachable bootKernel :=
    TransitionSystem.Reachable.init ⟨blankKernel, 0, 0, rfl, fun _ _ => rfl, rfl, rfl⟩
  have hsched := hstart.step ⟨.sched 0 0 0, trivial, rfl⟩
  have hswitch := hsched.step ⟨.switch 1, trivial, rfl⟩
  refine ⟨_, hswitch, ?_, ⟨⟨by decide, ?_⟩, ?_, Or.inl ?_⟩, ?_⟩
  · decide +kernel
  · decide +kernel
  · decide +kernel
  · decide +kernel
  · decide +kernel

end Process
end NochOS
