import NochOS.Library.Rotation
import NochOS.Process.Display

/-!
# Processes - the round of the scheduler

While no shell awaits loading, `do_sched` takes the processes that run in the
background in the order of their numbers, from the one behind the running process on
and then from the first.  The runnable processes are one for each session, so three
calls go round them once.

Main results:

- Theorem `getNextPid_succeeds`: the search for the next process is a cyclic successor.
- Theorem `Represents.turn`: one call of the scheduler.
- Theorem `round_robin`: three calls run the process of each session once and end at
  the process they began with.
-/

namespace NochOS
namespace Process

open Library

/-! ## The search as a cyclic successor -/

/-- The search of the process table finds the cyclic successor among the processes with
the status, when the running process and another one are among them. -/
theorem getNextPid_succeeds (k : Kernel) {status : ProcStatus} {D : Finset Nat}
    (hD : ∀ p, p ∈ D ↔ p < numProc ∧ k.procStatus p = status) {cur : Nat} (hcur : cur ∈ D)
    (hother : ∃ p ∈ D, p ≠ cur) : Succeeds D cur (getNextPid k cur status) := by
  have hlt := ((hD cur).mp hcur).1
  unfold getNextPid
  rw [List.find?_append]
  cases habove : (List.range' (cur + 1) (numProc - (cur + 1))).find?
      fun i => k.procStatus i = status with
  | some p =>
      rw [Option.some_or, Option.getD_some]
      obtain ⟨hp, hrange, hfirst⟩ := List.find?_range'_eq_some.mp habove
      rw [List.mem_range'_1] at hrange
      refine ⟨(hD p).mpr ⟨by omega, by simpa using hp⟩, Or.inl ⟨by omega, fun r hr hcr => ?_⟩⟩
      by_contra hrp
      have hno := hfirst r (by omega) (by omega)
      simp [((hD r).mp hr).2] at hno
  | none =>
      rw [Option.none_or]
      have hmax : ∀ r ∈ D, r ≤ cur := by
        intro r hr
        by_contra hrc
        have hr' := (hD r).mp hr
        have hno := List.find?_eq_none.mp habove r (by rw [List.mem_range'_1]; omega)
        simp [hr'.2] at hno
      cases hbelow : (List.range cur).find? fun i => k.procStatus i = status with
      | none =>
          obtain ⟨p, hp, hne⟩ := hother
          have hle := hmax p hp
          have hno := List.find?_eq_none.mp hbelow p (List.mem_range.mpr (by omega))
          simp [((hD p).mp hp).2] at hno
      | some p =>
          rw [Option.getD_some]
          obtain ⟨hp, hrange, hfirst⟩ := List.find?_range_eq_some.mp hbelow
          rw [List.mem_range] at hrange
          refine ⟨(hD p).mpr ⟨by omega, by simpa using hp⟩, Or.inr ⟨hmax, fun r hr => ?_⟩⟩
          by_contra hrp
          have hno := hfirst r (by omega)
          simp [((hD r).mp hr).2] at hno

/-! ## One call -/

/-- The tops of the stacks. -/
def Sessions.leaves (t : Sessions) : Finset Nat := (Finset.range numSess).image t.leaf

/-- No shell awaits loading. -/
def Kernel.Loaded (k : Kernel) : Prop := ∀ p < numProc, k.procStatus p ≠ .pending

/-- What happens up to the next call of `do_sched`, and the call: switches of the
displayed session, then the timer's interrupt. -/
structure Turn where
  shown : List Nat
  regs : Nat
  shell : Nat
  ebp : Nat

/-- The state at the timer's interrupt. -/
def Turn.before (r : Turn) (k : Kernel) : Kernel :=
  saveKernelEsp (r.shown.foldl (fun k sessId => (sessSwitch k sessId).1) k) r.regs

/-- The state after the call, with the place where execution goes on. -/
def Turn.take (r : Turn) (k : Kernel) : Kernel × Transfer := doSched (r.before k) r.shell r.ebp

namespace Represents

variable {k : Kernel} {t : Sessions}

theorem mem_leaves {p : Nat} : p ∈ t.leaves ↔ ∃ s < numSess, t.leaf s = p := by
  simp [Sessions.leaves]

/-- There are as many tops as sessions. -/
theorem card_leaves (h : Represents k t) : t.leaves.card = numSess := by
  unfold Sessions.leaves
  rw [Finset.card_image_of_injOn, Finset.card_range]
  intro s hs r hr heq
  by_contra hne
  exact h.leaf_ne (Finset.mem_range.mp hs) (Finset.mem_range.mp hr) hne heq

/-- When no shell awaits loading and none is active, the processes in the background
are the tops. -/
theorem daemons (h : Represents k t) (hload : k.Loaded)
    (haside : ∀ s < numSess, k.procStatus (t.leaf s) ≠ .active) (p : Nat) :
    p ∈ t.leaves ↔ p < numProc ∧ k.procStatus p = .daemon := by
  rw [mem_leaves]
  constructor
  · rintro ⟨s, hs, rfl⟩
    have hlt := (h.leaf_alive hs).1.1
    refine ⟨hlt, ?_⟩
    rcases h.runnable s hs with hst | hst | hst
    · exact absurd hst (haside s hs)
    · exact hst
    · exact absurd hst (hload _ hlt)
  · rintro ⟨hp, hst⟩
    have hrun : (k.procStatus p).Runnable := Or.inr (Or.inl hst)
    have halive : k.Alive p := ⟨hp, hrun.ne_inactive⟩
    exact ⟨k.sess p, h.bound p halive, (h.eq_leaf halive hrun).symm⟩

/-- Switches of the displayed session and the timer's note change no status. -/
theorem before (h : Represents k t) (r : Turn) :
    Represents (r.before k) t ∧ (r.before k).procStatus = k.procStatus := by
  have hshown : ∀ (l : List Nat) (k : Kernel), Represents k t →
      Represents (l.foldl (fun k sessId => (sessSwitch k sessId).1) k) t ∧
        (l.foldl (fun k sessId => (sessSwitch k sessId).1) k).procStatus = k.procStatus := by
    intro l
    induction l with
    | nil =>
        intro k h
        exact ⟨h, rfl⟩
    | cons sessId l ih =>
        intro k h
        obtain ⟨h', hcases⟩ := h.sessSwitch_effect sessId
        obtain ⟨hrep, hstatus⟩ := ih _ h'
        refine ⟨hrep, hstatus.trans ?_⟩
        rcases hcases with ⟨-, heq⟩ | ⟨-, -, heq⟩
        · rw [heq]
        · rw [heq]
          rfl
  obtain ⟨h', hstatus⟩ := hshown r.shown k h
  refine ⟨h'.saveKernelEsp r.regs, ?_⟩
  rw [← hstatus]
  simp only [Turn.before, Process.saveKernelEsp, h'.running]

/-- While no shell awaits loading, a call of the scheduler runs the cyclic successor of
the running process among the tops, from where that was interrupted. -/
theorem turn (h : Represents k t) (hload : k.Loaded) (r : Turn) :
    ∃ s < numSess, Represents (r.take k).1 (t.run s) ∧ (r.take k).1.Loaded ∧
      Succeeds t.leaves (t.leaf t.current) (t.leaf s) ∧
      (r.take k).2 = .restore ((r.take k).1.pcb (t.leaf s)).kernelEsp
        ((r.take k).1.pcb (t.leaf s)).kernelEbp := by
  obtain ⟨h₁, hstatus₁⟩ := h.before r
  obtain ⟨s, hs, hnext, h'⟩ := h₁.doSched r.shell r.ebp
  obtain ⟨haside, hnone⟩ := h₁.setAside
  have hpid := h₁.running_pid
  have hsome : queryProcStatus (r.before k) .inactive ≠ numProc :=
    queryProcStatus_ne_numProc h₁.running_lt (h₁.leaf_alive h₁.current).1.2
  generalize hk₁ : r.before k = k₁ at *
  have hload₂ : (Process.setAside k₁ (t.leaf t.current)).Loaded := by
    intro p hp
    unfold Process.setAside
    split
    · rw [procStatus_setStatus]
      by_cases hpt : p = t.leaf t.current
      · rw [hpt, Function.update_self]
        decide
      · rw [Function.update_of_ne hpt, hstatus₁]
        exact hload p hp
    · rw [hstatus₁]
      exact hload p hp
  have hpending : ¬ queryProcStatus (Process.setAside k₁ (t.leaf t.current)) .pending ≠ 0 := by
    rw [queryProcStatus_ne_zero]
    rintro ⟨p, hp, hst⟩
    exact hload₂ p hp hst
  have hsucceeds : Succeeds t.leaves (t.leaf t.current) (t.leaf s) := by
    have hsearch : schedNext (Process.setAside k₁ (t.leaf t.current)) (t.leaf t.current) =
        getNextPid (Process.setAside k₁ (t.leaf t.current)) (t.leaf t.current) .daemon :=
      if_neg hpending
    rw [← hnext, hsearch]
    refine getNextPid_succeeds _ (haside.daemons hload₂ hnone)
      (mem_leaves.mpr ⟨_, h₁.current, rfl⟩) ?_
    obtain ⟨r, hr, hne⟩ : ∃ r < numSess, r ≠ t.current := by
      by_cases hzero : t.current = 0
      · exact ⟨1, by decide, by omega⟩
      · exact ⟨0, by decide, by omega⟩
    exact ⟨_, mem_leaves.mpr ⟨r, hr, rfl⟩, h₁.leaf_ne hr h₁.current hne⟩
  obtain ⟨hkeep, -, -⟩ :=
    switchTo_spec (Process.setAside k₁ (t.leaf t.current)) (t.leaf s) (t.leaf s)
  generalize hk₂ : Process.setAside k₁ (t.leaf t.current) = k₂ at *
  have htake : r.take k =
      ({ switchTo k₂ (t.leaf s) (t.leaf s) with
          pcb := Function.update (switchTo k₂ (t.leaf s) (t.leaf s)).pcb (t.leaf t.current)
            { (switchTo k₂ (t.leaf s) (t.leaf s)).pcb (t.leaf t.current) with
              kernelEbp := r.ebp } },
        .restore ((switchTo k₂ (t.leaf s) (t.leaf s)).pcb (t.leaf s)).kernelEsp
          (if t.leaf s = t.leaf t.current then r.ebp
            else ((switchTo k₂ (t.leaf s) (t.leaf s)).pcb (t.leaf s)).kernelEbp)) := by
    simp only [Turn.take, hk₁, Process.doSched, if_neg hsome, h₁.running, hpid, hk₂, hnext,
      if_neg hpending]
  refine ⟨s, hs, ?_, ?_, hsucceeds, ?_⟩
  · rw [Turn.take, hk₁]
    exact h'
  · rw [htake]
    intro p hp
    rw [hkeep]
    exact hload₂ p hp
  · rw [htake]
    dsimp only
    by_cases hsame : t.leaf s = t.leaf t.current
    · rw [if_pos hsame, hsame, Function.update_self]
    · rw [if_neg hsame, Function.update_of_ne hsame]

end Represents

/-! ## Three calls -/

/-- The state after so many calls. -/
def turns (x : Nat → Turn) (k : Kernel) : Nat → Kernel
  | 0 => k
  | n + 1 => ((x n).take (turns x k n)).1

/-- The runnable process of a session. -/
def Kernel.RunnableIn (k : Kernel) (s p : Nat) : Prop :=
  k.Alive p ∧ k.sess p = s ∧ (k.procStatus p).Runnable

/-- The processes that successive calls run. -/
theorem Represents.turns {k : Kernel} {t : Sessions} (h : Represents k t) (hload : k.Loaded)
    (x : Nat → Turn) (n : Nat) :
    ∃ s < numSess, Represents (Process.turns x k n) (t.run s) ∧ (Process.turns x k n).Loaded := by
  induction n with
  | zero => exact ⟨t.current, h.current, h, hload⟩
  | succ n ih =>
      obtain ⟨s, -, h', hload'⟩ := ih
      obtain ⟨s', hs', h'', hload'', -⟩ := h'.turn hload' (x n)
      exact ⟨s', hs', h'', hload''⟩

/-- From every reachable state in which no shell awaits loading, three calls of
`do_sched` run the runnable process of each session exactly once, each from where it
was interrupted, and end at the process that was running before. -/
theorem round_robin (k : Kernel) (hk : (displaySystem fun _ _ => True).Reachable k)
    (hload : k.Loaded) (x : Nat → Turn) :
    (turns x k 3).curProcPcb = k.curProcPcb ∧
      (∀ i < 3, ∃ p, (turns x k (i + 1)).curProcPcb = some p ∧
        ((x i).take (turns x k i)).2 =
          .restore ((turns x k (i + 1)).pcb p).kernelEsp ((turns x k (i + 1)).pcb p).kernelEbp) ∧
      ∀ s < numSess, ∃ p, (∀ q, k.RunnableIn s q ↔ q = p) ∧
        ∃! i, i < 3 ∧ (turns x k (i + 1)).curProcPcb = some p := by
  obtain ⟨t, hset⟩ := Settled.of_reachable hk
  have h := hset.represents
  have hstep : ∀ n, ∃ s < numSess, ∃ s' < numSess,
      (turns x k n).curProcPcb = some (t.leaf s) ∧
      (turns x k (n + 1)).curProcPcb = some (t.leaf s') ∧
      Succeeds t.leaves (t.leaf s) (t.leaf s') ∧
      ((x n).take (turns x k n)).2 =
        .restore ((turns x k (n + 1)).pcb (t.leaf s')).kernelEsp
          ((turns x k (n + 1)).pcb (t.leaf s')).kernelEbp := by
    intro n
    obtain ⟨s, hs, hrep, hload'⟩ := h.turns hload x n
    obtain ⟨s', hs', hrep', -, hsucceeds, hrestore⟩ := hrep.turn hload' (x n)
    exact ⟨s, hs, s', hs', hrep.running, hrep'.running, hsucceeds, hrestore⟩
  -- the walk of the running process
  obtain ⟨walk, hwalk⟩ : ∃ walk : Nat → Nat, ∀ n,
      walk n = ((turns x k n).curProcPcb).getD 0 := ⟨_, fun _ => rfl⟩
  have hrunning : ∀ n, (turns x k n).curProcPcb = some (walk n) ∧ walk n ∈ t.leaves := by
    intro n
    obtain ⟨s, hs, -, -, hcur, -⟩ := hstep n
    rw [hwalk, hcur]
    exact ⟨rfl, Represents.mem_leaves.mpr ⟨s, hs, rfl⟩⟩
  have hsucceeds : ∀ n, Succeeds t.leaves (walk n) (walk (n + 1)) := by
    intro n
    obtain ⟨s, hs, s', hs', hcur, hcur', hnext, -⟩ := hstep n
    rw [hwalk, hwalk, hcur, hcur']
    exact hnext
  obtain ⟨hback, honce⟩ := rotation_full h.card_leaves (hrunning 0).2 fun n _ => hsucceeds n
  have hzero : k.curProcPcb = some (walk 0) := (hrunning 0).1
  refine ⟨?_, fun i _ => ?_, fun s hs => ⟨t.leaf s, fun q => ?_, ?_⟩⟩
  · rw [(hrunning 3).1, hzero]
    exact congrArg some hback
  · obtain ⟨-, -, s', -, -, hcur', -, hrestore⟩ := hstep i
    exact ⟨t.leaf s', hcur', hrestore⟩
  · constructor
    · rintro ⟨halive, hsess, hrun⟩
      rw [h.eq_leaf halive hrun, hsess]
    · rintro rfl
      exact ⟨(h.leaf_alive hs).1, (h.leaf_alive hs).2, h.runnable s hs⟩
  · obtain ⟨i, ⟨hi, heq⟩, hunique⟩ := honce (t.leaf s) (Represents.mem_leaves.mpr ⟨s, hs, rfl⟩)
    refine ⟨i, ⟨hi, by rw [(hrunning (i + 1)).1, heq]⟩, fun j hj => hunique j ⟨hj.1, ?_⟩⟩
    have hcur := hj.2
    rw [(hrunning (j + 1)).1] at hcur
    exact Option.some_inj.mp hcur

/-- The three shells run, and the first of them has executed a program in between. -/
def loadedKernel : Kernel :=
  perform (perform (perform bootKernel (.execute 0 (some 0))) (.sched 0 0 0)) (.sched 0 0 0)

/-- `round_robin` for the processes 3, 1 and 2. -/
theorem round_robin_loaded :
    (turns (fun _ => ⟨[1], 0, 0, 0⟩) loadedKernel 3).curProcPcb = some 2 := by
  have hstart : (displaySystem fun _ _ => True).Reachable bootKernel :=
    TransitionSystem.Reachable.init ⟨blankKernel, 0, 0, rfl, fun _ _ => rfl, rfl, rfl⟩
  have hexecute := hstart.step ⟨.execute 0 (some 0), trivial, rfl⟩
  have hsecond := hexecute.step ⟨.sched 0 0 0, trivial, rfl⟩
  have hthird : (displaySystem fun _ _ => True).Reachable loadedKernel :=
    hsecond.step ⟨.sched 0 0 0, trivial, rfl⟩
  have hload : loadedKernel.Loaded := by
    unfold Kernel.Loaded
    decide +kernel
  have hcur : loadedKernel.curProcPcb = some 2 := by decide +kernel
  exact (round_robin loadedKernel hthird hload fun _ => ⟨[1], 0, 0, 0⟩).1.trans hcur

end Process
end NochOS
