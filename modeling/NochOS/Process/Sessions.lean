import NochOS.Process.Model
import Mathlib.Data.List.Chain
import Mathlib.Logic.Relation

/-!
# Processes - sessions as stacks of callers

Each session is a stack: the process at its top runs or waits to run, and every
process below it waits for the one above it to exit.  This module states the
abstract stacks with their three operations, says when a kernel state represents
them, and shows that the kernel state follows each operation.

Main results:

- Structure `Represents`: the process table is the given stacks.
- Theorem `Represents.restatus`: a change of the statuses of the tops alone keeps
  the stacks.
- Theorems `Represents.push`, `Represents.pop`: a new process goes on top of the
  running stack, and the top one leaves it.
-/

namespace NochOS
namespace Process

/-! ## The abstract stacks -/

/-- One stack of processes for each session, and the session that runs. -/
structure Sessions where
  leaf : Nat → Nat
  callers : Nat → List Nat
  current : Nat

namespace Sessions

/-- The processes of a session, the newest first. -/
def stack (t : Sessions) (s : Nat) : List Nat := t.leaf s :: t.callers s

/-- A new process on top of the running stack. -/
def push (t : Sessions) (pid : Nat) : Sessions :=
  { t with
    leaf := Function.update t.leaf t.current pid
    callers := Function.update t.callers t.current (t.stack t.current) }

/-- The running stack without its top, with `caller` on top of `rest`. -/
def pop (t : Sessions) (caller : Nat) (rest : List Nat) : Sessions :=
  { t with
    leaf := Function.update t.leaf t.current caller
    callers := Function.update t.callers t.current rest }

/-- Another session runs. -/
def run (t : Sessions) (s : Nat) : Sessions := { t with current := s }

@[simp] theorem stack_run (t : Sessions) (s r : Nat) : (t.run s).stack r = t.stack r := rfl

theorem stack_push_current (t : Sessions) (pid : Nat) :
    (t.push pid).stack t.current = pid :: t.stack t.current := by
  simp [stack, push]

theorem stack_push_of_ne (t : Sessions) (pid : Nat) {s : Nat} (h : s ≠ t.current) :
    (t.push pid).stack s = t.stack s := by
  simp [stack, push, h]

theorem stack_pop_current (t : Sessions) (caller : Nat) (rest : List Nat) :
    (t.pop caller rest).stack t.current = caller :: rest := by
  simp [stack, pop]

theorem stack_pop_of_ne (t : Sessions) (caller : Nat) (rest : List Nat) {s : Nat}
    (h : s ≠ t.current) : (t.pop caller rest).stack s = t.stack s := by
  simp [stack, pop, h]

end Sessions

/-! ## Representation -/

/-- A status a process at the top of its stack may have. -/
def ProcStatus.Runnable (st : ProcStatus) : Prop := st = .active ∨ st = .daemon ∨ st = .pending

instance (st : ProcStatus) : Decidable st.Runnable := by
  unfold ProcStatus.Runnable
  infer_instance

/-- A process of the table that is in use. -/
def Kernel.Alive (k : Kernel) (p : Nat) : Prop := p < numProc ∧ k.procStatus p ≠ .inactive

/-- The session of a process. -/
def Kernel.sess (k : Kernel) (p : Nat) : Nat := (k.pcb p).activeSess

/-- The process `p` was executed by `q`. -/
def Kernel.CalledBy (k : Kernel) (p q : Nat) : Prop := (k.pcb p).parentPid = q

/-- The process table holds the given stacks: their members are the processes in
use, each names the one below it as its parent, the tops are runnable, the others
are idle, and the running process is the top of the running stack. -/
structure Represents (k : Kernel) (t : Sessions) : Prop where
  current : t.current < numSess
  running : k.curProcPcb = some (t.leaf t.current)
  mem : ∀ s < numSess, ∀ p, p ∈ t.stack s ↔ k.Alive p ∧ k.sess p = s
  bound : ∀ p, k.Alive p → k.sess p < numSess
  pid : ∀ p, k.Alive p → (k.pcb p).pid = p
  nodup : ∀ s < numSess, (t.stack s).Nodup
  linked : ∀ s < numSess, (t.stack s ++ [numProc]).IsChain k.CalledBy
  runnable : ∀ s < numSess, (k.procStatus (t.leaf s)).Runnable
  idle : ∀ s < numSess, ∀ p ∈ t.callers s, k.procStatus p = .idle
  waiting : ∀ s < numSess, s ≠ t.current → k.procStatus (t.leaf s) ≠ .active

/-- The identity of a process is the same in two states. -/
def SameIdentity (k k' : Kernel) (p : Nat) : Prop :=
  (k'.pcb p).pid = (k.pcb p).pid ∧ (k'.pcb p).parentPid = (k.pcb p).parentPid ∧
    (k'.pcb p).activeSess = (k.pcb p).activeSess

theorem SameIdentity.sess {k k' : Kernel} {p : Nat} (h : SameIdentity k k' p) :
    k'.sess p = k.sess p := h.2.2

theorem SameIdentity.calledBy {k k' : Kernel} {p : Nat} (h : SameIdentity k k' p) (q : Nat) :
    k'.CalledBy p q ↔ k.CalledBy p q := by
  unfold Kernel.CalledBy
  rw [h.2.1]

theorem ProcStatus.runnable_active : ProcStatus.active.Runnable := Or.inl rfl

theorem ProcStatus.runnable_daemon : ProcStatus.daemon.Runnable := Or.inr (Or.inl rfl)

theorem ProcStatus.runnable_pending : ProcStatus.pending.Runnable := Or.inr (Or.inr rfl)

theorem ProcStatus.Runnable.ne_inactive {st : ProcStatus} (h : st.Runnable) : st ≠ .inactive := by
  rcases h with h | h | h <;> rw [h] <;> decide

theorem ProcStatus.Runnable.ne_idle {st : ProcStatus} (h : st.Runnable) : st ≠ .idle := by
  rcases h with h | h | h <;> rw [h] <;> decide

namespace Represents

variable {k k' : Kernel} {t : Sessions}

/-- The top of a stack is a member of it. -/
theorem leaf_alive (h : Represents k t) {s : Nat} (hs : s < numSess) :
    k.Alive (t.leaf s) ∧ k.sess (t.leaf s) = s :=
  (h.mem s hs (t.leaf s)).mp List.mem_cons_self

theorem leaf_pid (h : Represents k t) {s : Nat} (hs : s < numSess) :
    (k.pcb (t.leaf s)).pid = t.leaf s := h.pid _ (h.leaf_alive hs).1

/-- Tops of different stacks are different processes. -/
theorem leaf_ne (h : Represents k t) {s r : Nat} (hs : s < numSess) (hr : r < numSess)
    (hne : s ≠ r) : t.leaf s ≠ t.leaf r := by
  intro heq
  apply hne
  rw [← (h.leaf_alive hs).2, heq, (h.leaf_alive hr).2]

/-- A runnable process in use is the top of its stack. -/
theorem eq_leaf (h : Represents k t) {p : Nat} (hp : k.Alive p)
    (hrun : (k.procStatus p).Runnable) : p = t.leaf (k.sess p) := by
  have hs := h.bound p hp
  rcases List.mem_cons.mp ((h.mem _ hs p).mpr ⟨hp, rfl⟩) with heq | hcaller
  · exact heq
  · exact absurd (h.idle _ hs p hcaller) hrun.ne_idle

/-- A process in use that is no top is idle. -/
theorem idle_of_ne_leaf (h : Represents k t) {p : Nat} (hp : k.Alive p)
    (hne : p ≠ t.leaf (k.sess p)) : k.procStatus p = .idle := by
  have hs := h.bound p hp
  rcases List.mem_cons.mp ((h.mem _ hs p).mpr ⟨hp, rfl⟩) with heq | hcaller
  · exact absurd heq hne
  · exact h.idle _ hs p hcaller

/-- A change of the statuses of the tops alone, possibly with another session
running, keeps the stacks. -/
theorem restatus (h : Represents k t) {s : Nat} (hs : s < numSess)
    (hcur : k'.curProcPcb = some (t.leaf s))
    (hid : ∀ p, SameIdentity k k' p)
    (hother : ∀ p, (∀ r < numSess, p ≠ t.leaf r) → k'.procStatus p = k.procStatus p)
    (hrun : ∀ r < numSess, (k'.procStatus (t.leaf r)).Runnable)
    (hwait : ∀ r < numSess, r ≠ s → k'.procStatus (t.leaf r) ≠ .active) :
    Represents k' (t.run s) := by
  have halive : ∀ p, k'.Alive p ↔ k.Alive p := by
    intro p
    by_cases hleaf : ∃ r < numSess, p = t.leaf r
    · obtain ⟨r, hr, rfl⟩ := hleaf
      have hlt := (h.leaf_alive hr).1.1
      exact ⟨fun _ => (h.leaf_alive hr).1, fun _ => ⟨hlt, (hrun r hr).ne_inactive⟩⟩
    · push Not at hleaf
      unfold Kernel.Alive
      rw [hother p hleaf]
  refine
    { current := hs
      running := hcur
      mem := ?_
      bound := ?_
      pid := ?_
      nodup := h.nodup
      linked := ?_
      runnable := hrun
      idle := ?_
      waiting := hwait }
  · intro r hr p
    rw [Sessions.stack_run, halive, (hid p).sess]
    exact h.mem r hr p
  · intro p hp
    rw [(hid p).sess]
    exact h.bound p ((halive p).mp hp)
  · intro p hp
    rw [(hid p).1]
    exact h.pid p ((halive p).mp hp)
  · intro r hr
    exact (h.linked r hr).imp fun p q hpq => ((hid p).calledBy q).mpr hpq
  · intro r hr p hp
    have hmem := (h.mem r hr p).mp (List.mem_cons_of_mem _ hp)
    rw [hother p, h.idle r hr p hp]
    intro q hq heq
    have hrunnable := h.runnable q hq
    rw [← heq, h.idle r hr p hp] at hrunnable
    exact hrunnable.ne_idle rfl

/-- A process that was not in use becomes the running one, called by the process
that ran, which becomes idle. -/
theorem push (h : Represents k t) {c : Nat} (hc : c < numProc)
    (hfree : k.procStatus c = .inactive) (hcur : k'.curProcPcb = some c)
    (hid : ∀ p, p ≠ c → SameIdentity k k' p)
    (hpid : (k'.pcb c).pid = c) (hparent : k'.CalledBy c (t.leaf t.current))
    (hsess : k'.sess c = t.current)
    (hstatus : k'.procStatus =
      Function.update (Function.update k.procStatus (t.leaf t.current) .idle) c .active) :
    Represents k' (t.push c) := by
  have hnot : ∀ s < numSess, c ∉ t.stack s := by
    intro s hs hin
    exact ((h.mem s hs c).mp hin).1.2 hfree
  have hleafc : ∀ s < numSess, t.leaf s ≠ c := by
    intro s hs heq
    exact hnot s hs (heq ▸ List.mem_cons_self)
  have hcstatus : k'.procStatus c = .active := by rw [hstatus, Function.update_self]
  have hold : ∀ p, p ≠ c → (k'.Alive p ↔ k.Alive p) := by
    intro p hp
    unfold Kernel.Alive
    rw [hstatus, Function.update_of_ne hp]
    by_cases hleaf : p = t.leaf t.current
    · subst hleaf
      rw [Function.update_self]
      have hne := (h.leaf_alive h.current).1.2
      simp [hne]
    · rw [Function.update_of_ne hleaf]
  have hcalive : k'.Alive c := by
    refine ⟨hc, ?_⟩
    rw [hcstatus]
    decide
  refine
    { current := h.current
      running := by simp [Sessions.push, hcur]
      mem := ?_
      bound := ?_
      pid := ?_
      nodup := ?_
      linked := ?_
      runnable := ?_
      idle := ?_
      waiting := ?_ }
  · intro s hs p
    by_cases hp : p = c
    · subst hp
      have hleft : k'.Alive p ∧ k'.sess p = s ↔ s = t.current := by
        simp [hcalive, hsess, eq_comm]
      rw [hleft]
      by_cases hsc : s = t.current
      · subst hsc
        simp [Sessions.stack_push_current]
      · rw [Sessions.stack_push_of_ne _ _ hsc]
        simp [hsc, hnot s hs]
    · rw [hold p hp, (hid p hp).sess, ← h.mem s hs p]
      by_cases hsc : s = t.current
      · subst hsc
        simp [Sessions.stack_push_current, hp]
      · rw [Sessions.stack_push_of_ne _ _ hsc]
  · intro p hp
    by_cases hpc : p = c
    · rw [hpc, hsess]
      exact h.current
    · rw [(hid p hpc).sess]
      exact h.bound p ((hold p hpc).mp hp)
  · intro p hp
    by_cases hpc : p = c
    · rw [hpc, hpid]
    · rw [(hid p hpc).1]
      exact h.pid p ((hold p hpc).mp hp)
  · intro s hs
    by_cases hsc : s = t.current
    · subst hsc
      rw [Sessions.stack_push_current]
      exact List.nodup_cons.mpr ⟨hnot _ hs, h.nodup _ hs⟩
    · rw [Sessions.stack_push_of_ne _ _ hsc]
      exact h.nodup s hs
  · intro s hs
    have hlink : (t.stack s ++ [numProc]).IsChain k'.CalledBy := by
      refine (h.linked s hs).imp_of_mem_imp fun p q hp _ hpq => ?_
      have hpc : p ≠ c := by
        rintro rfl
        rcases List.mem_append.mp hp with hp | hp
        · exact hnot s hs hp
        · rw [List.mem_singleton] at hp
          omega
      exact ((hid p hpc).calledBy q).mpr hpq
    by_cases hsc : s = t.current
    · subst hsc
      rw [Sessions.stack_push_current, List.cons_append]
      exact List.isChain_cons_cons.mpr ⟨hparent, hlink⟩
    · rw [Sessions.stack_push_of_ne _ _ hsc]
      exact hlink
  · intro s hs
    by_cases hsc : s = t.current
    · subst hsc
      simp [Sessions.push, hcstatus, ProcStatus.Runnable]
    · simp only [Sessions.push, Function.update_of_ne hsc]
      rw [hstatus, Function.update_of_ne (hleafc s hs),
        Function.update_of_ne (h.leaf_ne hs h.current hsc)]
      exact h.runnable s hs
  · intro s hs p hp
    have hin : p ∈ t.stack s := by
      by_cases hsc : s = t.current
      · subst hsc
        simpa [Sessions.push] using hp
      · simp only [Sessions.push, Function.update_of_ne hsc] at hp
        exact List.mem_cons_of_mem _ hp
    have hpc : p ≠ c := fun heq => hnot s hs (heq ▸ hin)
    rw [hstatus, Function.update_of_ne hpc]
    by_cases hleaf : p = t.leaf t.current
    · rw [hleaf, Function.update_self]
    · rw [Function.update_of_ne hleaf]
      apply h.idle_of_ne_leaf ((h.mem s hs p).mp hin).1
      rw [((h.mem s hs p).mp hin).2]
      by_cases hsc : s = t.current
      · rwa [hsc]
      · simp only [Sessions.push, Function.update_of_ne hsc] at hp
        rintro rfl
        exact (List.nodup_cons.mp (h.nodup s hs)).1 hp
  · intro s hs hsc
    change s ≠ t.current at hsc
    simp only [Sessions.push, Function.update_of_ne hsc]
    rw [hstatus, Function.update_of_ne (hleafc s hs),
      Function.update_of_ne (h.leaf_ne hs h.current hsc)]
    exact h.waiting s hs hsc

/-- The running process leaves its stack and the process below it runs. -/
theorem pop (h : Represents k t) {caller : Nat} {rest : List Nat}
    (hcallers : t.callers t.current = caller :: rest) (hcur : k'.curProcPcb = some caller)
    (hid : ∀ p, SameIdentity k k' p)
    (hstatus : k'.procStatus =
      Function.update (Function.update k.procStatus (t.leaf t.current) .inactive) caller
        .active) :
    Represents k' (t.pop caller rest) := by
  have hstack : t.stack t.current = t.leaf t.current :: caller :: rest := by
    rw [Sessions.stack, hcallers]
  have hnodup := h.nodup _ h.current
  rw [hstack] at hnodup
  have hcallermem : caller ∈ t.stack t.current := by
    rw [hstack]
    simp
  have hcaller := (h.mem _ h.current caller).mp hcallermem
  have hne : caller ≠ t.leaf t.current := by
    rintro rfl
    simp at hnodup
  have hactive : k'.procStatus caller = .active := by rw [hstatus, Function.update_self]
  have hgone : k'.procStatus (t.leaf t.current) = .inactive := by
    rw [hstatus, Function.update_of_ne hne.symm, Function.update_self]
  have hkeep : ∀ p, p ≠ caller → p ≠ t.leaf t.current → k'.procStatus p = k.procStatus p := by
    intro p hp hp'
    rw [hstatus, Function.update_of_ne hp, Function.update_of_ne hp']
  have halive : ∀ p, k'.Alive p ↔ k.Alive p ∧ p ≠ t.leaf t.current := by
    intro p
    unfold Kernel.Alive
    by_cases hleaf : p = t.leaf t.current
    · simp [hleaf, hgone]
    · by_cases hpc : p = caller
      · subst hpc
        have hold := hcaller.1
        unfold Kernel.Alive at hold
        simp [hactive, hold, hleaf]
      · rw [hkeep p hpc hleaf]
        simp [hleaf]
  -- a stack other than the running one keeps its members, and none of them is touched
  have hotherleaf : ∀ s < numSess, s ≠ t.current →
      t.leaf s ≠ caller ∧ t.leaf s ≠ t.leaf t.current := by
    intro s hs hsc
    refine ⟨?_, h.leaf_ne hs h.current hsc⟩
    intro heq
    apply hsc
    rw [← (h.leaf_alive hs).2, heq, hcaller.2]
  refine
    { current := h.current
      running := by simp [Sessions.pop, hcur]
      mem := ?_
      bound := ?_
      pid := ?_
      nodup := ?_
      linked := ?_
      runnable := ?_
      idle := ?_
      waiting := ?_ }
  · intro s hs p
    rw [halive, (hid p).sess]
    by_cases hsc : s = t.current
    · subst hsc
      rw [Sessions.stack_pop_current]
      have hold := h.mem _ h.current p
      rw [hstack, List.mem_cons] at hold
      constructor
      · intro hp
        have hpleaf : p ≠ t.leaf t.current := by
          rintro rfl
          exact (List.nodup_cons.mp hnodup).1 hp
        obtain ⟨hp1, hp2⟩ := hold.mp (Or.inr hp)
        exact ⟨⟨hp1, hpleaf⟩, hp2⟩
      · rintro ⟨⟨hp1, hpleaf⟩, hp2⟩
        exact (hold.mpr ⟨hp1, hp2⟩).resolve_left hpleaf
    · rw [Sessions.stack_pop_of_ne _ _ _ hsc, h.mem s hs p]
      constructor
      · rintro ⟨hp1, hp2⟩
        refine ⟨⟨hp1, ?_⟩, hp2⟩
        rintro rfl
        exact hsc (hp2.symm.trans (h.leaf_alive h.current).2)
      · rintro ⟨⟨hp1, -⟩, hp2⟩
        exact ⟨hp1, hp2⟩
  · intro p hp
    rw [(hid p).sess]
    exact h.bound p ((halive p).mp hp).1
  · intro p hp
    rw [(hid p).1]
    exact h.pid p ((halive p).mp hp).1
  · intro s hs
    by_cases hsc : s = t.current
    · subst hsc
      rw [Sessions.stack_pop_current]
      exact (List.nodup_cons.mp hnodup).2
    · rw [Sessions.stack_pop_of_ne _ _ _ hsc]
      exact h.nodup s hs
  · intro s hs
    have hlink : (t.stack s ++ [numProc]).IsChain k'.CalledBy :=
      (h.linked s hs).imp fun p q hpq => ((hid p).calledBy q).mpr hpq
    by_cases hsc : s = t.current
    · subst hsc
      rw [Sessions.stack_pop_current]
      rw [hstack] at hlink
      exact hlink.tail
    · rw [Sessions.stack_pop_of_ne _ _ _ hsc]
      exact hlink
  · intro s hs
    by_cases hsc : s = t.current
    · subst hsc
      simp [Sessions.pop, hactive, ProcStatus.Runnable]
    · simp only [Sessions.pop, Function.update_of_ne hsc]
      rw [hkeep _ (hotherleaf s hs hsc).1 (hotherleaf s hs hsc).2]
      exact h.runnable s hs
  · intro s hs p hp
    by_cases hsc : s = t.current
    · subst hsc
      simp only [Sessions.pop, Function.update_self] at hp
      have hpcallers : p ∈ t.callers t.current := by
        rw [hcallers]
        exact List.mem_cons_of_mem _ hp
      rw [hkeep, h.idle _ h.current p hpcallers]
      · rintro rfl
        exact (List.nodup_cons.mp (List.nodup_cons.mp hnodup).2).1 hp
      · rintro rfl
        exact (List.nodup_cons.mp hnodup).1 (List.mem_cons_of_mem _ hp)
    · simp only [Sessions.pop, Function.update_of_ne hsc] at hp
      have hpsess := ((h.mem s hs p).mp (List.mem_cons_of_mem _ hp)).2
      rw [hkeep, h.idle s hs p hp]
      · rintro rfl
        exact hsc (hpsess.symm.trans hcaller.2)
      · rintro rfl
        exact hsc (hpsess.symm.trans (h.leaf_alive h.current).2)
  · intro s hs hsc
    change s ≠ t.current at hsc
    simp only [Sessions.pop, Function.update_of_ne hsc]
    rw [hkeep _ (hotherleaf s hs hsc).1 (hotherleaf s hs hsc).2]
    exact h.waiting s hs hsc

end Represents
end Process
end NochOS
