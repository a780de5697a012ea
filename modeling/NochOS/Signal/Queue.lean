import NochOS.Signal.Model
import NochOS.Library.Transition

/-!
# Signals - every request is acted on once, in order

A signal that `do_signal` takes off the list is freed before its mask is looked at, so
it is lost if the mask is set.  This module shows that it never is: every exit of
`do_signal` puts the masks back that it saved, and they are clear whenever it is
entered.  The list of pending signals stays a ring of exactly the nodes that are
allocated, whatever is requested and taken.

Main results:

- Structure `Pending`: the list holds the allocated nodes.
- Theorem `doSignal_reports`: the signal that `do_signal` reports is the one it acts on.
- Theorem `doSignal_spec`: what one call of `do_signal` takes and what it leaves.
- Theorem `signals_accounted`: in every run, the signals acted on and the pending ones
  are the requested ones, in order.
-/

namespace NochOS
namespace Signal

open Library

/-- The list of pending signals holds the nodes of `queue`, in order, and these are the
nodes that are allocated. -/
structure Pending (t : SigState) (queue : List Nat) : Prop where
  ring : Ring t.links t.sigpending (queue.map (· + sigList))
  allocated : ∀ a, t.allocated a = true ↔ a ∈ queue
  intact : t.freedTwice = false

/-- No signal is masked. -/
def MasksClear (t : SigState) : Prop := ∀ i < sigCount, (t.sighand i).saMask = sigMaskClear

variable {t t' : SigState} {queue : List Nat}

/-! ## The list -/

theorem Pending.congr (h : Pending t queue) (hlinks : t'.links = t.links)
    (hhead : t'.sigpending = t.sigpending) (hallocated : t'.allocated = t.allocated)
    (hfreed : t'.freedTwice = t.freedTwice) : Pending t' queue where
  ring := by
    rw [hlinks, hhead]
    exact h.ring
  allocated a := by
    rw [hallocated]
    exact h.allocated a
  intact := hfreed.trans h.intact

theorem Pending.nodup (h : Pending t queue) : queue.Nodup :=
  List.Nodup.of_map _ (List.nodup_cons.mp h.ring.nodup).2

/-- After `proc_signal_init` no signal is pending and none is masked. -/
theorem procSignalInit_spec (hallocated : ∀ a, t.allocated a = false)
    (hfreed : t.freedTwice = false) :
    Pending (procSignalInit t) [] ∧ MasksClear (procSignalInit t) := by
  refine ⟨⟨Ring.nil_iff.mpr ⟨Function.update_self .., Function.update_self ..⟩, ?_, hfreed⟩, ?_⟩
  · intro a
    show t.allocated a = true ↔ a ∈ []
    simp [hallocated a]
  · intro i hi
    simp only [procSignalInit, if_pos hi]

/-- A request goes to the end of the list. -/
theorem Pending.requestSignal (h : Pending t queue) {node : Nat}
    (hnew : t.allocated node = false) (hhead : node + sigList ≠ t.sigpending)
    (signum : BitVec 32) :
    Pending (Signal.requestSignal t signum node) (queue ++ [node]) ∧
      (queue ++ [node]).map (Signal.requestSignal t signum node).sig =
        queue.map t.sig ++ [signum] := by
  have hout : node ∉ queue := by
    intro hmem
    rw [(h.allocated node).mpr hmem] at hnew
    exact absurd hnew (by decide)
  have hfresh : node + sigList ∉ t.sigpending :: queue.map (· + sigList) := by
    intro hmem
    rcases List.mem_cons.mp hmem with heq | hmem
    · exact hhead heq
    · obtain ⟨a, ha, heq⟩ := List.mem_map.mp hmem
      rw [Nat.add_right_cancel heq] at ha
      exact hout ha
  constructor
  · refine ⟨?_, ?_, h.intact⟩
    · rw [List.map_append]
      exact h.ring.link_before hfresh
    · intro a
      simp only [Signal.requestSignal, enqueueSignal, List.mem_append, List.mem_singleton]
      by_cases ha : a = node
      · subst ha
        simp
      · rw [Function.update_of_ne ha, h.allocated a]
        simp [ha]
  · simp only [Signal.requestSignal, enqueueSignal, List.map_append, List.map_cons, List.map_nil,
      Function.update_self]
    congr 1
    apply List.map_congr_left
    intro a ha
    have hne : a ≠ node := by
      intro heq
      exact hout (heq ▸ ha)
    exact Function.update_of_ne hne ..

/-- Deleting the first node leaves the others. -/
theorem ring_listDelete {l : Links Nat} {head x : Nat} {xs : List Nat}
    (h : Ring l head (x :: xs)) : Ring (listDelete l x) head xs := by
  have hunlinked := h.unlink_first
  have hx : ∀ y ∈ head :: xs, y ≠ x := by
    intro y hy heq
    have hhead := List.nodup_cons.mp h.nodup
    rcases List.mem_cons.mp hy with hy | hy
    · exact hhead.1 (by rw [← hy, heq]; exact List.mem_cons_self)
    · exact (List.nodup_cons.mp hhead.2).1 (heq ▸ hy)
  refine hunlinked.congr ?_ ?_
  · intro y hy
    simp only [listDelete, h.seg.2.1, Function.update_of_ne (hx y hy)]
  · intro y hy
    simp only [listDelete, h.seg.2.1, Function.update_of_ne (hx y hy)]

/-- `get_signal` takes the first node and frees it, or finds the list empty. -/
theorem Pending.getSignal (h : Pending t queue) :
    (queue = [] ∧ Signal.getSignal t = (t, none)) ∨
      ∃ node rest, queue = node :: rest ∧ ∃ t', Pending t' rest ∧
        t'.sighand = t.sighand ∧ t'.sig = t.sig ∧ t'.sigmaskInfo = t.sigmaskInfo ∧
        t'.sigpending = t.sigpending ∧
        Signal.getSignal t = (t', some
          { sig := t.sig node
            saHandler := (t.sighand (t.sig node).toNat).saHandler
            saMask := (t.sighand (t.sig node).toNat).saMask }) := by
  cases queue with
  | nil =>
      have hempty : listIsEmpty t.links t.sigpending = true := by
        rw [listIsEmpty, beq_iff_eq]
        exact h.ring.next_eq_iff.mpr rfl
      refine Or.inl ⟨rfl, ?_⟩
      simp only [Signal.getSignal, dequeueSignal, hempty, if_true]
  | cons node rest =>
      have hring : Ring t.links t.sigpending ((node + sigList) :: rest.map (· + sigList)) := h.ring
      have hnext : t.links.next t.sigpending = node + sigList := hring.seg.1
      have hfull : listIsEmpty t.links t.sigpending = false := by
        rw [listIsEmpty, beq_eq_false_iff_ne]
        intro heq
        exact absurd (hring.next_eq_iff.mp heq) (List.cons_ne_nil _ _)
      have hnode := List.nodup_cons.mp h.nodup
      refine Or.inr ⟨node, rest, rfl,
        freeNode { t with links := listDelete t.links (node + sigList) } node,
        ⟨ring_listDelete hring, ?_, ?_⟩, rfl, rfl, rfl, rfl, ?_⟩
      · intro a
        simp only [freeNode]
        by_cases ha : a = node
        · subst ha
          simp [hnode.1]
        · rw [Function.update_of_ne ha, h.allocated a]
          simp [ha]
      · simp [freeNode, h.intact, (h.allocated node).mpr List.mem_cons_self]
      · simp only [Signal.getSignal, dequeueSignal, hfull, hnext, Bool.false_eq_true, if_false,
          Nat.add_sub_cancel]

/-! ## The masks -/

/-- The masks that were saved are put back, whatever was done to the masks since. -/
theorem restore_saved (h : t'.sigmaskInfo = (saveSigmask t).sigmaskInfo)
    (hhand : t'.sighand = t.sighand) (signum : BitVec 32) :
    (restoreSavedSigmask (setOtherSigmask t' signum)).sighand = t.sighand ∧
      (restoreSavedSigmask t').sighand = t.sighand := by
  constructor
  · funext i
    by_cases hi : i < sigCount
    · simp only [restoreSavedSigmask, setOtherSigmask, saveSigmask, h, hhand, if_pos hi]
      split
      · rfl
      · rfl
    · simp only [restoreSavedSigmask, setOtherSigmask, hi, false_and, if_false, hhand]
  · funext i
    by_cases hi : i < sigCount
    · simp only [restoreSavedSigmask, saveSigmask, h, hhand, if_pos hi]
    · simp only [restoreSavedSigmask, if_neg hi, hhand]

/-! ## The next signal -/

/-- The signal that `do_signal` takes next. -/
def firstSignal (t : SigState) : Option (BitVec 32) :=
  if listIsEmpty t.links t.sigpending then none
  else some (t.sig (t.links.next t.sigpending - sigList))

/-- The pending signals without the first. -/
def dropSignal (t : SigState) : SigState := (getSignal t).1

/-- An empty list has no signal. -/
theorem firstSignal_of_empty (h : listIsEmpty t.links t.sigpending = true) :
    firstSignal t = none := by
  unfold firstSignal
  rw [if_pos h]

theorem dropSignal_of_empty (h : listIsEmpty t.links t.sigpending = true) :
    dropSignal t = t := by
  unfold dropSignal getSignal dequeueSignal
  rw [if_pos h]

theorem dropSignal_sighand (t : SigState) : (dropSignal t).sighand = t.sighand := by
  unfold dropSignal getSignal dequeueSignal
  by_cases hempty : listIsEmpty t.links t.sigpending = true
  · rw [if_pos hempty]
  · rw [if_neg hempty]
    rfl

/-- What `do_signal` takes. -/
theorem getSignal_saveSigmask (t : SigState) :
    getSignal (saveSigmask t) =
      ({ dropSignal t with sigmaskInfo := (saveSigmask t).sigmaskInfo },
        (firstSignal t).map fun s =>
          { sig := s
            saHandler := (t.sighand s.toNat).saHandler
            saMask := (t.sighand s.toNat).saMask }) := by
  unfold dropSignal firstSignal getSignal dequeueSignal
  by_cases hempty : listIsEmpty t.links t.sigpending = true
  · have hsaved : listIsEmpty (saveSigmask t).links (saveSigmask t).sigpending = true := hempty
    rw [if_pos hempty, if_pos hempty, if_pos hsaved]
    rfl
  · have hsaved : ¬ listIsEmpty (saveSigmask t).links (saveSigmask t).sigpending = true := hempty
    rw [if_neg hempty, if_neg hempty, if_neg hsaved]
    rfl

/-- The state in which `do_signal` acts on a signal. -/
def acting (t : SigState) (sig : BitVec 32) : SigState :=
  setOtherSigmask { dropSignal t with sigmaskInfo := (saveSigmask t).sigmaskInfo } sig

/-- `do_signal` on a frame of user mode, where the first pending signal is not masked. -/
theorem doSignal_acts {sig : BitVec 32} {regs : Regs} (hxcs : regs.xcs = userCs)
    (hfirst : firstSignal t = some sig) (hmask : (t.sighand sig.toNat).saMask = sigMaskClear) :
    doSignal t regs =
      (if (t.sighand sig.toNat).saHandler = sigDfl then doDefault (acting t sig) sig regs
        else handleSignal (acting t sig)
          ⟨sig, (t.sighand sig.toNat).saHandler, (t.sighand sig.toNat).saMask⟩ regs, some sig) := by
  unfold doSignal
  rw [if_neg (not_not.mpr hxcs), getSignal_saveSigmask, hfirst]
  simp only [Option.map_some, if_pos hmask]
  split
  · rfl
  · rfl

/-- Otherwise it leaves the frame alone and reports nothing. -/
theorem doSignal_rests {regs : Regs}
    (h : ∀ sig, regs.xcs = userCs → firstSignal t = some sig →
      (t.sighand sig.toNat).saMask ≠ sigMaskClear) :
    (doSignal t regs).1.2 = .ret regs ∧ (doSignal t regs).2 = none := by
  unfold doSignal
  by_cases hxcs : regs.xcs = userCs
  · rw [if_neg (not_not.mpr hxcs), getSignal_saveSigmask]
    cases hfirst : firstSignal t with
    | none => exact ⟨rfl, rfl⟩
    | some sig =>
        simp only [Option.map_some, if_neg (h sig hxcs hfirst)]
        exact ⟨trivial, trivial⟩
  · rw [if_pos hxcs]
    exact ⟨rfl, rfl⟩

/-- A signal that `do_signal` reports is one whose default action is taken or whose handler is
entered. -/
theorem doSignal_reports {sig : BitVec 32} {regs : Regs} (h : (doSignal t regs).2 = some sig) :
    firstSignal t = some sig ∧
      (((t.sighand sig.toNat).saHandler = sigDfl ∧
          (doSignal t regs).1 = doDefault (acting t sig) sig regs) ∨
        ((t.sighand sig.toNat).saHandler ≠ sigDfl ∧
          (doSignal t regs).1 = handleSignal (acting t sig)
            ⟨sig, (t.sighand sig.toNat).saHandler, (t.sighand sig.toNat).saMask⟩ regs)) := by
  by_cases hacts : ∃ s, regs.xcs = userCs ∧ firstSignal t = some s ∧
      (t.sighand s.toNat).saMask = sigMaskClear
  · obtain ⟨s, hxcs, hfirst, hmask⟩ := hacts
    have heq := doSignal_acts hxcs hfirst hmask
    obtain rfl : s = sig := by
      rw [heq] at h
      exact Option.some.inj h
    refine ⟨hfirst, ?_⟩
    rw [heq]
    by_cases hdfl : (t.sighand s.toNat).saHandler = sigDfl
    · exact Or.inl ⟨hdfl, if_pos hdfl⟩
    · exact Or.inr ⟨hdfl, if_neg hdfl⟩
  · have hnone := (doSignal_rests (t := t) fun s hxcs hfirst hmask =>
      hacts ⟨s, hxcs, hfirst, hmask⟩).2
    rw [h] at hnone
    cases hnone

/-- Whatever the default action is, the saved masks are put back. -/
theorem doDefault_task (t : SigState) (sig : BitVec 32) (regs : Regs) :
    (doDefault t sig regs).1 = restoreSavedSigmask t := by
  unfold doDefault
  split
  · rfl
  · split
    · rfl
    · split
      · rfl
      · split
        · rfl
        · rfl

/-- A call of `do_signal` takes at most the first pending signal, which it acts on, and
leaves handlers and masks as they were. -/
theorem doSignal_spec (h : Pending t queue) (hclear : MasksClear t)
    (hsig : ∀ a ∈ queue, (t.sig a).toNat < sigCount) (regs : Regs) :
    ∃ queue', Pending (doSignal t regs).1.1 queue' ∧
      (doSignal t regs).1.1.sighand = t.sighand ∧ (doSignal t regs).1.1.sig = t.sig ∧
      (∀ a ∈ queue', a ∈ queue) ∧
      queue.map t.sig = (doSignal t regs).2.toList ++ queue'.map t.sig := by
  by_cases hxcs : regs.xcs = userCs
  · have hsaved : Pending (saveSigmask t) queue := h.congr rfl rfl rfl rfl
    rcases hsaved.getSignal with ⟨rfl, hget⟩ | ⟨node, rest, rfl, t', hpending, hhand, hsig', hinfo,
      -, hget⟩
    · simp only [doSignal, hxcs, ne_eq, not_true_eq_false, if_false, hget]
      exact ⟨[], h.congr rfl rfl rfl rfl, (restore_saved (t := t) rfl rfl 0).2, rfl,
        fun a ha => ha, rfl⟩
    · have hmask : ((saveSigmask t).sighand ((saveSigmask t).sig node).toNat).saMask =
          sigMaskClear := hclear _ (hsig node List.mem_cons_self)
      have hrestored := restore_saved hinfo hhand ((saveSigmask t).sig node)
      simp only [doSignal, hxcs, ne_eq, not_true_eq_false, if_false, hget, hmask, if_true]
      refine ⟨rest, ?_, ?_, ?_, fun a ha => List.mem_cons_of_mem node ha, ?_⟩
      · split
        · rw [doDefault_task]
          exact hpending.congr rfl rfl rfl rfl
        · exact hpending.congr rfl rfl rfl rfl
      · split
        · rw [doDefault_task]
          exact hrestored.1
        · exact hrestored.1
      · split
        · rw [doDefault_task]
          exact hsig'
        · exact hsig'
      · split
        · rfl
        · rfl
  · have hret : doSignal t regs = ((t, .ret regs), none) := by
      unfold doSignal
      rw [if_pos hxcs]
    rw [hret]
    exact ⟨queue, h, rfl, rfl, fun a ha => ha, rfl⟩

/-! ## Runs -/

/-- A process with the signals requested of it and those it was made to act on. -/
structure Run where
  task : SigState
  requested : List (BitVec 32)
  acted : List (BitVec 32)
  terminated : Bool

/-- What happens to a process's signals: a request with the node that `malloc` returns,
a system call, a return from an interrupt to user or kernel mode, a call of `do_signal`
for another process, which uses the same saved masks, or a stretch of the program. -/
inductive Event
  | request (signum : BitVec 32) (node : Nat)
  | setHandler (signum handlerAddress : BitVec 32)
  | retFromInt (regs : Regs)
  | sigreturn (curRegs : Regs)
  | otherProcess (sigmaskInfo : Nat → BitVec 32)
  | program (mem : Buf)

/-- The process has not terminated, and `malloc` returns a node that is not in use. -/
def Possible (s : Run) : Event → Prop
  | .request signum node =>
      s.terminated = false ∧ signum.toNat < sigCount ∧ s.task.allocated node = false ∧
        node + sigList ≠ s.task.sigpending
  | _ => s.terminated = false

/-- The process terminates. -/
def Flow.kills : Flow → Bool
  | .kill _ => true
  | _ => false

/-- The process after a call that may act on a signal. -/
def Run.act (s : Run) (r : (SigState × Flow) × Option (BitVec 32)) : Run :=
  { s with
    task := r.1.1
    acted := s.acted ++ r.2.toList
    terminated := r.1.2.kills }

/-- The process after an event. -/
def perform (s : Run) : Event → Run
  | .request signum node =>
      { s with
        task := requestSignal s.task signum node
        requested := s.requested ++ [signum] }
  | .setHandler signum handlerAddress =>
      { s with task := (sysSetHandler s.task signum handlerAddress).1 }
  | .retFromInt regs => s.act (doSignal s.task regs)
  | .sigreturn curRegs => s.act (sysSigreturn s.task curRegs)
  | .otherProcess sigmaskInfo => { s with task := { s.task with sigmaskInfo := sigmaskInfo } }
  | .program mem => { s with task := { s.task with mem := mem } }

/-- A process that `proc_signal_init` has just set up. -/
def Fresh (s : Run) : Prop :=
  (∃ t, (∀ a, t.allocated a = false) ∧ t.freedTwice = false ∧ s.task = procSignalInit t) ∧
    s.requested = [] ∧ s.acted = [] ∧ s.terminated = false

/-- Runs of a process until it terminates. -/
def signalSystem : TransitionSystem Run where
  init := Fresh
  step s s' := ∃ e, Possible s e ∧ s' = perform s e

/-- The requested signals are those acted on and then those pending. -/
structure Accounted (s : Run) (queue : List Nat) : Prop where
  pending : Pending s.task queue
  clear : MasksClear s.task
  valid : ∀ a ∈ queue, (s.task.sig a).toNat < sigCount
  order : s.requested = s.acted ++ queue.map s.task.sig

namespace Accounted

variable {s : Run}

/-- A change of the task that leaves list and masks alone. -/
theorem of_task (h : Accounted s queue) {t : SigState} (hpending : Pending t queue)
    (hclear : MasksClear t) (hsig : t.sig = s.task.sig) : Accounted { s with task := t } queue where
  pending := hpending
  clear := hclear
  valid a ha := by
    show (t.sig a).toNat < sigCount
    rw [hsig]
    exact h.valid a ha
  order := by
    show s.requested = s.acted ++ queue.map t.sig
    rw [hsig]
    exact h.order

/-- A request is pending after all the others. -/
theorem request (h : Accounted s queue) {signum : BitVec 32} {node : Nat}
    (hsignum : signum.toNat < sigCount) (hnew : s.task.allocated node = false)
    (hhead : node + sigList ≠ s.task.sigpending) :
    Accounted (perform s (.request signum node)) (queue ++ [node]) := by
  obtain ⟨hpending, hmap⟩ := h.pending.requestSignal hnew hhead signum
  refine ⟨hpending, h.clear, ?_, ?_⟩
  · intro a ha
    show (Function.update s.task.sig node signum a).toNat < sigCount
    by_cases hne : a = node
    · rw [hne, Function.update_self]
      exact hsignum
    · rw [Function.update_of_ne hne]
      rcases List.mem_append.mp ha with hold | hnode
      · exact h.valid a hold
      · exact absurd (List.mem_singleton.mp hnode) hne
  · show s.requested ++ [signum] =
      s.acted ++ (queue ++ [node]).map (requestSignal s.task signum node).sig
    rw [hmap, h.order, List.append_assoc]

/-- A call of `do_signal` moves at most one signal from the pending ones to those acted
on. -/
theorem doSignal (h : Accounted s queue) (regs : Regs) :
    ∃ queue', Accounted (s.act (Signal.doSignal s.task regs)) queue' := by
  obtain ⟨queue', hpending, hhand, hsig, hsub, hmap⟩ :=
    doSignal_spec h.pending h.clear h.valid regs
  refine ⟨queue', hpending, ?_, ?_, ?_⟩
  · intro i hi
    show ((Signal.doSignal s.task regs).1.1.sighand i).saMask = sigMaskClear
    rw [hhand]
    exact h.clear i hi
  · intro a ha
    show ((Signal.doSignal s.task regs).1.1.sig a).toNat < sigCount
    rw [hsig]
    exact h.valid a (hsub a ha)
  · show s.requested = (s.acted ++ (Signal.doSignal s.task regs).2.toList) ++
      queue'.map (Signal.doSignal s.task regs).1.1.sig
    rw [hsig, h.order, hmap, List.append_assoc]

/-- Setting a handler clears a mask. -/
theorem setHandler (h : Accounted s queue) (signum handlerAddress : BitVec 32) :
    Accounted (perform s (.setHandler signum handlerAddress)) queue := by
  refine h.of_task ?_ ?_ ?_
  · unfold sysSetHandler
    split
    · exact h.pending
    · exact h.pending.congr rfl rfl rfl rfl
  · unfold sysSetHandler
    split
    · exact h.clear
    · intro i hi
      by_cases heq : i = signum.toNat
      · simp only [heq, Function.update_self]
      · simp only [Function.update_of_ne heq]
        exact h.clear i hi
  · unfold sysSetHandler
    split
    · rfl
    · rfl

/-- Every event keeps the account. -/
theorem perform (h : Accounted s queue) (e : Event) (he : Possible s e) :
    ∃ queue', Accounted (Signal.perform s e) queue' := by
  cases e with
  | request signum node => exact ⟨_, h.request he.2.1 he.2.2.1 he.2.2.2⟩
  | setHandler signum handlerAddress => exact ⟨queue, h.setHandler signum handlerAddress⟩
  | retFromInt regs => exact h.doSignal regs
  | sigreturn curRegs =>
      simp only [Signal.perform, sysSigreturn]
      split
      · refine ⟨queue, h.pending, h.clear, h.valid, ?_⟩
        show s.requested = (s.acted ++ []) ++ queue.map s.task.sig
        rw [List.append_nil]
        exact h.order
      · exact h.doSignal _
  | otherProcess sigmaskInfo =>
      exact ⟨queue, h.of_task (h.pending.congr rfl rfl rfl rfl) h.clear rfl⟩
  | program mem => exact ⟨queue, h.of_task (h.pending.congr rfl rfl rfl rfl) h.clear rfl⟩

theorem of_reachable (hs : signalSystem.Reachable s) : ∃ queue, Accounted s queue := by
  have hinv : signalSystem.IsInvariant fun s => ∃ queue, Accounted s queue := by
    refine ⟨?_, ?_⟩
    · rintro s ⟨⟨t, hallocated, hfreed, htask⟩, hrequested, hacted, -⟩
      obtain ⟨hpending, hclear⟩ := procSignalInit_spec hallocated hfreed
      rw [← htask] at hpending hclear
      refine ⟨[], hpending, hclear, fun a ha => absurd ha List.not_mem_nil, ?_⟩
      rw [hrequested, hacted]
      rfl
    · rintro s s' ⟨queue, h⟩ ⟨e, he, rfl⟩
      exact h.perform e he
  exact hinv.of_reachable hs

end Accounted

/-- In every state of every run no signal is masked, and the signals the process acted
on, followed by the pending ones, are the requested signals in order.  The list is a
ring through different nodes; these are the nodes that are allocated, so that each node
taken off it has been freed, and no node was freed twice. -/
theorem signals_accounted (s : Run) (hs : signalSystem.Reachable s) :
    MasksClear s.task ∧ ∃ queue : List Nat,
      Ring s.task.links s.task.sigpending (queue.map (· + sigList)) ∧
      s.acted ++ queue.map s.task.sig = s.requested ∧
      (∀ a, s.task.allocated a = true ↔ a ∈ queue) ∧ queue.Nodup ∧
      s.task.freedTwice = false := by
  obtain ⟨queue, h⟩ := Accounted.of_reachable hs
  exact ⟨h.clear, queue, h.pending.ring, h.order.symm, h.pending.allocated, h.pending.nodup,
    h.pending.intact⟩

/-- A process without pending signals. -/
def freshRun : Run where
  task := procSignalInit
    { sighand := fun _ => { saHandler := 0, saMask := 0 }
      sigpending := 0x400000
      links := { next := id, prev := id }
      sig := fun _ => 0
      allocated := fun _ => false
      freedTwice := false
      sigmaskInfo := fun _ => 0
      mem := fun _ => 0 }
  requested := []
  acted := []
  terminated := false

/-- A register frame of user mode. -/
def userRegs : Regs where
  ebx := 0
  ecx := 0
  edx := 0
  esi := 0
  edi := 0
  ebp := 0
  eax := 0
  xds := 0
  xes := 0
  xfs := 0
  origEax := 0
  eip := 0x08048000
  xcs := userCs
  eflags := 0
  esp := 0x83FFFFC
  xss := userDs

/-- Ctrl-C is pressed, then an alarm is requested, and the process returns to user
mode. -/
def interruptedRun : Run :=
  perform (perform (perform freshRun (.request interrupt 0x800004)) (.request alarm 0x800104))
    (.retFromInt userRegs)

/-- The process acts on the first signal; the second one is pending. -/
theorem signals_accounted_interrupt :
    MasksClear interruptedRun.task ∧ interruptedRun.acted = [interrupt] ∧
      ∃ queue : List Nat,
        [interrupt] ++ queue.map interruptedRun.task.sig = [interrupt, alarm] := by
  have hinit : signalSystem.Reachable freshRun :=
    TransitionSystem.Reachable.init ⟨⟨_, fun _ => rfl, rfl, rfl⟩, rfl, rfl, rfl⟩
  have hfirst : signalSystem.Reachable (perform freshRun (.request interrupt 0x800004)) :=
    hinit.step ⟨.request interrupt 0x800004, ⟨rfl, by decide, rfl, by decide +kernel⟩, rfl⟩
  have hsecond : signalSystem.Reachable
      (perform (perform freshRun (.request interrupt 0x800004)) (.request alarm 0x800104)) :=
    hfirst.step ⟨.request alarm 0x800104, ⟨rfl, by decide, by decide +kernel, by decide +kernel⟩,
      rfl⟩
  have hrun : signalSystem.Reachable interruptedRun :=
    hsecond.step ⟨.retFromInt userRegs, rfl, rfl⟩
  obtain ⟨hclear, queue, -, horder, -⟩ := signals_accounted interruptedRun hrun
  have hacted : interruptedRun.acted = [interrupt] := by decide +kernel
  have hrequested : interruptedRun.requested = [interrupt, alarm] := by decide +kernel
  rw [hacted, hrequested] at horder
  exact ⟨hclear, hacted, queue, horder⟩

end Signal
end NochOS
