import NochOS.Signal.Queue

/-!
# Signals - the handlers that are running

A delivery to a handler lasts until the `sys_sigreturn` that matches it, and deliveries
nest.  `do_signal` masks the other signals with `set_other_sigmask` before it enters a
handler, but `handle_signal` puts the saved masks back first, so that no mask is in force
while the handler runs: the next return to user mode acts on whatever signal is pending.

Main results:

- Theorem `calm_iff`: the events that leave the running handlers alone.
- Theorem `handlers_calm`: the runs of such events, and the signals that wait in them.
- Theorem `handlers_disturbed`: a signal is delivered while the handler of another one runs.
-/

namespace NochOS
namespace Signal

open Library

/-! ## Deliveries in progress -/

/-- A delivery to a handler: the signal, and how many signals had been requested and acted
on by then. -/
structure Delivery where
  sig : BitVec 32
  requested : Nat
  acted : Nat
deriving DecidableEq

/-- A process with its deliveries in progress, the last one first. -/
structure Handling where
  run : Run
  active : List Delivery

/-- The flow enters a handler. -/
def Flow.enters : Flow → Bool
  | .resume _ => true
  | _ => false

/-- The delivery that a call has made, if it entered a handler. -/
def entered (s : Run) (r : (SigState × Flow) × Option (BitVec 32)) : List Delivery :=
  if r.1.2.enters then
    r.2.toList.map fun sig =>
      { sig := sig
        requested := s.requested.length
        acted := s.acted.length }
  else []

/-- The deliveries that are in progress until after an event: `sys_sigreturn` ends the last
one. -/
def outer (s : Handling) : Event → List Delivery
  | .sigreturn _ => s.active.tail
  | _ => s.active

/-- The deliveries that an event makes: at most one. -/
def made (s : Handling) : Event → List Delivery
  | .retFromInt regs => entered (perform s.run (.retFromInt regs)) (doSignal s.run.task regs)
  | .sigreturn curRegs =>
      entered (perform s.run (.sigreturn curRegs)) (sysSigreturn s.run.task curRegs)
  | _ => []

/-- The process after an event. -/
def handle (s : Handling) (e : Event) : Handling where
  run := perform s.run e
  active := made s e ++ outer s e

/-- The signal that an event takes off the list. -/
def taken (s : Handling) : Event → Option (BitVec 32)
  | .retFromInt regs => if regs.xcs = userCs then firstSignal s.run.task else none
  | .sigreturn curRegs =>
      if (loadRegs s.run.task.mem curRegs.esp.toNat).xcs = userCs then firstSignal s.run.task
      else none
  | _ => none

/-- The event takes no signal, or one whose handler is the only one in progress. -/
def Calm (s : Handling) (e : Event) : Prop :=
  ∀ sig, taken s e = some sig → ∀ d ∈ outer s e, sig = d.sig

/-- Since each delivery in progress the process has acted on no different signal. -/
def Masked (s : Handling) : Prop :=
  ∀ d ∈ s.active, ∀ sig ∈ s.run.acted.drop d.acted, sig = d.sig

/-- And the different signals requested since are pending, after those that already were. -/
def Waiting (s : Handling) : Prop :=
  Masked s ∧ ∃ queue : List Nat,
    Ring s.run.task.links s.run.task.sigpending (queue.map (· + sigList)) ∧
      ∀ d ∈ s.active, (s.run.requested.drop d.requested).filter (· ≠ d.sig) <:+
        (queue.map s.run.task.sig).filter (· ≠ d.sig)

/-- Runs of a process from `proc_signal_init` whose events are all `ok`. -/
def handlerSystem (ok : Handling → Event → Prop) : TransitionSystem Handling where
  init s := Fresh s.run ∧ s.active = []
  step s s' := ∃ e, Possible s.run e ∧ ok s e ∧ s' = handle s e

/-! ## What an event acts on -/

variable {s : Handling} {queue : List Nat}

/-- The first pending signal is that of the first node. -/
theorem Pending.firstSignal {t : SigState} (h : Pending t queue) :
    Signal.firstSignal t = (queue.map t.sig).head? := by
  cases queue with
  | nil =>
      apply firstSignal_of_empty
      rw [listIsEmpty, beq_iff_eq]
      exact h.ring.next_eq_iff.mpr rfl
  | cons node rest =>
      have hring : Ring t.links t.sigpending ((node + sigList) :: rest.map (· + sigList)) := h.ring
      have hnext : t.links.next t.sigpending = node + sigList := hring.seg.1
      have hfull : ¬ listIsEmpty t.links t.sigpending = true := by
        rw [listIsEmpty, beq_iff_eq]
        intro heq
        exact absurd (hring.next_eq_iff.mp heq) (List.cons_ne_nil _ _)
      unfold Signal.firstSignal
      rw [if_neg hfull, hnext, Nat.add_sub_cancel]
      rfl

/-- Without masks `do_signal` acts on the first pending signal, on a frame of user mode. -/
theorem doSignal_acted {t : SigState} (hclear : MasksClear t)
    (hvalid : ∀ sig, firstSignal t = some sig → sig.toNat < sigCount) (regs : Regs) :
    (doSignal t regs).2 = if regs.xcs = userCs then firstSignal t else none := by
  by_cases hxcs : regs.xcs = userCs
  · rw [if_pos hxcs]
    cases hfirst : firstSignal t with
    | none =>
        refine (doSignal_rests fun sig _ hsome => ?_).2
        rw [hfirst] at hsome
        cases hsome
    | some sig => rw [doSignal_acts hxcs hfirst (hclear _ (hvalid sig hfirst))]
  · rw [if_neg hxcs]
    exact (doSignal_rests fun _ huser => absurd huser hxcs).2

/-- The signal that an event takes is the one it acts on. -/
theorem acted_perform (h : Accounted s.run queue) (e : Event) :
    (perform s.run e).acted = s.run.acted ++ (taken s e).toList := by
  have hvalid : ∀ sig, firstSignal s.run.task = some sig → sig.toNat < sigCount := by
    intro sig hsig
    rw [h.pending.firstSignal] at hsig
    obtain ⟨a, ha, rfl⟩ := List.mem_map.mp (List.mem_of_mem_head? hsig)
    exact h.valid a ha
  cases e with
  | request signum node => exact (List.append_nil _).symm
  | setHandler signum handlerAddress => exact (List.append_nil _).symm
  | retFromInt regs =>
      show s.run.acted ++ (doSignal s.run.task regs).2.toList = _
      rw [doSignal_acted h.clear hvalid]
      rfl
  | sigreturn curRegs =>
      show s.run.acted ++ (sysSigreturn s.run.task curRegs).2.toList = _
      show _ = s.run.acted ++ (if (loadRegs s.run.task.mem curRegs.esp.toNat).xcs = userCs then
        firstSignal s.run.task else none).toList
      unfold sysSigreturn
      by_cases hempty : listIsEmpty s.run.task.links s.run.task.sigpending = true
      · rw [if_pos hempty, firstSignal_of_empty hempty, ite_self]
      · rw [if_neg hempty, doSignal_acted h.clear hvalid]
  | otherProcess sigmaskInfo => exact (List.append_nil _).symm
  | program mem => exact (List.append_nil _).symm

/-- Requests are only added. -/
theorem requested_perform (s : Run) (e : Event) :
    ∃ new, (perform s e).requested = s.requested ++ new := by
  cases e with
  | request signum node => exact ⟨[signum], rfl⟩
  | setHandler signum handlerAddress => exact ⟨[], (List.append_nil _).symm⟩
  | retFromInt regs => exact ⟨[], (List.append_nil _).symm⟩
  | sigreturn curRegs => exact ⟨[], (List.append_nil _).symm⟩
  | otherProcess sigmaskInfo => exact ⟨[], (List.append_nil _).symm⟩
  | program mem => exact ⟨[], (List.append_nil _).symm⟩

/-! ## Deliveries and the account -/

/-- A delivery has been made in the run: what was requested by then are the signals acted
on by then and those that were pending. -/
structure Begun (s : Run) (d : Delivery) : Prop where
  requested_le : d.requested ≤ s.requested.length
  acted_le : d.acted ≤ s.acted.length
  order : s.acted.take d.acted <+: s.requested.take d.requested

/-- A delivery stays made. -/
theorem Begun.grow {s s' : Run} {d : Delivery} (h : Begun s d) {new acted : List (BitVec 32)}
    (hrequested : s'.requested = s.requested ++ new) (hacted : s'.acted = s.acted ++ acted) :
    Begun s' d where
  requested_le := by
    rw [hrequested, List.length_append]
    exact Nat.le_trans h.requested_le (Nat.le_add_right _ _)
  acted_le := by
    rw [hacted, List.length_append]
    exact Nat.le_trans h.acted_le (Nat.le_add_right _ _)
  order := by
    rw [hrequested, hacted, List.take_append_of_le_length h.requested_le,
      List.take_append_of_le_length h.acted_le]
    exact h.order

/-- A delivery is made when a handler is entered. -/
theorem begun_entered {s : Run} (h : Accounted s queue)
    (r : (SigState × Flow) × Option (BitVec 32)) {d : Delivery} (hd : d ∈ entered s r) :
    Begun s d ∧ d.acted = s.acted.length := by
  unfold entered at hd
  split at hd
  · obtain ⟨sig, -, rfl⟩ := List.mem_map.mp hd
    refine ⟨⟨Nat.le_refl _, Nat.le_refl _, ?_⟩, rfl⟩
    rw [List.take_length, List.take_length, h.order]
    exact List.prefix_append _ _
  · exact absurd hd List.not_mem_nil

theorem begun_made {e : Event} (h : Accounted (perform s.run e) queue) {d : Delivery}
    (hd : d ∈ made s e) :
    Begun (perform s.run e) d ∧ d.acted = (perform s.run e).acted.length := by
  cases e with
  | retFromInt regs => exact begun_entered h _ hd
  | sigreturn curRegs => exact begun_entered h _ hd
  | request signum node => exact absurd hd List.not_mem_nil
  | setHandler signum handlerAddress => exact absurd hd List.not_mem_nil
  | otherProcess sigmaskInfo => exact absurd hd List.not_mem_nil
  | program mem => exact absurd hd List.not_mem_nil

/-- The deliveries that stay in progress were in progress. -/
theorem mem_active_of_outer {e : Event} {d : Delivery} (hd : d ∈ outer s e) : d ∈ s.active := by
  cases e with
  | sigreturn curRegs => exact List.mem_of_mem_tail hd
  | retFromInt regs => exact hd
  | request signum node => exact hd
  | setHandler signum handlerAddress => exact hd
  | otherProcess sigmaskInfo => exact hd
  | program mem => exact hd

/-- The signals are accounted for, and the deliveries in progress were made in the run. -/
structure Tracked (s : Handling) (queue : List Nat) : Prop where
  accounted : Accounted s.run queue
  begun : ∀ d ∈ s.active, Begun s.run d

/-- Every event keeps track of the deliveries. -/
theorem Tracked.handle (h : Tracked s queue) {e : Event} (he : Possible s.run e) :
    ∃ queue', Tracked (Signal.handle s e) queue' := by
  obtain ⟨queue', haccounted⟩ := h.accounted.perform e he
  obtain ⟨new, hrequested⟩ := requested_perform s.run e
  refine ⟨queue', haccounted, ?_⟩
  intro d hd
  rcases List.mem_append.mp hd with hmade | houter
  · exact (begun_made haccounted hmade).1
  · exact (h.begun d (mem_active_of_outer houter)).grow hrequested
      (acted_perform h.accounted e)

theorem Tracked.of_reachable {ok : Handling → Event → Prop}
    (hs : (handlerSystem ok).Reachable s) :
    ∃ queue, Tracked s queue := by
  have hinv : (handlerSystem ok).IsInvariant fun s => ∃ queue, Tracked s queue := by
    refine ⟨?_, ?_⟩
    · rintro s ⟨hfresh, hactive⟩
      obtain ⟨queue, haccounted⟩ :=
        Accounted.of_reachable (TransitionSystem.Reachable.init (T := signalSystem) hfresh)
      refine ⟨queue, haccounted, ?_⟩
      intro d hd
      rw [hactive] at hd
      exact absurd hd List.not_mem_nil
    · rintro s s' ⟨queue, h⟩ ⟨e, he, -, rfl⟩
      exact h.handle he
  exact hinv.of_reachable hs

/-! ## The events that leave the handlers alone -/

/-- An event keeps the different signals from being acted on exactly when it is calm. -/
theorem calm_iff (h : Tracked s queue) (hmasked : Masked s) {e : Event} (he : Possible s.run e) :
    Masked (handle s e) ↔ Calm s e := by
  obtain ⟨queue', haccounted⟩ := h.accounted.perform e he
  have hacted := acted_perform h.accounted e
  have hdrop : ∀ d ∈ outer s e, (perform s.run e).acted.drop d.acted =
      s.run.acted.drop d.acted ++ (taken s e).toList := by
    intro d hd
    rw [hacted,
      List.drop_append_of_le_length (h.begun d (mem_active_of_outer hd)).acted_le]
  constructor
  · intro hkept sig hsig d hd
    apply hkept d (List.mem_append_right _ hd)
    show sig ∈ (perform s.run e).acted.drop d.acted
    rw [hdrop d hd, hsig]
    exact List.mem_append_right _ List.mem_cons_self
  · intro hcalm d hd sig hsig
    rcases List.mem_append.mp hd with hmade | houter
    · change sig ∈ (perform s.run e).acted.drop d.acted at hsig
      rw [(begun_made haccounted hmade).2, List.drop_length] at hsig
      exact absurd hsig List.not_mem_nil
    · change sig ∈ (perform s.run e).acted.drop d.acted at hsig
      rw [hdrop d houter] at hsig
      rcases List.mem_append.mp hsig with hold | hnew
      · exact hmasked d (mem_active_of_outer houter) sig hold
      · exact hcalm sig (Option.mem_toList.mp hnew) d houter

/-- Signals that have not been acted on wait on the list. -/
theorem Tracked.waiting (h : Tracked s queue) (hmasked : Masked s) : Waiting s := by
  refine ⟨hmasked, queue, h.accounted.pending.ring, ?_⟩
  intro d hd
  obtain ⟨before, hbefore⟩ := (h.begun d hd).order
  have hsame : (s.run.acted.drop d.acted).filter (· ≠ d.sig) = [] := by
    rw [List.filter_eq_nil_iff]
    intro sig hsig
    rw [hmasked d hd sig hsig]
    simp
  have hsplit : s.run.acted.take d.acted ++ (before ++ s.run.requested.drop d.requested) =
      s.run.acted.take d.acted ++
        (s.run.acted.drop d.acted ++ queue.map s.run.task.sig) := by
    rw [← List.append_assoc, hbefore, List.take_append_drop, ← List.append_assoc,
      List.take_append_drop]
    exact h.accounted.order
  have hrest := congrArg (List.filter (· ≠ d.sig)) (List.append_cancel_left hsplit)
  rw [List.filter_append, List.filter_append, hsame, List.nil_append] at hrest
  rw [← hrest]
  exact List.suffix_append _ _

/-- For every event in every state reached: if until then no running handler saw a
different signal acted on, none does after the event exactly when the event is calm.  In
every run of calm events the signals different from that of a running handler, requested
since it was entered, are pending. -/
theorem handlers_calm :
    ∀ s, (∀ ok, (handlerSystem ok).Reachable s → Waiting s → ∀ e, Possible s.run e →
        (Waiting (handle s e) ↔ Calm s e)) ∧
      ((handlerSystem Calm).Reachable s → Waiting s) := by
  intro s
  constructor
  · intro ok hs hwaiting e he
    obtain ⟨queue, h⟩ := Tracked.of_reachable hs
    obtain ⟨queue', h'⟩ := h.handle he
    rw [← calm_iff h hwaiting.1 he]
    constructor
    · intro hafter
      exact hafter.1
    · intro hmasked
      exact h'.waiting hmasked
  · intro hs
    have hinv : (handlerSystem Calm).IsInvariant
        fun s => (∃ queue, Tracked s queue) ∧ Masked s := by
      refine ⟨?_, ?_⟩
      · intro s hinit
        have hstart : (handlerSystem Calm).Reachable s := TransitionSystem.Reachable.init hinit
        refine ⟨Tracked.of_reachable hstart, ?_⟩
        intro d hd
        rw [hinit.2] at hd
        exact absurd hd List.not_mem_nil
      · rintro s s' ⟨⟨queue, h⟩, hmasked⟩ ⟨e, he, hcalm, rfl⟩
        exact ⟨h.handle he, (calm_iff h hmasked he).mpr hcalm⟩
    obtain ⟨⟨queue, h⟩, hmasked⟩ := hinv.of_reachable hs
    exact h.waiting hmasked

/-- A process with handlers for two signals, an alarm requested of it. -/
def alarmedRun : Handling :=
  handle
    (handle (handle { run := freshRun, active := [] } (.setHandler alarm 0x8048100))
      (.setHandler user1 0x8048200))
    (.request alarm 0x800004)

/-- The handler of the alarm runs, and the other signal is requested. -/
def waitingRun : Handling :=
  handle (handle alarmedRun (.retFromInt userRegs)) (.request user1 0x800104)

theorem reachable_waitingRun : (handlerSystem Calm).Reachable waitingRun := by
  have hinit : (handlerSystem Calm).Reachable { run := freshRun, active := [] } :=
    TransitionSystem.Reachable.init ⟨⟨⟨_, fun _ => rfl, rfl, rfl⟩, rfl, rfl, rfl⟩, rfl⟩
  have hcalm : ∀ s signum handlerAddress, Calm s (.setHandler signum handlerAddress) := by
    intro s signum handlerAddress sig hsig
    contradiction
  have hrequest : ∀ s signum node, Calm s (.request signum node) := by
    intro s signum node sig hsig
    contradiction
  have hhandlers := (hinit.step ⟨.setHandler alarm 0x8048100, rfl, hcalm _ _ _, rfl⟩).step
    ⟨.setHandler user1 0x8048200, rfl, hcalm _ _ _, rfl⟩
  have halarmed : (handlerSystem Calm).Reachable alarmedRun :=
    hhandlers.step
      ⟨.request alarm 0x800004, ⟨rfl, by decide, rfl, by decide +kernel⟩, hrequest _ _ _, rfl⟩
  have hrunning : (handlerSystem Calm).Reachable (handle alarmedRun (.retFromInt userRegs)) := by
    refine halarmed.step ⟨.retFromInt userRegs, rfl, ?_, rfl⟩
    intro sig _ d hd
    exact absurd hd List.not_mem_nil
  exact hrunning.step ⟨.request user1 0x800104,
    ⟨by decide +kernel, by decide, by decide +kernel, by decide +kernel⟩, hrequest _ _ _, rfl⟩

/-- The other signal waits while the handler runs. -/
theorem handlers_calm_waits :
    Waiting waitingRun ∧ waitingRun.active = [⟨alarm, 1, 1⟩] ∧
      waitingRun.run.requested = [alarm, user1] :=
  ⟨(handlers_calm waitingRun).2 reachable_waitingRun, by decide +kernel, by decide +kernel⟩

/-- The next interrupt of the handler returns to user mode. -/
def disturbedRun : Handling := handle waitingRun (.retFromInt userRegs)

/-- The other signal is delivered while the handler of the alarm runs. -/
theorem handlers_disturbed :
    Possible waitingRun.run (.retFromInt userRegs) ∧
      disturbedRun.active = [⟨user1, 2, 2⟩, ⟨alarm, 1, 1⟩] ∧
      disturbedRun.run.acted = [alarm, user1] ∧
      ¬ ∀ s, (handlerSystem fun _ _ => True).Reachable s → Masked s := by
  have hpossible : Possible waitingRun.run (.retFromInt userRegs) := by
    show waitingRun.run.terminated = false
    decide +kernel
  have hactive : disturbedRun.active = [⟨user1, 2, 2⟩, ⟨alarm, 1, 1⟩] := by decide +kernel
  have hacted : disturbedRun.run.acted = [alarm, user1] := by decide +kernel
  refine ⟨hpossible, hactive, hacted, ?_⟩
  intro h
  have hreachable : (handlerSystem fun _ _ => True).Reachable disturbedRun := by
    have hwaiting : (handlerSystem fun _ _ => True).Reachable waitingRun := by
      apply reachable_waitingRun.mono
      · intro s hinit
        exact hinit
      · rintro s s' ⟨e, he, -, heq⟩
        exact ⟨e, he, trivial, heq⟩
    exact hwaiting.step ⟨_, hpossible, trivial, rfl⟩
  have hmasked := h disturbedRun hreachable ⟨alarm, 1, 1⟩
    (by rw [hactive]; exact List.mem_cons_of_mem _ List.mem_cons_self) user1
    (by rw [hacted]; exact List.mem_cons_self)
  contradiction

end Signal
end NochOS
