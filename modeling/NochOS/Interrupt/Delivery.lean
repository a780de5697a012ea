import NochOS.Interrupt.I8259
import NochOS.Library.Requests

/-!
# Interrupts - What is delivered

Devices raise lines, the kernel masks lines, the processor acknowledges interrupts, and the
handlers send their end-of-interrupt words, one write at a time and in any order.  This
module compares the two chips and their driver with one controller of fifteen lines.

Main results:

- Definitions `State`, `State.next`, `State.log`: the kernel and the chips together.
- Theorem `vectors_delivered`: from start-up, the chips deliver exactly the vectors of the
  one controller.
- Theorem `request_served_iff`: which request reaches its handler in the end.
- Theorem `kernel_requests_served`: in the kernel every request reaches its handler.
- Theorem `still_deliverable_iff`: a line without a case in `do_irq` that was delivered once
  shuts out the less urgent ones for ever.
-/

namespace NochOS
namespace Interrupt

open Library

/-! ## The kernel and the chips -/

/-- The masks of the driver, the chips, and what the handler of each vector still has to
write to them. -/
structure State where
  masks : Masks
  pics : Pair
  handlers : Nat → Program Port Unit

namespace State

/-- An operation of the driver on the masks. -/
def operate (s : State) (op : Masks → Program Port Masks) : State :=
  match (op s.masks).run Interrupt.pics s.pics with
  | some (masks, pics) => { s with masks := masks, pics := pics }
  | none => s

/-- One step.  The handler of a vector starts when the processor gets the vector, and makes
one write in a step of its own. -/
def next (s : State) : LineEvent Nat → State
  | .enable n => s.operate (enableIrq n)
  | .disable n => s.operate (disableIrq n)
  | .raise n => { s with pics := s.pics.raise n }
  | .interrupt =>
      match s.pics.acknowledge with
      | some (v, pics) =>
          { s with pics := pics, handlers := Function.update s.handlers v (entry v) }
      | none => s
  | .acknowledge n =>
      match s.handlers (irqBase + n) with
      | .write r x rest =>
          { s with
            pics := Interrupt.pics.write r x s.pics
            handlers := Function.update s.handlers (irqBase + n) rest }
      | _ => s

/-- The vector of a step. -/
def answer (s : State) : LineEvent Nat → Option Nat
  | .interrupt => s.pics.acknowledge.map Prod.fst
  | _ => none

/-- A run. -/
def run (s : State) (events : List (LineEvent Nat)) : State :=
  events.foldl next s

/-- The vectors of a run, in their order. -/
def log : State → List (LineEvent Nat) → List Nat
  | _, [] => []
  | s, e :: events => (s.answer e).toList ++ log (s.next e) events

/-- Start-up, whatever the chips were doing before. -/
def boot (pics : Pair) : State :=
  State.operate ⟨Masks.initial, pics, fun _ => pure ()⟩ i8259Init

end State

/-! ## The lines -/

/-- The line of the master through which a line is heard. -/
def masterLine (n : Nat) : Nat := if n < 8 then n else irqPin

/-- The place of a line in the order of urgency. -/
def urgency (n : Nat) : Nat := if n < 2 then n else if n < 8 then n + 7 else n - 6

/-- One controller of fifteen lines.  A line of the slave takes two words, the other lines
one, and a line without a case in `do_irq` gets none. -/
def lines : Lines Nat where
  order := [0, 1, 8, 9, 10, 11, 12, 13, 14, 15, 3, 4, 5, 6, 7]
  rank := urgency
  level := masterLine
  via := masterLine
  acks n := if handled n then (if n < 8 then 1 else 2) else 0
  sorted := by decide
  graded := by decide
  via_outside := by decide

theorem mem_order {n : Nat} : n ∈ lines.order ↔ n < 16 ∧ n ≠ 2 := by
  simp only [lines, List.mem_cons, List.not_mem_nil, or_false]
  omega

/-- A property of all lines, chip by chip. -/
theorem forall_order {P : Nat → Prop} :
    (∀ n ∈ lines.order, P n) ↔ (∀ n, n < 8 → n ≠ 2 → P n) ∧ ∀ j, j < 8 → P (8 + j) := by
  constructor
  · exact fun h => ⟨fun n hn h2 => h n (mem_order.mpr ⟨by omega, h2⟩),
      fun j hj => h (8 + j) (mem_order.mpr ⟨by omega, by omega⟩)⟩
  · rintro ⟨hmaster, hslave⟩ n hn
    obtain ⟨hn16, hn2⟩ := mem_order.mp hn
    by_cases hn8 : n < 8
    · exact hmaster n hn8 hn2
    · have h := hslave (n - 8) (by omega)
      rwa [Nat.add_sub_cancel' (by omega)] at h

theorem level_master {n : Nat} (hn : n < 8) : lines.level n = n := if_pos hn

theorem level_slave (j : Nat) : lines.level (8 + j) = 2 := if_neg (by omega)

theorem via_master {n : Nat} (hn : n < 8) : lines.via n = n := if_pos hn

theorem via_slave (j : Nat) : lines.via (8 + j) = 2 := if_neg (by omega)

theorem rank_slave (j : Nat) : lines.rank (8 + j) = j + 2 := by
  change urgency (8 + j) = j + 2
  rw [urgency, if_neg (by omega), if_neg (by omega)]
  omega

theorem rank_master {n : Nat} (hn : n < 8) :
    lines.rank n = if n < 2 then n else n + 7 := by
  change urgency n = _
  rw [urgency, if_pos hn]

/-! ## The chips as one controller -/

/-- What a handler still has to write when so many words are missing. -/
def owed (n : Nat) : Option Nat → Program Port Unit
  | some 1 => if n < 8 then sendEoi n else outb (eoi ||| irqPin) masterPortCtrl
  | some 2 => sendEoi n
  | _ => pure ()

/-- A chip as the driver sets it up. -/
structure Chip.Configured (c : Chip) (base cascade : Nat) : Prop where
  phase : c.phase = .ready
  base : c.base = base
  cascade : c.cascade = cascade
  single : c.single = false
  autoEoi : c.autoEoi = false

/-- The chips and the handlers do what the one controller does. -/
structure Agrees (s : State) (a : Service Nat) : Prop where
  imrMaster : s.pics.master.imr = fun i => s.masks.master.getLsbD i
  imrSlave : s.pics.slave.imr = fun i => s.masks.slave.getLsbD i
  master : s.pics.master.Configured 0x20 4
  slave : s.pics.slave.Configured 0x28 2
  enabled : ∀ n, n < 16 → a.enabled n = !s.masks.bit n
  raisedMaster : ∀ n, n < 8 → n ≠ 2 → a.raised n = s.pics.master.irr n
  raisedSlave : ∀ j, j < 8 → a.raised (8 + j) = s.pics.slave.irr j
  serviceMaster : ∀ n, n < 8 → n ≠ 2 → (s.pics.master.isr n = true ↔ a.active n ≠ none)
  serviceSlave : ∀ j, j < 8 →
    (s.pics.slave.isr j = true ↔ a.active (8 + j) = some (lines.acks (8 + j)))
  /-- The line of the slave is in service until the second word of its handler. -/
  cascade : s.pics.master.isr 2 = true ↔ ∃ j, j < 8 ∧ a.active (8 + j) ≠ none
  known : ∀ n, a.active n ≠ none → n ∈ lines.order
  bound : ∀ n k, a.active n = some k → k ≤ lines.acks n
  handlers : ∀ n, s.handlers (irqBase + n) = owed n (a.active n)
  separate : lines.Separate a

namespace Agrees

variable {s : State} {a : Service Nat}

theorem shown (h : Agrees s a) : s.pics = s.pics.masked s.masks := by
  simp only [Pair.masked, Chip.masked, ← h.imrMaster, ← h.imrSlave]

theorem imr_master (h : Agrees s a) {n : Nat} (hn : n < 8) :
    s.pics.master.imr n = !a.enabled n := by
  rw [h.imrMaster, h.enabled n (by omega), Masks.bit, if_pos hn, Bool.not_not]

theorem imr_slave (h : Agrees s a) {j : Nat} (hj : j < 8) :
    s.pics.slave.imr j = !a.enabled (8 + j) := by
  rw [h.imrSlave, h.enabled (8 + j) (by omega), Masks.bit, if_neg (by omega), Bool.not_not,
    Nat.add_sub_cancel_left]

theorem heard_master (h : Agrees s a) {n : Nat} (hn : n < 8) (h2 : n ≠ 2) :
    lines.heard a n = true ↔ s.pics.wires n = true ∧ s.pics.master.imr n = false := by
  rw [Lines.heard, via_master hn, h.imr_master hn, Pair.wires, if_neg h2, h.raisedMaster n hn h2]
  simp

theorem heard_slave (h : Agrees s a) {j : Nat} (hj : j < 8) :
    lines.heard a (8 + j) = true ↔
      s.pics.slave.irr j = true ∧ s.pics.slave.imr j = false ∧ s.pics.master.imr 2 = false := by
  rw [Lines.heard, via_slave, h.imr_slave hj, h.imr_master (by omega), h.raisedSlave j hj]
  simp [and_assoc]

/-- While the line of the slave is idle the slave has no line in service. -/
theorem slave_idle (h : Agrees s a) (h2 : s.pics.master.isr 2 = false) {j : Nat} (hj : j < 8) :
    s.pics.slave.isr j = false := by
  by_contra hisr
  rw [Bool.not_eq_false, h.serviceSlave j hj] at hisr
  have hcascade := h.cascade.mpr ⟨j, hj, by rw [hisr]; simp⟩
  rw [h2] at hcascade
  exact absurd hcascade (by decide)

/-- With the line of the slave idle, its wire says that a request of the slave is not masked
there. -/
theorem wires_slave (h : Agrees s a) (h2 : s.pics.master.isr 2 = false) :
    s.pics.wires 2 = true ↔
      ∃ j, j < 8 ∧ s.pics.slave.irr j = true ∧ s.pics.slave.imr j = false :=
  Chip.request_isSome_iff h.slave.phase fun _ hj => h.slave_idle h2 hj

/-- A line of the master is the next one exactly if the master passes it on. -/
theorem taken_master (h : Agrees s a) {n : Nat} (hn : n < 8) (h2 : n ≠ 2) :
    lines.taken a = some n ↔ s.pics.master.request s.pics.wires = some n := by
  rw [Lines.taken_eq_some_iff, Chip.request_eq_some_iff h.master.phase, forall_order, forall_order,
    mem_order, h.heard_master hn h2]
  constructor
  · rintro ⟨-, ⟨hw, hm⟩, ⟨hminMaster, hminSlave⟩, hclearMaster, hclearSlave⟩
    have hisr : ∀ i, i ≤ n → s.pics.master.isr i = false := by
      intro i hi
      by_contra hisr
      rw [Bool.not_eq_false] at hisr
      by_cases hi2 : i = 2
      · subst hi2
        obtain ⟨j, hj, hactive⟩ := h.cascade.mp hisr
        have hlt := hclearSlave j hj hactive
        rw [level_master hn, level_slave] at hlt
        omega
      · have hlt := hclearMaster i (by omega) hi2 ((h.serviceMaster i (by omega) hi2).mp hisr)
        rw [level_master hn, level_master (by omega)] at hlt
        omega
    refine ⟨hn, hw, hm, fun i hi hwi => ?_, hisr⟩
    by_contra himr
    rw [Bool.not_eq_true] at himr
    by_cases hi2 : i = 2
    · subst hi2
      obtain ⟨j, hj, hirr, hmask⟩ := (h.wires_slave (hisr 2 (by omega))).mp hwi
      have hle := hminSlave j hj ((h.heard_slave hj).mpr ⟨hirr, hmask, himr⟩)
      rw [rank_master hn, rank_slave, if_neg (by omega)] at hle
      omega
    · have hle := hminMaster i (by omega) hi2 ((h.heard_master (by omega) hi2).mpr ⟨hwi, himr⟩)
      rw [rank_master hn, rank_master (by omega)] at hle
      split at hle <;> split at hle <;> omega
  · rintro ⟨-, hw, hm, hmin, hisr⟩
    refine ⟨⟨by omega, h2⟩, ⟨hw, hm⟩, ⟨fun i hi hi2 hheard => ?_, fun j hj hheard => ?_⟩,
      fun i hi hi2 hactive => ?_, fun j hj hactive => ?_⟩
    · by_contra hlt
      rw [rank_master hn, rank_master hi] at hlt
      obtain ⟨hwi, hmi⟩ := (h.heard_master hi hi2).mp hheard
      have hmasked := hmin i (by split at hlt <;> split at hlt <;> omega) hwi
      rw [hmi] at hmasked
      exact absurd hmasked (by decide)
    · by_contra hlt
      rw [rank_master hn, rank_slave] at hlt
      have hn2 : 2 < n := by
        split at hlt <;> omega
      obtain ⟨hirr, himr, himr2⟩ := (h.heard_slave hj).mp hheard
      have hmasked := hmin 2 hn2 ((h.wires_slave (hisr 2 (by omega))).mpr ⟨j, hj, hirr, himr⟩)
      rw [himr2] at hmasked
      exact absurd hmasked (by decide)
    · rw [level_master hn, level_master hi]
      by_contra hle
      have hidle := hisr i (by omega)
      rw [(h.serviceMaster i hi hi2).mpr hactive] at hidle
      exact absurd hidle (by decide)
    · rw [level_master hn, level_slave]
      by_contra hle
      have hidle := hisr 2 (by omega)
      rw [h.cascade.mpr ⟨j, hj, hactive⟩] at hidle
      exact absurd hidle (by decide)

/-- A line of the slave is the next one exactly if the slave passes it on, and the master
passes on the line of the slave. -/
theorem taken_slave (h : Agrees s a) {j : Nat} (hj : j < 8) :
    lines.taken a = some (8 + j) ↔
      s.pics.master.request s.pics.wires = some 2 ∧
        s.pics.slave.request s.pics.slave.irr = some j := by
  rw [Lines.taken_eq_some_iff, Chip.request_eq_some_iff h.master.phase,
    Chip.request_eq_some_iff h.slave.phase, forall_order, forall_order, mem_order,
    h.heard_slave hj]
  constructor
  · rintro ⟨-, ⟨hirr, himr, himr2⟩, ⟨hminMaster, hminSlave⟩, hclearMaster, hclearSlave⟩
    have hisr2 : s.pics.master.isr 2 = false := by
      by_contra hisr
      rw [Bool.not_eq_false, h.cascade] at hisr
      obtain ⟨k, hk, hactive⟩ := hisr
      have hlt := hclearSlave k hk hactive
      rw [level_slave, level_slave] at hlt
      omega
    refine ⟨⟨by omega, (h.wires_slave hisr2).mpr ⟨j, hj, hirr, himr⟩, himr2, fun i hi hwi => ?_,
      fun i hi => ?_⟩, hj, hirr, himr, fun k hk hirrk => ?_,
      fun k hk => h.slave_idle hisr2 (by omega)⟩
    · by_contra himri
      rw [Bool.not_eq_true] at himri
      have hle := hminMaster i (by omega) (by omega)
        ((h.heard_master (by omega) (by omega)).mpr ⟨hwi, himri⟩)
      rw [rank_slave, rank_master (by omega), if_pos hi] at hle
      omega
    · by_cases hi2 : i = 2
      · rw [hi2, hisr2]
      · by_contra hisr
        rw [Bool.not_eq_false] at hisr
        have hlt := hclearMaster i (by omega) hi2 ((h.serviceMaster i (by omega) hi2).mp hisr)
        rw [level_slave, level_master (by omega)] at hlt
        omega
    · by_contra himrk
      rw [Bool.not_eq_true] at himrk
      have hle := hminSlave k (by omega) ((h.heard_slave (by omega)).mpr ⟨hirrk, himrk, himr2⟩)
      rw [rank_slave, rank_slave] at hle
      omega
  · rintro ⟨⟨-, hw, himr2, hminMaster, hisrMaster⟩, -, hirr, himr, hminSlave, hisrSlave⟩
    refine ⟨⟨by omega, by omega⟩, ⟨hirr, himr, himr2⟩, ⟨fun i hi hi2 hheard => ?_,
      fun k hk hheard => ?_⟩, fun i hi hi2 hactive => ?_, fun k hk hactive => ?_⟩
    · by_contra hlt
      rw [rank_slave, rank_master hi] at hlt
      obtain ⟨hwi, hmi⟩ := (h.heard_master hi hi2).mp hheard
      have hmasked := hminMaster i (by split at hlt <;> omega) hwi
      rw [hmi] at hmasked
      exact absurd hmasked (by decide)
    · by_contra hlt
      rw [rank_slave, rank_slave] at hlt
      obtain ⟨hirrk, himrk, -⟩ := (h.heard_slave hk).mp hheard
      have hmasked := hminSlave k (by omega) hirrk
      rw [himrk] at hmasked
      exact absurd hmasked (by decide)
    · rw [level_slave, level_master hi]
      by_contra hle
      have hidle := hisrMaster i (by omega)
      rw [(h.serviceMaster i hi hi2).mpr hactive] at hidle
      exact absurd hidle (by decide)
    · have hidle := hisrMaster 2 (Nat.le_refl 2)
      rw [h.cascade.mpr ⟨k, hk, hactive⟩] at hidle
      exact absurd hidle (by decide)

/-- The chips after the processor got the vector of a line. -/
def served (p : Pair) (n : Nat) : Pair :=
  if n < 8 then { p with master := p.master.serve n }
  else ⟨p.master.serve 2, p.slave.serve (n - 8)⟩

/-- The processor gets the vector of the next line. -/
theorem acknowledge_some (h : Agrees s a) {n : Nat} (hn : lines.taken a = some n) :
    s.pics.acknowledge = some (irqBase + n, served s.pics n) := by
  obtain ⟨hn16, hn2⟩ := mem_order.mp (Lines.taken_mem hn)
  by_cases hn8 : n < 8
  · have hreq := (h.taken_master hn8 hn2).mp hn
    have hbit : (4 : Nat).testBit n = false := by
      have hall : ∀ n < 8, n ≠ 2 → (4 : Nat).testBit n = false := by decide
      exact hall n hn8 hn2
    rw [Pair.acknowledge, hreq]
    simp only [h.master.cascade, hbit, h.master.base, served, if_pos hn8]
    simp [irqBase]
  · obtain ⟨j, rfl⟩ : ∃ j, n = 8 + j := ⟨n - 8, by omega⟩
    obtain ⟨hmaster, hslave⟩ := (h.taken_slave (by omega)).mp hn
    rw [Pair.acknowledge, hmaster]
    simp only [h.master.cascade, h.master.single, h.slave.cascade, hslave, h.slave.base, served,
      if_neg hn8, Nat.add_sub_cancel_left, Option.map_some]
    rw [if_pos ⟨trivial, by decide⟩, if_pos (by decide), ← Nat.add_assoc]
    rfl

/-- Without a next line the processor gets nothing. -/
theorem acknowledge_none (h : Agrees s a) (hn : lines.taken a = none) :
    s.pics.acknowledge = none := by
  have hreq : s.pics.master.request s.pics.wires = none := by
    cases hreq : s.pics.master.request s.pics.wires with
    | none => rfl
    | some i =>
        obtain ⟨hi, hw, -⟩ := (Chip.request_eq_some_iff h.master.phase).mp hreq
        by_cases hi2 : i = 2
        · subst hi2
          obtain ⟨j, hj⟩ := Option.isSome_iff_exists.mp hw
          have hj8 := ((Chip.request_eq_some_iff h.slave.phase).mp hj).1
          rw [(h.taken_slave hj8).mpr ⟨hreq, hj⟩] at hn
          exact absurd hn (by simp)
        · rw [(h.taken_master hi hi2).mpr hreq] at hn
          exact absurd hn (by simp)
  rw [Pair.acknowledge, hreq]

end Agrees

/-! ## One step -/

section Step

variable {s : State} {a : Service Nat}

/-- A change of one mask. -/
theorem Agrees.change (h : Agrees s a) {op : BitVec 8 → Nat → BitVec 8} {b : Bool}
    (hop : ∀ {m : BitVec 8} {k i : Nat}, i < 8 →
      (op m k).getLsbD i = if i = k then !b else m.getLsbD i) (n : Nat) :
    Agrees (s.operate (changeIrq op n)) { a with enabled := Function.update a.enabled n b } := by
  rw [State.operate, run_changeIrq h.master.phase h.slave.phase h.shown]
  refine
    { imrMaster := rfl
      imrSlave := rfl
      master := ⟨h.master.phase, h.master.base, h.master.cascade, h.master.single,
        h.master.autoEoi⟩
      slave := ⟨h.slave.phase, h.slave.base, h.slave.cascade, h.slave.single, h.slave.autoEoi⟩
      enabled := fun i hi => ?_
      raisedMaster := h.raisedMaster
      raisedSlave := h.raisedSlave
      serviceMaster := h.serviceMaster
      serviceSlave := h.serviceSlave
      cascade := h.cascade
      known := h.known
      bound := h.bound
      handlers := h.handlers
      separate := h.separate }
  simp only [Masks.bit_change hop hi]
  by_cases hin : i = n
  · simp [hin]
  · simp [hin, h.enabled i hi]

/-- A request. -/
theorem Agrees.raise (h : Agrees s a) (n : Nat) :
    Agrees { s with pics := s.pics.raise n }
      { a with raised := Function.update a.raised n true } := by
  by_cases hn : n < 8 ∧ n ≠ 2
  · have hraise : s.pics.raise n = { s.pics with master := s.pics.master.raise n } := by
      rw [Pair.raise, if_neg hn.2, if_pos hn.1]
    rw [hraise]
    refine
      { h with
        master := ⟨h.master.phase, h.master.base, h.master.cascade, h.master.single,
          h.master.autoEoi⟩
        raisedMaster := fun i hi hi2 => ?_
        raisedSlave := fun j hj => ?_ }
    · by_cases hin : i = n
      · simp [Chip.raise, hin]
      · simpa [Chip.raise, hin] using h.raisedMaster i hi hi2
    · simpa [show 8 + j ≠ n by omega] using h.raisedSlave j hj
  · by_cases hslave : 8 ≤ n ∧ n < 16
    · have hraise : s.pics.raise n = { s.pics with slave := s.pics.slave.raise (n - 8) } := by
        rw [Pair.raise, if_neg (by omega), if_neg (by omega), if_pos hslave.2]
      rw [hraise]
      refine
        { h with
          slave := ⟨h.slave.phase, h.slave.base, h.slave.cascade, h.slave.single,
            h.slave.autoEoi⟩
          raisedMaster := fun i hi hi2 => ?_
          raisedSlave := fun j hj => ?_ }
      · simpa [show i ≠ n by omega] using h.raisedMaster i hi hi2
      · by_cases hjn : 8 + j = n
        · subst hjn
          simp [Chip.raise]
        · simpa [Chip.raise, hjn, show j ≠ n - 8 by omega] using h.raisedSlave j hj
    · -- no device is there
      have hraise : s.pics.raise n = s.pics := by
        rw [Pair.raise]
        split
        · rfl
        · rw [if_neg (by omega), if_neg (by omega)]
      rw [hraise]
      refine
        { h with
          raisedMaster := fun i hi hi2 => ?_
          raisedSlave := fun j hj => ?_ }
      · simpa [show i ≠ n by omega] using h.raisedMaster i hi hi2
      · simpa [show 8 + j ≠ n by omega] using h.raisedSlave j hj

/-! A line whose service changes, and its handler with it. -/

section Update

variable {handlers : Nat → Program Port Unit} {active : Nat → Option Nat} {n : Nat}
  {o : Option Nat}

theorem handlers_update (h : ∀ i, handlers (irqBase + i) = owed i (active i))
    {rest : Program Port Unit} (hrest : rest = owed n o) (i : Nat) :
    Function.update handlers (irqBase + n) rest (irqBase + i) =
      owed i (Function.update active n o i) := by
  by_cases hin : i = n
  · rw [hin, Function.update_self, Function.update_self, hrest]
  · rw [Function.update_of_ne (by omega), Function.update_of_ne hin, h]

theorem known_update (h : ∀ i, active i ≠ none → i ∈ lines.order) (hn : n ∈ lines.order) (i : Nat)
    (hi : Function.update active n o i ≠ none) : i ∈ lines.order := by
  by_cases hin : i = n
  · rwa [hin]
  · exact h i (by simpa [hin] using hi)

theorem bound_update (h : ∀ i k, active i = some k → k ≤ lines.acks i)
    (ho : ∀ k, o = some k → k ≤ lines.acks n) (i k : Nat)
    (hik : Function.update active n o i = some k) : k ≤ lines.acks i := by
  by_cases hin : i = n
  · rw [hin] at hik ⊢
    rw [Function.update_self] at hik
    exact ho k hik
  · exact h i k (by simpa [hin] using hik)

end Update

theorem entry_owed {n : Nat} (hn : n ∈ lines.order) :
    entry (irqBase + n) = owed n (some (lines.acks n)) := by
  rw [entry_eq (mem_order.mp hn).1]
  simp only [lines]
  split
  · by_cases hn8 : n < 8
    · rw [if_pos hn8, owed, if_pos hn8]
    · rw [if_neg hn8, owed]
  · rfl

/-- The service of one line changes: what is asked of the chips. -/
theorem Agrees.serviced (h : Agrees s a) {n : Nat} (hn : n ∈ lines.order) {o : Option Nat}
    {raised mr mi sr si : Nat → Bool}
    (hraisedMaster : ∀ i, i < 8 → i ≠ 2 → raised i = mr i)
    (hraisedSlave : ∀ j, j < 8 → raised (8 + j) = sr j)
    (hmaster : ∀ i, i < 8 → i ≠ 2 → (mi i = true ↔ Function.update a.active n o i ≠ none))
    (hslave : ∀ j, j < 8 →
      (si j = true ↔ Function.update a.active n o (8 + j) = some (lines.acks (8 + j))))
    (hcascade : mi 2 = true ↔ ∃ j, j < 8 ∧ Function.update a.active n o (8 + j) ≠ none)
    (hbound : ∀ k, o = some k → k ≤ lines.acks n)
    (hseparate : lines.Separate ⟨a.enabled, raised, Function.update a.active n o⟩) :
    Agrees
      ⟨s.masks, ⟨{ s.pics.master with irr := mr, isr := mi },
        { s.pics.slave with irr := sr, isr := si }⟩,
        Function.update s.handlers (irqBase + n) (owed n o)⟩
      ⟨a.enabled, raised, Function.update a.active n o⟩ where
  imrMaster := h.imrMaster
  imrSlave := h.imrSlave
  master := ⟨h.master.phase, h.master.base, h.master.cascade, h.master.single, h.master.autoEoi⟩
  slave := ⟨h.slave.phase, h.slave.base, h.slave.cascade, h.slave.single, h.slave.autoEoi⟩
  enabled := h.enabled
  raisedMaster := hraisedMaster
  raisedSlave := hraisedSlave
  serviceMaster := hmaster
  serviceSlave := hslave
  cascade := hcascade
  known := known_update h.known hn
  bound := bound_update h.bound hbound
  handlers := handlers_update h.handlers rfl
  separate := hseparate

/-- A handler of a line of the master starts. -/
theorem Agrees.serve_master (h : Agrees s a) {n : Nat} (hn : n ∈ lines.order) (hn8 : n < 8)
    (hseparate : lines.Separate ⟨a.enabled, Function.update a.raised n false,
      Function.update a.active n (some (lines.acks n))⟩) :
    Agrees
      { s with
        pics := { s.pics with master := s.pics.master.serve n }
        handlers := Function.update s.handlers (irqBase + n) (owed n (some (lines.acks n))) }
      ⟨a.enabled, Function.update a.raised n false,
        Function.update a.active n (some (lines.acks n))⟩ := by
  have hn2 := (mem_order.mp hn).2
  rw [Chip.serve_manual h.master.autoEoi]
  refine h.serviced hn (fun i hi hi2 => ?_) (fun j hj => ?_) (fun i hi hi2 => ?_)
    (fun j hj => ?_) ?_ (fun k hk => Nat.le_of_eq (Option.some.inj hk).symm) hseparate
  · by_cases hin : i = n
    · simp [hin]
    · simpa [hin] using h.raisedMaster i hi hi2
  · simpa [show 8 + j ≠ n by omega] using h.raisedSlave j hj
  · by_cases hin : i = n
    · simp [hin]
    · simpa [hin] using h.serviceMaster i hi hi2
  · simpa [show 8 + j ≠ n by omega] using h.serviceSlave j hj
  · have hsame : ∀ j, Function.update a.active n (some (lines.acks n)) (8 + j) =
        a.active (8 + j) := fun j => Function.update_of_ne (by omega) _ _
    simpa [Ne.symm hn2, hsame] using h.cascade

/-- A handler of a line of the slave starts. -/
theorem Agrees.serve_slave (h : Agrees s a) {k : Nat} (hk : k < 8)
    (hseparate : lines.Separate ⟨a.enabled, Function.update a.raised (8 + k) false,
      Function.update a.active (8 + k) (some (lines.acks (8 + k)))⟩) :
    Agrees
      { s with
        pics := ⟨s.pics.master.serve 2, s.pics.slave.serve k⟩
        handlers := Function.update s.handlers (irqBase + (8 + k))
          (owed (8 + k) (some (lines.acks (8 + k)))) }
      ⟨a.enabled, Function.update a.raised (8 + k) false,
        Function.update a.active (8 + k) (some (lines.acks (8 + k)))⟩ := by
  rw [Chip.serve_manual h.master.autoEoi, Chip.serve_manual h.slave.autoEoi]
  refine h.serviced (mem_order.mpr ⟨by omega, by omega⟩) (fun i hi hi2 => ?_) (fun j hj => ?_)
    (fun i hi hi2 => ?_) (fun j hj => ?_) ?_
    (fun k hk => Nat.le_of_eq (Option.some.inj hk).symm) hseparate
  · simpa [hi2, show i ≠ 8 + k by omega] using h.raisedMaster i hi hi2
  · by_cases hjk : j = k
    · simp [hjk]
    · simpa [hjk] using h.raisedSlave j hj
  · simpa [hi2, show i ≠ 8 + k by omega] using h.serviceMaster i hi hi2
  · by_cases hjk : j = k
    · simp [hjk]
    · simpa [hjk] using h.serviceSlave j hj
  · simp only [Function.update_self, true_iff]
    exact ⟨k, hk, by simp⟩

/-- A handler starts. -/
theorem Agrees.interrupt (h : Agrees s a) :
    Agrees (s.next .interrupt) (lines.next a .interrupt) ∧
      s.answer .interrupt = (lines.answer a .interrupt).map (irqBase + ·) := by
  cases htaken : lines.taken a with
  | none =>
      have hnone := h.acknowledge_none htaken
      rw [Lines.next_interrupt_none htaken, State.next, State.answer, Lines.answer, htaken, hnone]
      exact ⟨h, rfl⟩
  | some n =>
      have hsome := h.acknowledge_some htaken
      have hmem := Lines.taken_mem htaken
      have hseparate := h.separate.next .interrupt
      rw [Lines.next_interrupt htaken] at hseparate ⊢
      rw [State.next, State.answer, Lines.answer, htaken, hsome]
      refine ⟨?_, rfl⟩
      simp only [entry_owed hmem]
      by_cases hn8 : n < 8
      · simp only [Agrees.served, if_pos hn8]
        exact h.serve_master hmem hn8 hseparate
      · obtain ⟨k, rfl⟩ : ∃ k, n = 8 + k := ⟨n - 8, by omega⟩
        simp only [Agrees.served, if_neg hn8, Nat.add_sub_cancel_left]
        exact h.serve_slave (by have := (mem_order.mp hmem).1; omega) hseparate

theorem acks_le (n : Nat) : lines.acks n ≤ if n < 8 then 1 else 2 := by
  simp only [lines]
  split <;> split <;> omega

/-- The only word of a line of the master. -/
theorem Agrees.word_master (h : Agrees s a) {n : Nat} (hn8 : n < 8) (hn : n ∈ lines.order)
    (hseparate : lines.Separate ⟨a.enabled, a.raised, Function.update a.active n none⟩)
    (howed : s.handlers (irqBase + n) = owed n (some 1)) :
    Agrees (s.next (.acknowledge n)) ⟨a.enabled, a.raised, Function.update a.active n none⟩ := by
  have hsend : owed n (some 1) =
      .write (.byte masterPortCtrl) (eoi ||| n) (pure ()) := by
    rw [owed, if_pos hn8, sendEoi, if_neg (by unfold slaveIrqMax; omega),
      if_pos (by unfold masterIrqMax; omega)]
    rfl
  have hwrite : Interrupt.pics.write (.byte masterPortCtrl) (eoi ||| n) s.pics =
      { s.pics with
        master := { s.pics.master with isr := Function.update s.pics.master.isr n false } } := by
    rw [← control_eoi hn8]
    rfl
  rw [State.next, howed, hsend]
  simp only [hwrite]
  refine h.serviced hn h.raisedMaster h.raisedSlave (fun i hi hi2 => ?_) (fun j hj => ?_) ?_
    (by simp) hseparate
  · by_cases hin : i = n
    · simp [hin]
    · simpa [hin] using h.serviceMaster i hi hi2
  · simpa [show 8 + j ≠ n by omega] using h.serviceSlave j hj
  · have hsame : ∀ j, Function.update a.active n none (8 + j) = a.active (8 + j) :=
      fun j => Function.update_of_ne (by omega) _ _
    simpa [Ne.symm (mem_order.mp hn).2, hsame] using h.cascade

/-- The first word of a line of the slave, to the slave. -/
theorem Agrees.word_first (h : Agrees s a) {j : Nat} (hj : j < 8)
    (hk : a.active (8 + j) = some 2) (hacks : lines.acks (8 + j) = 2)
    (hseparate : lines.Separate
      ⟨a.enabled, a.raised, Function.update a.active (8 + j) (some 1)⟩)
    (howed : s.handlers (irqBase + (8 + j)) = owed (8 + j) (some 2)) :
    Agrees (s.next (.acknowledge (8 + j)))
      ⟨a.enabled, a.raised, Function.update a.active (8 + j) (some 1)⟩ := by
  have hsend : owed (8 + j) (some 2) =
      .write (.byte slavePortCtrl) (eoi ||| j) (owed (8 + j) (some 1)) := by
    rw [owed, owed, if_neg (by omega), sendEoi, if_neg (by unfold slaveIrqMax; omega),
      if_neg (by unfold masterIrqMax; omega), slaveIrqMin, Nat.add_sub_cancel_left]
    rfl
  have hwrite : Interrupt.pics.write (.byte slavePortCtrl) (eoi ||| j) s.pics =
      { s.pics with
        slave := { s.pics.slave with isr := Function.update s.pics.slave.isr j false } } := by
    rw [← control_eoi hj]
    rfl
  rw [State.next, howed, hsend]
  simp only [hwrite]
  refine h.serviced (mem_order.mpr ⟨by omega, by omega⟩) h.raisedMaster h.raisedSlave
    (fun i hi hi2 => ?_) (fun i hi => ?_) ?_ (fun l hl => ?_) hseparate
  · simpa [show i ≠ 8 + j by omega] using h.serviceMaster i hi hi2
  · by_cases hij : i = j
    · simp [hij, hacks]
    · simpa [hij] using h.serviceSlave i hi
  · rw [h.cascade]
    refine exists_congr fun i => and_congr_right fun _ => ?_
    by_cases hij : i = j
    · simp [hij, hk]
    · simp [hij]
  · rw [← Option.some.inj hl]
    omega

/-- The second word of a line of the slave, to the master. -/
theorem Agrees.word_second (h : Agrees s a) {j : Nat} (hj : j < 8)
    (hk : a.active (8 + j) = some 1)
    (hseparate : lines.Separate ⟨a.enabled, a.raised, Function.update a.active (8 + j) none⟩)
    (howed : s.handlers (irqBase + (8 + j)) = owed (8 + j) (some 1)) :
    Agrees (s.next (.acknowledge (8 + j)))
      ⟨a.enabled, a.raised, Function.update a.active (8 + j) none⟩ := by
  have hmem : 8 + j ∈ lines.order := mem_order.mpr ⟨by omega, by omega⟩
  have hsend : owed (8 + j) (some 1) =
      .write (.byte masterPortCtrl) (eoi ||| irqPin) (pure ()) := by
    rw [owed, if_neg (by omega)]
    rfl
  have hwrite : Interrupt.pics.write (.byte masterPortCtrl) (eoi ||| irqPin) s.pics =
      { s.pics with
        master := { s.pics.master with isr := Function.update s.pics.master.isr 2 false } } := by
    rw [← control_eoi (by decide)]
    rfl
  rw [State.next, howed, hsend]
  simp only [hwrite]
  refine h.serviced hmem h.raisedMaster h.raisedSlave (fun i hi hi2 => ?_) (fun i hi => ?_) ?_
    (by simp) hseparate
  · simpa [hi2, show i ≠ 8 + j by omega] using h.serviceMaster i hi hi2
  · by_cases hij : i = j
    · subst hij
      -- its bit is clear since the first word
      have hbit := h.serviceSlave i hi
      rw [hk, Option.some.injEq] at hbit
      have hacks : lines.acks (8 + i) ≠ 1 := by
        simp only [lines]
        split <;> simp
      simp [hbit, Ne.symm hacks]
    · simpa [hij] using h.serviceSlave i hi
  · -- no other line of the slave is in service
    simp only [Function.update_self, Bool.false_eq_true, false_iff, not_exists, not_and, not_not]
    intro i hi
    by_cases hij : i = j
    · simp [hij]
    · by_contra hi'
      rw [Function.update_of_ne (by omega)] at hi'
      have heq := h.separate _ (h.known _ hi') _ hmem hi' (by rw [hk]; simp)
        ((level_slave i).trans (level_slave j).symm)
      omega

/-- A handler makes a write. -/
theorem Agrees.acknowledge (h : Agrees s a) (n : Nat) :
    Agrees (s.next (.acknowledge n)) (lines.next a (.acknowledge n)) := by
  by_cases hactive : ∃ k, a.active n = some (k + 1)
  · obtain ⟨k, hk⟩ := hactive
    have hmem := h.known n (by rw [hk]; simp)
    obtain ⟨hn16, hn2⟩ := mem_order.mp hmem
    have hbound := h.bound n _ hk
    have hacks := acks_le n
    have hseparate := h.separate.next (.acknowledge n)
    rw [Lines.next_acknowledge hk] at hseparate ⊢
    have howed := h.handlers n
    rw [hk] at howed
    by_cases hn8 : n < 8
    · rw [if_pos hn8] at hacks
      obtain rfl : k = 0 := by omega
      rw [if_pos rfl] at hseparate ⊢
      exact h.word_master hn8 hmem hseparate howed
    · obtain ⟨j, rfl⟩ : ∃ j, n = 8 + j := ⟨n - 8, by omega⟩
      rw [if_neg hn8] at hacks
      by_cases hk0 : k = 0
      · subst hk0
        rw [if_pos rfl] at hseparate ⊢
        exact h.word_second (by omega) hk hseparate howed
      · obtain rfl : k = 1 := by omega
        rw [if_neg hk0] at hseparate ⊢
        exact h.word_first (by omega) hk (by omega) hseparate howed
  · -- nothing is owed
    have howed : s.handlers (irqBase + n) = pure () := by
      rw [h.handlers]
      cases hn : a.active n with
      | none => rfl
      | some k =>
          cases k with
          | zero => rfl
          | succ k => exact absurd ⟨k, hn⟩ hactive
    rw [Lines.next_acknowledge_rest fun k hk => hactive ⟨k, hk⟩, State.next, howed]
    exact h

/-- A step of the kernel and the chips is a step of the one controller. -/
theorem Agrees.next (h : Agrees s a) (e : LineEvent Nat) :
    Agrees (s.next e) (lines.next a e) ∧ s.answer e = (lines.answer a e).map (irqBase + ·) := by
  cases e with
  | enable n => exact ⟨h.change (fun hi => getLsbD_unmask hi) n, rfl⟩
  | disable n => exact ⟨h.change (fun hi => getLsbD_mask hi) n, rfl⟩
  | raise n => exact ⟨h.raise n, rfl⟩
  | interrupt => exact h.interrupt
  | acknowledge n => exact ⟨h.acknowledge n, rfl⟩

end Step

/-! ## Runs -/

/-- The one controller at start-up: only the line of the slave is enabled. -/
def start : Service Nat where
  enabled n := decide (n = irqPin)
  raised _ := false
  active _ := none

theorem agrees_boot (pics : Pair) : Agrees (State.boot pics) start := by
  have hboot : State.boot pics =
      ⟨⟨0xFB, 0xFF⟩, ⟨Chip.started 0x20 4 0xFB, Chip.started 0x28 2 0xFF⟩, fun _ => pure ()⟩ := by
    rw [State.boot, State.operate, run_i8259Init]
  rw [hboot]
  exact
    { imrMaster := rfl
      imrSlave := rfl
      master := ⟨rfl, rfl, rfl, rfl, rfl⟩
      slave := ⟨rfl, rfl, rfl, rfl, rfl⟩
      enabled := by decide
      raisedMaster := fun _ _ _ => rfl
      raisedSlave := fun _ _ => rfl
      serviceMaster := fun _ _ _ => by simp [Chip.started, start]
      serviceSlave := fun _ _ => by simp [Chip.started, start]
      cascade := by simp [Chip.started, start]
      known := fun _ h => absurd rfl h
      bound := fun _ _ h => by simp [start] at h
      handlers := fun _ => rfl
      separate := fun _ _ _ _ h => absurd rfl h }

/-- A run of the kernel and the chips is a run of the one controller. -/
theorem Agrees.run {s : State} {a : Service Nat} (h : Agrees s a) (events : List (LineEvent Nat)) :
    Agrees (s.run events) (lines.run a events) ∧
      s.log events = (lines.log a events).map (irqBase + ·) := by
  induction events generalizing s a with
  | nil => exact ⟨h, rfl⟩
  | cons e events ih =>
      obtain ⟨hnext, hanswer⟩ := h.next e
      obtain ⟨hrun, hlog⟩ := ih hnext
      refine ⟨hrun, ?_⟩
      rw [State.log, Lines.log, hlog, hanswer, List.map_append]
      congr 1
      cases lines.answer a e <;> rfl

/-- From start-up on, whatever the chips were doing before and in whatever order the events
come, the two chips, masked and acknowledged by the driver, deliver exactly the vectors of
one controller of fifteen lines with fixed priorities. -/
theorem vectors_delivered (pics : Pair) (events : List (LineEvent Nat)) :
    (State.boot pics).log events = (lines.log start events).map (irqBase + ·) :=
  ((agrees_boot pics).run events).2

theorem Agrees.mem_log {s : State} {a : Service Nat} (h : Agrees s a)
    (events : List (LineEvent Nat)) (n : Nat) :
    irqBase + n ∈ s.log events ↔ n ∈ lines.log a events := by
  rw [(h.run events).2, List.mem_map]
  constructor
  · rintro ⟨m, hm, heq⟩
    rwa [Nat.add_left_cancel heq] at hm
  · exact fun hn => ⟨n, hn, rfl⟩

theorem acks_eq_zero {n : Nat} : lines.acks n = 0 ↔ handled n = false := by
  simp only [lines]
  cases handled n with
  | false => simp
  | true => by_cases h : n < 8 <;> simp [h]

/-- The services that never end, by the vectors delivered so far. -/
theorem endless_from_boot (pics : Pair) (events : List (LineEvent Nat)) (m : Nat) :
    (lines.run start events).active m = some 0 ↔
      irqBase + m ∈ (State.boot pics).log events ∧ handled m = false := by
  rw [Lines.endless_iff, (agrees_boot pics).mem_log, acks_eq_zero]
  simp [start, and_comm]

/-- A device has raised the line, and no mask holds it back. -/
def State.requested (s : State) (n : Nat) : Bool :=
  if n < 8 then s.pics.master.irr n && !s.pics.master.imr n
  else s.pics.slave.irr (n - 8) && !s.pics.slave.imr (n - 8) && !s.pics.master.imr irqPin

theorem Agrees.requested_iff {s : State} {a : Service Nat} (h : Agrees s a) {n : Nat}
    (hn : n ∈ lines.order) : lines.heard a n = s.requested n := by
  obtain ⟨hn16, hn2⟩ := mem_order.mp hn
  rw [State.requested, Bool.eq_iff_iff]
  by_cases hn8 : n < 8
  · rw [if_pos hn8, h.heard_master hn8 hn2, Pair.wires, if_neg hn2]
    simp
  · obtain ⟨j, rfl⟩ : ∃ j, n = 8 + j := ⟨n - 8, by omega⟩
    rw [if_neg hn8, Nat.add_sub_cancel_left, h.heard_slave (by omega)]
    simp [irqPin, and_assoc]

/-- With no further request and no change of the masks, a line of a device is delivered in
the end exactly if it is requested, no line without a case in `do_irq` that is as urgent was
delivered before, and none that is more urgent is requested. -/
theorem request_served_iff (pics : Pair) (events : List (LineEvent Nat)) {n : Nat}
    (hn : n ∈ lines.order) :
    (∃ more, (∀ e ∈ more, Lines.Settling e) ∧
        irqBase + n ∈ ((State.boot pics).run events).log more) ↔
      ((State.boot pics).run events).requested n = true ∧
        (∀ m, irqBase + m ∈ (State.boot pics).log events → handled m = false →
          masterLine n < masterLine m) ∧
        ∀ m ∈ lines.order, urgency m < urgency n →
          ((State.boot pics).run events).requested m = true → handled m = true := by
  have hrun := ((agrees_boot pics).run events).1
  simp only [hrun.mem_log]
  rw [Lines.served_iff hn]
  constructor
  · intro hfree
    refine ⟨hrun.requested_iff hn ▸ hfree.heard, fun m hm hunhandled => ?_,
      fun m hm hlt hreq => ?_⟩
    · have hzero := (endless_from_boot pics events m).mpr ⟨hm, hunhandled⟩
      exact hfree.above m (hrun.known m (by rw [hzero]; simp)) hzero
    · have hacks := hfree.before m hm hlt ((hrun.requested_iff hm).trans hreq)
      rwa [ne_eq, acks_eq_zero, Bool.not_eq_false] at hacks
  · rintro ⟨hreq, habove, hbefore⟩
    refine ⟨(hrun.requested_iff hn).trans hreq, fun m _ hzero => ?_, fun m hm hlt hheard => ?_⟩
    · obtain ⟨hlog, hunhandled⟩ := (endless_from_boot pics events m).mp hzero
      exact habove m hlog hunhandled
    · rw [ne_eq, acks_eq_zero, Bool.not_eq_false]
      exact hbefore m hm hlt ((hrun.requested_iff hm).symm.trans hheard)

/-- A line of a device can still be delivered in some continuation of a run exactly if no
line without a case in `do_irq` that is as urgent was delivered before. -/
theorem still_deliverable_iff (pics : Pair) (events : List (LineEvent Nat)) {n : Nat}
    (hn : n ∈ lines.order) :
    (∃ more, irqBase + n ∈ ((State.boot pics).run events).log more) ↔
      ∀ m, irqBase + m ∈ (State.boot pics).log events → handled m = false →
        masterLine n < masterLine m := by
  have hrun := ((agrees_boot pics).run events).1
  simp only [hrun.mem_log]
  rw [Lines.reachable_iff hn]
  constructor
  · intro habove m hm hunhandled
    have hzero := (endless_from_boot pics events m).mpr ⟨hm, hunhandled⟩
    exact habove m (hrun.known m (by rw [hzero]; simp)) hzero
  · intro habove m _ hzero
    obtain ⟨hlog, hunhandled⟩ := (endless_from_boot pics events m).mp hzero
    exact habove m hlog hunhandled

/-- The chips of the examples, in the middle of an interrupt from an earlier system. -/
def usedPics : Pair :=
  ⟨{ Chip.started 0x08 4 0 with isr := fun i => i == 0 }, Chip.started 0x70 2 0⟩

theorem request_served_iff_clock :
    ∃ more, (∀ e ∈ more, Lines.Settling e) ∧
      irqBase + rtcIrqPin ∈ ((State.boot usedPics).run
        [.enable keyboardIrqPin, .enable rtcIrqPin, .raise keyboardIrqPin, .interrupt,
          .raise rtcIrqPin]).log more :=
  (request_served_iff usedPics _ (by decide)).mpr
    ⟨by decide +kernel, fun m hm hunhandled => by
      have hlog : (State.boot usedPics).log [.enable keyboardIrqPin, .enable rtcIrqPin,
          .raise keyboardIrqPin, .interrupt, .raise rtcIrqPin] = [irqBase + keyboardIrqPin] := by
        decide +kernel
      rw [hlog, List.mem_singleton] at hm
      rw [Nat.add_left_cancel hm] at hunhandled
      exact absurd hunhandled (by decide), by decide +kernel⟩

/-- A printer at line 7 that was enabled once and has no case shuts out nothing but line 7. -/
theorem still_deliverable_iff_printer :
    (∃ more, irqBase + 6 ∈ ((State.boot usedPics).run
        [.enable 7, .raise 7, .interrupt]).log more) ∧
      ¬ ∃ more, irqBase + 7 ∈ ((State.boot usedPics).run
        [.enable 7, .raise 7, .interrupt]).log more := by
  have hlog : (State.boot usedPics).log [.enable 7, .raise 7, .interrupt] = [irqBase + 7] := by
    decide +kernel
  constructor
  · refine (still_deliverable_iff usedPics [.enable 7, .raise 7, .interrupt] (by decide)).mpr
      fun m hm _ => ?_
    rw [hlog, List.mem_singleton] at hm
    rw [Nat.add_left_cancel hm]
    decide
  · intro hmore
    have h := (still_deliverable_iff usedPics [.enable 7, .raise 7, .interrupt]
      (by decide)).mp hmore 7 (by rw [hlog]; exact List.mem_singleton_self _) (by decide)
    exact absurd h (by decide)

/-- In a kernel that enables only the lines of its own handlers, every request that no mask
holds back reaches its handler, whatever is in service. -/
theorem kernel_requests_served (pics : Pair) (events : List (LineEvent Nat)) {n : Nat}
    (hkernel : ∀ m, .enable m ∈ events → handled m = true ∨ m = irqPin) (hn : n ∈ lines.order) :
    (∃ more, (∀ e ∈ more, Lines.Settling e) ∧
        irqBase + n ∈ ((State.boot pics).run events).log more) ↔
      ((State.boot pics).run events).requested n = true := by
  have hrun := ((agrees_boot pics).run events).1
  -- an enabled line of a device has a handler
  have henabled : ∀ m ∈ lines.order, start.enabled m = true ∨ .enable m ∈ events →
      handled m = true := by
    intro m hm h
    have hm2 := (mem_order.mp hm).2
    rcases h with h | h
    · exact absurd (of_decide_eq_true h) hm2
    · exact (hkernel m h).resolve_right hm2
  simp only [hrun.mem_log]
  rw [Lines.served_iff hn]
  constructor
  · exact fun hfree => hrun.requested_iff hn ▸ hfree.heard
  · intro hreq
    refine ⟨(hrun.requested_iff hn).trans hreq, fun m hm hzero => ?_, fun m hm _ hheard => ?_⟩
    · have hlog := (Lines.endless_iff events).mp hzero
      have hhandled := henabled m hm (Lines.enabled_of_mem_log events
        (hlog.resolve_left (by simp [start])).2)
      rw [acks_eq_zero.mp (hlog.resolve_left (by simp [start])).1] at hhandled
      exact absurd hhandled (by decide)
    · simp only [Lines.heard, Bool.and_eq_true] at hheard
      have hhandled := henabled m hm (Lines.enabled_run events hheard.1.2)
      rw [ne_eq, acks_eq_zero, hhandled]
      decide

theorem kernel_requests_served_mouse :
    ∃ more, (∀ e ∈ more, Lines.Settling e) ∧
      irqBase + mouseIrqPin ∈ ((State.boot usedPics).run
        [.enable pitIrqPin, .enable mouseIrqPin, .raise pitIrqPin, .interrupt,
          .raise mouseIrqPin]).log more :=
  (kernel_requests_served usedPics
    [.enable pitIrqPin, .enable mouseIrqPin, .raise pitIrqPin, .interrupt, .raise mouseIrqPin]
    (fun m hm => by
      simp only [List.mem_cons, LineEvent.enable.injEq, reduceCtorEq, List.not_mem_nil, or_false]
        at hm
      rcases hm with rfl | rfl <;> decide) (by decide)).mpr (by decide +kernel)

end Interrupt
end NochOS
