import NochOS.Library.Ports
import Mathlib.Logic.Function.Basic
import Mathlib.Tactic.Common

/-!
# Clock - The real-time clock

This module embeds `rtc.c` over the registers of the clock.  System calls run with
interrupts disabled up to the `sti` of `rtc_fread`, so opening and writing are single
steps, and a read is a call and any number of looks at `wait`, between which everything
else may happen.  The way of an interrupt through the controllers is left out here.

Main results:

- Definitions `rtcInit`, `rtcRate`, `rtcFopen`, `rtcFwrite`, `rtcHandler`: the driver.
- Theorem `rtcRate_spec`: the frequencies that are accepted, and the rate they get.
- Theorem `ticks_as_requested`: in every run the clock ticks at the frequency that the last
  open or accepted write asked for.
- Theorem `read_returns`: a read returns after an interrupt and not before.
- Theorems `read_alone`, `read_overtaken`: the interrupts that a reader notices, if it is the
  only one and if it is not.
-/

namespace NochOS
namespace Clock

open Library

/-! ## The code -/

/-- `INDEX_PORT`. -/
def indexPort : Nat := 0x70

/-- `VALUE_PORT`. -/
def valuePort : Nat := 0x71

/-- `REG_A_NMI_OFF`. -/
def regANmiOff : Nat := 0x8A

/-- `REG_B_NMI_OFF`. -/
def regBNmiOff : Nat := 0x8B

/-- `PRIODIC_INT_ON`. -/
def priodicIntOn : Nat := 0x40

/-- `DISABLE_ALARM`. -/
def disableAlarm : Nat := 0xdf

/-- `MASK_KEEP_SETTINGS`. -/
def maskKeepSettings : Nat := 0xf0

/-- `SHIFT_MAX`. -/
def shiftMax : Nat := 15

/-- `MAX_REP`. -/
def maxRep : Nat := 0x0400

/-- `rtc_handler`: the value of `wait` afterwards. -/
def rtcHandler : Program Port Nat := do
  outb 0x0C indexPort
  let _ ← inb valuePort
  pure 1

/-- The rate in register A, which `rtc_init`, `rtc_fopen` and `rtc_fwrite` write. -/
def writeRate (rate : Nat) : Program Port Unit := do
  outb regANmiOff indexPort
  let prev ← inb valuePort
  outb regANmiOff indexPort
  outb ((prev &&& maskKeepSettings) ||| (0x0f &&& rate)) valuePort

/-- `rtc_init`: the value of `wait` afterwards. -/
def rtcInit : Program Port Nat := do
  outb regBNmiOff indexPort
  let prev ← inb valuePort
  outb regBNmiOff indexPort
  outb ((prev ||| priodicIntOn) &&& disableAlarm) valuePort
  writeRate 0xf
  pure 0

/-- The loop of `rtc_rate`. -/
def rtcRateFrom (frequency : Nat) : Nat → Int
  | 0 => -1
  | j + 1 =>
      if (frequency >>> (j + 1)) &&& 1 = 1 then
        if (frequency >>> (j + 1)) <<< (j + 1) ≠ frequency then -1
        else (shiftMax : Int) - (j + 1 : Nat) + 1
      else rtcRateFrom frequency j

/-- `rtc_rate`. -/
def rtcRate (frequency : Nat) : Int :=
  if frequency > maxRep then -1 else rtcRateFrom frequency shiftMax

/-- What `rtc_fopen` stores in the open file. -/
structure File where
  ino : Nat
  pos : Nat
deriving DecidableEq

/-- `rtc_fopen`. -/
def rtcFopen : Program Port (Int × File) := do
  writeRate 13
  pure (0, ⟨0, 0⟩)

/-- `rtc_fwrite`. -/
def rtcFwrite (buf : Buf) (nbytes : Nat) : Program Port Int :=
  if nbytes = 4 then
    if rtcRate (u16At buf 0) = -1 then pure (-1)
    else do
      writeRate (rtcRate (u16At buf 0)).toNat
      pure nbytes
  else pure (-1)

/-! ## The clock -/

/-- The registers of the clock that the driver uses: the index, the control registers A
and B, and whether register C asks for an interrupt. -/
structure Chip where
  index : Nat
  a : BitVec 8
  b : BitVec 8
  flagged : Bool

/-- The clock behind its ports.  Bit 7 of register A is the clock's own, and a read of
register C clears it. -/
def device : Device Port Chip where
  read r c :=
    if r = .byte valuePort then
      if c.index = 10 then (c.a.toNat, c)
      else if c.index = 11 then (c.b.toNat, c)
      else if c.index = 12 then (if c.flagged then 0xC0 else 0, { c with flagged := false })
      else (0xFF, c)
    else (0xFF, c)
  write r v c :=
    if r = .byte indexPort then { c with index := v % 128 }
    else if r = .byte valuePort ∧ c.index = 10 then
      { c with a := (c.a &&& 0x80#8) ||| (BitVec.ofNat 8 v &&& 0x7f#8) }
    else if r = .byte valuePort ∧ c.index = 11 then { c with b := BitVec.ofNat 8 v }
    else c

namespace Chip

/-- The rate in register A. -/
def rate (c : Chip) : Nat := c.a.toNat % 16

/-- The setting of the oscillator in register A. -/
def divider (c : Chip) : Nat := c.a.toNat / 16 % 8

/-- The periodic interrupts in a second, for an oscillator of 32768 Hz. -/
def hz (c : Chip) : Nat :=
  if c.b.getLsbD 6 then
    if c.rate = 0 then 0 else if c.rate < 3 then 512 >>> c.rate else 32768 >>> (c.rate - 1)
  else 0

/-- Another rate. -/
def setRate (c : Chip) (rate : Nat) : Chip where
  index := 10
  a := (c.a &&& 0x80#8) |||
    (BitVec.ofNat 8 ((c.a.toNat &&& maskKeepSettings) ||| (0x0f &&& rate)) &&& 0x7f#8)
  b := c.b
  flagged := c.flagged

/-- The seven bits of register A that the driver can write. -/
theorem setRate_a (c : Chip) {r : Nat} (hr : r < 16) :
    (c.setRate r).a.toNat % 128 = c.divider * 16 + r := by
  have h : ∀ r < 16, ∀ a : BitVec 8, ((a &&& 0x80#8) ||| (BitVec.ofNat 8
      ((a.toNat &&& maskKeepSettings) ||| (0x0f &&& r)) &&& 0x7f#8)).toNat % 128 =
        a.toNat / 16 % 8 * 16 + r := by
    decide +kernel
  exact h r hr c.a

theorem rate_setRate (c : Chip) {r : Nat} (hr : r < 16) : (c.setRate r).rate = r := by
  have h := c.setRate_a hr
  rw [rate]
  omega

theorem divider_setRate (c : Chip) {r : Nat} (hr : r < 16) : (c.setRate r).divider = c.divider := by
  have h := c.setRate_a hr
  rw [divider]
  omega

/-- The periodic interrupts after a change of the rate. -/
theorem hz_setRate (c : Chip) {r : Nat} (hlow : 3 ≤ r) (hr : r < 16)
    (hb : c.b.getLsbD 6 = true) : (c.setRate r).hz = 32768 >>> (r - 1) := by
  have hb' : (c.setRate r).b.getLsbD 6 = true := hb
  rw [hz, if_pos hb', rate_setRate c hr, if_neg (by omega), if_neg (by omega)]

end Chip

theorem run_writeRate (rate : Nat) (c : Chip) :
    (writeRate rate).run device c = some ((), c.setRate rate) := rfl

theorem run_rtcHandler (c : Chip) :
    rtcHandler.run device c = some (1, { c with index := 12, flagged := false }) := rfl

theorem run_rtcFopen (c : Chip) :
    rtcFopen.run device c = some ((0, ⟨0, 0⟩), c.setRate 13) := rfl

/-- The control register B after the start. -/
def started (b : BitVec 8) : BitVec 8 :=
  BitVec.ofNat 8 ((b.toNat ||| priodicIntOn) &&& disableAlarm)

theorem run_rtcInit (c : Chip) :
    rtcInit.run device c = some (0, { c with b := started c.b }.setRate 0xf) := rfl

/-- The start turns the periodic interrupt on and the alarm off. -/
theorem started_bits (b : BitVec 8) :
    (started b).getLsbD 6 = true ∧ (started b).getLsbD 5 = false := by
  have h : ∀ b : BitVec 8, (started b).getLsbD 6 = true ∧ (started b).getLsbD 5 = false := by
    decide +kernel
  exact h b

/-- The frequencies that `rtc_rate` accepts: the powers of two from 2 to 1024. -/
def accepted (frequency : Nat) : Bool := (List.range' 1 10).any fun k => frequency = 2 ^ k

/-- An accepted frequency gets the rate at which the clock ticks so, and any other one
the error. -/
theorem rtcRate_spec (frequency : Nat) :
    if accepted frequency then
      ∃ r : Nat, rtcRate frequency = r ∧ 3 ≤ r ∧ r < 16 ∧ 32768 >>> (r - 1) = frequency
    else rtcRate frequency = -1 := by
  have hsmall : ∀ f < 1025, if accepted f then
      rtcRate f = ((rtcRate f).toNat : Int) ∧ 3 ≤ (rtcRate f).toNat ∧ (rtcRate f).toNat < 16 ∧
        32768 >>> ((rtcRate f).toNat - 1) = f
      else rtcRate f = -1 := by
    decide +kernel
  rcases Nat.lt_or_ge frequency 1025 with hlt | hge
  · have h := hsmall frequency hlt
    by_cases ha : accepted frequency = true
    · rw [if_pos ha] at h ⊢
      exact ⟨_, h⟩
    · rw [if_neg ha] at h ⊢
      exact h
  · have hnot : ¬ accepted frequency = true := by
      intro ha
      obtain ⟨k, hk, hf⟩ := List.any_eq_true.mp ha
      have hbound : ∀ k ∈ List.range' 1 10, 2 ^ k < 1025 := by decide
      have := hbound k hk
      have := of_decide_eq_true hf
      omega
    rw [if_neg hnot, rtcRate, if_pos (show frequency > maxRep from hge)]

/-- What a write asks for: the frequency is in the first two of its four bytes. -/
def asksFor (buf : Buf) (nbytes : Nat) : Option Nat :=
  if nbytes = 4 ∧ accepted (u16At buf 0) then some (u16At buf 0) else none

/-- A write that is accepted changes the rate, and any other write nothing. -/
theorem run_rtcFwrite (buf : Buf) (nbytes : Nat) (c : Chip) :
    (asksFor buf nbytes = none ∧ (rtcFwrite buf nbytes).run device c = some (-1, c)) ∨
    ∃ r, asksFor buf nbytes = some (32768 >>> (r - 1)) ∧ 3 ≤ r ∧ r < 16 ∧
      (rtcFwrite buf nbytes).run device c = some (4, c.setRate r) := by
  have hspec := rtcRate_spec (u16At buf 0)
  by_cases hn : nbytes = 4
  · by_cases ha : accepted (u16At buf 0) = true
    · rw [if_pos ha] at hspec
      obtain ⟨r, hrate, hlow, hr, hf⟩ := hspec
      refine Or.inr ⟨r, ?_, hlow, hr, ?_⟩
      · rw [asksFor, if_pos ⟨hn, ha⟩, hf]
      · rw [rtcFwrite, if_pos hn, hrate, if_neg (by omega), Int.toNat_natCast, hn]
        rfl
    · rw [if_neg ha] at hspec
      refine Or.inl ⟨?_, ?_⟩
      · rw [asksFor, if_neg (fun h => ha h.2)]
      · rw [rtcFwrite, if_pos hn, hspec, if_pos rfl]
        rfl
  · refine Or.inl ⟨?_, ?_⟩
    · rw [asksFor, if_neg (fun h => hn h.1)]
    · rw [rtcFwrite, if_neg hn]
      rfl

/-! ## Runs -/

/-- What can happen. -/
inductive Event where
  /-- `rtc_fopen`. -/
  | fopen
  /-- `rtc_fwrite`. -/
  | fwrite (buf : Buf) (nbytes : Nat)
  /-- A process calls `rtc_fread`. -/
  | fread (p : Nat)
  /-- A process in the loop of `rtc_fread` looks at `wait`. -/
  | look (p : Nat)
  /-- The period of the clock is over. -/
  | tick
  /-- The processor takes the interrupt of the clock, if there is one. -/
  | interrupt
  /-- The clock sets or clears its own bit of register A. -/
  | update (on : Bool)

/-- The clock, `wait`, the processes in the loop of `rtc_fread`, and the number of
interrupts that were handled. -/
structure State where
  chip : Chip
  wait : Nat
  reading : Nat → Bool
  handled : Nat

/-- The clock after a program of the driver. -/
def Chip.after {α : Type} (c : Chip) (m : Program Port α) : Chip :=
  (m.run device c).elim c Prod.snd

namespace State

/-- After `rtc_init`. -/
def start (c : Chip) : State := ⟨c.after rtcInit, 0, fun _ => false, 0⟩

/-- One event. -/
def step (s : State) : Event → State
  | .fopen => { s with chip := s.chip.after rtcFopen }
  | .fwrite buf nbytes => { s with chip := s.chip.after (rtcFwrite buf nbytes) }
  | .fread p => if s.reading p then s
      else { s with wait := 0, reading := Function.update s.reading p true }
  | .look p => if s.wait = 0 then s
      else { s with reading := Function.update s.reading p false }
  | .tick => { s with chip := { s.chip with flagged := s.chip.flagged || s.chip.b.getLsbD 6 } }
  | .interrupt => if s.chip.flagged then
      { s with chip := s.chip.after rtcHandler, wait := 1, handled := s.handled + 1 } else s
  | .update on =>
      { s with chip := { s.chip with
          a := if on then s.chip.a ||| 0x80#8 else s.chip.a &&& 0x7f#8 } }

/-- Events in a row. -/
def run (s : State) (es : List Event) : State := es.foldl step s

@[simp] theorem run_nil (s : State) : s.run [] = s := rfl

@[simp] theorem run_cons (s : State) (e : Event) (es : List Event) :
    s.run (e :: es) = (s.step e).run es := rfl

theorem run_append (s : State) (es more : List Event) :
    s.run (es ++ more) = (s.run es).run more := List.foldl_append

end State

/-- The frequency that was asked for last. -/
def request (frequency : Nat) : Event → Nat
  | .fopen => 8
  | .fwrite buf nbytes => (asksFor buf nbytes).getD frequency
  | _ => frequency

/-- The frequency after a run: 2 Hz from `rtc_init` on, 8 Hz after an open. -/
def requested (es : List Event) : Nat := es.foldl request 2

/-! ## The frequency -/

/-- The clock ticks with a frequency. -/
structure Ticks (divider hz : Nat) (c : Chip) : Prop where
  divider : c.divider = divider
  hz : c.hz = hz
  periodic : c.b.getLsbD 6 = true
  alarm : c.b.getLsbD 5 = false

theorem Ticks.setRate {divider hz : Nat} {c : Chip} (h : Ticks divider hz c) {r : Nat}
    (hlow : 3 ≤ r) (hr : r < 16) : Ticks divider (32768 >>> (r - 1)) (c.setRate r) where
  divider := (c.divider_setRate hr).trans h.divider
  hz := c.hz_setRate hlow hr h.periodic
  periodic := h.periodic
  alarm := h.alarm

/-- The clock's own bit has no part in the rate. -/
theorem Ticks.update {divider hz : Nat} {c : Chip} (h : Ticks divider hz c) (on : Bool) :
    Ticks divider hz { c with a := if on then c.a ||| 0x80#8 else c.a &&& 0x7f#8 } := by
  have hlow : ∀ on : Bool, ∀ a : BitVec 8,
      (if on then a ||| 0x80#8 else a &&& 0x7f#8).toNat % 128 = a.toNat % 128 := by
    decide +kernel
  have ha := hlow on c.a
  have hrate : (if on then c.a ||| 0x80#8 else c.a &&& 0x7f#8).toNat % 16 = c.a.toNat % 16 := by
    omega
  have hdivider : (if on then c.a ||| 0x80#8 else c.a &&& 0x7f#8).toNat / 16 % 8 =
      c.a.toNat / 16 % 8 := by
    omega
  refine ⟨hdivider.trans h.divider, ?_, h.periodic, h.alarm⟩
  rw [← h.hz, Chip.hz, Chip.hz, Chip.rate, Chip.rate, hrate]

theorem Ticks.step {divider hz : Nat} {s : State} (h : Ticks divider hz s.chip) (e : Event) :
    Ticks divider (request hz e) (s.step e).chip := by
  cases e with
  | fopen => exact h.setRate (r := 13) (by decide) (by decide)
  | fwrite buf nbytes =>
      rcases run_rtcFwrite buf nbytes s.chip with ⟨hnone, hrun⟩ | ⟨r, hsome, hlow, hr, hrun⟩
      · simp only [State.step, Chip.after, hrun, request, hnone]
        exact h
      · simp only [State.step, Chip.after, hrun, request, hsome]
        exact h.setRate hlow hr
  | fread p =>
      simp only [State.step]
      split <;> exact h
  | look p =>
      simp only [State.step]
      split <;> exact h
  | tick => exact ⟨h.divider, h.hz, h.periodic, h.alarm⟩
  | interrupt =>
      simp only [State.step]
      split
      · exact ⟨h.divider, h.hz, h.periodic, h.alarm⟩
      · exact h
  | update on => exact h.update on

theorem ticks_start (c : Chip) : Ticks c.divider 2 (State.start c).chip where
  divider := Chip.divider_setRate { c with b := started c.b } (by decide)
  hz := Chip.hz_setRate { c with b := started c.b } (by decide) (by decide) (started_bits c.b).1
  periodic := (started_bits c.b).1
  alarm := (started_bits c.b).2

theorem Ticks.run {divider : Nat} (es : List Event) : ∀ {hz : Nat} {s : State},
    Ticks divider hz s.chip → Ticks divider (es.foldl request hz) (s.run es).chip := by
  induction es with
  | nil => exact fun h => h
  | cons e es ih => exact fun h => ih (h.step e)

/-- From start-up on, whatever was in the registers before, the clock ticks as the last open
or accepted write asked for, its oscillator is set as before, and its alarm is off. -/
theorem ticks_as_requested (c : Chip) (es : List Event) :
    ((State.start c).run es).chip.hz = requested es ∧
      ((State.start c).run es).chip.divider = c.divider ∧
      ((State.start c).run es).chip.b.getLsbD 5 = false := by
  have h : Ticks c.divider (requested es) ((State.start c).run es).chip := (ticks_start c).run es
  exact ⟨h.hz, h.divider, h.alarm⟩

/-! ## Reading -/

/-- What a reader that called when `n` interrupts were handled relies on. -/
structure Waits (p n : Nat) (s : State) : Prop where
  since : n ≤ s.handled
  signal : s.wait ≠ 0 → n < s.handled
  returned : s.reading p = false → n < s.handled

theorem Waits.step {p n : Nat} {s : State} (h : Waits p n s) (e : Event) :
    Waits p n (s.step e) := by
  cases e with
  | fopen => exact ⟨h.since, h.signal, h.returned⟩
  | fwrite buf nbytes => exact ⟨h.since, h.signal, h.returned⟩
  | fread q =>
      simp only [State.step]
      split
      · exact h
      · refine ⟨h.since, fun hwait => absurd rfl hwait, fun hreading => h.returned ?_⟩
        by_cases hq : p = q
        · subst hq
          simp at hreading
        · exact (Function.update_of_ne hq true s.reading).symm.trans hreading
  | look q =>
      simp only [State.step]
      split
      · exact h
      next hwait => exact ⟨h.since, h.signal, fun _ => h.signal hwait⟩
  | tick => exact ⟨h.since, h.signal, h.returned⟩
  | interrupt =>
      simp only [State.step]
      split
      · have hmore : n < s.handled + 1 := Nat.lt_succ_of_le h.since
        exact ⟨Nat.le_of_lt hmore, fun _ => hmore, fun _ => hmore⟩
      · exact h
  | update on => exact ⟨h.since, h.signal, h.returned⟩

theorem Waits.run {p n : Nat} (es : List Event) : ∀ {s : State},
    Waits p n s → Waits p n (s.run es) := by
  induction es with
  | nil => exact fun h => h
  | cons e es ih => exact fun h => ih (h.step e)

/-- The call of a process that is not in the loop. -/
theorem waits_fread {p : Nat} {s : State} (h : s.reading p = false) :
    Waits p s.handled (s.step (.fread p)) := by
  simp only [State.step, h]
  refine ⟨Nat.le_refl _, fun hwait => absurd rfl hwait, fun hreading => ?_⟩
  simp at hreading

/-- One more period of the clock lets a reader go on. -/
theorem reading_period {s : State} (h : s.chip.b.getLsbD 6 = true) (p : Nat) :
    (s.run [.tick, .interrupt, .look p]).reading p = false := by
  simp [State.step, h]

/-- In every run a read returns only after an interrupt that came after its call, and in
every state it reaches one more period of the clock makes it return. -/
theorem read_returns (c : Chip) (es more : List Event) (p : Nat)
    (h : ((State.start c).run es).reading p = false) :
    (((State.start c).run (es ++ .fread p :: more)).reading p = false →
      ((State.start c).run es).handled <
        ((State.start c).run (es ++ .fread p :: more)).handled) ∧
      ((State.start c).run
        (es ++ .fread p :: (more ++ [.tick, .interrupt, .look p]))).reading p = false := by
  have hticks : Ticks c.divider (requested (es ++ .fread p :: more))
      ((State.start c).run (es ++ .fread p :: more)).chip := (ticks_start c).run _
  refine ⟨?_, ?_⟩
  · rw [State.run_append, State.run_cons]
    exact ((waits_fread h).run more).returned
  · rw [← List.cons_append, ← List.append_assoc, State.run_append]
    exact reading_period hticks.periodic p

theorem read_returns_first :
    (((State.start ⟨0, 0x26#8, 0x02#8, false⟩).run [.fread 1, .tick]).reading 1 = false →
      0 < ((State.start ⟨0, 0x26#8, 0x02#8, false⟩).run [.fread 1, .tick]).handled) ∧
      ((State.start ⟨0, 0x26#8, 0x02#8, false⟩).run
        [.fread 1, .tick, .tick, .interrupt, .look 1]).reading 1 = false :=
  read_returns ⟨0, 0x26#8, 0x02#8, false⟩ [] [.tick] 1 rfl

/-! ## One `wait` for all readers -/

/-- `wait` tells a reader what it asks, as long as no other process calls. -/
structure Told (n : Nat) (s : State) : Prop where
  since : n ≤ s.handled
  signal : s.wait ≠ 0 ↔ n < s.handled

theorem Told.step {n : Nat} {s : State} (h : Told n s) {e : Event} (he : ∀ q, e ≠ .fread q) :
    Told n (s.step e) := by
  cases e with
  | fopen => exact ⟨h.since, h.signal⟩
  | fwrite buf nbytes => exact ⟨h.since, h.signal⟩
  | fread q => exact absurd rfl (he q)
  | look q =>
      simp only [State.step]
      split
      · exact h
      · exact ⟨h.since, h.signal⟩
  | tick => exact ⟨h.since, h.signal⟩
  | interrupt =>
      simp only [State.step]
      split
      · have hmore : n < s.handled + 1 := Nat.lt_succ_of_le h.since
        exact ⟨Nat.le_of_lt hmore, iff_of_true Nat.one_ne_zero hmore⟩
      · exact h
  | update on => exact ⟨h.since, h.signal⟩

theorem Told.run {n : Nat} (es : List Event) : ∀ {s : State},
    (∀ q, Event.fread q ∉ es) → Told n s → Told n (s.run es) := by
  induction es with
  | nil => exact fun _ h => h
  | cons e es ih =>
      intro s hes h
      have he : ∀ q, e ≠ .fread q := fun q heq => hes q (heq ▸ List.mem_cons_self)
      exact ih (fun q hq => hes q (List.mem_cons_of_mem e hq)) (h.step he)

/-- What a look does. -/
theorem reading_look (s : State) (p : Nat) :
    (s.run [.look p]).reading p = false ↔ s.wait ≠ 0 ∨ s.reading p = false := by
  rw [State.run_cons, State.run_nil, State.step]
  split
  next hwait => simp [hwait]
  next hwait => simp [hwait]

/-- The only reader returns at a look exactly if an interrupt came after its call. -/
theorem read_alone (c : Chip) (es more : List Event) (p : Nat)
    (h : ((State.start c).run es).reading p = false) (halone : ∀ q, Event.fread q ∉ more) :
    ((State.start c).run (es ++ .fread p :: (more ++ [.look p]))).reading p = false ↔
      ((State.start c).run es).handled <
        ((State.start c).run (es ++ .fread p :: more)).handled := by
  have hwaits := (waits_fread h).run more
  have hcall : Told ((State.start c).run es).handled
      (((State.start c).run es).step (.fread p)) := by
    simp only [State.step, h]
    exact ⟨Nat.le_refl _, iff_of_false (fun hwait => hwait rfl) (Nat.lt_irrefl _)⟩
  have htold := hcall.run more halone
  have hend : (State.start c).run (es ++ .fread p :: more) =
      (((State.start c).run es).step (.fread p)).run more := by
    rw [State.run_append, State.run_cons]
  rw [← List.cons_append, ← List.append_assoc, State.run_append, hend, reading_look,
    ← htold.signal]
  exact ⟨fun hlook => hlook.elim id fun hreturned => htold.signal.mpr (hwaits.returned hreturned),
    Or.inl⟩

theorem read_alone_first :
    ((State.start ⟨0, 0x26#8, 0x02#8, false⟩).run
      [.fread 1, .tick, .interrupt, .look 1]).reading 1 = false ↔
      0 < ((State.start ⟨0, 0x26#8, 0x02#8, false⟩).run [.fread 1, .tick, .interrupt]).handled :=
  read_alone ⟨0, 0x26#8, 0x02#8, false⟩ [] [.tick, .interrupt] 1 rfl (by simp)

/-- A period in which another reader returns and calls again before the first one looks. -/
def overtaking (p q : Nat) : List Event := [.tick, .interrupt, .look q, .fread q, .look p]

theorem run_overtaking {p q : Nat} (hne : p ≠ q) {s : State} (hp : s.reading p = true)
    (hb : s.chip.b.getLsbD 6 = true) :
    (s.run (overtaking p q)).reading p = true ∧
      (s.run (overtaking p q)).chip.b.getLsbD 6 = true ∧
      (s.run (overtaking p q)).handled = s.handled + 1 := by
  have hafter : ∀ c : Chip, c.after rtcHandler = { c with index := 12, flagged := false } :=
    fun _ => rfl
  simp [overtaking, State.step, hb, hp, hafter, Function.update_of_ne hne]

/-- A run of such periods. -/
def overtaken (c : Chip) (p q n : Nat) : State :=
  (State.start c).run ([.fread p, .fread q] ++ (List.replicate n (overtaking p q)).flatten)

/-- With a second reader, a reader that looks after every interrupt can miss any number of
them. -/
theorem read_overtaken (c : Chip) {p q : Nat} (hne : p ≠ q) (n : Nat) :
    (overtaken c p q n).reading p = true ∧ (overtaken c p q n).handled = n := by
  have hrounds : ∀ n : Nat, ∀ s : State, s.reading p = true → s.chip.b.getLsbD 6 = true →
      (s.run (List.replicate n (overtaking p q)).flatten).reading p = true ∧
        (s.run (List.replicate n (overtaking p q)).flatten).handled = s.handled + n := by
    intro n
    induction n with
    | zero => exact fun s hp _ => ⟨hp, rfl⟩
    | succ n ih =>
        intro s hp hb
        obtain ⟨hp', hb', hhandled⟩ := run_overtaking hne hp hb
        obtain ⟨hend, hcount⟩ := ih _ hp' hb'
        rw [List.replicate_succ, List.flatten_cons, State.run_append]
        exact ⟨hend, by rw [hcount, hhandled]; omega⟩
  have hcalls : ((State.start c).run [.fread p, .fread q]).reading p = true ∧
      ((State.start c).run [.fread p, .fread q]).handled = 0 := by
    simp [State.step, State.start, Function.update_of_ne hne, Function.update_of_ne hne.symm]
  have hticks : Ticks c.divider (requested [.fread p, .fread q])
      ((State.start c).run [.fread p, .fread q]).chip := (ticks_start c).run _
  obtain ⟨hreading, hcount⟩ := hrounds n _ hcalls.1 hticks.periodic
  rw [overtaken, State.run_append]
  exact ⟨hreading, by rw [hcount, hcalls.2, Nat.zero_add]⟩

theorem read_overtaken_twice :
    (overtaken ⟨0, 0x26#8, 0x02#8, false⟩ 1 2 2).reading 1 = true ∧
      (overtaken ⟨0, 0x26#8, 0x02#8, false⟩ 1 2 2).handled = 2 :=
  read_overtaken ⟨0, 0x26#8, 0x02#8, false⟩ (by decide) 2

end Clock
end NochOS
