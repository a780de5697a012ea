import NochOS.Library.Ports
import Mathlib.Tactic.Common

/-!
# Clock - The interval timer

This module embeds `pit.c` and `time.c`: the reload value of the timer, the counter of
milliseconds that its interrupt advances, and the loop of `sleep`.  The scheduler that the
interrupt calls is left out.

Main results:

- Definitions `pitSetFreq`, `pitHandler`, `sleepDone`: the driver.
- Theorem `pitSetFreq_nearest_iff`: the frequencies for which the reload value is the best one.
- Theorem `countMs_pulses`: the counter after any number of pulses of the oscillator.
- Theorem `sleep_lasts`: how long `sleep` lasts.
-/

namespace NochOS
namespace Clock

open Library

/-! ## The code -/

/-- `CH0_DATA_PORT`. -/
def ch0DataPort : Nat := 0x40

/-- `PIT_CMD_PORT`. -/
def pitCmdPort : Nat := 0x43

/-- `CH0_RATE_CMD`. -/
def ch0RateCmd : Nat := 0x34

/-- `PIT_MAX_FREQ`. -/
def pitMaxFreq : Nat := 1193181

/-- `PIT_MAX_DIV`. -/
def pitMaxDiv : Nat := 1

/-- `PIT_MIN_FREQ`. -/
def pitMinFreq : Nat := 18

/-- `PIT_MIN_DIV`. -/
def pitMinDiv : Nat := 65535

/-- `MS_FREQ`. -/
def msFreq : Nat := 1000

/-- The end of `pit_set_freq`, which writes the reload value. -/
def writeDivisor (divisor : Nat) : Program Port Unit := do
  outb ch0RateCmd pitCmdPort
  outb (divisor &&& 0xFF) ch0DataPort
  outb (divisor >>> 8) ch0DataPort

/-- `pit_set_freq`.  The frequency is cut to sixteen bits before it divides. -/
def pitSetFreq (freq : Nat) : Program Port Unit :=
  if freq ≤ pitMinFreq then writeDivisor pitMinDiv
  else if freq ≥ pitMaxFreq then writeDivisor pitMaxDiv
  else if freq % 65536 = 0 then .stuck
  else writeDivisor (pitMaxFreq / (freq % 65536) % 65536)

/-- `pit_handler`, for `system_time.count_ms`. -/
def pitHandler (countMs : BitVec 32) : BitVec 32 := countMs + 1#32

/-- Channel 0: a low byte that waits for its high byte, the reload value and the pulses
that are left. -/
structure Counter where
  low : Option Nat
  reload : Nat
  left : Nat

/-- A count of zero stands for 65536. -/
def fullCount (n : Nat) : Nat := if n = 0 then 65536 else n

/-- The channel behind its ports, as a rate generator with two bytes. -/
def channel : Device Port Counter where
  read _ c := (0xFF, c)
  write r v c :=
    if r = .byte pitCmdPort ∧ v = ch0RateCmd then { c with low := none }
    else if r = .byte ch0DataPort then
      match c.low with
      | none => { c with low := some (v % 256) }
      | some l =>
          ⟨none, fullCount (l + 256 * (v % 256)), fullCount (l + 256 * (v % 256))⟩
    else c

theorem run_writeDivisor {divisor : Nat} (hlt : divisor < 65536) (c : Counter) :
    (writeDivisor divisor).run channel c =
      some ((), ⟨none, fullCount divisor, fullCount divisor⟩) := by
  have hlow : divisor &&& 0xFF = divisor % 256 := Nat.and_two_pow_sub_one_eq_mod divisor 8
  have hhigh : divisor >>> 8 = divisor / 256 := Nat.shiftRight_eq_div_pow divisor 8
  have hbytes : divisor % 256 % 256 + 256 * (divisor / 256 % 256) = divisor := by omega
  have hports : (Port.byte ch0DataPort) ≠ .byte pitCmdPort := by decide
  simp only [writeDivisor, outb, Program.run_output_bind, Program.run_output, channel, hlow,
    hhigh, hports, false_and, and_self, if_true, if_false, hbytes]

/-- A reload value other than zero. -/
theorem run_writeDivisor_pos {divisor : Nat} (hpos : 0 < divisor) (hlt : divisor < 65536)
    (c : Counter) :
    (writeDivisor divisor).run channel c = some ((), ⟨none, divisor, divisor⟩) := by
  rw [run_writeDivisor hlt, fullCount, if_neg (Nat.ne_of_gt hpos)]

/-- A reload value for a frequency: the greatest one of sixteen bits at which the interrupts
still come as often as wanted, or the smallest one where none does. -/
structure Nearest (freq divisor : Nat) : Prop where
  pos : 0 < divisor
  short : divisor < 65536
  reaches : divisor * freq ≤ pitMaxFreq ∨ divisor = 1
  greatest : ∀ d < 65536, d * freq ≤ pitMaxFreq → d ≤ divisor

theorem Nearest.le {freq d d' : Nat} (h : Nearest freq d) (h' : Nearest freq d') : d ≤ d' := by
  rcases h.reaches with hle | rfl
  · exact h'.greatest d h.short hle
  · exact h'.pos

theorem Nearest.unique {freq d d' : Nat} (h : Nearest freq d) (h' : Nearest freq d') : d = d' :=
  Nat.le_antisymm (h.le h') (h'.le h)

theorem nearest_minDiv {freq : Nat} (h : freq ≤ pitMinFreq) : Nearest freq pitMinDiv where
  pos := by decide
  short := by decide
  reaches := Or.inl (Nat.le_trans (Nat.mul_le_mul_left _ h) (by decide))
  greatest _ hd _ := Nat.le_of_lt_succ hd

theorem nearest_maxDiv {freq : Nat} (h : pitMaxFreq ≤ freq) : Nearest freq pitMaxDiv where
  pos := by decide
  short := by decide
  reaches := Or.inr rfl
  greatest d _ hle := by
    have hmul : d * pitMaxFreq ≤ 1 * pitMaxFreq := by
      rw [Nat.one_mul]
      exact Nat.le_trans (Nat.mul_le_mul_left d h) hle
    exact Nat.le_of_mul_le_mul_right hmul (by decide)

theorem nearest_div {freq : Nat} (hmin : pitMinFreq < freq) (hmax : freq < pitMaxFreq) :
    Nearest freq (pitMaxFreq / freq) where
  pos := Nat.div_pos (Nat.le_of_lt hmax) (Nat.zero_lt_of_lt hmin)
  short := by
    have hfreq : 18 < freq := hmin
    rw [Nat.div_lt_iff_lt_mul (Nat.zero_lt_of_lt hmin), pitMaxFreq]
    omega
  reaches := Or.inl (Nat.div_mul_le_self _ _)
  greatest d _ hle := (Nat.le_div_iff_mul_le (Nat.zero_lt_of_lt hmin)).mpr hle

/-- The frequency without its upper bits gives another quotient. -/
theorem div_cut_ne {freq : Nat} (hlong : 65536 ≤ freq) (hmax : freq < pitMaxFreq)
    (hcut : freq % 65536 ≠ 0) :
    pitMaxFreq / (freq % 65536) % 65536 ≠ pitMaxFreq / freq := by
  have hlt : freq % 65536 < 65536 := Nat.mod_lt _ (by decide)
  have hsplit := Nat.div_add_mod freq 65536
  by_cases hsmall : freq % 65536 < 19
  · -- the quotient has more than sixteen bits
    have hupper : freq / 65536 < 19 := by
      rw [pitMaxFreq] at hmax
      omega
    have hall : ∀ k < 19, ∀ m < 19, m ≠ 0 →
        pitMaxFreq / m % 65536 ≠ pitMaxFreq / (65536 * k + m) ∨ k = 0 := by decide
    rcases hall _ hupper _ hsmall hcut with hne | hzero
    · rw [hsplit] at hne
      exact hne
    · omega
  · have hquotient : pitMaxFreq / (freq % 65536) < 65536 := by
      rw [Nat.div_lt_iff_lt_mul (by omega), pitMaxFreq]
      omega
    rw [Nat.mod_eq_of_lt hquotient]
    intro heq
    -- both quotients are 18, and a frequency with this quotient has few lower bits
    have hle : pitMaxFreq / freq ≤ 18 := by
      rw [← Nat.lt_succ_iff, Nat.div_lt_iff_lt_mul (by omega), pitMaxFreq]
      omega
    have hge : 18 ≤ pitMaxFreq / (freq % 65536) := by
      rw [Nat.le_div_iff_mul_le (by omega), pitMaxFreq]
      omega
    have heighteen : 18 * freq ≤ pitMaxFreq := by
      rw [← Nat.le_div_iff_mul_le (by omega)]
      omega
    have hnineteen : pitMaxFreq / (freq % 65536) < 19 := by omega
    rw [Nat.div_lt_iff_lt_mul (by omega)] at hnineteen
    rw [pitMaxFreq] at heighteen hnineteen
    omega

/-- `pit_set_freq` sets the timer to the reload value nearest to the frequency if and only if
the frequency has at most sixteen bits, or is at least the highest one. -/
theorem pitSetFreq_nearest_iff (freq : Nat) (c : Counter) :
    (∃ divisor, (pitSetFreq freq).run channel c = some ((), ⟨none, divisor, divisor⟩) ∧
        Nearest freq divisor) ↔ freq < 65536 ∨ pitMaxFreq ≤ freq := by
  by_cases hlow : freq ≤ pitMinFreq
  · refine iff_of_true ⟨pitMinDiv, ?_, nearest_minDiv hlow⟩
      (Or.inl (Nat.lt_of_le_of_lt hlow (by decide)))
    rw [pitSetFreq, if_pos hlow, run_writeDivisor_pos (by decide) (by decide)]
  have hmin := Nat.lt_of_not_le hlow
  by_cases hhigh : freq ≥ pitMaxFreq
  · refine iff_of_true ⟨pitMaxDiv, ?_, nearest_maxDiv hhigh⟩ (Or.inr hhigh)
    rw [pitSetFreq, if_neg hlow, if_pos hhigh, run_writeDivisor_pos (by decide) (by decide)]
  have hmax := Nat.lt_of_not_le hhigh
  have hnearest := nearest_div hmin hmax
  rw [pitSetFreq, if_neg hlow, if_neg hhigh]
  by_cases hshort : freq < 65536
  · refine iff_of_true ⟨_, ?_, hnearest⟩ (Or.inl hshort)
    have hne : freq % 65536 ≠ 0 := by
      rw [Nat.mod_eq_of_lt hshort]
      exact Nat.ne_zero_of_lt hmin
    rw [if_neg hne, Nat.mod_eq_of_lt hshort, Nat.mod_eq_of_lt hnearest.short,
      run_writeDivisor_pos hnearest.pos hnearest.short]
  · refine iff_of_false ?_ fun h => h.elim hshort hhigh
    rintro ⟨divisor, hrun, hdivisor⟩
    by_cases hcut : freq % 65536 = 0
    · -- the division by zero
      rw [if_pos hcut] at hrun
      cases hrun
    · have hne := div_cut_ne (Nat.le_of_not_lt hshort) hmax hcut
      have hfull : fullCount (pitMaxFreq / (freq % 65536) % 65536) = divisor := by
        rw [if_neg hcut, run_writeDivisor (Nat.mod_lt _ (by decide))] at hrun
        cases hrun
        rfl
      rw [hdivisor.unique hnearest, fullCount] at hfull
      split at hfull
      · exact absurd hnearest.short (hfull ▸ Nat.lt_irrefl _)
      · exact hne hfull

/-! ## The time -/

/-- The timer and `system_time.count_ms`. -/
structure Time where
  counter : Counter
  countMs : BitVec 32

namespace Time

/-- One pulse of the oscillator, and the interrupt at the end of the count. -/
def pulse (t : Time) : Time :=
  if t.counter.left ≤ 1 then
    ⟨{ t.counter with left := t.counter.reload }, pitHandler t.countMs⟩
  else { t with counter := { t.counter with left := t.counter.left - 1 } }

/-- Pulses in a row. -/
def pulses (t : Time) : Nat → Time
  | 0 => t
  | n + 1 => (t.pulses n).pulse

/-- `system_time_init`, with the `pit_init` it calls. -/
def systemTimeInit (c : Counter) : Time :=
  ⟨((pitSetFreq msFreq).run channel c).elim c Prod.snd, 0#32⟩

/-- The timer counts with a period. -/
structure Counts (period : Nat) (t : Time) : Prop where
  reload : t.counter.reload = period
  pos : 0 < t.counter.left
  le : t.counter.left ≤ period

variable {period : Nat} {t : Time}

/-- The interrupts in `n` pulses are the full periods, counted from the last one. -/
theorem pulses_spec (h : Counts period t) (n : Nat) :
    Counts period (t.pulses n) ∧
      (t.pulses n).countMs =
        t.countMs + BitVec.ofNat 32 ((n + (period - t.counter.left)) / period) ∧
      (t.pulses n).counter.left = period - (n + (period - t.counter.left)) % period := by
  have hpos : 0 < period := Nat.lt_of_lt_of_le h.pos h.le
  induction n with
  | zero =>
      have hlt : 0 + (period - t.counter.left) < period := by
        have := h.pos
        omega
      rw [Nat.div_eq_of_lt hlt, Nat.mod_eq_of_lt hlt]
      refine ⟨h, ?_, ?_⟩
      · simp [pulses]
      · have := h.le
        rw [pulses]
        omega
  | succ n ih =>
      obtain ⟨hcounts, hcount, hleft⟩ := ih
      have hsplit := Nat.div_add_mod (n + (period - t.counter.left)) period
      have hrest := Nat.mod_lt (n + (period - t.counter.left)) hpos
      by_cases hlast : (n + (period - t.counter.left)) % period + 1 = period
      · -- the count ends: one more interrupt
        obtain ⟨hdiv, hmod⟩ := (Nat.div_mod_unique hpos
          (a := n + 1 + (period - t.counter.left)) (c := 0)
          (d := (n + (period - t.counter.left)) / period + 1)).mpr
            ⟨by rw [Nat.mul_succ]; omega, hpos⟩
        rw [hdiv, hmod, pulses, pulse, if_pos (by omega)]
        refine ⟨⟨hcounts.reload, ?_, ?_⟩, ?_, ?_⟩
        · exact hcounts.reload.symm ▸ hpos
        · exact Nat.le_of_eq hcounts.reload
        · rw [pitHandler, hcount, BitVec.ofNat_add, BitVec.add_assoc]
        · exact hcounts.reload
      · obtain ⟨hdiv, hmod⟩ := (Nat.div_mod_unique hpos
          (a := n + 1 + (period - t.counter.left))
          (c := (n + (period - t.counter.left)) % period + 1)
          (d := (n + (period - t.counter.left)) / period)).mpr ⟨by omega, by omega⟩
        rw [hdiv, hmod, pulses, pulse, if_neg (by omega)]
        refine ⟨⟨hcounts.reload, ?_, ?_⟩, hcount, ?_⟩
        · change 0 < (t.pulses n).counter.left - 1
          omega
        · change (t.pulses n).counter.left - 1 ≤ period
          omega
        · change (t.pulses n).counter.left - 1 = _
          omega

/-- The reload value for one interrupt in a millisecond. -/
theorem run_pitInit (c : Counter) :
    (pitSetFreq msFreq).run channel c = some ((), ⟨none, 1193, 1193⟩) :=
  run_writeDivisor_pos (by decide) (by decide) c

/-- The timer from its start on. -/
theorem counts_init (c : Counter) : Counts 1193 (systemTimeInit c) := by
  rw [systemTimeInit, run_pitInit]
  exact ⟨rfl, Nat.succ_pos 1192, Nat.le_refl _⟩

/-- The counter after any number of pulses since the start. -/
theorem countMs_pulses (c : Counter) (n : Nat) :
    ((systemTimeInit c).pulses n).countMs = BitVec.ofNat 32 (n / 1193) := by
  have hleft : (systemTimeInit c).counter.left = 1193 := by
    rw [systemTimeInit, run_pitInit]
    rfl
  rw [(pulses_spec (counts_init c) n).2.1, hleft, Nat.sub_self, Nat.add_zero]
  exact BitVec.zero_add _

end Time

end Clock
end NochOS
