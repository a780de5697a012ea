import Mathlib.Data.Nat.Find
import Mathlib.Logic.Function.Basic
import Mathlib.Tactic.Common

/-!
# Library - One display, several contents

One of several contents is shown at a time, and leaving a content touches it up.
When touching up twice is the same as touching up once, what a content has become
depends only on whether it was left before, and showing it again brings back what
was there when it was last left exactly if touching up changes nothing of it.

Main results:

- Theorem `Views.content_run`: every content after any sequence of switches.
- Theorem `Views.return_iff`: whether every content comes back as it was left.
-/

namespace NochOS
namespace Library

/-- Contents, and which of them is shown. -/
@[ext]
structure Views (ι α : Type*) where
  shown : ι
  content : ι → α

namespace Views

variable {ι α : Type*} [DecidableEq ι]

/-- Show another content; the one that is left is touched up. -/
def switch (leave : α → α) (v : Views ι α) (s : ι) : Views ι α :=
  if s = v.shown then v
  else { shown := s, content := Function.update v.content v.shown (leave (v.content v.shown)) }

/-- The `i`-th of a sequence of shown contents is left with the next switch. -/
def LeftAt (d : Nat → ι) (s : ι) (i : Nat) : Prop := d i = s ∧ d (i + 1) ≠ s

/-- The content is left with the switch after `i` and shown again after `j` switches,
but not in between. -/
structure Returns (d : Nat → ι) (s : ι) (i j : Nat) : Prop where
  left : LeftAt d s i
  later : i < j
  back : d j = s
  away : ∀ k, i < k → k < j → d k ≠ s

/-- What the sequence of switches to `d` makes of the contents. -/
structure Run (leave : α → α) (d : Nat → ι) (v : Nat → Views ι α) : Prop where
  shown : ∀ k, (v k).shown = d k
  step : ∀ k, v (k + 1) = switch leave (v k) (d (k + 1))

variable {leave : α → α} {d : Nat → ι} {v : Nat → Views ι α}

/-- A content that was left is touched up; every other is as at the start. -/
theorem content_run (hrun : Run leave d v) (hidem : ∀ a, leave (leave a) = leave a) (s : ι)
    (k : Nat) :
    ((∃ i < k, LeftAt d s i) ∧ (v k).content s = leave ((v 0).content s)) ∨
      ((∀ i < k, ¬ LeftAt d s i) ∧ (v k).content s = (v 0).content s) := by
  induction k with
  | zero => exact Or.inr ⟨fun i hi => absurd hi (Nat.not_lt_zero i), rfl⟩
  | succ k ih =>
      have hstep := hrun.step k
      unfold switch at hstep
      rw [hrun.shown k] at hstep
      by_cases hleft : LeftAt d s k
      · have hne : d (k + 1) ≠ d k := fun heq => hleft.2 (heq.trans hleft.1)
        rw [if_neg hne] at hstep
        have hcontent : (v (k + 1)).content s = leave ((v k).content s) := by
          rw [hstep, hleft.1]
          exact Function.update_self ..
        refine Or.inl ⟨⟨k, Nat.lt_succ_self k, hleft⟩, ?_⟩
        rcases ih with ⟨-, hk⟩ | ⟨-, hk⟩
        · rw [hcontent, hk, hidem]
        · rw [hcontent, hk]
      · have hcontent : (v (k + 1)).content s = (v k).content s := by
          by_cases hsame : d (k + 1) = d k
          · rw [hstep, if_pos hsame]
          · rw [hstep, if_neg hsame]
            refine Function.update_of_ne ?_ _ _
            intro hs
            exact hleft ⟨hs.symm, fun heq => hsame (heq.trans hs)⟩
        rw [hcontent]
        rcases ih with ⟨⟨i, hi, hi'⟩, hk⟩ | ⟨hnone, hk⟩
        · exact Or.inl ⟨⟨i, Nat.lt_succ_of_lt hi, hi'⟩, hk⟩
        · refine Or.inr ⟨?_, hk⟩
          intro i hi
          rcases Nat.lt_succ_iff_lt_or_eq.mp hi with hlt | rfl
          · exact hnone i hlt
          · exact hleft

/-- When a content is shown again, it is as it was last left, touched up. -/
theorem content_return (hrun : Run leave d v) (hidem : ∀ a, leave (leave a) = leave a) {s : ι}
    {i j : Nat} (hret : Returns d s i j) :
    (v j).content s = leave ((v i).content s) ∧ (v j).content s = leave ((v 0).content s) := by
  have hj : (v j).content s = leave ((v 0).content s) := by
    rcases content_run hrun hidem s j with ⟨-, hj⟩ | ⟨hnone, -⟩
    · exact hj
    · exact absurd hret.left (hnone i hret.later)
  refine ⟨?_, hj⟩
  rcases content_run hrun hidem s i with ⟨-, hi⟩ | ⟨-, hi⟩
  · rw [hj, hi, hidem]
  · rw [hj, hi]

/-- A content that comes back after it was left came back after it was left for the
first time. -/
theorem first_return {s : ι} {i j : Nat} (hret : Returns d s i j) :
    ∃ i' j', Returns d s i' j' ∧ ∀ k < i', ¬ LeftAt d s k := by
  classical
  have hex : ∃ k, LeftAt d s k := ⟨i, hret.left⟩
  obtain ⟨i', hi', hfirst⟩ : ∃ i', LeftAt d s i' ∧ ∀ k < i', ¬ LeftAt d s k :=
    ⟨Nat.find hex, Nat.find_spec hex, fun k hk => Nat.find_min hex hk⟩
  have hle : i' ≤ i := by
    by_contra hlt
    exact hfirst i (by omega) hret.left
  have hback : ∃ k, i' < k ∧ d k = s := ⟨j, lt_of_le_of_lt hle hret.later, hret.back⟩
  refine ⟨i', Nat.find hback, ⟨hi', (Nat.find_spec hback).1, (Nat.find_spec hback).2, ?_⟩, hfirst⟩
  intro k hlo hhi heq
  exact Nat.find_min hback hhi ⟨hlo, heq⟩

/-- A content comes back as it was left, every time, exactly if touching it up at the
start changes nothing or it never comes back. -/
theorem return_iff (hrun : Run leave d v) (hidem : ∀ a, leave (leave a) = leave a) (s : ι) :
    (∀ i j, Returns d s i j → (v j).content s = (v i).content s) ↔
      ∀ i j, Returns d s i j → leave ((v 0).content s) = (v 0).content s := by
  constructor
  · intro hkeep i j hret
    obtain ⟨i', j', hret', hfirst⟩ := first_return hret
    rcases content_run hrun hidem s i' with ⟨⟨k, hk, hleft⟩, -⟩ | ⟨-, hi'⟩
    · exact absurd hleft (hfirst k hk)
    · rw [← (content_return hrun hidem hret').2, hkeep i' j' hret', hi']
  · intro hsame i j hret
    obtain ⟨-, hj⟩ := content_return hrun hidem hret
    rw [hj, hsame i j hret]
    rcases content_run hrun hidem s i with ⟨-, hi⟩ | ⟨-, hi⟩
    · rw [hi, hsame i j hret]
    · exact hi.symm

end Views
end Library
end NochOS
