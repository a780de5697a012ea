import Mathlib.Logic.Relation
import Mathlib.Order.WellFounded
import Mathlib.Tactic.Common

/-!
# Library - Loops that access something

A loop is given by what one pass at a state accesses and by the state it goes on
with, if it does.  A loop is safe when it terminates and every access of every
prefix of its run is allowed.  Both are decided by the states the run visits.

Main results:

- Theorem `Loop.allowed_iff`: the accesses of a run are those of the visited states.
- Theorems `Loop.terminates_of_decreasing`, `Loop.not_terminates_of_closed`: a
  measure that decreases, and a set of states that the loop does not leave.
- Theorem `Loop.terminates_iff`: a terminating loop comes to a state at which it is left.
- Theorem `Loop.safe_iff`: safety as a condition on each visited state.
-/

namespace NochOS
namespace Library

universe u v w

/-- What a pass of a loop accesses, and where the loop goes on. -/
structure Loop (σ : Type u) (α : Type v) where
  accesses : σ → List α
  next : σ → Option σ

namespace Loop

variable {σ : Type u} {α : Type v} (l : Loop σ α)

/-- The accesses of the first passes, and whether the loop was left in them. -/
def run : Nat → σ → List α × Bool
  | 0, _ => ([], false)
  | n + 1, s =>
      match l.next s with
      | none => (l.accesses s, true)
      | some t => (l.accesses s ++ (run n t).1, (run n t).2)

/-- The loop is left after finitely many passes. -/
def Terminates (s : σ) : Prop := ∃ n, (l.run n s).2 = true

/-- The loop terminates and everything it accesses is allowed. -/
structure Safe (P : α → Prop) (s : σ) : Prop where
  terminates : l.Terminates s
  allowed : ∀ n, ∀ a ∈ (l.run n s).1, P a

/-- The states at the head of the passes. -/
inductive Visits (s : σ) : σ → Prop
  | start : Visits s s
  | step {t u : σ} : Visits s t → l.next t = some u → Visits s u

variable {l} {P : α → Prop} {s t u : σ}

theorem run_stop {n : Nat} (h : l.next s = none) : l.run (n + 1) s = (l.accesses s, true) := by
  rw [run, h]

theorem run_step {n : Nat} (h : l.next s = some t) :
    l.run (n + 1) s = (l.accesses s ++ (l.run n t).1, (l.run n t).2) := by
  rw [run, h]

/-- A visit that starts one pass later. -/
theorem Visits.head (h : l.next s = some t) (hvisit : l.Visits t u) : l.Visits s u := by
  induction hvisit with
  | start => exact Visits.start.step h
  | step _ hnext ih => exact ih.step hnext

/-- A run accesses what its visited states access. -/
theorem allowed_iff :
    (∀ n, ∀ a ∈ (l.run n s).1, P a) ↔ ∀ t, l.Visits s t → ∀ a ∈ l.accesses t, P a := by
  constructor
  · intro h t hvisit
    -- a visited state is the start of a run that only accesses allowed things
    have hrun : ∀ n, ∀ a ∈ (l.run n t).1, P a := by
      induction hvisit with
      | start => exact h
      | step _ hnext ih =>
          intro n a ha
          apply ih (n + 1) a
          rw [run_step hnext]
          exact List.mem_append_right _ ha
    intro a ha
    apply hrun 1 a
    cases hnext : l.next t with
    | none =>
        rw [run_stop hnext]
        exact ha
    | some u =>
        rw [run_step hnext]
        exact List.mem_append_left _ ha
  · intro h n
    induction n generalizing s with
    | zero => simp [run]
    | succ n ih =>
        intro a ha
        cases hnext : l.next s with
        | none =>
            rw [run_stop hnext] at ha
            exact h s Visits.start a ha
        | some t =>
            rw [run_step hnext] at ha
            cases List.mem_append.mp ha with
            | inl ha => exact h s Visits.start a ha
            | inr ha => exact ih (fun u hu => h u (hu.head hnext)) a ha

/-- Termination of the loop from the next state. -/
theorem terminates_step (h : l.next s = some t) : l.Terminates s ↔ l.Terminates t := by
  constructor
  · rintro ⟨n, hn⟩
    cases n with
    | zero => exact absurd hn (by simp [run])
    | succ n =>
        rw [run_step h] at hn
        exact ⟨n, hn⟩
  · rintro ⟨n, hn⟩
    refine ⟨n + 1, ?_⟩
    rw [run_step h]
    exact hn

/-- A loop that is left at once terminates. -/
theorem terminates_stop (h : l.next s = none) : l.Terminates s := by
  refine ⟨1, ?_⟩
  rw [run_stop h]

/-- A loop terminates exactly when it visits a state at which it is left. -/
theorem terminates_iff : l.Terminates s ↔ ∃ t, l.Visits s t ∧ l.next t = none := by
  constructor
  · rintro ⟨n, hn⟩
    induction n generalizing s with
    | zero => exact absurd hn (by simp [run])
    | succ n ih =>
        cases hnext : l.next s with
        | none => exact ⟨s, Visits.start, hnext⟩
        | some u =>
            rw [run_step hnext] at hn
            obtain ⟨t, hvisit, hstop⟩ := ih hn
            exact ⟨t, hvisit.head hnext, hstop⟩
  · rintro ⟨t, hvisit, hstop⟩
    have ht : l.Terminates t := terminates_stop hstop
    clear hstop
    induction hvisit with
    | start => exact ht
    | step _ hnext ih => exact ih ((terminates_step hnext).mpr ht)

/-- A loop whose passes decrease a measure terminates. -/
theorem terminates_of_decreasing {β : Type w} {r : β → β → Prop} (hwf : WellFounded r) (f : σ → β)
    (hdec : ∀ t u, l.Visits s t → l.next t = some u → r (f u) (f t)) : l.Terminates s := by
  generalize hb : f s = b
  induction b using hwf.induction generalizing s with
  | _ b ih =>
      cases hnext : l.next s with
      | none => exact terminates_stop hnext
      | some t =>
          rw [terminates_step hnext]
          have hlt : r (f t) b := hb ▸ hdec s t Visits.start hnext
          exact ih _ hlt (fun u v hu => hdec u v (hu.head hnext)) rfl

/-- A loop that does not leave a set of states does not terminate. -/
theorem not_terminates_of_closed {S : σ → Prop} (hS : S s)
    (hclosed : ∀ t, S t → ∃ u, l.next t = some u ∧ S u) : ¬ l.Terminates s := by
  rintro ⟨n, hn⟩
  induction n generalizing s with
  | zero => exact absurd hn (by simp [run])
  | succ n ih =>
      obtain ⟨t, hnext, ht⟩ := hclosed s hS
      rw [run_step hnext] at hn
      exact ih ht hn

/-- A loop that visits a state from which it does not terminate does not terminate. -/
theorem Terminates.of_visits (h : l.Terminates s) (hvisit : l.Visits s t) : l.Terminates t := by
  induction hvisit with
  | start => exact h
  | step _ hnext ih => exact (terminates_step hnext).mp ih

/-- A loop is safe exactly when every visited state is good, if good states access
allowed things and decrease a measure, and a state is good when the loop terminates
from it and it accesses only allowed things. -/
theorem safe_iff {β : Type w} {r : β → β → Prop} (hwf : WellFounded r) (f : σ → β)
    {Good : σ → Prop} (hgood : ∀ t, Good t → ∀ a ∈ l.accesses t, P a)
    (hdec : ∀ t u, l.Visits s t → Good t → l.next t = some u → r (f u) (f t))
    (hback : ∀ t, l.Terminates t → (∀ a ∈ l.accesses t, P a) → Good t) :
    l.Safe P s ↔ ∀ t, l.Visits s t → Good t := by
  constructor
  · intro h t hvisit
    exact hback t (h.terminates.of_visits hvisit) (allowed_iff.mp h.allowed t hvisit)
  · intro h
    refine ⟨?_, ?_⟩
    · exact terminates_of_decreasing hwf f fun t u hvisit hnext =>
        hdec t u hvisit (h t hvisit) hnext
    · exact allowed_iff.mpr fun t hvisit => hgood t (h t hvisit)

end Loop
end Library
end NochOS
