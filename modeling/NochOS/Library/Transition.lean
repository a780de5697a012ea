import Mathlib.Logic.Relation

/-!
# Library - Transition systems and their invariants

A transition system is a set of starting states together with a step relation.
This module packages the one induction that every whole-run result needs: a
predicate that holds at the start and survives each step holds of every
reachable state.

Main results:

- Theorem `TransitionSystem.IsInvariant.of_reachable`: an inductive invariant
  holds of every reachable state.
- Theorem `TransitionSystem.Reachable.step`: reachable states are closed under
  the step relation.
- Theorem `Along.iff`: two properties that agree on each event of a run.
-/

namespace NochOS
namespace Library

/-- Starting states and a step relation over one state type. -/
structure TransitionSystem (σ : Type*) where
  init : σ → Prop
  step : σ → σ → Prop

namespace TransitionSystem

variable {σ : Type*} {T : TransitionSystem σ}

/-- A state is reachable when finitely many steps lead to it from a starting
state. -/
def Reachable (T : TransitionSystem σ) (s : σ) : Prop :=
  ∃ s₀, T.init s₀ ∧ Relation.ReflTransGen T.step s₀ s

/-- An inductive invariant: true at the start and kept by every step. -/
structure IsInvariant (T : TransitionSystem σ) (I : σ → Prop) : Prop where
  init : ∀ s, T.init s → I s
  step : ∀ s s', I s → T.step s s' → I s'

/-- Every starting state is reachable. -/
theorem Reachable.init {s : σ} (h : T.init s) : T.Reachable s :=
  ⟨s, h, Relation.ReflTransGen.refl⟩

/-- Reachability is closed under one more step. -/
theorem Reachable.step {s s' : σ} (h : T.Reachable s) (hstep : T.step s s') :
    T.Reachable s' := by
  obtain ⟨s₀, hinit, hrun⟩ := h
  exact ⟨s₀, hinit, hrun.tail hstep⟩

/-- With more starting states and more steps, what is reachable stays so. -/
theorem Reachable.mono {T' : TransitionSystem σ} (hinit : ∀ s, T.init s → T'.init s)
    (hstep : ∀ s s', T.step s s' → T'.step s s') {s : σ} (h : T.Reachable s) :
    T'.Reachable s := by
  obtain ⟨s₀, hs₀, hrun⟩ := h
  induction hrun with
  | refl => exact Reachable.init (hinit s₀ hs₀)
  | tail _ hlast ih => exact ih.step (hstep _ _ hlast)

/-- An invariant that holds before a run holds after it. -/
theorem run_induction {I : σ → Prop} {s s' : σ}
    (hkeep : ∀ s s', I s → T.step s s' → I s') (hs : I s)
    (hrun : Relation.ReflTransGen T.step s s') : I s' := by
  induction hrun with
  | refl => exact hs
  | tail _ hstep ih => exact hkeep _ _ ih hstep

/-- An inductive invariant holds of every reachable state. -/
theorem IsInvariant.of_reachable {I : σ → Prop} (hI : T.IsInvariant I) {s : σ}
    (hs : T.Reachable s) : I s := by
  obtain ⟨s₀, hinit, hrun⟩ := hs
  exact run_induction hI.step (hI.init s₀ hinit) hrun

end TransitionSystem

/-! ## Runs of given events -/

section Events

variable {σ ε : Type*} (step : σ → ε → σ)

/-- A property of each event of a run, in the state it comes in. -/
def Along (P : σ → ε → Prop) : σ → List ε → Prop
  | _, [] => True
  | s, e :: es => P s e ∧ Along P (step s e) es

variable {step}

/-- Two properties agree along a run if they agree on an event wherever an invariant
holds, and an event with them keeps the invariant. -/
theorem Along.iff {A P Q : σ → ε → Prop} {I : σ → Prop}
    (hiff : ∀ s e, I s → A s e → (P s e ↔ Q s e))
    (hkeep : ∀ s e, I s → A s e → Q s e → I (step s e)) :
    ∀ (es : List ε) (s : σ), I s → Along step A s es →
      (Along step P s es ↔ Along step Q s es) := by
  intro es
  induction es with
  | nil => exact fun s _ _ => Iff.rfl
  | cons e es ih =>
      rintro s hs ⟨ha, hrest⟩
      constructor
      · rintro ⟨hp, hps⟩
        have hq := (hiff s e hs ha).mp hp
        exact ⟨hq, (ih _ (hkeep s e hs ha hq) hrest).mp hps⟩
      · rintro ⟨hq, hqs⟩
        exact ⟨(hiff s e hs ha).mpr hq, (ih _ (hkeep s e hs ha hq) hrest).mpr hqs⟩

end Events

end Library
end NochOS
