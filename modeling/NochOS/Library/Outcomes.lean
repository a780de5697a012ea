import Mathlib.Logic.Basic

/-!
# Library - Programs that may fail

A program over a state ends with a value and a new state, or fails.  `After` says what
holds of its end.  The rules follow the construction of the program: a value, one
program after the other, a failure.

Main results:

- Definition `After`: a postcondition and a condition on failures.
- Theorems `After.bind`, `After.mono`: the rules of composition and consequence.
-/

namespace NochOS
namespace Library

universe u

variable {σ ε α β : Type u}

/-- The value and the state at the end satisfy `Q`, or the failure satisfies `E`. -/
def After (Q : α → σ → Prop) (E : ε → Prop) : Except ε (α × σ) → Prop
  | .ok (a, s) => Q a s
  | .error e => E e

section Rules

variable {Q : α → σ → Prop} {E : ε → Prop} {s : σ}

theorem After.of_eq {r : Except ε (α × σ)} {a : α} {s' : σ} (h : r = .ok (a, s')) (hQ : Q a s') :
    After Q E r := by
  rw [h]
  exact hQ

theorem After.of_error {r : Except ε (α × σ)} {e : ε} (h : r = .error e) (hE : E e) :
    After Q E r := by
  rw [h]
  exact hE

/-- The end of a program, where it is not a failure. -/
theorem After.ok {r : Except ε (α × σ)} (h : After Q E r) {a : α} {s' : σ} (hr : r = .ok (a, s')) :
    Q a s' := by
  rw [hr] at h
  exact h

theorem After.fails {r : Except ε (α × σ)} (h : After Q E r) {e : ε} (hr : r = .error e) : E e := by
  rw [hr] at h
  exact h

/-- A program without faults. -/
theorem After.ne_error {r : Except ε (α × σ)} (h : After Q (fun _ => False) r) (e : ε) :
    r ≠ .error e := fun hr => h.fails hr

theorem After.pure {a : α} (h : Q a s) :
    After Q E ((Pure.pure a : StateT σ (Except ε) α) s) := h

theorem After.throw {e : ε} (h : E e) :
    After Q E ((throw e : StateT σ (Except ε) α) s) := h

/-- Weaker conditions. -/
theorem After.mono {Q' : α → σ → Prop} {E' : ε → Prop} {r : Except ε (α × σ)} (h : After Q E r)
    (hQ : ∀ a s, Q a s → Q' a s) (hE : ∀ e, E e → E' e) : After Q' E' r := by
  cases r with
  | ok p => exact hQ p.1 p.2 h
  | error e => exact hE e h

/-- One program after the other. -/
theorem After.bind {R : β → σ → Prop} {f : StateT σ (Except ε) α}
    {g : α → StateT σ (Except ε) β} (h : After (fun a s' => After R E (g a s')) E (f s)) :
    After R E ((f >>= g) s) := by
  cases hf : f s with
  | ok p =>
      have hrun : (f >>= g) s = g p.1 p.2 := by
        simp [Bind.bind, StateT.bind, Except.bind, hf]
      rw [hf] at h
      rw [hrun]
      exact h
  | error e =>
      have hrun : (f >>= g) s = .error e := by
        simp [Bind.bind, StateT.bind, Except.bind, hf]
      rw [hf] at h
      rw [hrun]
      exact h

/-- A first program that does not matter. -/
theorem After.bind_all {R : β → σ → Prop} {f : StateT σ (Except ε) α}
    {g : α → StateT σ (Except ε) β} (hE : ∀ e, E e) (h : ∀ a s', After R E (g a s')) :
    After R E ((f >>= g) s) := by
  apply After.bind
  cases f s with
  | error e => exact hE e
  | ok p => exact h p.1 p.2

/-- A computation that only returns leaves the state as it is. -/
theorem run_pure (a : α) (s : σ) : (pure a : StateT σ (Except ε) α) s = .ok (a, s) := rfl

/-- The second program starts where the first one ends. -/
theorem run_bind {f : StateT σ (Except ε) α} {g : α → StateT σ (Except ε) β} {a : α} {s' : σ}
    (hf : f s = .ok (a, s')) : (f >>= g) s = g a s' := by
  simp [Bind.bind, StateT.bind, Except.bind, hf]

/-- A first program that ends is replaced by its end. -/
theorem After.bind_ok {R : β → σ → Prop} {f : StateT σ (Except ε) α}
    {g : α → StateT σ (Except ε) β} {a : α} {s' : σ} (hf : f s = .ok (a, s'))
    (h : After R E (g a s')) : After R E ((f >>= g) s) :=
  After.bind (After.of_eq hf h)

end Rules

end Library
end NochOS
