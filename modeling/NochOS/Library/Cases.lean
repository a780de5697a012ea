import Mathlib.Control.Lawful
import Mathlib.Tactic.Common

/-!
# Library - Switches that fall through

A switch enters the first case whose label is the value it is given, and runs the statements
from there up to a break.  A case without a break runs into the next one, and what it has
computed is lost.  The statements are programs of any monad; where control may leave them
for good, the cases behind are not reached.

Main results:

- Definitions `fall`, `runSwitch`: the statements from a case on, and the switch.
- Theorems `runSwitch_breaks`, `runSwitch_falls`: a case with and without a break.
- Theorems `bind_returned`, `bind_left`: one program after another one.
-/

namespace NochOS
namespace Library

universe u v w

/-- A case: its label, its statements, and whether a break ends them. -/
structure SwitchCase (κ : Type u) (m : Type v → Type w) (α : Type v) where
  label : κ
  body : m α
  breaks : Bool

section Switch

variable {κ : Type u} {m : Type v → Type w} {α : Type v} [Monad m]

/-- The statements from a case on. -/
def fall (c : SwitchCase κ m α) : List (SwitchCase κ m α) → m α
  | [] => c.body
  | c' :: cases => if c.breaks then c.body else c.body >>= fun _ => fall c' cases

/-- The switch.  Nothing is done for a value without a case. -/
def runSwitch [DecidableEq κ] (k : κ) : List (SwitchCase κ m α) → m (Option α)
  | [] => pure none
  | c :: cases => if c.label = k then some <$> fall c cases else runSwitch k cases

variable {c c' : SwitchCase κ m α} {cases : List (SwitchCase κ m α)}

theorem fall_breaks (h : c.breaks = true) : fall c cases = c.body := by
  cases cases with
  | nil => rfl
  | cons c' cases => rw [fall, if_pos h]

variable [DecidableEq κ] {k : κ}

/-- A value that no case is labelled with. -/
theorem runSwitch_none (h : ∀ c ∈ cases, c.label ≠ k) : runSwitch k cases = pure none := by
  induction cases with
  | nil => rfl
  | cons c cases ih =>
      rw [runSwitch, if_neg (h c List.mem_cons_self)]
      exact ih fun c hc => h c (List.mem_cons_of_mem _ hc)

/-- A case that breaks is all that is run. -/
theorem runSwitch_breaks (h : cases.find? (fun c => c.label = k) = some c)
    (hbreaks : c.breaks = true) : runSwitch k cases = some <$> c.body := by
  induction cases with
  | nil => cases h
  | cons c' cases ih =>
      rw [runSwitch]
      by_cases hlabel : c'.label = k
      · rw [List.find?_cons_of_pos (by simpa using hlabel)] at h
        obtain rfl := Option.some.inj h
        rw [if_pos hlabel, fall_breaks hbreaks]
      · rw [List.find?_cons_of_neg (by simpa using hlabel)] at h
        rw [if_neg hlabel]
        exact ih h

/-- A case without a break runs into the next one. -/
theorem runSwitch_falls (hlabel : c.label = k) (hfalls : c.breaks = false) :
    runSwitch k (c :: c' :: cases) = some <$> (c.body >>= fun _ => fall c' cases) := by
  rw [runSwitch, if_pos hlabel, fall, hfalls]
  rfl

/-- The cases of other labels are passed. -/
theorem runSwitch_skip (hlabel : c.label ≠ k) : runSwitch k (c :: cases) = runSwitch k cases := by
  rw [runSwitch, if_neg hlabel]

end Switch

section Leaving

variable {σ ε α β : Type u} {x : ExceptT ε (StateM σ) α} {f : α → ExceptT ε (StateM σ) β} {s s' : σ}

/-- A program behind one that returns. -/
theorem bind_returned {a : α} (h : x s = (.ok a, s')) : (x >>= f) s = f a s' := by
  simp only [bind, ExceptT.bind, ExceptT.mk, StateT.bind, h]
  rfl

/-- A program behind one that control leaves. -/
theorem bind_left {e : ε} (h : x s = (.error e, s')) : (x >>= f) s = (.error e, s') := by
  simp only [bind, ExceptT.bind, ExceptT.mk, StateT.bind, h]
  rfl

end Leaving

end Library
end NochOS
