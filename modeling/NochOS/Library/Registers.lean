import Mathlib.Tactic.Common

/-!
# Library - Programs over the registers of a device

A driver reads and writes registers, and a device answers.  A program is the tree of what
it does next for each value it may read, so that one program runs on any device.  A loop
that waits for a register has fuel; a program `Ends` if it does so with every amount of
fuel from some amount on.

Main results:

- Definitions `Program`, `Program.run`: programs and their runs on a device.
- Theorems `Program.Ends.bind`, `Program.Ends.wait`: the rules of composition and of a loop
  that waits.
- Theorems `Program.Within.run`, `Program.Returns.run`: what the registers a program uses do
  not touch, and the values it ends with, on every device.
- Definition `Device.beside`: two devices on one bus.
-/

namespace NochOS
namespace Library

/-- What answers to reads and writes of registers. -/
structure Device (ρ σ : Type) where
  read : ρ → σ → Nat × σ
  write : ρ → Nat → σ → σ

/-- Two devices on one bus; the first one answers at the registers of a set. -/
def Device.beside {ρ σ τ : Type} (here : ρ → Prop) [DecidablePred here] (dev : Device ρ σ)
    (rest : Device ρ τ) : Device ρ (σ × τ) where
  read r s :=
    if here r then ((dev.read r s.1).1, (dev.read r s.1).2, s.2)
    else ((rest.read r s.2).1, s.1, (rest.read r s.2).2)
  write r v s := if here r then (dev.write r v s.1, s.2) else (s.1, rest.write r v s.2)

section Beside

variable {ρ σ τ : Type} {here : ρ → Prop} [DecidablePred here] {dev : Device ρ σ}
  {rest : Device ρ τ} {r : ρ}

theorem Device.beside_read_here (h : here r) (s : σ × τ) :
    (dev.beside here rest).read r s = ((dev.read r s.1).1, (dev.read r s.1).2, s.2) :=
  if_pos h

theorem Device.beside_read_rest (h : ¬ here r) (s : σ × τ) :
    (dev.beside here rest).read r s = ((rest.read r s.2).1, s.1, (rest.read r s.2).2) :=
  if_neg h

theorem Device.beside_write_here (h : here r) (v : Nat) (s : σ × τ) :
    (dev.beside here rest).write r v s = (dev.write r v s.1, s.2) :=
  if_pos h

theorem Device.beside_write_rest (h : ¬ here r) (v : Nat) (s : σ × τ) :
    (dev.beside here rest).write r v s = (s.1, rest.write r v s.2) :=
  if_neg h

end Beside

/-- A program over registers.  It is stuck where it waits for longer than its fuel, or
where the source has no defined behaviour. -/
inductive Program (ρ α : Type) where
  | ret (a : α)
  | stuck
  | read (r : ρ) (k : Nat → Program ρ α)
  | write (r : ρ) (v : Nat) (next : Program ρ α)

namespace Program

variable {ρ α β : Type}

/-- One program after the other. -/
def andThen : Program ρ α → (α → Program ρ β) → Program ρ β
  | ret a, f => f a
  | stuck, _ => stuck
  | read r k, f => read r fun v => (k v).andThen f
  | write r v next, f => write r v (next.andThen f)

instance : Monad (Program ρ) where
  pure := ret
  bind := andThen

theorem andThen_ret (m : Program ρ α) : m.andThen ret = m := by
  induction m with
  | ret a => rfl
  | stuck => rfl
  | read r k ih => exact congrArg (read r) (funext ih)
  | write r v next ih => exact congrArg (write r v) ih

theorem andThen_assoc {γ : Type} (m : Program ρ α) (f : α → Program ρ β) (g : β → Program ρ γ) :
    (m.andThen f).andThen g = m.andThen fun a => (f a).andThen g := by
  induction m with
  | ret a => rfl
  | stuck => rfl
  | read r k ih => exact congrArg (read r) (funext ih)
  | write r v next ih => exact congrArg (write r v) ih

instance : LawfulMonad (Program ρ) := LawfulMonad.mk' _ andThen_ret (fun _ _ => rfl) andThen_assoc

/-- Read a register. -/
def input (r : ρ) : Program ρ Nat := read r ret

/-- Write a register. -/
def output (r : ρ) (v : Nat) : Program ρ Unit := write r v (ret ())

/-- Repeat a program until its value is as wanted. -/
def repeatUntil (body : Program ρ Nat) (wanted : Nat → Bool) : Nat → Program ρ Nat
  | 0 => stuck
  | fuel + 1 => do
      let v ← body
      if wanted v then pure v else repeatUntil body wanted fuel

/-- A run on a device: the value and the state at the end. -/
def run {σ : Type} (dev : Device ρ σ) : Program ρ α → σ → Option (α × σ)
  | ret a, s => some (a, s)
  | stuck, _ => none
  | read r k, s => (k (dev.read r s).1).run dev (dev.read r s).2
  | write r v next, s => next.run dev (dev.write r v s)

/-! ## Runs -/

section Run

variable {σ : Type} {dev : Device ρ σ}

@[simp] theorem run_pure (a : α) (s : σ) : (pure a : Program ρ α).run dev s = some (a, s) := rfl

@[simp] theorem run_input (r : ρ) (s : σ) : (input r).run dev s = some (dev.read r s) := rfl

@[simp] theorem run_output (r : ρ) (v : Nat) (s : σ) :
    (output r v).run dev s = some ((), dev.write r v s) := rfl

/-- The second program starts where the first one ends. -/
theorem run_bind (m : Program ρ α) (f : α → Program ρ β) (s : σ) :
    (m >>= f).run dev s = (m.run dev s).bind fun p => (f p.1).run dev p.2 := by
  induction m generalizing s with
  | ret a => rfl
  | stuck => rfl
  | read r k ih => exact ih _ _
  | write r v next ih => exact ih _

@[simp] theorem run_input_bind (r : ρ) (f : Nat → Program ρ β) (s : σ) :
    (input r >>= f).run dev s = (f (dev.read r s).1).run dev (dev.read r s).2 := rfl

@[simp] theorem run_output_bind (r : ρ) (v : Nat) (f : Unit → Program ρ β) (s : σ) :
    (output r v >>= f).run dev s = (f ()).run dev (dev.write r v s) := rfl

theorem run_bind_of_eq {m : Program ρ α} {f : α → Program ρ β} {s s' : σ} {a : α}
    (h : m.run dev s = some (a, s')) : (m >>= f).run dev s = (f a).run dev s' := by
  rw [run_bind, h]
  rfl

end Run

/-! ## Programs that end -/

section Ends

variable {σ : Type} {dev : Device ρ σ}

/-- With enough fuel the program ends, always in the same way, and as `Q` says. -/
def Ends (dev : Device ρ σ) (prog : Nat → Program ρ α) (s : σ) (Q : α → σ → Prop) : Prop :=
  ∃ a s', Q a s' ∧ ∃ enough, ∀ fuel, enough ≤ fuel → (prog fuel).run dev s = some (a, s')

variable {Q : α → σ → Prop} {s : σ}

/-- A program without waiting loops. -/
theorem Ends.of_run {m : Program ρ α} {a : α} {s' : σ} (h : m.run dev s = some (a, s'))
    (hQ : Q a s') : Ends dev (fun _ => m) s Q :=
  ⟨a, s', hQ, 0, fun _ _ => h⟩

theorem Ends.pure {a : α} (hQ : Q a s) : Ends dev (fun _ => Pure.pure a) s Q :=
  Ends.of_run rfl hQ

/-- A weaker postcondition. -/
theorem Ends.mono {prog : Nat → Program ρ α} {Q' : α → σ → Prop} (h : Ends dev prog s Q)
    (hQ : ∀ a s', Q a s' → Q' a s') : Ends dev prog s Q' := by
  obtain ⟨a, s', ha, hrun⟩ := h
  exact ⟨a, s', hQ a s' ha, hrun⟩

/-- One program after the other. -/
theorem Ends.bind {m : Nat → Program ρ α} {f : Nat → α → Program ρ β} {R : β → σ → Prop}
    (h : Ends dev m s fun a s' => Ends dev (fun fuel => f fuel a) s' R) :
    Ends dev (fun fuel => m fuel >>= f fuel) s R := by
  obtain ⟨a, s', ⟨b, t, hb, n₂, hf⟩, n₁, hm⟩ := h
  refine ⟨b, t, hb, max n₁ n₂, fun fuel hfuel => ?_⟩
  rw [run_bind_of_eq (hm fuel (Nat.le_trans (Nat.le_max_left _ _) hfuel))]
  exact hf fuel (Nat.le_trans (Nat.le_max_right _ _) hfuel)

/-- A first part without waiting loops. -/
theorem Ends.after_run {m : Program ρ α} {f : Nat → α → Program ρ β} {R : β → σ → Prop} {a : α}
    {s' : σ} (hm : m.run dev s = some (a, s')) (h : Ends dev (fun fuel => f fuel a) s' R) :
    Ends dev (fun fuel => m >>= f fuel) s R :=
  Ends.bind (Ends.of_run hm h)

/-- A loop that waits ends if every pass ends it or brings a measure down. -/
theorem Ends.wait {body : Program ρ Nat} {wanted : Nat → Bool} {I : σ → Prop} {μ : σ → Nat}
    {Q : Nat → σ → Prop}
    (hpass : ∀ s, I s → ∃ v s', body.run dev s = some (v, s') ∧
      if wanted v then Q v s' else I s' ∧ μ s' < μ s) :
    ∀ s, I s → Ends dev (repeatUntil body wanted) s Q := by
  -- induction on a bound of the measure
  suffices h : ∀ k s, I s → μ s < k → Ends dev (repeatUntil body wanted) s Q by
    exact fun s hs => h (μ s + 1) s hs (Nat.lt_succ_self _)
  intro k
  induction k with
  | zero => exact fun s _ hk => absurd hk (Nat.not_lt_zero _)
  | succ k ih =>
      intro s hs hk
      obtain ⟨v, s', hrun, hend⟩ := hpass s hs
      split at hend
      next hv =>
        refine ⟨v, s', hend, 1, fun fuel hfuel => ?_⟩
        obtain ⟨m, rfl⟩ : ∃ m, fuel = m + 1 := ⟨fuel - 1, by omega⟩
        rw [repeatUntil, run_bind_of_eq hrun, if_pos hv]
        rfl
      next hv =>
        obtain ⟨a, t, ha, n, hn⟩ := ih s' hend.1 (by omega)
        refine ⟨a, t, ha, n + 1, fun fuel hfuel => ?_⟩
        obtain ⟨m, rfl⟩ : ∃ m, fuel = m + 1 := ⟨fuel - 1, by omega⟩
        rw [repeatUntil, run_bind_of_eq hrun, if_neg hv]
        exact hn m (by omega)

end Ends

/-! ## The registers a program uses -/

/-- The program reads only registers of one set and writes only those of another,
whatever the device answers. -/
def Within (R W : ρ → Prop) : Program ρ α → Prop
  | ret _ => True
  | stuck => True
  | read r k => R r ∧ ∀ v, (k v).Within R W
  | write r _ next => W r ∧ next.Within R W

section Within

variable {R W : ρ → Prop}

theorem Within.pure (a : α) : (Pure.pure a : Program ρ α).Within R W := trivial

theorem Within.input {r : ρ} (h : R r) : (input r).Within R W := ⟨h, fun _ => trivial⟩

theorem Within.output {r : ρ} {v : Nat} (h : W r) : (output r v).Within R W := ⟨h, trivial⟩

theorem Within.bind {m : Program ρ α} {f : α → Program ρ β} (hm : m.Within R W)
    (hf : ∀ a, (f a).Within R W) : (m >>= f).Within R W := by
  induction m with
  | ret a => exact hf a
  | stuck => trivial
  | read r k ih => exact ⟨hm.1, fun v => ih v (hm.2 v)⟩
  | write r v next ih => exact ⟨hm.1, ih hm.2⟩

theorem Within.repeatUntil {body : Program ρ Nat} {wanted : Nat → Bool} (h : body.Within R W) :
    ∀ fuel, (body.repeatUntil wanted fuel).Within R W
  | 0 => trivial
  | fuel + 1 => by
      refine Within.bind h fun v => ?_
      split
      · exact Within.pure _
      · exact Within.repeatUntil h fuel

/-- What every access to the allowed registers keeps, a run keeps. -/
theorem Within.run {σ : Type} {dev : Device ρ σ} {I : σ → Prop}
    (hread : ∀ r s, R r → I s → I (dev.read r s).2)
    (hwrite : ∀ r v s, W r → I s → I (dev.write r v s)) {m : Program ρ α} (hm : m.Within R W)
    {s s' : σ} {a : α} (hrun : m.run dev s = some (a, s')) (hs : I s) : I s' := by
  induction m generalizing s with
  | ret b =>
      cases hrun
      exact hs
  | stuck => cases hrun
  | read r k ih => exact ih _ (hm.2 _) hrun (hread r s hm.1 hs)
  | write r v next ih => exact ih hm.2 hrun (hwrite r v s hm.1 hs)

end Within

/-! ## The values of a program -/

/-- The program ends only with values of a set, whatever the device answers. -/
def Returns (P : α → Prop) : Program ρ α → Prop
  | ret a => P a
  | stuck => True
  | read _ k => ∀ v, (k v).Returns P
  | write _ _ next => next.Returns P

section Returns

variable {P : α → Prop} {Q : β → Prop}

theorem Returns.pure {a : α} (h : P a) : (Pure.pure a : Program ρ α).Returns P := h

theorem Returns.bind {m : Program ρ α} {f : α → Program ρ β} (hm : m.Returns P)
    (hf : ∀ a, P a → (f a).Returns Q) : (m >>= f).Returns Q := by
  induction m with
  | ret a => exact hf a hm
  | stuck => trivial
  | read r k ih => exact fun v => ih v (hm v)
  | write r v next ih => exact ih hm

/-- A larger set of values. -/
theorem Returns.mono {P' : α → Prop} {m : Program ρ α} (hm : m.Returns P) (h : ∀ a, P a → P' a) :
    m.Returns P' := by
  induction m with
  | ret a => exact h a hm
  | stuck => trivial
  | read r k ih => exact fun v => ih v (hm v)
  | write r v next ih => exact ih hm

theorem Returns.of_forall (h : ∀ a, P a) : ∀ m : Program ρ α, m.Returns P
  | ret a => h a
  | stuck => trivial
  | read _ k => fun v => Returns.of_forall h (k v)
  | write _ _ next => Returns.of_forall h next

/-- A first part whose value does not matter. -/
theorem Returns.after {m : Program ρ α} {f : α → Program ρ β} (hf : ∀ a, (f a).Returns Q) :
    (m >>= f).Returns Q :=
  Returns.bind (Returns.of_forall (fun _ => trivial) m) fun a (_ : True) => hf a

/-- A run ends with such a value. -/
theorem Returns.run {σ : Type} {dev : Device ρ σ} {m : Program ρ α} (hm : m.Returns P) {s s' : σ}
    {a : α} (hrun : m.run dev s = some (a, s')) : P a := by
  induction m generalizing s with
  | ret b =>
      cases hrun
      exact hm
  | stuck => cases hrun
  | read r k ih => exact ih _ (hm _) hrun
  | write r v next ih => exact ih hm hrun

/-- The registers of a composition whose second part relies on the value of the first. -/
theorem Within.bind_returns {R W : ρ → Prop} {m : Program ρ α} {f : α → Program ρ β}
    (hm : m.Within R W) (hP : m.Returns P) (hf : ∀ a, P a → (f a).Within R W) :
    (m >>= f).Within R W := by
  induction m with
  | ret a => exact hf a hP
  | stuck => trivial
  | read r k ih => exact ⟨hm.1, fun v => ih v (hm.2 v) (hP v)⟩
  | write r v next ih => exact ⟨hm.1, ih hm.2 hP⟩

end Returns

end Program

end Library
end NochOS
