import Mathlib.Data.List.Count

/-!
# Library - Programs with a trace

A program emits events and ends with a value, or stops before its end.  What it has emitted
by then stays.  The rules say which events a composition emits and how many of a kind.

Main results:

- Definition `Traced`: the events and the value.
- Theorems `Traced.mem_bind`, `Traced.count_bind`: the events of one program after the other.
-/

namespace NochOS
namespace Library

/-- The events of a program, and its value unless it stops. -/
structure Traced (ε α : Type) where
  events : List ε
  value : Option α

namespace Traced

variable {ε α β : Type}

/-- A program that emits one event. -/
def emit (e : ε) : Traced ε Unit := ⟨[e], some ()⟩

/-- A program that emits several events. -/
def emitAll (es : List ε) : Traced ε Unit := ⟨es, some ()⟩

/-- A program that stops. -/
def stop : Traced ε α := ⟨[], none⟩

/-- One program after the other, which is not reached when the first one stops. -/
def andThen (m : Traced ε α) (k : α → Traced ε β) : Traced ε β :=
  match m.value with
  | none => ⟨m.events, none⟩
  | some a => ⟨m.events ++ (k a).events, (k a).value⟩

instance : Monad (Traced ε) where
  pure a := ⟨[], some a⟩
  bind := andThen

@[simp] theorem events_pure (a : α) : (pure a : Traced ε α).events = [] := rfl

@[simp] theorem value_pure (a : α) : (pure a : Traced ε α).value = some a := rfl

@[simp] theorem events_stop : (stop : Traced ε α).events = [] := rfl

@[simp] theorem value_stop : (stop : Traced ε α).value = none := rfl

@[simp] theorem events_emit_bind (e : ε) (k : Unit → Traced ε β) :
    (emit e >>= k).events = e :: (k ()).events := rfl

@[simp] theorem value_emit_bind (e : ε) (k : Unit → Traced ε β) :
    (emit e >>= k).value = (k ()).value := rfl

@[simp] theorem events_emitAll_bind (es : List ε) (k : Unit → Traced ε β) :
    (emitAll es >>= k).events = es ++ (k ()).events := rfl

@[simp] theorem value_emitAll_bind (es : List ε) (k : Unit → Traced ε β) :
    (emitAll es >>= k).value = (k ()).value := rfl

section Bind

variable {m : Traced ε α} {k : α → Traced ε β}

theorem events_bind_none (h : m.value = none) : (m >>= k).events = m.events := by
  change (m.andThen k).events = m.events
  rw [andThen, h]

theorem events_bind_some {a : α} (h : m.value = some a) :
    (m >>= k).events = m.events ++ (k a).events := by
  change (m.andThen k).events = m.events ++ (k a).events
  rw [andThen, h]

theorem value_bind : (m >>= k).value = m.value.bind fun a => (k a).value := by
  change (m.andThen k).value = m.value.bind fun a => (k a).value
  rw [andThen]
  cases m.value with
  | none => rfl
  | some a => rfl

theorem mem_bind {e : ε} :
    e ∈ (m >>= k).events ↔ e ∈ m.events ∨ ∃ a, m.value = some a ∧ e ∈ (k a).events := by
  cases h : m.value with
  | none => simp [events_bind_none h]
  | some a => simp [events_bind_some h]

/-- At most as many events of a kind as in the two programs. -/
theorem count_bind [DecidableEq ε] {e : ε} {n n' : Nat} (hm : m.events.count e ≤ n)
    (hk : ∀ a, (k a).events.count e ≤ n') : (m >>= k).events.count e ≤ n + n' := by
  cases h : m.value with
  | none =>
      rw [events_bind_none h]
      exact Nat.le_trans hm (Nat.le_add_right n n')
  | some a =>
      rw [events_bind_some h, List.count_append]
      exact Nat.add_le_add hm (hk a)

end Bind

end Traced
end Library
end NochOS
