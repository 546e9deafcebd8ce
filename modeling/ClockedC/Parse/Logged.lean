import ClockedC.Notice
import ClockedC.Parse.Error

/-!
# Computations that keep a log

Reading a program may stop at an error, and the notices given up to then are still reported. A
`Logged` value is the outcome of such a computation together with its notices, in order.
-/

namespace ClockedC

/-- An outcome and the notices that came before it. -/
structure Logged (α : Type) where
  log : List Notice
  outcome : Except ParseError α

namespace Logged

/-- Stops at an error. -/
def fail {α : Type} (e : ParseError) : Logged α := ⟨[], .error e⟩

/-- Gives a notice. -/
def tell (n : Notice) : Logged Unit := ⟨[n], .ok ()⟩

/-- An outcome without notices. -/
def ofExcept {α : Type} (x : Except ParseError α) : Logged α := ⟨[], x⟩

/-- Goes on with a value. The notices of the second computation follow those of the first. -/
def bind {α β : Type} (x : Logged α) (f : α → Logged β) : Logged β :=
  match x.outcome with
  | .error e => ⟨x.log, .error e⟩
  | .ok a =>
    let y := f a
    ⟨x.log ++ y.log, y.outcome⟩

instance : Monad Logged where
  pure a := ⟨[], .ok a⟩
  bind := Logged.bind

instance : MonadLift (Except ParseError) Logged where
  monadLift := ofExcept

@[simp]
theorem log_pure {α : Type} (a : α) : (pure a : Logged α).log = [] := rfl

@[simp]
theorem outcome_pure {α : Type} (a : α) : (pure a : Logged α).outcome = .ok a := rfl

/-- A computation in two parts succeeds where both parts do. -/
theorem outcome_bind_eq_ok {α β : Type} {x : Logged α} {f : α → Logged β} {b : β} :
    (x >>= f).outcome = .ok b ↔ ∃ a, x.outcome = .ok a ∧ (f a).outcome = .ok b := by
  show (x.bind f).outcome = .ok b ↔ _
  unfold Logged.bind
  cases x.outcome <;> simp

end Logged

end ClockedC
