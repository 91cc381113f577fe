import CoreSql.Lib.Fallible

/-!
# Computations that end alike

Two computations are related when both fail with the same error, or both
succeed with related results. Related steps compose, so that two programs
that differ in the values they pass around, and in nothing that can be told
from their results, are compared step by step; at the end the relation is
equality, and the programs are equal.
-/

namespace Fallible

variable {ε α β γ δ : Type}

def Related (R : α → β → Prop) : Except ε α → Except ε β → Prop
  | .ok a, .ok b => R a b
  | .error e, .error e' => e = e'
  | _, _ => False

variable {R : α → β → Prop} {S : γ → δ → Prop}

theorem Related.rfl {R : α → α → Prop} (h : ∀ a, R a a) (x : Except ε α) : Related R x x := by
  cases x with
  | error e => exact Eq.refl e
  | ok a => exact h a

theorem Related.bind {x : Except ε α} {y : Except ε β} {f : α → Except ε γ} {g : β → Except ε δ}
    (h : Related R x y) (hstep : ∀ a b, R a b → Related S (f a) (g b)) :
    Related S (x >>= f) (y >>= g) := by
  cases x with
  | error e =>
    cases y with
    | error e' => exact h
    | ok b => exact h.elim
  | ok a =>
    cases y with
    | error e' => exact h.elim
    | ok b => exact hstep a b h

end Fallible
