import CoreSql.Lib.Fallible

/-!
# Loops that consume

A hand-written parser reads from the front of a state and returns what is
left. A `Reader` always leaves less than it was given and carries the proof.
The body of a `while (true)` loop, a `Round`, leaves less whenever the loop
goes on. So the loop ends, without a bound of its own, and is read by
induction over its rounds.

What a state is does not matter here, only that it has a size.
-/

namespace Consume

open Fallible

variable {σ ε α ρ β : Type} {size : σ → Nat}

/-- A computation that, when it succeeds, leaves less. -/
structure Reader (size : σ → Nat) (ε α : Type) where
  run : σ → Except ε (α × σ)
  consumes : ∀ {s a s'}, run s = .ok (a, s') → size s' < size s

def Reader.refuse (size : σ → Nat) (e : ε) : Reader size ε α where
  run _ := .error e
  consumes := nofun

/-- The body of a loop: it goes on with a new accumulator, or leaves with a result. -/
structure Round (size : σ → Nat) (ε ρ β : Type) where
  run : ρ → σ → Except ε ((ρ ⊕ β) × σ)
  consumes : ∀ {a s a' s'}, run a s = .ok (.inl a', s') → size s' < size s

namespace Round

variable (r : Round size ε ρ β) {a a' : ρ} {b : β} {s s' : σ}

/-- `while (true)`. -/
def loop (a : ρ) (s : σ) : Except ε (β × σ) :=
  match _h : r.run a s with
  | .error e => .error e
  | .ok (.inr b, s') => .ok (b, s')
  | .ok (.inl a', s') => loop a' s'
termination_by size s
decreasing_by exact r.consumes _h

theorem loop_error {e : ε} (h : r.run a s = .error e) : r.loop a s = .error e := by
  rw [loop]
  split
  · rename_i h'; cases h.symm.trans h'; rfl
  · rename_i h'; cases h.symm.trans h'
  · rename_i h'; cases h.symm.trans h'

theorem loop_stop (h : r.run a s = .ok (.inr b, s')) : r.loop a s = .ok (b, s') := by
  rw [loop]
  split
  · rename_i h'; cases h.symm.trans h'
  · rename_i h'; cases h.symm.trans h'; rfl
  · rename_i h'; cases h.symm.trans h'

theorem loop_next (h : r.run a s = .ok (.inl a', s')) : r.loop a s = r.loop a' s' := by
  rw [loop]
  split
  · rename_i h'; cases h.symm.trans h'
  · rename_i h'; cases h.symm.trans h'
  · rename_i h'; cases h.symm.trans h'; rfl

/-- What holds of the last round, and of every round when it holds of the rounds behind it, holds
of the loop. -/
theorem loop_induction {Q : ρ → σ → β → σ → Prop}
    (stop : ∀ {a s b s'}, r.run a s = .ok (.inr b, s') → Q a s b s')
    (next : ∀ {a s a' s' b s''}, r.run a s = .ok (.inl a', s') → Q a' s' b s'' → Q a s b s'')
    (h : r.loop a s = .ok (b, s')) : Q a s b s' := by
  induction a, s using loop.induct (r := r) with
  | case1 a s e hrun => cases (r.loop_error hrun).symm.trans h
  | case2 a s b₁ s₁ hrun => cases (r.loop_stop hrun).symm.trans h; exact stop hrun
  | case3 a s a₁ s₁ hrun ih => exact next hrun (ih ((r.loop_next hrun).symm.trans h))

theorem loop_lt (stop : ∀ {a s b s'}, r.run a s = .ok (.inr b, s') → size s' < size s)
    (h : r.loop a s = .ok (b, s')) : size s' < size s :=
  r.loop_induction (Q := fun _ s _ s' => size s' < size s) stop
    (fun hrun hlt => Nat.lt_trans hlt (r.consumes hrun)) h

end Round

end Consume
