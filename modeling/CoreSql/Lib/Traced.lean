import CoreSql.Lib.Stateful

/-!
# Computations and what they came to

A `Traced` computation may fail, and it notes what it comes to on the way; the
notes stay when it fails. Run beside a computation without notes it says which
parts of that one mattered.

A `MonadRel` is a relation between computations of two monads that composing
them keeps. What is built from the same parts in the same way in both monads
is then related because the parts are. Three of them are used together: a
traced computation has the outcome of the one without notes (`outcomes`), what
it came to on the way it came to with all that belongs to it (`closed`), and a
computation that remembers agrees with it as long as what the trace holds is
remembered rightly (`follows`).
-/

/-- What a computation ended with, and what it noted. -/
structure Traced (ε τ α : Type) where
  outcome : Except ε α
  trace : List τ

namespace Traced

variable {ε τ α β : Type}

instance instMonad : Monad (Traced ε τ) where
  pure a := ⟨.ok a, []⟩
  bind x f :=
    match x.outcome with
    | .ok a => ⟨(f a).outcome, x.trace ++ (f a).trace⟩
    | .error e => ⟨.error e, x.trace⟩

instance instMonadLift : MonadLift (Except ε) (Traced ε τ) where
  monadLift y := ⟨y, []⟩

/-- Note something, and go on. -/
def note (t : τ) (x : Traced ε τ α) : Traced ε τ α := ⟨x.outcome, t :: x.trace⟩

theorem bind_of_ok {x : Traced ε τ α} {a : α} (h : x.outcome = .ok a) (f : α → Traced ε τ β) :
    x >>= f = ⟨(f a).outcome, x.trace ++ (f a).trace⟩ := by
  obtain ⟨outcome, trace⟩ := x
  cases h
  rfl

theorem bind_of_error {x : Traced ε τ α} {e : ε} (h : x.outcome = .error e)
    (f : α → Traced ε τ β) : x >>= f = ⟨.error e, x.trace⟩ := by
  obtain ⟨outcome, trace⟩ := x
  cases h
  rfl

end Traced

/-- A relation between computations of two monads that composition keeps. -/
structure MonadRel (ε : Type) (m m' : Type → Type) [Monad m] [Monad m']
    [MonadLiftT (Except ε) m] [MonadLiftT (Except ε) m'] where
  rel : {α : Type} → m α → m' α → Prop
  pure : ∀ {α : Type} (a : α), rel (Pure.pure a) (Pure.pure a)
  lift : ∀ {α : Type} (y : Except ε α), rel (liftM y) (liftM y)
  bind : ∀ {α β : Type} {x : m α} {y : m' α} {f : α → m β} {g : α → m' β},
    rel x y → (∀ a, rel (f a) (g a)) → rel (x >>= f) (y >>= g)

namespace MonadRel

section

variable {ε : Type} {m m' : Type → Type} [Monad m] [Monad m'] [MonadLiftT (Except ε) m]
  [MonadLiftT (Except ε) m'] (R : MonadRel ε m m')

theorem ite {α : Type} {c : Prop} [Decidable c] {x x' : m α} {y y' : m' α} (h : R.rel x y)
    (h' : R.rel x' y') : R.rel (if c then x else x') (if c then y else y') := by
  split
  · exact h
  · exact h'

end

variable {ε τ σ : Type}

/-- The outcome is that of the computation without notes. -/
def outcomes (ε τ : Type) : MonadRel ε (Traced ε τ) (Except ε) where
  rel x y := x.outcome = y
  pure _ := rfl
  lift _ := rfl
  bind := by
    intro _ _ x y f g hx hf
    cases y with
    | ok a =>
      rw [Traced.bind_of_ok hx]
      exact hf a
    | error e =>
      rw [Traced.bind_of_error hx]
      rfl

/-- All that is noted has the property, and the trace has with it what is below it. -/
def closed (ε : Type) (P : τ → Prop) (below : τ → List τ) :
    MonadRel ε (Traced ε τ) (Traced ε τ) where
  rel x _ := ∀ t ∈ x.trace, P t ∧ below t ⊆ x.trace
  pure _ := by
    intro t ht
    cases ht
  lift _ := by
    intro t ht
    cases ht
  bind := by
    intro _ _ x _ f _ hx hf t ht
    cases hout : x.outcome with
    | error e =>
      rw [Traced.bind_of_error hout] at ht ⊢
      exact hx t ht
    | ok a =>
      rw [Traced.bind_of_ok hout] at ht ⊢
      rcases List.mem_append.mp ht with ht | ht
      · exact ⟨(hx t ht).1, List.Subset.trans (hx t ht).2 (List.subset_append_left ..)⟩
      · exact ⟨(hf a t ht).1, List.Subset.trans (hf a t ht).2 (List.subset_append_right ..)⟩

/-- As long as the trace stays within `known`, the computation that remembers agrees. -/
def follows (ε : Type) (I : σ → Prop) (known : List τ) :
    MonadRel ε (StateT σ (Except ε)) (Traced ε τ) where
  rel x y := y.trace ⊆ known → Agrees I x y.outcome
  pure a _ := Agrees.pure a
  lift y _ := Agrees.lift y
  bind := by
    intro _ _ x y f g hx hf hknown
    cases hout : y.outcome with
    | error e =>
      rw [Traced.bind_of_error hout] at hknown ⊢
      have hagree := hx hknown
      rw [hout] at hagree
      exact hagree.bind_of_ok (g := fun a => (g a).outcome) fun a ha => by cases ha
    | ok a =>
      rw [Traced.bind_of_ok hout] at hknown ⊢
      obtain ⟨hbefore, hafter⟩ := List.append_subset.mp hknown
      have hagree := hx hbefore
      rw [hout] at hagree
      refine hagree.bind_of_ok (g := fun a => (g a).outcome) fun a' ha' => ?_
      cases ha'
      exact hf a hafter

end MonadRel
