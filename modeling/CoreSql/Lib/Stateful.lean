import CoreSql.Lib.Fallible

/-!
# Computations that only remember

A computation with a state agrees with one without when, from every state in
which what is remembered is right, it ends as the other does and what it then
remembers is right again. Agreement is kept by every way of composing
computations, so that it has to be shown only where the state is read or
written.
-/

/-- From states with `I` the computation ends as `y` does, in a state with
`I`. -/
def Agrees {ε σ α : Type} (I : σ → Prop) (x : StateT σ (Except ε) α) (y : Except ε α) : Prop :=
  ∀ s, I s → match y with
    | .ok a => ∃ s', x.run s = .ok (a, s') ∧ I s'
    | .error e => x.run s = .error e

namespace Agrees

variable {ε σ α β : Type} {I : σ → Prop} {x : StateT σ (Except ε) α} {y : Except ε α}
  {f : α → StateT σ (Except ε) β} {g : α → Except ε β}

theorem pure (a : α) : Agrees I (Pure.pure a : StateT σ (Except ε) α) (Pure.pure a) :=
  fun s hs => ⟨s, rfl, hs⟩

theorem lift (y : Except ε α) : Agrees I (liftM y : StateT σ (Except ε) α) y := by
  intro s hs
  cases y with
  | ok a => exact ⟨s, rfl, hs⟩
  | error e => exact rfl

section

variable (h : Agrees I x y)
include h

theorem bind_of_ok (hf : ∀ a, y = .ok a → Agrees I (f a) (g a)) : Agrees I (x >>= f) (y >>= g) := by
  intro s hs
  have hx := h s hs
  cases y with
  | error e =>
    show (x >>= f).run s = .error e
    rw [StateT.run_bind, hx]
    rfl
  | ok a =>
    obtain ⟨s', hrun, hs'⟩ := hx
    have hnext := hf a rfl s' hs'
    show match g a with
      | .ok b => ∃ s', (x >>= f).run s = .ok (b, s') ∧ I s'
      | .error e => (x >>= f).run s = .error e
    rw [StateT.run_bind, hrun]
    exact hnext

theorem bind (hf : ∀ a, Agrees I (f a) (g a)) :
    Agrees I (x >>= f) (y >>= g) := h.bind_of_ok fun a _ => hf a

end

theorem mapM {l : List α} (h : ∀ a ∈ l, Agrees I (f a) (g a)) : Agrees I (l.mapM f) (l.mapM g) := by
  induction l with
  | nil => exact pure _
  | cons a l ih =>
    obtain ⟨ha, hl⟩ := List.forall_mem_cons.mp h
    rw [List.mapM_cons, List.mapM_cons]
    exact ha.bind fun b => (ih hl).bind fun bs => pure _

theorem run'_eq (h : Agrees I x y) {s : σ} (hs : I s) : x.run' s = y := by
  have hx := h s hs
  cases y with
  | error e =>
    rw [StateT.run'_eq, hx]
    rfl
  | ok a =>
    obtain ⟨s', hrun, -⟩ := hx
    rw [StateT.run'_eq, hrun]
    rfl

end Agrees
