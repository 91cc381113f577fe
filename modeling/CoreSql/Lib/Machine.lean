/-!
# Machines that answer

A deterministic machine takes an event, answers it and moves on. Two things
are ever proved about whole runs of one: that something holds of every
state a run passes through, and that two machines give the same answers.
Both come from one step, and the induction over the events is done here
once.
-/

namespace Machine

variable {σ τ ε ρ : Type} {step stepA : σ → ε → ρ × σ}

/-- Feed a list of events to a machine: the answers, and the last state. -/
def run (step : σ → ε → ρ × σ) : List ε → σ → List ρ × σ
  | [], s => ([], s)
  | e :: es, s =>
    ((step s e).1 :: (run step es (step s e).2).1, (run step es (step s e).2).2)

theorem run_invariant {P : σ → Prop} (hstep : ∀ s e, P s → P (step s e).2) :
    ∀ (es : List ε) (s : σ), P s → P (run step es s).2 := by
  intro es
  induction es with
  | nil => intro s hs; exact hs
  | cons e es ih => intro s hs; exact ih _ (hstep s e hs)

/-- `R` is kept by a step on both sides, and related states answer alike. -/
def Simulation (stepA : σ → ε → ρ × σ) (stepB : τ → ε → ρ × τ)
    (R : σ → τ → Prop) : Prop :=
  ∀ a b e, R a b → (stepA a e).1 = (stepB b e).1 ∧ R (stepA a e).2 (stepB b e).2

theorem Simulation.run {stepB : τ → ε → ρ × τ} {R : σ → τ → Prop} (h : Simulation stepA stepB R) :
    ∀ (es : List ε) (a : σ) (b : τ), R a b →
      (Machine.run stepA es a).1 = (Machine.run stepB es b).1 ∧
        R (Machine.run stepA es a).2 (Machine.run stepB es b).2 := by
  intro es
  induction es with
  | nil => intro a b hab; exact ⟨rfl, hab⟩
  | cons e es ih =>
    intro a b hab
    obtain ⟨hx, hab'⟩ := h a b e hab
    obtain ⟨hxs, hlast⟩ := ih _ _ hab'
    exact ⟨by simp only [Machine.run, hx, hxs], hlast⟩

end Machine
