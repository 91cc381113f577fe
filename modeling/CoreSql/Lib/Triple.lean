import CoreSql.Lib.Visit

/-!
# Triples for computations that keep their state when they fail

A computation that may stop with an error still leaves a state behind, and
what was written to it before the error counts. A triple therefore has two
postconditions: one for the states in which the computation returned, one for
the states in which it gave up. The loop rule is the one for visits that may
stop: a visit that was told to stop has nothing left to establish but the
second postcondition.
-/

/-- From states with `P` the computation returns in states with `Q`, or gives
up in states with `E`. -/
def Triple {ε σ α : Type} (P : σ → Prop) (x : ExceptT ε (StateM σ) α) (Q : α → σ → Prop)
    (E : σ → Prop) : Prop :=
  ∀ s, P s → match x.run.run s with
    | (.ok a, s') => Q a s'
    | (.error _, s') => E s'

namespace Triple

variable {ε σ α β : Type} {P P' : σ → Prop} {Q Q' : α → σ → Prop} {E : σ → Prop}
  {x : ExceptT ε (StateM σ) α} {R : β → σ → Prop}

theorem pure {a : α} (h : ∀ s, P s → Q a s) :
    Triple P (Pure.pure a : ExceptT ε (StateM σ) α) Q E := h

theorem bind {f : α → ExceptT ε (StateM σ) β} (hx : Triple P x Q E)
    (hf : ∀ a, Triple (Q a) (f a) R E) : Triple P (x >>= f) R E := by
  intro s hs
  have hstep := hx s hs
  rw [ExceptT.run_bind, StateT.run_bind]
  cases hrun : x.run.run s with
  | mk result s' =>
    rw [hrun] at hstep
    cases result with
    | ok a => exact hf a s' hstep
    | error e => exact hstep

theorem consequence (hx : Triple P x Q E) (hpre : ∀ s, P' s → P s)
    (hpost : ∀ a s, Q a s → Q' a s) : Triple P' x Q' E := by
  intro s hs
  have h := hx s (hpre s hs)
  revert h
  cases x.run.run s with
  | mk result s' =>
    cases result with
    | ok a => exact hpost a s'
    | error e => exact id

/-- The state is read: the rest may depend on which one it was. -/
theorem get {f : σ → ExceptT ε (StateM σ) β} (h : ∀ s, P s → Triple (· = s) (f s) R E) :
    Triple P (MonadState.get >>= f : ExceptT ε (StateM σ) β) R E :=
  fun s hs => h s hs s rfl

theorem modify {f : σ → σ} {R : PUnit → σ → Prop} (h : ∀ s, P s → R ⟨⟩ (f s)) :
    Triple P (modify f : ExceptT ε (StateM σ) PUnit) R E := h

/-- A computation without state either returns or gives up at once. -/
theorem lift {y : Except ε α} (hok : ∀ a, y = .ok a → ∀ s, P s → Q a s)
    (herror : ∀ s, P s → E s) : Triple P (liftM y : ExceptT ε (StateM σ) α) Q E := by
  intro s hs
  cases y with
  | ok a => exact hok a rfl s hs
  | error e => exact herror s hs

/-- A visit keeps an invariant of what is still to come, or stops. -/
theorem visit {f : α → ExceptT ε (StateM σ) Bool} {I : List α → σ → Prop} {l : List α}
    (h : ∀ a rest, a :: rest <:+ l →
      Triple (I (a :: rest)) (f a) (fun more s => if more then I rest s else E s) E) :
    Triple (I l) (Visit.visit f l) (fun more s => if more then I [] s else E s) E := by
  induction l with
  | nil => exact pure fun s hs => hs
  | cons a rest ih =>
    rw [Visit.visit_cons]
    refine bind (h a rest (List.suffix_refl _)) fun more => ?_
    cases more with
    | true =>
      exact ih fun b tail hb => h b tail (hb.trans (List.suffix_cons a rest))
    | false => exact pure fun s hs => hs

end Triple
