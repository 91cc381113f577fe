import Mathlib.Data.List.Forall2

/-!
# Computations that may refuse

Inversion lemmas for `Except`: what it means that a sequence, a check or a
loop came through, and which part of it an error came from. Checks that only
accept or reject are read as propositions through these, so that no later
proof has to look at the order in which the checks were made.
-/

namespace Fallible

variable {ε α β σ : Type} {x : Except ε α} {f : α → Except ε β} {b : β} {l : List α} {s s' : σ}

theorem bind_eq_ok : (x >>= f) = .ok b ↔ ∃ a, x = .ok a ∧ f a = .ok b := by
  cases x with
  | error e => simp [bind, Except.bind]
  | ok a => simp [bind, Except.bind]

theorem bind_eq_error {e : ε} :
    (x >>= f) = .error e ↔ x = .error e ∨ ∃ a, x = .ok a ∧ f a = .error e := by
  cases x with
  | error e' => simp [bind, Except.bind]
  | ok a => simp [bind, Except.bind]

theorem ok_bind (a : α) (f : α → Except ε β) : (Except.ok a >>= f) = f a := rfl

theorem map_eq_ok {f : α → β} : f <$> x = .ok b ↔ ∃ a, x = .ok a ∧ f a = b := by
  cases x with
  | error e => simp [Functor.map, Except.map]
  | ok a => simp [Functor.map, Except.map]

theorem lift_ok_bind {m : Type → Type} [Monad m] [LawfulMonad m] [MonadLiftT (Except ε) m]
    [LawfulMonadLiftT (Except ε) m] (a : α) (f : α → m β) :
    ((monadLift (Except.ok a : Except ε α) : m α) >>= f) = f a := by
  show ((monadLift (pure a : Except ε α) : m α) >>= f) = f a
  rw [LawfulMonadLiftT.monadLift_pure, pure_bind]

/-! ## Loops -/

theorem forM_eq_ok {f : α → Except ε Unit} : l.forM f = .ok () ↔ ∀ a ∈ l, f a = .ok () := by
  induction l with
  | nil => simp [List.forM, pure, Except.pure]
  | cons a l ih =>
    rw [List.forM, bind_eq_ok]
    constructor
    · rintro ⟨⟨⟩, ha, hl⟩ b hb
      rcases List.mem_cons.mp hb with rfl | hb
      · exact ha
      · exact ih.mp hl b hb
    · intro h
      exact ⟨(), h a List.mem_cons_self, ih.mpr fun b hb => h b (List.mem_cons_of_mem _ hb)⟩

theorem mapM_eq_ok {l' : List β} :
    l.mapM f = .ok l' ↔ List.Forall₂ (fun a b => f a = .ok b) l l' := by
  induction l generalizing l' with
  | nil =>
    cases l' <;> simp [pure, Except.pure]
  | cons a l ih =>
    rw [List.mapM_cons, bind_eq_ok]
    constructor
    · rintro ⟨b, hb, h⟩
      obtain ⟨bs, hbs, h⟩ := bind_eq_ok.mp h
      cases h
      exact .cons hb (ih.mp hbs)
    · rintro (_ | ⟨hb, hbs⟩)
      exact ⟨_, hb, bind_eq_ok.mpr ⟨_, ih.mpr hbs, rfl⟩⟩

theorem mapM_congr {g : α → Except ε β} (h : ∀ a ∈ l, f a = g a) : l.mapM f = l.mapM g := by
  induction l with
  | nil => rfl
  | cons a l ih =>
    obtain ⟨ha, hl⟩ := List.forall_mem_cons.mp h
    rw [List.mapM_cons, List.mapM_cons, ha, ih hl]

/-- What every round of an accumulating loop keeps, the loop keeps. -/
theorem foldlM_invariant {f : σ → α → Except ε σ} {P : σ → Prop}
    (hstep : ∀ s a s', a ∈ l → P s → f s a = .ok s' → P s') (hs : P s)
    (h : l.foldlM f s = .ok s') : P s' := by
  induction l generalizing s with
  | nil => cases h; exact hs
  | cons a l ih =>
    rw [List.foldlM_cons, bind_eq_ok] at h
    obtain ⟨t, ht, h⟩ := h
    exact ih (fun s b s' hb => hstep s b s' (List.mem_cons_of_mem _ hb))
      (hstep s a t List.mem_cons_self hs ht) h

theorem foldlM_rounds {f : σ → α → Except ε σ}
    (h : l.foldlM f s = .ok s') : ∀ a ∈ l, ∃ s₁ s₂, f s₁ a = .ok s₂ := by
  induction l generalizing s with
  | nil => simp
  | cons a l ih =>
    rw [List.foldlM_cons, bind_eq_ok] at h
    obtain ⟨t, ht, h⟩ := h
    intro b hb
    rcases List.mem_cons.mp hb with rfl | hb
    · exact ⟨s, t, ht⟩
    · exact ih h b hb

/-- The elements a test that may refuse accepts. -/
def filter (f : α → Except ε Bool) : List α → Except ε (List α)
  | [] => .ok []
  | a :: l => do
      let keep ← f a
      let rest ← filter f l
      return if keep then a :: rest else rest

theorem filter_append (f : α → Except ε Bool) (l l' : List α) : filter f (l ++ l') = do
      let found ← filter f l let others ← filter f l' return found ++ others := by
  induction l with
  | nil =>
    show filter f l' = (filter f l').bind fun others => .ok ([] ++ others)
    cases filter f l' <;> rfl
  | cons a l ih =>
    rw [List.cons_append, filter, filter, ih]
    cases f a with
    | error e => rfl
    | ok keep =>
      cases filter f l with
      | error e => rfl
      | ok found =>
        cases filter f l' with
        | error e => rfl
        | ok others => cases keep <;> rfl

theorem filter_congr {f g : α → Except ε Bool} (h : ∀ a ∈ l, f a = g a) :
    filter f l = filter g l := by
  induction l with
  | nil => rfl
  | cons a l ih =>
    rw [filter, filter, h a List.mem_cons_self, ih fun b hb => h b (List.mem_cons_of_mem _ hb)]

theorem filter_eq_ok {f : α → Except ε Bool} {g : α → Bool}
    (h : ∀ a ∈ l, f a = .ok (g a)) : filter f l = .ok (l.filter g) := by
  induction l with
  | nil => rfl
  | cons a l ih =>
    rw [filter, h a List.mem_cons_self, ih fun b hb => h b (List.mem_cons_of_mem _ hb),
      List.filter_cons]
    cases g a <;> rfl

theorem filter_error {f : α → Except ε Bool} :
    (∃ e, filter f l = .error e) ↔ ∃ a ∈ l, ∃ e, f a = .error e := by
  induction l with
  | nil => simp [filter]
  | cons a l ih =>
    rw [filter]
    cases ha : f a with
    | error e => simpa [bind, Except.bind] using .inl ⟨e, ha⟩
    | ok keep =>
      have hone : ¬∃ e, f a = .error e := by simp [ha]
      cases hl : filter f l with
      | error e =>
        rw [hl] at ih
        simpa [bind, Except.bind] using .inr (ih.mp ⟨e, rfl⟩)
      | ok rest =>
        rw [hl] at ih
        simp only [reduceCtorEq, exists_false, false_iff] at ih
        simp only [bind, Except.bind, pure, Except.pure, reduceCtorEq, exists_false,
          List.mem_cons, exists_eq_or_imp, hone, ih, or_self]

end Fallible
