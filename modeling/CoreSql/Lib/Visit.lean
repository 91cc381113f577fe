import Mathlib.Control.Lawful

/-!
# Visits that may stop

A loop that hands the elements of a list to a callback until the callback
asks it to stop. Readers of a collection are written against a callback so
that nothing is built for elements nobody wants; what such a reader does is
settled once it is known which list it visits. The lemmas turn nested
visits, conditional visits and visits that keep something for themselves
into the visit of one list.
-/

namespace Visit

variable {α β τ : Type} {m : Type → Type} [Monad m] {g : α → m Bool}

/-- Visit elements while the callback answers true. -/
def visit (f : α → m Bool) : List α → m Bool
  | [] => pure true
  | a :: l => do
      if ← f a then visit f l else return false

section

variable {f g : α → m Bool} {l : List α}

@[simp] theorem visit_nil : visit f [] = pure true := rfl

theorem visit_cons (f : α → m Bool) (a : α) (l : List α) :
    visit f (a :: l) = do if ← f a then visit f l else return false := rfl

theorem visit_congr (h : ∀ a ∈ l, f a = g a) : visit f l = visit g l := by
  induction l with
  | nil => rfl
  | cons a l ih =>
    rw [visit_cons, visit_cons, h a List.mem_cons_self,
      ih fun b hb => h b (List.mem_cons_of_mem _ hb)]

end

theorem visit_map (f : β → m Bool) (g : α → β) (l : List α) :
    visit f (l.map g) = visit (fun a => f (g a)) l := by
  induction l with
  | nil => rfl
  | cons a l ih => rw [List.map_cons, visit_cons, visit_cons, ih]

variable [LawfulMonad m] {f : α → m Bool} {l : List α}

theorem visit_idle (h : ∀ a ∈ l, f a = pure true) : visit f l = pure true := by
  induction l with
  | nil => rfl
  | cons a l ih =>
    rw [visit_cons, h a List.mem_cons_self, pure_bind,
      ih fun b hb => h b (List.mem_cons_of_mem _ hb)]
    rfl

theorem visit_singleton (f : α → m Bool) (a : α) : visit f [a] = f a := by
  have hstop : (fun more : Bool => if more then visit f [] else pure false) = pure := by
    funext more
    cases more <;> rfl
  rw [visit_cons, hstop, bind_pure]

theorem visit_append (f : α → m Bool) (l l' : List α) :
    visit f (l ++ l') = do if ← visit f l then visit f l' else return false := by
  induction l with
  | nil => simp
  | cons a l ih =>
    rw [List.cons_append, visit_cons, visit_cons, ih, bind_assoc]
    refine bind_congr fun more => ?_
    cases more <;> simp

theorem visit_flatMap (f : β → m Bool) (g : α → List β) (l : List α) :
    visit f (l.flatMap g) = visit (fun a => visit f (g a)) l := by
  induction l with
  | nil => rfl
  | cons a l ih => rw [List.flatMap_cons, visit_append, visit_cons, ih]

theorem visit_filter (f : α → m Bool) (p : α → Bool) (l : List α) :
    visit f (l.filter p) = visit (fun a => if p a then f a else pure true) l := by
  induction l with
  | nil => rfl
  | cons a l ih =>
    rw [List.filter_cons, visit_cons]
    cases hp : p a with
    | true => simp [visit_cons, ih]
    | false => simp [ih]

/-- A visit that carries something of its own beside the callback: when every
round keeps an invariant of it and otherwise does what another callback does,
so does the whole visit. -/
theorem run_visit {f : α → StateT τ m Bool} (Inv : τ → Prop)
    (h : ∀ a ∈ l, ∀ t, Inv t → ∃ t', Inv t' ∧ (f a).run t = (fun more => (more, t')) <$> g a)
    {t : τ} (ht : Inv t) : Prod.fst <$> (visit f l).run t = visit g l := by
  induction l generalizing t with
  | nil => simp
  | cons a l ih =>
    obtain ⟨t', ht', hround⟩ := h a List.mem_cons_self t ht
    have hrest := ih (fun b hb => h b (List.mem_cons_of_mem _ hb)) ht'
    rw [visit_cons, visit_cons, StateT.run_bind, hround, map_bind, bind_map_left]
    refine bind_congr fun more => ?_
    cases more with
    | true => exact hrest
    | false => simp

theorem run_visit_lift (f : α → m Bool) (l : List α) (t : τ) :
    (visit (fun a => (monadLift (f a) : StateT τ m Bool)) l).run t =
      (fun more => (more, t)) <$> visit f l := by
  induction l with
  | nil => simp
  | cons a l ih =>
    rw [visit_cons, visit_cons, StateT.run_bind, StateT.run_monadLift, map_bind]
    simp only [monadLift_self, bind_assoc, pure_bind]
    refine bind_congr fun more => ?_
    cases more with
    | true => exact ih
    | false => simp

theorem run_visit_modify (step : α → τ → τ) (l : List α) (t : τ) :
    (visit (fun a => (fun _ => true) <$> (modify (step a) : StateT τ m PUnit)) l).run t =
      pure (true, l.foldl (fun t a => step a t) t) := by
  induction l generalizing t with
  | nil => simp
  | cons a l ih =>
    rw [visit_cons, List.foldl_cons, ← ih]
    simp

end Visit
