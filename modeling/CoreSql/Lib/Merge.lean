import Mathlib.Data.List.Perm.Basic
import Mathlib.Data.List.Sort
import Mathlib.Order.Defs.LinearOrder

/-!
# Merging sorted runs

A queue of runs from which the least head is taken until nothing is left.
What comes out is everything that went in, in order. Among equal keys it is
unspecified which head comes first; here it is the one of the earliest run.
-/

namespace Merge

variable {α κ : Type} [LinearOrder κ] (key : α → κ) {runs runs' : List (List α)} {a : α}

def Ascending (l : List α) : Prop := l.Pairwise fun a b => key a ≤ key b

/-- A least head, and the queue after its run moved on. -/
def pop : List (List α) → Option (α × List (List α))
  | [] => none
  | [] :: rest => pop rest
  | (a :: run) :: rest =>
    match pop rest with
    | none => some (a, [run])
    | some (b, others) =>
      if key b < key a then some (b, (a :: run) :: others) else some (a, run :: rest)

variable {key}

theorem pop_eq_none (h : pop key runs = none) : runs.flatten = [] := by
  induction runs with
  | nil => rfl
  | cons run rest ih =>
    cases run with
    | nil => exact ih h
    | cons a run =>
      rw [pop] at h
      split at h
      · cases h
      · split at h <;> cases h

theorem pop_perm (h : pop key runs = some (a, runs')) : runs.flatten.Perm (a :: runs'.flatten) := by
  induction runs generalizing a runs' with
  | nil => cases h
  | cons run rest ih =>
    cases run with
    | nil => exact ih h
    | cons b run =>
      rw [pop] at h
      split at h
      · next hnone =>
          cases h
          simp [pop_eq_none hnone]
      · next c others hpop =>
          split at h
          · cases h
            have hperm := (ih hpop).append_left (b :: run)
            simp only [List.flatten_cons] at hperm ⊢
            exact hperm.trans List.perm_middle
          · cases h
            exact .refl _

/-- The head is least, and the runs that are left are still in order. -/
theorem pop_ascending (hs : ∀ run ∈ runs, Ascending key run) (h : pop key runs = some (a, runs')) :
    (∀ b ∈ runs'.flatten, key a ≤ key b) ∧ ∀ run ∈ runs', Ascending key run := by
  induction runs generalizing a runs' with
  | nil => cases h
  | cons run rest ih =>
    have hrest : ∀ run ∈ rest, Ascending key run := fun r hr => hs r (List.mem_cons_of_mem _ hr)
    cases run with
    | nil => exact ih hrest h
    | cons b run =>
      obtain ⟨hfirst, hrun⟩ := List.pairwise_cons.mp (hs _ List.mem_cons_self)
      rw [pop] at h
      split at h
      · next hnone =>
          cases h
          exact ⟨by simpa using hfirst, fun r hr => List.mem_singleton.mp hr ▸ hrun⟩
      · next c others hpop =>
          obtain ⟨hleast, hothers⟩ := ih hrest hpop
          split at h
          · next hlt =>
              cases h
              refine ⟨fun x hx => ?_, fun r hr => ?_⟩
              · rcases List.mem_append.mp hx with hx | hx
                · rcases List.mem_cons.mp hx with rfl | hx
                  · exact le_of_lt hlt
                  · exact le_trans (le_of_lt hlt) (hfirst x hx)
                · exact hleast x hx
              · rcases List.mem_cons.mp hr with rfl | hr
                · exact hs _ List.mem_cons_self
                · exact hothers r hr
          · next hge =>
              cases h
              refine ⟨fun x hx => ?_, fun r hr => ?_⟩
              · rcases List.mem_append.mp hx with hx | hx
                · exact hfirst x hx
                · -- The other runs have nothing below their own least head.
                  rcases List.mem_cons.mp ((pop_perm hpop).mem_iff.mp hx) with rfl | hx
                  · exact not_lt.mp hge
                  · exact le_trans (not_lt.mp hge) (hleast x hx)
              · rcases List.mem_cons.mp hr with rfl | hr
                · exact hrun
                · exact hrest r hr

variable (key)

def drain (runs : List (List α)) : List α :=
  match _h : pop key runs with
  | none => []
  | some (a, runs') => a :: drain runs'
  termination_by runs.flatten.length
  decreasing_by
    have := (pop_perm _h).length_eq
    simp only [List.length_cons] at this
    omega

variable {key}

theorem drain_perm (runs : List (List α)) : (drain key runs).Perm runs.flatten := by
  fun_induction drain key runs with
  | case1 runs h => rw [pop_eq_none h]
  | case2 runs a runs' h ih => exact (ih.cons a).trans (pop_perm h).symm

theorem drain_ascending (hs : ∀ run ∈ runs, Ascending key run) :
    Ascending key (drain key runs) := by
  fun_induction drain key runs with
  | case1 runs h => exact .nil
  | case2 runs a runs' h ih =>
    obtain ⟨hleast, hruns⟩ := pop_ascending hs h
    exact List.pairwise_cons.mpr
      ⟨fun b hb => hleast b ((drain_perm runs').mem_iff.mp hb), ih hruns⟩

end Merge
