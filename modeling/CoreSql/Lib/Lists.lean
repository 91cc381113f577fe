import Mathlib.Algebra.Order.Ring.Nat
import Mathlib.Data.List.Forall2
import Mathlib.Logic.Function.Basic
import Mathlib.Tactic.Common

/-!
# Facts about lists

What the library does not have about lists that are related element by
element, about cutting a sorted list, and about the total size of a family
of lists in which one member is replaced.
-/

namespace Lists

variable {α β : Type} {R : α → β → Prop} {l : List α} {l' : List β} {a : α} {p : α → Bool}
  {n N : Nat} {f : Nat → List α}

theorem forall₂_mem_left (h : List.Forall₂ R l l') (ha : a ∈ l) : ∃ b ∈ l', R a b := by
  induction h with
  | nil => cases ha
  | cons hab _ ih =>
    rcases List.mem_cons.mp ha with rfl | ha
    · exact ⟨_, List.mem_cons_self, hab⟩
    · obtain ⟨b, hb, hab⟩ := ih ha
      exact ⟨b, List.mem_cons_of_mem _ hb, hab⟩

theorem forall₂_mem_right (h : List.Forall₂ R l l') {b : β} (hb : b ∈ l') : ∃ a ∈ l, R a b :=
  forall₂_mem_left (R := flip R) (List.Forall₂.flip h) hb

/-- Related through the elements of a list between. -/
theorem forall₂_through {γ : Type} {S : β → γ → Prop} {T : α → γ → Prop} {m : List γ}
    (h : List.Forall₂ R l l') (h' : List.Forall₂ S l' m)
    (htrans : ∀ a b c, b ∈ l' → R a b → S b c → T a c) : List.Forall₂ T l m := by
  induction h generalizing m with
  | nil => cases h'; exact .nil
  | cons hab _ ih =>
    cases h' with
    | cons hbc hrest =>
      exact .cons (htrans _ _ _ List.mem_cons_self hab hbc)
        (ih hrest fun a b c hb => htrans a b c (List.mem_cons_of_mem _ hb))

/-- Dropping while a condition holds is filtering, when it never holds again. -/
theorem dropWhile_eq_filter (h : l.Pairwise fun a b => p b = true → p a = true) :
    l.dropWhile p = l.filter fun a => !p a := by
  induction l with
  | nil => rfl
  | cons a l ih =>
    obtain ⟨ha, hl⟩ := List.pairwise_cons.mp h
    rw [List.dropWhile_cons, List.filter_cons]
    cases hp : p a with
    | true => simpa using ih hl
    | false =>
      have hall : l.filter (fun b => !p b) = l := by
        refine List.filter_eq_self.mpr fun b hb => ?_
        have := ha b hb
        cases hpb : p b with
        | false => rfl
        | true => rw [this hpb] at hp; cases hp
      simp [hall]

theorem takeWhile_eq_filter
    (h : l.Pairwise fun a b => p b = true → p a = true) : l.takeWhile p = l.filter p := by
  induction l with
  | nil => rfl
  | cons a l ih =>
    obtain ⟨ha, hl⟩ := List.pairwise_cons.mp h
    rw [List.takeWhile_cons, List.filter_cons]
    cases hp : p a with
    | true => simpa using ih hl
    | false =>
      have hnone : l.filter p = [] := by
        refine List.filter_eq_nil_iff.mpr fun b hb hpb => ?_
        rw [ha b hb hpb] at hp
        cases hp
      simp [hnone]

/-- Replacing one member of a family changes the total size by what that
member's size changes. -/
theorem sum_length_update (f : Nat → List α) (l : List α) (hn : n < N) :
    ((List.range N).map fun m => (Function.update f n l m).length).sum + (f n).length =
      ((List.range N).map fun m => (f m).length).sum + l.length := by
  induction N with
  | zero => omega
  | succ N ih =>
    simp only [List.range_succ, List.map_append, List.map_cons, List.map_nil, List.sum_append,
      List.sum_cons, List.sum_nil]
    by_cases h : n = N
    · subst h
      have hsame : (List.range n).map (fun m => (Function.update f n l m).length) =
          (List.range n).map fun m => (f m).length := by
        refine List.map_congr_left fun m hm => ?_
        have : m ≠ n := by
          have := List.mem_range.mp hm
          omega
        rw [Function.update_of_ne this]
      rw [hsame, Function.update_self]
      omega
    · have := ih (by omega)
      rw [Function.update_of_ne (by omega : N ≠ n)]
      omega

/-- Replacing one member of a family exchanges what that member has. -/
theorem flatMap_update_perm (f : Nat → List α) (l : List α) (hn : n < N) :
    ((List.range N).flatMap (Function.update f n l) ++ f n).Perm
      ((List.range N).flatMap f ++ l) := by
  induction N with
  | zero => omega
  | succ N ih =>
    simp only [List.range_succ, List.flatMap_append, List.flatMap_cons, List.flatMap_nil,
      List.append_nil]
    by_cases h : n = N
    · subst h
      have hsame : (List.range n).flatMap (Function.update f n l) = (List.range n).flatMap f := by
        refine List.flatMap_congr fun m hm => ?_
        rw [Function.update_of_ne (Nat.ne_of_lt (List.mem_range.mp hm))]
      rw [hsame, Function.update_self, List.append_assoc, List.append_assoc]
      exact List.perm_append_comm.append_left _
    · rw [Function.update_of_ne (by omega : N ≠ n), List.append_assoc, List.append_assoc]
      refine (List.perm_append_comm.append_left _).trans ?_
      rw [← List.append_assoc]
      refine ((ih (by omega)).append_right _).trans ?_
      rw [List.append_assoc]
      exact List.perm_append_comm.append_left _

theorem flatMap_update_insert (hn : n < N) (h : l.Perm (a :: f n)) :
    ((List.range N).flatMap (Function.update f n l)).Perm (a :: (List.range N).flatMap f) := by
  refine (List.perm_append_right_iff (f n)).mp ((flatMap_update_perm f l hn).trans ?_)
  exact (h.append_left _).trans List.perm_middle

theorem flatMap_update_erase (hn : n < N) (h : (f n).Perm (a :: l)) :
    ((List.range N).flatMap f).Perm (a :: (List.range N).flatMap (Function.update f n l)) := by
  refine (List.perm_append_right_iff l).mp ((flatMap_update_perm f l hn).symm.trans ?_)
  exact (h.append_left _).trans List.perm_middle

theorem drop_flatMap {f : α → List β} (h : ∀ a ∈ l, (f a).length = n)
    (i : Nat) : (l.flatMap f).drop (i * n) = (l.drop i).flatMap f := by
  induction i generalizing l with
  | zero => simp
  | succ i ih =>
    cases l with
    | nil => simp
    | cons a l =>
      have ha := h a List.mem_cons_self
      rw [List.flatMap_cons, List.drop_succ_cons, ← ih fun b hb => h b (List.mem_cons_of_mem _ hb),
        Nat.succ_mul, Nat.add_comm, ← ha, List.drop_length_add_append]

end Lists
