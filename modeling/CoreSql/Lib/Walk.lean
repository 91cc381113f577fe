import CoreSql.Lib.Avl
import CoreSql.Lib.Lists

/-!
# Walking a tree between bounds

An iterator over the entries of a tree in either direction. It keeps a stack
of the nodes whose near side is done, begins at the first entry that is not
before the bounds, and ends at the first one that is not within them: a
callback says where an entry stands, below zero before the bounds and above
zero after them.

`remaining` is what an iterator is still going to return, and all a client
needs: `next` takes its head, and a new iterator over a tree in which
positions do not decrease returns the entries at position zero.
-/

namespace Avl

variable {α : Type} (reverse : Bool) (position : α → Int) {t : Avl α} {a : α}
  {stack : List (α × Avl α)}

def walk (t : Avl α) : List α := if reverse then t.entries.reverse else t.entries

/-- Push a node and the near sides below it. A node on the stack is its entry
and its far side. -/
def descend : Avl α → List (α × Avl α) → List (α × Avl α)
  | nil, stack => stack
  | node a left right _, stack =>
    if reverse then descend right ((a, left) :: stack) else descend left ((a, right) :: stack)

/-- Push the way to the first entry that is not before the bounds. -/
def seek : Avl α → List (α × Avl α) → List (α × Avl α)
  | nil, stack => stack
  | node a left right _, stack =>
    if reverse then
      if 0 < position a then seek left stack else seek right ((a, left) :: stack)
    else if position a < 0 then seek right stack
    else seek left ((a, right) :: stack)

/-- The next entry; one that is out of bounds ends the walk. -/
def next : List (α × Avl α) → Option α × List (α × Avl α)
  | [] => (none, [])
  | (a, side) :: stack => if position a ≠ 0 then (none, [])
    else (some a, descend reverse side stack)

def upcoming (stack : List (α × Avl α)) : List α := stack.flatMap fun e => e.1 :: e.2.walk reverse

def remaining (stack : List (α × Avl α)) : List α :=
  (upcoming reverse stack).takeWhile fun a => position a == 0

variable {reverse position}

theorem walk_forward (a : α) (left right : Avl α) (h : Nat) :
    (node a left right h).walk false = left.walk false ++ a :: right.walk false := rfl

theorem walk_backward (a : α) (left right : Avl α) (h : Nat) :
    (node a left right h).walk true = right.walk true ++ a :: left.walk true := by
  simp [walk]

theorem walk_perm (t : Avl α) : (t.walk reverse).Perm t.entries := by
  rw [walk]
  split
  · exact List.reverse_perm _
  · exact .refl _

theorem mem_walk : a ∈ t.walk reverse ↔ a ∈ t.entries := t.walk_perm.mem_iff

theorem upcoming_descend (t : Avl α) (stack : List (α × Avl α)) :
    upcoming reverse (descend reverse t stack) = t.walk reverse ++ upcoming reverse stack := by
  induction t generalizing stack with
  | nil => cases reverse <;> rfl
  | node a left right h ihl ihr =>
    rw [descend]
    cases reverse with
    | false =>
      rw [if_neg Bool.false_ne_true, ihl, walk_forward]
      simp [upcoming]
    | true =>
      rw [if_pos rfl, ihr, walk_backward]
      simp [upcoming]

/-- The entry is before the bounds, in the direction of the walk. -/
def skipped (reverse : Bool) (position : α → Int) (a : α) : Bool :=
  if reverse then 0 < position a else position a < 0

/-- Seeking leaves out what is before the bounds, when nothing within them is
before that. -/
theorem upcoming_seek (stack : List (α × Avl α)) (h : (t.walk reverse).Pairwise fun a b =>
      skipped reverse position b = true → skipped reverse position a = true) :
    upcoming reverse (seek reverse position t stack) =
      (t.walk reverse).filter (fun a => !skipped reverse position a) ++ upcoming reverse stack := by
  induction t generalizing stack with
  | nil => cases reverse <;> rfl
  | node a left right height ihl ihr =>
    have hnear : ∀ (near far : List α), (near ++ a :: far).Pairwise (fun a b =>
          skipped reverse position b = true → skipped reverse position a = true) →
        (skipped reverse position a = true →
          (near ++ a :: far).filter (fun a => !skipped reverse position a) =
            far.filter fun a => !skipped reverse position a) ∧
        (skipped reverse position a = false →
          (near ++ a :: far).filter (fun a => !skipped reverse position a) =
            near.filter (fun a => !skipped reverse position a) ++ a :: far) := by
      intro near far h
      obtain ⟨-, hafar, hcross⟩ := List.pairwise_append.mp h
      obtain ⟨hfar, -⟩ := List.pairwise_cons.mp hafar
      constructor
      · intro hskip
        have hnone : near.filter (fun a => !skipped reverse position a) = [] := by
          refine List.filter_eq_nil_iff.mpr fun b hb => ?_
          simp [hcross b hb a List.mem_cons_self hskip]
        simp [hnone, hskip]
      · intro hkeep
        have hall : far.filter (fun a => !skipped reverse position a) = far := by
          refine List.filter_eq_self.mpr fun b hb => ?_
          by_contra hskip
          rw [Bool.not_eq_true, Bool.not_eq_false'] at hskip
          simp [hfar b hb hskip] at hkeep
        simp [hall, hkeep]
    rw [seek]
    cases reverse with
    | false =>
      rw [walk_forward] at h ⊢
      obtain ⟨hskip, hkeep⟩ := hnear _ _ h
      obtain ⟨hleft, hright, -⟩ := List.pairwise_append.mp h
      rw [if_neg Bool.false_ne_true]
      split
      · next hlt =>
            rw [hskip (by simpa [skipped] using hlt), ihr _ (List.pairwise_cons.mp hright).2]
      · next hge =>
          rw [hkeep (by simpa [skipped] using hge), ihl _ hleft]
          simp [upcoming]
    | true =>
      rw [walk_backward] at h ⊢
      obtain ⟨hskip, hkeep⟩ := hnear _ _ h
      obtain ⟨hright, hleft, -⟩ := List.pairwise_append.mp h
      rw [if_pos rfl]
      split
      · next hlt => rw [hskip (by simpa [skipped] using hlt), ihl _ (List.pairwise_cons.mp hleft).2]
      · next hge =>
          rw [hkeep (by simpa [skipped] using hge), ihr _ hright]
          simp [upcoming]

theorem next_nil (h : remaining reverse position stack = []) :
    next reverse position stack = (none, []) := by
  cases stack with
  | nil => rfl
  | cons e stack =>
    have hne : position e.1 ≠ 0 := by
      intro h0
      simp [remaining, upcoming, h0] at h
    rw [next, if_pos hne]

theorem next_cons {l : List α} (h : remaining reverse position stack = a :: l) :
    ∃ stack', next reverse position stack = (some a, stack') ∧
      remaining reverse position stack' = l := by
  cases stack with
  | nil => cases h
  | cons e stack =>
    rw [remaining, upcoming, List.flatMap_cons, List.cons_append, List.takeWhile_cons] at h
    split at h
    · next h0 =>
        obtain ⟨rfl, hrest⟩ := List.cons.inj h
        refine ⟨descend reverse e.2 stack, ?_, ?_⟩
        · rw [next, if_neg (by simpa using h0)]
        · rw [remaining, upcoming_descend]
          exact hrest
    · cases h

theorem remaining_seek (h : (t.walk reverse).Pairwise fun a b =>
      if reverse then position b ≤ position a else position a ≤ position b) :
    remaining reverse position (seek reverse position t []) =
      (t.walk reverse).filter fun a => position a == 0 := by
  have hskipped : (t.walk reverse).Pairwise fun a b =>
      skipped reverse position b = true → skipped reverse position a = true := by
    refine h.imp fun {a b} hab => ?_
    cases reverse <;> simp only [skipped, Bool.false_eq_true, if_false, if_true,
      decide_eq_true_eq] at hab ⊢ <;> omega
  rw [remaining, upcoming_seek _ hskipped,
    show upcoming reverse ([] : List (α × Avl α)) = [] from rfl,
    List.append_nil, Lists.takeWhile_eq_filter, List.filter_filter]
  · refine List.filter_congr fun a _ => ?_
    cases h0 : position a == 0 with
    | false => rfl
    | true => simp [skipped, eq_of_beq h0]
  · -- Among what is not skipped, a position that is not zero is never followed by one that is.
    refine List.Pairwise.imp_of_mem ?_ (h.sublist List.filter_sublist)
    intro a b ha hb hab hzero
    have ha := (List.mem_filter.mp ha).2
    cases reverse <;> simp only [skipped, Bool.false_eq_true, if_false, if_true, beq_iff_eq,
      Bool.not_eq_true', decide_eq_false_iff_not] at ha hab hzero ⊢ <;> omega

end Avl
