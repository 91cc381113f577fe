import CoreSql.Lib.ThreeWay
import Mathlib.Data.List.Sort
import Mathlib.Data.List.TakeWhile

/-!
# Stable sorting by sorting runs

A list that is already in the order of some keys can be sorted stably by
putting every run of ties into its original order. `sortRuns` does that for
runs of a relation `same`, which need not be the ties of the final order: it
may separate elements that do tie there. What it then gets wrong is what
`Ties.pair_sortRuns_iff` says: two elements change places exactly when
something that is not the same as the first stands between them.

`take_eq_take_iff` says when a rearrangement of a sorted list agrees with it
on its first elements: none of them is preceded by a larger one.
-/

namespace Runs

variable {α β : Type} {sorted l : List α}

/-! ## Stability -/

section

variable {P : α → Prop} {cmp : α → α → Int} {r : α → α → Prop} {a b : α} {l : List α}

/-- The order of a stable sort: the comparison, and among ties the order they
came in. -/
def Stably (cmp : α → α → Int) (r : α → α → Prop) (a b : α) : Prop :=
  cmp a b < 0 ∨ (cmp a b = 0 ∧ r a b)

section

variable (h : ThreeWay P cmp)
include h

theorem Stably.asymm (ha : P a) (hb : P b)
    (hr : r a b → ¬r b a) (hab : Stably cmp r a b) : ¬Stably cmp r b a := by
  have hswap := h.swap ha hb
  have hswap' := h.swap hb ha
  rintro (hba | ⟨h0, hba⟩) <;> rcases hab with hab | ⟨h0', hab⟩
  · omega
  · omega
  · omega
  · exact hr hab hba

theorem orderedInsert_stable (ha : P a)
    (hl : ∀ b ∈ l, P b) (hr : ∀ b ∈ l, r a b) (hs : l.Pairwise (Stably cmp r)) :
    (l.orderedInsert (fun a b => cmp a b ≤ 0) a).Pairwise (Stably cmp r) := by
  induction l with
  | nil => simp
  | cons b l ih =>
    obtain ⟨hb, hs⟩ := List.pairwise_cons.mp hs
    have hPb := hl b List.mem_cons_self
    rw [List.orderedInsert]
    split
    · next hle =>
        refine .cons (fun c hc => ?_) (.cons hb hs)
        have hac : cmp a c ≤ 0 := by
          rcases List.mem_cons.mp hc with rfl | hc
          · exact hle
          · refine h.trans ha hPb (hl c (List.mem_cons_of_mem _ hc)) hle ?_
            rcases hb c hc with hlt | ⟨h0, -⟩ <;> omega
        rcases lt_or_eq_of_le hac with hlt | h0
        · exact .inl hlt
        · exact .inr ⟨h0, hr c hc⟩
    · next hgt =>
        refine .cons (fun c hc => ?_) (ih (fun c hc => hl c (List.mem_cons_of_mem _ hc))
          (fun c hc => hr c (List.mem_cons_of_mem _ hc)) hs)
        rcases List.mem_cons.mp ((List.perm_orderedInsert _ a l).mem_iff.mp hc) with rfl | hc
        · exact .inl ((h.swap ha hPb).mp (by omega))
        · exact hb c hc

theorem insertionSort_stable (hl : ∀ a ∈ l, P a) (hr : l.Pairwise r) :
    (l.insertionSort fun a b => cmp a b ≤ 0).Pairwise (Stably cmp r) := by
  induction l with
  | nil => exact .nil
  | cons a l ih =>
    obtain ⟨ha, hr⟩ := List.pairwise_cons.mp hr
    have hmem : ∀ b, b ∈ l.insertionSort (fun a b => cmp a b ≤ 0) ↔ b ∈ l :=
      fun b => (List.perm_insertionSort _ l).mem_iff
    exact orderedInsert_stable h (hl a List.mem_cons_self)
      (fun b hb => hl b (List.mem_cons_of_mem _ ((hmem b).mp hb)))
      (fun b hb => ha b ((hmem b).mp hb))
      (ih (fun b hb => hl b (List.mem_cons_of_mem _ hb)) hr)

end

end

/-! ## Runs -/

section

variable [LinearOrder β] (same : α → α → Bool) (place : α → β) {l l' : List α} {a : α}

/-- Put every run of elements that are the same as its first one into the
order of their places. -/
def sortRuns : List α → List α
  | [] => []
  | a :: l =>
    (a :: l.takeWhile (same a)).insertionSort (fun a b => place a ≤ place b) ++
      sortRuns (l.dropWhile (same a))
  termination_by l => l.length
  decreasing_by
    have := (List.dropWhile_sublist (same a) (l := l)).length_le
    simp only [List.length_cons]
    omega

theorem sortRuns_cons (a : α) (l : List α) : sortRuns same place (a :: l) =
      (a :: l.takeWhile (same a)).insertionSort (fun a b => place a ≤ place b) ++
        sortRuns same place (l.dropWhile (same a)) := by
  rw [sortRuns]

theorem sortRuns_perm (l : List α) : (sortRuns same place l).Perm l := by
  fun_induction sortRuns same place l with
  | case1 => exact .refl _
  | case2 a l ih =>
    refine ((List.perm_insertionSort _ _).append ih).trans ?_
    rw [List.cons_append, List.takeWhile_append_dropWhile]

variable {same place}

/-- What the relation of a run has to be on the elements of a list. -/
structure Ties (P : α → Prop) (same : α → α → Bool) : Prop where
  symm : ∀ {a b}, P a → P b → same a b = true → same b a = true
  trans : ∀ {a b c}, P a → P b → P c → same a b = true → same b c = true → same a c = true

theorem pair_append :
    [x, y].Sublist (l ++ l') ↔ [x, y].Sublist l ∨ (x ∈ l ∧ y ∈ l') ∨ [x, y].Sublist l' := by
  rw [List.sublist_append_iff]
  constructor
  · rintro ⟨r, r', heq, hr, hr'⟩
    rcases r with _ | ⟨a, _ | ⟨b, r⟩⟩
    · exact .inr (.inr (heq ▸ hr'))
    · obtain ⟨rfl, rfl⟩ := List.cons.inj heq
      exact .inr (.inl ⟨List.singleton_sublist.mp hr, List.singleton_sublist.mp hr'⟩)
    · simp only [List.cons_append, List.cons.injEq] at heq
      obtain ⟨rfl, rfl, hnil⟩ := heq
      obtain ⟨rfl, rfl⟩ := List.append_eq_nil_iff.mp hnil.symm
      exact .inl hr
  · rintro (h | ⟨hx, hy⟩ | h)
    · exact ⟨[x, y], [], rfl, h, List.nil_sublist _⟩
    · exact ⟨[x], [y], rfl, List.singleton_sublist.mpr hx, List.singleton_sublist.mpr hy⟩
    · exact ⟨[], [x, y], rfl, List.nil_sublist _, h⟩

variable {P : α → Prop} {x y : α}

theorem Ties.same_of_run (h : Ties P same) (hP : ∀ b ∈ a :: l, P b)
    (hx : x ∈ a :: l.takeWhile (same a)) (hy : y ∈ a :: l.takeWhile (same a)) (hne : x ≠ y) :
    same x y = true := by
  have hrun : ∀ b ∈ l.takeWhile (same a), same a b = true := fun b hb => List.mem_takeWhile_imp hb
  have hmem : ∀ b ∈ a :: l.takeWhile (same a), P b := fun b hb => by
    rcases List.mem_cons.mp hb with rfl | hb
    · exact hP _ List.mem_cons_self
    · exact hP b (List.mem_cons_of_mem _ ((List.takeWhile_sublist _).subset hb))
  have hPx := hmem x hx
  have hPy := hmem y hy
  rcases List.mem_cons.mp hx with rfl | hx
  · rcases List.mem_cons.mp hy with rfl | hy
    · exact absurd rfl hne
    · exact hrun y hy
  · have hax := h.symm (hP a List.mem_cons_self) hPx (hrun x hx)
    rcases List.mem_cons.mp hy with rfl | hy
    · exact hax
    · exact h.trans hPx (hP a List.mem_cons_self) hPy hax (hrun y hy)

theorem Ties.pair_of_sortRuns (h : Ties P same) (hP : ∀ a ∈ l, P a)
    (hne : x ≠ y) (hxy : [x, y].Sublist (sortRuns same place l)) :
    [x, y].Sublist l ∨ same x y = true := by
  induction l using sortRuns.induct same with
  | case1 => simp [sortRuns] at hxy
  | case2 a l ih =>
    have hsplit : a :: l = (a :: l.takeWhile (same a)) ++ l.dropWhile (same a) := by
      rw [List.cons_append, List.takeWhile_append_dropWhile]
    have hrun := List.perm_insertionSort (fun a b => place a ≤ place b)
      (a :: l.takeWhile (same a))
    rw [sortRuns_cons, pair_append] at hxy
    rw [hsplit, pair_append]
    rcases hxy with hxy | ⟨hx, hy⟩ | hxy
    · refine .inr (h.same_of_run hP (hrun.mem_iff.mp (hxy.subset (by simp)))
        (hrun.mem_iff.mp (hxy.subset (by simp))) hne)
    · exact .inl (.inr (.inl ⟨hrun.mem_iff.mp hx, (sortRuns_perm same place _).mem_iff.mp hy⟩))
    · rcases ih (fun b hb => hP b (List.mem_cons_of_mem _
        ((List.dropWhile_sublist _).subset hb))) hxy with hxy | hsame
      · exact .inl (.inr (.inr hxy))
      · exact .inr hsame

/-- Two elements that are the same stay in the wrong order exactly when
something else stands between them. -/
theorem Ties.pair_sortRuns_iff (h : Ties P same) (hP : ∀ a ∈ l, P a)
    (hsame : same x y = true) (hplace : place y < place x) :
    [x, y].Sublist (sortRuns same place l) ↔ ∃ z, [x, z, y].Sublist l ∧ same x z = false := by
  induction l using sortRuns.induct same with
  | case1 => simp [sortRuns]
  | case2 a l ih =>
    have hsplit : a :: l = (a :: l.takeWhile (same a)) ++ l.dropWhile (same a) := by
      rw [List.cons_append, List.takeWhile_append_dropWhile]
    have hrun := List.perm_insertionSort (fun a b => place a ≤ place b)
      (a :: l.takeWhile (same a))
    have hsorted := List.pairwise_insertionSort (fun a b => place a ≤ place b)
      (a :: l.takeWhile (same a))
    have hrest : ∀ b ∈ l.dropWhile (same a), P b := fun b hb =>
      hP b (List.mem_cons_of_mem _ ((List.dropWhile_sublist _).subset hb))
    rw [sortRuns_cons, pair_append, ih hrest, hsplit]
    constructor
    · rintro (hxy | ⟨hx, hy⟩ | ⟨z, hxzy, hz⟩)
      · exact absurd (List.pairwise_iff_forall_sublist.mp hsorted hxy) (not_le_of_gt hplace)
      · replace hx := hrun.mem_iff.mp hx
        replace hy := (sortRuns_perm same place _).mem_iff.mp hy
        -- What ended the run stands between them.
        cases hdrop : l.dropWhile (same a) with
        | nil =>
          rw [hdrop] at hy
          cases hy
        | cons z d =>
          have hPz : P z := hrest z (by simp [hdrop])
          have hPx : P x := by
            rw [hsplit] at hP
            exact hP x (List.mem_append_left _ hx)
          have hPy : P y := hrest y hy
          have haz : same a z = false := by
            have := List.dropWhile_get_zero_not (same a) l (by simp [hdrop])
            simpa [hdrop] using this
          have hxz : same x z = false := by
            by_contra hxz
            rw [Bool.not_eq_false] at hxz
            rcases List.mem_cons.mp hx with rfl | hx
            · simp [hxz] at haz
            · have := h.trans (hP a List.mem_cons_self) hPx hPz (List.mem_takeWhile_imp hx) hxz
              simp [this] at haz
          have hyd : y ∈ d := by
            rw [hdrop] at hy
            rcases List.mem_cons.mp hy with rfl | hy
            · simp [hsame] at hxz
            · exact hy
          exact ⟨z, (List.singleton_sublist.mpr hx).append
            (.cons_cons z (List.singleton_sublist.mpr hyd)), hxz⟩
      · exact ⟨z, hxzy.trans (List.sublist_append_right _ _), hz⟩
    · rintro ⟨z, hxzy, hz⟩
      have hne : x ≠ z := by
        rintro rfl
        have hPx := hP x (by rw [hsplit]; exact hxzy.subset (by simp))
        have hPy := hP y (by rw [hsplit]; exact hxzy.subset (by simp))
        have := h.trans hPx hPy hPx hsame (h.symm hPx hPy hsame)
        simp [this] at hz
      obtain ⟨r, r', heq, hr, hr'⟩ := List.sublist_append_iff.mp hxzy
      rcases r with _ | ⟨b, _ | ⟨c, r⟩⟩
      · exact .inr (.inr ⟨z, heq ▸ hr', hz⟩)
      · obtain ⟨rfl, rfl⟩ := List.cons.inj heq
        exact .inr (.inl ⟨hrun.mem_iff.mpr (List.singleton_sublist.mp hr),
          (sortRuns_perm same place _).mem_iff.mpr (hr'.subset (by simp))⟩)
      · simp only [List.cons_append, List.cons.injEq] at heq
        obtain ⟨rfl, rfl, -⟩ := heq
        have := h.same_of_run hP (hr.subset (by simp)) (hr.subset (by simp)) hne
        simp [this] at hz

end

/-! ## First elements -/

/-- Two lists with the same elements begin alike exactly when none of the
first elements of the sorted one comes after a larger element in the other. -/
theorem take_eq_take_iff {lt : α → α → Prop} (n : Nat) (hperm : l.Perm sorted)
    (hsorted : sorted.Pairwise lt) (hasymm : ∀ a ∈ sorted, ∀ b ∈ sorted, lt a b → ¬lt b a) :
    l.take n = sorted.take n ↔ ∀ x y, y ∈ sorted.take n → [x, y].Sublist l → ¬lt y x := by
  induction sorted generalizing l n with
  | nil =>
    rw [hperm.eq_nil]
    simp
  | cons a sorted ih =>
    cases n with
    | zero => simp
    | succ n =>
    obtain ⟨ha, hrest⟩ := List.pairwise_cons.mp hsorted
    have hnotin : a ∉ sorted := fun hmem =>
      hasymm a List.mem_cons_self a List.mem_cons_self (ha a hmem) (ha a hmem)
    cases l with
    | nil => cases hperm.symm.eq_nil
    | cons b l =>
    by_cases hab : b = a
    · subst hab
      have hperm := hperm.cons_inv
      rw [List.take_succ_cons, List.take_succ_cons, List.cons_inj_right,
        ih n hperm hrest fun c hc d hd =>
          hasymm c (List.mem_cons_of_mem _ hc) d (List.mem_cons_of_mem _ hd)]
      constructor
      · intro h x y hy hxy
        have hyl : y ∈ l := by
          rcases List.sublist_cons_iff.mp hxy with hxy | ⟨r, hr, hrl⟩
          · exact hxy.subset (by simp)
          · cases hr
            exact hrl.subset (by simp)
        have hys := hperm.mem_iff.mp hyl
        rcases List.mem_cons.mp hy with rfl | hy
        · exact absurd hys hnotin
        · rcases List.sublist_cons_iff.mp hxy with hxy | ⟨r, hr, -⟩
          · exact h x y hy hxy
          · cases hr
            exact hasymm _ List.mem_cons_self _ (List.mem_cons_of_mem _ hys) (ha y hys)
      · intro h x y hy hxy
        exact h x y (List.mem_cons_of_mem _ hy) (hxy.cons _)
    · -- A wrong first element stands before the right one.
      have hb : b ∈ sorted := by
        rcases List.mem_cons.mp (hperm.mem_iff.mp List.mem_cons_self) with h | h
        · exact absurd h hab
        · exact h
      have hal : a ∈ l := by
        rcases List.mem_cons.mp (hperm.mem_iff.mpr List.mem_cons_self) with h | h
        · exact absurd h.symm hab
        · exact h
      refine iff_of_false (fun h => hab (List.cons.inj h).1) fun h => ?_
      exact h b a (by simp) (.cons_cons b (List.singleton_sublist.mpr hal)) (ha b hb)

end Runs
