import CoreSql.Lib.Runs
import Mathlib.Data.List.Pairwise

/-!
# Heaps and sorting, as the standard library specifies them

A program that keeps the smallest elements of a sequence in a heap calls
`make_heap`, `push_heap`, `pop_heap` and `sort_heap`, and `stable_sort` when
the heap was never filled. How these rearrange a range is up to the library;
what they guarantee is written here, for a comparison that is a strict weak
order on the elements at hand, and whatever is proved from it holds for every
implementation.

`keepLeast` is one round of the loop. It keeps the same elements as inserting
into a sorted list and cutting it: the front of a heap is its largest element,
which is the one that is cut off.
-/

namespace Heap

variable {α : Type} {P : α → Prop} {lt : α → α → Bool} {a b : α} {l found : List α}

/-! ## Orders and heaps -/

/-- A strict weak order on the values `P` holds of: nothing is below what is
below it, and "not below" is transitive. -/
structure Strict (P : α → Prop) (lt : α → α → Bool) : Prop where
  asymm : ∀ {a b}, P a → P b → lt a b = true → lt b a = false
  trans : ∀ {a b c}, P a → P b → P c → lt a b = false → lt b c = false → lt a c = false

/-- `std::is_heap`: no element is above its parent. -/
def IsHeap (lt : α → α → Bool) (l : List α) : Prop :=
  ∀ i a b, 0 < i → l[(i - 1) / 2]? = some a → l[i]? = some b → lt a b = false

theorem IsHeap.front (hlt : Strict P lt) (hl : ∀ b ∈ a :: l, P b)
    (h : IsHeap lt (a :: l)) : ∀ b ∈ a :: l, lt a b = false := by
  have hall : ∀ (i : Nat) (b : α), (a :: l)[i]? = some b → lt a b = false := by
    intro i
    induction i using Nat.strongRecOn with
    | ind i ih =>
      intro b hb
      have ha := hl a List.mem_cons_self
      by_cases hzero : i = 0
      · subst hzero
        cases hb
        by_contra hne
        have htrue : lt a a = true := by simpa using hne
        exact hne (hlt.asymm ha ha htrue)
      · -- the parent is not above the front, and the element not above its parent
        obtain ⟨hi, -⟩ := List.getElem?_eq_some_iff.mp hb
        have hparent : (i - 1) / 2 < (a :: l).length := by omega
        have hget := List.getElem?_eq_getElem hparent
        exact hlt.trans ha (hl _ (List.mem_of_getElem? hget)) (hl b (List.mem_of_getElem? hb))
          (ih _ (by omega) _ hget) (h i _ b (by omega) hget hb)
  intro b hb
  obtain ⟨i, hi⟩ := List.mem_iff_getElem?.mp hb
  exact hall i b hi

/-! ## The algorithms -/

/-- The algorithms a program calls, each as the rearranged range. -/
structure Algorithms (α : Type) where
  make : (α → α → Bool) → List α → List α
  push : (α → α → Bool) → List α → List α
  pop : (α → α → Bool) → List α → List α
  sort : (α → α → Bool) → List α → List α
  stableSort : (α → α → Bool) → List α → List α

/-- What the standard guarantees for a strict weak order on the range. -/
structure Algorithms.Standard (std : Algorithms α) : Prop where
  make : ∀ {P lt l}, Strict P lt → (∀ a ∈ l, P a) →
    (std.make lt l).Perm l ∧ IsHeap lt (std.make lt l)
  push : ∀ {P lt l a}, Strict P lt → (∀ b ∈ l ++ [a], P b) → IsHeap lt l →
    (std.push lt (l ++ [a])).Perm (l ++ [a]) ∧ IsHeap lt (std.push lt (l ++ [a]))
  pop : ∀ {P lt a l}, Strict P lt → (∀ b ∈ a :: l, P b) → IsHeap lt (a :: l) →
    ∃ rest, std.pop lt (a :: l) = rest ++ [a] ∧ rest.Perm l ∧ IsHeap lt rest
  sort : ∀ {P lt l}, Strict P lt → (∀ a ∈ l, P a) → IsHeap lt l →
    (std.sort lt l).Perm l ∧ (std.sort lt l).Pairwise fun a b => lt b a = false
  stableSort : ∀ {P lt l}, Strict P lt → (∀ a ∈ l, P a) →
    (std.stableSort lt l).Perm l ∧ (std.stableSort lt l).Pairwise fun a b => lt b a = false

/-! ## The loop -/

/-- Offer an element to a range that holds at most `limit` of them and becomes
a heap when it is full. -/
def keepLeast (std : Algorithms α) (lt : α → α → Bool) (limit : Nat) (kept : List α) (a : α) :
    List α :=
  if kept.length = limit then
    if kept.head?.any (lt a) then std.push lt ((std.pop lt kept).dropLast ++ [a]) else kept
  else if (kept ++ [a]).length = limit then std.make lt (kept ++ [a])
  else kept ++ [a]

/-- The range in order, once all elements were offered. -/
def sortKept (std : Algorithms α) (lt : α → α → Bool) (limit : Nat) (kept : List α) : List α :=
  if kept.length = limit then std.sort lt kept else std.stableSort lt kept

/-- The range holds these, which are in order; full, it is a heap. -/
structure Holds (lt : α → α → Bool) (limit : Nat) (kept sorted : List α) : Prop where
  perm : kept.Perm sorted
  sorted : sorted.Pairwise fun a b => lt a b = true
  heap : kept.length = limit → IsHeap lt kept
  room : kept.length ≤ limit

theorem orderedInsert_sorted (hlt : Strict P lt) (hl : ∀ b ∈ a :: l, P b)
    (hne : ∀ b ∈ l, lt a b = true ∨ lt b a = true) (h : l.Pairwise fun a b => lt a b = true) :
    (l.orderedInsert (fun a b => lt a b = true) a).Pairwise fun a b => lt a b = true := by
  have htrans : ∀ x y z, P x → P y → P z → lt x y = true → lt y z = true → lt x z = true := by
    intro x y z hx hy hz hxy hyz
    by_contra hxz
    have hzy := hlt.asymm hy hz hyz
    have := hlt.trans hx hz hy (by simpa using hxz) hzy
    rw [this] at hxy
    cases hxy
  induction l with
  | nil => simp
  | cons b l ih =>
    obtain ⟨hb, hs⟩ := List.pairwise_cons.mp h
    have hPa := hl a List.mem_cons_self
    have hPb := hl b (by simp)
    rw [List.orderedInsert]
    split
    · next hab =>
        refine .cons (fun c hc => ?_) h
        rcases List.mem_cons.mp hc with rfl | hc
        · exact hab
        · exact htrans a b c hPa hPb (hl c (by simp [hc])) hab (hb c hc)
    · next hab =>
        refine .cons (fun c hc => ?_)
          (ih (fun c hc => hl c ?_) (fun c hc => hne c (by simp [hc])) hs)
        · rcases List.mem_cons.mp ((List.perm_orderedInsert _ a l).mem_iff.mp hc) with rfl | hc
          · exact (hne b (by simp)).resolve_left hab
          · exact hb c hc
        · rcases List.mem_cons.mp hc with rfl | hc
          · exact List.mem_cons_self
          · simp [hc]

theorem foldl_orderedInsert (hlt : Strict P lt) (hP : ∀ a ∈ l ++ found, P a)
    (hne : (l ++ found).Pairwise fun a b => lt a b = true ∨ lt b a = true)
    (hl : l.Pairwise fun a b => lt a b = true) :
    (found.foldl (fun l a => l.orderedInsert (fun a b => lt a b = true) a) l).Perm (l ++ found) ∧
      (found.foldl (fun l a => l.orderedInsert (fun a b => lt a b = true) a) l).Pairwise
        fun a b => lt a b = true := by
  induction found generalizing l with
  | nil => exact ⟨by simp, hl⟩
  | cons a found ih =>
    have hperm : (l.orderedInsert (fun a b => lt a b = true) a ++ found).Perm (l ++ a :: found) :=
      ((List.perm_orderedInsert _ a l).append_right found).trans List.perm_middle.symm
    have hcross := (List.pairwise_append.mp hne).2.2
    have hPl : ∀ b ∈ a :: l, P b := List.forall_mem_cons.mpr
      ⟨hP a (by simp), fun b hb => hP b (List.mem_append_left _ hb)⟩
    have hinsert := orderedInsert_sorted hlt hPl (fun b hb => (hcross b hb a (by simp)).symm) hl
    obtain ⟨hfold, hsorted⟩ := ih (fun b hb => hP b (hperm.mem_iff.mp hb))
      (hperm.symm.pairwise hne fun h => h.symm) hinsert
    exact ⟨hfold.trans hperm, hsorted⟩

theorem orderedInsert_snoc (hab : lt a b = true) :
    (l ++ [b]).orderedInsert (fun a b => lt a b = true) a =
      l.orderedInsert (fun a b => lt a b = true) a ++ [b] := by
  induction l with
  | nil => simp [hab]
  | cons c l ih =>
    rw [List.cons_append, List.orderedInsert_cons, List.orderedInsert_cons]
    split
    · rfl
    · rw [ih, List.cons_append]

theorem orderedInsert_end (h : ∀ b ∈ l, lt a b = false) :
    l.orderedInsert (fun a b => lt a b = true) a = l ++ [a] := by
  induction l with
  | nil => rfl
  | cons c l ih =>
    rw [List.orderedInsert_cons, if_neg (by simp [h c List.mem_cons_self]),
      ih fun b hb => h b (List.mem_cons_of_mem _ hb), List.cons_append]

/-- Cutting a list before an insertion that is cut makes no difference. -/
theorem take_orderedInsert (r : α → α → Prop) [DecidableRel r] (a : α) (l : List α)
    (k : Nat) : ((l.take k).orderedInsert r a).take k = (l.orderedInsert r a).take k := by
  induction l generalizing k with
  | nil => simp
  | cons x l ih =>
    cases k with
    | zero => simp
    | succ k =>
      rw [List.take_succ_cons, List.orderedInsert_cons, List.orderedInsert_cons]
      split
      · rw [List.take_succ_cons, List.take_succ_cons]
        cases k with
        | zero => simp
        | succ k => simp [List.take_take]
      · rw [List.take_succ_cons, List.take_succ_cons, ih]

section

variable {std : Algorithms α} {limit : Nat} {kept sorted rest found : List α} {a front : α}

theorem Holds.last (h : Holds lt limit (front :: rest) sorted)
    (hfront : ∀ b ∈ front :: rest, lt front b = false) :
    ∃ init, sorted = init ++ [front] ∧ rest.Perm init := by
  have hne : sorted ≠ [] := fun hnil => by simpa [hnil] using h.perm.length_eq
  obtain ⟨init, last, rfl⟩ : ∃ init last, sorted = init ++ [last] :=
    ⟨sorted.dropLast, sorted.getLast hne, (List.dropLast_append_getLast hne).symm⟩
  have hlast : last = front := by
    rcases List.mem_append.mp (h.perm.mem_iff.mp List.mem_cons_self) with hmem | hmem
    · have habove := (List.pairwise_append.mp h.sorted).2.2 front hmem last (by simp)
      have hbelow := hfront last (h.perm.mem_iff.mpr (by simp))
      rw [hbelow] at habove
      cases habove
    · exact (List.mem_singleton.mp hmem).symm
  subst hlast
  refine ⟨init, rfl, ?_⟩
  have hperm : (last :: rest).Perm (last :: init) := h.perm.trans (by simp)
  exact hperm.cons_inv

section

variable (hstd : std.Standard) (hlt : Strict P lt)
include hstd hlt

theorem Holds.step (hlimit : 0 < limit) (h : Holds lt limit kept sorted) (hP : ∀ b ∈ a :: kept, P b)
    (hne : ∀ b ∈ kept, lt a b = true ∨ lt b a = true) :
    Holds lt limit (keepLeast std lt limit kept a)
      ((sorted.orderedInsert (fun a b => lt a b = true) a).take limit) := by
  have hPsorted : ∀ b ∈ a :: sorted, P b := fun b hb => hP b (by
    rcases List.mem_cons.mp hb with rfl | hb
    · exact List.mem_cons_self
    · exact List.mem_cons_of_mem _ (h.perm.mem_iff.mpr hb))
  have hinsert := orderedInsert_sorted hlt hPsorted
    (fun b hb => hne b (h.perm.mem_iff.mpr hb)) h.sorted
  have hlength : (sorted.orderedInsert (fun a b => lt a b = true) a).length = sorted.length + 1 :=
    List.orderedInsert_length ..
  rw [keepLeast]
  by_cases hfull : kept.length = limit
  · rw [if_pos hfull]
    cases kept with
    | nil => simp at hfull; omega
    | cons front rest =>
      have hkept : ∀ b ∈ front :: rest, P b := fun b hb => hP b (List.mem_cons_of_mem _ hb)
      have hfront := (h.heap hfull).front hlt hkept
      obtain ⟨init, rfl, hrest⟩ := h.last hfront
      have hsize : init.length + 1 = limit := by
        rw [← hfull, List.length_cons, hrest.length_eq]
      rw [List.head?_cons, Option.any_some]
      split
      · next hbelow =>
          obtain ⟨left, hpop, hleft, hheap⟩ := hstd.pop hlt hkept (h.heap hfull)
          have hPleft : ∀ b ∈ left ++ [a], P b := by
            intro b hb
            rcases List.mem_append.mp hb with hb | hb
            · exact hkept b (List.mem_cons_of_mem _ (hleft.mem_iff.mp hb))
            · exact List.mem_singleton.mp hb ▸ hP a List.mem_cons_self
          obtain ⟨hperm, hheap⟩ := hstd.push hlt hPleft hheap
          rw [hpop, List.dropLast_concat]
          rw [orderedInsert_snoc hbelow] at hinsert ⊢
          have htake : (init.orderedInsert (fun a b => lt a b = true) a ++ [front]).take limit =
              init.orderedInsert (fun a b => lt a b = true) a := by
            refine List.take_left' ?_
            rw [List.orderedInsert_length, hsize]
          rw [htake]
          have hall : (std.push lt (left ++ [a])).Perm
              (init.orderedInsert (fun a b => lt a b = true) a) := by
            refine hperm.trans (List.perm_append_comm.trans ?_)
            exact ((hleft.trans hrest).cons a).trans (List.perm_orderedInsert _ a init).symm
          refine ⟨hall, (List.pairwise_append.mp hinsert).1, fun _ => hheap, ?_⟩
          rw [hall.length_eq, List.orderedInsert_length, hsize]
      · next habove =>
          have hnone : ∀ b ∈ init ++ [front], lt a b = false := by
            intro b hb
            have hb' := h.perm.mem_iff.mpr hb
            exact hlt.trans (hP a List.mem_cons_self) (hkept front List.mem_cons_self)
              (hkept b hb') (by simpa using habove) (hfront b hb')
          rw [orderedInsert_end hnone, List.take_left' (by simpa using hsize)]
          exact h
  · have hroom := h.room
    have hall : (kept ++ [a]).Perm (sorted.orderedInsert (fun a b => lt a b = true) a) :=
      List.perm_append_comm.trans ((h.perm.cons a).trans (List.perm_orderedInsert _ a sorted).symm)
    rw [if_neg hfull, List.take_of_length_le (by rw [hlength, ← h.perm.length_eq]; omega)]
    have hPall : ∀ b ∈ kept ++ [a], P b := fun b hb => hP b (by
      rcases List.mem_append.mp hb with hb | hb
      · exact List.mem_cons_of_mem _ hb
      · exact List.mem_singleton.mp hb ▸ List.mem_cons_self)
    split
    · next hnow =>
        obtain ⟨hperm, hheap⟩ := hstd.make hlt hPall
        exact ⟨hperm.trans hall, hinsert, fun _ => hheap, by rw [hperm.length_eq]; omega⟩
    · next hnot =>
        refine ⟨hall, hinsert, fun hnow => absurd hnow hnot, ?_⟩
        simp only [List.length_append, List.length_singleton]
        omega

/-- **The loop.** The range holds the first of the elements in order. -/
theorem Holds.foldl (hlimit : 0 < limit)
    (hP : ∀ a ∈ found, P a) (hne : found.Pairwise fun a b => lt a b = true ∨ lt b a = true)
    (h : Holds lt limit kept (sorted.take limit)) (hkept : ∀ b ∈ kept, P b)
    (hnew : ∀ a ∈ found, ∀ b ∈ kept, lt a b = true ∨ lt b a = true) :
    Holds lt limit (found.foldl (keepLeast std lt limit) kept)
      ((found.foldl (fun l a => l.orderedInsert (fun a b => lt a b = true) a) sorted).take
        limit) := by
  induction found generalizing kept sorted with
  | nil => exact h
  | cons a found ih =>
    obtain ⟨ha, hne⟩ := List.pairwise_cons.mp hne
    have hPa := hP a List.mem_cons_self
    have hstep := h.step hstd hlt hlimit (List.forall_mem_cons.mpr ⟨hPa, hkept⟩)
      (hnew a List.mem_cons_self)
    -- what is kept was kept before or is the element
    have hmem : ∀ b ∈ keepLeast std lt limit kept a, b = a ∨ b ∈ kept := by
      intro b hb
      have hb := List.mem_of_mem_take (hstep.perm.mem_iff.mp hb)
      rcases List.mem_cons.mp ((List.perm_orderedInsert _ a _).mem_iff.mp hb) with rfl | hb
      · exact .inl rfl
      · exact .inr (h.perm.mem_iff.mpr hb)
    rw [take_orderedInsert] at hstep
    refine ih (fun b hb => hP b (List.mem_cons_of_mem _ hb)) hne hstep (fun b hb => ?_)
      fun c hc b hb => ?_
    · rcases hmem b hb with rfl | hb
      · exact hPa
      · exact hkept b hb
    · rcases hmem b hb with rfl | hb
      · exact (ha c hc).symm
      · exact hnew c (List.mem_cons_of_mem _ hc) b hb

/-- **The end of the loop.** Sorting the range gives what it holds in order. -/
theorem Holds.sortKept_eq (h : Holds lt limit kept sorted)
    (hP : ∀ b ∈ kept, P b) : sortKept std lt limit kept = sorted := by
  have hdiffer : ∀ x ∈ sorted, ∀ y ∈ sorted, x ≠ y → lt x y = true ∨ lt y x = true := by
    intro x hx y hy hne
    have hsym : sorted.Pairwise fun x y => lt x y = true ∨ lt y x = true := h.sorted.imp .inl
    have : Std.Symm fun x y => lt x y = true ∨ lt y x = true := ⟨fun _ _ => Or.symm⟩
    exact hsym.forall hx hy hne
  have hsorted : sorted.Pairwise fun a b => lt b a = false := h.sorted.imp_of_mem fun ha hb hab =>
      hlt.asymm (hP _ (h.perm.mem_iff.mpr ha)) (hP _ (h.perm.mem_iff.mpr hb)) hab
  have hunique : ∀ l : List α, l.Perm kept → (l.Pairwise fun a b => lt b a = false) →
      l = sorted := by
    intro l hperm hl
    refine (hperm.trans h.perm).eq_of_pairwise (fun x y hx hy hxy hyx => ?_) hl hsorted
    by_contra hne
    have hx' := (hperm.trans h.perm).mem_iff.mp hx
    rcases hdiffer x hx' y hy hne with hlt' | hlt'
    · rw [hyx] at hlt'
      cases hlt'
    · rw [hxy] at hlt'
      cases hlt'
  rw [sortKept]
  split
  · next hfull =>
      obtain ⟨hperm, hl⟩ := hstd.sort hlt hP (h.heap hfull)
      exact hunique _ hperm hl
  · obtain ⟨hperm, hl⟩ := hstd.stableSort hlt hP
    exact hunique _ hperm hl

end

end

/-! ## An implementation

A list in descending order is a heap, so that sorting is enough. -/

def sign (lt : α → α → Bool) (a b : α) : Int := if lt a b then -1 else if lt b a then 1 else 0

theorem sign_threeWay (hlt : Strict P lt) : ThreeWay P (sign lt) := by
  have hle : ∀ {a b}, P a → P b → (sign lt a b ≤ 0 ↔ lt b a = false) := by
    intro a b ha hb
    have hasymm := hlt.asymm ha hb
    rw [sign]
    cases hab : lt a b <;> cases hba : lt b a <;> simp_all
  constructor
  · intro a b ha hb
    have hasymm := hlt.asymm ha hb
    rw [sign, sign]
    cases hab : lt a b <;> cases hba : lt b a <;> simp_all
  · intro a b c ha hb hc hab hbc
    rw [hle ha hc]
    exact hlt.trans hc hb ha ((hle hb hc).mp hbc) ((hle ha hb).mp hab)

def ascending (lt : α → α → Bool) (l : List α) : List α :=
  l.insertionSort fun a b => sign lt a b ≤ 0

def bySorting : Algorithms α where
  make lt l := (ascending lt l).reverse
  push lt l := (ascending lt l).reverse
  pop lt l := (ascending lt l.tail).reverse ++ l.take 1
  sort := ascending
  stableSort := ascending

theorem ascending_perm (lt : α → α → Bool) (l : List α) : (ascending lt l).Perm l :=
  List.perm_insertionSort _ l

theorem ascending_sorted (hlt : Strict P lt) (hl : ∀ a ∈ l, P a) :
    (ascending lt l).Pairwise fun a b => lt b a = false := by
  have h := Runs.insertionSort_stable (r := fun _ _ => True) (sign_threeWay hlt) hl
    (List.pairwise_of_forall fun _ _ => trivial)
  refine h.imp_of_mem fun {a b} ha hb hab => ?_
  have hPa := hl a ((ascending_perm lt l).mem_iff.mp ha)
  have hPb := hl b ((ascending_perm lt l).mem_iff.mp hb)
  have hasymm := hlt.asymm hPb hPa
  rcases hab with hab | ⟨hab, -⟩ <;> rw [sign] at hab <;>
    cases hba : lt b a <;> cases hab' : lt a b <;> simp_all

theorem descending_heap (hlt : Strict P lt) (hl : ∀ a ∈ l, P a) :
    IsHeap lt (ascending lt l).reverse := by
  intro i a b hi ha hb
  have hsorted : (ascending lt l).reverse.Pairwise fun a b => lt a b = false :=
    List.pairwise_reverse.mpr (ascending_sorted hlt hl)
  obtain ⟨hlt₁, rfl⟩ := List.getElem?_eq_some_iff.mp ha
  obtain ⟨hlt₂, rfl⟩ := List.getElem?_eq_some_iff.mp hb
  exact List.pairwise_iff_getElem.mp hsorted _ _ hlt₁ hlt₂ (by omega)

theorem bySorting_standard : (bySorting : Algorithms α).Standard where
  make {_ lt l} hlt hl :=
    ⟨(List.reverse_perm _).trans (ascending_perm lt l), descending_heap hlt hl⟩
  push {_ lt _ _} hlt hl _ :=
    ⟨(List.reverse_perm _).trans (ascending_perm lt _), descending_heap hlt hl⟩
  pop {_ lt _ l} hlt hl _ := ⟨(ascending lt l).reverse, rfl,
    (List.reverse_perm _).trans (ascending_perm lt l),
    descending_heap hlt fun b hb => hl b (List.mem_cons_of_mem _ hb)⟩
  sort {_ lt l} hlt hl _ := ⟨ascending_perm lt l, ascending_sorted hlt hl⟩
  stableSort {_ lt l} hlt hl := ⟨ascending_perm lt l, ascending_sorted hlt hl⟩

end Heap
