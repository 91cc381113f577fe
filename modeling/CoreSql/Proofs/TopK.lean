import CoreSql.Proofs.Predicates
import CoreSql.Query.Reduce
import CoreSql.Query.TopK

/-!
# Bounded top-k is sort and truncate

The comparison of `accept` looks at the keys, each with its direction, and
then at the numbers of the rows. Over lawful comparisons it is a strict order
that tells any two accepted rows apart, so there is one way to sort them,
whoever sorts: it is the stable sort by the keys alone.

The heap holds the first rows of that order after every row that was
accepted (`Heap.Holds`). A scan that is not bounded because the table has no
more rows than the limit has nothing to cut off.
-/

namespace CoreSql

open Fallible

/-! ## The order -/

section

variable {order : List BoundOrder} {C : BoundOrder → Value → Prop}

/-- Keys that the comparisons of an order are lawful for. -/
abbrev KeysFor (C : BoundOrder → Value → Prop) (order : List BoundOrder) (keys : List Value) :
    Prop :=
  List.Forall₂ C order keys

def BoundOrder.directed (o : BoundOrder) (a b : Value) : Int :=
  if o.descending then -o.comparison.compare a b else o.comparison.compare a b

theorem compareSortKeys_eq (order : List BoundOrder) :
    compareSortKeys order = ThreeWay.lex (order.map BoundOrder.directed) := by
  induction order with
  | nil =>
    funext a b
    cases a <;> cases b <;> rfl
  | cons o os ih =>
    funext a b
    cases a with
    | nil => rfl
    | cons x xs =>
      cases b with
      | nil => rfl
      | cons y ys =>
        rw [compareSortKeys, List.map_cons, ThreeWay.lex, ih, BoundOrder.directed]
        cases o.descending <;> by_cases h : o.comparison.compare x y = 0 <;> simp [h]

theorem compareSortKeys_threeWay (h : ∀ o ∈ order, ThreeWay (C o) o.comparison.compare) :
    ThreeWay (KeysFor C order) (compareSortKeys order) := by
  have hdirected : ∀ o ∈ order, ThreeWay (C o) o.directed := by
    intro o ho
    unfold BoundOrder.directed
    cases o.descending with
    | false => exact h o ho
    | true => exact (h o ho).reverse
  have hall : List.Forall₂ ThreeWay (order.map C) (order.map BoundOrder.directed) := by
    rw [List.forall₂_map_left_iff, List.forall₂_map_right_iff, List.forall₂_same]
    exact hdirected
  rw [compareSortKeys_eq]
  exact (ThreeWay.lex_lawful hall).mono fun keys hkeys => List.forall₂_map_left_iff.mpr hkeys

/-- The keys, and then the numbers of the rows. -/
def Match.place (order : List BoundOrder) (a b : Match) : Int :=
  ThreeWay.both (compareSortKeys order) (fun m n : Nat => (m : Int) - n) (a.keys, a.ordinal)
    (b.keys, b.ordinal)

theorem Match.before_eq (order : List BoundOrder) (a b : Match) :
    a.before order b = decide (a.place order b < 0) := by
  rw [before, place, ThreeWay.both]
  by_cases h : compareSortKeys order a.keys b.keys = 0
  · simp only [h, ne_eq, not_true_eq_false, if_false, if_true]
    rw [decide_eq_decide]
    omega
  · simp only [h, ne_eq, not_false_eq_true, if_true, if_false]

theorem Match.place_threeWay (h : ∀ o ∈ order, ThreeWay (C o) o.comparison.compare) :
    ThreeWay (fun m : Match => KeysFor C order m.keys) (place order) := by
  have hnumbers : ThreeWay (fun _ : Nat => True) fun m n : Nat => (m : Int) - n := by
    constructor
    · intro a b _ _
      omega
    · intro a b c _ _ _ hab hbc
      omega
  have hboth := (compareSortKeys_threeWay h).both_lawful hnumbers
  exact ⟨fun ha hb => hboth.swap ⟨ha, trivial⟩ ⟨hb, trivial⟩,
    fun ha hb hc => hboth.trans ⟨ha, trivial⟩ ⟨hb, trivial⟩ ⟨hc, trivial⟩⟩

theorem Match.before_strict (h : ∀ o ∈ order, ThreeWay (C o) o.comparison.compare) :
    Heap.Strict (fun m : Match => KeysFor C order m.keys) (before order) := by
  have hthree := place_threeWay h
  constructor
  · intro a b ha hb hab
    have hswap := hthree.swap hb ha
    simp only [before_eq, decide_eq_true_eq, decide_eq_false_iff_not] at hab ⊢
    omega
  · intro a b c ha hb hc hab hbc
    simp only [before_eq, decide_eq_false_iff_not, not_lt] at hab hbc ⊢
    exact (hthree.le_swap hc ha).mp
      (hthree.trans hc hb ha ((hthree.le_swap hc hb).mpr hbc) ((hthree.le_swap hb ha).mpr hab))

end

/-! ## The loop -/

namespace BoundScan

variable {std : Heap.Algorithms Match} {b : BoundScan} {residual : Option BoundPredicate}
  {rows : List RowView} {found : List Match} {v : RowView} {s : Found} {early keep : Bool}

theorem acceptedFrom_ordinals {n : Nat} (h : b.acceptedFrom residual n rows = .ok found) :
    (∀ m ∈ found, n ≤ m.ordinal) ∧ found.Pairwise (fun a b => a.ordinal < b.ordinal) ∧
      found.length ≤ rows.length := by
  induction rows generalizing n found with
  | nil =>
    cases h
    exact ⟨by simp, .nil, Nat.le_refl _⟩
  | cons v rows ih =>
    obtain ⟨early, -, h⟩ := bind_eq_ok.mp h
    cases early with
    | false =>
      obtain ⟨hle, hlt, hlength⟩ := ih h
      exact ⟨hle, hlt, Nat.le_succ_of_le hlength⟩
    | true =>
      obtain ⟨keep, -, h⟩ := bind_eq_ok.mp h
      cases keep with
      | false =>
        obtain ⟨hle, hlt, hlength⟩ := ih h
        exact ⟨hle, hlt, Nat.le_succ_of_le hlength⟩
      | true =>
        obtain ⟨keys, -, h⟩ := bind_eq_ok.mp h
        obtain ⟨rest, hrest, h⟩ := bind_eq_ok.mp h
        cases h
        obtain ⟨hle, hlt, hlength⟩ := ih hrest
        refine ⟨fun m hm => ?_, .cons (fun m hm => hle m hm) hlt, Nat.succ_le_succ hlength⟩
        rcases List.mem_cons.mp hm with rfl | hm
        · exact Nat.le_refl _
        · exact Nat.le_of_succ_le (hle m hm)

theorem acceptHeap_run (hearly : b.passesEarly v = .ok early)
    (hkeep : early = true → optionalMatches residual v = .ok keep) (s : Found) :
    (b.acceptHeap std residual v).run s =
      if early && keep then (b.acceptMatchHeap std v).run s else .ok (true, s) := by
  rw [acceptHeap, hearly]
  cases early with
  | false => rfl
  | true =>
    simp only [hkeep rfl]
    cases keep <;> rfl

theorem acceptMatchHeap_run {keys : List Value} (hkeys : b.keys v = .ok keys) (s : Found) :
    (b.acceptMatchHeap std v).run s = .ok (!b.order.isEmpty ||
          b.limit != some (b.keepHeap std ⟨v, keys, s.ordinal⟩ s.kept).length,
        { kept := b.keepHeap std ⟨v, keys, s.ordinal⟩ s.kept, ordinal := s.ordinal + 1 }) := by
  rw [acceptMatchHeap, hkeys]
  rfl

theorem visit_keepHeap (std : Heap.Algorithms Match) (horder : b.order ≠ [])
    (h : b.acceptedFrom residual s.ordinal rows = .ok found) :
    ∃ s', (Visit.visit (b.acceptHeap std residual) rows).run s = .ok (true, s') ∧
      s'.kept = found.foldl (fun kept m => b.keepHeap std m kept) s.kept := by
  have hmore : b.order.isEmpty = false := by simpa using horder
  induction rows generalizing s found with
  | nil =>
    cases h
    exact ⟨s, rfl, rfl⟩
  | cons v rows ih =>
    obtain ⟨early, hearly, h⟩ := bind_eq_ok.mp h
    cases early with
    | false =>
      have hskip : false = true → optionalMatches residual v = .ok false := by simp
      obtain ⟨s', hrun, hkept⟩ := ih h
      refine ⟨s', ?_, hkept⟩
      rw [Visit.visit_cons, StateT.run_bind, acceptHeap_run hearly hskip]
      exact hrun
    | true =>
      obtain ⟨keep, hkeep, h⟩ := bind_eq_ok.mp h
      rw [Visit.visit_cons, StateT.run_bind, acceptHeap_run hearly fun _ => hkeep]
      cases keep with
      | false => exact ih h
      | true =>
        obtain ⟨keys, hkeys, h⟩ := bind_eq_ok.mp h
        obtain ⟨rest, hrest, h⟩ := bind_eq_ok.mp h
        cases h
        obtain ⟨s', hrun, hkept⟩ := ih (s := {
          kept := b.keepHeap std ⟨v, keys, s.ordinal⟩ s.kept, ordinal := s.ordinal + 1 }) hrest
        refine ⟨s', ?_, hkept⟩
        rw [Bool.and_self, if_pos rfl, acceptMatchHeap_run hkeys, hmore]
        exact hrun

/-- Without an order the loop ends with the row that fills the limit. -/
theorem visit_first_heap (std : Heap.Algorithms Match) (horder : b.order = [])
    (hbounded : b.bounded = false) (hroom : ∀ n ∈ b.limit, s.kept.length < n)
    (h : b.acceptedFrom residual s.ordinal rows = .ok found) :
    ∃ more s', (Visit.visit (b.acceptHeap std residual) rows).run s = .ok (more, s') ∧
      s'.kept = takeLimit b.limit (s.kept ++ found) := by
  induction rows generalizing s found with
  | nil =>
    cases h
    refine ⟨true, s, rfl, ?_⟩
    rw [List.append_nil]
    cases hlimit : b.limit with
    | none => rfl
    | some n => exact (List.take_of_length_le (Nat.le_of_lt (hroom n hlimit))).symm
  | cons v rows ih =>
    obtain ⟨early, hearly, h⟩ := bind_eq_ok.mp h
    cases early with
    | false =>
      have hskip : false = true → optionalMatches residual v = .ok false := by simp
      rw [Visit.visit_cons, StateT.run_bind, acceptHeap_run hearly hskip]
      exact ih hroom h
    | true =>
      obtain ⟨keep, hkeep, h⟩ := bind_eq_ok.mp h
      rw [Visit.visit_cons, StateT.run_bind, acceptHeap_run hearly fun _ => hkeep]
      cases keep with
      | false => exact ih hroom h
      | true =>
        obtain ⟨keys, hkeys, h⟩ := bind_eq_ok.mp h
        obtain ⟨rest, hrest, h⟩ := bind_eq_ok.mp h
        cases h
        have hkept : b.keepHeap std ⟨v, keys, s.ordinal⟩ s.kept =
            s.kept ++ [⟨v, keys, s.ordinal⟩] := by
          rw [keepHeap, hbounded]
        have hlength : (s.kept ++ [(⟨v, keys, s.ordinal⟩ : Match)]).length =
            s.kept.length + 1 := by simp
        rw [Bool.and_self, if_pos rfl, acceptMatchHeap_run hkeys, hkept, horder, hlength]
        by_cases hfull : b.limit = some (s.kept.length + 1)
        · refine ⟨false, ⟨s.kept ++ [⟨v, keys, s.ordinal⟩], s.ordinal + 1⟩, ?_, ?_⟩
          · rw [hfull, bne_self_eq_false]
            rfl
          · have htake : (s.kept ++ [(⟨v, keys, s.ordinal⟩ : Match)] ++ rest).take
                (s.kept.length + 1) = s.kept ++ [⟨v, keys, s.ordinal⟩] :=
              List.take_left' hlength
            rw [List.append_assoc] at htake
            rw [hfull]
            exact htake.symm
        · have hroom' : ∀ n ∈ b.limit, s.kept.length + 1 < n := by
            intro n hn
            have hlt := hroom n hn
            have hne : n ≠ s.kept.length + 1 := fun h => hfull (h ▸ hn)
            omega
          obtain ⟨more, s', hrun, hs'⟩ := ih
            (s := ⟨s.kept ++ [⟨v, keys, s.ordinal⟩], s.ordinal + 1⟩)
            (by simpa using hroom') hrest
          refine ⟨more, s', ?_, ?_⟩
          · rw [bne_iff_ne.mpr hfull]
            exact hrun
          · rw [hs', List.append_assoc]
            rfl

/-! ## The result -/

/-- The stable sort of accepted rows by their keys. -/
def stableSort (order : List BoundOrder) (found : List Match) : List Match :=
  found.insertionSort fun a b => compareSortKeys order a.keys b.keys ≤ 0

theorem stableSort_nil (found : List Match) : stableSort [] found = found := by
  have hzero : ∀ a b, compareSortKeys [] a b = 0 := fun a b => by cases a <;> cases b <;> rfl
  induction found with
  | nil => rfl
  | cons m found ih =>
    rw [stableSort] at ih ⊢
    rw [List.insertionSort_cons, ih]
    cases found with
    | nil => rfl
    | cons n found => simp [hzero]

section

variable {C : BoundOrder → Value → Prop} {found l : List Match}
  (hlaw : ∀ o ∈ b.order, ThreeWay (C o) o.comparison.compare)
  (hkeys : ∀ m ∈ found, KeysFor C b.order m.keys)
  (hordinals : found.Pairwise fun a b => a.ordinal < b.ordinal)

include hlaw hkeys hordinals

theorem stableSort_before :
    (stableSort b.order found).Pairwise fun x y => x.before b.order y = true := by
  have hthree := compareSortKeys_threeWay hlaw
  have hmatches : ThreeWay (fun m : Match => KeysFor C b.order m.keys)
      fun x y => compareSortKeys b.order x.keys y.keys :=
    ⟨fun hx hy => hthree.swap hx hy, fun hx hy hz => hthree.trans hx hy hz⟩
  refine (Runs.insertionSort_stable hmatches hkeys hordinals).imp fun {x y} hxy => ?_
  rw [Match.before]
  rcases hxy with hlt | ⟨h0, hlt⟩
  · simp [hlt, Int.ne_of_lt hlt]
  · simp [h0, hlt]

theorem before_differs :
    found.Pairwise fun x y => x.before b.order y = true ∨ y.before b.order x = true := by
  have hthree := Match.place_threeWay hlaw
  refine hordinals.imp_of_mem fun {x y} hx hy hlt => ?_
  have hswap := hthree.swap (hkeys x hx) (hkeys y hy)
  rw [Match.before_eq, Match.before_eq, decide_eq_true_eq, decide_eq_true_eq]
  have hne : x.place b.order y ≠ 0 := by
    rw [Match.place, ThreeWay.both]
    split
    · simp only
      omega
    · assumption
  omega

/-- Whoever puts the rows into the order of `before`, it is the stable sort. -/
theorem eq_stableSort (hperm : l.Perm found)
    (hsorted : l.Pairwise fun x y => x.before b.order y = true) : l = stableSort b.order found := by
  have hstrict := Match.before_strict hlaw
  have hsort : (stableSort b.order found).Perm found := List.perm_insertionSort _ _
  refine (hperm.trans hsort.symm).eq_of_pairwise (fun x y hx hy hxy hyx => ?_) hsorted
    (stableSort_before hlaw hkeys hordinals)
  have := hstrict.asymm (hkeys x (hperm.mem_iff.mp hx)) (hkeys y (hsort.mem_iff.mp hy)) hxy
  rw [this] at hyx
  cases hyx

theorem sortMatches_eq : sortMatches b.order found = stableSort b.order found := by
  obtain ⟨hperm, hsorted⟩ := Heap.foldl_orderedInsert (l := []) (Match.before_strict hlaw) hkeys
      (before_differs hlaw hkeys hordinals) .nil
  exact eq_stableSort hlaw hkeys hordinals hperm hsorted

theorem sorted_bounded {limit : Nat} (hstd : std.Standard) (hlimit : 0 < limit) :
    Heap.sortKept std (Match.before b.order) limit
        (found.foldl (Heap.keepLeast std (Match.before b.order) limit) []) =
      (stableSort b.order found).take limit := by
  have hstrict := Match.before_strict hlaw
  have hdiffer := before_differs hlaw hkeys hordinals
  have hstart : Heap.Holds (Match.before b.order) limit ([] : List Match)
      (([] : List Match).take limit) := by
    rw [List.take_nil]
    exact ⟨.refl _, .nil, fun h => by simp at h; omega, Nat.zero_le _⟩
  have hholds := hstart.foldl hstd hstrict hlimit hkeys hdiffer (by simp) (by simp)
  have hsortMatches := sortMatches_eq hlaw hkeys hordinals
  rw [sortMatches] at hsortMatches
  unfold insertMatch at hsortMatches
  rw [hsortMatches] at hholds
  refine hholds.sortKept_eq hstd hstrict fun m hm => hkeys m ?_
  have hsort : (stableSort b.order found).Perm found := List.perm_insertionSort _ _
  exact hsort.mem_iff.mp (List.mem_of_mem_take (hholds.perm.mem_iff.mp hm))

theorem sorted_unbounded (hstd : std.Standard) :
    std.stableSort (Match.before b.order) found = stableSort b.order found := by
  have hsort : (stableSort b.order found).Perm found := List.perm_insertionSort _ _
  have hholds : Heap.Holds (Match.before b.order) (found.length + 1) found
      (stableSort b.order found) :=
    ⟨hsort.symm, stableSort_before hlaw hkeys hordinals, fun h => by omega, Nat.le_succ _⟩
  have h := hholds.sortKept_eq hstd (Match.before_strict hlaw) hkeys
  rwa [Heap.sortKept, if_neg (by omega)] at h

end

theorem foldl_keepHeap_unbounded (hbounded : b.bounded = false) (found kept : List Match) :
    found.foldl (fun kept m => b.keepHeap std m kept) kept = kept ++ found := by
  induction found generalizing kept with
  | nil => simp
  | cons m found ih =>
    rw [List.foldl_cons, ih, keepHeap, hbounded, List.append_assoc]
    rfl

end BoundScan

/-- A column of integers in ascending order, two rows of it. -/
def firstTwo : BoundScan where
  projection := [.column integerType 0]
  order := [⟨.column integerType 0, ⟨[], integerAddon⟩, false⟩]
  limit := some 2
  bounded := true

def integerRows (l : List Int64) : List RowView := l.map fun i => ⟨[.integer i], none⟩

end CoreSql
