import CoreSql.Proofs.Predicates
import CoreSql.Query.PredicateReuse

/-!
# Conjuncts with a memo

What `reuse_left_predicates` relies on and what it leaves to be shown. A
conjunct that gets a memo reads the left row alone, so its truth on a pair is
its truth on the left row. A memo that is right about a row does not show
when `truth` is called on that row, and the memos a call replaces are right
about the row it was called on. Whether an address still belongs to the row a
memo was made for is not a question about predicates.
-/

namespace CoreSql

/-! ## What a conjunct reads -/

/-- The predicate depends on the left row alone. -/
def LeftOnly (width : Nat) (p : BoundPredicate) : Prop :=
  ∀ v v' : RowView, v.row.take width = v'.row.take width → v.id = v'.id → p.truth v = p.truth v'

section

variable {width i : Nat} {v v' : RowView} {row row' : Row}

theorem cell_eq_of_take (h : row.take width = row'.take width)
    (hi : i < width) : row.cell i = row'.cell i := by
  have hcell : ∀ r : Row, r.cell i = Row.cell (r.take width) i := by
    intro r
    simp [Row.cell, List.getD_eq_getElem?_getD, hi]
  rw [hcell, h, ← hcell]

mutual

theorem Bound.evaluate_left (hrow : v.row.take width = v'.row.take width) (hid : v.id = v'.id)
    (e : Bound) (h : e.leftExpression width = true) : e.evaluate v = e.evaluate v' := by
  cases e with
  | column type index =>
    simp only [Bound.leftExpression, decide_eq_true_eq] at h
    rw [Bound.evaluate, Bound.evaluate, cell_eq_of_take hrow h]
  | literal type value => rfl
  | rowId => rw [Bound.evaluate, Bound.evaluate, hid]
  | apply type combine arguments =>
    rw [Bound.leftExpression] at h
    rw [Bound.evaluate, Bound.evaluate, evaluateArguments_left hrow hid arguments h]

theorem evaluateArguments_left (hrow : v.row.take width = v'.row.take width) (hid : v.id = v'.id)
    (arguments : List Bound) (h : leftExpressions width arguments = true) :
    Bound.evaluateArguments v arguments = Bound.evaluateArguments v' arguments := by
  cases arguments with
  | nil => rfl
  | cons e rest =>
    rw [leftExpressions, Bool.and_eq_true] at h
    rw [Bound.evaluateArguments, Bound.evaluateArguments, e.evaluate_left hrow hid h.1,
      evaluateArguments_left hrow hid rest h.2]

end

theorem Bound.inspect_left (hrow : v.row.take width = v'.row.take width) (hid : v.id = v'.id)
    {e : Bound} (h : e.leftExpression width = true) :
    e.operand.inspect v = e.operand.inspect v' := by
  rw [Bound.inspect_operand, Bound.inspect_operand, e.evaluate_left hrow hid h]

mutual

theorem Condition.truth_left (hrow : v.row.take width = v'.row.take width) (hid : v.id = v'.id)
    (c : Condition) (h : c.leftPredicate width = true) :
    c.predicate.truth v = c.predicate.truth v' := by
  cases c with
  | comparison left right operation comparison =>
    rw [Condition.leftPredicate, Bool.and_eq_true] at h
    rw [Condition.predicate, BoundPredicate.truth, BoundPredicate.truth, BoundLeaf.truth,
      BoundLeaf.truth]
    simp only [Bound.inspect_left hrow hid h.1, Bound.inspect_left hrow hid h.2]
  | contains left right extractor binding =>
    rw [Condition.leftPredicate, Bool.and_eq_true] at h
    rw [Condition.predicate, BoundPredicate.truth, BoundPredicate.truth, BoundMembership.truth,
      BoundMembership.truth]
    simp only [Bound.inspect_left hrow hid h.1, Bound.inspect_left hrow hid h.2]
  | all children =>
    rw [Condition.leftPredicate] at h
    rw [Condition.predicate, BoundPredicate.truth, BoundPredicate.truth,
      (truths_left hrow hid children h _).1]
  | any children =>
    rw [Condition.leftPredicate] at h
    rw [Condition.predicate, BoundPredicate.truth, BoundPredicate.truth,
      (truths_left hrow hid children h _).2]
  | negation child =>
    rw [Condition.leftPredicate] at h
    rw [Condition.predicate, BoundPredicate.truth, BoundPredicate.truth,
      child.truth_left hrow hid h]

theorem truths_left (hrow : v.row.take width = v'.row.take width) (hid : v.id = v'.id)
    (children : List Condition) (h : leftPredicates width children = true) (result : Truth) :
    truthAll v result (predicates children) = truthAll v' result (predicates children) ∧
      truthAny v result (predicates children) = truthAny v' result (predicates children) := by
  cases children with
  | nil => exact ⟨rfl, rfl⟩
  | cons c rest =>
    rw [leftPredicates, Bool.and_eq_true] at h
    have hrest := fun result => truths_left hrow hid rest h.2 result
    rw [predicates, truthAll, truthAll, truthAny, truthAny, c.truth_left hrow hid h.1]
    constructor <;>
      (refine bind_congr fun t => ?_
       cases t <;> first | rfl | exact (hrest _).1 | exact (hrest _).2)

end

end

theorem Condition.leftOnly {width : Nat} {c : Condition} (h : c.leftPredicate width = true) :
    LeftOnly width c.predicate :=
  fun _ _ hrow hid => c.truth_left hrow hid h

/-! ## Memos -/

mutual

/-- A new memo names no row, and its conjunct reads the left row alone. -/
theorem Condition.reuse_memos (width : Nat) (c : Condition) :
    ∀ e ∈ (c.reuse width).1.memos, e.1.left = none ∧ LeftOnly width e.2 := by
  have hleaf : ∀ c : Condition, ∀ e ∈ (if c.leftPredicate width then
      (Reused.memo {} c.predicate, true) else (.plain c.predicate, false)).1.memos,
      e.1.left = none ∧ LeftOnly width e.2 := by
    intro c e he
    split at he
    · next hleft =>
        obtain rfl := List.mem_singleton.mp he
        exact ⟨rfl, Condition.leftOnly hleft⟩
    · cases he
  cases c with
  | all children => exact reuseAll_memos width children
  | comparison => exact hleaf (.comparison ..)
  | contains => exact hleaf (.contains ..)
  | any children => exact hleaf (.any children)
  | negation child => exact hleaf (.negation child)

theorem reuseAll_memos (width : Nat) (children : List Condition) :
    ∀ e ∈ memosOf (reuseAll width children).1, e.1.left = none ∧ LeftOnly width e.2 := by
  cases children with
  | nil => simp [reuseAll, memosOf]
  | cons c rest =>
    intro e he
    have hc := c.reuse_memos width
    rw [reuseAll] at he
    split at he
    · next child hchild =>
        rw [hchild] at hc
        rcases List.mem_append.mp he with he | he
        · exact hc e he
        · exact reuseAll_memos width rest e he
    · next child hchild =>
        rw [hchild] at hc
        rcases List.mem_append.mp he with he | he
        · exact hc e he
        · have hplain : ∀ ps : List BoundPredicate, memosOf (ps.map .plain) = [] := by
            intro ps
            induction ps with
            | nil => rfl
            | cons p ps ih => rw [List.map_cons, memosOf, ih]; rfl
          rw [hplain] at he
          cases he

end

section

variable {address : Nat} {v : RowView}

mutual

theorem Reused.truth_eq (r : Reused)
    (h : ∀ e ∈ r.memos, e.1.left = some address → e.2.truth v = .ok e.1.truth) :
    Prod.fst <$> r.truth address v = r.truthUncached v := by
  cases r with
  | plain p =>
    rw [Reused.truth, Reused.truthUncached, Reused.predicate]
    cases p.truth v <;> rfl
  | memo m p =>
    rw [Reused.truth, Reused.truthUncached, Reused.predicate]
    split
    · next hhit => exact (h (m, p) List.mem_cons_self hhit).symm
    · cases p.truth v <;> rfl
  | all children =>
    rw [Reused.truth, Reused.truthUncached, Reused.predicate, BoundPredicate.truth,
      ← reusedAll_eq .yes children h]
    cases reusedAll address v .yes children <;> rfl

theorem reusedAll_eq (result : Truth) (children : List Reused)
    (h : ∀ e ∈ memosOf children, e.1.left = some address → e.2.truth v = .ok e.1.truth) :
    Prod.fst <$> reusedAll address v result children =
      truthAll v result (reusedPredicates children) := by
  cases children with
  | nil => rfl
  | cons child rest =>
    have hchild := child.truth_eq fun e he => h e (List.mem_append_left _ he)
    have hrest := fun result => reusedAll_eq result rest fun e he =>
      h e (List.mem_append_right _ he)
    rw [reusedAll, reusedPredicates, truthAll, ← Reused.truthUncached, ← hchild]
    cases child.truth address v with
    | error e => rfl
    | ok answer =>
      obtain ⟨t, child'⟩ := answer
      cases t with
      | no => rfl
      | yes =>
        refine Eq.trans ?_ (hrest result)
        cases reusedAll address v result rest <;> rfl
      | unknown =>
        refine Eq.trans ?_ (hrest .unknown)
        cases reusedAll address v .unknown rest <;> rfl

end

/-- What a call of `truth` does to a memo: nothing, or it is the memo of this
row now. -/
def Memo.Step (address : Nat) (v : RowView) (e e' : Memo × BoundPredicate) : Prop :=
  e'.2 = e.2 ∧ (e' = e ∨ e'.1.left = some address ∧ e.2.truth v = .ok e'.1.truth)

theorem Memo.Step.refl (e : Memo × BoundPredicate) : Memo.Step address v e e := ⟨rfl, .inl rfl⟩

mutual

theorem Reused.truth_memos (r : Reused) {t : Truth} {r' : Reused}
    (h : r.truth address v = .ok (t, r')) :
    List.Forall₂ (Memo.Step address v) r.memos r'.memos := by
  cases r with
  | plain p =>
    rw [Reused.truth] at h
    obtain ⟨t, ht, h⟩ := Fallible.bind_eq_ok.mp h
    cases h
    exact .nil
  | memo m p =>
    rw [Reused.truth] at h
    split at h
    · cases h
      exact .cons (.refl _) .nil
    · obtain ⟨t, ht, h⟩ := Fallible.bind_eq_ok.mp h
      cases h
      exact .cons ⟨rfl, .inr ⟨rfl, ht⟩⟩ .nil
  | all children =>
    rw [Reused.truth] at h
    obtain ⟨⟨t, children'⟩, ht, h⟩ := Fallible.bind_eq_ok.mp h
    cases h
    exact reusedAll_memos children ht

theorem reusedAll_memos (children : List Reused) {result t : Truth} {children' : List Reused}
    (h : reusedAll address v result children = .ok (t, children')) :
    List.Forall₂ (Memo.Step address v) (memosOf children) (memosOf children') := by
  have hrefl : ∀ es : List (Memo × BoundPredicate), List.Forall₂ (Memo.Step address v) es es :=
    fun es => List.forall₂_same.mpr fun e _ => .refl e
  cases children with
  | nil =>
    cases h
    exact .nil
  | cons child rest =>
    rw [reusedAll] at h
    obtain ⟨⟨t', child'⟩, hchild, h⟩ := Fallible.bind_eq_ok.mp h
    have hfirst := child.truth_memos hchild
    cases t' with
    | no =>
      cases h
      exact List.rel_append hfirst (hrefl _)
    | yes =>
      obtain ⟨⟨t, rest'⟩, hrest, h⟩ := Fallible.bind_eq_ok.mp h
      cases h
      exact List.rel_append hfirst (reusedAll_memos rest hrest)
    | unknown =>
      obtain ⟨⟨t, rest'⟩, hrest, h⟩ := Fallible.bind_eq_ok.mp h
      cases h
      exact List.rel_append hfirst (reusedAll_memos rest hrest)

end

end

mutual

theorem Reused.nodes_memos (r : Reused) : ∀ n ∈ r.nodes, n.memos ⊆ r.memos := by
  cases r with
  | plain p => simp [Reused.nodes]
  | memo m p => simp [Reused.nodes]
  | all children =>
    intro n hn
    rcases List.mem_cons.mp hn with rfl | hn
    · exact List.Subset.refl _
    · exact nodesOf_memos children n hn

theorem nodesOf_memos (children : List Reused) : ∀ n ∈ nodesOf children,
    n.memos ⊆ memosOf children := by
  cases children with
  | nil => simp [nodesOf]
  | cons r rest =>
    intro n hn
    rcases List.mem_append.mp hn with hn | hn
    · exact fun e he => List.mem_append_left _ (r.nodes_memos n hn he)
    · exact fun e he => List.mem_append_right _ (nodesOf_memos rest n hn he)

end

end CoreSql
