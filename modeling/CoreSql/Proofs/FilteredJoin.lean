import CoreSql.Proofs.Selection
import CoreSql.Query.FilteredJoin

/-!
# What the right side of a filtered join is

Where index selection leaves anything of the predicate, the repeatable path
keeps the rows on which the predicate is TRUE, as the other path does. It
leaves nothing when the predicate is a single condition that an index
certifies: one comparison of the primary key with a literal, or one
membership with an index for it. Then the first row that is found is tested
against an empty optional; only without a row is nothing tested.
`rightWhere` being such a condition and TRUE somewhere is therefore exactly
when the path is undefined.
-/

namespace CoreSql

variable {registry : Registry} {t : Table} {p g : BoundPredicate} {result : IndexResult}
  {r : Option IndexResult}

/-- The predicate is one condition, and an index certifies it. -/
def servedAlone (t : Table) (p : BoundPredicate) : Bool :=
  match p with
  | .comparison _ =>
    match t.primary, p.columnLiteral with
    | some b, some test => test.operation == .equal && test.column == b.column
    | _, _ => false
  | .contains m =>
    match m.left, m.right with
    | .column _ index, .literal _ key =>
      !key.isNull && t.indexes.any fun b =>
        b.column == index && (t.columns[b.column]?.any fun c => c.index == m.extractor)
    | _, _ => false
  | _ => false

/-! ## Which results are exact -/

theorem compositeCandidates_exact (h : compositeCandidates t p registry = .ok (some result)) :
    result.exact = false := by
  rw [compositeCandidates] at h
  split at h
  · cases h
  · obtain ⟨⟨tests, more⟩, -, h⟩ := Fallible.bind_eq_ok.mp h
    simp only at h
    split at h
    · cases h
    · obtain ⟨rows, -, h⟩ := Fallible.bind_eq_ok.mp h
      cases h
      rfl

theorem primaryRangeCandidates_exact
    (h : primaryRangeCandidates t p registry = .ok (some result)) : result.exact = false := by
  rw [primaryRangeCandidates] at h
  split at h
  · cases h
  · next b hb =>
      obtain ⟨addon, -, h⟩ := Fallible.bind_eq_ok.mp h
      split at h
      · cases h
      · obtain ⟨⟨tests, more⟩, -, h⟩ := Fallible.bind_eq_ok.mp h
        simp only at h
        split at h
        · cases h
        · obtain ⟨r, -, hr⟩ := Option.map_eq_some_iff.mp (Except.ok.inj h)
          rw [← hr]

theorem leadingCandidates_exact (h : leadingCandidates t p g = some result) :
    result.exact = false := by
  rw [leadingCandidates.eq_def] at h
  split at h
  · cases h
  · split at h
    · cases h
    · split at h
      · cases h
        rfl
      · cases h

theorem KeyIndex.search_exact (x : KeyIndex) {key : Value} (h : (x.search key).rows ≠ []) :
    (x.search key).exact = true := by
  rw [KeyIndex.search] at h ⊢
  split at h
  · exact absurd rfl h
  · rfl

theorem orElse_exact {next : Except Error (Option IndexResult)}
    (hnext : next = .ok (some result) → result.exact = false) (hexact : result.exact = true)
    (h : orElse next r = .ok (some result)) : r = some result := by
  cases r with
  | some r =>
    cases h
    rfl
  | none =>
    rw [hnext h] at hexact
    cases hexact

theorem guardCandidates_of_exact (hr : selectRows t p registry = .ok (some result))
    (hexact : result.exact = true) : guardCandidates t p.leadingKeyGuard = .ok (some result) := by
  obtain ⟨r₁, h₁, hr⟩ := Fallible.bind_eq_ok.mp hr
  obtain ⟨r₂, h₂, hr⟩ := Fallible.bind_eq_ok.mp hr
  obtain ⟨r₃, h₃, h₄⟩ := Fallible.bind_eq_ok.mp hr
  have hleading : (Except.ok (p.leadingKeyGuard.bind (leadingCandidates t p)) :
      Except Error (Option IndexResult)) = .ok (some result) → result.exact = false := by
    intro h
    obtain ⟨g, -, hg⟩ := Option.bind_eq_some_iff.mp (Except.ok.inj h)
    exact leadingCandidates_exact hg
  have h₃' := orElse_exact hleading hexact h₄
  rw [h₃'] at h₃
  have h₂' := orElse_exact primaryRangeCandidates_exact hexact h₃
  rw [h₂'] at h₂
  have h₁' := orElse_exact compositeCandidates_exact hexact h₂
  rw [h₁, h₁']

theorem selectRows_of_guard (registry : Registry)
    (h : guardCandidates t p.leadingKeyGuard = .ok (some result)) :
    selectRows t p registry = .ok (some result) := by
  simp only [selectRows, h]
  rfl

/-! ## When nothing is left -/

theorem pointCandidates_some (h : pointCandidates t p = .ok (some result)) :
    ∃ b test, t.primary = some b ∧ p.columnLiteral = some test ∧
      (test.operation == .equal && test.column == b.column) = true := by
  rw [pointCandidates.eq_def] at h
  split at h
  · next b test hb htest =>
      split at h
      · next hserved => exact ⟨b, test, hb, htest, hserved⟩
      · cases h
  · cases h

theorem servedAlone_of_point {leaf : BoundLeaf}
    (h : pointCandidates t (.comparison leaf) = .ok (some result)) :
    servedAlone t (.comparison leaf) = true := by
  obtain ⟨b, test, hb, htest, hserved⟩ := pointCandidates_some h
  rw [servedAlone.eq_def]
  simp only [hb, htest]
  exact hserved

theorem servedAlone_of_membership {m : BoundMembership}
    (h : membershipCandidates t m = .ok (some result)) : servedAlone t (.contains m) = true := by
  rw [membershipCandidates.eq_def] at h
  rw [servedAlone.eq_def]
  split at h
  · next type index keyType key hl hr =>
      simp only [hl, hr]
      split at h
      · cases h
      next hnull =>
      split at h
      · cases h
      next b hb =>
      have hfound := List.find?_some hb
      rw [Bool.and_eq_true, List.any_eq_true]
      exact ⟨by simpa using hnull, b, List.mem_of_find?_eq_some hb, hfound⟩
  · cases h

/-- Nothing is left of a predicate only if an index serves all of it. -/
theorem servedAlone_of_residual (hr : selectRows t p registry = .ok r)
    (hnone : residual p r = none) : servedAlone t p = true := by
  rw [residual] at hnone
  split at hnone
  · next hexact =>
      obtain ⟨result, rfl, hexact⟩ := (Option.any_eq_true _ _).mp hexact
      have hguard := guardCandidates_of_exact hr hexact
      cases p with
      | comparison leaf => exact servedAlone_of_point hguard
      | contains m => exact servedAlone_of_membership hguard
      | all children => cases children <;> cases hnone
      | any | negation => cases hnone
  · cases hnone

/-- A condition an index serves is certified, unless no row is found. -/
theorem exact_of_servedAlone (ht : t.Consistent registry) (hp : p.Ok registry t.columns)
    (hserved : servedAlone t p = true) (hr : selectRows t p registry = .ok r) :
    p.discharge = none ∧ ∃ result, r = some result ∧ (result.rows ≠ [] → result.exact = true) := by
  suffices h : ∀ r', guardCandidates t p.leadingKeyGuard = .ok r' →
      ∃ result, r' = some result ∧ (result.rows ≠ [] → result.exact = true) by
    obtain ⟨r', hguard, hrest⟩ := Fallible.bind_eq_ok.mp hr
    obtain ⟨result, rfl, hexact⟩ := h r' hguard
    rw [selectRows_of_guard registry hguard] at hr
    refine ⟨?_, result, (Except.ok.inj hr).symm, hexact⟩
    cases p with
    | comparison | contains => rfl
    | all | any | negation => cases hserved
  intro r' hguard
  rw [servedAlone.eq_def] at hserved
  cases p with
  | comparison leaf =>
    simp only at hserved
    split at hserved
    · next b test hb htest =>
        replace hguard : pointCandidates t (.comparison leaf) = .ok r' := hguard
        simp only [pointCandidates, hb, htest, if_pos hserved] at hguard
        split at hguard
        · exact ⟨_, (Except.ok.inj hguard).symm, fun _ => rfl⟩
        · obtain ⟨location, -, h⟩ := Fallible.bind_eq_ok.mp hguard
          exact ⟨_, (Except.ok.inj h).symm, fun _ => rfl⟩
    · cases hserved
  | contains m =>
    simp only at hserved
    split at hserved
    · next type index keyType key hl hright =>
        replace hguard : membershipCandidates t m = .ok r' := hguard
        rw [Bool.and_eq_true, Bool.not_eq_true'] at hserved
        obtain ⟨b, hb⟩ := Option.isSome_iff_exists.mp
          ((List.find?_isSome).mpr (List.any_eq_true.mp hserved.2))
        simp only [membershipCandidates, hl, hright, hserved.1, hb, Bool.false_eq_true,
          if_false] at hguard
        cases hp with
        | contains hm =>
          obtain ⟨-, -, extractor, addon, hname, -⟩ := hm
          have hfound := List.find?_some hb
          rw [Bool.and_eq_true] at hfound
          obtain ⟨x, -, hx, -⟩ := ht.key_index (List.mem_of_find?_eq_some hb) hname hfound.2
          rw [hx] at hguard
          exact ⟨x.search key, (Except.ok.inj hguard).symm, x.search_exact⟩
    · cases hserved
  | all | any | negation => cases hserved

/-! ## The right rows -/

section

variable (ht : t.Consistent registry)
include ht

/-- The repeatable path tests what is left on the rows that are offered. -/
theorem selectRight_eq_filter
    (hr : selectRows t p registry = .ok r) (hcovers : ∀ result ∈ r, Covers registry t p result) :
    selectRight registry t p = Fallible.filter (fun e => uncheckedMatches (residual p r) e.2)
      (t.offered (r.map IndexResult.rows)) := by
  rw [selectRight, candidates_eq hr]
  exact ht.inOrder.scanGroups_offered (offered_real hcovers) Fault.error _

/-- The repeatable path selects the TRUE rows unless it tests a row against
nothing. -/
theorem selectRight_eq_ok_iff
    (hr : selectRows t p registry = .ok r) (hcovers : ∀ result ∈ r, Covers registry t p result)
    (htotal : ∀ e ∈ t.views, p.Total e.2) :
    selectRight registry t p = .ok (t.views.filter fun e => p.meaning e.2 = .yes) ↔
      ¬(residual p r = none ∧ t.offered (r.map IndexResult.rows) ≠ []) := by
  have htruth : ∀ e ∈ t.views, p.truth e.2 = .ok (p.meaning e.2) :=
    fun e he => p.truth_eq_meaning (htotal e he)
  rw [selectRight_eq_filter ht hr hcovers, ← offered_filter_true hcovers htruth]
  cases hleft : residual p r with
  | none =>
    cases t.offered (r.map IndexResult.rows) with
    | nil => simp [Fallible.filter]
    | cons e rest => simp [Fallible.filter, uncheckedMatches, Bind.bind, Except.bind]
  | some q =>
    refine iff_of_true (Fallible.filter_eq_ok fun e he => ?_) (by simp)
    obtain ⟨hview, hoffered⟩ := Table.mem_offered.mp he
    have hq : q.truth e.2 = .ok (p.meaning e.2) := by
      rw [← htruth e hview, ← residual_truth hcovers (mem_located_of_views hview)
        fun result hresult => hoffered _ (Option.map_eq_some_iff.mpr ⟨result, hresult, rfl⟩), hleft]
      rfl
    rw [uncheckedMatches, BoundPredicate.matches, hq]
    rfl

/-- A row is tested against nothing exactly when an index serves the whole
predicate and finds a row. -/
theorem tests_nothing_iff (hp : p.Ok registry t.columns) (hr : selectRows t p registry = .ok r)
    (hcovers : ∀ result ∈ r, Covers registry t p result) (htotal : ∀ e ∈ t.views, p.Total e.2) :
    (residual p r = none ∧ t.offered (r.map IndexResult.rows) ≠ []) ↔
      (servedAlone t p = true ∧ ∃ e ∈ t.views, p.meaning e.2 = .yes) := by
  have htruth : ∀ e ∈ t.views, p.truth e.2 = .ok (p.meaning e.2) :=
    fun e he => p.truth_eq_meaning (htotal e he)
  constructor
  · rintro ⟨hnone, hoffered⟩
    obtain ⟨e, he⟩ := List.exists_mem_of_ne_nil _ hoffered
    obtain ⟨hview, hrows⟩ := Table.mem_offered.mp he
    have hyes := residual_truth hcovers (mem_located_of_views hview)
      fun result hresult => hrows _ (Option.map_eq_some_iff.mpr ⟨result, hresult, rfl⟩)
    rw [hnone, htruth e hview] at hyes
    exact ⟨servedAlone_of_residual hr hnone, e, hview, (Except.ok.inj hyes).symm⟩
  · rintro ⟨hserved, e, he, hyes⟩
    obtain ⟨hdischarge, result, rfl, hexact⟩ := exact_of_servedAlone ht hp hserved hr
    have hmem : e ∈ t.offered (some result.rows) := by
      have htrue : e ∈ t.views.filter fun e => p.meaning e.2 = .yes :=
        List.mem_filter.mpr ⟨he, decide_eq_true hyes⟩
      rw [← offered_filter_true hcovers htruth] at htrue
      exact List.mem_of_mem_filter htrue
    have hfound : e.1 ∈ result.rows := (Table.mem_offered.mp hmem).2 _ rfl
    refine ⟨?_, List.ne_nil_of_mem hmem⟩
    rw [residual, Option.any_some, if_pos (hexact (List.ne_nil_of_mem hfound)), hdischarge]

end

/-- The run of a filtered join whose right side is known. -/
def goOn {ρ : Type} (probe : Except Error Unit) (rest : RightSide → Except Error ρ)
    (right : RightSide) : Except Fault ρ := do
  probe.mapError .error
  (rest right).mapError .error

/-- The join is exact: it selects the rows on which `rightWhere` is TRUE, in table order, and both a
repeatable query and one that is not go on over those rows. Where the rest of the query depends on
the rows only, their results are the same. -/
structure ExactRight (registry : Registry) (t : Table) (p : BoundPredicate) : Prop where
  selects : selectRight registry t p = .ok (t.views.filter fun e => p.meaning e.2 = .yes)
  repeatable : ∀ (ρ : Type) (probe : Except Error Unit) (rest : RightSide → Except Error ρ),
    runFilteredJoin registry t p true probe rest =
      goOn probe rest (.subset (t.views.filter fun e => p.meaning e.2 = .yes))
  materialized : ∀ (ρ : Type) (probe : Except Error Unit) (rest : RightSide → Except Error ρ),
    runFilteredJoin registry t p false probe rest = goOn probe rest
      (.materialized ((t.views.filter fun e => p.meaning e.2 = .yes).map fun e => e.2.row))
  same : ∀ (ρ : Type) (probe : Except Error Unit) (rest : RightSide → Except Error ρ),
    (∀ s s' : RightSide, s.rows = s'.rows → rest s = rest s') →
      runFilteredJoin registry t p true probe rest = runFilteredJoin registry t p false probe rest

section

variable {ρ : Type} {probe : Except Error Unit} {rest : RightSide → Except Error ρ}
  {found : List (RowLocation × RowView)}

theorem runFilteredJoin_true (h : selectRight registry t p = .ok found) :
    runFilteredJoin registry t p true probe rest = goOn probe rest (.subset found) := by
  simp only [runFilteredJoin, h, if_true]
  rfl

theorem runFilteredJoin_false (h : scan registry t (some p) = .ok found) :
    runFilteredJoin registry t p false probe rest =
      goOn probe rest (.materialized (found.map fun e => e.2.row)) := by
  simp only [runFilteredJoin, h, Bool.false_eq_true, if_false]
  rfl

end

theorem exactRight_iff (hlawful : registry.Lawful) (ht : t.Consistent registry)
    (hp : p.Ok registry t.columns) (htotal : ∀ e ∈ t.views, p.Total e.2) :
    ExactRight registry t p ↔
      selectRight registry t p = .ok (t.views.filter fun e => p.meaning e.2 = .yes) := by
  have hscan := scan_total hlawful ht hp htotal
  refine ⟨ExactRight.selects, fun hselect => ⟨hselect, fun _ _ _ => runFilteredJoin_true hselect,
    fun _ _ _ => runFilteredJoin_false hscan, fun ρ probe rest hrows => ?_⟩⟩
  rw [runFilteredJoin_true hselect, runFilteredJoin_false hscan, goOn, goOn,
    hrows (.subset _) (.materialized _) rfl]

/-- **When right-side filters are exact.** For every right table with
consistent indexes and every total `rightWhere`, a repeatable join selects
exactly the rows on which it is TRUE, in table order, and goes on over the
rows the query that is not repeatable goes on over, unless `rightWhere` is a
single condition that an index serves and is TRUE on some row: then a row is
tested against the predicate that was removed. -/
theorem right_filter_exact_iff (registry : Registry) (t : Table) (p : BoundPredicate)
    (hlawful : registry.Lawful) (ht : t.Consistent registry) (hp : p.Ok registry t.columns)
    (htotal : ∀ e ∈ t.views, p.Total e.2) :
    ExactRight registry t p ↔
      ¬(servedAlone t p = true ∧ ∃ e ∈ t.views, p.meaning e.2 = .yes) := by
  obtain ⟨r, hr, hcovers⟩ := selectRows_covers hlawful ht hp
  rw [exactRight_iff hlawful ht hp htotal, ← tests_nothing_iff ht hp hr hcovers htotal,
    ← selectRight_eq_ok_iff ht hr hcovers htotal]

/-- A range of the primary key keeps its predicate: the path is exact. -/
theorem right_filter_exact_range :
    ∃ t p nodes, t.Consistent failingRegistry ∧
      bindCondition failingRegistry t.columns 0 0 (compareTo .greater (.integer 1)) =
        .ok (p, nodes) ∧
      selectRight failingRegistry t p = .ok (t.views.filter fun e => p.meaning e.2 = .yes) ∧
      (t.views.filter fun e => p.meaning e.2 = .yes).length = 2 := by
  obtain ⟨t, p, nodes, ht, hp, hask⟩ := of_askOf
    { name := lit "a", type := integerType, primaryKey := true } [] [1, 2, 7]
    (compareTo .greater (.integer 1))
    (fun t p => totalComparison t p && !servedAlone t p &&
      (t.views.filter fun e => p.meaning e.2 = .yes).length = 2)
    rfl (by decide +kernel)
  simp only [Bool.and_eq_true, Bool.not_eq_true', decide_eq_true_eq] at hask
  obtain ⟨⟨htotal, hserved⟩, hlength⟩ := hask
  refine ⟨t, p, nodes, ht, hp, ?_, hlength⟩
  refine ((right_filter_exact_iff failingRegistry t p failingRegistry_lawful ht
    (bindCondition_ok _ hp) (total_of_totalComparison htotal)).mpr fun h => ?_).selects
  rw [hserved] at h
  cases h.1

/-- One key of the primary index is found, and the row it is at is tested
against an empty optional. -/
theorem right_filter_undefined :
    ∃ t p nodes, t.Consistent failingRegistry ∧
      bindCondition failingRegistry t.columns 0 0 (compareTo .equal (.integer 2)) =
        .ok (p, nodes) ∧
      (∀ e ∈ t.views, p.Total e.2) ∧ selectRight failingRegistry t p = .error .undefined := by
  obtain ⟨t, p, nodes, ht, hp, hask⟩ := of_askOf
    { name := lit "a", type := integerType, primaryKey := true } [] [1, 2]
    (compareTo .equal (.integer 2))
    (fun t p => totalComparison t p && match selectRight failingRegistry t p with
      | .error fault => fault == .undefined
      | .ok _ => false)
    rfl (by decide +kernel)
  rw [Bool.and_eq_true] at hask
  refine ⟨t, p, nodes, ht, hp, total_of_totalComparison hask.1, ?_⟩
  have hfault := hask.2
  split at hfault
  · next fault h => rw [h, eq_of_beq hfault]
  · cases hfault

end CoreSql
