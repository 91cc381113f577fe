import CoreSql.Proofs.Candidates
import CoreSql.Proofs.Programs

/-!
# Scans, updates and deletes behind an index

A WHERE clause behind `candidates` selects the rows it would select without
any index. With expressions that never fail this is the whole story
(`scan_selects_true_rows`). With expressions that may fail there is also the
question whether a failure is still noticed: it is, in scans, updates and
deletes alike, unless every row that fails is one the selection left out
(`index_hides_no_error_iff`). The two ways this can happen are spelled out in
`ErrorsHidden`, and both do.
-/

namespace CoreSql

open Prog

variable {registry : Registry} {t t₀ : Table} {p g : BoundPredicate} {columns : List Column}
  {definitions : List IndexDefinition} {e : RowLocation × RowView} {l : RowLocation}
  {r : Option IndexResult} {test : ColumnTest} {hi : Value} {b : BoundUpdate} {gs : List Group}
  {r' : Replacing} {selected : Option (List RowLocation)} {outcome : Outcome} {f : Filter}
  {c : Candidates} {matching : Row → Except Error Bool} {positions assigned : List Nat}

/-! ## Tables of integers

Small tables on which the results below are seen at work: one column of
integers, any indexes, and a registry with a function that always fails. -/

def failingRegistry : Registry :=
  { scalarRegistry with
    functions := fun name =>
      if name = lit "fail" then
        some { infer := fun _ => .ok integerType
               invoke := fun _ => .error ⟨.type, lit "failed"⟩ }
      else none }

theorem failingRegistry_lawful : failingRegistry.Lawful := scalarRegistry_lawful

/-- One chunk of integers, before its indexes are made. -/
def integersTable (column : Column) (definitions : List IndexDefinition) (values : List Int64) :
    Table where
  columns := [column]
  indexDefinitions := definitions
  nextChunk := 1
  nextRowid := values.length + 1
  rowCount := values.length
  chunks := [(0, Chunk.refresh { rows := values.map fun i => [.integer i]
                                 rowids := List.range' 1 values.length })]

def gridTable (columns : List Column) (definitions : List IndexDefinition)
    (rows : List (List Int64)) : Table where
  columns := columns
  indexDefinitions := definitions
  nextChunk := 1
  nextRowid := rows.length + 1
  rowCount := rows.length
  chunks := [(0, Chunk.refresh { rows := rows.map fun row => row.map Value.integer
                                 rowids := List.range' 1 rows.length })]

theorem gridTable_consistent
    {rows : List (List Int64)} (htypes : ∀ c ∈ columns, c.type = integerType)
    (hwidth : ∀ row ∈ rows, row.length = columns.length)
    (h : (gridTable columns definitions rows).rebuildIndexes failingRegistry = .ok t) :
    t.Consistent failingRegistry := by
  have hchunks : ∀ e ∈ (gridTable columns definitions rows).chunks,
      e = (0, Chunk.refresh { rows := rows.map fun row => row.map Value.integer
                              rowids := List.range' 1 rows.length }) := by
    simp [gridTable]
  refine .of_rebuild failingRegistry_lawful ⟨?_, fun e he => ?_⟩ (fun e he => ?_) (fun e he => ?_) h
  · rw [gridTable, SortedMap.Sorted]
    exact List.pairwise_singleton _ _
  · rw [hchunks e he]
    exact .inl rfl
  · rw [hchunks e he]
    simp [Chunk.refresh]
  · obtain ⟨c, hc, he⟩ := List.mem_flatMap.mp he
    rw [hchunks c hc] at he
    obtain ⟨⟨row, i⟩, hrow, rfl⟩ := List.mem_map.mp he
    obtain ⟨values, hvalues, rfl⟩ := List.mem_map.mp (List.fst_mem_of_mem_zipIdx hrow)
    refine List.forall₂_iff_get.mpr ⟨?_, fun i hi hi' => ?_⟩
    · rw [List.length_map]
      exact hwidth values hvalues
    have htype : ((gridTable columns definitions rows).columns.get ⟨i, hi'⟩).type = integerType :=
      htypes _ (List.get_mem _ _)
    rw [validateStored, htype, List.get_eq_getElem, List.getElem_map]
    exact integer_cell _

theorem integersTable_consistent {column : Column}
    {values : List Int64} (htype : column.type = integerType)
    (h : (integersTable column definitions values).rebuildIndexes failingRegistry = .ok t) :
    t.Consistent failingRegistry := by
  have hgrid : integersTable column definitions values =
      gridTable [column] definitions (values.map fun i => [i]) := by
    simp only [integersTable, gridTable, List.length_map, List.map_map]
    rfl
  rw [hgrid] at h
  exact gridTable_consistent (by simpa using htype) (by simp) h

def columnA : Expr := .node .column { name := lit "a" } []

def compareTo (op : Compare) (value : Value) : Predicate :=
  .node .comparison columnA op (.literal {} value []) [] []

def failingTest : Predicate :=
  .node .comparison (.node .call { name := lit "fail" } [columnA]) .equal
    (.literal {} (.integer 1) []) [] []

def conjunction (children : List Predicate) : Predicate :=
  .node .all columnA .equal columnA [] children

/-- Rebuild the indexes, bind the clause, and ask something of both. -/
def askOf (t : Table) (q : Predicate) (ask : Table → BoundPredicate → Bool) : Bool :=
  match t.rebuildIndexes failingRegistry, bindCondition failingRegistry t.columns 0 0 q with
  | .ok t, .ok (p, _) => ask t p
  | _, _ => false

theorem of_askOf_rebuilt (q : Predicate) (ask : Table → BoundPredicate → Bool)
    (hconsistent : ∀ t, t₀.rebuildIndexes failingRegistry = .ok t → t.Consistent failingRegistry)
    (h : askOf t₀ q ask = true) : ∃ t p nodes, t.Consistent failingRegistry ∧
      bindCondition failingRegistry t.columns 0 0 q = .ok (p, nodes) ∧ ask t p = true := by
  rw [askOf] at h
  split at h
  · next t p nodes ht hp =>
      have hcolumns : t.columns = t₀.columns := by
        obtain ⟨t₁, ht₁, hfold⟩ := Fallible.bind_eq_ok.mp ht
        have hshell : t.toShell = t₁.toShell := by
          refine Fallible.foldlM_invariant (P := fun s => s.toShell = t₁.toShell)
            (fun s e s' _ hs hstep => ?_) rfl hfold
          exact (Table.enterRow_edited hstep).1.trans hs
        exact congrArg Shell.columns (hshell.trans (makeIndexes_ok ht₁).1)
      exact ⟨t, p, nodes, hconsistent t ht, by rw [hcolumns]; exact hp, h⟩
  · cases h

theorem of_askOf (column : Column) (definitions : List IndexDefinition) (values : List Int64)
    (q : Predicate) (ask : Table → BoundPredicate → Bool) (htype : column.type = integerType)
    (h : askOf (integersTable column definitions values) q ask = true) :
    ∃ t p nodes, t.Consistent failingRegistry ∧
      bindCondition failingRegistry t.columns 0 0 q = .ok (p, nodes) ∧ ask t p = true :=
  of_askOf_rebuilt q ask (fun _ => integersTable_consistent htype) h

theorem mem_located_of_views (he : e ∈ t.views) : (e.1, e.2.row) ∈ t.located := by
  rw [t.located_eq_views]
  exact List.mem_map.mpr ⟨e, he, rfl⟩

theorem exists_view_of_located {row : Row} (h : (l, row) ∈ t.located) : ∃ e ∈ t.views, e.1 = l := by
  rw [t.located_eq_views] at h
  obtain ⟨e, he, heq⟩ := List.mem_map.mp h
  exact ⟨e, he, (Prod.mk.inj heq).1⟩

/-- What is left of a predicate after a selection. -/
def residual (p : BoundPredicate) (r : Option IndexResult) : Option BoundPredicate :=
  if r.any IndexResult.exact then p.discharge else some p

/-- On the rows that are offered, what is left stands for the whole. -/
theorem residual_truth (hcovers : ∀ result ∈ r, Covers registry t p result)
    {v : RowView} (hrow : (l, v.row) ∈ t.located)
    (hoffered : ∀ result ∈ r, l ∈ result.rows) : optionalTruth v (residual p r) = p.truth v := by
  cases r with
  | none => rfl
  | some result =>
    rw [residual, Option.any_some]
    split
    · next hexact =>
        exact (hcovers result rfl).certified hexact l v hrow (hoffered result rfl)
    · rfl

theorem candidates_eq (hr : selectRows t p registry = .ok r) :
    candidates t (some p) registry = .ok (r, residual p r) := by
  simp only [candidates, hr]
  rfl

theorem offered_real (hcovers : ∀ result ∈ r, Covers registry t p result) :
    ∀ rows ∈ r.map IndexResult.rows, ∀ l ∈ rows, ∃ e ∈ t.views, e.1 = l := by
  intro rows hrows l hl
  obtain ⟨result, hresult, rfl⟩ := Option.map_eq_some_iff.mp hrows
  obtain ⟨row, hrow⟩ := (hcovers result hresult).real l hl
  exact exists_view_of_located hrow

/-- A scan tests the whole predicate on the rows that are offered. -/
theorem scan_eq_filter (hlawful : registry.Lawful) (ht : t.Consistent registry)
    (hp : p.Ok registry t.columns) :
    ∃ r, selectRows t p registry = .ok r ∧ (∀ result ∈ r, Covers registry t p result) ∧
      scan registry t (some p) = Fallible.filter (fun e => p.matches e.2)
        (t.offered (r.map IndexResult.rows)) := by
  obtain ⟨r, hr, hcovers⟩ := selectRows_covers hlawful ht hp
  refine ⟨r, hr, hcovers, ?_⟩
  rw [scan, candidates_eq hr]
  refine (ht.inOrder.scanGroups_offered (offered_real hcovers) id _).trans
    (Fallible.filter_congr fun e he => ?_)
  obtain ⟨hview, hoffered⟩ := Table.mem_offered.mp he
  rw [optionalMatches, residual_truth hcovers (mem_located_of_views hview) fun result hresult =>
    hoffered _ (Option.map_eq_some_iff.mpr ⟨result, hresult, rfl⟩)]
  rfl

theorem offered_filter_true (hcovers : ∀ result ∈ r, Covers registry t p result)
    (htruth : ∀ e ∈ t.views, p.truth e.2 = .ok (p.meaning e.2)) :
    (t.offered (r.map IndexResult.rows)).filter (fun e => p.meaning e.2 = .yes) =
      t.views.filter fun e => p.meaning e.2 = .yes := by
  cases r with
  | none => rfl
  | some result =>
    rw [Option.map_some, Table.offered, List.filter_filter]
    refine List.filter_congr fun e he => ?_
    by_cases hmem : e.1 ∈ result.rows
    · simp [hmem]
    · -- What was left out is FALSE, UNKNOWN, or in any case not TRUE.
      have hne : p.meaning e.2 ≠ .yes := by
        intro hyes
        have := htruth e he
        rcases (hcovers result rfl).excluded e.1 e.2 (mem_located_of_views he) hmem with
          h | h | ⟨h, -⟩
        · rw [h, hyes] at this
          cases this
        · rw [h, hyes] at this
          cases this
        · exact h (by rw [this, hyes])
      simp [hmem, hne]

theorem scan_total (hlawful : registry.Lawful) (ht : t.Consistent registry)
    (hp : p.Ok registry t.columns) (htotal : ∀ e ∈ t.views, p.Total e.2) :
    scan registry t (some p) = .ok (t.views.filter fun e => p.meaning e.2 = .yes) := by
  obtain ⟨r, -, hcovers, hscan⟩ := scan_eq_filter hlawful ht hp
  have htruth : ∀ e ∈ t.views, p.truth e.2 = .ok (p.meaning e.2) :=
    fun e he => p.truth_eq_meaning (htotal e he)
  rw [hscan, ← offered_filter_true hcovers htruth]
  refine Fallible.filter_eq_ok fun e he => ?_
  rw [BoundPredicate.matches, htruth e (Table.mem_offered.mp he).1]
  rfl

/-- **Index selection never changes which rows match.** For every table with
consistent indexes and every well bound predicate whose expressions do not
fail on its rows, visiting what `candidates` offers and testing what it left
selects the rows on which the predicate is TRUE, each once, in table order. -/
theorem scan_selects_true_rows (registry : Registry) (t : Table) (p : BoundPredicate)
    (hlawful : registry.Lawful) (ht : t.Consistent registry) (hp : p.Ok registry t.columns)
    (htotal : ∀ e ∈ t.views, p.Total e.2) :
    scan registry t (some p) = .ok (t.views.filter fun e => p.meaning e.2 = .yes) ∧
      t.views.Pairwise fun a b => a.1 < b.1 :=
  ⟨scan_total hlawful ht hp htotal, ht.inOrder.views_sorted⟩

/-- A comparison that does not fail on any row. -/
def totalComparison (t : Table) : BoundPredicate → Bool
  | .comparison leaf => t.views.all fun e => (leaf.truth e.2).isOk
  | _ => false

theorem total_of_totalComparison (h : totalComparison t p = true) : ∀ e ∈ t.views, p.Total e.2 := by
  intro e he
  cases p with
  | comparison leaf =>
    have hok := List.all_eq_true.mp h e he
    cases htruth : leaf.truth e.2 with
    | ok truth => exact ⟨truth, htruth⟩
    | error error => simp [htruth, Except.isOk, Except.toBool] at hok
  | contains | all | any | negation => cases h

/-- A key found by the hash index: the comparison is discharged, and nothing
is left to test on the one row that is visited. -/
theorem scan_selects_true_rows_point :
    ∃ t p nodes, t.Consistent failingRegistry ∧
      bindCondition failingRegistry t.columns 0 0 (compareTo .equal (.integer 2)) = .ok (p, nodes) ∧
      scan failingRegistry t (some p) = .ok (t.views.filter fun e => p.meaning e.2 = .yes) ∧
      (t.views.filter fun e => p.meaning e.2 = .yes).length = 1 := by
  obtain ⟨t, p, nodes, ht, hp, hask⟩ := of_askOf
    { name := lit "a", type := integerType, primaryKey := true } [] [1, 2, 7]
    (compareTo .equal (.integer 2))
    (fun t p => totalComparison t p && (t.views.filter fun e => p.meaning e.2 = .yes).length = 1)
    rfl (by decide +kernel)
  rw [Bool.and_eq_true, decide_eq_true_eq] at hask
  exact ⟨t, p, nodes, ht, hp, (scan_selects_true_rows failingRegistry t p failingRegistry_lawful ht
    (bindCondition_ok _ hp) (total_of_totalComparison hask.1)).1, hask.2⟩

/-! ## What the hidden rows are -/

theorem nullGuard_selects (registry : Registry) (h : nullGuard t p = true) :
    ∃ r, selectRows t p registry = .ok (some r) ∧ r.rows = [] := by
  rw [nullGuard] at h
  split at h
  · next b test hb htest =>
      obtain ⟨g, hg, htest⟩ := Option.bind_eq_some_iff.mp htest
      simp only [Bool.and_eq_true, beq_iff_eq] at h
      obtain ⟨⟨hop, hcolumn⟩, hnull⟩ := h
      have hpoint : pointCandidates t g = .ok (some { exact := true }) := by
        rw [pointCandidates.eq_def, hb, htest]
        simp [hop, hcolumn, hnull]
      have hguard : guardCandidates t p.leadingKeyGuard = .ok (some { exact := true }) := by
        rw [hg, guardCandidates.eq_def]
        cases g with
        | contains m => cases htest
        | comparison | all | any | negation => exact hpoint
      exact ⟨{ exact := true }, by simp only [selectRows, hguard]; rfl, rfl⟩
  · cases h

theorem prefixPlan_nil (positions : List Nat) : (prefixPlan [] positions).score = 0 := by
  cases positions <;> rfl

theorem choosePrefix_nil (indexes : List OrderedIndex) : choosePrefix [] indexes = none := by
  simp [choosePrefix, prefixPlan_nil]

theorem rangeGuard_spec (h : rangeGuard registry t p = some (test, hi)) :
    ∃ g, p.leadingKeyGuard = some g ∧ g.directComparison = some test ∧
      test.operation = .greaterEqual ∧ test.value.isNull = false ∧
      (∃ x ∈ t.ordered, x.columns.head? = some test.column) ∧
      (t.nullable test.column = true ∨ test.native registry = false) ∧
      upperBound test.column p = some hi := by
  rw [rangeGuard] at h
  split at h
  · cases h
  · next test' htest =>
      rw [Option.ite_none_right_eq_some] at h
      obtain ⟨hcond, h⟩ := h
      obtain ⟨hi', hupper, heq⟩ := Option.map_eq_some_iff.mp h
      cases heq
      obtain ⟨g, hg, htest⟩ := Option.bind_eq_some_iff.mp htest
      simp only [Bool.and_eq_true, Bool.or_eq_true, beq_iff_eq, Bool.not_eq_true',
        List.any_eq_true] at hcond
      exact ⟨g, hg, htest, hcond.1.1.1, hcond.1.1.2, hcond.1.2, hcond.2, hupper⟩

/-- A range guard leads to the last path, which leaves out the keys above
the upper bound. -/
theorem rangeGuard_selects (hlawful : registry.Lawful) (ht : t.Consistent registry)
    (hp : p.Ok registry t.columns) (h : rangeGuard registry t p = some (test, hi)) :
    ∃ r, selectRows t p registry = .ok (some r) ∧
      ∀ l row, (l, row) ∈ t.located → l ∈ r.rows → beyond test hi row = false := by
  obtain ⟨g, hg, htest, hop, hvalue, ⟨x, hx, hhead⟩, hundecided, hupper⟩ := rangeGuard_spec h
  have hlit := ColumnTest.columnLiteral_of_direct htest
  obtain ⟨hok, -⟩ := ColumnTest.of_columnLiteral hlawful (guard_ok p hp hg) hlit
  -- The guard is refused by both collections, which therefore end at once.
  have hdirect : directKey t registry g = .ok none := by
    rw [directKey, htest, Option.filter_some]
    split
    · next hdefinite =>
        have hnative : test.native registry = false := hundecided.resolve_left
          (by simpa [ColumnTest.definite, hvalue] using hdefinite)
        rw [nativeTest_eq hok, hnative]
        rfl
    · rfl
  have hnative : nativeKey t registry g = .ok none := by
    rw [nativeKey, nativeColumnLiteral, hlit, nativeTest_eq hok]
    cases hn : test.native registry with
    | false => rfl
    | true =>
      have hnull : t.nullable test.column = true := hundecided.resolve_right (by simp [hn])
      simp [Bind.bind, Except.bind, pure, Except.pure, ColumnTest.definite, hnull]
  have hguard : guardCandidates t (some g) = .ok none := by
    have hpoint : pointCandidates t g = .ok none := by
      rw [pointCandidates.eq_def, hlit]
      cases t.primary <;> simp [hop]
    rw [guardCandidates.eq_def]
    cases g with
    | contains m => cases htest
    | comparison | all | any | negation => exact hpoint
  have hcomposite : compositeCandidates t p registry = .ok none := by
    rw [compositeCandidates]
    split
    · rfl
    · rw [collect_guard_none p hg hdirect]
      simp only [Bind.bind, Except.bind, choosePrefix_nil]
      rfl
  have hprimary : primaryRangeCandidates t p registry = .ok none := by
    obtain ⟨r, hr, -⟩ := primaryRangeCandidates_covers hlawful ht hp
    rw [hr]
    rw [primaryRangeCandidates.eq_def] at hr
    split at hr
    · exact hr.symm
    · obtain ⟨addon, -, hr⟩ := Fallible.bind_eq_ok.mp hr
      split at hr
      · exact hr.symm
      · rw [collect_guard_none p hg hnative] at hr
        exact hr.symm
  obtain ⟨y, hy⟩ : ∃ y, (t.ordered.find? fun x => x.columns.head? == some test.column) =
    some y := by
    rw [← Option.isSome_iff_exists, List.find?_isSome]
    exact ⟨x, hx, by simpa using hhead⟩
  have hbounds : leadingBounds p test = some (test.value, hi) := by
    simp only [leadingBounds, hop, hupper, Option.map_some]
  obtain ⟨hlo, hhi⟩ := leadingBounds_cell hlawful hp hok hbounds
  have hleading : leadingCandidates t p g = some (.mk (y.range test.value hi ++
      (if t.nullable test.column && !p.isComparison then
        y.range (.null test.type) (.null test.type) else [])) false) := by
    simp only [leadingCandidates, htest, hvalue, hy, hbounds, Bool.false_eq_true, if_false]
  have hselect : selectRows t p registry = .ok (leadingCandidates t p g) := by
    simp only [selectRows, hg, hguard, hcomposite, hprimary, orElse, Option.bind_some,
      Bind.bind, Except.bind]
  rw [hleading] at hselect
  refine ⟨_, hselect, fun l row hrow hl => ?_⟩
  · have hymem := List.mem_of_find?_eq_some hy
    have hyhead : y.columns.head? = some test.column := by simpa using List.find?_some hy
    rcases List.mem_append.mp hl with hl | hl
    · have hbetween := ((ht.mem_range hlawful hok hymem hyhead hlo hhi).2 hrow).mp hl
      have hle : test.comparison.compare (row.cell test.column) hi ≤ 0 := hbetween.2 hi rfl
      simp [beyond, hle]
    · split at hl
      · have hnull : registry.Cell test.type (.null test.type) := by
          obtain ⟨addon, haddon, htype, -⟩ := cell_iff.mp hlo
          exact cell_iff.mpr ⟨addon, haddon, htype, .inl ⟨rfl, rfl⟩⟩
        have hbetween := ((ht.mem_range hlawful hok hymem hyhead hnull hnull).2 hrow).mp hl
        simp [beyond, keyBetween_null.mp hbetween]
      · cases hl

/-! ## Updates and deletes -/

/-- A row-local predicate does not read row identities; only those can be
bound by an update or a delete. -/
def BoundPredicate.RowLocal (p : BoundPredicate) : Prop :=
  ∀ row id, p.truth ⟨row, id⟩ = p.truth ⟨row, none⟩

variable {α β : Type} {w w' : Work} {name : Bytes}

theorem of_run_lift_bind_ok {x : Except Error α} {f : α → Prog β} {b : β}
    (h : (lift x >>= f).run w = (.ok b, w')) : ∃ a, x = .ok a ∧ (f a).run w = (.ok b, w') := by
  rw [run_bind, run_lift] at h
  cases x with
  | error e => cases h
  | ok a => exact ⟨a, rfl, h⟩

/-- The rows of a group that a mutation tests. -/
def Tested (t : Table) (matching : Row → Except Error Bool) (g : Group) : Prop :=
  ∀ c positions, t.openGroup g = .ok (c, positions) → ∀ i ∈ positions,
    ∃ x, matching (c.rows.getD i []) = .ok x

theorem BoundUpdate.chunk_tested {c : Chunk}
    {u : ChunkUpdate} (h : b.chunk registry columns c positions = .ok u) :
    ∀ i ∈ positions, ∃ x, b.matching (c.rows.getD i []) = .ok x := by
  intro i hi
  obtain ⟨s₁, s₂, hround⟩ := Fallible.foldlM_rounds h i hi
  rw [visit] at hround
  obtain ⟨x, hx, -⟩ := Fallible.bind_eq_ok.mp hround
  exact ⟨x, hx⟩

theorem updateGroups_tested {r : Replacing}
    (h : (updateGroups registry name t b gs r).run w = (.ok r', w')) :
    ∀ g ∈ gs, Tested t b.matching g := by
  induction gs generalizing r w with
  | nil => simp
  | cons g gs ih =>
    rw [updateGroups] at h
    obtain ⟨⟨c, positions⟩, hopen, h⟩ := of_run_lift_bind_ok h
    obtain ⟨u, hu, h⟩ := of_run_lift_bind_ok h
    have hrest : ∀ g' ∈ gs, Tested t b.matching g' := by
      split at h
      · exact ih h
      · obtain ⟨i, w₁, -, h⟩ := of_run_bind_ok h
        obtain ⟨-, w₂, -, h⟩ := of_run_bind_ok h
        obtain ⟨-, w₃, -, h⟩ := of_run_bind_ok h
        exact ih h
    intro g' hg'
    rcases List.mem_cons.mp hg' with rfl | hg'
    · intro c' positions' hopen'
      rw [hopen] at hopen'
      cases hopen'
      exact BoundUpdate.chunk_tested hu
    · exact hrest g' hg'

theorem pointUpdate_tested (h : (pointUpdate registry name t b selected).run w = (.ok outcome, w'))
    (hone : ∃ g, t.groups selected = [g]) : ∀ g ∈ t.groups selected, Tested t b.matching g := by
  obtain ⟨g, hg⟩ := hone
  simp only [pointUpdate, hg] at h
  obtain ⟨⟨c, positions⟩, hopen, h⟩ := of_run_lift_bind_ok h
  obtain ⟨u, hu, h⟩ := of_run_lift_bind_ok h
  rw [hg]
  intro g' hg'
  rw [List.mem_singleton.mp hg']
  intro c' positions' hopen'
  rw [hopen] at hopen'
  cases hopen'
  exact BoundUpdate.chunk_tested hu

theorem rowOnly_group {tables : Tables}
    (h : rowOnly tables name t assigned selected = true) : ∃ g, t.groups selected = [g] := by
  simp only [rowOnly, Bool.and_eq_true] at h
  cases selected with
  | none => simp at h
  | some rows =>
    have hlen : (normalize rows).length = 1 := by simpa using h.1.1.1.1.1.1
    obtain ⟨l, hl⟩ := List.length_eq_one_iff.mp hlen
    exact ⟨⟨l.chunk, some [l]⟩, by simp [Table.groups, hl, groupRows]⟩

theorem updateImpl_tested {assignments : List Assignment} {condition : Option Filter}
    {b : BoundFilter} (ht : w.get (.stored name) = some t) (hf : f.bind registry t = .ok b)
    (hc : b.candidates = .ok c)
    (h : (updateImpl registry name assignments (some f) condition).run w = (.ok outcome, w')) :
    ∀ g ∈ t.groups c.selected, Tested t c.condition g := by
  rw [updateImpl, run_bind_ok (run_readTables w)] at h
  obtain ⟨t', ht', h⟩ := of_run_lift_bind_ok h
  have htable : t' = t := by
    have hfind : SortedMap.find name w.tables = some t := ht
    simp only [requireTable, hfind] at ht'
    exact (Except.ok.inj ht').symm
  subst htable
  obtain ⟨⟨⟩, w₁, hfail, h⟩ := of_run_bind_ok h
  obtain ⟨-, rfl⟩ := of_run_failIf_ok hfail
  obtain ⟨bound, -, h⟩ := of_run_lift_bind_ok h
  obtain ⟨filter, hfilter, h⟩ := of_run_lift_bind_ok h
  obtain ⟨additional, -, h⟩ := of_run_lift_bind_ok h
  obtain ⟨candidates, hcandidates, h⟩ := of_run_lift_bind_ok h
  rw [bindFilter, hf] at hfilter
  cases hfilter
  rw [hc] at hcandidates
  cases hcandidates
  simp only at h
  split at h
  · next honly => exact pointUpdate_tested h (rowOnly_group honly)
  · obtain ⟨r, w₂, hgroups, -⟩ := of_run_bind_ok h
    exact updateGroups_tested hgroups

/-- A delete that succeeds has tested every row of a chunk it was offered. -/
theorem eraseChunk_tested {g : Group} {c : Chunk}
    {u : ChunkErase} (hlen : c.rowids.length = c.rows.length)
    (h : eraseChunk matching g c = .ok u) {i : Nat} (hi : i < c.rows.length)
    (heligible : ∀ rows ∈ g.rows, (⟨g.chunk, c.slot i⟩ : RowLocation) ∈ rows) :
    ∃ x, matching (c.rows.getD i []) = .ok x := by
  have hmem : ((c.rows[i], c.rowids[i]), c.slot i) ∈ c.slotted := by
    rw [Chunk.slotted, List.mem_map]
    refine ⟨((c.rows[i], c.rowids[i]), i), ?_, rfl⟩
    rw [List.mem_zipIdx_iff_getElem?, List.getElem?_eq_getElem (by simp; omega)]
    simp
  obtain ⟨s₁, s₂, hround⟩ := Fallible.foldlM_rounds h _ hmem
  have hall : (g.rows.all fun rows => rows.contains (⟨g.chunk, c.slot i⟩ : RowLocation)) =
    true := by
    cases hrows : g.rows with
    | none => rfl
    | some rows => simpa [hrows] using heligible
  rw [eraseVisit, hall, if_pos rfl] at hround
  obtain ⟨x, hx, -⟩ := Fallible.bind_eq_ok.mp hround
  refine ⟨x, ?_⟩
  rw [List.getD_eq_getElem?_getD, List.getElem?_eq_getElem hi]
  exact hx

theorem eraseGroups_tested
    {r : Replacing} (h : (eraseGroups name t matching gs r).run w = (.ok r', w')) :
    ∀ g ∈ gs, ∀ c positions, t.openGroup g = .ok (c, positions) →
      ∃ u, eraseChunk matching g c = .ok u := by
  induction gs generalizing r w with
  | nil => simp
  | cons g gs ih =>
    rw [eraseGroups] at h
    obtain ⟨⟨c, positions⟩, hopen, h⟩ := of_run_lift_bind_ok h
    obtain ⟨u, hu, h⟩ := of_run_lift_bind_ok h
    have hrest : ∀ g' ∈ gs, ∀ c positions, t.openGroup g' = .ok (c, positions) →
        ∃ u, eraseChunk matching g' c = .ok u := by
      simp only at h
      split at h
      · exact ih h
      · obtain ⟨i, w₁, -, h⟩ := of_run_bind_ok h
        obtain ⟨-, w₂, -, h⟩ := of_run_bind_ok h
        obtain ⟨-, w₃, -, h⟩ := of_run_bind_ok h
        exact ih h
    intro g' hg' c' positions' hopen'
    rcases List.mem_cons.mp hg' with rfl | hg'
    · rw [hopen] at hopen'
      cases hopen'
      exact ⟨u, hu⟩
    · exact hrest g' hg' c' positions' hopen'

theorem eraseImpl_tested {returning : Bool} {outcome : Nat × List Row}
    {b : BoundFilter} (ht : w.get (.stored name) = some t)
    (hf : f.bind registry t = .ok b) (hc : b.candidates = .ok c)
    (h : (eraseImpl registry name (some f) none returning).run w = (.ok outcome, w')) :
    ∀ g ∈ t.groups c.selected, ∀ d positions, t.openGroup g = .ok (d, positions) →
      ∃ u, eraseChunk c.condition g d = .ok u := by
  rw [eraseImpl, run_bind_ok (run_readTables w)] at h
  obtain ⟨t', ht', h⟩ := of_run_lift_bind_ok h
  have htable : t' = t := by
    have hfind : SortedMap.find name w.tables = some t := ht
    simp only [requireTable, hfind] at ht'
    exact (Except.ok.inj ht').symm
  subst htable
  simp only [Option.isNone_some, Bool.false_and, Bool.false_eq_true, if_false] at h
  obtain ⟨filter, hfilter, h⟩ := of_run_lift_bind_ok h
  rw [bindFilter, hf] at hfilter
  cases hfilter
  obtain ⟨candidates, hcandidates, h⟩ := of_run_lift_bind_ok h
  rw [hc] at hcandidates
  cases hcandidates
  obtain ⟨r, w₂, hgroups, -⟩ := of_run_bind_ok h
  exact eraseGroups_tested hgroups

theorem Table.InOrder.group_of_offered (h : t.InOrder)
    (hreal : ∀ rows ∈ selected, ∀ l ∈ rows, ∃ e ∈ t.views, e.1 = l) (he : e ∈ t.offered selected) :
    ∃ g ∈ t.groups selected, ∃ c positions i, (g.chunk, c) ∈ t.chunks ∧
      t.openGroup g = .ok (c, positions) ∧ i ∈ positions ∧ i < c.rows.length ∧
      e = (⟨g.chunk, c.slot i⟩, c.view i) ∧ ∀ rows ∈ g.rows, e.1 ∈ rows := by
  obtain ⟨hview, hoffered⟩ := Table.mem_offered.mp he
  obtain ⟨⟨id, c⟩, hc, hview'⟩ := List.mem_flatMap.mp hview
  obtain ⟨i, hi, rfl⟩ := Chunk.mem_views.mp hview'
  have hfind := h.sorted.find_of_mem hc
  cases selected with
  | none =>
    refine ⟨⟨id, none⟩, List.mem_map.mpr ⟨(id, c), hc, rfl⟩, c, List.range c.rows.length, i, hc, ?_,
      List.mem_range.mpr hi, hi, rfl, by simp⟩
    simp only [Table.openGroup, hfind]
  | some rows =>
    obtain ⟨hflat, hspec⟩ := groupRows_spec (normalize rows)
    have hmem : (⟨id, c.slot i⟩ : RowLocation) ∈ normalize rows :=
      mem_normalize.mpr (hoffered rows rfl)
    rw [← hflat] at hmem
    obtain ⟨g, hg, hin⟩ := List.mem_flatMap.mp hmem
    obtain ⟨ls, hls, hne, hchunk⟩ := hspec g hg
    rw [hls, Option.getD_some] at hin
    have hlsreal : ∀ l ∈ ls, ∃ e ∈ t.views, e.1 = l := by
      intro l hl
      refine hreal rows rfl l (mem_normalize.mp ?_)
      rw [← hflat]
      exact List.mem_flatMap.mpr ⟨g, hg, by simpa [hls] using hl⟩
    obtain ⟨c', hopen, hfind', -⟩ := h.openGroup_eq hls hne hchunk hlsreal
    have hid : id = g.chunk := hchunk _ hin
    subst hid
    rw [hfind] at hfind'
    cases hfind'
    refine ⟨g, hg, c, _, i, hc, hopen, List.mem_map.mpr ⟨_, hin, ?_⟩, hi,
      rfl, by simpa [hls] using hin⟩
    exact (h.placed _ hc).position_slot hi

/-! ## Errors behind an index -/

def Raises (p : BoundPredicate) (rows : List (RowLocation × RowView)) : Prop :=
  ∃ e ∈ rows, ∃ error, p.truth e.2 = .error error

/-- Every row the predicate fails on is left out: the primary key is compared
with NULL first, or a range is, and the failing rows lie above it. -/
def ErrorsHidden (registry : Registry) (t : Table) (p : BoundPredicate) : Prop :=
  nullGuard t p = true ∨ ∃ test hi, rangeGuard registry t p = some (test, hi) ∧
    ∀ e ∈ t.views, (∃ error, p.truth e.2 = .error error) → beyond test hi e.2.row = true

theorem raises_offered (hlawful : registry.Lawful) (ht : t.Consistent registry)
    (hp : p.Ok registry t.columns)
    (hr : selectRows t p registry = .ok r) (hcovers : ∀ result ∈ r, Covers registry t p result)
    (hraises : Raises p t.views) :
    Raises p (t.offered (r.map IndexResult.rows)) ↔ ¬ErrorsHidden registry t p := by
  constructor
  · rintro ⟨e, he, error, herror⟩ hhidden
    obtain ⟨hview, hoffered⟩ := Table.mem_offered.mp he
    rcases hhidden with hnull | ⟨test, hi, hrange, hbeyond⟩
    · obtain ⟨result, hselect, hempty⟩ := nullGuard_selects registry hnull
      rw [hr] at hselect
      cases hselect
      simpa [hempty] using hoffered _ rfl
    · obtain ⟨result, hselect, hwithin⟩ := rangeGuard_selects hlawful ht hp hrange
      rw [hr] at hselect
      cases hselect
      have := hwithin e.1 e.2.row (mem_located_of_views hview) (hoffered _ rfl)
      rw [hbeyond e hview ⟨error, herror⟩] at this
      cases this
  · intro hhidden
    by_contra hnone
    -- Then every failing row was left out, and says why.
    have hhides : ∀ e ∈ t.views, (∃ error, p.truth e.2 = .error error) →
        Hides registry t p e.2.row := by
      rintro e he ⟨error, herror⟩
      cases r with
      | none => exact absurd ⟨e, he, error, herror⟩ hnone
      | some result =>
        have hmem : e.1 ∉ result.rows := fun hmem =>
          hnone ⟨e, Table.mem_offered.mpr ⟨he, by simpa using hmem⟩, error, herror⟩
        rcases (hcovers result rfl).excluded e.1 e.2 (mem_located_of_views he) hmem with
          h | h | ⟨-, h⟩
        · rw [herror] at h
          cases h
        · rw [herror] at h
          cases h
        · exact h
    obtain ⟨e, he, error, herror⟩ := hraises
    rcases hhides e he ⟨error, herror⟩ with hnull | ⟨test, hi, hrange, -⟩
    · exact hhidden (.inl hnull)
    · refine hhidden (.inr ⟨test, hi, hrange, fun e' he' herror' => ?_⟩)
      rcases hhides e' he' herror' with hnull | ⟨test', hi', hrange', hbeyond⟩
      · exact absurd (.inl hnull) hhidden
      · rw [hrange] at hrange'
        cases hrange'
        exact hbeyond

theorem predicateFilter_candidates (hr : selectRows t p registry = .ok r) :
    (predicateFilter registry t p).candidates =
      .ok ⟨r.map IndexResult.rows, fun row => optionalMatches (residual p r) ⟨row, none⟩⟩ := by
  simp only [predicateFilter, candidates_eq hr]
  rfl

/-- The test of a row that was offered fails where the predicate does. -/
theorem condition_error (hlocal : p.RowLocal) (hcovers : ∀ result ∈ r, Covers registry t p result)
    (he : e ∈ t.offered (r.map IndexResult.rows)) {error : Error}
    (herror : p.truth e.2 = .error error) :
    optionalMatches (residual p r) ⟨e.2.row, none⟩ = .error error := by
  obtain ⟨hview, hoffered⟩ := Table.mem_offered.mp he
  rw [optionalMatches, residual_truth (v := ⟨e.2.row, none⟩) hcovers (mem_located_of_views hview)
    fun result hresult => hoffered _ (Option.map_eq_some_iff.mpr ⟨result, hresult, rfl⟩),
    ← hlocal e.2.row e.2.id, herror]
  rfl

/-- A mutation that is offered a row its predicate fails on fails. -/
theorem mutations_raise (ht : t.Consistent registry)
    (hr : selectRows t p registry = .ok r) (hcovers : ∀ result ∈ r, Covers registry t p result)
    (hlocal : p.RowLocal) (hraises : Raises p (t.offered (r.map IndexResult.rows)))
    (hstored : w.get (.stored name) = some t)
    (hf : f.bind registry t = .ok (predicateFilter registry t p)) :
    (∀ assignments condition, ∃ error,
      ((updateImpl registry name assignments (some f) condition).run w).1 = .error error) ∧
    (∀ returning, ∃ error,
      ((eraseImpl registry name (some f) none returning).run w).1 = .error error) := by
  obtain ⟨e, he, error, herror⟩ := hraises
  have hcandidates := predicateFilter_candidates hr
  have hcondition := condition_error hlocal hcovers he herror
  obtain ⟨g, hg, c, positions, i, hc, hopen, hi, hlt, rfl, heligible⟩ :=
    ht.inOrder.group_of_offered (offered_real hcovers) he
  refine ⟨fun assignments condition => ?_, fun returning => ?_⟩
  · cases hrun : (updateImpl registry name assignments (some f) condition).run w with
    | mk result w' =>
      cases result with
      | error error => exact ⟨error, rfl⟩
      | ok outcome =>
        obtain ⟨x, hx⟩ := updateImpl_tested hstored hf hcandidates hrun g hg c positions hopen i hi
        cases hcondition.symm.trans hx
  · cases hrun : (eraseImpl registry name (some f) none returning).run w with
    | mk result w' =>
      cases result with
      | error error => exact ⟨error, rfl⟩
      | ok outcome =>
        obtain ⟨u, hu⟩ := eraseImpl_tested hstored hf hcandidates hrun g hg c positions hopen
        obtain ⟨x, hx⟩ := eraseChunk_tested (ht.identified _ hc) hu hlt heligible
        cases hcondition.symm.trans hx

/-- **Index selection hides errors exactly here.** If the whole predicate,
evaluated on every row, fails on some row, then so do the scan, the update
and the delete that go through index selection, unless `ErrorsHidden`. -/
theorem index_hides_no_error_iff (registry : Registry) (t : Table) (p : BoundPredicate)
    (hlawful : registry.Lawful) (ht : t.Consistent registry) (hp : p.Ok registry t.columns) :
    (Raises p t.views →
      (∃ error, scan registry t (some p) = .error error) ∧
      (p.RowLocal → ∀ (w : Work) (name : Bytes) (f : Filter), w.get (.stored name) = some t →
        f.bind registry t = .ok (predicateFilter registry t p) →
        (∀ assignments condition, ∃ error,
          ((updateImpl registry name assignments (some f) condition).run w).1 = .error error) ∧
        (∀ returning, ∃ error,
          ((eraseImpl registry name (some f) none returning).run w).1 = .error error))) ↔
    ¬(Raises p t.views ∧ ErrorsHidden registry t p) := by
  obtain ⟨r, hr, hcovers, hscan⟩ := scan_eq_filter hlawful ht hp
  have hfails : (∃ error, scan registry t (some p) = .error error) ↔
      Raises p (t.offered (r.map IndexResult.rows)) := by
    rw [hscan, Fallible.filter_error]
    refine exists_congr fun e => and_congr_right fun _ => exists_congr fun error => ?_
    rw [BoundPredicate.matches]
    cases p.truth e.2 <;> simp [Bind.bind, Except.bind, pure, Except.pure]
  constructor
  · rintro h ⟨hraises, hhidden⟩
    exact (raises_offered hlawful ht hp hr hcovers hraises).mp (hfails.mp (h hraises).1) hhidden
  · intro h hraises
    have hoffered := (raises_offered hlawful ht hp hr hcovers hraises).mpr
      fun hhidden => h ⟨hraises, hhidden⟩
    exact ⟨hfails.mpr hoffered, fun hlocal w name f hstored hf =>
      mutations_raise ht hr hcovers hlocal hoffered hstored hf⟩

/-- Whether a predicate fails on a row of the table while a scan finds
nothing and reports nothing. -/
def hidesError (t : Table) (p : BoundPredicate) : Bool :=
  (t.views.any fun e => !(p.truth e.2).isOk) &&
    match scan failingRegistry t (some p) with
    | .ok rows => rows.isEmpty
    | .error _ => false

theorem of_hidesError (h : hidesError t p = true) :
    Raises p t.views ∧ scan failingRegistry t (some p) = .ok [] := by
  rw [hidesError, Bool.and_eq_true, List.any_eq_true] at h
  obtain ⟨⟨e, he, herror⟩, hscan⟩ := h
  refine ⟨⟨e, he, ?_⟩, ?_⟩
  · cases htruth : p.truth e.2 with
    | ok truth => simp [htruth, Except.isOk, Except.toBool] at herror
    | error error => exact ⟨error, rfl⟩
  · split at hscan
    · next rows hrows => rw [hrows, List.isEmpty_iff.mp hscan]
    · cases hscan

/-- Both ways an error is hidden. `a = NULL AND fail(a) = 1` on a primary key
visits no row. `(a >= 1 AND fail(a) = 1) AND a <= 5` on a nullable column with
an ordered index leaves out the row 7, on which the first two conjuncts are
evaluated before the third. -/
theorem index_hides_errors :
    (∃ t p nodes, t.Consistent failingRegistry ∧
      bindCondition failingRegistry t.columns 0 0
        (conjunction [compareTo .equal (.null integerType), failingTest]) = .ok (p, nodes) ∧
      Raises p t.views ∧ scan failingRegistry t (some p) = .ok []) ∧
    (∃ t p nodes, t.Consistent failingRegistry ∧
      bindCondition failingRegistry t.columns 0 0
        (conjunction [conjunction [compareTo .greaterEqual (.integer 1), failingTest],
          compareTo .lessEqual (.integer 5)]) = .ok (p, nodes) ∧
      Raises p t.views ∧ scan failingRegistry t (some p) = .ok []) := by
  constructor
  · obtain ⟨t, p, nodes, ht, hp, hask⟩ := of_askOf
      { name := lit "a", type := integerType, primaryKey := true } [] [1]
      (conjunction [compareTo .equal (.null integerType), failingTest]) hidesError rfl
        (by decide +kernel)
    exact ⟨t, p, nodes, ht, hp, of_hidesError hask⟩
  · obtain ⟨t, p, nodes, ht, hp, hask⟩ := of_askOf
      { name := lit "a", type := integerType, nullable := true }
      [{ name := lit "by_a", columns := [lit "a"] }] [7]
      (conjunction [conjunction [compareTo .greaterEqual (.integer 1), failingTest],
        compareTo .lessEqual (.integer 5)]) hidesError rfl (by decide +kernel)
    exact ⟨t, p, nodes, ht, hp, of_hidesError hask⟩

/-- Behind a primary key, `a = 1 AND fail` hides nothing: the row the index offers
fails, and the scan with it. -/
theorem index_hides_no_error_key :
    ∃ t p nodes, t.Consistent failingRegistry ∧
      bindCondition failingRegistry t.columns 0 0
        (conjunction [compareTo .equal (.integer 1), failingTest]) = .ok (p, nodes) ∧
      Raises p t.views ∧ ∃ error, scan failingRegistry t (some p) = .error error := by
  obtain ⟨t, p, nodes, ht, hp, hask⟩ := of_askOf
    { name := lit "a", type := integerType, primaryKey := true } [] [1, 2]
    (conjunction [compareTo .equal (.integer 1), failingTest])
    (fun t p => (t.views.any fun e => !(p.truth e.2).isOk) && !nullGuard t p &&
      (rangeGuard failingRegistry t p).isNone) rfl (by decide +kernel)
  simp only [Bool.and_eq_true, List.any_eq_true, Bool.not_eq_true', Option.isNone_iff_eq_none]
    at hask
  obtain ⟨⟨⟨e, he, herror⟩, hnull⟩, hrange⟩ := hask
  have hraises : Raises p t.views := by
    refine ⟨e, he, ?_⟩
    cases htruth : p.truth e.2 with
    | ok truth => simp [htruth, Except.isOk, Except.toBool] at herror
    | error error => exact ⟨error, rfl⟩
  have hvisible : ¬(Raises p t.views ∧ ErrorsHidden failingRegistry t p) := by
    rintro ⟨-, h | ⟨test, hi, h, -⟩⟩
    · rw [hnull] at h
      cases h
    · rw [hrange] at h
      cases h
  exact ⟨t, p, nodes, ht, hp, hraises, ((index_hides_no_error_iff failingRegistry t p
    failingRegistry_lawful ht (bindCondition_ok _ hp)).mpr hvisible hraises).1⟩

end CoreSql
