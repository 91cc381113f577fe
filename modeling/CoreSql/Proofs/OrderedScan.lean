import CoreSql.Proofs.OrderedWalk
import CoreSql.Proofs.Selection

/-!
# When an ordered scan is a stable sort

An ordered scan is to return what filtering, sorting stably by the ORDER BY
columns and cutting at the limit returns. It returns the right rows, in the
order of the ORDER BY columns. Complete ties come in table order as far as
they are read in one group, and they are as long as every ORDER BY column is
constant or part of the walked order. A column that the WHERE clause fixes is
constant on the rows of the result, but it may be a later column of the index,
and entries with another value in it, which the clause excludes, then separate
groups. `Overtaken` says when a row of the result is affected.
-/

namespace CoreSql

variable {registry : Registry} {t : Table} {v : RowView} {tests : List ColumnTest}
  {column k score limit produced : Nat} {orderBy : List Order} {o : OrderColumn}
  {projection : List Projected} {e : OrderedEntry} {ρ α : Type}

/-! ## Conjunctions of native comparisons -/

theorem truthAll_yes {r : Truth} : ∀ {children : List BoundPredicate},
    truthAll v r children = .ok .yes → ∀ child ∈ children, child.truth v = .ok .yes
  | [], _, child, hchild => by cases hchild
  | first :: rest, h, child, hchild => by
      rw [truthAll] at h
      cases hfirst : first.truth v with
      | error e => simp [hfirst, Bind.bind, Except.bind] at h
      | ok truth =>
        rw [hfirst] at h
        cases truth with
        | no => cases h
        | unknown => exact absurd h (truthAll_unknown_ne_yes rest)
        | yes =>
          rcases List.mem_cons.mp hchild with rfl | hchild
          · exact hfirst
          · exact truthAll_yes h child hchild

/-- Tests that a conjunction consists of: it never fails, and where it is TRUE
they all are. -/
structure Conjuncts (registry : Registry) (t : Table) (p : BoundPredicate)
    (tests : List ColumnTest) : Prop where
  ok : ∀ test ∈ tests, test.Ok registry t.columns
  total : ∀ v, RowOk registry t.columns v.row → p.Total v
  yes : ∀ v, RowOk registry t.columns v.row → p.truth v = .ok .yes →
    ∀ test ∈ tests, test.truth v = .yes

theorem conjuncts_leaf (hlawful : registry.Lawful) {p : BoundPredicate}
    (hp : p.Ok registry t.columns) (hleaf : ∀ children, p ≠ .all children)
    (h : collect (nativeColumnLiteral t registry) p = .ok (tests, true)) :
    Conjuncts registry t p tests := by
  rw [collect_leaf_eq _ hleaf] at h
  obtain ⟨found, hfound, heq⟩ := Fallible.map_eq_ok.mp h
  obtain ⟨rfl, hsome⟩ := Prod.mk.inj heq
  obtain ⟨test, rfl⟩ := Option.isSome_iff_exists.mp hsome
  have hlit : p.columnLiteral = some test := by
    rw [nativeColumnLiteral, nativeTest.eq_def] at hfound
    split at hfound
    · cases hfound
    · next test' hlit =>
        split at hfound
        · cases hfound
        · obtain ⟨addon, -, hfound⟩ := Fallible.bind_eq_ok.mp hfound
          have heq := Except.ok.inj hfound
          split at heq
          · rw [hlit, heq]
          · cases heq
  obtain ⟨hok, htruth⟩ := ColumnTest.of_columnLiteral hlawful hp hlit
  refine ⟨by simpa using hok, fun v hrow => ?_, fun v hrow hyes => ?_⟩
  · cases p with
    | comparison leaf => exact ⟨_, htruth v hrow⟩
    | contains | all | any | negation => cases hlit
  · rw [htruth v hrow] at hyes
    simpa using Except.ok.inj hyes

mutual

theorem collect_conjuncts (hlawful : registry.Lawful) : ∀ (p : BoundPredicate)
    {tests : List ColumnTest}, p.Ok registry t.columns →
    collect (nativeColumnLiteral t registry) p = .ok (tests, true) → Conjuncts registry t p tests
  | .all children, tests, hp, h => by
      cases hp with
      | all hchildren =>
        obtain ⟨hok, htotal, hyes⟩ := collectAll_conjuncts hlawful children hchildren h
        exact ⟨hok, htotal, fun v hrow htruth => hyes v hrow (truthAll_yes htruth)⟩
  | .comparison leaf, _, hp, h => conjuncts_leaf hlawful hp (by simp) h
  | .contains m, _, hp, h => conjuncts_leaf hlawful hp (by simp) h
  | .any children, _, hp, h => conjuncts_leaf hlawful hp (by simp) h
  | .negation child, _, hp, h => conjuncts_leaf hlawful hp (by simp) h

theorem collectAll_conjuncts (hlawful : registry.Lawful) : ∀ (children : List BoundPredicate)
    {tests : List ColumnTest}, (∀ child ∈ children, child.Ok registry t.columns) →
    collectAll (nativeColumnLiteral t registry) children = .ok (tests, true) →
    (∀ test ∈ tests, test.Ok registry t.columns) ∧
      (∀ v, RowOk registry t.columns v.row → TotalAll v children) ∧
      ∀ v, RowOk registry t.columns v.row → (∀ child ∈ children, child.truth v = .ok .yes) →
        ∀ test ∈ tests, test.truth v = .yes
  | [], tests, _, h => by
      cases h
      exact ⟨by simp, fun _ _ => trivial, by simp⟩
  | child :: rest, tests, hp, h => by
      rw [collectAll] at h
      obtain ⟨⟨found, more⟩, hfound, h⟩ := Fallible.bind_eq_ok.mp h
      cases more with
      | false => cases h
      | true =>
        obtain ⟨⟨others, more⟩, hothers, h⟩ := Fallible.bind_eq_ok.mp h
        cases h
        have hchild := collect_conjuncts hlawful child (hp child List.mem_cons_self) hfound
        obtain ⟨hok, htotal, hyes⟩ := collectAll_conjuncts hlawful rest
          (fun c hc => hp c (List.mem_cons_of_mem _ hc)) hothers
        refine ⟨fun test htest => ?_, fun v hrow => ⟨hchild.total v hrow, htotal v hrow⟩,
          fun v hrow htruth test htest => ?_⟩
        · rcases List.mem_append.mp htest with h | h
          · exact hchild.ok test h
          · exact hok test h
        · rcases List.mem_append.mp htest with h | h
          · exact hchild.yes v hrow (htruth child List.mem_cons_self) test h
          · exact hyes v hrow (fun c hc => htruth c (List.mem_cons_of_mem _ hc)) test h

end

/-! ## Bounds -/

theorem fixedValue_mem {value : Value} (h : fixedValue t tests column = some value) :
    ∃ test ∈ tests, test.column = column ∧ test.operation = .equal ∧ test.value = value ∧
      value.isNull = false := by
  obtain ⟨test, htest, rfl⟩ := Option.map_eq_some_iff.mp h
  have hfound := List.find?_some htest
  simp only [Bool.and_eq_true, beq_iff_eq, ColumnTest.definite, Bool.not_eq_true'] at hfound
  exact ⟨test, List.mem_of_find?_eq_some htest, hfound.1.1, hfound.1.2, rfl, hfound.2.1⟩

theorem columnBounds_mem (t : Table) (tests : List ColumnTest) (column : Nat) :
    (columnBounds t tests column).equal = [] ∧
    (∀ value ∈ (columnBounds t tests column).lower, value.isNull = false ∧
      ∃ test ∈ tests, test.column = column ∧ test.operation.boundsBelow = true ∧
        test.value = value) ∧ (∀ value ∈ (columnBounds t tests column).upper, value.isNull = false ∧
      ∃ test ∈ tests, test.column = column ∧ test.operation.boundsAbove = true ∧
        test.value = value) := by
  have hmem : ∀ test ∈ tests.filter (fun test => test.column == column && test.definite t),
      test ∈ tests ∧ test.column = column ∧ test.value.isNull = false := by
    intro test htest
    obtain ⟨htest, hcond⟩ := List.mem_filter.mp htest
    simp only [Bool.and_eq_true, beq_iff_eq, ColumnTest.definite, Bool.not_eq_true'] at hcond
    exact ⟨htest, hcond.1, hcond.2.1⟩
  rw [columnBounds]
  generalize tests.filter (fun test => test.column == column && test.definite t) = relevant at hmem
  induction relevant using List.reverseRecOn with
  | nil => simp
  | append_singleton relevant test ih =>
    obtain ⟨hequal, hlower, hupper⟩ := ih fun test htest => hmem test (List.mem_append_left _ htest)
    obtain ⟨htest, hcolumn, hnull⟩ := hmem test (by simp)
    rw [List.foldl_append, List.foldl_cons, List.foldl_nil]
    refine ⟨hequal, fun value hvalue => ?_, fun value hvalue => ?_⟩
    · simp only at hvalue
      split at hvalue
      · next hop =>
          rcases mem_tighten hvalue with hvalue | rfl
          · exact hlower value hvalue
          · exact ⟨hnull, test, htest, hcolumn, hop, rfl⟩
      · exact hlower value hvalue
    · simp only at hvalue
      split at hvalue
      · next hop =>
          rcases mem_tighten hvalue with hvalue | rfl
          · exact hupper value hvalue
          · exact ⟨hnull, test, htest, hcolumn, hop, rfl⟩
      · exact hupper value hvalue

/-- The bounds of a plan are drawn from the tests, and none is NULL. -/
theorem indexBounds_drawn (t : Table) (tests : List ColumnTest) (positions : List Nat) :
    Drawn tests positions (indexBounds t tests positions).equal
      (indexBounds t tests positions).lower (indexBounds t tests positions).upper ∧
    (∀ value ∈ (indexBounds t tests positions).equal, value.isNull = false) ∧
    (∀ value ∈ (indexBounds t tests positions).lower, value.isNull = false) ∧
    (∀ value ∈ (indexBounds t tests positions).upper, value.isNull = false) := by
  induction positions with
  | nil => exact ⟨.nil, by simp [indexBounds], by simp [indexBounds], by simp [indexBounds]⟩
  | cons column rest ih =>
    cases hfixed : fixedValue t tests column with
    | some value =>
      obtain ⟨test, htest, hcolumn, hop, rfl, hnull⟩ := fixedValue_mem hfixed
      obtain ⟨hdrawn, hequal, hlower, hupper⟩ := ih
      simp only [indexBounds, hfixed]
      exact ⟨.fixed htest hcolumn hop hdrawn, List.forall_mem_cons.mpr ⟨hnull, hequal⟩, hlower,
        hupper⟩
    | none =>
      obtain ⟨hequal, hlower, hupper⟩ := columnBounds_mem t tests column
      simp only [indexBounds, hfixed, hequal]
      exact ⟨.bounds (fun value hvalue => (hlower value hvalue).2)
        (fun value hvalue => (hupper value hvalue).2), by simp,
        fun value hvalue => (hlower value hvalue).1, fun value hvalue => (hupper value hvalue).1⟩

/-! ## The ORDER BY columns -/

/-- Two cells of a type, as `before` compares them. -/
def compareCells (registry : Registry) (type : SqlType) (a b : Value) : Int :=
  match Comparison.create registry type false with
  | .ok c => c.compare a b
  | .error _ => 0

/-- `before` of `run_scan` without its ordinals: the first ORDER BY column
that differs decides, NULL first when ascending. -/
def compareOrder (registry : Registry) : List OrderColumn → Row → Row → Int
  | [], _, _ => 0
  | o :: rest, a, b =>
    let c := compareCells registry o.type (a.cell o.column) (b.cell o.column)
    if c ≠ 0 then if o.descending then -c else c else compareOrder registry rest a b

/-- An ORDER BY column is a column of the table, under its type. -/
def OrderColumn.Ok (columns : List Column) (o : OrderColumn) : Prop :=
  ∃ c, columns[o.column]? = some c ∧ c.type = o.type

variable {columns : List Column} {order : List OrderColumn} {a b : Row}

theorem orderColumns_ok (h : orderColumns registry columns orderBy = .ok (some order)) :
    ∀ o ∈ order, o.Ok columns := by
  fun_induction orderColumns registry columns orderBy generalizing order with
  | case1 =>
    cases h
    simp
  | case2 head arguments descending rest ih =>
    obtain ⟨bound, hbound, h⟩ := Fallible.bind_eq_ok.mp h
    cases bound with
    | column type index =>
      obtain ⟨addon, -, h⟩ := Fallible.bind_eq_ok.mp h
      split at h
      · obtain ⟨others, hothers, h⟩ := Fallible.bind_eq_ok.mp h
        obtain ⟨rest', rfl, rfl⟩ := Option.map_eq_some_iff.mp (Except.ok.inj h)
        have hcolumn : OrderColumn.Ok columns ⟨index, type, descending⟩ := by
          rw [bind] at hbound
          split at hbound
          · cases hbound
          · obtain ⟨⟨i, type'⟩, hresolve, hbound⟩ := Fallible.bind_eq_ok.mp hbound
            cases hbound
            exact resolve_ok hresolve
        exact List.forall_mem_cons.mpr ⟨hcolumn, ih hothers⟩
      · cases h
    | literal | call | conditional | coalesce | membership => cases h
  | case3 => cases h

theorem compareCells_threeWay (hlawful : registry.Lawful) (type : SqlType) :
    ThreeWay (registry.Cell type) (compareCells registry type) := by
  cases hc : Comparison.create registry type false with
  | ok c =>
    have heq : compareCells registry type = c.compare := by
      funext a b
      rw [compareCells, hc]
    rw [heq]
    exact Comparison.compare_threeWay hlawful hc
  | error e =>
    have heq : ∀ a b, compareCells registry type a b = 0 := fun a b => by rw [compareCells, hc]
    constructor <;> simp [heq]

theorem compareOrder_threeWay (hlawful : registry.Lawful) (horder : ∀ o ∈ order, o.Ok columns) :
    ThreeWay (RowOk registry columns) (compareOrder registry order) := by
  induction order with
  | nil => constructor <;> simp [compareOrder]
  | cons o rest ih =>
    obtain ⟨c, hc, htype⟩ := horder o List.mem_cons_self
    have hcell : ∀ {row : Row}, RowOk registry columns row →
        registry.Cell o.type (row.cell o.column) :=
      fun hrow => htype ▸ validateStored_cell (hrow.cell hc)
    have hrest := ih fun o ho => horder o (List.mem_cons_of_mem _ ho)
    have hfirst : ThreeWay (registry.Cell o.type) fun a b =>
        if o.descending then -compareCells registry o.type a b
        else compareCells registry o.type a b := by
      cases o.descending with
      | false => exact compareCells_threeWay hlawful o.type
      | true => exact (compareCells_threeWay hlawful o.type).reverse
    have hboth := hfirst.both_lawful hrest
    have heq : ∀ a b : Row, compareOrder registry (o :: rest) a b =
        ThreeWay.both (fun a b => if o.descending then -compareCells registry o.type a b
          else compareCells registry o.type a b) (compareOrder registry rest)
          (a.cell o.column, a) (b.cell o.column, b) := by
      intro a b
      rw [compareOrder, ThreeWay.both]
      cases o.descending <;> simp [ite_not]
    constructor
    · intro a b ha hb
      rw [heq, heq]
      exact hboth.swap ⟨hcell ha, ha⟩ ⟨hcell hb, hb⟩
    · intro a b c ha hb hc hab hbc
      rw [heq] at hab hbc ⊢
      exact hboth.trans ⟨hcell ha, ha⟩ ⟨hcell hb, hb⟩ ⟨hcell hc, hc⟩ hab hbc

theorem compareOrder_eq_zero : compareOrder registry order a b = 0 ↔
      ∀ o ∈ order, compareCells registry o.type (a.cell o.column) (b.cell o.column) = 0 := by
  induction order with
  | nil => simp [compareOrder]
  | cons o rest ih =>
    rw [compareOrder, List.forall_mem_cons, ← ih]
    by_cases h0 : compareCells registry o.type (a.cell o.column) (b.cell o.column) = 0
    · simp [h0]
    · cases o.descending <;> simp [h0]

/-! ## Matching them with an index -/

variable {x : OrderedIndex} {fixed : Nat → Bool} {position : Nat} {reverse reverse' : Option Bool}
  {keys : List (Nat × Comparison)}

theorem key_cell (row : Row) (h : x.columns[k]? = some column) :
    (x.key row).cell k = row.cell column := by
  simp [OrderedIndex.key, Row.cell, List.getD_eq_getElem?_getD, h]

theorem matchOrder_cons
    (h : matchOrder registry x fixed position reverse (o :: order) = .ok (some (keys, reverse'))) :
    ∃ k c rest, keys = (k, c) :: rest ∧ x.columns[k]? = some o.column ∧
      Comparison.create registry o.type false = .ok c ∧ ((fixed o.column = true ∧
          matchOrder registry x fixed position reverse order = .ok (some (rest, reverse'))) ∨
        (fixed o.column = false ∧ k = position ∧
          (∀ flip ∈ reverse, flip = ((x.orderAt k).descending != o.descending)) ∧
          matchOrder registry x fixed (position + 1)
            (some ((x.orderAt k).descending != o.descending))
            order = .ok (some (rest, reverse')))) := by
  rw [matchOrder] at h
  split at h
  · cases h
  · next k hk =>
      have hcolumn : x.columns[k]? = some o.column := by
        obtain ⟨hlt, heq, -⟩ := List.findIdx?_eq_some_iff_getElem.mp hk
        rw [List.getElem?_eq_getElem hlt, eq_of_beq heq]
      obtain ⟨c, hc, h⟩ := Fallible.bind_eq_ok.mp h
      split at h
      · next hfixed =>
          obtain ⟨found, hfound, h⟩ := Fallible.bind_eq_ok.mp h
          obtain ⟨⟨rest, reverse''⟩, rfl, heq⟩ := Option.map_eq_some_iff.mp (Except.ok.inj h)
          cases heq
          exact ⟨k, c, rest, rfl, hcolumn, hc, .inl ⟨hfixed, hfound⟩⟩
      · next hfixed =>
          simp only at h
          split at h
          · cases h
          · next hcond =>
              obtain ⟨found, hfound, h⟩ := Fallible.bind_eq_ok.mp h
              obtain ⟨⟨rest, reverse''⟩, rfl, heq⟩ := Option.map_eq_some_iff.mp (Except.ok.inj h)
              cases heq
              simp only [Bool.or_eq_true, bne_iff_ne, ne_eq, not_or, not_not] at hcond
              refine ⟨k, c, rest, rfl, hcolumn, hc,
                .inr ⟨by simpa using hfixed, hcond.1, ?_, hfound⟩⟩
              intro flip hflip
              rw [Option.mem_def] at hflip
              simpa [hflip] using hcond.2

theorem matchOrder_reverse
    (h : matchOrder registry x fixed position reverse order = .ok (some (keys, reverse')))
    {flip : Bool} (hflip : reverse = some flip) : reverse' = some flip := by
  induction order generalizing position reverse keys with
  | nil =>
    cases h
    exact hflip
  | cons o order ih =>
    obtain ⟨k, c, rest, -, -, -, ⟨-, hrest⟩ | ⟨-, -, hagrees, hrest⟩⟩ := matchOrder_cons h
    · exact ih hrest hflip
    · exact ih hrest (by rw [hagrees flip hflip])

theorem matchOrder_keys
    (h : matchOrder registry x fixed position reverse order = .ok (some (keys, reverse'))) :
    List.Forall₂ (fun o k => x.columns[k.1]? = some o.column ∧
      Comparison.create registry o.type false = .ok k.2) order keys := by
  induction order generalizing position reverse keys with
  | nil =>
    cases h
    exact .nil
  | cons o order ih =>
    obtain ⟨k, c, rest, rfl, hcolumn, hc, ⟨-, hrest⟩ | ⟨-, -, -, hrest⟩⟩ := matchOrder_cons h
    · exact .cons ⟨hcolumn, hc⟩ (ih hrest)
    · exact .cons ⟨hcolumn, hc⟩ (ih hrest)

/-- An ORDER BY column that an index has is ordered as the index orders it. -/
theorem OrderColumn.Ok.order_at (ho : o.Ok columns)
    (hfits : x.Fits registry columns) (hcolumn : x.columns[k]? = some o.column)
    {c : Comparison} (hc : Comparison.create registry o.type false = .ok c) :
    (x.orderAt k).Of registry o.type ∧
      ∀ u w, compareCells registry o.type u w = (x.orderAt k).raw u w := by
  obtain ⟨column, hoc, htype⟩ := ho
  have hof : (x.orderAt k).Of registry o.type := by
    refine hfits.order_at ?_
    rw [typesAt, List.getElem?_map, hcolumn, Option.map_some, hoc, ← htype]
    rfl
  refine ⟨hof, fun u w => ?_⟩
  rw [compareCells, hc]
  exact congrFun₂ (Comparison.compare_eq hc hof) u w

/-- Keys in index order, or against it where that was chosen, are in the order
of the ORDER BY columns, as far as these are not fixed. -/
theorem matchOrder_le (hfits : x.Fits registry columns) (horder : ∀ o ∈ order, o.Ok columns)
    (h : matchOrder registry x fixed position reverse order = .ok (some (keys, reverse')))
    (hfixed : ∀ o ∈ order, fixed o.column = true →
      compareCells registry o.type (a.cell o.column) (b.cell o.column) = 0)
    (hle : if reverse'.getD false then
        0 ≤ compareKeys (x.order.drop position) ((x.key a).drop position) ((x.key b).drop position)
      else
        compareKeys (x.order.drop position) ((x.key a).drop position) ((x.key b).drop position) ≤
          0) :
    compareOrder registry order a b ≤ 0 := by
  induction order generalizing position reverse keys with
  | nil => exact le_refl 0
  | cons o order ih =>
    have horder' := fun o ho => horder o (List.mem_cons_of_mem _ ho)
    have hfixed' := fun o ho => hfixed o (List.mem_cons_of_mem _ ho)
    obtain ⟨k, c, rest, -, hcolumn, hc, ⟨hf, hrest⟩ | ⟨-, rfl, -, hrest⟩⟩ := matchOrder_cons h
    · rw [compareOrder, if_neg (by simpa using hfixed o List.mem_cons_self hf)]
      exact ih horder' hrest hfixed' hle
    · obtain ⟨-, hraw⟩ := (horder o List.mem_cons_self).order_at hfits hcolumn hc
      have hk : k < x.columns.length := (List.getElem?_eq_some_iff.mp hcolumn).1
      have hlen : x.order.length = x.columns.length := by
        rw [← hfits.orders.length_eq, typesAt, List.length_map]
      have hdrop : ∀ row : Row, (x.key row).drop k =
        row.cell o.column :: (x.key row).drop (k + 1) := by
        intro row
        have hlt : k < (x.key row).length := by rw [OrderedIndex.key, List.length_map]; exact hk
        rw [List.drop_eq_getElem_cons hlt, ← key_cell row hcolumn]
        simp [Row.cell, List.getD_eq_getElem?_getD, hlt]
      have hdropOrder : x.order.drop k = x.orderAt k :: x.order.drop (k + 1) := by
        rw [List.drop_eq_getElem_cons (by omega), OrderedIndex.orderAt,
          List.getD_eq_getElem?_getD, List.getElem?_eq_getElem (by omega)]
        rfl
      rw [hdrop, hdrop, hdropOrder, compareKeys] at hle
      rw [compareOrder, hraw]
      by_cases h0 : (x.orderAt k).raw (a.cell o.column) (b.cell o.column) = 0
      · simp only [KeyOrder.cells_eq_zero.mpr h0, ne_eq, not_true_eq_false, if_false] at hle
        rw [if_neg (by simpa using h0)]
        exact ih horder' hrest hfixed' hle
      · -- The first column that differs decides on both sides, with the direction of the walk.
        have hne : (x.orderAt k).cells (a.cell o.column) (b.cell o.column) ≠ 0 :=
          fun h => h0 (KeyOrder.cells_eq_zero.mp h)
        have hdir := KeyOrder.cells_le_zero (o := x.orderAt k) (a := a.cell o.column)
          (b := b.cell o.column)
        simp only [ne_eq, hne, not_false_eq_true, if_true, matchOrder_reverse hrest rfl,
          Option.getD_some] at hle
        rw [if_pos h0]
        cases hdx : (x.orderAt k).descending <;> cases hdo : o.descending <;>
          simp [hdx, hdo] at hle hdir ⊢ <;> omega

theorem sameOrder_iff {plan : OrderedScanPlan}
    (hkeys : List.Forall₂ (fun o k => plan.index.columns[k.1]? = some o.column ∧
      Comparison.create registry o.type false = .ok k.2) order plan.orderKeys) :
    plan.sameOrder (plan.index.key a) (plan.index.key b) = true ↔
      compareOrder registry order a b = 0 := by
  rw [compareOrder_eq_zero, OrderedScanPlan.sameOrder]
  generalize plan.orderKeys = keys at hkeys
  induction hkeys with
  | nil => simp
  | cons hok _ ih =>
    rw [List.all_cons, Bool.and_eq_true, ih, List.forall_mem_cons, key_cell a hok.1,
      key_cell b hok.1, compareCells, hok.2]
    simp

/-! ## Plans -/

variable {plan : OrderedScanPlan} {p : Option BoundPredicate}

/-- What a plan for some tests and ORDER BY columns is. -/
structure OrderedScanPlan.For (registry : Registry) (t : Table) (tests : List ColumnTest)
    (order : List OrderColumn) (plan : OrderedScanPlan) : Prop where
  index : plan.index ∈ t.ordered
  bounds : plan.bounds = indexBounds t tests plan.index.columns
  rowColumns : plan.rowColumns =
    (List.range t.columns.length).map fun column => plan.index.columns.findIdx? (· == column)
  matched : ∃ reverse, plan.reverse = reverse.getD false ∧
    matchOrder registry plan.index (fun column => (fixedValue t tests column).isSome)
      plan.bounds.equal.length none order = .ok (some (plan.orderKeys, reverse))

theorem planFor_ok (hx : x ∈ t.ordered)
    (h : planFor registry t tests order projection x = .ok (some (plan, score))) :
    plan.For registry t tests order := by
  obtain ⟨found, hfound, h⟩ := Fallible.bind_eq_ok.mp h
  obtain ⟨⟨keys, reverse⟩, rfl, heq⟩ := Option.map_eq_some_iff.mp (Except.ok.inj h)
  cases heq
  exact ⟨hx, rfl, rfl, reverse, rfl, hfound⟩

theorem choosePlan_ok
    (h : choosePlan registry t tests order projection = .ok (some (plan, score))) :
    plan.For registry t tests order := by
  have hall := Fallible.foldlM_invariant
    (P := fun chosen : Option (OrderedScanPlan × Nat) =>
      ∀ found ∈ chosen, found.1.For registry t tests order) ?_ (by simp) h
  · exact hall _ rfl
  · intro chosen x chosen' hx hchosen hround
    obtain ⟨found, hfound, hround⟩ := Fallible.bind_eq_ok.mp hround
    have heq := Except.ok.inj hround
    split at heq
    · rintro ⟨plan, score⟩ hplan
      rw [← heq] at hplan
      rw [Option.mem_def] at hplan
      rw [hplan] at hfound
      exact planFor_ok hx hfound
    · rw [← heq]
      exact hchosen

/-- The meaning of a clause that may be absent. -/
def optionalMeaning (v : RowView) : Option BoundPredicate → Truth
  | none => .yes
  | some p => p.meaning v

/-- Tests that a clause consists of: it is decided on every row, and where it
is TRUE they all are. -/
structure Decided (registry : Registry) (t : Table) (p : Option BoundPredicate)
    (tests : List ColumnTest) : Prop where
  ok : ∀ test ∈ tests, test.Ok registry t.columns
  decided : ∀ v, RowOk registry t.columns v.row →
    optionalMatches p v = .ok (decide (optionalMeaning v p = .yes))
  yes : ∀ v, RowOk registry t.columns v.row → optionalMeaning v p = .yes →
    ∀ test ∈ tests, test.truth v = .yes

theorem Conjuncts.decided {q : BoundPredicate} (h : Conjuncts registry t q tests) :
    Decided registry t (some q) tests where
  ok := h.ok
  decided v hrow := by
    rw [optionalMatches, optionalTruth, q.truth_eq_meaning (h.total v hrow)]
    rfl
  yes v hrow hyes :=
    h.yes v hrow (by rw [q.truth_eq_meaning (h.total v hrow)]; exact congrArg _ hyes)

/-- Where there is a plan, the clause consists of native tests, and the plan
is one for them. -/
theorem orderedScanPlan_ok (hlawful : registry.Lawful) (hp : ∀ q ∈ p, q.Ok registry t.columns)
    (h : orderedScanPlan registry t p orderBy projection = .ok (some plan))
    (horder : orderColumns registry t.columns orderBy = .ok (some order)) :
    ∃ tests, Decided registry t p tests ∧ plan.For registry t tests order := by
  rw [orderedScanPlan] at h
  split at h
  · cases h
  · obtain ⟨⟨tests, complete⟩, htests, h⟩ := Fallible.bind_eq_ok.mp h
    cases complete with
    | false => cases h
    | true =>
      obtain ⟨order', horder', h⟩ := Fallible.bind_eq_ok.mp h
      rw [horder] at horder'
      cases horder'
      obtain ⟨chosen, hchosen, h⟩ := Fallible.bind_eq_ok.mp h
      obtain ⟨⟨plan', score⟩, rfl, rfl⟩ := Option.map_eq_some_iff.mp (Except.ok.inj h)
      refine ⟨tests, ?_, choosePlan_ok hchosen⟩
      cases p with
      | none =>
        cases htests
        exact ⟨by simp, fun _ _ => rfl, by simp⟩
      | some q => exact (collect_conjuncts hlawful q (hp q rfl) htests).decided

/-! ## Rows of the index -/

def entryOf (x : OrderedIndex) (e : RowLocation × RowView) : OrderedEntry := (x.key e.2.row, e.1)

theorem entry_view (ht : t.Consistent registry) (hx : x ∈ t.ordered)
    (he : e ∈ x.root.entries) : t.viewAt e.2 ∈ t.views ∧ e = entryOf x (t.viewAt e.2) := by
  have hmem := (ht.indexed.ordered x hx).entries.mem_iff.mp he
  rw [t.located_eq_views, List.map_map] at hmem
  obtain ⟨view, hview, rfl⟩ := List.mem_map.mp hmem
  obtain ⟨-, -, -, -, heq⟩ := ht.inOrder.mem_views hview
  rw [Function.comp_apply, ← heq]
  exact ⟨hview, rfl⟩

theorem indexRow_eq (ht : t.Consistent registry) (hplan : plan.For registry t tests order)
    (he : e ∈ plan.index.root.entries) : plan.indexRow t e = .ok (t.viewAt e.2).2 := by
  obtain ⟨hview, hentry⟩ := entry_view ht hplan.index he
  obtain ⟨c, hfind, hlt, -, -⟩ := ht.inOrder.mem_views hview
  have hrow := ht.rows _ (mem_located_of_views hview)
  have hfetch : t.indexedRow e.2 = .ok (t.viewAt e.2).2 := by
    replace hfind : SortedMap.find e.2.chunk t.chunks = some c := hfind
    replace hlt : c.position e.2.slot < c.rows.length := hlt
    rw [Table.indexedRow, hfind]
    simp only [Table.viewAt, hfind, if_neg (Nat.ne_of_lt hlt)]
  have hcells : plan.rowColumns.zipIdx.map (indexCell e.1 (t.viewAt e.2).2.row) =
      (t.viewAt e.2).2.row := by
    rw [hplan.rowColumns]
    refine List.ext_getElem (by simpa using hrow.length_eq.symm) fun i h₁ h₂ => ?_
    simp only [List.getElem_map, List.getElem_zipIdx, List.getElem_range, Nat.zero_add]
    have hi : (t.viewAt e.2).2.row.cell i = (t.viewAt e.2).2.row[i] := by
      simp [Row.cell, List.getD_eq_getElem?_getD, h₂]
    cases hk : plan.index.columns.findIdx? (· == i) with
    | none => exact hi
    | some k =>
      obtain ⟨hlt, heq, -⟩ := List.findIdx?_eq_some_iff_getElem.mp hk
      have hcolumn : plan.index.columns[k]? = some i := by
        rw [List.getElem?_eq_getElem hlt, eq_of_beq heq]
      rw [← hi, ← key_cell _ hcolumn]
      exact congrArg (fun e : OrderedEntry => e.1.cell k) hentry
  simp only [OrderedScanPlan.indexRow, hfetch, Bind.bind, Except.bind, hcells]
  rfl

/-! ## The loop -/

/-- The loop emits the rows that pass, in the order of the scan, up to the
limit. -/
theorem orderedLoop_eq (emit : RowLocation × RowView → Except Error ρ)
    {s : OrderedScan} {passes : OrderedEntry → Bool} (hlimit : produced < limit)
    (hrow : ∀ e ∈ plan.yield s, plan.indexRow t e = .ok (t.viewAt e.2).2)
    (hpasses : ∀ e ∈ plan.yield s, optionalMatches p (t.viewAt e.2).2 = .ok (passes e)) :
    orderedLoop t plan p emit limit produced s =
      ((((plan.yield s).filter passes).map fun e => t.viewAt e.2).take (limit - produced)).mapM
        emit := by
  induction hyield : plan.yield s generalizing s produced with
  | nil =>
    have hnext := OrderedScanPlan.next_nil hyield
    rw [orderedLoop]
    split
    · simp
      rfl
    · next e s' hsome =>
        rw [hsome] at hnext
        cases hnext
  | cons e l ih =>
    obtain ⟨s', hnext, hrest⟩ := OrderedScanPlan.next_cons hyield
    have hrow' : ∀ f ∈ plan.yield s', plan.indexRow t f = .ok (t.viewAt f.2).2 := fun f hf =>
      hrow f (by rw [hyield]; exact List.mem_cons_of_mem _ (hrest ▸ hf))
    have hpasses' : ∀ f ∈ plan.yield s', optionalMatches p (t.viewAt f.2).2 = .ok (passes f) :=
      fun f hf => hpasses f (by rw [hyield]; exact List.mem_cons_of_mem _ (hrest ▸ hf))
    have he : e ∈ plan.yield s := by rw [hyield]; exact List.mem_cons_self
    rw [orderedLoop]
    split
    · next s'' hnone =>
        rw [hnext] at hnone
        cases hnone
    · next f s'' hsome =>
        rw [hnext] at hsome
        cases hsome
        rw [hrow e he]
        simp only [Bind.bind, Except.bind]
        rw [hpasses e he]
        simp only
        cases hpass : passes e with
        | false =>
          rw [if_neg Bool.false_ne_true, List.filter_cons_of_neg (by simp [hpass])]
          exact ih hlimit hrow' hpasses' hrest
        | true =>
          obtain ⟨left, hleft⟩ : ∃ left, limit - produced = left + 1 :=
            ⟨limit - produced - 1, by omega⟩
          rw [if_pos rfl, List.filter_cons_of_pos hpass, List.map_cons, hleft,
            List.take_succ_cons, List.mapM_cons]
          rw [show (e.2, (t.viewAt e.2).2) = t.viewAt e.2 from rfl]
          cases emit (t.viewAt e.2) with
          | error error => rfl
          | ok output =>
            simp only [Bind.bind, Except.bind]
            by_cases hlast : produced + 1 = limit
            · have : left = 0 := by omega
              rw [if_pos hlast, this]
              rfl
            · rw [if_neg hlast, ih (by omega) hrow' hpasses' hrest,
                show limit - (produced + 1) = left by omega]

/-! ## The rows in the order of the scan -/

/-- The rows on which a clause is TRUE, in table order. -/
def trueRows (t : Table) (p : Option BoundPredicate) : List (RowLocation × RowView) :=
  t.views.filter fun e => optionalMeaning e.2 p = .yes

/-- The same, sorted stably by the ORDER BY columns. -/
def sortedRows (registry : Registry) (t : Table) (p : Option BoundPredicate)
    (order : List OrderColumn) : List (RowLocation × RowView) :=
  (trueRows t p).insertionSort fun a b => compareOrder registry order a.2.row b.2.row ≤ 0

/-- The entries of the plan as the scan returns them. -/
def OrderedScanPlan.scanned (plan : OrderedScanPlan) : List OrderedEntry :=
  Runs.sortRuns (fun e f => plan.sameOrder e.1 f.1) Prod.snd plan.walked

/-- The rows that pass, in the order of the scan. -/
def passedRows (t : Table) (p : Option BoundPredicate) (plan : OrderedScanPlan) :
    List (RowLocation × RowView) :=
  (plan.scanned.filter fun e => optionalMeaning (t.viewAt e.2).2 p = .yes).map fun e => t.viewAt e.2

/-- A row of the result is overtaken: one that ties with it and is stored
after it is walked before it, and between them an entry with another value in
an ORDER BY column, which ends the group. -/
def Overtaken (registry : Registry) (t : Table) (p : Option BoundPredicate)
    (order : List OrderColumn) (plan : OrderedScanPlan) (limit : Nat) : Prop :=
  ∃ e other f : OrderedEntry, [e, other, f].Sublist plan.walked ∧ f.2 < e.2 ∧
    t.viewAt e.2 ∈ trueRows t p ∧ t.viewAt f.2 ∈ (sortedRows registry t p order).take limit ∧
    plan.sameOrder e.1 f.1 = true ∧ plan.sameOrder e.1 other.1 = false

section

variable (hlawful : registry.Lawful) (ht : t.Consistent registry) (hp : Decided registry t p tests)
  (hplan : plan.For registry t tests order) {e f : OrderedEntry}

include hp hplan in
theorem scanBounds : plan.index.ScanBounds registry t.columns plan.bounds := by
  obtain ⟨hdrawn, hequal, hlower, hupper⟩ := indexBounds_drawn t tests plan.index.columns
  rw [hplan.bounds]
  exact ⟨hdrawn.boundsOk hp.ok, hequal, hlower, hupper⟩

include ht in
theorem viewAt_of_mem {e : RowLocation × RowView} (he : e ∈ t.views) : t.viewAt e.1 = e :=
  (ht.inOrder.mem_views he).choose_spec.2.2.2.symm

include hlawful ht hp hplan in
theorem position_of_true (he : e ∈ plan.index.root.entries)
    (htrue : optionalMeaning (t.viewAt e.2).2 p = .yes) : plan.position e = 0 := by
  obtain ⟨hview, hentry⟩ := entry_view ht hplan.index he
  have hrow := ht.rows _ (mem_located_of_views hview)
  have hholds := ht.indexed.ordered plan.index hplan.index
  obtain ⟨hdrawn, -⟩ := indexBounds_drawn t tests plan.index.columns
  refine (scanBounds hp hplan).position_eq_zero.mpr ?_
  rw [hplan.bounds, hentry]
  exact hdrawn.within hlawful hp.ok hholds.fits.orders hrow (hp.yes _ hrow htrue)

include hlawful ht hp hplan in
theorem passedRows_perm : (passedRows t p plan).Perm (trueRows t p) := by
  have hwalked : (plan.walked.filter fun e => optionalMeaning (t.viewAt e.2).2 p = .yes) =
      (plan.index.root.walk plan.reverse).filter fun e =>
        optionalMeaning (t.viewAt e.2).2 p = .yes := by
    rw [OrderedScanPlan.walked, List.filter_filter]
    refine List.filter_congr fun e he => ?_
    by_cases htrue : optionalMeaning (t.viewAt e.2).2 p = .yes
    · simp [htrue, position_of_true hlawful ht hp hplan (Avl.mem_walk.mp he) htrue]
    · simp [htrue]
  have hentries : plan.index.root.entries.Perm (t.views.map (entryOf plan.index)) := by
    have := (ht.indexed.ordered plan.index hplan.index).entries
    rw [t.located_eq_views, List.map_map] at this
    exact this
  have hviews : ((t.views.map (entryOf plan.index)).filter fun e =>
      optionalMeaning (t.viewAt e.2).2 p = .yes).map (fun e => t.viewAt e.2) = trueRows t p := by
    rw [List.filter_map, List.map_map, trueRows]
    have hfilter : t.views.filter ((fun e : OrderedEntry =>
        decide (optionalMeaning (t.viewAt e.2).2 p = .yes)) ∘ entryOf plan.index) =
        t.views.filter fun e => optionalMeaning e.2 p = .yes := by
      refine List.filter_congr fun e he => ?_
      simp only [Function.comp_apply, entryOf, viewAt_of_mem ht he]
    rw [hfilter]
    refine (List.map_congr_left fun e he => ?_).trans (List.map_id _)
    exact viewAt_of_mem ht (List.mem_of_mem_filter he)
  rw [passedRows, OrderedScanPlan.scanned, ← hviews]
  refine List.Perm.map _ (((Runs.sortRuns_perm _ _ _).filter _).trans ?_)
  rw [hwalked]
  exact ((plan.index.root.walk_perm).trans hentries).filter _

include hlawful ht hp hplan in
/-- The walk has the rows that pass in the order of the ORDER BY columns. -/
theorem compareOrder_of_walked (horder : ∀ o ∈ order, o.Ok t.columns)
    (hef : [e, f].Sublist plan.walked)
    (he : optionalMeaning (t.viewAt e.2).2 p = .yes)
      (hf : optionalMeaning (t.viewAt f.2).2 p = .yes) :
    compareOrder registry order (t.viewAt e.2).2.row (t.viewAt f.2).2.row ≤ 0 := by
  have hholds := ht.indexed.ordered plan.index hplan.index
  have hbounds := scanBounds hp hplan
  have hmem : ∀ g ∈ [e, f], g ∈ plan.index.root.entries ∧ plan.position g = 0 := fun g hg => by
    obtain ⟨hwalk, hzero⟩ := List.mem_filter.mp (hef.subset hg)
    exact ⟨Avl.mem_walk.mp hwalk, eq_of_beq hzero⟩
  obtain ⟨hemem, heposition⟩ := hmem e (by simp)
  obtain ⟨hfmem, hfposition⟩ := hmem f (by simp)
  obtain ⟨heview, heentry⟩ := entry_view ht hplan.index hemem
  obtain ⟨hfview, hfentry⟩ := entry_view ht hplan.index hfmem
  have herow := ht.rows _ (mem_located_of_views heview)
  have hfrow := ht.rows _ (mem_located_of_views hfview)
  have hekey : plan.index.key (t.viewAt e.2).2.row = e.1 := congrArg Prod.fst heentry.symm
  have hfkey : plan.index.key (t.viewAt f.2).2.row = f.1 := congrArg Prod.fst hfentry.symm
  obtain ⟨reverse, hreverse, hmatch⟩ := hplan.matched
  have hlaw := hholds.fits.compare hlawful
  refine matchOrder_le hholds.fits horder hmatch (fun o ho hfixed => ?_) ?_
  · -- A fixed column has the fixed value in both.
    obtain ⟨value, hvalue⟩ := Option.isSome_iff_exists.mp hfixed
    obtain ⟨test, htest, hcolumn, hop, rfl, -⟩ := fixedValue_mem hvalue
    obtain ⟨k, -, hk, hcreate⟩ := Lists.forall₂_mem_left (matchOrder_keys hmatch) ho
    obtain ⟨hof, hraw⟩ := (horder o ho).order_at hholds.fits hk hcreate
    have htype : test.type = o.type := by
      obtain ⟨c, hc, hctype⟩ := horder o ho
      rw [(hp.ok test htest).type_eq (by rw [hcolumn]; exact hc), hctype]
    have hzero : ∀ {v : RowView}, RowOk registry t.columns v.row → optionalMeaning v p = .yes →
        registry.Cell o.type (v.row.cell o.column) ∧
          (plan.index.orderAt k.1).raw (v.row.cell o.column) test.value = 0 := by
      intro v hrow hyes
      have hcell := (hp.ok test htest).bounds_of_yes hlawful (htype ▸ hof) hrow
        (hp.yes v hrow hyes test htest)
      rw [← hcolumn, ← htype]
      exact ⟨(hp.ok test htest).cell hrow, le_antisymm (hcell.2 (.inl hop)) (hcell.1 (.inl hop))⟩
    have hvalue : registry.Cell o.type test.value := htype ▸ (hp.ok test htest).value
    have hraws := hof.raw hlawful
    rw [hraw]
    exact hraws.zero_trans (hzero herow he).1 hvalue (hzero hfrow hf).1 (hzero herow he).2
      (hraws.symm (hzero hfrow hf).1 hvalue (hzero hfrow hf).2)
  · have hsorted := List.pairwise_iff_forall_sublist.mp
      ((hholds.ordered.walk_sorted plan.reverse).sublist List.filter_sublist) hef
    have hleading := leading_eq hlawful hholds.fits.orders (hholds.keys e hemem)
      (hholds.keys f hfmem) hbounds.cells.fixed (hbounds.position_eq_zero.mp heposition).1
      (hbounds.position_eq_zero.mp hfposition).1
    rw [hekey, hfkey, ← compareKeys_drop _ hleading]
    rw [hreverse] at hsorted
    split
    · next hrev =>
        rw [if_pos hrev] at hsorted
        exact (hlaw.le_swap (hholds.keys f hfmem) (hholds.keys e hemem)).mp hsorted
    · next hrev =>
        rw [if_neg hrev] at hsorted
        exact hsorted

include ht hplan in
theorem sameOrder_eq {e f : OrderedEntry} (he : e ∈ plan.walked) (hf : f ∈ plan.walked) :
    plan.sameOrder e.1 f.1 = true ↔
      compareOrder registry order (t.viewAt e.2).2.row (t.viewAt f.2).2.row = 0 := by
  obtain ⟨reverse, -, hmatch⟩ := hplan.matched
  have hentry : ∀ g ∈ plan.walked, plan.index.key (t.viewAt g.2).2.row = g.1 := fun g hg =>
    congrArg Prod.fst
      (entry_view ht hplan.index (Avl.mem_walk.mp (List.mem_of_mem_filter hg))).2.symm
  rw [← sameOrder_iff (matchOrder_keys hmatch), hentry e he, hentry f hf]

include hlawful ht hplan in
theorem walked_ties (horder : ∀ o ∈ order, o.Ok t.columns) :
    Runs.Ties (· ∈ plan.walked) fun e f => plan.sameOrder e.1 f.1 := by
  have hlaw := compareOrder_threeWay hlawful horder
  have hrow : ∀ {g : OrderedEntry}, g ∈ plan.walked →
      RowOk registry t.columns (t.viewAt g.2).2.row := fun hg =>
    ht.rows _ (mem_located_of_views
      (entry_view ht hplan.index (Avl.mem_walk.mp (List.mem_of_mem_filter hg))).1)
  constructor
  · intro e f he hf h
    rw [sameOrder_eq ht hplan he hf] at h
    rw [sameOrder_eq ht hplan hf he]
    exact hlaw.symm (hrow he) (hrow hf) h
  · intro e f g he hf hg hef hfg
    rw [sameOrder_eq ht hplan he hf] at hef
    rw [sameOrder_eq ht hplan hf hg] at hfg
    rw [sameOrder_eq ht hplan he hg]
    exact hlaw.zero_trans (hrow he) (hrow hf) (hrow hg) hef hfg

include hlawful ht hp hplan in
/-- The scan returns the first rows of the stable sort exactly when none of
them is overtaken. -/
theorem passedRows_take_iff (horder : ∀ o ∈ order, o.Ok t.columns) (limit : Nat) :
    (passedRows t p plan).take limit = (sortedRows registry t p order).take limit ↔
      ¬Overtaken registry t p order plan limit := by
  have hlaw := compareOrder_threeWay hlawful horder
  have hrow : ∀ e ∈ trueRows t p, RowOk registry t.columns e.2.row := fun e he =>
    ht.rows _ (mem_located_of_views (List.mem_of_mem_filter he))
  have hsort : (sortedRows registry t p order).Perm (trueRows t p) := List.perm_insertionSort _ _
  have hthree : ThreeWay (fun e : RowLocation × RowView => RowOk registry t.columns e.2.row)
      fun a b => compareOrder registry order a.2.row b.2.row :=
    ⟨fun ha hb => hlaw.swap ha hb, fun ha hb hc => hlaw.trans ha hb hc⟩
  have hsorted : (sortedRows registry t p order).Pairwise
      (Runs.Stably (fun a b => compareOrder registry order a.2.row b.2.row) fun a b => a.1 < b.1) :=
    Runs.insertionSort_stable hthree hrow (ht.inOrder.views_sorted.sublist List.filter_sublist)
  have hmemRow : ∀ e ∈ sortedRows registry t p order, RowOk registry t.columns e.2.row :=
    fun e he => hrow e (hsort.mem_iff.mp he)
  have hties := walked_ties hlawful ht hplan horder
  have htrue : ∀ {e : OrderedEntry}, t.viewAt e.2 ∈ trueRows t p →
      optionalMeaning (t.viewAt e.2).2 p = .yes := fun he =>
    of_decide_eq_true (List.mem_filter.mp he).2
  rw [Runs.take_eq_take_iff limit ((passedRows_perm hlawful ht hp hplan).trans hsort.symm) hsorted
    fun a ha b hb => Runs.Stably.asymm hthree (hmemRow a ha) (hmemRow b hb) lt_asymm]
  constructor
  · rintro h ⟨e, other, f, hsub, hlt, he, hf, hsame, hother⟩
    have hftrue := hsort.mem_iff.mp (List.mem_of_mem_take hf)
    have hpair : [e, f].Sublist plan.scanned :=
      (hties.pair_sortRuns_iff (fun _ hg => hg) hsame hlt).mpr ⟨other, hsub, hother⟩
    have hpassed := ((hpair.filter fun e => decide (optionalMeaning (t.viewAt e.2).2 p = .yes)).map
      fun e => t.viewAt e.2)
    rw [List.filter_cons_of_pos (by simpa using htrue he),
      List.filter_cons_of_pos (by simpa using htrue hftrue)] at hpassed
    rw [sameOrder_eq ht hplan (hsub.subset (by simp)) (hsub.subset (by simp))] at hsame
    exact h _ _ hf hpassed (.inr ⟨hlaw.symm (hrow _ he) (hrow _ hftrue) hsame, hlt⟩)
  · intro hno x y hy hxy hlt
    obtain ⟨pair, hpair, heq⟩ := List.sublist_map_iff.mp hxy
    obtain ⟨e, f, rfl⟩ : ∃ e f, pair = [e, f] := by
      rcases pair with _ | ⟨e, _ | ⟨f, _ | ⟨g, rest⟩⟩⟩ <;> simp at heq
      exact ⟨e, f, rfl⟩
    simp only [List.map_cons, List.map_nil, List.cons.injEq, and_true] at heq
    obtain ⟨rfl, rfl⟩ := heq
    have hmeaning : ∀ g ∈ [e, f], g ∈ plan.walked ∧ optionalMeaning (t.viewAt g.2).2 p = .yes := by
      intro g hg
      obtain ⟨hscanned, hyes⟩ := List.mem_filter.mp (hpair.subset hg)
      exact ⟨(Runs.sortRuns_perm _ _ _).mem_iff.mp hscanned, of_decide_eq_true hyes⟩
    obtain ⟨hewalked, heyes⟩ := hmeaning e (by simp)
    obtain ⟨hfwalked, hfyes⟩ := hmeaning f (by simp)
    have hmem : ∀ {g : OrderedEntry}, g ∈ plan.walked → optionalMeaning (t.viewAt g.2).2 p = .yes →
        t.viewAt g.2 ∈ trueRows t p := fun hg hyes => List.mem_filter.mpr
      ⟨(entry_view ht hplan.index (Avl.mem_walk.mp (List.mem_of_mem_filter hg))).1,
        decide_eq_true hyes⟩
    have herow := hrow _ (hmem hewalked heyes)
    have hfrow := hrow _ (hmem hfwalked hfyes)
    have hne : e ≠ f := by
      rintro rfl
      exact Runs.Stably.asymm (r := fun a b => a.1 < b.1) hthree herow herow lt_asymm hlt hlt
    have hscanned : [e, f].Sublist plan.scanned := hpair.trans List.filter_sublist
    have hle : compareOrder registry order (t.viewAt e.2).2.row (t.viewAt f.2).2.row ≤ 0 := by
      rcases hties.pair_of_sortRuns (fun _ hg => hg) hne hscanned with hwalked | hsame
      · exact compareOrder_of_walked hlawful ht hp hplan horder hwalked heyes hfyes
      · rw [sameOrder_eq ht hplan hewalked hfwalked] at hsame
        omega
    rcases hlt with hlt | ⟨h0, hlt⟩
    · exact absurd ((hlaw.swap herow hfrow).mpr hlt) (by omega)
    · have hsame : plan.sameOrder e.1 f.1 = true :=
        (sameOrder_eq ht hplan hewalked hfwalked).mpr (hlaw.symm hfrow herow h0)
      obtain ⟨other, hsub, hother⟩ :=
        (hties.pair_sortRuns_iff (fun _ hg => hg) hsame hlt).mp hscanned
      exact hno ⟨e, other, f, hsub, hlt, hmem hewalked heyes, hy, hsame, hother⟩

end

/-- **When an ordered scan is a stable sort.** For every table with consistent
indexes, every clause, ORDER BY list and projection for which a plan is
chosen, and every limit, the loop emits the rows it selects one after the
other, whatever is made of them. They are the first rows of the stable sort of
the TRUE rows exactly when none of these is overtaken. -/
theorem ordered_scan_stable_iff (registry : Registry) (t : Table) (p : Option BoundPredicate)
    (orderBy : List Order) (order : List OrderColumn) (projection : List Projected)
    (plan : OrderedScanPlan) (limit : Nat) (hlawful : registry.Lawful) (ht : t.Consistent registry)
    (hp : ∀ q ∈ p, q.Ok registry t.columns)
    (horder : orderColumns registry t.columns orderBy = .ok (some order))
    (hplan : orderedScanPlan registry t p orderBy projection = .ok (some plan)) :
    ∃ rows : List (RowLocation × RowView),
      (∀ (ρ : Type) (emit : RowLocation × RowView → Except Error ρ),
        orderedScan t plan p emit limit = rows.mapM emit) ∧
      (rows = (sortedRows registry t p order).take limit ↔
        ¬Overtaken registry t p order plan limit) := by
  obtain ⟨tests, hdecided, hfor⟩ := orderedScanPlan_ok hlawful hp hplan horder
  refine ⟨(passedRows t p plan).take limit, fun ρ emit => ?_,
    passedRows_take_iff hlawful ht hdecided hfor (orderColumns_ok horder) limit⟩
  rw [orderedScan]
  split
  · next hzero =>
      rw [hzero]
      rfl
  · have hholds := ht.indexed.ordered plan.index hfor.index
    have hyield : plan.yield plan.start = plan.scanned :=
      congrArg (Runs.sortRuns _ _)
        (OrderedScanPlan.remaining_start hlawful hholds (scanBounds hdecided hfor))
    have hentries : ∀ e ∈ plan.yield plan.start, e ∈ plan.index.root.entries := fun e he => by
      rw [hyield] at he
      exact Avl.mem_walk.mp (List.mem_of_mem_filter ((Runs.sortRuns_perm _ _ _).mem_iff.mp he))
    rw [orderedLoop_eq emit (by omega) (fun e he => indexRow_eq ht hfor (hentries e he))
      fun e he => hdecided.decided _ (ht.rows _ (mem_located_of_views
        (entry_view ht hfor.index (hentries e he)).1)), hyield]
    rfl

/-! ## Rows that are overtaken -/

/-- A table with an index over both of its columns. -/
def pairsTable (rows : List (List Int64)) : Table :=
  gridTable [{ name := lit "a", type := integerType }, { name := lit "b", type := integerType }]
    [{ name := lit "by_a_b", columns := [lit "a", lit "b"] }] rows

theorem pairsTable_consistent (rows : List (List Int64)) (hwidth : ∀ row ∈ rows, row.length = 2)
    (t : Table) (h : (pairsTable rows).rebuildIndexes failingRegistry = .ok t) :
    t.Consistent failingRegistry :=
  gridTable_consistent (by simp) hwidth h

def columnB : Expr := .node .column { name := lit "b" } []

/-- `b = 5`. -/
def isFive : Predicate := .node .comparison columnB .equal (.literal {} (.integer 5) []) [] []

/-- The column `a` as output. -/
def outputA : List Projected := [{ columns := some [0], evaluate := fun v => .ok (v.row.cell 0) }]

def isOkWith {α : Type} [DecidableEq α] : Except Error α → α → Bool
  | .ok b, a => b == a
  | .error _, _ => false

theorem of_isOkWith [DecidableEq α] {x : Except Error α} {a : α}
    (h : isOkWith x a = true) : x = .ok a := by
  cases x with
  | ok b => rw [eq_of_beq h]
  | error e => cases h

/-- Plan `ORDER BY b`, and ask something of the plan. -/
def askPlan (t : Table) (p : BoundPredicate) (ask : List OrderColumn → OrderedScanPlan → Bool) :
    Bool :=
  match orderColumns failingRegistry t.columns [⟨columnB, false⟩],
    orderedScanPlan failingRegistry t (some p) [⟨columnB, false⟩] outputA with
  | .ok (some order), .ok (some plan) => ask order plan
  | _, _ => false

theorem of_askPlan {p : BoundPredicate}
    {ask : List OrderColumn → OrderedScanPlan → Bool} (h : askPlan t p ask = true) :
    ∃ order plan, orderColumns failingRegistry t.columns [⟨columnB, false⟩] = .ok (some order) ∧
      orderedScanPlan failingRegistry t (some p) [⟨columnB, false⟩] outputA = .ok (some plan) ∧
      ask order plan = true := by
  rw [askPlan] at h
  split at h
  · next order plan horder hplan => exact ⟨order, plan, horder, hplan, h⟩
  · cases h

/-- `WHERE b = 5 ORDER BY b` over the rows (3, 5), (2, 7), (1, 5): both rows
tie, but the index has (2, 7) between them, and the last row comes out
first. -/
theorem ordered_scan_overtaken :
    ∃ t p nodes order plan, t.Consistent failingRegistry ∧
      bindCondition failingRegistry t.columns 0 0 isFive = .ok (p, nodes) ∧
      orderColumns failingRegistry t.columns [⟨columnB, false⟩] = .ok (some order) ∧
      orderedScanPlan failingRegistry t (some p) [⟨columnB, false⟩] outputA = .ok (some plan) ∧
      orderedScan t plan (some p) (projectRow outputA) 2 = .ok [[.integer 1], [.integer 3]] ∧
      ((sortedRows failingRegistry t (some p) order).take 2).mapM (projectRow outputA) =
        .ok [[.integer 3], [.integer 1]] := by
  obtain ⟨t, p, nodes, ht, hp, hask⟩ := of_askOf_rebuilt isFive
    (fun t p => askPlan t p fun order plan =>
      isOkWith (orderedScan t plan (some p) (projectRow outputA) 2) [[.integer 1], [.integer 3]] &&
        isOkWith (((sortedRows failingRegistry t (some p) order).take 2).mapM (projectRow outputA))
          [[.integer 3], [.integer 1]])
    (pairsTable_consistent [[3, 5], [2, 7], [1, 5]] (by decide)) (by decide +kernel)
  obtain ⟨order, plan, horder, hplan, hask⟩ := of_askPlan hask
  rw [Bool.and_eq_true] at hask
  exact ⟨t, p, nodes, order, plan, ht, hp, horder, hplan, of_isOkWith hask.1, of_isOkWith hask.2⟩

/-- Two rows that tie with nothing between them come in table order. -/
theorem ordered_scan_stable_pair :
    ∃ t p nodes order plan, t.Consistent failingRegistry ∧
      bindCondition failingRegistry t.columns 0 0 isFive = .ok (p, nodes) ∧
      orderColumns failingRegistry t.columns [⟨columnB, false⟩] = .ok (some order) ∧
      orderedScanPlan failingRegistry t (some p) [⟨columnB, false⟩] outputA = .ok (some plan) ∧
      orderedScan t plan (some p) (projectRow outputA) 2 =
        ((sortedRows failingRegistry t (some p) order).take 2).mapM (projectRow outputA) := by
  obtain ⟨t, p, nodes, ht, hp, hask⟩ := of_askOf_rebuilt isFive
    (fun t p => askPlan t p fun _ plan => plan.walked.length == 2)
    (pairsTable_consistent [[3, 5], [1, 5]] (by decide)) (by decide +kernel)
  obtain ⟨order, plan, horder, hplan, hwalked⟩ := of_askPlan hask
  obtain ⟨rows, hrows, hiff⟩ := ordered_scan_stable_iff failingRegistry t (some p)
    [⟨columnB, false⟩] order outputA plan 2 failingRegistry_lawful ht
    (fun q hq => by cases hq; exact bindCondition_ok _ hp) horder hplan
  have hnone : ¬Overtaken failingRegistry t (some p) order plan 2 := by
    rintro ⟨e, other, f, hsub, -⟩
    have := hsub.length_le
    rw [eq_of_beq hwalked] at this
    simp at this
  refine ⟨t, p, nodes, order, plan, ht, hp, horder, hplan, ?_⟩
  rw [hrows, hiff.mpr hnone]

end CoreSql
