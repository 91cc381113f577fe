import CoreSql.Proofs.Predicates
import CoreSql.Proofs.Scans

/-!
# Index selection is safe

Every path of `candidates` offers rows of the table only, leaves out no row
on which the predicate is TRUE, and certifies a condition only where it
holds. `Covers` says so for one answer; each path has its lemma, and
`selectRows_covers` goes through the paths in the order they are tried.

Leaving a row out also leaves out the errors the predicate would have raised
there. Most paths exclude a row only when the leading condition is FALSE on
it, and FALSE ends an AND before anything after it is evaluated. Two do not.
A primary key compared with NULL is UNKNOWN everywhere, which ends nothing,
yet no row is visited (`nullGuard`). And the range of an ordered index takes
its upper bound from the second conjunct, whatever stands before that
conjunct besides the lower bound (`rangeGuard`).
-/

namespace CoreSql

variable {registry : Registry} {t t' : Table} {p g : BoundPredicate} {l : RowLocation} {v : RowView}
  {row row' : Row} {r : IndexResult} {column : Nat} {k value key a : Value} {x y : KeyIndex}
  {test : ColumnTest} {bound : Option Value}

/-- The indexes of a table are consistent with its rows: the rows are in
order and of the table's types, and every index holds exactly them. -/
structure Table.Consistent (registry : Registry) (t : Table) : Prop where
  inOrder : t.InOrder
  identified : ∀ e ∈ t.chunks, e.2.rowids.length = e.2.rows.length
  rows : ∀ e ∈ t.located, RowOk registry t.columns e.2
  indexed : t.Indexed registry t.columns t.located
  named : t.Named registry t.columns

theorem Table.Consistent.of_rebuild (hlawful : registry.Lawful) (hordered : t.InOrder)
    (hids : ∀ e ∈ t.chunks, e.2.rowids.length = e.2.rows.length)
    (hrows : ∀ e ∈ t.located, RowOk registry t.columns e.2)
    (h : t.rebuildIndexes registry = .ok t') : t'.Consistent registry := by
  obtain ⟨hshell, hchunks, -, hnamed, hindexed⟩ := Table.rebuildIndexes_ok hlawful hrows h
  have hcolumns : t'.columns = t.columns := congrArg Shell.columns hshell
  have hlocated : t'.located = t.located := by rw [Table.located, Table.located, hchunks]
  refine ⟨⟨?_, ?_⟩, ?_, ?_, ?_, ?_⟩
  · rw [hchunks]
    exact hordered.sorted
  · rw [hchunks]
    exact hordered.placed
  · rw [hchunks]
    exact hids
  · rw [hlocated, hcolumns]
    exact hrows
  · rw [hlocated, hcolumns]
    exact hindexed
  · rw [hcolumns]
    exact hnamed

theorem Table.InOrder.row_unique (h : t.InOrder) (hrow : (l, row) ∈ t.located)
    (hrow' : (l, row') ∈ t.located) : row = row' := by
  rw [t.located_eq_views] at hrow hrow'
  obtain ⟨e, he, heq⟩ := List.mem_map.mp hrow
  obtain ⟨e', he', heq'⟩ := List.mem_map.mp hrow'
  cases heq
  obtain ⟨hlocation, rfl⟩ := Prod.mk.inj heq'
  obtain ⟨-, -, -, -, hview⟩ := h.mem_views he
  obtain ⟨-, -, -, -, hview'⟩ := h.mem_views he'
  rw [hview, hview', hlocation]

/-! ## What can hide an error -/

/-- The predicate begins with the primary key compared to NULL. -/
def nullGuard (t : Table) (p : BoundPredicate) : Bool :=
  match t.primary, p.leadingKeyGuard.bind BoundPredicate.columnLiteral with
  | some b, some test =>
    test.operation == .equal && test.column == b.column && test.value.isNull
  | _, _ => false

/-- The predicate begins with a lower bound on the leading column of an
ordered index, which cannot be taken as a prefix because the column admits
NULL or its type is not native, and its second conjunct is an upper bound on
the same column. -/
def rangeGuard (registry : Registry) (t : Table) (p : BoundPredicate) :
    Option (ColumnTest × Value) :=
  match p.leadingKeyGuard.bind BoundPredicate.directComparison with
  | none => none
  | some test =>
    if test.operation == .greaterEqual && !test.value.isNull &&
        (t.ordered.any fun x => x.columns.head? == some test.column) &&
        (t.nullable test.column ||
          !(registry.types test.type.id test.type.version).any TypeAddon.nativeScalar) then
      (upperBound test.column p).map fun hi => (test, hi)
    else none

/-- The row has a key above the upper bound of a range guard. -/
def beyond (test : ColumnTest) (hi : Value) (row : Row) : Bool :=
  !(row.cell test.column).isNull && decide (0 < test.comparison.compare (row.cell test.column) hi)

/-- A row the predicate fails on may be left out. -/
def Hides (registry : Registry) (t : Table) (p : BoundPredicate) (row : Row) : Prop :=
  nullGuard t p = true ∨
    ∃ test hi, rangeGuard registry t p = some (test, hi) ∧ beyond test hi row = true

/-- What is asked of an answer of index selection. -/
structure Covers (registry : Registry) (t : Table) (p : BoundPredicate) (r : IndexResult) :
    Prop where
  real : ∀ l ∈ r.rows, ∃ row, (l, row) ∈ t.located
  certified : r.exact = true → ∀ l v, (l, v.row) ∈ t.located → l ∈ r.rows →
    optionalTruth v p.discharge = p.truth v
  excluded : ∀ l v, (l, v.row) ∈ t.located → l ∉ r.rows →
    p.truth v = .ok .no ∨ p.truth v = .ok .unknown ∨
      (p.truth v ≠ .ok .yes ∧ Hides registry t p v.row)

/-- An answer that is decided by a leading condition: TRUE where it offers a
row and FALSE where it does not. -/
theorem Covers.of_guard (hg : p.leadingKeyGuard = some g)
    (hreal : ∀ l ∈ r.rows, ∃ row, (l, row) ∈ t.located) (htruth : ∀ l v, (l, v.row) ∈ t.located →
      g.truth v = .ok (if l ∈ r.rows then .yes else .no)) : Covers registry t p r where
  real := hreal
  certified _ l v hrow hmem := guard_yes p hg (by rw [htruth l v hrow, if_pos hmem])
  excluded l v hrow hmem := .inl (guard_no p hg (by rw [htruth l v hrow, if_neg hmem]))

/-- An answer that certifies nothing and leaves out only rows on which the
predicate is FALSE. -/
theorem Covers.of_no (hexact : r.exact = false) (hreal : ∀ l ∈ r.rows, ∃ row, (l, row) ∈ t.located)
    (hno : ∀ l v, (l, v.row) ∈ t.located → l ∉ r.rows → p.truth v = .ok .no) :
    Covers registry t p r where
  real := hreal
  certified h := by rw [hexact] at h; cases h
  excluded l v hrow hmem := .inl (hno l v hrow hmem)

/-! ## Entries and rows -/

theorem mem_entriesOf {rows : List (RowLocation × Row)} :
    (k, l) ∈ entriesOf column rows ↔ ∃ row : Row, (l, row) ∈ rows ∧ row.cell column = k := by
  simp only [entriesOf, List.mem_map, Prod.mk.injEq, Prod.exists]
  constructor
  · rintro ⟨l', row, hrow, hk, rfl⟩
    exact ⟨row, hrow, hk⟩
  · rintro ⟨row, hrow, hk⟩
    exact ⟨l, row, hrow, hk, rfl⟩

/-- What holds of an entry of a column at a location holds of the row there. -/
theorem Table.InOrder.exists_entry (h : t.InOrder)
    (hrow : (l, row) ∈ t.located) {P : Value → Prop} :
    (∃ k, (k, l) ∈ entriesOf column t.located ∧ P k) ↔ P (row.cell column) := by
  constructor
  · rintro ⟨k, hk, hP⟩
    obtain ⟨row', hrow', rfl⟩ := mem_entriesOf.mp hk
    rw [h.row_unique hrow hrow']
    exact hP
  · intro hP
    exact ⟨_, mem_entriesOf.mpr ⟨row, hrow, rfl⟩, hP⟩

/-! ## The postings of an extracted key -/

theorem KeyIndex.matches_congr (hextractor : x.extractor = y.extractor)
    (haddon : x.addon = y.addon) : x.matches = y.matches := by
  obtain ⟨extractor, addon, buckets⟩ := x
  obtain ⟨extractor', addon', buckets'⟩ := y
  cases hextractor
  cases haddon
  rfl

theorem KeyIndex.Holds.matches_iff {entries : List (Value × RowLocation)}
    (h : x.Holds registry entries) (hkey : x.IsKey registry key)
    (hentry : (k, l) ∈ entries) (hunique : ∀ k', (k', l) ∈ entries → k' = k) :
    x.matches k key = .ok (decide (l ∈ (x.search key).rows)) := by
  obtain ⟨ks, hks⟩ := h.extracted _ hentry
  have hiff : (ks.any fun candidate => x.equal candidate key) = true ↔ l ∈ (x.search key).rows := by
    rw [h.mem_search hkey, List.any_eq_true]
    constructor
    · rintro ⟨candidate, hmem, heq⟩
      exact ⟨k, hentry, ks, hks, candidate, hmem, heq⟩
    · rintro ⟨k', hk', ks', hks', candidate, hmem, heq⟩
      rw [hunique k' hk', hks] at hks'
      cases hks'
      exact ⟨candidate, hmem, heq⟩
  rw [KeyIndex.matches, hks]
  exact congrArg Except.ok (Bool.eq_iff_iff.mpr (hiff.trans decide_eq_true_iff.symm))

theorem Table.Consistent.key_index (ht : t.Consistent registry) {b : IndexBinding}
    (hb : b ∈ t.indexes) {name : Bytes} {extractor : KeyExtractor} {addon : TypeAddon}
    (hname : registry.indexes name = some (.key extractor addon))
    (hindex : (t.columns[b.column]?.any fun c => c.index == name) = true) :
    ∃ (x : KeyIndex) (c : Column), b.data = .key x ∧ x.extractor = extractor ∧ x.addon = addon ∧
      t.columns[b.column]? = some c ∧ c.nullable = false ∧
      x.Holds registry (entriesOf b.column t.located) := by
  obtain ⟨c, hc, hnull, hholds⟩ := ht.indexed.secondary b hb
  obtain ⟨c', hc', hof⟩ := ht.named b hb
  rw [hc] at hc'
  cases hc'
  have hname' : c.index = name := by simpa [hc] using hindex
  rw [hname'] at hof
  cases hdata : b.data with
  | hash h =>
    rw [hdata] at hof
    cases hname.symm.trans hof
  | paged x =>
    rw [hdata] at hof
    cases hname.symm.trans hof
  | key x =>
    rw [hdata] at hof hholds
    cases hname.symm.trans hof
    exact ⟨x, c, rfl, rfl, rfl, hc, hnull, hholds⟩

theorem membershipCandidates_covers (ht : t.Consistent registry) {m : BoundMembership}
    (hm : m.Ok registry t.columns) (hg : p.leadingKeyGuard = some (.contains m)) :
    ∃ r, membershipCandidates t m = .ok r ∧ ∀ result ∈ r, Covers registry t p result := by
  obtain ⟨hleft, hright, extractor, addon, hname, hbinding, hsource, hkey⟩ := hm
  rw [membershipCandidates.eq_def]
  split
  · next type index keyType key hl hr =>
      split
      · exact ⟨none, rfl, by simp⟩
      next hnull =>
      split
      · exact ⟨none, rfl, by simp⟩
      next b hb =>
      have hfound := List.find?_some hb
      simp only [Bool.and_eq_true, beq_iff_eq] at hfound
      obtain ⟨x, c, hx, hextractor, haddon, hc, hcnull, hholds⟩ :=
        ht.key_index (List.mem_of_find?_eq_some hb) hname hfound.2
      have hiskey : x.IsKey registry key := by
        rw [hr] at hright hkey
        refine ⟨?_, by simpa using hnull⟩
        rw [hextractor, ← hkey]
        exact hright
      refine ⟨some (x.search key), by rw [hx]; rfl, fun result hresult => ?_⟩
      cases hresult
      refine Covers.of_guard hg (fun l hl => ?_) fun l v hrow => ?_
      · obtain ⟨k, hk, -⟩ := (hholds.mem_search hiskey).mp hl
        obtain ⟨row, hrow, -⟩ := mem_entriesOf.mp hk
        exact ⟨row, hrow⟩
      · have hcell := (ht.rows _ hrow).isKey hc hcnull
        rw [hfound.1] at hcell
        have hmatches : m.binding.matches (v.row.cell index) key =
            .ok (decide (l ∈ (x.search key).rows)) := by
          rw [← KeyIndex.matches_congr (x := x) (by rw [hextractor, hbinding])
            (by rw [haddon, hbinding])]
          refine hholds.matches_iff hiskey ?_ fun k' hk' => ?_
          · rw [hfound.1]
            exact mem_entriesOf.mpr ⟨v.row, hrow, rfl⟩
          · obtain ⟨row', hrow', rfl⟩ := mem_entriesOf.mp hk'
            rw [ht.inOrder.row_unique hrow hrow', hfound.1]
        simp only [BoundPredicate.truth, BoundMembership.truth, hl, hr, Operand.inspect,
          Bind.bind, Except.bind, hcell.2, hiskey.2, hmatches, Bool.or_self,
          Bool.false_eq_true, if_false]
        by_cases hmem : l ∈ (x.search key).rows <;> simp [hmem, Truth.ofBool, pure, Except.pure]
  · exact ⟨none, rfl, by simp⟩

/-! ## The primary key -/

theorem ColumnTest.Ok.equal_eq (h : test.Ok registry t.columns)
    (hequal : test.operation = .equal) {b : Value} (ha : a.isNull = false)
    (hb : b.isNull = false) : test.comparison.equal a b = registry.sameKey test.type a b := by
  have hsupported := h.supported
  rw [hequal] at hsupported
  obtain ⟨addon, haddon, -, hc, hsome, -⟩ := Comparison.create_ok hsupported
  obtain ⟨equal, hequal⟩ := Option.isSome_iff_exists.mp (hsome rfl)
  simp only [hc, Comparison.equal, ha, hb, Bool.or_self, Bool.false_eq_true, if_false, hequal,
    Registry.sameKey, haddon]

/-- A test of the column an index is bound to has the column's type. -/
theorem ColumnTest.Ok.type_eq (h : test.Ok registry t.columns) {c : Column}
    (hc : t.columns[test.column]? = some c) : test.type = c.type := by
  obtain ⟨c', hc', htype⟩ := h.column
  rw [hc] at hc'
  cases hc'
  exact htype.symm

theorem pointCandidates_covers (hlawful : registry.Lawful) (ht : t.Consistent registry)
    (hg : p.leadingKeyGuard = some g) (hgok : g.Ok registry t.columns) :
    ∃ r, pointCandidates t g = .ok r ∧ ∀ result ∈ r, Covers registry t p result := by
  rw [pointCandidates.eq_def]
  split
  · next b test hb htest =>
      split
      · next hcond =>
          simp only [Bool.and_eq_true, beq_iff_eq] at hcond
          obtain ⟨hequal, hcolumn⟩ := hcond
          obtain ⟨hok, htruth⟩ := ColumnTest.of_columnLiteral hlawful hgok htest
          obtain ⟨⟨c, hc, hcnull, hholds⟩, hunique⟩ := ht.indexed.primary b hb
          rw [← hcolumn] at hc
          have htype := hok.type_eq hc
          split
          · next hnull =>
              refine ⟨_, rfl, fun result hresult => ?_⟩
              cases hresult
              refine ⟨by simp, fun _ l v _ h => by simp at h, fun l v hrow _ => ?_⟩
              have hunknown : g.truth v = .ok .unknown := by
                rw [htruth v (ht.rows _ hrow), ColumnTest.truth, hnull, Bool.or_true]
                rfl
              have hguard : nullGuard t p = true := by
                simp [nullGuard, hb, hg, htest, hequal, hcolumn, hnull]
              exact .inr (.inr ⟨guard_unknown p hg hunknown, .inl hguard⟩)
          · next hnull =>
              have hnull : test.value.isNull = false := by simpa using hnull
              have hkey : registry.Key c.type test.value := ⟨htype ▸ hok.value, hnull⟩
              obtain ⟨r, hr, hiff⟩ := hholds.lookup hunique hkey
              refine ⟨some { rows := r.toList, exact := true }, ?_, fun result hresult => ?_⟩
              · simp only [Table.lookup, hb, hr]
                rfl
              · cases hresult
                have hmem : ∀ l row, (l, row) ∈ t.located →
                    (l ∈ r.toList ↔ registry.sameKey c.type (row.cell test.column) test.value) := by
                  intro l row hrow
                  rw [Option.mem_toList, hiff, ht.inOrder.exists_entry hrow, hcolumn]
                refine Covers.of_guard hg (fun l hl => ?_) fun l v hrow => ?_
                · obtain ⟨k, hk, -⟩ := (hiff l).mp (Option.mem_toList.mp hl)
                  obtain ⟨row, hrow, -⟩ := mem_entriesOf.mp hk
                  exact ⟨row, hrow⟩
                · have hcell := ((ht.rows _ hrow).isKey hc hcnull).2
                  rw [htruth v (ht.rows _ hrow), ColumnTest.truth, hcell, hnull, hequal,
                    Bool.or_self, if_neg (by simp), Compare.holds,
                    hok.equal_eq hequal hcell hnull, htype]
                  have hrows := hmem l v.row hrow
                  by_cases hl : l ∈ r.toList
                  · rw [if_pos hl, hrows.mp hl]
                    rfl
                  · rw [if_neg hl, Bool.eq_false_iff.mpr fun h => hl (hrows.mpr h)]
                    rfl
      · exact ⟨none, rfl, by simp⟩
  · exact ⟨none, rfl, by simp⟩

/-! ## Decided tests -/

section Tests

variable {test : ColumnTest} {tests : List ColumnTest} {o : KeyOrder} {columns : List Column}

/-- Whether the type of a test has native operators. -/
def ColumnTest.native (registry : Registry) (test : ColumnTest) : Bool :=
  (registry.types test.type.id test.type.version).any TypeAddon.nativeScalar

theorem nativeTest_eq (h : test.Ok registry t.columns) : nativeTest t registry (some test) =
      .ok (if test.native registry then some test else none) := by
  obtain ⟨c, hc, -⟩ := h.column
  obtain ⟨addon, haddon, -⟩ := Comparison.create_ok h.supported
  have hlt : ¬t.columns.length ≤ test.column := by
    have := (List.getElem?_eq_some_iff.mp hc).1
    omega
  rw [nativeTest, if_neg hlt, addon_eq_ok.mpr haddon, ColumnTest.native, haddon]
  rfl

theorem nativeKey_reads (hlawful : registry.Lawful) : Reads registry t (nativeKey t registry) := by
  intro q hq
  rw [nativeKey, nativeColumnLiteral]
  cases hlit : q.columnLiteral with
  | none => exact ⟨none, rfl, by simp⟩
  | some test =>
    obtain ⟨hok, htruth⟩ := ColumnTest.of_columnLiteral hlawful hq hlit
    rw [nativeTest_eq hok]
    refine ⟨_, rfl, fun test' htest' => ?_⟩
    split at htest'
    · simp only [Option.filter_some, Option.mem_def, Option.ite_none_right_eq_some] at htest'
      obtain ⟨hdefinite, heq⟩ := htest'
      cases heq
      exact ⟨hok, hdefinite, htruth⟩
    · cases htest'

theorem directKey_reads (hlawful : registry.Lawful) : Reads registry t (directKey t registry) := by
  intro q hq
  rw [directKey]
  cases hlit : q.directComparison with
  | none => exact ⟨none, rfl, by simp⟩
  | some test =>
    obtain ⟨hok, htruth⟩ :=
      ColumnTest.of_columnLiteral hlawful hq (ColumnTest.columnLiteral_of_direct hlit)
    rw [Option.filter_some]
    split
    · next hdefinite =>
        rw [nativeTest_eq hok]
        refine ⟨_, rfl, fun test' htest' => ?_⟩
        rw [Option.mem_def, Option.ite_none_right_eq_some] at htest'
        obtain ⟨-, heq⟩ := htest'
        cases heq
        exact ⟨hok, hdefinite, htruth⟩
    · exact ⟨none, rfl, by simp⟩

theorem Comparison.compare_eq {type : SqlType} {equality : Bool} {c : Comparison}
    (h : Comparison.create registry type equality = .ok c) (ho : o.Of registry type) :
    c.compare = o.raw := by
  obtain ⟨addon, haddon, -, hc, -⟩ := Comparison.create_ok h
  obtain ⟨addon', compare, haddon', -, hcompare, heq⟩ := ho
  rw [haddon] at haddon'
  cases haddon'
  funext a b
  rw [hc, Comparison.compare, KeyOrder.raw, hcompare, heq]

theorem ColumnTest.Ok.compare_eq (h : test.Ok registry columns)
    (ho : o.Of registry test.type) : test.comparison.compare = o.raw :=
  Comparison.compare_eq h.supported ho

theorem ColumnTest.Ok.bounds_of_yes (hlawful : registry.Lawful)
    (h : test.Ok registry columns) (ho : o.Of registry test.type)
    (hrow : RowOk registry columns v.row) (hyes : test.truth v = .yes) :
    (test.operation = .equal ∨ test.operation.boundsBelow = true →
      0 ≤ o.raw (v.row.cell test.column) test.value) ∧
    (test.operation = .equal ∨ test.operation.boundsAbove = true →
      o.raw (v.row.cell test.column) test.value ≤ 0) := by
  rw [ColumnTest.truth] at hyes
  split at hyes
  · cases hyes
  next hnull =>
  have hholds : test.operation.holds test.comparison (v.row.cell test.column) test.value =
    true := by
    cases hb : test.operation.holds test.comparison (v.row.cell test.column) test.value with
    | true => rfl
    | false =>
      rw [hb] at hyes
      cases hyes
  have heq : test.operation = .equal → o.raw (v.row.cell test.column) test.value = 0 := by
    -- Where a type has both, equality is the zero of the order.
    intro hop
    obtain ⟨addon, haddon, htype, hc, hsome, -⟩ := Comparison.create_ok h.supported
    obtain ⟨equal, hequal⟩ := Option.isSome_iff_exists.mp (hsome (by rw [hop]; rfl))
    obtain ⟨addon', compare, haddon', -, hcompare, ho'⟩ := ho
    rw [haddon] at haddon'
    cases haddon'
    simp only [Bool.or_eq_true, not_or, Bool.not_eq_true] at hnull
    rw [hop, Compare.holds, hc, Comparison.equal] at hholds
    simp only [hnull.1, hnull.2, Bool.or_self, Bool.false_eq_true, if_false, hequal] at hholds
    rw [KeyOrder.raw, hnull.1, hnull.2, Bool.or_self, if_neg (by simp), ho']
    exact ((hlawful _ _ haddon htype).compare_equal hcompare hequal
      ((h.cell hrow).accepts hnull.1 haddon) (h.value.accepts hnull.2 haddon)).mpr hholds
  rw [← h.compare_eq ho] at heq ⊢
  cases hop : test.operation with
  | equal =>
    have := heq hop
    omega
  | notEqual => simp [Compare.boundsBelow, Compare.boundsAbove]
  | less | greater | lessEqual | greaterEqual =>
    rw [hop] at hholds
    simp only [Compare.holds, decide_eq_true_eq] at hholds
    simp only [Compare.boundsBelow, Compare.boundsAbove, reduceCtorEq, Bool.false_eq_true,
      or_false, or_true, IsEmpty.forall_iff, true_and, and_true, forall_const]
    omega

end Tests

/-! ## Prefixes of ordered indexes -/

section Prefixes

variable {tests : List ColumnTest} {columns : List Column} {column : Nat} {value : Value}

theorem firstEqual_mem (h : firstEqual tests column = some value) :
    ∃ test ∈ tests, test.column = column ∧ test.operation = .equal ∧ test.value = value := by
  obtain ⟨test, htest, hvalue⟩ := Option.map_eq_some_iff.mp h
  have hfound := List.find?_some htest
  simp only [Bool.and_eq_true, beq_iff_eq] at hfound
  exact ⟨test, List.mem_of_find?_eq_some htest, hfound.1, hfound.2, hvalue⟩

theorem lastBound_mem {bounds : Compare → Bool} (h : lastBound bounds tests column = some value) :
    ∃ test ∈ tests, test.column = column ∧ bounds test.operation = true ∧ test.value = value := by
  have hfold : ∀ (tests : List ColumnTest) (acc : Option Value),
      tests.foldl (fun b test => if test.column == column && bounds test.operation then
        some test.value else b) acc = some value →
      acc = some value ∨ ∃ test ∈ tests, test.column = column ∧ bounds test.operation = true ∧
        test.value = value := by
    intro tests
    induction tests with
    | nil => exact fun acc h => .inl h
    | cons test tests ih =>
      intro acc h
      rcases ih _ h with h | ⟨test', hmem, hrest⟩
      · simp only at h
        split at h
        · next hcond =>
            simp only [Bool.and_eq_true, beq_iff_eq] at hcond
            exact .inr ⟨test, List.mem_cons_self, hcond.1, hcond.2, by simpa using h⟩
        · exact .inl h
      · exact .inr ⟨test', List.mem_cons_of_mem _ hmem, hrest⟩
  rcases hfold tests none h with h | h
  · cases h
  · exact h

theorem choosePrefix_mem {indexes : List OrderedIndex} {x : OrderedIndex} {plan : PrefixPlan}
    (h : choosePrefix tests indexes = some (x, plan)) :
    x ∈ indexes ∧ plan = prefixPlan tests x.columns := by
  have hfold : ∀ (indexes : List OrderedIndex) (acc : Option (OrderedIndex × PrefixPlan)),
      indexes.foldl (fun chosen x =>
        let plan := prefixPlan tests x.columns
        if (chosen.map fun c => c.2.score).getD 0 < plan.score then some (x, plan) else chosen)
        acc = some (x, plan) →
      acc = some (x, plan) ∨ (x ∈ indexes ∧ plan = prefixPlan tests x.columns) := by
    intro indexes
    induction indexes with
    | nil => exact fun acc h => .inl h
    | cons y indexes ih =>
      intro acc h
      rcases ih _ h with h | ⟨hmem, hplan⟩
      · simp only at h
        split at h
        · cases h
          exact .inr ⟨List.mem_cons_self, rfl⟩
        · exact .inl h
      · exact .inr ⟨List.mem_cons_of_mem _ hmem, hplan⟩
  rcases hfold indexes none h with h | h
  · cases h
  · exact h

/-- Bounds of an index that are drawn from tests: leading columns that are
fixed by a test each, and bounds on the next one. -/
inductive Drawn (tests : List ColumnTest) :
    List Nat → Row → Option Value → Option Value → Prop
  | nil : Drawn tests [] [] none none
  | fixed {column : Nat} {rest : List Nat} {test : ColumnTest} {equal : Row}
      {lo hi : Option Value} : test ∈ tests → test.column = column → test.operation = .equal →
      Drawn tests rest equal lo hi → Drawn tests (column :: rest) (test.value :: equal) lo hi
  | bounds {column : Nat} {rest : List Nat} {lo hi : Option Value} :
      (∀ value ∈ lo, ∃ test ∈ tests, test.column = column ∧
        test.operation.boundsBelow = true ∧ test.value = value) →
      (∀ value ∈ hi, ∃ test ∈ tests, test.column = column ∧
        test.operation.boundsAbove = true ∧ test.value = value) →
      Drawn tests (column :: rest) [] lo hi

theorem prefixPlan_drawn (tests : List ColumnTest) (positions : List Nat) :
    Drawn tests positions (prefixPlan tests positions).equal (prefixPlan tests positions).lo
      (prefixPlan tests positions).hi := by
  induction positions with
  | nil => exact .nil
  | cons column rest ih =>
    cases hequal : firstEqual tests column with
    | some value =>
      obtain ⟨test, htest, hcolumn, hop, rfl⟩ := firstEqual_mem hequal
      simp only [prefixPlan, hequal]
      exact .fixed htest hcolumn hop ih
    | none =>
      simp only [prefixPlan, hequal]
      exact .bounds (fun value hvalue => lastBound_mem hvalue)
        fun value hvalue => lastBound_mem hvalue

theorem typed_of_column (hok : ∀ test ∈ tests, test.Ok registry columns)
    (htest : test ∈ tests) (hcolumn : test.column = column) :
    test.type = (columns[column]?.map Column.type).getD integerType := by
  obtain ⟨c, hc, htype⟩ := (hok test htest).column
  rw [← hcolumn, hc, ← htype]
  rfl

section

variable {positions : List Nat} {equal : Row} {lo hi : Option Value}

theorem Drawn.boundsOk (h : Drawn tests positions equal lo hi)
    (hok : ∀ test ∈ tests, test.Ok registry columns) :
    OrderedIndex.BoundsOk registry (typesAt columns positions) equal lo hi := by
  induction h with
  | nil => exact ⟨.nil, by simp, by simp⟩
  | fixed htest hcolumn _ _ ih =>
    rw [typesAt, List.map_cons]
    exact ⟨.cons (typed_of_column hok htest hcolumn ▸ (hok _ htest).value) ih.fixed, ih.lower,
      ih.upper⟩
  | bounds hlo hhi =>
    rw [typesAt, List.map_cons]
    refine ⟨.nil, fun value hvalue => ?_, fun value hvalue => ?_⟩
    · obtain ⟨test, htest, hcolumn, -, rfl⟩ := hlo value hvalue
      exact ⟨_, rfl, typed_of_column hok htest hcolumn ▸ (hok test htest).value⟩
    · obtain ⟨test, htest, hcolumn, -, rfl⟩ := hhi value hvalue
      exact ⟨_, rfl, typed_of_column hok htest hcolumn ▸ (hok test htest).value⟩

theorem Drawn.within (hlawful : registry.Lawful) (h : Drawn tests positions equal lo hi)
    (hok : ∀ test ∈ tests, test.Ok registry columns) {orders : List KeyOrder}
    (horders : List.Forall₂ (fun type o => o.Of registry type) (typesAt columns positions) orders)
    (hrow : RowOk registry columns v.row) (hyes : ∀ test ∈ tests, test.truth v = .yes) :
    compareKeys orders (positions.map v.row.cell) equal = 0 ∧
      KeyBetween (orders.getD equal.length default).raw lo hi
        (Row.cell (positions.map v.row.cell) equal.length) := by
  induction h generalizing orders with
  | nil =>
    cases horders
    exact ⟨rfl, by simp [KeyBetween]⟩
  | @fixed column rest test equal lo hi htest hcolumn hop _ ih =>
    rw [typesAt, List.map_cons] at horders
    obtain ⟨o, os, ho, hos, rfl⟩ := List.forall₂_cons_left_iff.mp horders
    obtain ⟨hcompare, hbetween⟩ := ih hos
    have hcell := (hok test htest).bounds_of_yes hlawful
      (typed_of_column hok htest hcolumn ▸ ho) hrow (hyes test htest)
    have hzero : o.cells (v.row.cell column) test.value = 0 := by
      rw [KeyOrder.cells_eq_zero, ← hcolumn]
      exact le_antisymm (hcell.2 (.inl hop)) (hcell.1 (.inl hop))
    refine ⟨?_, hbetween⟩
    rw [List.map_cons, compareKeys, if_neg (by simp [hzero]), hcompare]
  | @bounds column rest lo hi hlo hhi =>
    rw [typesAt, List.map_cons] at horders
    obtain ⟨o, os, ho, -, rfl⟩ := List.forall₂_cons_left_iff.mp horders
    refine ⟨by simp [compareKeys], fun value hvalue => ?_, fun value hvalue => ?_⟩
    · obtain ⟨test, htest, hcolumn, hop, rfl⟩ := hlo value hvalue
      have hcell := (hok test htest).bounds_of_yes hlawful
        (typed_of_column hok htest hcolumn ▸ ho) hrow (hyes test htest)
      rw [hcolumn] at hcell
      exact hcell.1 (.inr hop)
    · obtain ⟨test, htest, hcolumn, hop, rfl⟩ := hhi value hvalue
      have hcell := (hok test htest).bounds_of_yes hlawful
        (typed_of_column hok htest hcolumn ▸ ho) hrow (hyes test htest)
      rw [hcolumn] at hcell
      exact hcell.2 (.inr hop)

end

end Prefixes

theorem compositeCandidates_covers (hlawful : registry.Lawful) (ht : t.Consistent registry)
    (hp : p.Ok registry t.columns) :
    ∃ r, compositeCandidates t p registry = .ok r ∧ ∀ result ∈ r, Covers registry t p result := by
  rw [compositeCandidates]
  split
  · exact ⟨none, rfl, by simp⟩
  · obtain ⟨tests, more, hcollect, hcollected⟩ := collect_reads (directKey_reads hlawful) p hp
    rw [hcollect]
    simp only [Bind.bind, Except.bind]
    cases hchoose : choosePrefix tests t.ordered with
    | none => exact ⟨none, rfl, by simp⟩
    | some chosen =>
      obtain ⟨x, plan⟩ := chosen
      obtain ⟨hx, rfl⟩ := choosePrefix_mem hchoose
      have hholds := ht.indexed.ordered x hx
      have hok := fun test htest => (hcollected.ok test htest).1
      have hdrawn := prefixPlan_drawn tests x.columns
      obtain ⟨found, hfound, hmem⟩ := hholds.mem_prefixRange hlawful (hdrawn.boundsOk hok)
      simp only [hfound]
      refine ⟨_, rfl, fun result hresult => ?_⟩
      cases hresult
      refine Covers.of_no rfl (fun l hl => ?_) fun l v hrow hl => ?_
      · obtain ⟨row, hrow, -⟩ := (hmem l).mp hl
        exact ⟨row, hrow⟩
      · have hrowok := ht.rows _ hrow
        refine hcollected.no v hrowok ?_
        by_contra hnone
        push Not at hnone
        have hyes : ∀ test ∈ tests, test.truth v = .yes := fun test htest =>
          ((hcollected.ok test htest).1.truth_definite (hcollected.ok test htest).2
            hrowok).resolve_right (hnone test htest)
        exact hl ((hmem l).mpr ⟨v.row, hrow,
          hdrawn.within hlawful hok hholds.fits.orders hrowok hyes⟩)

/-! ## Ranges of the primary key -/

theorem mem_tighten {tighter : Int → Bool} (h : value ∈ tighten tighter test bound) :
    value ∈ bound ∨ test.value = value := by
  rw [tighten] at h
  split at h
  · exact .inr (Option.some.inj h)
  · exact .inl h

theorem keyBounds_mem (tests : List ColumnTest) :
    (∀ value ∈ (keyBounds tests).1, ∃ test ∈ tests, test.value = value ∧
      (test.operation = .equal ∨ test.operation.boundsBelow = true)) ∧
    (∀ value ∈ (keyBounds tests).2, ∃ test ∈ tests, test.value = value ∧
      (test.operation = .equal ∨ test.operation.boundsAbove = true)) := by
  rw [keyBounds]
  induction tests using List.reverseRecOn with
  | nil => simp
  | append_singleton tests test ih =>
    rw [List.foldl_append, List.foldl_cons, List.foldl_nil]
    refine ⟨fun value hvalue => ?_, fun value hvalue => ?_⟩
    · simp only at hvalue
      split at hvalue
      · next hop =>
          simp only [Bool.or_eq_true, beq_iff_eq] at hop
          rcases mem_tighten hvalue with hvalue | hvalue
          · obtain ⟨test', htest', hrest⟩ := ih.1 value hvalue
            exact ⟨test', List.mem_append_left _ htest', hrest⟩
          · exact ⟨test, by simp, hvalue, hop⟩
      · obtain ⟨test', htest', hrest⟩ := ih.1 value hvalue
        exact ⟨test', List.mem_append_left _ htest', hrest⟩
    · simp only at hvalue
      split at hvalue
      · next hop =>
          simp only [Bool.or_eq_true, beq_iff_eq] at hop
          rcases mem_tighten hvalue with hvalue | hvalue
          · obtain ⟨test', htest', hrest⟩ := ih.2 value hvalue
            exact ⟨test', List.mem_append_left _ htest', hrest⟩
          · exact ⟨test, by simp, hvalue, hop⟩
      · obtain ⟨test', htest', hrest⟩ := ih.2 value hvalue
        exact ⟨test', List.mem_append_left _ htest', hrest⟩

theorem primaryRangeCandidates_covers (hlawful : registry.Lawful) (ht : t.Consistent registry)
    (hp : p.Ok registry t.columns) : ∃ r, primaryRangeCandidates t p registry = .ok r ∧
      ∀ result ∈ r, Covers registry t p result := by
  rw [primaryRangeCandidates]
  cases hprimary : t.primary with
  | none => exact ⟨none, rfl, by simp⟩
  | some b =>
    obtain ⟨⟨c, hc, hcnull, hholds⟩, hunique⟩ := ht.indexed.primary b hprimary
    obtain ⟨addon, haddon, htype⟩ := hholds.registered hunique
    simp only [hc, Option.map_some, Option.getD_some, addon_eq_ok.mpr haddon, Bind.bind,
      Except.bind]
    split
    · exact ⟨none, rfl, by simp⟩
    next hcompare =>
    obtain ⟨compare, hcompare⟩ := Option.isSome_iff_exists.mp
      (Option.isSome_iff_ne_none.mpr (by simpa using hcompare))
    obtain ⟨tests, more, hcollect, hcollected⟩ := collect_reads (nativeKey_reads hlawful) p hp
    rw [hcollect]
    simp only
    generalize hbounds : keyBounds (tests.filter fun test => test.column == b.column) = bounds
    obtain ⟨hlower, hupper⟩ := keyBounds_mem (tests.filter fun test => test.column == b.column)
    rw [hbounds] at hlower hupper
    -- Every bound is the value of a decided test of the key column.
    have hkey : ∀ test ∈ tests.filter (fun test => test.column == b.column),
        test ∈ tests ∧ test.column = b.column ∧ test.type = c.type ∧
          registry.Key c.type test.value := by
      intro test htest
      obtain ⟨hmem, hcolumn⟩ := List.mem_filter.mp htest
      have hcolumn : test.column = b.column := by simpa using hcolumn
      obtain ⟨hok, hdefinite⟩ := hcollected.ok test hmem
      have htype : test.type = c.type := hok.type_eq (by rw [hcolumn]; exact hc)
      simp only [ColumnTest.definite, Bool.and_eq_true, Bool.not_eq_true'] at hdefinite
      exact ⟨hmem, hcolumn, htype, htype ▸ hok.value, hdefinite.1⟩
    split
    · exact ⟨none, rfl, by simp⟩
    refine ⟨_, rfl, fun result hresult => ?_⟩
    obtain ⟨r, hr, rfl⟩ := Option.map_eq_some_iff.mp hresult
    have hmem : ∀ l, l ∈ r.rows ↔ _ := fun l => hholds.mem_range hlawful haddon hcompare
      (fun v hv => by
        obtain ⟨test, htest, rfl, -⟩ := hlower v hv
        exact (hkey test htest).2.2.2)
      (fun v hv => by
        obtain ⟨test, htest, rfl, -⟩ := hupper v hv
        exact (hkey test htest).2.2.2) hr
    refine Covers.of_no rfl (fun l hl => ?_) fun l v hrow hl => ?_
    · obtain ⟨k, hk, -⟩ := (hmem l).mp hl
      obtain ⟨row, hrow, -⟩ := mem_entriesOf.mp hk
      exact ⟨row, hrow⟩
    · have hrowok := ht.rows _ hrow
      refine hcollected.no v hrowok ?_
      by_contra hnone
      push Not at hnone
      have hyes : ∀ test ∈ tests, test.truth v = .yes := fun test htest =>
        ((hcollected.ok test htest).1.truth_definite (hcollected.ok test htest).2
          hrowok).resolve_right (hnone test htest)
      have hcell := (hrowok.isKey hc hcnull).2
      have hraw : ∀ test ∈ tests.filter (fun test => test.column == b.column),
          (test.operation = .equal ∨ test.operation.boundsBelow = true →
            0 ≤ compare c.type.parameters (v.row.cell b.column) test.value) ∧
          (test.operation = .equal ∨ test.operation.boundsAbove = true →
            compare c.type.parameters (v.row.cell b.column) test.value ≤ 0) := by
        intro test htest
        obtain ⟨hmem, hcolumn, htype', hvalue⟩ := hkey test htest
        have ho : (KeyOrder.mk (compare c.type.parameters) false).Of registry test.type := by
          rw [htype']
          exact ⟨addon, compare, haddon, htype, hcompare, rfl⟩
        have h := (hcollected.ok test hmem).1.bounds_of_yes hlawful ho hrowok (hyes test hmem)
        rw [hcolumn] at h
        simpa only [KeyOrder.raw, hcell, hvalue.2, Bool.or_self, Bool.false_eq_true,
          if_false] using h
      refine hl ((hmem l).mpr ((ht.inOrder.exists_entry hrow).mpr ⟨fun value hvalue => ?_,
        fun value hvalue => ?_⟩))
      · obtain ⟨test, htest, rfl, hop⟩ := hlower value hvalue
        exact (hraw test htest).1 hop
      · obtain ⟨test, htest, rfl, hop⟩ := hupper value hvalue
        exact (hraw test htest).2 hop

/-! ## Ranges of a leading column -/

section Leading

variable {test : ColumnTest} {accept : BoundPredicate → Except Error (Option ColumnTest)}
  {tests : List ColumnTest} {positions : List Nat} {x : OrderedIndex} {lo hi : Value}
  {next first : BoundPredicate}

/-- Collecting starts at the leading condition: refused there, it ends. -/
theorem collect_guard_none : ∀ p : BoundPredicate, p.leadingKeyGuard = some g →
    accept g = .ok none → collect accept p = .ok ([], false)
  | .comparison leaf, h, hg => by
      cases h
      simp only [collect, hg]
      rfl
  | .contains m, h, hg => by
      cases h
      simp only [collect, hg]
      rfl
  | .all [], h, _ => by cases h
  | .all (child :: rest), h, hg => by
      simp only [collect, collectAll, collect_guard_none child h hg]
      rfl
  | .any _, h, _ => by cases h
  | .negation _, h, _ => by cases h

theorem mem_collect_guard : ∀ (p : BoundPredicate) {tests : List ColumnTest} {more : Bool},
    p.leadingKeyGuard = some g → accept g = .ok (some test) →
    collect accept p = .ok (tests, more) → test ∈ tests
  | .comparison leaf, tests, more, h, hg, hcollect => by
      cases h
      simp only [collect, hg] at hcollect
      cases hcollect
      simp
  | .contains m, tests, more, h, hg, hcollect => by
      cases h
      simp only [collect, hg] at hcollect
      cases hcollect
      simp
  | .all [], _, _, h, _, _ => by cases h
  | .all (child :: rest), tests, more, h, hg, hcollect => by
      rw [collect, collectAll] at hcollect
      obtain ⟨⟨found, more'⟩, hfound, hcollect⟩ := Fallible.bind_eq_ok.mp hcollect
      have hmem := mem_collect_guard child h hg hfound
      simp only at hcollect
      split at hcollect
      · obtain ⟨⟨others, more''⟩, -, hcollect⟩ := Fallible.bind_eq_ok.mp hcollect
        cases hcollect
        exact List.mem_append_left _ hmem
      · cases hcollect
        exact hmem
  | .any _, _, _, h, _, _ => by cases h
  | .negation _, _, _, h, _, _ => by cases h

theorem prefixPlan_score_pos (htest : test ∈ tests) (hop : test.operation.boundsBelow = true)
    (hhead : positions.head? = some test.column) : 0 < (prefixPlan tests positions).score := by
  have hlast : ∀ (tests : List ColumnTest) (acc : Option Value), acc.isSome ∨ test ∈ tests →
      (tests.foldl (fun b test' => if test'.column == test.column &&
        Compare.boundsBelow test'.operation then some test'.value else b) acc).isSome := by
    intro tests
    induction tests with
    | nil => simp
    | cons test' tests ih =>
      intro acc h
      refine ih _ ?_
      rcases h with h | h
      · left
        simp only
        split
        · rfl
        · exact h
      · rcases List.mem_cons.mp h with rfl | h
        · left
          simp [hop]
        · exact .inr h
  cases positions with
  | nil => cases hhead
  | cons column rest =>
    cases hhead
    rw [prefixPlan]
    split
    · simp only [PrefixPlan.score, List.length_cons]
      omega
    · have hsome : (lastBound Compare.boundsBelow tests test.column).isSome :=
        hlast tests none (.inr htest)
      simp [PrefixPlan.score, hsome]

theorem choosePrefix_isSome {indexes : List OrderedIndex}
    (hx : x ∈ indexes) (hscore : 0 < (prefixPlan tests x.columns).score) :
    (choosePrefix tests indexes).isSome = true := by
  have hfold : ∀ (indexes : List OrderedIndex) (acc : Option (OrderedIndex × PrefixPlan)),
      acc.isSome ∨ x ∈ indexes → (indexes.foldl (fun chosen x =>
        let plan := prefixPlan tests x.columns
        if (chosen.map fun c => c.2.score).getD 0 < plan.score then some (x, plan) else chosen)
        acc).isSome := by
    intro indexes
    induction indexes with
    | nil => simp
    | cons y indexes ih =>
      intro acc h
      refine ih _ ?_
      rcases h with h | h
      · left
        simp only
        split
        · rfl
        · exact h
      · rcases List.mem_cons.mp h with rfl | h
        · left
          simp only
          split
          · rfl
          · next hle =>
              cases acc with
              | none => exact absurd hscore hle
              | some chosen => rfl
        · exact .inr h
  exact hfold indexes none (.inr hx)

/-- A lower bound on the leading column of an ordered index is taken as a
prefix, unless the column admits NULL or its type is not native. -/
theorem not_definite_of_composite_none (hlawful : registry.Lawful) (hp : p.Ok registry t.columns)
    (hg : p.leadingKeyGuard = some g) (htest : g.directComparison = some test)
    (hgok : g.Ok registry t.columns) (hop : test.operation.boundsBelow = true)
    (hvalue : test.value.isNull = false) (hx : x ∈ t.ordered)
    (hhead : x.columns.head? = some test.column)
    (hnone : compositeCandidates t p registry = .ok none) :
    t.nullable test.column = true ∨ test.native registry = false := by
  by_contra hcon
  simp only [not_or, Bool.not_eq_true, Bool.not_eq_false] at hcon
  obtain ⟨hok, -⟩ :=
    ColumnTest.of_columnLiteral hlawful hgok (ColumnTest.columnLiteral_of_direct htest)
  have haccept : directKey t registry g = .ok (some test) := by
    have hdefinite : test.definite t = true := by
      rw [ColumnTest.definite, hvalue, hcon.1]
      rfl
    rw [directKey, htest, Option.filter_some, if_pos hdefinite, nativeTest_eq hok, if_pos hcon.2]
  obtain ⟨tests, more, hcollect, -⟩ := collect_reads (directKey_reads hlawful) p hp
  have hmem := mem_collect_guard p hg haccept hcollect
  obtain ⟨chosen, hchosen⟩ := Option.isSome_iff_exists.mp
    (choosePrefix_isSome hx (prefixPlan_score_pos hmem hop hhead))
  have hne : t.ordered.isEmpty = false := by
    rw [List.isEmpty_eq_false_iff]
    exact List.ne_nil_of_mem hx
  rw [compositeCandidates, hne, if_neg (by simp), hcollect] at hnone
  simp only [Bind.bind, Except.bind, hchosen] at hnone
  split at hnone
  · cases hnone
  · cases hnone

theorem leading_type (hok : test.Ok registry t.columns)
    (hhead : positions.head? = some test.column) :
    (typesAt t.columns positions)[0]? = some test.type := by
  obtain ⟨c, hc, htype⟩ := hok.column
  cases positions with
  | nil => cases hhead
  | cons column rest =>
    cases hhead
    simp [typesAt, hc, htype]

/-- The range of a leading column, in terms of a test of that column. -/
theorem Table.Consistent.mem_range (hlawful : registry.Lawful) (ht : t.Consistent registry)
    (hok : test.Ok registry t.columns) (hx : x ∈ t.ordered)
    (hhead : x.columns.head? = some test.column)
    (hlo : registry.Cell test.type lo) (hhi : registry.Cell test.type hi) :
    (∀ l ∈ x.range lo hi, ∃ row, (l, row) ∈ t.located) ∧
      ∀ {l row}, (l, row) ∈ t.located → (l ∈ x.range lo hi ↔
        KeyBetween test.comparison.compare (some lo) (some hi) (row.cell test.column)) := by
  have hholds := ht.indexed.ordered x hx
  have htype := leading_type hok hhead
  have hcell : ∀ row, (x.key row).cell 0 = row.cell test.column := by
    intro row
    obtain ⟨rest, hcolumns⟩ := List.head?_eq_some_iff.mp hhead
    simp [OrderedIndex.key, hcolumns, Row.cell]
  have hmem : ∀ l, l ∈ x.range lo hi ↔ _ := fun l => hholds.mem_range hlawful htype hlo hhi
  rw [hok.compare_eq (hholds.fits.order_at htype)]
  refine ⟨fun l hl => ?_, fun {l row} hrow => ?_⟩
  · obtain ⟨row, hrow, -⟩ := (hmem l).mp hl
    exact ⟨row, hrow⟩
  · rw [hmem]
    constructor
    · rintro ⟨row', hrow', hbetween⟩
      rw [hcell, ← ht.inOrder.row_unique hrow hrow'] at hbetween
      exact hbetween
    · intro hbetween
      exact ⟨row, hrow, by rw [hcell]; exact hbetween⟩

/-- A comparison with NULL is a tie with NULL and with nothing else. -/
theorem keyBetween_null {c : Comparison} {type : SqlType} :
    KeyBetween c.compare (some (.null type)) (some (.null type)) k ↔ k.isNull = true := by
  have hnull : (Value.null type).isNull = true := rfl
  simp only [KeyBetween, Option.mem_some, forall_eq', Comparison.compare, hnull, Bool.or_true,
    if_true, compareNulls]
  cases k.isNull <;> simp

theorem upperBound_spec (h : upperBound column p = some hi) :
    ∃ first next rest test, p = .all (first :: next :: rest) ∧
      next.directComparison = some test ∧ test.column = column ∧ test.operation = .lessEqual ∧
      test.value = hi ∧ hi.isNull = false := by
  rw [upperBound.eq_def] at h
  split at h
  · next first next rest =>
      split at h
      · next test htest =>
          rw [Option.ite_none_right_eq_some] at h
          obtain ⟨hcond, heq⟩ := h
          cases heq
          simp only [Bool.and_eq_true, beq_iff_eq, Bool.not_eq_true'] at hcond
          exact ⟨first, next, rest, test, rfl, htest, hcond.1.1, hcond.2, rfl, hcond.1.2⟩
      · cases h
  · cases h

theorem ColumnTest.truth_of_ne_null (hvalue : test.value.isNull = false)
    (hcell : (v.row.cell test.column).isNull = false) : test.truth v =
      .ofBool (test.operation.holds test.comparison (v.row.cell test.column) test.value) := by
  rw [ColumnTest.truth, hcell, hvalue]
  rfl

/-- A conjunction whose second member is FALSE is FALSE, or fails in the
first. -/
theorem truthAll_second_no (first : BoundPredicate) (rest : List BoundPredicate)
    (hno : next.truth v = .ok .no) :
    BoundPredicate.truth v (.all (first :: next :: rest)) = .ok .no ∨
      ∃ e, BoundPredicate.truth v (.all (first :: next :: rest)) = .error e := by
  rw [BoundPredicate.truth, truthAll]
  cases first.truth v with
  | error e => exact .inr ⟨e, rfl⟩
  | ok truth =>
    left
    cases truth with
    | no => rfl
    | yes => simp only [Bind.bind, Except.bind, truthAll, hno]; rfl
    | unknown => simp only [Bind.bind, Except.bind, truthAll, hno]; rfl

theorem leadingBounds_spec (h : leadingBounds p test = some (lo, hi)) :
    lo = test.value ∧ ((test.operation = .equal ∧ hi = test.value) ∨
      (test.operation = .greaterEqual ∧ upperBound test.column p = some hi)) := by
  rw [leadingBounds.eq_def] at h
  split at h
  · next hop =>
      cases h
      exact ⟨rfl, .inl ⟨hop, rfl⟩⟩
  · next hop =>
      obtain ⟨hi', hhi, heq⟩ := Option.map_eq_some_iff.mp h
      cases heq
      exact ⟨rfl, .inr ⟨hop, hhi⟩⟩
  · cases h

section

variable (hlawful : registry.Lawful)
include hlawful

/-- A test that is the second conjunct of a well bound predicate. -/
theorem second_ok {rest : List BoundPredicate}
    (hp : BoundPredicate.Ok registry t.columns (.all (first :: next :: rest)))
    (htest : next.directComparison = some test) : test.Ok registry t.columns ∧
      ∀ v : RowView, RowOk registry t.columns v.row → next.truth v = .ok (test.truth v) := by
  cases hp with
  | all hchildren =>
    exact ColumnTest.of_columnLiteral hlawful
      (hchildren next (List.mem_cons_of_mem _ List.mem_cons_self))
      (ColumnTest.columnLiteral_of_direct htest)

theorem leadingBounds_cell (hp : p.Ok registry t.columns)
    (hok : test.Ok registry t.columns) (h : leadingBounds p test = some (lo, hi)) :
    registry.Cell test.type lo ∧ registry.Cell test.type hi := by
  obtain ⟨rfl, ⟨-, rfl⟩ | ⟨-, hupper⟩⟩ := leadingBounds_spec h
  · exact ⟨hok.value, hok.value⟩
  · obtain ⟨first, next, rest, test', rfl, htest', hcolumn, -, rfl, -⟩ := upperBound_spec hupper
    obtain ⟨hok', -⟩ := second_ok hlawful hp htest'
    obtain ⟨c, hc, htype⟩ := hok.column
    have htype' : test'.type = test.type := by
      rw [← htype]
      exact hok'.type_eq (by rw [hcolumn]; exact hc)
    exact ⟨hok.value, htype' ▸ hok'.value⟩

/-- A row with a key outside the range: the leading test is FALSE on it, or
the key is above the upper bound, and then only what stands between the two
bounds can fail. -/
theorem excluded_by_range (hp : p.Ok registry t.columns)
    (hg : p.leadingKeyGuard = some g) (htest : g.directComparison = some test)
    (hok : test.Ok registry t.columns)
    (htruth : ∀ v : RowView, RowOk registry t.columns v.row → g.truth v = .ok (test.truth v))
    (hvalue : test.value.isNull = false) (hx : x ∈ t.ordered)
    (hhead : x.columns.head? = some test.column) (ho : (x.orderAt 0).Of registry test.type)
    (hbounds : leadingBounds p test = some (lo, hi)) (hdefinite : test.operation = .greaterEqual →
      t.nullable test.column = true ∨ test.native registry = false)
    (hrow : RowOk registry t.columns v.row) (hcell : (v.row.cell test.column).isNull = false)
    (houtside : ¬KeyBetween test.comparison.compare (some lo) (some hi) (v.row.cell test.column)) :
    p.truth v = .ok .no ∨ (p.truth v ≠ .ok .yes ∧ Hides registry t p v.row) := by
  have hdecided := ColumnTest.truth_of_ne_null hvalue hcell
  by_cases hyes : test.truth v = .yes
  · have hwithin := hok.bounds_of_yes hlawful ho hrow hyes
    rw [← hok.compare_eq ho] at hwithin
    obtain ⟨rfl, ⟨hop, rfl⟩ | ⟨hop, hupper⟩⟩ := leadingBounds_spec hbounds
    · exact absurd ⟨by simpa using hwithin.1 (.inl hop), by simpa using hwithin.2 (.inl hop)⟩
        houtside
    · obtain ⟨first, next, rest, test', rfl, htest', hcolumn, hop', rfl, hnull'⟩ :=
        upperBound_spec hupper
      obtain ⟨hok', htruth'⟩ := second_ok hlawful hp htest'
      have hlower := hwithin.1 (.inr (by rw [hop]; rfl))
      have habove : 0 < test.comparison.compare (v.row.cell test.column) test'.value := by
        by_contra hle
        exact houtside ⟨by simpa using hlower, by simpa using hle⟩
      -- The two tests are of one column, so they compare alike.
      have htype' : test'.type = test.type := by
        obtain ⟨c, hc, htype⟩ := hok.column
        rw [← htype]
        exact hok'.type_eq (by rw [hcolumn]; exact hc)
      have hno : next.truth v = .ok .no := by
        rw [htruth' v hrow, ColumnTest.truth_of_ne_null hnull' (by rw [hcolumn]; exact hcell), hop',
          hcolumn, Compare.holds, hok'.compare_eq (htype' ▸ ho), ← hok.compare_eq ho,
          decide_eq_false (not_le.mpr habove)]
        rfl
      rcases truthAll_second_no first rest hno with h | ⟨e, h⟩
      · exact .inl h
      · refine .inr ⟨by simp [h], .inr ⟨test, test'.value, ?_, ?_⟩⟩
        · have hordered : (t.ordered.any fun y => y.columns.head? == some test.column) = true :=
            List.any_eq_true.mpr ⟨x, hx, by simpa using hhead⟩
          have hreached : (t.nullable test.column || !(registry.types test.type.id
              test.type.version).any TypeAddon.nativeScalar) = true := by
            rcases hdefinite hop with h | h
            · rw [h, Bool.true_or]
            · rw [ColumnTest.native] at h
              rw [h, Bool.not_false, Bool.or_true]
          rw [rangeGuard, hg, Option.bind_some, htest]
          simp only [hop, beq_self_eq_true, hvalue, Bool.not_false, hordered, hreached,
            Bool.and_self, if_true, hupper, Option.map_some]
        · simp [beyond, hcell, habove]
  · left
    refine guard_no p hg ?_
    rw [htruth v hrow]
    rw [hdecided] at hyes ⊢
    cases hholds : test.operation.holds test.comparison (v.row.cell test.column) test.value with
    | false => rfl
    | true =>
      rw [hholds] at hyes
      exact absurd rfl hyes

theorem leadingCandidates_covers (ht : t.Consistent registry)
    (hp : p.Ok registry t.columns) (hg : p.leadingKeyGuard = some g)
    (hgok : g.Ok registry t.columns) (hnone : compositeCandidates t p registry = .ok none) :
    ∀ result ∈ leadingCandidates t p g, Covers registry t p result := by
  intro result hresult
  rw [leadingCandidates.eq_def, Option.mem_def] at hresult
  split at hresult
  · cases hresult
  next test htest =>
  split at hresult
  · cases hresult
  next hvalue =>
  have hvalue : test.value.isNull = false := by simpa using hvalue
  split at hresult
  · next x lo hi hfind hbounds =>
      cases hresult
      obtain ⟨hok, htruth⟩ :=
        ColumnTest.of_columnLiteral hlawful hgok (ColumnTest.columnLiteral_of_direct htest)
      have hx := List.mem_of_find?_eq_some hfind
      have hhead : x.columns.head? = some test.column := by simpa using List.find?_some hfind
      have ho := (ht.indexed.ordered x hx).fits.order_at (leading_type hok hhead)
      obtain ⟨hlo, hhi⟩ := leadingBounds_cell hlawful hp hok hbounds
      obtain ⟨hreal, hmem⟩ := ht.mem_range hlawful hok hx hhead hlo hhi
      have hnull : registry.Cell test.type (.null test.type) := by
        obtain ⟨addon, haddon, htype, -⟩ := cell_iff.mp hlo
        exact cell_iff.mpr ⟨addon, haddon, htype, .inl ⟨rfl, rfl⟩⟩
      obtain ⟨hrealNull, hmemNull⟩ := ht.mem_range hlawful hok hx hhead hnull hnull
      refine ⟨fun l hl => ?_, fun h => (nomatch h), fun l v hrow hl => ?_⟩
      · rcases List.mem_append.mp hl with hl | hl
        · exact hreal l hl
        · split at hl
          · exact hrealNull l hl
          · cases hl
      · rw [List.mem_append, not_or] at hl
        have hrowok := ht.rows _ hrow
        cases hcell : (v.row.cell test.column).isNull with
        | false =>
          rcases excluded_by_range hlawful hp hg htest hok htruth hvalue hx hhead ho hbounds
            (fun hop => not_definite_of_composite_none hlawful hp hg htest hgok
              (by rw [hop]; rfl) hvalue hx hhead hnone) hrowok hcell
            (fun h => hl.1 ((hmem hrow).mpr h)) with h | h
          · exact .inl h
          · exact .inr (.inr h)
        | true =>
          -- A NULL key is left out only when the test is all there is.
          have hnullable : t.nullable test.column = true := by
            obtain ⟨c, hc, -⟩ := hok.column
            rw [Table.nullable, hc, Option.any_some]
            by_contra hne
            have := (hrowok.isKey hc (by simpa using hne)).2
            rw [hcell] at this
            cases this
          have hmemNull := (hmemNull hrow).mpr (keyBetween_null.mpr hcell)
          have hwhole : p.isComparison = true := by
            by_contra hne
            refine hl.2 ?_
            rw [if_pos (by simp [hnullable, hne])]
            exact hmemNull
          cases p with
          | comparison leaf =>
            cases hg
            refine .inr (.inl ?_)
            rw [htruth v hrowok, ColumnTest.truth, hcell]
            rfl
          | contains | all | any | negation => cases hwhole
  · cases hresult

end

end Leading

/-! ## All paths -/

theorem guard_ok {columns : List Column} : ∀ p : BoundPredicate, p.Ok registry columns →
    p.leadingKeyGuard = some g → g.Ok registry columns
  | .comparison leaf, hp, h => by
      cases h
      exact hp
  | .contains m, hp, h => by
      cases h
      exact hp
  | .all [], _, h => by cases h
  | .all (child :: rest), hp, h => by
      cases hp with
      | all hchildren => exact guard_ok child (hchildren child List.mem_cons_self) h
  | .any _, _, h => by cases h
  | .negation _, _, h => by cases h

theorem guardCandidates_covers (hlawful : registry.Lawful) (ht : t.Consistent registry)
    (hp : p.Ok registry t.columns) : ∃ r, guardCandidates t p.leadingKeyGuard = .ok r ∧
      ∀ result ∈ r, Covers registry t p result := by
  rw [guardCandidates.eq_def]
  split
  · next m hg =>
      cases guard_ok p hp hg with
      | contains hm => exact membershipCandidates_covers ht hm hg
  · next guard hg => exact pointCandidates_covers hlawful ht hg (guard_ok p hp hg)
  · exact ⟨none, rfl, by simp⟩

theorem orElse_covers {r : Option IndexResult} (next : Except Error (Option IndexResult))
    (hr : ∀ result ∈ r, Covers registry t p result)
    (hnext : r = none → ∃ r', next = .ok r' ∧ ∀ result ∈ r', Covers registry t p result) :
    ∃ r', orElse next r = .ok r' ∧ (∀ result ∈ r', Covers registry t p result) ∧
      (r' = none → next = .ok none) := by
  cases r with
  | some result => exact ⟨some result, rfl, hr, by simp⟩
  | none =>
    obtain ⟨r', hr', hcovers⟩ := hnext rfl
    exact ⟨r', hr', hcovers, fun h => by rw [hr', h]⟩

theorem selectRows_covers (hlawful : registry.Lawful) (ht : t.Consistent registry)
    (hp : p.Ok registry t.columns) :
    ∃ r, selectRows t p registry = .ok r ∧ ∀ result ∈ r, Covers registry t p result := by
  obtain ⟨r₁, h₁, hcovers₁⟩ := guardCandidates_covers hlawful ht hp
  obtain ⟨r₂, h₂, hcovers₂, hnone₂⟩ := orElse_covers _ hcovers₁
    fun _ => compositeCandidates_covers hlawful ht hp
  obtain ⟨r₃, h₃, hcovers₃, -⟩ := orElse_covers _ hcovers₂
    fun _ => primaryRangeCandidates_covers hlawful ht hp
  -- The last path is reached only when no prefix was found.
  have hcomposite : r₃ = none → compositeCandidates t p registry = .ok none := by
    intro hr₃
    refine hnone₂ ?_
    cases r₂ with
    | none => rfl
    | some result =>
      rw [hr₃] at h₃
      cases h₃
  obtain ⟨r₄, h₄, hcovers₄, -⟩ := orElse_covers
    (.ok (p.leadingKeyGuard.bind (leadingCandidates t p))) hcovers₃ fun hr₃ => by
      refine ⟨_, rfl, fun result hresult => ?_⟩
      obtain ⟨g, hg, hresult⟩ := Option.bind_eq_some_iff.mp hresult
      exact leadingCandidates_covers hlawful ht hp hg (guard_ok p hp hg) (hcomposite hr₃) result
        hresult
  refine ⟨r₄, ?_, hcovers₄⟩
  simp only [selectRows, h₁, h₂, h₃, h₄, Bind.bind, Except.bind]

end CoreSql
