import CoreSql.Proofs.Ranges
import CoreSql.Query.Candidates

/-!
# Predicates and three-valued logic

What a WHERE clause means, independently of the order it is evaluated in:
FALSE < UNKNOWN < TRUE, AND is the least and OR the greatest of the parts.
When no expression fails, the left to right evaluation with its early exits
computes that meaning.

`Ok` is what binding guarantees: operands of the types they claim, literals
that were validated, comparisons the type supports. From it follows what a
comparison of a column with a literal says about a stored row, whichever way
round it was written, and what the leading conditions of a conjunction say
about the whole.
-/

namespace CoreSql

variable {registry : Registry} {columns : List Column} {v : RowView} {depth i : Nat}
  {left right e : Expr} {p child : BoundPredicate} {rest : List BoundPredicate}
  {found others : List ColumnTest}

/-! ## Three-valued logic -/

namespace Truth

def rank : Truth → Nat
  | no => 0
  | unknown => 1
  | yes => 2

def and (a b : Truth) : Truth := if a.rank ≤ b.rank then a else b

def or (a b : Truth) : Truth := if a.rank ≤ b.rank then b else a

end Truth

mutual

/-- The meaning of a predicate on a row; what fails is taken as UNKNOWN. -/
def BoundPredicate.meaning (v : RowView) : BoundPredicate → Truth
  | .comparison leaf => (leaf.truth v).toOption.getD .unknown
  | .contains m => (m.truth v).toOption.getD .unknown
  | .all children => (meanings v children).foldr Truth.and .yes
  | .any children => (meanings v children).foldr Truth.or .no
  | .negation child => (child.meaning v).not

def meanings (v : RowView) : List BoundPredicate → List Truth
  | [] => []
  | child :: rest => child.meaning v :: meanings v rest

end

mutual

/-- No expression of the predicate fails on the row. -/
def BoundPredicate.Total (v : RowView) : BoundPredicate → Prop
  | .comparison leaf => ∃ t, leaf.truth v = .ok t
  | .contains m => ∃ t, m.truth v = .ok t
  | .all children => TotalAll v children
  | .any children => TotalAll v children
  | .negation child => child.Total v

def TotalAll (v : RowView) : List BoundPredicate → Prop
  | [] => True
  | child :: rest => child.Total v ∧ TotalAll v rest

end

mutual

theorem BoundPredicate.truth_eq_meaning :
    ∀ p : BoundPredicate, p.Total v → p.truth v = .ok (p.meaning v)
  | .comparison leaf, ⟨t, ht⟩ => by
      simp only [BoundPredicate.truth, BoundPredicate.meaning, ht]
      rfl
  | .contains m, ⟨t, ht⟩ => by
      simp only [BoundPredicate.truth, BoundPredicate.meaning, ht]
      rfl
  | .all children, h => by
      rw [BoundPredicate.truth, BoundPredicate.meaning,
        truthAll_eq_meaning children .yes h (by decide)]
      cases (meanings v children).foldr Truth.and .yes <;> rfl
  | .any children, h => by
      rw [BoundPredicate.truth, BoundPredicate.meaning,
        truthAny_eq_meaning children .no h (by decide)]
      cases (meanings v children).foldr Truth.or .no <;> rfl
  | .negation child, h => by
      rw [BoundPredicate.truth, BoundPredicate.meaning, BoundPredicate.truth_eq_meaning child h]
      rfl

theorem truthAll_eq_meaning : ∀ (children : List BoundPredicate) (result : Truth),
    TotalAll v children → result ≠ .no →
      truthAll v result children = .ok (result.and ((meanings v children).foldr Truth.and .yes))
  | [], result, _, _ => by cases result <;> rfl
  | child :: rest, result, h, hresult => by
      have hchild := BoundPredicate.truth_eq_meaning child h.1
      have hrest := fun r => truthAll_eq_meaning rest r h.2
      rw [truthAll, hchild, meanings, List.foldr_cons]
      simp only [Bind.bind, Except.bind]
      cases child.meaning v with
      | no => cases result <;> cases (meanings v rest).foldr Truth.and .yes <;> rfl
      | yes =>
        rw [hrest result hresult]
        cases (meanings v rest).foldr Truth.and .yes <;> rfl
      | unknown =>
        rw [hrest .unknown (by decide)]
        cases result with
        | no => exact absurd rfl hresult
        | yes => cases (meanings v rest).foldr Truth.and .yes <;> rfl
        | unknown => cases (meanings v rest).foldr Truth.and .yes <;> rfl

theorem truthAny_eq_meaning : ∀ (children : List BoundPredicate) (result : Truth),
    TotalAll v children → result ≠ .yes →
      truthAny v result children = .ok (result.or ((meanings v children).foldr Truth.or .no))
  | [], result, _, _ => by cases result <;> rfl
  | child :: rest, result, h, hresult => by
      have hchild := BoundPredicate.truth_eq_meaning child h.1
      have hrest := fun r => truthAny_eq_meaning rest r h.2
      rw [truthAny, hchild, meanings, List.foldr_cons]
      simp only [Bind.bind, Except.bind]
      cases child.meaning v with
      | yes => cases result <;> cases (meanings v rest).foldr Truth.or .no <;> rfl
      | no =>
        rw [hrest result hresult]
        cases (meanings v rest).foldr Truth.or .no <;> rfl
      | unknown =>
        rw [hrest .unknown (by decide)]
        cases result with
        | yes => exact absurd rfl hresult
        | no => cases (meanings v rest).foldr Truth.or .no <;> rfl
        | unknown => cases (meanings v rest).foldr Truth.or .no <;> rfl

end

/-! ## What binding guarantees -/

/-- A column of the table under its type, or a validated literal. -/
def Operand.Ok (registry : Registry) (columns : List Column) : Operand → Prop
  | .column type index => ∃ c, columns[index]? = some c ∧ c.type = type
  | .literal type value => registry.Cell type value
  | .computed .. => True

/-- Both sides are of one type, and it supports the operation. -/
structure BoundLeaf.Ok (registry : Registry) (columns : List Column) (leaf : BoundLeaf) : Prop where
  left : leaf.left.Ok registry columns
  right : leaf.right.Ok registry columns
  types : leaf.right.type = leaf.left.type
  supported : Comparison.create registry leaf.left.type leaf.operation.equality =
    .ok leaf.comparison

/-- The binding is that of the registered extractor. -/
structure BoundMembership.Ok (registry : Registry) (columns : List Column) (m : BoundMembership) :
    Prop where
  left : m.left.Ok registry columns
  right : m.right.Ok registry columns
  registered : ∃ extractor addon, registry.indexes m.extractor = some (.key extractor addon) ∧
    m.binding = { extractor, addon } ∧ m.left.type = extractor.sourceType ∧
    m.right.type = extractor.keyType

inductive BoundPredicate.Ok (registry : Registry) (columns : List Column) : BoundPredicate → Prop
  | comparison {leaf : BoundLeaf} : leaf.Ok registry columns →
    Ok registry columns (.comparison leaf)
  | contains {m : BoundMembership} : m.Ok registry columns → Ok registry columns (.contains m)
  | all {children : List BoundPredicate} :
      (∀ child ∈ children, Ok registry columns child) → Ok registry columns (.all children)
  | any {children : List BoundPredicate} :
      (∀ child ∈ children, Ok registry columns child) → Ok registry columns (.any children)
  | negation {child : BoundPredicate} :
      Ok registry columns child → Ok registry columns (.negation child)

theorem Operand.ofExpr_type (e : BoundExpr) : (ofExpr e).type = e.type := by
  cases e <;> rfl

theorem resolve_ok {head : ExprHead} {type : SqlType}
    (h : resolve columns head = .ok (i, type)) : ∃ c, columns[i]? = some c ∧ c.type = type := by
  rw [resolve] at h
  split at h
  · cases h
  · split at h
    · cases h
    · next hfind =>
        cases h
        obtain ⟨hlt, -⟩ := List.findIdx?_eq_some_iff_getElem.mp hfind
        exact ⟨columns[i], List.getElem?_eq_getElem hlt, by simp [hlt]⟩

theorem bindConditional_ok {matching : Option (Function × TypeAddon)} {arguments : List BoundExpr}
    {b : BoundExpr} (h : bindConditional matching arguments = .ok b) :
    (Operand.ofExpr b).Ok registry columns := by
  rw [bindConditional.eq_def] at h
  split at h
  · obtain ⟨-, -, h⟩ := Fallible.bind_eq_ok.mp h
    obtain ⟨type, -, h⟩ := Fallible.bind_eq_ok.mp h
    cases h
    trivial
  · obtain ⟨-, -, h⟩ := Fallible.bind_eq_ok.mp h
    obtain ⟨type, -, h⟩ := Fallible.bind_eq_ok.mp h
    cases h
    trivial
  · cases h

theorem bind_ok {b : BoundExpr}
    (h : bind registry columns depth e = .ok b) : (Operand.ofExpr b).Ok registry columns := by
  cases e with
  | literal head value arguments =>
    rw [bind] at h
    split at h
    · cases h
    · obtain ⟨⟨⟩, hvalid, h⟩ := Fallible.bind_eq_ok.mp h
      cases h
      exact hvalid
  | node kind head arguments =>
    rw [bind.eq_def] at h
    simp only at h
    split at h
    · cases h
    · cases kind with
      | column =>
        obtain ⟨⟨i, type⟩, hresolve, h⟩ := Fallible.bind_eq_ok.mp h
        cases h
        exact resolve_ok hresolve
      | call =>
        obtain ⟨f, -, h⟩ := Fallible.bind_eq_ok.mp h
        obtain ⟨bound, -, h⟩ := Fallible.bind_eq_ok.mp h
        obtain ⟨type, -, h⟩ := Fallible.bind_eq_ok.mp h
        obtain ⟨-, -, h⟩ := Fallible.bind_eq_ok.mp h
        obtain ⟨addon, -, h⟩ := Fallible.bind_eq_ok.mp h
        split at h
        · cases h
          trivial
        · split at h
          · cases h
          · cases h
            trivial
      | membership =>
        simp only at h
        split at h
        · cases h
        · split at h
          · cases h
          · obtain ⟨bound, -, h⟩ := Fallible.bind_eq_ok.mp h
            obtain ⟨equal, -, h⟩ := Fallible.bind_eq_ok.mp h
            cases bound with
            | nil => cases h
            | cons needle rest =>
              obtain ⟨-, -, h⟩ := Fallible.bind_eq_ok.mp h
              obtain ⟨truth, -, h⟩ := Fallible.bind_eq_ok.mp h
              simp only at h
              split at h <;> cases h <;> trivial
      | conditional =>
        simp only at h
        split at h
        · split at h
          · cases h
          · obtain ⟨matching, -, h⟩ := Fallible.bind_eq_ok.mp h
            obtain ⟨bound, -, h⟩ := Fallible.bind_eq_ok.mp h
            exact bindConditional_ok h
        · split at h
          · cases h
          · obtain ⟨equal, -, h⟩ := Fallible.bind_eq_ok.mp h
            obtain ⟨truth, -, h⟩ := Fallible.bind_eq_ok.mp h
            obtain ⟨matching, -, h⟩ := Fallible.bind_eq_ok.mp h
            obtain ⟨bound, -, h⟩ := Fallible.bind_eq_ok.mp h
            exact bindConditional_ok h
      | coalesce =>
        simp only at h
        split at h
        · cases h
        · obtain ⟨bound, -, h⟩ := Fallible.bind_eq_ok.mp h
          obtain ⟨type, -, h⟩ := Fallible.bind_eq_ok.mp h
          cases h
          trivial
      | rowId => cases h
      | subquery => cases h
      | «exists» => cases h
      | aggregate => cases h
      | parameter => cases h

theorem bindMembershipTest_ok {name : Bytes}
    {m : BoundMembership} (h : bindMembershipTest registry columns depth left right name = .ok m) :
    m.Ok registry columns := by
  obtain ⟨l, hl, h⟩ := Fallible.bind_eq_ok.mp h
  obtain ⟨r, hr, h⟩ := Fallible.bind_eq_ok.mp h
  obtain ⟨⟨extractor, addon⟩, hextractor, h⟩ := Fallible.bind_eq_ok.mp h
  simp only at h
  split at h
  · cases h
  · next htypes =>
      cases h
      have hregistered : registry.indexes name = some (.key extractor addon) := by
        rw [Registry.extractor] at hextractor
        split at hextractor
        · next hname =>
            cases hextractor
            exact hname
        · cases hextractor
      rw [not_or, not_not, not_not] at htypes
      exact ⟨bind_ok hl, bind_ok hr, extractor, addon, hregistered, rfl,
        by rw [Operand.ofExpr_type]; exact htypes.1, by rw [Operand.ofExpr_type]; exact htypes.2⟩

theorem bindComparison_ok {operation : Compare}
    {leaf : BoundLeaf} (h : bindComparison registry columns depth left operation right = .ok leaf) :
    leaf.Ok registry columns := by
  obtain ⟨l, hl, h⟩ := Fallible.bind_eq_ok.mp h
  obtain ⟨r, hr, h⟩ := Fallible.bind_eq_ok.mp h
  simp only at h
  split at h
  · cases h
  · next htypes =>
      obtain ⟨c, hc, h⟩ := Fallible.bind_eq_ok.mp h
      cases h
      rw [not_not] at htypes
      refine ⟨bind_ok hl, bind_ok hr, ?_, ?_⟩
      · rw [Operand.ofExpr_type, Operand.ofExpr_type, htypes]
      · rw [Operand.ofExpr_type]
        exact hc

mutual

theorem bindCondition_ok : ∀ (p : Predicate) {depth nodes nodes' : Nat} {b : BoundPredicate},
    bindCondition registry columns depth nodes p = .ok (b, nodes') → b.Ok registry columns
  | .node kind left operation right extractor children, depth, nodes, nodes', b, h => by
      rw [bindCondition.eq_def] at h
      simp only at h
      split at h
      · cases h
      · cases kind with
        | contains =>
          simp only at h
          split at h
          · cases h
          · obtain ⟨m, hm, h⟩ := Fallible.bind_eq_ok.mp h
            cases h
            exact .contains (bindMembershipTest_ok hm)
        | comparison =>
          simp only at h
          split at h
          · cases h
          · obtain ⟨leaf, hleaf, h⟩ := Fallible.bind_eq_ok.mp h
            cases h
            exact .comparison (bindComparison_ok hleaf)
        | all =>
          obtain ⟨⟨bound, n⟩, hbound, h⟩ := Fallible.bind_eq_ok.mp h
          cases h
          exact .all (bindConditions_ok children hbound)
        | any =>
          obtain ⟨⟨bound, n⟩, hbound, h⟩ := Fallible.bind_eq_ok.mp h
          cases h
          exact .any (bindConditions_ok children hbound)
        | negation =>
          simp only at h
          split at h
          · cases h
          · obtain ⟨⟨bound, n⟩, hbound, h⟩ := Fallible.bind_eq_ok.mp h
            have hchildren := bindConditions_ok children hbound
            simp only at h
            split at h
            · cases h
              exact .negation (hchildren _ List.mem_cons_self)
            · cases h

theorem bindConditions_ok : ∀ (ps : List Predicate) {depth nodes nodes' : Nat}
    {bs : List BoundPredicate}, bindConditions registry columns depth nodes ps = .ok (bs, nodes') →
      ∀ b ∈ bs, b.Ok registry columns
  | [], depth, nodes, nodes', bs, h => by
      cases h
      simp
  | p :: ps, depth, nodes, nodes', bs, h => by
      rw [bindConditions] at h
      obtain ⟨⟨b, n⟩, hb, h⟩ := Fallible.bind_eq_ok.mp h
      obtain ⟨⟨others, n'⟩, hothers, h⟩ := Fallible.bind_eq_ok.mp h
      cases h
      intro c hc
      rcases List.mem_cons.mp hc with rfl | hc
      · exact bindCondition_ok p hb
      · exact bindConditions_ok ps hothers c hc

end

/-! ## A column against a literal -/

section Comparisons

variable {type : SqlType} {equality : Bool} {c : Comparison} {a b : Value}

theorem Comparison.create_ok (h : create registry type equality = .ok c) :
    ∃ addon, registry.types type.id type.version = some addon ∧
      addon.validateType type.parameters = .ok () ∧ c = ⟨type.parameters, addon⟩ ∧
      (equality = true → addon.equal.isSome) ∧ (equality = false → addon.compare.isSome) := by
  obtain ⟨addon, haddon, h⟩ := Fallible.bind_eq_ok.mp h
  obtain ⟨⟨⟩, hvalid, h⟩ := Fallible.bind_eq_ok.mp h
  obtain ⟨addon', haddon', htype⟩ := Fallible.bind_eq_ok.mp hvalid
  rw [haddon] at haddon'
  cases haddon'
  refine ⟨addon, addon_eq_ok.mp haddon, htype, ?_⟩
  cases equality with
  | true =>
    cases hequal : addon.equal with
    | none => simp [hequal, Bind.bind, Except.bind] at h
    | some equal =>
      simp only [hequal, Option.isNone_some, Bool.false_eq_true, if_true, if_false] at h
      cases h
      simp
  | false =>
    cases hcompare : addon.compare with
    | none => simp [hcompare, Bind.bind, Except.bind] at h
    | some compare =>
      simp only [hcompare, Option.isNone_some, Bool.false_eq_true, if_false] at h
      cases h
      simp

variable (hlawful : registry.Lawful)
include hlawful

theorem Comparison.compare_threeWay (h : create registry type false = .ok c) :
    ThreeWay (registry.Cell type) c.compare := by
  obtain ⟨addon, haddon, htype, rfl, -, hsome⟩ := create_ok h
  obtain ⟨compare, hcompare⟩ := Option.isSome_iff_exists.mp (hsome rfl)
  have hof : (KeyOrder.mk (compare type.parameters) false).Of registry type :=
    ⟨addon, compare, haddon, htype, hcompare, rfl⟩
  have heq : (Comparison.mk type.parameters addon).compare =
      fun a b => if a.isNull || b.isNull then compareNulls a b
        else compare type.parameters a b := by
    funext a b
    rw [Comparison.compare, hcompare]
  rw [heq]
  exact hof.nullsFirst hlawful

theorem Comparison.equal_comm (h : create registry type true = .ok c) (ha : registry.Key type a)
    (hb : registry.Key type b) : c.equal a b = c.equal b a := by
  obtain ⟨addon, haddon, htype, rfl, hsome, -⟩ := create_ok h
  obtain ⟨equal, hequal⟩ := Option.isSome_iff_exists.mp (hsome rfl)
  have hlaw := hlawful type addon haddon htype
  have ha' := ha.1.accepts ha.2 haddon
  have hb' := hb.1.accepts hb.2 haddon
  rw [Bool.eq_iff_iff]
  simp only [Comparison.equal, ha.2, hb.2, Bool.or_self, Bool.false_eq_true, if_false, hequal]
  exact ⟨hlaw.equal_symm hequal ha' hb', hlaw.equal_symm hequal hb' ha'⟩

theorem Compare.holds_swap {op : Compare}
    (h : Comparison.create registry type op.equality = .ok c) (ha : registry.Key type a)
    (hb : registry.Key type b) : op.swap.holds c a b = op.holds c b a := by
  cases op with
  | equal => exact Comparison.equal_comm hlawful h ha hb
  | notEqual => exact congrArg not (Comparison.equal_comm hlawful h ha hb)
  | less =>
    have hlaw := Comparison.compare_threeWay hlawful h
    exact decide_eq_decide.mpr (hlaw.swap ha.1 hb.1)
  | greater =>
    have hlaw := Comparison.compare_threeWay hlawful h
    exact decide_eq_decide.mpr (hlaw.swap hb.1 ha.1).symm
  | lessEqual =>
    have hlaw := Comparison.compare_threeWay hlawful h
    exact decide_eq_decide.mpr (hlaw.le_swap hb.1 ha.1).symm
  | greaterEqual =>
    have hlaw := Comparison.compare_threeWay hlawful h
    exact decide_eq_decide.mpr (hlaw.le_swap ha.1 hb.1)

end Comparisons

namespace ColumnTest

def truth (test : ColumnTest) (v : RowView) : Truth :=
  if (v.row.cell test.column).isNull || test.value.isNull then .unknown
  else .ofBool (test.operation.holds test.comparison (v.row.cell test.column) test.value)

structure Ok (registry : Registry) (columns : List Column) (test : ColumnTest) : Prop where
  column : ∃ c, columns[test.column]? = some c ∧ c.type = test.type
  value : registry.Cell test.type test.value
  supported : Comparison.create registry test.type test.operation.equality = .ok test.comparison

variable {test : ColumnTest} {p : BoundPredicate}

theorem Ok.cell (h : test.Ok registry columns) (hrow : RowOk registry columns v.row) :
    registry.Cell test.type (v.row.cell test.column) := by
  obtain ⟨c, hc, htype⟩ := h.column
  exact htype ▸ validateStored_cell (hrow.cell hc)

/-- A comparison of a column with a literal is the test it is read as. -/
theorem of_columnLiteral (hlawful : registry.Lawful) (hp : p.Ok registry columns)
    (h : p.columnLiteral = some test) : test.Ok registry columns ∧
      ∀ v : RowView, RowOk registry columns v.row → p.truth v = .ok (test.truth v) := by
  rw [BoundPredicate.columnLiteral.eq_def] at h
  split at h
  · next type index type' value operation c =>
      cases h
      cases hp with
      | comparison hleaf =>
        obtain ⟨hcolumn, hvalue, htypes, hsupported⟩ := hleaf
        have htypes : type' = type := htypes
        refine ⟨⟨hcolumn, htypes ▸ hvalue, hsupported⟩, fun v _ => ?_⟩
        simp only [BoundPredicate.truth, BoundLeaf.truth, Operand.inspect, truth,
          BoundLeaf.values, Bind.bind, Except.bind]
        split <;> rfl
  · next type' value type index operation c =>
      cases h
      cases hp with
      | comparison hleaf =>
        obtain ⟨hvalue, hcolumn, htypes, hsupported⟩ := hleaf
        have htypes : type = type' := htypes
        subst htypes
        have hequality : operation.swap.equality = operation.equality := by
          cases operation <;> rfl
        have hok : Ok registry columns ⟨index, type, operation.swap, value, c⟩ :=
          ⟨hcolumn, hvalue, by rw [hequality]; exact hsupported⟩
        refine ⟨hok, fun v hrow => ?_⟩
        have hcell := hok.cell hrow
        simp only [BoundPredicate.truth, BoundLeaf.truth, Operand.inspect, truth,
          BoundLeaf.values, Bind.bind, Except.bind]
        cases hnull : (v.row.cell index).isNull with
        | true => simp [pure, Except.pure]
        | false =>
          cases hnull' : value.isNull with
          | true => simp [pure, Except.pure]
          | false =>
            rw [Compare.holds_swap hlawful hsupported ⟨hcell, hnull⟩ ⟨hvalue, hnull'⟩]
            rfl
  · cases h

theorem columnLiteral_of_direct (h : p.directComparison = some test) :
    p.columnLiteral = some test := by
  rw [BoundPredicate.directComparison.eq_def] at h
  split at h
  · exact h
  · cases h

theorem Ok.truth_definite (h : test.Ok registry t.columns)
    (hdefinite : test.definite t = true) (hrow : RowOk registry t.columns v.row) :
    test.truth v = .yes ∨ test.truth v = .no := by
  obtain ⟨c, hc, htype⟩ := h.column
  simp only [definite, Table.nullable, hc, Option.any_some, Bool.and_eq_true,
    Bool.not_eq_true'] at hdefinite
  have hnull := (hrow.isKey hc hdefinite.2).2
  rw [truth, hnull, hdefinite.1]
  cases test.operation.holds test.comparison (v.row.cell test.column) test.value
  · exact .inr rfl
  · exact .inl rfl

end ColumnTest

/-! ## The leading condition -/

section Guards

variable {g : BoundPredicate}

theorem truthAll_unknown_ne_yes (children : List BoundPredicate) :
    truthAll v .unknown children ≠ .ok .yes := by
  induction children with
  | nil => simp [truthAll]
  | cons child rest ih =>
    rw [truthAll]
    cases child.truth v with
    | error e => simp [Bind.bind, Except.bind]
    | ok t => cases t <;> simp [Bind.bind, Except.bind, pure, Except.pure, ih]

/-- A guard that is FALSE makes the predicate FALSE; nothing else is
evaluated. -/
theorem guard_no : ∀ p : BoundPredicate, p.leadingKeyGuard = some g → g.truth v = .ok .no →
    p.truth v = .ok .no
  | .comparison leaf, h, hg => by
      cases h
      exact hg
  | .contains m, h, hg => by
      cases h
      exact hg
  | .all [], h, _ => by cases h
  | .all (child :: rest), h, hg => by
      rw [BoundPredicate.truth, truthAll, guard_no child h hg]
      rfl
  | .any _, h, _ => by cases h
  | .negation _, h, _ => by cases h

/-- A guard that is UNKNOWN keeps the predicate from being TRUE; the rest is
still evaluated. -/
theorem guard_unknown : ∀ p : BoundPredicate, p.leadingKeyGuard = some g →
    g.truth v = .ok .unknown → p.truth v ≠ .ok .yes
  | .comparison leaf, h, hg => by
      cases h
      simp [hg]
  | .contains m, h, hg => by
      cases h
      simp [hg]
  | .all [], h, _ => by cases h
  | .all (child :: rest), h, hg => by
      have hchild := guard_unknown child h hg
      rw [BoundPredicate.truth, truthAll]
      cases ht : child.truth v with
      | error e => simp [Bind.bind, Except.bind]
      | ok t =>
        cases t with
        | no => simp [Bind.bind, Except.bind, pure, Except.pure]
        | yes => exact absurd ht hchild
        | unknown => exact truthAll_unknown_ne_yes rest
  | .any _, h, _ => by cases h
  | .negation _, h, _ => by cases h

theorem guard_yes : ∀ p : BoundPredicate, p.leadingKeyGuard = some g → g.truth v = .ok .yes →
    optionalTruth v p.discharge = p.truth v
  | .comparison leaf, h, hg => by
      cases h
      exact hg.symm
  | .contains m, h, hg => by
      cases h
      exact hg.symm
  | .all [], h, _ => by cases h
  | .all (child :: rest), h, hg => by
      have hchild := guard_yes child h hg
      have hrest : (child.discharge.getD (.all [])).truth v = child.truth v := by
        rw [← hchild]
        cases child.discharge <;> rfl
      rw [BoundPredicate.discharge, optionalTruth, BoundPredicate.truth, BoundPredicate.truth,
        truthAll, truthAll, hrest]
  | .any _, h, _ => by cases h
  | .negation _, h, _ => by cases h

end Guards

/-! ## Collected conditions -/

/-- What was collected from a conjunction speaks for it: a test that fails
makes it FALSE, and if nothing else was met they make it TRUE. -/
structure Collected (registry : Registry) (t : Table) (evaluate : RowView → Except Error Truth)
    (tests : List ColumnTest) (more : Bool) : Prop where
  ok : ∀ test ∈ tests, test.Ok registry t.columns ∧ test.definite t = true
  no : ∀ v, RowOk registry t.columns v.row → (∃ test ∈ tests, test.truth v = .no) →
    evaluate v = .ok .no
  yes : ∀ v, RowOk registry t.columns v.row → (∀ test ∈ tests, test.truth v = .yes) →
    more = true → evaluate v = .ok .yes

def Reads (registry : Registry) (t : Table)
    (accept : BoundPredicate → Except Error (Option ColumnTest)) : Prop :=
  ∀ p : BoundPredicate, p.Ok registry t.columns → ∃ found, accept p = .ok found ∧
    ∀ test ∈ found, test.Ok registry t.columns ∧ test.definite t = true ∧
      ∀ v, RowOk registry t.columns v.row → p.truth v = .ok (test.truth v)

variable {t : Table}

theorem Collected.none {evaluate : RowView → Except Error Truth} :
    Collected registry t evaluate [] false where
  ok := by simp
  no := by simp
  yes := by simp

theorem Collected.one {test : ColumnTest}
    (hok : test.Ok registry t.columns) (hdefinite : test.definite t = true)
    (htruth : ∀ v, RowOk registry t.columns v.row → p.truth v = .ok (test.truth v)) :
    Collected registry t (fun v => p.truth v) [test] true where
  ok := by simpa using ⟨hok, hdefinite⟩
  no v hrow h := by
    obtain ⟨test', hmem, hno⟩ := h
    rw [List.mem_singleton.mp hmem] at hno
    rw [htruth v hrow, hno]
  yes v hrow h _ := by rw [htruth v hrow, h test (by simp)]

theorem Collected.append {more : Bool}
    (hchild : Collected registry t (fun v => child.truth v) found true)
    (hrest : Collected registry t (fun v => truthAll v .yes rest) others more) :
    Collected registry t (fun v => truthAll v .yes (child :: rest)) (found ++ others) more where
  ok test htest := by
    rcases List.mem_append.mp htest with h | h
    · exact hchild.ok test h
    · exact hrest.ok test h
  no v hrow h := by
    rw [truthAll]
    by_cases hfound : ∃ test ∈ found, test.truth v = .no
    · rw [hchild.no v hrow hfound]
      rfl
    · -- The first conjunct is decided and not FALSE, so the loop goes on.
      have hyes : ∀ test ∈ found, test.truth v = .yes := by
        intro test htest
        rcases (hchild.ok test htest).1.truth_definite (hchild.ok test htest).2 hrow with h | h
        · exact h
        · exact absurd ⟨test, htest, h⟩ hfound
      rw [hchild.yes v hrow hyes rfl]
      obtain ⟨test, htest, hno⟩ := h
      rcases List.mem_append.mp htest with h | h
      · exact absurd ⟨test, h, hno⟩ hfound
      · exact hrest.no v hrow ⟨test, h, hno⟩
  yes v hrow h hmore := by
    rw [truthAll, hchild.yes v hrow (fun test ht => h test (List.mem_append_left _ ht)) rfl]
    exact hrest.yes v hrow (fun test ht => h test (List.mem_append_right _ ht)) hmore

theorem Collected.stop
    (hchild : Collected registry t (fun v => child.truth v) found false) :
    Collected registry t (fun v => truthAll v .yes (child :: rest)) found false where
  ok := hchild.ok
  no v hrow h := by
    rw [truthAll, hchild.no v hrow h]
    rfl
  yes _ _ _ h := by cases h

theorem collect_leaf_eq {α : Type} (accept : BoundPredicate → Except Error (Option α))
    (hleaf : ∀ children, p ≠ .all children) :
    collect accept p = (accept p).map fun found => (found.toList, found.isSome) := by
  rw [collect.eq_2 accept p hleaf]
  cases accept p with
  | error e => rfl
  | ok found => cases found <;> rfl

theorem collect_leaf {accept : BoundPredicate → Except Error (Option ColumnTest)}
    (haccept : Reads registry t accept) (hp : p.Ok registry t.columns)
    (hleaf : ∀ children, p ≠ .all children) : ∃ tests more, collect accept p = .ok (tests, more) ∧
      Collected registry t (fun v => p.truth v) tests more := by
  obtain ⟨found, hfound, hreads⟩ := haccept p hp
  refine ⟨found.toList, found.isSome, by rw [collect_leaf_eq accept hleaf, hfound]; rfl, ?_⟩
  cases found with
  | none => exact .none
  | some test =>
    obtain ⟨hok, hdefinite, htruth⟩ := hreads test rfl
    exact .one hok hdefinite htruth

mutual

variable {accept : BoundPredicate → Except Error (Option ColumnTest)}

theorem collect_reads
    (haccept : Reads registry t accept) : ∀ p : BoundPredicate, p.Ok registry t.columns →
    ∃ tests more, collect accept p = .ok (tests, more) ∧
      Collected registry t (fun v => p.truth v) tests more
  | .all children, h => by
      cases h with
      | all h =>
        obtain ⟨tests, more, hcollect, hcollected⟩ := collectAll_reads haccept children h
        exact ⟨tests, more, hcollect, hcollected⟩
  | .comparison leaf, h => collect_leaf haccept h (by simp)
  | .contains m, h => collect_leaf haccept h (by simp)
  | .any children, h => collect_leaf haccept h (by simp)
  | .negation child, h => collect_leaf haccept h (by simp)

theorem collectAll_reads (haccept : Reads registry t accept) : ∀ children : List BoundPredicate,
    (∀ child ∈ children, child.Ok registry t.columns) →
    ∃ tests more, collectAll accept children = .ok (tests, more) ∧
      Collected registry t (fun v => truthAll v .yes children) tests more
  | [], _ => ⟨[], true, rfl, by simp, by simp, fun _ _ _ _ => rfl⟩
  | child :: rest, h => by
      obtain ⟨found, more, hfound, hchild⟩ :=
        collect_reads haccept child (h child List.mem_cons_self)
      obtain ⟨others, more', hothers, hrest⟩ :=
        collectAll_reads haccept rest fun c hc => h c (List.mem_cons_of_mem _ hc)
      cases more with
      | true =>
        refine ⟨found ++ others, more', ?_, hchild.append hrest⟩
        simp only [collectAll, hfound, hothers, Bind.bind, Except.bind, if_true]
        rfl
      | false =>
        refine ⟨found, false, ?_, hchild.stop⟩
        simp only [collectAll, hfound, Bind.bind, Except.bind, Bool.false_eq_true, if_false]
        rfl

end

end CoreSql
