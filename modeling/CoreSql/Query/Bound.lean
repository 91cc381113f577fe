import CoreSql.Query.Predicate

/-!
# Bound expressions of a query

`BoundExpr` in full, subqueries included: a column, a literal, the identity
of the row, or something applied to arguments. What is applied sees the
arguments unevaluated, since conditionals and coalescing evaluate only some of
them; it sees nothing else of the row. Index selection needs to tell columns
and literals from the rest, which is what an `Operand` keeps; the rewrites of
a predicate that ask which columns an expression reads need the tree.
-/

namespace CoreSql

/-- `BoundExpr`, with subqueries. -/
inductive Bound where
  | column (type : SqlType) (index : Nat)
  | literal (type : SqlType) (value : Value)
  | rowId
  | apply (type : SqlType) (combine : List (Except Error Value) → Except Error Value)
      (arguments : List Bound)

namespace Bound

def type : Bound → SqlType
  | column type _ => type
  | literal type _ => type
  | rowId => integerType
  | apply type .. => type

mutual

def evaluate (v : RowView) : Bound → Except Error Value
  | column _ index => .ok (v.row.cell index)
  | literal _ value => .ok value
  | rowId =>
    match v.id with
    | some id => .ok (.integer (Int64.ofNat id))
    | none => fail .unsupported "Row identity is only available in query expressions"
  | apply _ combine arguments => combine (evaluateArguments v arguments)

def evaluateArguments (v : RowView) : List Bound → List (Except Error Value)
  | [] => []
  | e :: rest => e.evaluate v :: evaluateArguments v rest

end

def operand : Bound → Operand
  | column type index => .column type index
  | literal type value => .literal type value
  | e => .computed e.type fun v => e.evaluate v

theorem inspect_operand (e : Bound) (v : RowView) : e.operand.inspect v = e.evaluate v := by
  cases e <;> rfl

end Bound

/-! ## Conditions -/

/-- `BoundPredicate` over bound expressions. -/
inductive Condition where
  | comparison (left right : Bound) (operation : Compare) (comparison : Comparison)
  | contains (left right : Bound) (extractor : Bytes) (binding : KeyIndex)
  | all (children : List Condition)
  | any (children : List Condition)
  | negation (child : Condition)

mutual

/-- The predicate a condition is, as far as evaluation and index selection
go. -/
def Condition.predicate : Condition → BoundPredicate
  | .comparison left right operation c => .comparison ⟨left.operand, right.operand, operation, c⟩
  | .contains left right extractor binding =>
    .contains ⟨left.operand, right.operand, extractor, binding⟩
  | .all children => .all (predicates children)
  | .any children => .any (predicates children)
  | .negation child => .negation child.predicate

def predicates : List Condition → List BoundPredicate
  | [] => []
  | c :: rest => c.predicate :: predicates rest

end

end CoreSql
