import CoreSql.Data.Value

/-!
# Row-local expressions

CHECK constraints are expression trees over the columns of one row. This is
the part of `bound.cpp` and `bound.hpp` they can reach: columns, literals,
calls, conditionals, coalescing and membership in a list of candidates.
`validate_check_expression` keeps every other kind out, and the queries they
would need are not part of this development.

A tree carries more than binding reads. In particular a column or a literal
may have arguments: `bind` never looks at them, while the record codec writes
and validates every node of the tree.
-/

namespace CoreSql

structure Column where
  name : Bytes
  type : SqlType
  primaryKey : Bool := false
  index : Bytes := []
  defaultValue : Option Value := none
  nullable : Bool := false
  deriving DecidableEq

/-- `Expr::Kind` but for `literal`, which has a constructor of its own. -/
inductive Kind where
  | column | call | aggregate | rowId | parameter | subquery | conditional
  | exists | coalesce | membership
  deriving DecidableEq

/-- The fields every node has. Of a subquery only its presence is kept. -/
structure ExprHead where
  name : Bytes := []
  qualifier : Bytes := []
  subquery : Bool := false
  distinct : Bool := false
  parameters : List Bytes := []
  deriving DecidableEq

/-- `Expr`. The `value` field belongs to literals: nothing reads it elsewhere. -/
inductive Expr where
  | literal (head : ExprHead) (value : Value) (arguments : List Expr)
  | node (kind : Kind) (head : ExprHead) (arguments : List Expr)

/-- `BoundExpr`: names resolved, types inferred, callbacks looked up. -/
inductive BoundExpr where
  | column (type : SqlType) (index : Nat)
  | literal (type : SqlType) (value : Value)
  | call (type : SqlType) (function : Function) (addon : TypeAddon)
      (prepared : Option (List Value → Except Error Value)) (arguments : List BoundExpr)
  | conditional (type : SqlType) (matching : Option (Function × TypeAddon))
      (arguments : List BoundExpr)
  | coalesce (type : SqlType) (arguments : List BoundExpr)
  | membership (equal : Function) (truth : TypeAddon) (needle : SqlType)
      (literals : Option (List Value)) (arguments : List BoundExpr)

namespace BoundExpr

def type : BoundExpr → SqlType
  | column type _ => type
  | literal type _ => type
  | call type .. => type
  | conditional type .. => type
  | coalesce type _ => type
  | membership .. => integerType

/-- The literal NULLs whose type is taken from their context. -/
def nullLiteral : BoundExpr → Bool
  | literal _ value => value.isNull
  | _ => false

/-- A literal NULL takes the type of its context. -/
def contextualize (type : SqlType) (e : BoundExpr) : BoundExpr :=
  if e.nullLiteral then literal type (.null type) else e

end BoundExpr

/-! ## Binding -/

/-- The common type of the arms, and integer when every arm is NULL: the
first loop of `result_type`. -/
def commonType : List BoundExpr → Option SqlType → Except Error SqlType
  | [], type => .ok (type.getD integerType)
  | arm :: arms, type =>
    if arm.nullLiteral then commonType arms type
    else
      match type with
      | some t =>
        if t ≠ arm.type then fail .type "Expression result types differ"
        else commonType arms (some arm.type)
      | none => commonType arms (some arm.type)

/-- The results of a conditional: every second operand, and the last one
when it stands alone. -/
def arms : List BoundExpr → List BoundExpr
  | [] => []
  | [fallback] => [fallback]
  | _ :: result :: rest => result :: arms rest

/-- Give the literal NULLs among the results their type. -/
def contextualizeArms (type : SqlType) : List BoundExpr → List BoundExpr
  | [] => []
  | [fallback] => [fallback.contextualize type]
  | condition :: result :: rest =>
    condition :: result.contextualize type :: contextualizeArms type rest

/-- The conditions of a searched conditional have to be integers. -/
def checkConditions : List BoundExpr → Except Error Unit
  | condition :: _ :: rest =>
    if condition.type ≠ integerType then fail .type "Conditional needs integer truth"
    else checkConditions rest
  | _ => .ok ()

/-- Each operand of a matching conditional has to compare with the base. -/
def checkMatches (equal : Function) (base : BoundExpr) : List BoundExpr → Except Error Unit
  | operand :: _ :: rest => do
      let left := if base.nullLiteral then operand.type else base.type
      let right := if operand.nullLiteral then left else operand.type
      let answer ← equal.infer [left, right]
      if answer ≠ integerType then fail .type "Conditional equality must return integer truth"
      else checkMatches equal base rest
  | _ => .ok ()

/-- Each candidate of a membership has to compare with the needle. A NULL
needle takes the candidate's type. -/
def checkCandidates (equal : Function) (needle : BoundExpr) : List BoundExpr → Except Error Unit
  | [] => .ok ()
  | candidate :: rest => do
      let left := if needle.nullLiteral then candidate.type else needle.type
      let answer ← equal.infer [left, candidate.type]
      if answer ≠ integerType then fail .type "Membership equality must return integer truth"
      else checkCandidates equal needle rest

/-- The candidates as constants, when all of them are. -/
def literalValues : List BoundExpr → Option (List Value)
  | [] => some []
  | .literal _ value :: rest => (literalValues rest).map (value :: ·)
  | _ :: _ => none

/-- `Scope::resolve` on one table without an alias. -/
def resolve (columns : List Column) (head : ExprHead) : Except Error (Nat × SqlType) :=
  if head.qualifier ≠ [] then
    .error ⟨.schema, lit "Unknown column alias: " ++ head.qualifier⟩
  else
    match columns.findIdx? fun c => c.name == head.name with
    | none => .error ⟨.schema, lit "Unknown column: " ++ head.name⟩
    | some i => .ok (i, (columns[i]?.map Column.type).getD integerType)

/-- The conditional case of `bind`, its arguments bound. -/
def bindConditional (matching : Option (Function × TypeAddon)) (arguments : List BoundExpr) :
    Except Error BoundExpr :=
  match matching, arguments with
  | none, arguments => do
      checkConditions arguments
      let type ← commonType (arms arguments) none
      return .conditional type none (contextualizeArms type arguments)
  | some m, base :: rest => do
      checkMatches m.1 base rest
      let type ← commonType (arms rest) none
      return .conditional type (some m) (base :: contextualizeArms type rest)
  | some _, [] => fail .schema "Conditional needs a branch"

/-- The membership case of `bind`, its arguments bound. Constant candidates
are set aside when the equality knows how to prepare for them. -/
def bindMembership (registry : Registry) (equal : Function) :
    List BoundExpr → Except Error BoundExpr
  | [] => fail .schema "Membership needs a value"
  | needle :: rest => do
      let candidates := rest.map (BoundExpr.contextualize needle.type)
      checkCandidates equal needle candidates
      let truth ← registry.addon integerType
      let sameType := candidates.all fun c => c.type == needle.type
      match equal.prepareMembership, sameType, literalValues candidates with
      | some _, true, some values =>
        return .membership equal truth needle.type (some values) [needle]
      | _, _, _ => return .membership equal truth needle.type none (needle :: candidates)

mutual

/-- `bind(expression, table, registry, depth)` on one table, outside any
query. -/
def bind (registry : Registry) (columns : List Column) :
    Nat → Expr → Except Error BoundExpr
  | depth, .literal _ value _ =>
    if 64 < depth then fail .schema "Expression nesting exceeds 64"
    else do
      registry.validate value value.typeOf
      return .literal value.typeOf value
  | depth, .node kind head arguments =>
    if 64 < depth then fail .schema "Expression nesting exceeds 64"
    else
      match kind with
      | .column => do
          let (index, type) ← resolve columns head
          return .column type index
      | .rowId => fail .unsupported "Row identity requires a single table"
      | .subquery | .exists => fail .schema "Invalid scalar subquery"
      | .aggregate | .parameter => fail .schema "Unknown expression kind"
      | .membership =>
        if head.subquery then fail .schema "Invalid membership query"
        else if arguments.isEmpty then fail .schema "Membership needs a value"
        else do
          let bound ← bindAll registry columns (depth + 1) arguments
          let equal ← registry.function head.name
          bindMembership registry equal bound
      | .conditional =>
        let first := if head.name = [] then 0 else 1
        if arguments.length < first + 2 then fail .schema "Conditional needs a branch"
        else do
          let matching ←
            if head.name = [] then pure none
            else do
              let equal ← registry.function head.name
              let truth ← registry.addon integerType
              pure (some (equal, truth))
          let bound ← bindAll registry columns (depth + 1) arguments
          bindConditional matching bound
      | .coalesce =>
        if arguments.isEmpty then fail .schema "Coalesce needs operands"
        else do
          let bound ← bindAll registry columns (depth + 1) arguments
          let type ← commonType bound none
          return .coalesce type (bound.map (BoundExpr.contextualize type))
      | .call => do
          let function ← registry.function head.name
          let bound ← bindAll registry columns (depth + 1) arguments
          let types := bound.map BoundExpr.type
          let type ← function.infer types
          registry.validateType type
          let addon ← registry.addon type
          match function.prepare with
          | none => return .call type function addon none bound
          | some prepare =>
            match prepare types type with
            | none => fail .type "Function preparation returned no callback"
            | some prepared => return .call type function addon (some prepared) bound

def bindAll (registry : Registry) (columns : List Column) :
    Nat → List Expr → Except Error (List BoundExpr)
  | _, [] => .ok []
  | depth, e :: rest => do
      let bound ← bind registry columns depth e
      let others ← bindAll registry columns depth rest
      return bound :: others

end

/-! ## Evaluation -/

/-- `std::get<std::int64_t>(value) != 0`. -/
def truthy : Value → Bool
  | .integer i => i != 0
  | _ => false

/-- The loop over the candidates of a membership; `unknown` remembers that
a comparison was not decided. -/
def matchCandidates (equal : Function) (truth : TypeAddon) (needle : Value) :
    Bool → List Value → Except Error Value
  | unknown, [] => .ok (if unknown then .null integerType else .integer 0)
  | unknown, candidate :: rest =>
    if needle.isNull || candidate.isNull then matchCandidates equal truth needle true rest
    else do
      let answer ← equal.invoke [needle, candidate]
      checkValue truth integerType answer
      if answer.isNull then matchCandidates equal truth needle true rest
      else if truthy answer then return .integer 1
      else matchCandidates equal truth needle unknown rest

/-- `MembershipLookup`: a test prepared on the candidates that are not NULL, and what there was to
note about them. -/
structure MembershipLookup where
  attempted : Bool := false
  hasNull : Bool := false
  empty : Bool := true
  contains : Option (Value → Bool) := none

namespace MembershipLookup

/-- `prepare`: the test is asked for once, whether or not there is one. -/
def prepare (equal : Function) (type : SqlType) (candidates : List Value)
    (lookup : MembershipLookup) : MembershipLookup :=
  match lookup.attempted, equal.prepareMembership with
  | true, _ | _, none => lookup
  | false, some factory =>
    { attempted := true
      hasNull := candidates.any Value.isNull
      empty := candidates.isEmpty
      contains := factory type (candidates.filter fun v => !v.isNull) }

def find (lookup : MembershipLookup) (value : Value) : Option Value :=
  match lookup.contains with
  | none => none
  | some contains =>
    if lookup.empty then some (.integer 0)
    else if value.isNull then some (.null integerType)
    else if contains value then some (.integer 1)
    else some (if lookup.hasNull then .null integerType else .integer 0)

end MembershipLookup

mutual

def BoundExpr.evaluate (row : Row) : BoundExpr → Except Error Value
  | .column _ index => .ok (row.cell index)
  | .literal _ value => .ok value
  | .coalesce type arguments => evaluateFirst row type arguments
  | .conditional type none arguments => evaluateSearched row type arguments
  | .conditional type (some m) (base :: rest) => do
      let value ← base.evaluate row
      if value.isNull then evaluateFallback row type rest
      else evaluateMatching row type m value rest
  | .conditional type (some _) [] => .ok (.null type)
  | .call type function addon prepared arguments => do
      let values ← evaluateAll row arguments
      if !function.acceptsNull && values.any Value.isNull then return .null type
      else
        let result ← (prepared.getD function.invoke) values
        checkValue addon type result
        return result
  | .membership equal truth needleType literals arguments => do
      let values ← evaluateAll row arguments
      match literals, values with
      | _, [] => return .integer 0
      | none, needle :: candidates => matchCandidates equal truth needle false candidates
      | some candidates, needle :: _ =>
        match (MembershipLookup.prepare equal needleType candidates {}).find needle with
        | some answer => return answer
        | none => matchCandidates equal truth needle false candidates

def evaluateAll (row : Row) : List BoundExpr → Except Error (List Value)
  | [] => .ok []
  | e :: rest => do
      let value ← e.evaluate row
      let others ← evaluateAll row rest
      return value :: others

def evaluateFirst (row : Row) (type : SqlType) : List BoundExpr → Except Error Value
  | [] => .ok (.null type)
  | e :: rest => do
      let value ← e.evaluate row
      if value.isNull then evaluateFirst row type rest else return value

/-- Only the operand that stands alone at the end. -/
def evaluateFallback (row : Row) (type : SqlType) : List BoundExpr → Except Error Value
  | [] => .ok (.null type)
  | [fallback] => fallback.evaluate row
  | _ :: _ :: rest => evaluateFallback row type rest

def evaluateSearched (row : Row) (type : SqlType) : List BoundExpr → Except Error Value
  | [] => .ok (.null type)
  | [fallback] => fallback.evaluate row
  | condition :: result :: rest => do
      let value ← condition.evaluate row
      if truthy value then result.evaluate row else evaluateSearched row type rest

def evaluateMatching (row : Row) (type : SqlType) (m : Function × TypeAddon) (base : Value) :
    List BoundExpr → Except Error Value
  | [] => .ok (.null type)
  | [fallback] => fallback.evaluate row
  | operand :: result :: rest => do
      let value ← operand.evaluate row
      if value.isNull then evaluateMatching row type m base rest
      else
        let answer ← m.1.invoke [base, value]
        checkValue m.2 integerType answer
        if truthy answer then result.evaluate row
        else evaluateMatching row type m base rest

end

/-! ## What a CHECK may be -/

/-- What `validate_check_expression` asks of one node, `nodes` having been
counted before it. -/
def checkNode (nodes depth : Nat) (scalar : Bool) (head : ExprHead) : Except Error Unit :=
  if 4096 < nodes + 1 ∨ 64 < depth then fail .schema "CHECK expression is too large"
  else if head.subquery || !head.qualifier.isEmpty || !head.parameters.isEmpty ||
      head.distinct || !scalar then
    fail .unsupported "CHECK requires row-local scalar expressions"
  else .ok ()

/-- The kinds a CHECK may use besides literals. -/
def Kind.scalar : Kind → Bool
  | .column | .call | .conditional | .coalesce | .membership => true
  | _ => false

mutual

/-- The `visit` of `validate_check_expression`: the number of nodes counted
so far goes in and comes out. -/
def visitCheck (nodes depth : Nat) : Expr → Except Error Nat
  | .literal head _ arguments => do
      checkNode nodes depth true head
      visitChecks (nodes + 1) (depth + 1) arguments
  | .node kind head arguments => do
      checkNode nodes depth kind.scalar head
      visitChecks (nodes + 1) (depth + 1) arguments

def visitChecks (nodes depth : Nat) : List Expr → Except Error Nat
  | [] => .ok nodes
  | e :: rest => do
      let nodes ← visitCheck nodes depth e
      visitChecks nodes depth rest

end

def validateCheckExpression (e : Expr) : Except Error Unit := do
  let _ ← visitCheck 0 0 e
  return ()

end CoreSql
