import CoreSql.Data.Table

/-!
# Predicates

WHERE clauses: comparisons and memberships under AND, OR and NOT, evaluated
left to right with three truth values. AND stops on FALSE and OR on TRUE;
UNKNOWN stops neither, so that what comes after it is still evaluated and can
still fail.

An operand is what the rest of the engine can tell about a bound expression:
a column, a literal, or something that has to be computed. Subqueries, row
identities and calls are all of the last kind, and what they compute is left
open, so that whatever holds of predicates here holds of every expression the
engine can bind.
-/

namespace CoreSql

/-- What a bound expression reads: a row, and its identity where there is
one. -/
structure RowView where
  row : Row
  id : Option Nat := none

/-- A bound expression, as index selection tells them apart. -/
inductive Operand where
  | column (type : SqlType) (index : Nat)
  | literal (type : SqlType) (value : Value)
  | computed (type : SqlType) (evaluate : RowView → Except Error Value)

namespace Operand

def type : Operand → SqlType
  | column type _ => type
  | literal type _ => type
  | computed type _ => type

def inspect (v : RowView) : Operand → Except Error Value
  | column _ index => .ok (v.row.cell index)
  | literal _ value => .ok value
  | computed _ evaluate => evaluate v

def ofExpr : BoundExpr → Operand
  | .column type index => column type index
  | .literal type value => literal type value
  | e => computed e.type fun v => e.evaluate v.row

end Operand

/-! ## Comparisons -/

inductive Compare where
  | equal | notEqual | less | greater | lessEqual | greaterEqual
  deriving DecidableEq

/-- Whether the operation asks for equality rather than order. -/
def Compare.equality : Compare → Bool
  | equal | notEqual => true
  | _ => false

/-- The same comparison with its sides exchanged. -/
def Compare.swap : Compare → Compare
  | less => greater
  | lessEqual => greaterEqual
  | greater => less
  | greaterEqual => lessEqual
  | op => op

structure Comparison where
  parameters : Bytes
  addon : TypeAddon

namespace Comparison

/-- `Comparison(registry, type, equality)`. -/
def create (registry : Registry) (type : SqlType) (equality : Bool) : Except Error Comparison := do
  let addon ← registry.addon type
  registry.validateType type
  if (if equality then addon.equal.isNone else addon.compare.isNone) then
    .error ⟨.unsupported, lit "Type does not support comparison: " ++ type.id⟩
  return ⟨type.parameters, addon⟩

def compare (c : Comparison) (a b : Value) : Int :=
  if a.isNull || b.isNull then compareNulls a b
  else
    match c.addon.compare with
    | some compare => compare c.parameters a b
    | none => 0

def equal (c : Comparison) (a b : Value) : Bool :=
  if a.isNull || b.isNull then a.isNull && b.isNull
  else
    match c.addon.equal with
    | some equal => equal c.parameters a b
    | none => false

end Comparison

/-- What an operation says about two values that are not NULL. -/
def Compare.holds (c : Comparison) (a b : Value) : Compare → Bool
  | equal => c.equal a b
  | notEqual => !c.equal a b
  | less => c.compare a b < 0
  | greater => 0 < c.compare a b
  | lessEqual => c.compare a b ≤ 0
  | greaterEqual => 0 ≤ c.compare a b

structure BoundLeaf where
  left : Operand
  right : Operand
  operation : Compare
  comparison : Comparison

def BoundLeaf.values (leaf : BoundLeaf) (a b : Value) : Bool :=
  if a.isNull || b.isNull then false else leaf.operation.holds leaf.comparison a b

/-- `BoundMembership`; the binding is that of an index without entries. -/
structure BoundMembership where
  left : Operand
  right : Operand
  extractor : Bytes
  binding : KeyIndex

def KeyIndex.matches (x : KeyIndex) (source key : Value) : Except Error Bool := do
  let keys ← x.keys source
  return keys.any fun candidate => x.equal candidate key

/-! ## Truth -/

/-- The three truth values; the source writes 0, 1 and -1. -/
inductive Truth where
  | no | yes | unknown
  deriving DecidableEq

namespace Truth

def ofBool : Bool → Truth
  | true => yes
  | false => no

def not : Truth → Truth
  | no => yes
  | yes => no
  | unknown => unknown

end Truth

def BoundMembership.truth (m : BoundMembership) (v : RowView) : Except Error Truth := do
  let source ← m.left.inspect v
  let key ← m.right.inspect v
  if source.isNull || key.isNull then return .unknown
  return .ofBool (← m.binding.matches source key)

/-- The comparison case of `truth`. -/
def BoundLeaf.truth (leaf : BoundLeaf) (v : RowView) : Except Error Truth := do
  let a ← leaf.left.inspect v
  let b ← leaf.right.inspect v
  if a.isNull || b.isNull then return .unknown
  return .ofBool (leaf.values a b)

inductive BoundPredicate where
  | comparison (leaf : BoundLeaf)
  | contains (membership : BoundMembership)
  | all (children : List BoundPredicate)
  | any (children : List BoundPredicate)
  | negation (child : BoundPredicate)

mutual

def BoundPredicate.truth (v : RowView) : BoundPredicate → Except Error Truth
  | .comparison leaf => leaf.truth v
  | .contains membership => membership.truth v
  | .all children => truthAll v .yes children
  | .any children => truthAny v .no children
  | .negation child => do
      let t ← child.truth v
      return t.not

def truthAll (v : RowView) (result : Truth) : List BoundPredicate → Except Error Truth
  | [] => .ok result
  | child :: rest => do
      match ← child.truth v with
      | .no => return .no
      | .unknown => truthAll v .unknown rest
      | .yes => truthAll v result rest

def truthAny (v : RowView) (result : Truth) : List BoundPredicate → Except Error Truth
  | [] => .ok result
  | child :: rest => do
      match ← child.truth v with
      | .yes => return .yes
      | .unknown => truthAny v .unknown rest
      | .no => truthAny v result rest

end

def BoundPredicate.matches (p : BoundPredicate) (v : RowView) : Except Error Bool := do
  let t ← p.truth v
  return t = .yes

/-- A clause that may be absent, or may have been emptied; then it is TRUE. -/
def optionalTruth (v : RowView) : Option BoundPredicate → Except Error Truth
  | none => .ok .yes
  | some p => p.truth v

/-- `!predicate || predicate->matches(row)`. -/
def optionalMatches (p : Option BoundPredicate) (v : RowView) : Except Error Bool := do
  let t ← optionalTruth v p
  return t = .yes

/-! ## Binding -/

/-- `Predicate::Kind`. -/
inductive PredicateKind where
  | comparison | all | any | negation | contains
  deriving DecidableEq

inductive Predicate where
  | node (kind : PredicateKind) (left : Expr) (operation : Compare) (right : Expr)
      (extractor : Bytes) (children : List Predicate)

/-- `Registry::extractor`, with the add-on its keys were registered under. -/
def Registry.extractor (registry : Registry) (name : Bytes) :
    Except Error (KeyExtractor × TypeAddon) :=
  match registry.indexes name with
  | some (.key extractor addon) => .ok (extractor, addon)
  | _ => .error ⟨.type, lit "Missing key extractor: " ++ name⟩

/-- The membership case of `bind_condition`. -/
def bindMembershipTest (registry : Registry) (columns : List Column) (depth : Nat)
    (left right : Expr) (name : Bytes) : Except Error BoundMembership := do
  let left ← bind registry columns depth left
  let right ← bind registry columns depth right
  let (extractor, addon) ← registry.extractor name
  if left.type ≠ extractor.sourceType ∨ right.type ≠ extractor.keyType then
    fail .type "Membership operand types differ from extractor"
  return ⟨.ofExpr left, .ofExpr right, name, { extractor, addon }⟩

/-- The comparison case of `bind_condition`. -/
def bindComparison (registry : Registry) (columns : List Column) (depth : Nat) (left : Expr)
    (operation : Compare) (right : Expr) : Except Error BoundLeaf := do
  let left ← bind registry columns depth left
  let right ← bind registry columns depth right
  if left.type ≠ right.type then fail .type "Predicate operand types differ"
  let comparison ← Comparison.create registry left.type operation.equality
  return ⟨.ofExpr left, .ofExpr right, operation, comparison⟩

mutual

/-- `bind_condition`: the number of nodes counted so far goes in and comes
out. -/
def bindCondition (registry : Registry) (columns : List Column) (depth nodes : Nat) :
    Predicate → Except Error (BoundPredicate × Nat)
  | .node kind left operation right extractor children =>
    if 64 < depth ∨ 4096 < nodes + 1 then
      fail .schema "Predicate exceeds depth 64 or 4096 nodes"
    else
      match kind with
      | .contains =>
        if !children.isEmpty then fail .schema "Membership cannot have child predicates"
        else do
          let m ← bindMembershipTest registry columns depth left right extractor
          return (.contains m, nodes + 1)
      | .comparison =>
        if !children.isEmpty then fail .schema "Comparison cannot have child predicates"
        else do
          let leaf ← bindComparison registry columns depth left operation right
          return (.comparison leaf, nodes + 1)
      | .all => do
          let (bound, nodes) ← bindConditions registry columns (depth + 1) (nodes + 1) children
          return (.all bound, nodes)
      | .any => do
          let (bound, nodes) ← bindConditions registry columns (depth + 1) (nodes + 1) children
          return (.any bound, nodes)
      | .negation =>
        if children.length ≠ 1 then fail .schema "NOT requires one child"
        else do
          let (bound, nodes) ← bindConditions registry columns (depth + 1) (nodes + 1) children
          match bound with
          | [child] => return (.negation child, nodes)
          | _ => fail .schema "NOT requires one child"

def bindConditions (registry : Registry) (columns : List Column) (depth nodes : Nat) :
    List Predicate → Except Error (List BoundPredicate × Nat)
  | [] => .ok ([], nodes)
  | child :: rest => do
      let (bound, nodes) ← bindCondition registry columns depth nodes child
      let (others, nodes) ← bindConditions registry columns depth nodes rest
      return (bound :: others, nodes)

end

end CoreSql
