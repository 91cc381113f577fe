import CoreSql.Query.Predicate

/-!
# Expressions of a query

Expressions as a caller writes them, and the scope in which their columns are
resolved.

A node of an expression is a column, a literal, a row identity, a captured
parameter, an aggregate, or something applied to arguments: a function, a
conditional, a coalescing, a membership test or a nested query. A nested
query is known by a number. It runs on the snapshot of the query around it
and sees nothing of that query but the values of its arguments, so that for
the query around it it is one more operation on values.
-/

namespace CoreSql

inductive Symbol where
  | call (function : Bytes)
  | conditional (equality : Bytes)
  | coalesce
  | membership (equality : Bytes)
  | nested (number : Nat)
  deriving DecidableEq

/-- `Expr`, as queries use it. -/
inductive QueryExpr where
  | column (qualifier name : Bytes)
  | literal (value : Value)
  | rowId
  | parameter (name : Bytes)
  | aggregate (function : Bytes) (distinct : Bool) (arguments : List QueryExpr)
  | apply (symbol : Symbol) (arguments : List QueryExpr)

/-! ## Scopes -/

/-- A table of a scope: its alias and its columns. -/
structure Side where
  aliasName : Bytes
  columns : List Column

/-- `Scope`: the columns a name can refer to. Of the tables only the columns
are read here. -/
structure Scope where
  left : List Column
  leftAlias : Bytes := []
  right : Option Side := none
  third : Option Side := none

namespace Scope

def width (side : Option Side) : Nat := (side.map fun s => s.columns.length).getD 0

/-- The columns a qualifier selects, and the position of the first. -/
def side (s : Scope) (qualifier : Bytes) : Except Error (List Column × Nat) :=
  if (s.right.isSome || s.third.isSome) && qualifier.isEmpty then
    fail .schema "Joined columns require an alias"
  else if qualifier.isEmpty then .ok (s.left, 0)
  else
    match s.third.filter fun t => t.aliasName == qualifier with
    | some t => .ok (t.columns, s.left.length + width s.right)
    | none =>
      match s.right.filter fun t => t.aliasName == qualifier with
      | some t => .ok (t.columns, s.left.length)
      | none =>
        if qualifier ≠ s.leftAlias then
          .error ⟨.schema, lit "Unknown column alias: " ++ qualifier⟩
        else .ok (s.left, 0)

def resolve (s : Scope) (qualifier name : Bytes) : Except Error (Nat × SqlType) := do
  let (columns, offset) ← s.side qualifier
  match columns.findIdx? fun c => c.name == name with
  | none => .error ⟨.schema, lit "Unknown column: " ++ name⟩
  | some i => .ok (offset + i, (columns[i]?.map Column.type).getD integerType)

end Scope

def requireDistinctJoinAliases (base other : Bytes) : Except Error Unit :=
  if base.isEmpty || other.isEmpty || base == other then
    fail .schema "Join requires two distinct nonempty aliases"
  else .ok ()

end CoreSql
