import CoreSql.Query.Candidates

/-!
# Joins with a filtered right side

`run_filtered_join`: the right side of a join is filtered before anything
else is evaluated. A repeatable query keeps the locations of the rows that
pass and goes on over a selection of the table, any other materialises them
and goes on over a table of its own.

The loop of the repeatable path tests each row against the predicate
`candidates` was given, which that call may have emptied. What the language
says about using it then is nothing, and `Fault.undefined` stands for that.
How the join goes on is left open. The query it runs has the flag it had and
so remembers or shares results, or does not; that the right side is a
selection says which.
-/

namespace CoreSql

/-- How a computation can end without a result: by an exception, or outside
what the language defines. -/
inductive Fault where
  | error (e : Error)
  | undefined
  deriving DecidableEq

/-- `predicate->matches(row)` on a `std::optional` nobody looked into. -/
def uncheckedMatches : Option BoundPredicate → RowView → Except Fault Bool
  | none, _ => .error .undefined
  | some p, v => (p.matches v).mapError .error

/-- The right rows a repeatable query selects. -/
def selectRight (registry : Registry) (right : Table) (rightWhere : BoundPredicate) :
    Except Fault (List (RowLocation × RowView)) := do
  let (selected, residual) ← (candidates right (some rightWhere) registry).mapError .error
  scanGroups .error right (uncheckedMatches residual)
    (right.groups (selected.map IndexResult.rows))

/-- What the query goes on with: `table_subset`, a selection of the rows of the table, or a table
`materialize` made. Row identities are those of the source in the one and new in the other, but no
expression of a join can ask for them. -/
inductive RightSide where
  | subset (selected : List (RowLocation × RowView))
  | materialized (rows : List Row)

def RightSide.rows : RightSide → List Row
  | subset selected => selected.map fun e => e.2.row
  | materialized rows => rows

/-- `run_filtered_join` with a nonzero limit. `probe` is the run with limit 0 it starts with, and
`rest` the query over the right rows that are left: repeatable over a selection, and not over a
table that was materialised. -/
def runFilteredJoin {ρ : Type} (registry : Registry) (right : Table) (rightWhere : BoundPredicate)
    (repeatable : Bool) (probe : Except Error Unit) (rest : RightSide → Except Error ρ) :
    Except Fault ρ := do
  probe.mapError .error
  if repeatable then
    let selected ← selectRight registry right rightWhere
    (rest (.subset selected)).mapError .error
  else
    let found ← (scan registry right (some rightWhere)).mapError .error
    (rest (.materialized (found.map fun e => e.2.row))).mapError .error

end CoreSql
