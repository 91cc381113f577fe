import CoreSql.Query.Bound
import CoreSql.Query.EqualityJoin
import CoreSql.Query.OrderedScan
import CoreSql.Query.Syntax

/-!
# What a scan keeps

`run_scan` binds everything first, so that a query is rejected whether or not
it has rows; then the rows go one by one through an acceptance step that tests
WHERE, computes the sort keys and keeps what may be part of the result.

Here are what it has bound, the order of what it kept, and the parts of the
acceptance step: the early test, the sort keys and the projection. The walk
over the rows is in the modules of the single paths (`Query.TopK`,
`Query.OrderedScan`, `Query.Candidates`).
-/

namespace CoreSql

/-- `Result`. -/
structure QueryResult where
  types : List SqlType := []
  rows : List Row := []
  deriving DecidableEq

/-! ## Binding -/

structure BoundOrder where
  expression : Bound
  comparison : Comparison
  descending : Bool

/-- What `run_scan` has bound before it reads a row. -/
structure BoundScan where
  projection : List Bound
  order : List BoundOrder
  early : Option BoundPredicate := none
  limit : Option Nat
  bounded : Bool

def BoundScan.types (b : BoundScan) : List SqlType := b.projection.map Bound.type

/-! ## Acceptance -/

/-- A row that passed, with its keys and its number. -/
structure Match where
  row : RowView
  keys : List Value
  ordinal : Nat

/-- The comparison of two rows by their keys. -/
def compareSortKeys : List BoundOrder → List Value → List Value → Int
  | o :: os, a :: as, b :: bs =>
    let c := o.comparison.compare a b
    if c ≠ 0 then if o.descending then -c else c else compareSortKeys os as bs
  | _, _, _ => 0

/-- `before`: ties are broken by the order in which rows were met. -/
def Match.before (order : List BoundOrder) (a b : Match) : Bool :=
  let c := compareSortKeys order a.keys b.keys
  if c ≠ 0 then c < 0 else a.ordinal < b.ordinal

def insertMatch (order : List BoundOrder) (kept : List Match) (m : Match) : List Match :=
  kept.orderedInsert (fun x y => x.before order y) m

/-- `std::stable_sort` by `before`. -/
def sortMatches (order : List BoundOrder) (found : List Match) : List Match :=
  found.foldl (insertMatch order) []

/-- What the acceptance step has kept, and how many rows have passed. -/
structure Found where
  kept : List Match := []
  ordinal : Nat := 0

namespace BoundScan

variable (b : BoundScan)

/-- Whether the early test lets a row through: UNKNOWN does, because a later
part of WHERE may still have to run. -/
def passesEarly (v : RowView) : Except Error Bool :=
  match b.early with
  | none => .ok true
  | some p => do return (← p.truth v) ≠ .no

def keys (v : RowView) : Except Error (List Value) :=
  b.order.mapM fun o => o.expression.evaluate v

def project (v : RowView) : Except Error Row :=
  b.projection.mapM fun e => e.evaluate v

end BoundScan

end CoreSql
