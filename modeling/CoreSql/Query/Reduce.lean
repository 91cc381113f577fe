import CoreSql.Query.FilteredJoin
import CoreSql.Query.Scan

/-!
# Grouping and duplicates

The rows of a group are told apart by an order of rows, or by a hash and an
equality of the grouping columns where their types have native ones. An
aggregate is given the rows of its group one after the other; with DISTINCT,
only the first of equal ones.
-/

namespace CoreSql

/-! ## The order of rows -/

/-- The comparisons of `QueryRowLess` in a repeatable query. In any other it asks
`Registry::compare` for every two values; that branch is left out. -/
def Registry.rowOrder (registry : Registry) (types : List SqlType) :
    Except Error (List Comparison) :=
  types.mapM fun type => Comparison.create registry type false

def compareRows : List Comparison → Row → Row → Int
  | c :: cs, a :: as, b :: bs =>
    let r := c.compare a b
    if r ≠ 0 then r else compareRows cs as bs
  | _, _, _ => 0

/-- `QueryRowLess`. -/
def rowLess (order : List Comparison) (a b : Row) : Bool := compareRows order a b < 0

/-- What an ordered container takes for the same. -/
def rowSame (order : List Comparison) (a b : Row) : Bool := !rowLess order a b && !rowLess order b a

def takeLimit {α : Type} : Option Nat → List α → List α
  | none, l => l
  | some n, l => l.take n

/-! ## DISTINCT -/

def addDistinct (order : List Comparison) (rows : List Row) (row : Row) : List Row :=
  if rows.any fun r => rowSame order r row then rows else rows ++ [row]

/-! ## Grouping: the groups -/

/-- `AggregateFunction`, of which grouping calls `step`. The state of an
aggregate is the list of the argument rows it was given. -/
structure AggregateFunction where
  step : List SqlType → List Row → Row → Except Error Unit

/-- An aggregate, bound. The order is there for DISTINCT. -/
structure BoundAggregate where
  function : AggregateFunction
  types : List SqlType
  distinct : Bool
  order : List Comparison

/-- Give an aggregate a row; `DistinctAggregate` passes on only the first of
equal ones. -/
def BoundAggregate.feed (a : BoundAggregate) (history : List Row) (row : Row) :
    Except Error (List Row) :=
  if a.distinct && history.any fun r => rowSame a.order r row then .ok history
  else do
    a.function.step a.types history row
    return history ++ [row]

/-- Give every aggregate of a group its part of a row. -/
def feedAll : List BoundAggregate → List (List Row) → Row → Except Error (List (List Row))
  | a :: as, history :: histories, row => do
      let history ← a.feed history (row.take a.types.length)
      let histories ← feedAll as histories (row.drop a.types.length)
      return history :: histories
  | _, _, _ => .ok []

def TypeAddon.hashableGroup (addon : TypeAddon) : Bool :=
  addon.nativeOps && addon.hash.isSome && addon.equal.isSome && addon.compare.isSome

/-- The key of one column of native integers. -/
def nativeSame (a b : Row) : Bool :=
  if (a.cell 0).isNull || (b.cell 0).isNull then (a.cell 0).isNull && (b.cell 0).isNull
  else payload (a.cell 0) == payload (b.cell 0)

/-- One column of `KeyHash::mix`. -/
def mixHash (hash : UInt64) (e : (SqlType × TypeAddon) × Value) : UInt64 :=
  let part : UInt64 :=
    match e.2.isNull, e.1.2.hash with
    | false, some h => UInt64.ofNat (h e.1.1.parameters e.2) + 1
    | _, _ => 0
  hash ^^^ (part + (0x9e3779b97f4a7c15 : UInt64) + (hash <<< (6 : UInt64)) +
    (hash >>> (2 : UInt64)))

def keyHash (columns : List (SqlType × TypeAddon)) (row : Row) : UInt64 :=
  (columns.zip row).foldl mixHash 0

def keyEqual : List (SqlType × TypeAddon) → Row → Row → Bool
  | (type, addon) :: columns, a :: as, b :: bs =>
    (if a.isNull || b.isNull then a.isNull && b.isNull
      else addon.equal.any fun equal => equal type.parameters a b) && keyEqual columns as bs
  | _, _, _ => true

end CoreSql
