import CoreSql.Lib.Classes
import CoreSql.Query.Reduce

/-!
# The table of groups

`GroupTable` has three ways to find the group of a key: by the payload of an
integer, with a slot of its own for NULL, by a hash of the whole key, or in an
ordered map. With the first two, groups are numbered in the order in which they
were met and sorted when all rows have been read. Which way is taken depends on
the types of the keys. A query that is not repeatable always takes the ordered
map, and compares rows in another way there, which is left out.

`Query.Reduce` says only when two keys are the same.
-/

namespace CoreSql

/-- How a table finds its groups: `native_`, `hashed_`, or neither. -/
inductive GroupStrategy where
  | native | hashed | ordered
  deriving DecidableEq

/-- `GroupTable`. A reference to a state is the number of its entry. -/
structure GroupTable (σ : Type) where
  strategy : GroupStrategy
  less : List Comparison
  columns : List (SqlType × TypeAddon)
  ordered : List (Row × σ) := []
  integers : List (Int × Nat) := []
  null : Option Nat := none
  entries : List (Row × σ) := []
  hashedMap : List (Row × Nat) := []

/-- What a strategy asks of the types of the keys. -/
def GroupStrategy.Applies (addons : List TypeAddon) : GroupStrategy → Prop
  | .native => addons.length = 1 ∧ addons.all TypeAddon.nativeI64 = true
  | .hashed => addons.all TypeAddon.hashableGroup = true
  | .ordered => True

namespace GroupTable

variable {σ : Type}

def slots (t : GroupTable σ) : List (Row × σ) :=
  match t.strategy with
  | .ordered => t.ordered
  | _ => t.entries

def sameHashed (columns : List (SqlType × TypeAddon)) (a b : Row) : Bool :=
  keyHash columns a == keyHash columns b && keyEqual columns a b

/-- `lower_bound` in the ordered map. -/
def lowerBound (t : GroupTable σ) (key : Row) : Nat :=
  t.ordered.findIdx fun e => !rowLess t.less e.1 key

def find (t : GroupTable σ) (key : Row) : Option Nat :=
  match t.strategy with
  | .native =>
    if (key.cell 0).isNull then t.null else t.integers.lookup (payload (key.cell 0))
  | .hashed => (t.hashedMap.find? fun e => sameHashed t.columns e.1 key).map Prod.snd
  | .ordered =>
    match t.ordered[t.lowerBound key]? with
    | some e => if rowLess t.less key e.1 then none else some (t.lowerBound key)
    | none => none

def newNumber (t : GroupTable σ) (key : Row) : Nat :=
  match t.strategy with
  | .ordered => t.lowerBound key
  | _ => t.entries.length

def add (t : GroupTable σ) (key : Row) (state : σ) : GroupTable σ :=
  match t.strategy with
  | .native =>
    let t' := { t with entries := t.entries ++ [(key, state)] }
    if (key.cell 0).isNull then { t' with null := some t.entries.length }
    else { t' with integers := (payload (key.cell 0), t.entries.length) :: t.integers }
  | .hashed =>
    { t with
      entries := t.entries ++ [(key, state)]
      hashedMap := t.hashedMap ++ [(key, t.entries.length)] }
  | .ordered =>
    let n := t.lowerBound key
    { t with ordered := t.ordered.take n ++ (key, state) :: t.ordered.drop n }

def get (t : GroupTable σ) (key : Row) (create : Except Error σ) :
    Except Error (Nat × GroupTable σ) :=
  match t.find key with
  | some n => .ok (n, t)
  | none => do
      let state ← create
      return (t.newNumber key, t.add key state)

/-- What is done with the state a reference leads to. -/
def feed (t : GroupTable σ) (n : Nat) (step : σ → Except Error σ) : Except Error (GroupTable σ) :=
  match t.strategy with
  | .ordered => do
      let ordered ← Classes.feedAt step n t.ordered
      return { t with ordered }
  | _ => do
      let entries ← Classes.feedAt step n t.entries
      return { t with entries }

/-- The groups as `finish` visits them. No two keys are the same, so that it
does not matter how `std::sort` sorts. -/
def finish (t : GroupTable σ) : List (Row × σ) :=
  match t.strategy with
  | .ordered => t.ordered
  | _ => t.entries.mergeSort fun a b => !rowLess t.less b.1 a.1

end GroupTable

/-! ## Grouping rows -/

/-- What the aggregates of a group were given. -/
abbrev Given := List (List Row)

section

variable (aggregates : List BoundAggregate) (width : Nat)

/-- `states`. -/
def newStates : Given := aggregates.map fun _ => []

def GroupTable.consume (row : Row) (t : GroupTable Given) : Except Error (GroupTable Given) := do
  let (n, t) ← t.get (row.take width) (.ok (newStates aggregates))
  t.feed n fun given => feedAll aggregates given (row.drop width)

/-- Without keys there is a group before the first row. -/
def GroupTable.started (t : GroupTable Given) : Except Error (GroupTable Given) :=
  if width = 0 then do
    let (_, t) ← t.get [] (.ok (newStates aggregates))
    return t
  else .ok t

/-- The groups of some rows, as they are visited in the end. -/
def GroupTable.groupRows (t : GroupTable Given) (rows : List Row) :
    Except Error (List (Row × Given)) := do
  let t ← t.started aggregates width
  let t ← rows.foldlM (fun t row => t.consume aggregates width row) t
  return t.finish

end

/-! ## What the groups are -/

/-- The rows an aggregate is given: for DISTINCT the first of equal ones. -/
def BoundAggregate.given (a : BoundAggregate) (rows : List Row) : List Row :=
  if a.distinct then rows.foldl (addDistinct a.order) [] else rows

/-- The part of each row that belongs to each aggregate. -/
def givenAll : List BoundAggregate → List Row → Given
  | [], _ => []
  | a :: as, rows =>
    a.given (rows.map fun row => row.take a.types.length) ::
      givenAll as (rows.map fun row => row.drop a.types.length)

/-- Without keys there is a class before the first row. -/
def startKeys (width : Nat) : List Row := if width = 0 then [[]] else []

/-- The first keys of the classes, in ascending order. -/
def classKeys (order : List Comparison) (width : Nat) (rows : List Row) : List Row :=
  ((rows.map fun row => row.take width).foldl (addDistinct order) (startKeys width)).mergeSort
    fun a b => !rowLess order b a

def classRows (order : List Comparison) (width : Nat) (rows : List Row) (key : Row) : List Row :=
  rows.filter fun row => rowSame order key (row.take width)

/-- The aggregates of a class are given its rows, one after the other. -/
def classGiven (order : List Comparison) (aggregates : List BoundAggregate) (width : Nat)
    (rows : List Row) (key : Row) : Except Error Given :=
  (classRows order width rows key).foldlM
    (fun given row => feedAll aggregates given (row.drop width)) (newStates aggregates)

/-- One group for each class of keys, with what its aggregates are given. -/
def referenceGroups (order : List Comparison) (aggregates : List BoundAggregate) (width : Nat)
    (rows : List Row) : List (Row × Given) :=
  (classKeys order width rows).map fun key =>
    (key, givenAll aggregates ((classRows order width rows key).map fun row => row.drop width))

end CoreSql
