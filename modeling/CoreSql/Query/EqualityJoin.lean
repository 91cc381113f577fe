import CoreSql.Lib.Buckets
import CoreSql.Query.Source
import CoreSql.Query.Syntax

/-!
# Equality joins

The join loop of `run_scan`. For every left row the right rows with an equal
key are found in one of five ways: by a range of an ordered index, by the
primary index, by a hash table over integers, by a hash table over other
native keys, or by testing every row. Both hash tables are built from the
right side when the first key is looked up. Each pair goes to an acceptance
step, which may end the scan.

The integer table has a filter in front of it: one bit for each key modulo
256, used when there are few enough keys for it to tell anything.
-/

namespace CoreSql

def TypeAddon.nativeJoinKey (addon : TypeAddon) : Bool :=
  addon.nativeI64 ||
    (addon.nativeOps && addon.hash.isSome && addon.equal.isSome &&
      (addon.layout == .text || addon.layout == .f64 || addon.layout == .i128))

/-! ## Integer keys -/

/-- `IntegerJoinLookup`. The buckets are there once they are built. -/
structure IntegerJoinLookup where
  buckets : Option (List (Int × List Row)) := none
  presence : BitVec 256 := 0
  selective : Bool := false

namespace IntegerJoinLookup

def bit (key : Int) : Nat := (key % 2 ^ 64).toNat &&& 255

/-- Enter a row under its key, unless that is NULL. -/
def enter (column : Nat) (e : RowLocation × RowView) (buckets : List (Int × List Row)) :
    List (Int × List Row) :=
  let value := e.2.row.cell column
  if value.isNull then buckets else Buckets.push (· == ·) (payload value) e.2.row buckets

def presenceOf (keys : List Int) : BitVec 256 :=
  keys.foldl (fun presence key => presence ||| BitVec.twoPow 256 (bit key)) 0

/-- The first part of `find`: the table over the right rows. -/
def build (right : Source) (column : Nat) : Except Error IntegerJoinLookup := do
  let (_, buckets) ← (right.visitTableRows fun e => do
    modify (enter column e)
    return true : StateT (List (Int × List Row)) (Except Error) Bool).run []
  let selective := decide (buckets.length ≤ 128)
  return {
    buckets := some buckets
    presence := if selective then presenceOf (buckets.map Prod.fst) else 0
    selective }

/-- The lookup with its table, built unless it was before. -/
def prepared (x : IntegerJoinLookup) (right : Source) (column : Nat) :
    Except Error IntegerJoinLookup :=
  if x.buckets.isSome then .ok x else build right column

def find (x : IntegerJoinLookup) (right : Source) (column : Nat) (key : Int) :
    Except Error (List Row × IntegerJoinLookup) := do
  let x ← x.prepared right column
  if x.selective && !x.presence.getLsbD (bit key) then return ([], x)
  else return (Buckets.find (· == ·) key (x.buckets.getD []), x)

end IntegerJoinLookup

/-! ## Native keys -/

/-- The test of `NativeJoinBuckets`: equal hash numbers, then equality. -/
def TypeAddon.sameHashed (addon : TypeAddon) (parameters : Bytes) (a b : Value) : Bool :=
  match addon.hash, addon.equal with
  | some hash, some equal => hash parameters a == hash parameters b && equal parameters a b
  | _, _ => false

structure NativeJoinLookup where
  integers : IntegerJoinLookup := {}
  keys : Option (List (Value × List Row)) := none

namespace NativeJoinLookup

/-- Enter a row under its key, unless that is NULL. -/
def enter (addon : TypeAddon) (type : SqlType) (column : Nat) (e : RowLocation × RowView)
    (buckets : List (Value × List Row)) : List (Value × List Row) :=
  let value := e.2.row.cell column
  if value.isNull then buckets
  else Buckets.push (addon.sameHashed type.parameters) value e.2.row buckets

def build (addon : TypeAddon) (type : SqlType) (right : Source) (column : Nat) :
    Except Error (List (Value × List Row)) := do
  let (_, buckets) ← (right.visitTableRows fun e => do
    modify (enter addon type column e)
    return true : StateT (List (Value × List Row)) (Except Error) Bool).run []
  return buckets

def prepared (x : NativeJoinLookup) (addon : TypeAddon) (type : SqlType) (right : Source)
    (column : Nat) : Except Error (List (Value × List Row)) :=
  match x.keys with
  | some keys => .ok keys
  | none => build addon type right column

def find (x : NativeJoinLookup) (addon : TypeAddon) (type : SqlType) (right : Source)
    (column : Nat) (key : Value) : Except Error (List Row × NativeJoinLookup) :=
  if addon.nativeI64 then do
    let (rows, integers) ← x.integers.find right column (payload key)
    return (rows, { x with integers })
  else do
    let keys ← x.prepared addon type right column
    return (Buckets.find (addon.sameHashed type.parameters) key keys, { x with keys := some keys })

end NativeJoinLookup

/-! ## The join loop -/

/-- What `run_scan` knows about an equality join before the loop. -/
structure EqualityJoin where
  left : Nat
  right : Nat
  type : SqlType
  comparison : Comparison
  indexed : Bool
  ordered : Option OrderedIndex

def Scope.pair (left right : Source) (leftAlias rightAlias : Bytes) : Scope :=
  { left := left.columns, leftAlias, right := some ⟨rightAlias, right.columns⟩ }

/-- The binding of an equality join. The operands may be written in either
order. -/
def bindEqualityJoin (registry : Registry) (left right : Source) (leftAlias rightAlias : Bytes)
    (l r : QueryExpr) : Except Error EqualityJoin := do
  requireDistinctJoinAliases leftAlias rightAlias
  let scope := Scope.pair left right leftAlias rightAlias
  let width := left.columns.length
  match l, r with
  | .column lq ln, .column rq rn => do
      let a ← scope.resolve lq ln
      let b ← scope.resolve rq rn
      let x := if width ≤ a.1 then b else a
      let y := if width ≤ a.1 then a else b
      if width ≤ x.1 ∨ y.1 < width then
        fail .schema "Join must compare columns from different sides"
      if x.2 ≠ y.2 then fail .type "Join operand types differ"
      let comparison ← Comparison.create registry x.2 true
      return {
        left := x.1
        right := y.1 - width
        type := x.2
        comparison
        indexed := right.primary.any fun b => b.column == y.1 - width
        ordered := right.ordered.find? fun i => i.columns.head? == some (y.1 - width) }
  | _, _ => fail .schema "Join operands must be columns"

section

variable {σ : Type} (registry : Registry) (right : Source)
  (accept : RowView → Row → StateT σ (Except Error) Bool)

/-- The right rows of one left row, by whichever way was chosen. -/
def joinRow (j : EqualityJoin) (l : RowView) :
    StateT NativeJoinLookup (StateT σ (Except Error)) Bool :=
  let value := l.row.cell j.left
  if value.isNull then pure true
  else
    match j.ordered with
    | some x =>
      Visit.visit (fun location => do
        let other ← (right.indexedRow location : Except Error _)
        accept l other) ((x.range value value).mergeSort fun a b => a ≤ b)
    | none =>
      if j.indexed then do
        match ← (right.toTable.lookup value : Except Error _) with
        | none => return true
        | some location => do
            let other ← (right.indexedRow location : Except Error _)
            accept l other
      else do
        let addon ← (registry.addon j.type : Except Error _)
        if addon.nativeJoinKey then do
          let (rows, lookup) ← ((← get).find addon j.type right j.right value : Except Error _)
          set lookup
          Visit.visit (fun other => accept l other) rows
        else
          right.visitTableRows fun e =>
            if j.comparison.equal value (e.2.row.cell j.right) then accept l e.2.row
            else pure true

def crossRow (l : RowView) : StateT NativeJoinLookup (StateT σ (Except Error)) Bool :=
  right.visitTableRows fun e => accept l e.2.row

/-- The join loop of `run_scan`, with the check for an empty right side
before it; without an equality it is a cross join. -/
def joinScan (left : Source) (join : Option EqualityJoin) :
    StateT NativeJoinLookup (StateT σ (Except Error)) Bool :=
  if right.rowCount = 0 then pure true
  else
    left.visitTableRows fun e =>
      match join with
      | some j => joinRow registry right accept j e.2
      | none => crossRow right accept e.2

end

end CoreSql
