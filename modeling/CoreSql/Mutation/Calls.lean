import CoreSql.Mutation.Schema
import CoreSql.Txn.Transaction

/-!
# The mutating calls of a transaction

Two calls run more than one mutation and protect themselves with a savepoint:
`replace` and `insert_from`. What a savepoint does is the subject of
`Txn.Transaction`; here only its outcome for the staged state appears.

`Call` lists every mutating call of the public interface. `update`,
`update_returning` and `update_if` differ in what they report, and so do
`erase` and `erase_returning`, except that an unconditional erase takes its
short path only when no rows are asked for.
-/

namespace CoreSql

open Prog

structure Result where
  types : List SqlType
  rows : List Row

/-! ## Replace and insert-from -/

/-- The rows one unique index would not let a row stand beside. -/
def uniqueConflicts (row : Row) (x : OrderedIndex) : Except Error (List RowLocation) :=
  if x.definition.unique && !(x.key row).any Value.isNull then x.equal (x.key row) else .ok []

/-- The first half of `replace`: the completed row and what it conflicts
with. -/
def findConflicts (registry : Registry) (name : Bytes) (row : Row) :
    Prog (Row × List RowLocation) := do
  let tables ← readTables
  let t ← lift (requireTable tables name)
  let row ← lift (prepareRow row t.columns registry)
  let primary ← lift (match t.primary with
    | none => .ok none
    | some b => t.lookup (row.cell b.column))
  let unique ← lift (t.ordered.mapM (uniqueConflicts row))
  return (row, primary.toList ++ unique.flatten)

/-- The checks `insert_from` makes on the projection, and its rows. -/
def projectedRows (name : Bytes) (query : Tables → Except Error Result) : Prog (List Row) := do
  let tables ← readTables
  let t ← lift (requireTable tables name)
  let result ← lift (query tables)
  failIf (t.columns.length < result.types.length) .schema "Insertion projection is too wide"
  failIf ((t.columns.zip result.types).any fun e => e.1.type != e.2) .type
    "Insertion projection type differs"
  failIf ((t.columns.drop result.types.length).any fun c => c.defaultValue.isNone) .schema
    "Missing insertion column default"
  return result.rows

namespace Calls

/-- A body inside a savepoint, which is released when the body returns; when an
error leaves it, the rollback restores the staged state and the dirty flag. -/
def guarded (body : Staged → Except Error Unit × Staged) (s : Staged) :
    Except Error Unit × Staged :=
  match body s with
  | (.ok (), s') => (.ok (), s')
  | (.error e, _) => (.error e, s)

def andThen (first second : Staged → Except Error Unit × Staged) (s : Staged) :
    Except Error Unit × Staged :=
  match first s with
  | (.ok (), s) => second s
  | (.error e, s) => (.error e, s)

def quietly {α : Type} (p : Prog α) (s : Staged) : Except Error Unit × Staged :=
  match p.execute s with
  | (.ok _, s) => (.ok (), s)
  | (.error e, s) => (.error e, s)

def replace (registry : Registry) (name : Bytes) (row : Row) (s : Staged) :
    Except Error Unit × Staged :=
  match (findConflicts registry name row).execute s with
  | (.error e, s) => (.error e, s)
  | (.ok (row, []), s) => quietly (insertImpl registry name row none) s
  | (.ok (row, conflicts), s) =>
    guarded (andThen
      (quietly (eraseImpl registry name none (some conflicts) false))
      (quietly (insertImpl registry name row none))) s

/-- The loop of `insert_from`. -/
def insertRows (registry : Registry) (name : Bytes) (replacing : Bool) :
    List Row → Staged → Except Error Unit × Staged
  | [], s => (.ok (), s)
  | row :: rest, s =>
    andThen
      (if replacing then replace registry name row
        else quietly (insertImpl registry name row none))
      (insertRows registry name replacing rest) s

def insertFrom (registry : Registry) (name : Bytes) (query : Tables → Except Error Result)
    (replacing : Bool) (s : Staged) : Except Error Unit × Staged :=
  match (projectedRows name query).execute s with
  | (.error e, s) => (.error e, s)
  | (.ok rows, s) => guarded (insertRows registry name replacing rows) s

end Calls

/-! ## The calls -/

/-- Every mutating call of `Transaction`. -/
inductive Call where
  | insert (name : Bytes) (row : Row)
  | update (name : Bytes) (assignments : List Assignment) (filter condition : Option Filter)
  | erase (name : Bytes) (filter : Option Filter) (returning : Bool)
  | replace (name : Bytes) (row : Row)
  | insertFrom (name : Bytes) (query : Tables → Except Error Result) (replacing : Bool)
  | createTable (name : Bytes) (columns : List Column)
  | createIndex (name : Bytes) (definition : IndexDefinition)
  | addColumn (name : Bytes) (column : Column)
  | setConstraints (name : Bytes) (constraints : TableConstraints)
  | dropTable (name : Bytes)
  | dropIndex (name index : Bytes)
  | renameTable (name replacement : Bytes)
  | renameColumn (name column replacement : Bytes)
  | vacuum

inductive Report where
  | done
  | updated (outcome : Outcome)
  | erased (count : Nat) (rows : List Row)

def reporting (x : Except Error Unit × Staged) : Except Error Report × Staged :=
  (x.1.map fun _ => .done, x.2)

/-- Run a program and turn its answer into a report. -/
def Prog.report {α : Type} (p : Prog α) (f : α → Report) (s : Staged) :
    Except Error Report × Staged :=
  ((p.execute s).1.map f, (p.execute s).2)

def Call.run (registry : Registry) : Call → Staged → Except Error Report × Staged
  | insert name row => (insertImpl registry name row none).report fun _ => .done
  | update name assignments filter condition =>
    (updateImpl registry name assignments filter condition).report .updated
  | erase name filter returning =>
    (eraseImpl registry name filter none returning).report fun r => .erased r.1 r.2
  | replace name row => fun s => reporting (Calls.replace registry name row s)
  | insertFrom name query replacing =>
    fun s => reporting (Calls.insertFrom registry name query replacing s)
  | createTable name columns => (CoreSql.createTable registry name columns).report fun _ => .done
  | createIndex name definition =>
    (CoreSql.createIndex registry name definition).report fun _ => .done
  | addColumn name column => (CoreSql.addColumn registry name column).report fun _ => .done
  | setConstraints name constraints =>
    (CoreSql.setConstraints registry name constraints).report fun _ => .done
  | dropTable name => (CoreSql.dropTable name).report fun _ => .done
  | dropIndex name index => (CoreSql.dropIndex registry name index).report fun _ => .done
  | renameTable name replacement =>
    (CoreSql.renameTable registry name replacement).report fun _ => .done
  | renameColumn name column replacement =>
    (CoreSql.renameColumn registry name column replacement).report fun _ => .done
  | vacuum => (CoreSql.vacuum registry).report fun _ => .done

/-- A call as the transaction layer sees it: an error or none, and the new
staged state and dirty flag. -/
def Call.effect (registry : Registry) (c : Call) (s : State) (dirty : Bool) :
    Option Error × State × Bool :=
  match c.run registry ⟨s, dirty⟩ with
  | (.ok _, s') => (none, s'.state, s'.dirty)
  | (.error e, s') => (some e, s'.state, s'.dirty)

end CoreSql
