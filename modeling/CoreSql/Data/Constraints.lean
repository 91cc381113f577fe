import CoreSql.Data.Table

/-!
# CHECK and FOREIGN KEY validation

`constraints.cpp`. There are three validators: the full one, which visits
every row of every table; the one for an insert, which looks at the new row
only; and the one for a replaced table, which looks at the chunks that are
not the original's own and, where the table is a parent, at its children.

The last one compares chunk references by identity. Here it is told which
chunk numbers still refer to the original's chunk.
-/

namespace CoreSql

/-- `position`. -/
def columnPosition (t : Table) (name : Bytes) : Except Error Nat :=
  match t.columns.findIdx? fun c => c.name == name with
  | some i => .ok i
  | none => .error ⟨.schema, lit "Unknown constraint column: " ++ name⟩

/-- The loop of `positions`. -/
def columnPositionsFrom (t : Table) : List Bytes → List Bytes → Except Error (List Nat)
  | _, [] => .ok []
  | seen, name :: rest => do
      if name ∈ seen then fail .schema "Duplicate foreign-key column"
      let i ← columnPosition t name
      let others ← columnPositionsFrom t (name :: seen) rest
      return i :: others

/-- `positions`. -/
def columnPositions (t : Table) (names : List Bytes) : Except Error (List Nat) :=
  if names = [] then fail .schema "Foreign key needs columns" else columnPositionsFrom t [] names

/-- One step of `checks`. -/
def bindCheck (t : Table) (registry : Registry) (check : CheckConstraint) :
    Except Error BoundExpr := do
  validateCheckExpression check.expression
  let bound ← bind registry t.columns 0 check.expression
  if bound.type ≠ integerType then
    fail .type "CHECK must return INTEGER or typed INTEGER NULL"
  return bound

/-- `checks`: the bound expressions with the names of their constraints. -/
def boundChecks (t : Table) (registry : Registry) : Except Error (List (Bytes × BoundExpr)) :=
  t.constraints.checks.mapM fun check => do
    let bound ← bindCheck t registry check
    return (check.name, bound)

/-- One constraint of `check_row`: zero rejects, NULL and the rest pass. -/
def checkOne (row : Row) (check : Bytes × BoundExpr) : Except Error Unit := do
  let result ← check.2.evaluate row
  if result = .integer 0 then .error ⟨.constraint, lit "CHECK failed: " ++ check.1⟩

def checkRow (bound : List (Bytes × BoundExpr)) (row : Row) : Except Error Unit :=
  bound.forM (checkOne row)

/-- `Reference`: a foreign key resolved against its parent table. -/
structure Reference where
  declaration : ForeignKey
  parent : Table
  childColumns : List Nat
  parentColumns : List Nat
  index : Option OrderedIndex
  primary : Bool

namespace Reference

def columnType (t : Table) (i : Nat) : SqlType := (t.columns[i]?.map Column.type).getD integerType

/-- The parent's unique ordered index on exactly the referenced columns. -/
def uniqueIndex (parent : Table) (columns : List Bytes) : Option OrderedIndex :=
  parent.ordered.find? fun x => x.definition.unique && x.definition.columns == columns

/-- Whether the referenced column is the parent's primary key. -/
def onPrimary (parent : Table) (columns : List Nat) : Bool :=
  match parent.primary, columns with
  | some binding, [c] => binding.column == c
  | _, _ => false

/-- `Reference(key, child, tables)`. -/
def create (declaration : ForeignKey) (child : Table) (tables : Tables) :
    Except Error Reference := do
  let parent ← requireTable tables declaration.referencedTable
  let childColumns ← columnPositions child declaration.columns
  let parentColumns ← columnPositions parent declaration.referencedColumns
  if childColumns.length ≠ parentColumns.length then
    fail .schema "Foreign-key widths differ"
  if (childColumns.zip parentColumns).any fun p =>
      columnType child p.1 ≠ columnType parent p.2 then
    fail .type "Foreign-key column types differ"
  let primary := onPrimary parent parentColumns
  let index := uniqueIndex parent declaration.referencedColumns
  if !primary && index.isNone then
    fail .schema "Foreign key requires an exact primary or UNIQUE parent key"
  return { declaration, parent, childColumns, parentColumns, index, primary }

/-- The self-insertion shortcut: does the new row refer to itself? -/
def matchesSelf (r : Reference) (registry : Registry) (row : Row) :
    List Value → List Nat → Except Error Bool
  | k :: key, c :: columns => do
      let value := row.cell c
      if value.isNull then return false
      let equal ← registry.comparisonEqual (columnType r.parent c)
      if equal k value then matchesSelf r registry row key columns else return false
  | _, _ => .ok true

/-- Whether the parent has a row under the key. -/
def found (r : Reference) (key : Row) : Except Error Bool :=
  if r.primary then do
    let location ← r.parent.lookup (key.cell 0)
    return location.isSome
  else
    match r.index with
    | some index => do
        let locations ← index.equal key
        return !locations.isEmpty
    | none => return false

/-- `Reference::validate`. A NULL component satisfies the key. -/
def validate (r : Reference) (registry : Registry) (selfInsert : Bool) (row : Row) :
    Except Error Unit := do
  let key := r.childColumns.map row.cell
  if key.any Value.isNull then return ()
  let same ← if selfInsert then r.matchesSelf registry row key r.parentColumns else pure false
  if same then return ()
  let found ← r.found key
  if found then return ()
  .error ⟨.constraint, lit "Foreign key failed: " ++ r.declaration.name⟩

end Reference

/-- The `add` of `names`. -/
def checkNames : List Bytes → List Bytes → Except Error (List Bytes)
  | seen, [] => .ok seen
  | seen, name :: rest =>
    if name = [] ∨ name ∈ seen then fail .schema "Empty or duplicate constraint name"
    else checkNames (name :: seen) rest

/-- `names`. -/
def constraintNames (constraints : TableConstraints) : Except Error Unit := do
  let seen ← checkNames [] (constraints.checks.map CheckConstraint.name)
  let _ ← checkNames seen (constraints.foreignKeys.map ForeignKey.name)
  return ()

/-- One foreign key in `validate_constraints`. -/
def validateForeignKey (tables : Tables) (registry : Registry) (changed name : Bytes)
    (table : Table) (foreign : ForeignKey) : Except Error Unit := do
  let reference ← Reference.create foreign table tables
  if changed = [] ∨ name = changed ∨ foreign.referencedTable = changed then
    table.rows.forM (reference.validate registry false)

/-- One table in `validate_constraints`. -/
def validateTable (tables : Tables) (registry : Registry) (changed name : Bytes)
    (table : Table) : Except Error Unit := do
  constraintNames table.constraints
  if changed = [] ∨ name = changed then
    let bound ← boundChecks table registry
    table.rows.forM (checkRow bound)
  table.constraints.foreignKeys.forM (validateForeignKey tables registry changed name table)

/-- `validate_constraints`; the empty name means every table. -/
def validateConstraints (tables : Tables) (registry : Registry) (changed : Bytes := []) :
    Except Error Unit :=
  tables.forM fun e => validateTable tables registry changed e.1 e.2

def validateInsertConstraints (tables : Tables) (name : Bytes) (row : Row)
    (registry : Registry) : Except Error Unit := do
  let table ← requireTable tables name
  let bound ← boundChecks table registry
  checkRow bound row
  table.constraints.foreignKeys.forM fun key => do
    let reference ← Reference.create key table tables
    reference.validate registry (key.referencedTable == name) row

/-- The rows of the chunks that are not the original's own. -/
def changedRows (replacement : Table) (unchanged : Nat → Bool) : List Row :=
  (replacement.chunks.filter fun e => !unchanged e.1).flatMap fun e => e.2.rows

/-- Whether a foreign key starts or ends at the replaced table. -/
def concerns (name child : Bytes) (foreign : ForeignKey) : Bool :=
  child == name || foreign.referencedTable == name

/-- One foreign key in `validate_replacement_constraints`. -/
def validateReplacedKey (candidate : Tables) (name : Bytes) (registry : Registry)
    (changed : List Row) (child : Bytes) (table : Table) (foreign : ForeignKey) :
    Except Error Unit :=
  if concerns name child foreign then do
    let reference ← Reference.create foreign table candidate
    if child == name && foreign.referencedTable != name then
      changed.forM (reference.validate registry false)
    else table.rows.forM (reference.validate registry false)
  else .ok ()

def validateReplacementConstraints (tables : Tables) (name : Bytes) (replacement : Table)
    (unchanged : Nat → Bool) (registry : Registry) : Except Error Unit := do
  let _ ← requireTable tables name
  let changed := changedRows replacement unchanged
  let bound ← boundChecks replacement registry
  changed.forM (checkRow bound)
  let needed := tables.any fun e => e.2.constraints.foreignKeys.any (concerns name e.1)
  if needed then
    let candidate := SortedMap.insert name replacement tables
    candidate.forM fun e =>
      e.2.constraints.foreignKeys.forM
        (validateReplacedKey candidate name registry changed e.1 e.2)

end CoreSql
