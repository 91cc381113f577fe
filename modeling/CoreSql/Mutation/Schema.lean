import CoreSql.Mutation.Rows

/-!
# Schema changes and maintenance

`schema.cpp` and `set_constraints`. All of these prepare a replacement table
or a candidate map and publish it at the end; dropping and renaming also take
a new schema epoch, which makes the next commit write a checkpoint instead of
a change record.
-/

namespace CoreSql

open Prog

def uninstall (name : Bytes) : Prog Unit := perform (.uninstall name)
def renameStored (name replacement : Bytes) : Prog Unit := perform (.rename name replacement)
def newEpoch : Prog Unit := perform .newEpoch

/-! ## Creating -/

/-- The checks `create_table` makes on the columns. -/
def checkColumns (registry : Registry) : List Bytes → List Column → Except Error Unit
  | _, [] => .ok ()
  | seen, c :: rest =>
    if c.name = [] ∨ c.name ∈ seen then fail .schema "Empty or duplicate column name"
    else do
      registry.validateType c.type
      match c.defaultValue with
      | some v => validateStored v c registry
      | none => pure ()
      checkColumns registry (c.name :: seen) rest

def createTable (registry : Registry) (name : Bytes) (columns : List Column) : Prog Unit := do
  failIf (name.isEmpty || columns.isEmpty) .schema "Table needs a name and columns"
  lift (checkColumns registry [] columns)
  let tables ← readTables
  failIf (SortedMap.find name tables).isSome .schema "Table already exists"
  let i ← makeTable { columns }
  act (.held i) (.makeIndexes registry)
  install name i
  setDirty

/-- Enter located rows into an ordered index. -/
def fillOrdered (x : OrderedIndex) (rows : List (RowLocation × Row)) :
    Except Error OrderedIndex :=
  rows.foldlM (fun x e => x.insert e.2 e.1) x

def createIndex (registry : Registry) (name : Bytes) (definition : IndexDefinition) :
    Prog Unit := do
  let tables ← readTables
  let t ← lift (requireTable tables name)
  failIf (t.indexDefinitions.any fun d => d.name == definition.name) .schema
    "Index already exists"
  let i ← copyTable (.stored name)
  let empty ← lift (OrderedIndex.create definition t.columns registry)
  let index ← lift (fillOrdered empty t.located)
  act (.held i) (.shell fun s =>
    { s with indexDefinitions := s.indexDefinitions ++ [definition] })
  act (.held i) (.pushOrdered index)
  install name i
  setDirty

def Chunk.extend (c : Chunk) (v : Value) : Chunk :=
  Chunk.refresh { c with rows := c.rows.map fun row => row ++ [v] }

def addColumn (registry : Registry) (name : Bytes) (column : Column) : Prog Unit := do
  let tables ← readTables
  let t ← lift (requireTable tables name)
  match column.defaultValue with
  | none => Prog.fail .schema "Added column needs a default and no inline index"
  | some v => do
      failIf (column.name.isEmpty || column.primaryKey || !column.index.isEmpty) .schema
        "Added column needs a default and no inline index"
      failIf (t.columns.any fun c => c.name == column.name) .schema "Duplicate column"
      lift (validateStored v column registry)
      let i ← copyTable (.stored name)
      act (.held i) (.shell fun s => { s with columns := s.columns ++ [column] })
      forEach (fun (e : Nat × Chunk) => act (.held i) (.assign e.1 (e.2.extend v))) t.chunks
      refreshTable (.held i)
      install name i
      setDirty

def setConstraints (registry : Registry) (name : Bytes) (constraints : TableConstraints) :
    Prog Unit := do
  let tables ← readTables
  let _ ← lift (requireTable tables name)
  let i ← copyTable (.stored name)
  act (.held i) (.shell fun s => { s with constraints })
  let replacement ← readTable (.held i)
  lift (validateConstraints (SortedMap.insert name replacement tables) registry name)
  install name i
  setDirty

/-! ## Dropping -/

def dropTable (name : Bytes) : Prog Unit := do
  let tables ← readTables
  let _ ← lift (requireTable tables name)
  failIf (tables.any fun e =>
      e.1 != name && e.2.constraints.foreignKeys.any fun k => k.referencedTable == name)
    .constraint "Cannot drop a referenced table"
  uninstall name
  newEpoch
  setDirty

def dropIndex (registry : Registry) (name index : Bytes) : Prog Unit := do
  let tables ← readTables
  let t ← lift (requireTable tables name)
  match t.indexDefinitions.findIdx? fun d => d.name == index with
  | none => Prog.throw ⟨.schema, lit "Unknown index: " ++ index⟩
  | some position => do
      failIf ((t.indexDefinitions[position]?).any fun d => d.constraintOwned) .constraint
        "Cannot drop a constraint-owned index"
      let i ← copyTable (.stored name)
      act (.held i) (.shell fun s =>
        { s with indexDefinitions := s.indexDefinitions.eraseIdx position })
      act (.held i) (.dropOrdered position)
      publishReplacement registry name i fun _ => true

/-! ## Rebuilding indexes -/

/-- Enter one row into every index of a table object that nobody shares. -/
def indexRow (p : Place) (t : Table) (e : RowLocation × Row) : Prog Unit := do
  forEach (fun j => act p (.insertOrdered j e.2 e.1)) (List.range t.ordered.length)
  whenSome (fun (b : IndexBinding) => act p (.insertIndex .primary (e.2.cell b.column) e.1))
    t.primary
  forEach (fun (b : IndexBinding × Nat) =>
      act p (.insertIndex (.secondary b.2) (e.2.cell b.1.column) e.1))
    t.indexes.zipIdx

/-- `rebuild_indexes` on one table. -/
def rebuildIndexes (registry : Registry) (p : Place) : Prog Unit := do
  act p (.makeIndexes registry)
  let t ← readTable p
  forEach (indexRow p t) t.located

/-! ## Renaming -/

/-- Retarget the foreign keys that name a table. -/
def ForeignKey.retable (name replacement : Bytes) (k : ForeignKey) : ForeignKey :=
  if k.referencedTable = name then { k with referencedTable := replacement } else k

def renameIn (column replacement : Bytes) (names : List Bytes) : List Bytes :=
  names.map fun c => if c = column then replacement else c

/-- Rename a column where a foreign key refers to it. -/
def ForeignKey.recolumn (name column replacement : Bytes) (k : ForeignKey) : ForeignKey :=
  if k.referencedTable = name then
    { k with referencedColumns := renameIn column replacement k.referencedColumns }
  else k

/-- Whether a table has a foreign key to another. -/
def Table.refersTo (t : Table) (name : Bytes) : Bool :=
  t.constraints.foreignKeys.any fun k => k.referencedTable == name

/-- Copies of the tables that refer to one, their foreign keys rewritten:
the loop both renames share. -/
def rewriteKeys (name : Bytes) (f : ForeignKey → ForeignKey) :
    Tables → Prog (List (Bytes × Nat))
  | [] => pure []
  | (other, t) :: rest =>
    if t.refersTo name then do
      let i ← copyTable (.stored other)
      act (.held i) (.shell fun s =>
        { s with constraints := { s.constraints with
            foreignKeys := s.constraints.foreignKeys.map f } })
      let others ← rewriteKeys name f rest
      return (other, i) :: others
    else rewriteKeys name f rest

/-- Read back the tables local variables hold. -/
def readHeld : List (Bytes × Nat) → Prog Tables
  | [] => pure []
  | (name, i) :: rest => do
      let t ← readTable (.held i)
      let others ← readHeld rest
      return (name, t) :: others

def insertAll (new : Tables) (tables : Tables) : Tables :=
  new.foldl (fun m e => SortedMap.insert e.1 e.2 m) tables

/-- The candidate map of `rename_table`, before the keys are rewritten. -/
def renamed (name replacement : Bytes) (t : Table) (tables : Tables) : Tables :=
  SortedMap.erase name (SortedMap.insert replacement t tables)

/-- A name after `rename_table`. -/
def retarget (name replacement other : Bytes) : Bytes := if other = name then replacement else other

def renameTable (registry : Registry) (name replacement : Bytes) : Prog Unit := do
  let tables ← readTables
  let t ← lift (requireTable tables name)
  failIf (replacement.isEmpty || (SortedMap.find replacement tables).isSome) .schema
    "Empty or existing destination table"
  let copies ← rewriteKeys name (ForeignKey.retable name replacement) tables
  let new ← readHeld (copies.map fun e => (retarget name replacement e.1, e.2))
  lift (validateConstraints (insertAll new (renamed name replacement t tables)) registry)
  renameStored name replacement
  forEach (fun (e : Bytes × Nat) => install (retarget name replacement e.1) e.2) copies
  newEpoch
  setDirty

mutual

/-- Rename a column in an expression: `transform_expr` at every node. -/
def renameExpr (column replacement : Bytes) : Expr → Expr
  | .literal head value arguments => .literal head value (renameExprs column replacement arguments)
  | .node kind head arguments =>
    .node kind
      (if kind = .column ∧ head.name = column then { head with name := replacement } else head)
      (renameExprs column replacement arguments)

def renameExprs (column replacement : Bytes) : List Expr → List Expr
  | [] => []
  | e :: rest => renameExpr column replacement e :: renameExprs column replacement rest

end

def Shell.renameColumn (s : Shell) (column replacement : Bytes) (position : Nat) : Shell :=
  { s with
    columns := s.columns.modify position fun c => { c with name := replacement }
    indexDefinitions := s.indexDefinitions.map fun d =>
      { d with columns := renameIn column replacement d.columns }
    constraints := {
      checks := s.constraints.checks.map fun c =>
        { c with expression := renameExpr column replacement c.expression }
      foreignKeys := s.constraints.foreignKeys.map fun k =>
        { k with columns := renameIn column replacement k.columns } } }

def renameColumn (registry : Registry) (name column replacement : Bytes) : Prog Unit := do
  let tables ← readTables
  let t ← lift (requireTable tables name)
  failIf (replacement.isEmpty || t.columns.any fun c => c.name == replacement) .schema
    "Empty or existing destination column"
  match t.columns.findIdx? fun c => c.name == column with
  | none => Prog.throw ⟨.schema, lit "Unknown column: " ++ column⟩
  | some position => do
      let i ← copyTable (.stored name)
      act (.held i) (.shell fun s => s.renameColumn column replacement position)
      -- The table's own keys to itself are rewritten on its copy.
      act (.held i) (.shell fun s =>
        { s with constraints := { s.constraints with
            foreignKeys := s.constraints.foreignKeys.map
              (ForeignKey.recolumn name column replacement) } })
      let others := tables.filter fun e => e.1 ≠ name
      let copies ← rewriteKeys name (ForeignKey.recolumn name column replacement) others
      rebuildIndexes registry (.held i)
      let new ← readHeld ((name, i) :: copies)
      lift (validateConstraints (insertAll new tables) registry)
      forEach (fun (e : Bytes × Nat) => install e.1 e.2) ((name, i) :: copies)
      newEpoch
      setDirty

/-! ## Vacuum -/

/-- Whether the next row of a vacuum starts a chunk of its own. -/
def packStarts : Option (Nat × Chunk) → Bool
  | none => true
  | some (_, last) => chunkRows ≤ last.rows.length || chunkBytes ≤ last.encodedBytes

/-- Move one row into the chunks packed so far. -/
def packRow (acc : List (Nat × Chunk) × Nat) (e : Row × Nat) :
    Except Error (List (Nat × Chunk) × Nat) :=
  match packStarts acc.1.getLast?, acc.1.getLast? with
  | false, some (id, last) =>
    .ok (SortedMap.insert id
      (Chunk.refresh { last with rows := last.rows ++ [e.1], rowids := last.rowids ++ [e.2] })
      acc.1, acc.2)
  | _, _ =>
    if acc.2 = uint64Max then fail .state "Chunk identity exhausted"
    else .ok (SortedMap.insert acc.2 (Chunk.refresh { rows := [e.1], rowids := [e.2] }) acc.1,
      acc.2 + 1)

/-- All rows of a table, in order, packed into new chunks. -/
def packRows (t : Table) : Except Error (List (Nat × Chunk) × Nat) :=
  (t.chunks.flatMap fun e => e.2.rows.zip e.2.rowids).foldlM packRow ([], t.nextChunk)

def vacuumTables : Tables → Prog (List (Bytes × Nat))
  | [] => pure []
  | (name, t) :: rest => do
      let i ← copyTable (.stored name)
      act (.held i) .clear
      let (chunks, next) ← lift (packRows t)
      forEach (fun (e : Nat × Chunk) => act (.held i) (.emplace e.1 e.2)) chunks
      act (.held i) (.shell fun s => { s with nextChunk := next })
      let others ← vacuumTables rest
      return (name, i) :: others

def vacuum (registry : Registry) : Prog Unit := do
  let tables ← readTables
  let copies ← vacuumTables tables
  forEach (fun (e : Bytes × Nat) => rebuildIndexes registry (.held e.2)) copies
  forEach (fun (e : Bytes × Nat) => install e.1 e.2) copies
  setDirty

end CoreSql
