import CoreSql.Data.Index

/-!
# Chunks, tables and states

A table stores its rows in chunks of at most 128, keyed by a number that is
never reused. An index refers to a row as (chunk, slot); the slot is the
row's position until a deletion compacts the chunk, after which the chunk
carries the surviving slots explicitly.

The chunk map of the source is a directory of blocks with copy-on-write
sharing. What it contains is a sorted map from number to chunk, and that is
what a table holds here; the blocks and the sharing are not modelled.
`Table::selection` belongs to query-local views and is left out: a stored
table never has one.
-/

namespace CoreSql

def chunkRows : Nat := 128
def chunkBytes : Nat := 16 * 1024
def uint32Max : Nat := 2 ^ 32 - 1
def uint64Max : Nat := 2 ^ 64 - 1
def int64Max : Nat := 2 ^ 63 - 1

structure CheckConstraint where
  name : Bytes
  expression : Expr

structure ForeignKey where
  name : Bytes
  columns : List Bytes
  referencedTable : Bytes
  referencedColumns : List Bytes

structure TableConstraints where
  checks : List CheckConstraint := []
  foreignKeys : List ForeignKey := []

structure Chunk where
  rows : List Row := []
  rowids : List Nat := []
  payloadBytes : Nat := 0
  encodedBytes : Nat := 0
  slots : List Nat := []

/-- What one cell adds to the payload and to the encoding. -/
def cellBytes : Value → Nat × Nat
  | .text s => (s.length, s.length + 16)
  | .blob _ bytes => (bytes.length, bytes.length + 16)
  | .compact8 .. => (8, 24)
  | .compact16 .. => (16, 32)
  | .null _ => (0, 8)
  | .integer _ | .real _ => (8, 16)

def rowPayload (row : Row) : Nat := (row.map fun v => (cellBytes v).1).sum

def rowEncoded (row : Row) : Nat := 8 + (row.map fun v => (cellBytes v).2).sum

namespace Chunk

def refresh (c : Chunk) : Chunk :=
  { c with
    payloadBytes := (c.rows.map rowPayload).sum
    encodedBytes := (c.rows.map rowEncoded).sum }

def slot (c : Chunk) (position : Nat) : Nat :=
  if c.slots.isEmpty then position else c.slots.getD position 0

def nextSlot (c : Chunk) : Nat :=
  match c.slots.getLast? with
  | none => c.rows.length
  | some last => last + 1

/-- `position(slot)`; the number of rows stands for "not here". -/
def position (c : Chunk) (slot : Nat) : Nat :=
  if c.slots.isEmpty then (if slot < c.rows.length then slot else c.rows.length)
  else (c.slots.findIdx? (· == slot)).getD c.rows.length

def located (c : Chunk) (id : Nat) : List (RowLocation × Row) :=
  c.rows.zipIdx.map fun e => (⟨id, c.slot e.2⟩, e.1)

end Chunk

/-- The members of `Table` that are plain values: everything but the chunk
map and the indexes. -/
structure Shell where
  columns : List Column := []
  constraints : TableConstraints := {}
  nextChunk : Nat := 0
  nextRowid : Nat := 1
  rowCount : Nat := 0
  payloadBytes : Nat := 0
  indexDefinitions : List IndexDefinition := []
  integerPkKnown : Bool := false
  integerPkMax : Option Int := none

structure Table extends Shell where
  chunks : List (Nat × Chunk) := []
  primary : Option IndexBinding := none
  indexes : List IndexBinding := []
  ordered : List OrderedIndex := []

/-- `Tables`, a `std::map` by name. -/
abbrev Tables := List (Bytes × Table)

def requireTable (tables : Tables) (name : Bytes) : Except Error Table :=
  match SortedMap.find name tables with
  | some table => .ok table
  | none => .error ⟨.schema, lit "Unknown table: " ++ name⟩

namespace Table

/-- The rows in scan order, with their locations. -/
def located (t : Table) : List (RowLocation × Row) :=
  t.chunks.flatMap fun e => e.2.located e.1

/-- The rows `visit_table_rows` visits. -/
def rows (t : Table) : List Row := t.chunks.flatMap fun e => e.2.rows

def rowids (t : Table) : List Nat := t.chunks.flatMap fun e => e.2.rowids

def refresh (t : Table) : Table :=
  { t with
    rowCount := (t.chunks.map fun e => e.2.rows.length).sum
    payloadBytes := (t.chunks.map fun e => e.2.payloadBytes).sum }

/-- What an index on a column should contain. -/
def entries (t : Table) (column : Nat) : List (Value × RowLocation) :=
  t.located.map fun e => (e.2.cell column, e.1)

def lookup (t : Table) (value : Value) : Except Error (Option RowLocation) :=
  match t.primary with
  | none => .ok none
  | some binding => binding.data.lookup value

def indexed (t : Table) : Bool :=
  t.primary.isSome || !t.indexes.isEmpty || !t.ordered.isEmpty

end Table

/-! ## Making indexes -/

/-- `make_index`: the primary index, empty. -/
def makeIndex (registry : Registry) :
    Nat → Option IndexBinding → List Column → Except Error (Option IndexBinding)
  | _, result, [] => .ok result
  | i, result, c :: rest =>
    if c.primaryKey then
      if result.isSome then fail .schema "Only one primary-key column is supported"
      else do
        let data ← registry.index (if c.index = [] then lit "core.hash" else c.index) c.type true
        makeIndex registry (i + 1) (some ⟨i, data⟩) rest
    else makeIndex registry (i + 1) result rest

/-- The secondary indexes of the columns, empty. -/
def makeSecondary (registry : Registry) : Nat → List Column → Except Error (List IndexBinding)
  | _, [] => .ok []
  | i, c :: rest =>
    if !c.primaryKey && c.index ≠ [] then do
      let data ← registry.index c.index c.type false
      let others ← makeSecondary registry (i + 1) rest
      return ⟨i, data⟩ :: others
    else makeSecondary registry (i + 1) rest

/-- The ordered indexes of the definitions, empty. -/
def makeOrdered (columns : List Column) (registry : Registry) :
    List Bytes → List IndexDefinition → Except Error (List OrderedIndex)
  | _, [] => .ok []
  | seen, d :: rest =>
    if d.name ∈ seen then fail .schema "Duplicate index name"
    else do
      let index ← OrderedIndex.create d columns registry
      let others ← makeOrdered columns registry (d.name :: seen) rest
      return index :: others

/-- The nullability rules `make_indexes` starts with. -/
def checkNullable : List Column → Except Error Unit
  | [] => .ok ()
  | c :: rest =>
    if c.nullable && c.primaryKey then fail .schema "Primary keys must be non-nullable"
    else if c.nullable && c.index ≠ [] then
      fail .unsupported "Nullable inline extension indexes are not yet supported"
    else checkNullable rest

/-- `make_indexes`: every index of the table, empty. -/
def makeIndexes (t : Table) (registry : Registry) : Except Error Table := do
  checkNullable t.columns
  let ordered ← makeOrdered t.columns registry [] t.indexDefinitions
  let primary ← makeIndex registry 0 none t.columns
  let indexes ← makeSecondary registry 0 t.columns
  return { t with ordered, primary, indexes }

/-! ## Filling indexes -/

/-- Enter a row under its cell of the binding's column. -/
def IndexBinding.enter (row : Row) (l : RowLocation) (b : IndexBinding) :
    Except Error IndexBinding := do
  return { b with data := ← b.data.insert (row.cell b.column) l }

/-- Enter a row into the primary index, if there is one to fill. -/
def enterPrimary (fill : Bool) (row : Row) (l : RowLocation) :
    Option IndexBinding → Except Error (Option IndexBinding)
  | none => .ok none
  | some b => if fill then do return some (← b.enter row l) else .ok (some b)

/-- Enter a row into every index of a table; a primary index that is complete
already is left alone. -/
def Table.enterRow (fill : Bool) (t : Table) (e : RowLocation × Row) : Except Error Table := do
  let ordered ← t.ordered.mapM fun x => x.insert e.2 e.1
  let primary ← enterPrimary fill e.2 e.1 t.primary
  let indexes ← t.indexes.mapM (IndexBinding.enter e.2 e.1)
  return { t with ordered, primary, indexes }

/-- `rebuild_indexes` on one table. -/
def Table.rebuildIndexes (t : Table) (registry : Registry) : Except Error Table := do
  let t ← makeIndexes t registry
  t.located.foldlM (Table.enterRow true) t

/-! ## Paging

A paged database writes the chunks of a committed state to a backing file
and replaces the hash index of an integer key by an image on disk. The rows
of a page are the rows of the chunk it was made from, so that at the level
of contents only the index changes. -/

def Table.eligible (t : Table) (registry : Registry) : Bool :=
  match t.primary with
  | none => false
  | some b =>
    match t.columns[b.column]? with
    | none => false
    | some c =>
      c.type == integerType && (c.index == [] || c.index == lit "core.hash") &&
        (match registry.types c.type.id c.type.version with
          | some addon => addon.nativeOps
          | none => false)

def pagePrimaryIndex (registry : Registry) (t : Table) : Except Error Table :=
  match t.eligible registry, t.primary with
  | true, some ⟨column, .hash _⟩ => do
      let index ← PagedIndex.build (t.entries column)
      return { t with primary := some ⟨column, .paged index⟩ }
  | _, _ => .ok t

/-- `page_state`, given the tables that have resident chunks to store. -/
def pageTables (registry : Registry) (resident : Bytes → Bool) (tables : Tables) :
    Except Error Tables :=
  tables.mapM fun e => do
    if resident e.1 then return (e.1, ← pagePrimaryIndex registry e.2) else return e

/-! ## Stored values -/

def validateStored (value : Value) (column : Column) (registry : Registry) : Except Error Unit :=
  if value.isNull && !column.nullable then
    .error ⟨.constraint, lit "NULL in non-nullable column: " ++ column.name⟩
  else registry.validate value column.type

/-- The cells of a row against the columns they belong to. -/
def validateCells (registry : Registry) : Row → List Column → Except Error Unit
  | v :: row, c :: columns => do
      validateStored v c registry
      validateCells registry row columns
  | _, _ => .ok ()

/-- The defaults `prepare_row` appends: up to the first column without one. -/
def defaults : List Column → Row
  | [] => []
  | c :: rest =>
    match c.defaultValue with
    | some v => v :: defaults rest
    | none => []

def prepareRow (row : Row) (columns : List Column) (registry : Registry) : Except Error Row := do
  let row := row ++ defaults (columns.drop row.length)
  if row.length ≠ columns.length then fail .schema "Row width differs from schema"
  validateCells registry row columns
  return row

/-! ## States -/

structure Stats where
  tables : Nat := 0
  rows : Nat := 0
  storedPayloadBytes : Nat := 0
  peakStoredPayloadBytes : Nat := 0
  deriving DecidableEq

/-- `State`. The epoch is an identity that destructive DDL replaces; it is
only ever compared with the one of an ancestor, so a count will do. -/
structure State where
  epoch : Nat := 0
  tables : Tables := []
  stats : Stats := {}

def measure (s : State) : Stats :=
  let stored := (s.tables.map fun e => e.2.payloadBytes).sum
  { tables := s.tables.length
    rows := (s.tables.map fun e => e.2.rowCount).sum
    storedPayloadBytes := stored
    peakStoredPayloadBytes := max s.stats.peakStoredPayloadBytes stored }

end CoreSql
