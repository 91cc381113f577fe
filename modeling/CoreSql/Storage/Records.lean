import CoreSql.Data.Constraints
import CoreSql.Storage.Encoding

/-!
# Snapshots, change records and pages

`snapshot.cpp`. Values, expressions and schemas have one wire form that all
stored formats share. It is a sequence of numbers and of length-prefixed
fields, and that is how it is written here: as a list of `Piece`s.

The readers take every format the engine ever wrote. A change record of
version `n + 1` and a snapshot of version `n` have the same schema layout,
so a `WireLayout` is a number from 1 to 7.
-/

namespace CoreSql

/-- `max_encoded_bytes`, with the default `CORESQL_MAX_ENCODED_MIB`. -/
def maxEncodedBytes : Nat := 1024 * 1024 * 1024

/-! ## Writing -/

/-- What the wire is made of. A guard is a check made while writing. -/
inductive Piece where
  | number (n : Nat)
  | field (bytes : Bytes)
  | guard (check : Except Error Unit)

def Piece.bytes : Piece → Bytes
  | number n => u64 n
  | field bytes => u64 bytes.length ++ bytes
  | guard _ => []

/-- Append a piece to a buffer: `encoding::u64` and `field`. -/
def Piece.write (out : Bytes) : Piece → Except Error Bytes
  | number n => .ok (out ++ u64 n)
  | field bytes =>
    if maxEncodedBytes - 8 < bytes.length ∨ maxEncodedBytes - 8 - bytes.length < out.length then
      fail .format "Snapshot exceeds configured encoded-size limit"
    else .ok (out ++ (u64 bytes.length ++ bytes))
  | guard check => do
      check
      return out

def writePieces (out : Bytes) (pieces : List Piece) : Except Error Bytes :=
  pieces.foldlM Piece.write out

def flag (b : Bool) : Piece := .number (if b then 1 else 0)

/-- `emit_value`. -/
def valuePieces (v : Value) : List Piece :=
  flag v.isNull ::
    match v with
    | .null _ => []
    | .integer i => [.number (toWord i.toInt)]
    | .real bits => [.number bits.toNat]
    | .text s => [.field s]
    | .compact8 _ payload => [.number 8, .number (toWord payload.toInt)]
    | .compact16 _ payload => [.field payload]
    | .blob _ bytes => [.field bytes]

/-- The number of an expression kind; 1 is the literal. -/
def Kind.number : Kind → Nat
  | .column => 0
  | .call => 2
  | .aggregate => 3
  | .rowId => 4
  | .parameter => 5
  | .subquery => 6
  | .conditional => 7
  | .exists => 8
  | .coalesce => 9
  | .membership => 10

/-- A type as it stands in a column or a literal. -/
def typePieces (type : SqlType) : List Piece :=
  [.field type.id, .number type.version.toNat, .field type.parameters]

mutual

/-- `write_expr`. -/
def exprPieces : Expr → List Piece
  | .literal head value arguments =>
    .number 1 :: .field head.name :: typePieces value.typeOf ++ valuePieces value ++
      (.number arguments.length :: exprsPieces arguments)
  | .node kind head arguments =>
    .number kind.number :: .field head.name ::
      .number arguments.length :: exprsPieces arguments

def exprsPieces : List Expr → List Piece
  | [] => []
  | e :: rest => exprPieces e ++ exprsPieces rest

end

def columnPieces (c : Column) : List Piece :=
  .field c.name :: typePieces c.type ++
    [flag c.primaryKey, flag c.nullable, .field c.index, flag c.defaultValue.isSome] ++
    (match c.defaultValue with
      | some v => valuePieces v
      | none => [])

def definitionPieces (d : IndexDefinition) : List Piece :=
  [.field d.name, .number ((if d.unique then 1 else 0) + if d.constraintOwned then 2 else 0),
    .number d.columns.length] ++
    d.columns.zipIdx.flatMap fun e => [.field e.1, flag (d.descends e.2)]

def checkPieces (c : CheckConstraint) : List Piece :=
  [.field c.name, .guard (validateCheckExpression c.expression)] ++ exprPieces c.expression

def keyPieces (k : ForeignKey) : List Piece :=
  [.field k.name, .field k.referencedTable, .number k.columns.length] ++ k.columns.map .field ++
    (.number k.referencedColumns.length :: k.referencedColumns.map .field)

/-- `write_schema`. -/
def schemaPieces (t : Table) : List Piece :=
  (.number t.columns.length :: t.columns.flatMap columnPieces) ++
  (.number t.indexDefinitions.length :: t.indexDefinitions.flatMap definitionPieces) ++
  (.number t.constraints.checks.length :: t.constraints.checks.flatMap checkPieces) ++
  (.number t.constraints.foreignKeys.length :: t.constraints.foreignKeys.flatMap keyPieces)

/-- The bytes of some pieces, nothing being refused. -/
def piecesBytes (pieces : List Piece) : Bytes := pieces.flatMap Piece.bytes

def checkpointSize (s : State) : Except Error Nat :=
  s.tables.foldlM (fun bytes e => do
    let schema ← writePieces [] (schemaPieces e.2)
    let bytes := bytes + 40 + e.1.length + schema.length + 16 * e.2.chunks.length +
      (e.2.chunks.map fun c => c.2.encodedBytes).sum
    if maxEncodedBytes < bytes then
      fail .format "Live encoded state exceeds configured encoded-size limit"
    else return bytes) 32

/-! ## Reading -/

/-- What a wire layout has, by the number of the snapshot version. -/
structure WireLayout where
  level : Nat

namespace WireLayout

def primary (w : WireLayout) : Bool := 2 ≤ w.level
def indexes (w : WireLayout) : Bool := 3 ≤ w.level
def extended (w : WireLayout) : Bool := 4 ≤ w.level
def tagged (w : WireLayout) : Bool := 5 ≤ w.level
def constrained (w : WireLayout) : Bool := 6 ≤ w.level
def ownedIndexes (w : WireLayout) : Bool := 7 ≤ w.level

end WireLayout

/-- The formats of `apply_changes`. -/
def changeFormats : List (Bytes × WireLayout) :=
  [(lit "CORECHG8", ⟨7⟩), (lit "CORECHG7", ⟨6⟩), (lit "CORECHG6", ⟨5⟩), (lit "CORECHG5", ⟨4⟩),
    (lit "CORECHG4", ⟨3⟩), (lit "CORECHG3", ⟨2⟩), (lit "CORECHG2", ⟨1⟩)]

namespace Reader

/-- `field` and `string`. -/
def field : Reader Bytes := do
  let size ← u64
  let left ← Decoder.remaining
  check (size ≤ left) "Invalid snapshot field length"
  take size

def count : Reader Nat := do
  let n ← u64
  let left ← Decoder.remaining
  check (n ≤ left / 8) "Invalid snapshot item count"
  return n

/-- A number that says yes or no; `message` is for the others. -/
def flag (message : String) : Reader Bool := do
  let n ← u64
  check (n ≤ 1) message
  return n = 1

def onlyIf {α : Type} (present : Bool) (default : α) (p : Reader α) : Reader α :=
  if present then p else pure default

def refuse {α : Type} (message : String) : Reader α := Decoder.lift (fail .format message)

end Reader

/-- `compact(type, payload)`: the untagged identities have no tagged cells. -/
def makeCompact (type : SqlType) (f : CompactType → Value) : Except Error Value :=
  if h : defaultIdentity type.id = false then .ok (f ⟨type, h⟩)
  else fail .type "Default identity is untagged"

def readCompact16 (type : SqlType) : Reader Value := do
  let bytes ← Reader.field
  Decoder.lift (if h : bytes.length = 16 then makeCompact type fun t => .compact16 t ⟨bytes, h⟩
    else fail .format "Invalid compact i128 payload")

def readCompact8 (type : SqlType) : Reader Value := do
  let bytes ← Reader.field
  Reader.check (bytes.length = 8) "Invalid compact i64 payload"
  Decoder.lift (makeCompact type fun t =>
    .compact8 t (Int64.ofInt (ofWord (LittleEndian.decode bytes))))

/-- A cell that is not NULL, by the layout of its type. -/
def readCell (type : SqlType) : Layout → Reader Value
  | .i64 =>
    if type = integerType then do
      let n ← Reader.u64
      return .integer (Int64.ofInt (ofWord n))
    else readCompact8 type
  | .f64 => do
      let n ← Reader.u64
      return .real (UInt64.ofNat n)
  | .text => do
      let s ← Reader.field
      return .text s
  | .i128 => readCompact16 type
  | .bytes => do
      let bytes ← Reader.field
      return .blob type bytes

def readValue (registry : Registry) (type : SqlType) (tagged : Bool) : Reader Value := do
  let null ← Reader.onlyIf tagged false (Reader.flag "Invalid NULL tag")
  if null then return .null type
  else do
    let addon ← Decoder.lift (registry.addon type)
    readCell type addon.layout

/-- A type, `message` being for its version. -/
def readVersion (version : Nat) (message : String) : Reader UInt32 := do
  Reader.check (version ≠ 0 ∧ version ≤ uint32Max) message
  return UInt32.ofNat version

def readLiteral (registry : Registry) : Reader Value := do
  let id ← Reader.field
  let version ← Reader.u64
  let parameters ← Reader.field
  let version ← readVersion version "Invalid literal type version"
  let type : SqlType := { id, version, parameters }
  Decoder.lift (registry.validateType type)
  let value ← readValue registry type true
  Decoder.lift (registry.validate value type)
  return value

def kindOf : Nat → Kind
  | 0 => .column
  | 2 => .call
  | 3 => .aggregate
  | 4 => .rowId
  | 5 => .parameter
  | 6 => .subquery
  | 7 => .conditional
  | 8 => .exists
  | 9 => .coalesce
  | _ => .membership

def makeNode (kind : Nat) (name : Bytes) (value : Option Value) (arguments : List Expr) : Expr :=
  match value with
  | some v => .literal { name } v arguments
  | none => .node (kindOf kind) { name } arguments

/-- The arguments of a node, one after the other. -/
def readArguments (p : Nat → Reader (Expr × Nat)) : Nat → Nat → Reader (List Expr × Nat)
  | 0, nodes => pure ([], nodes)
  | width + 1, nodes => do
      let first ← p nodes
      let others ← readArguments p width first.2
      return (first.1 :: others.1, others.2)

/-- `read_expr`, with the number of levels that may still come; the number
of nodes read goes in and comes out. -/
def readExpr (registry : Registry) : Nat → Nat → Reader (Expr × Nat)
  | 0, _ => Reader.refuse "CHECK expression is too large"
  | levels + 1, nodes => do
      Reader.check (nodes + 1 ≤ 4096) "CHECK expression is too large"
      let kind ← Reader.u64
      Reader.check (kind ≤ 10) "Invalid CHECK expression kind"
      let name ← Reader.field
      let value ← Reader.onlyIf (kind = 1) none (some <$> readLiteral registry)
      let width ← Reader.count
      Reader.check (width ≤ 4096 - (nodes + 1)) "CHECK expression is too large"
      let arguments ← readArguments (readExpr registry levels) width (nodes + 1)
      return (makeNode kind name value arguments.1, arguments.2)

def readDefault (registry : Registry) (w : WireLayout) (c : Column) : Reader (Option Value) := do
  let present ← Reader.flag "Invalid default flag"
  if present then do
    let v ← readValue registry c.type w.tagged
    Decoder.lift (validateStored v c registry)
    return some v
  else return none

/-- One column, after the names in `seen`. -/
def readColumn (registry : Registry) (w : WireLayout) (seen : List Bytes) : Reader Column := do
  let name ← Reader.field
  let id ← Reader.field
  let version ← Reader.u64
  let parameters ← Reader.field
  Reader.check (name ≠ [] ∧ name ∉ seen) "Invalid column descriptor"
  let version ← readVersion version "Invalid column descriptor"
  let type : SqlType := { id, version, parameters }
  Decoder.lift (registry.validateType type)
  let primaryKey ← Reader.onlyIf w.primary false (Reader.flag "Invalid primary-key flag")
  let nullable ← Reader.onlyIf w.tagged false (Reader.flag "Invalid nullable flag")
  let index ← Reader.onlyIf w.indexes [] Reader.field
  let c : Column := { name, type, primaryKey, index, nullable }
  let defaultValue ← Reader.onlyIf w.extended none (readDefault registry w c)
  return { c with defaultValue }

def readColumns (registry : Registry) (w : WireLayout) : Nat → List Bytes → Reader (List Column)
  | 0, _ => pure []
  | n + 1, seen => do
      let c ← readColumn registry w seen
      let others ← readColumns registry w n (c.name :: seen)
      return c :: others

def readKeyColumn : Reader (Bytes × Bool) := do
  let name ← Reader.field
  let descending ← Reader.flag "Invalid direction flag"
  return (name, descending)

def readDefinition (w : WireLayout) : Reader IndexDefinition := do
  let name ← Reader.field
  let flags ← Reader.u64
  Reader.check (flags ≤ (if w.ownedIndexes then 3 else 1) ∧ flags ≠ 2) "Invalid index flags"
  let unique := flags % 2 = 1
  let owned := if w.ownedIndexes then decide (2 ≤ flags)
    else unique && (lit "sql.unique.").isPrefixOf name
  let width ← Reader.count
  let columns ← Decoder.times readKeyColumn width
  return {
    name, columns := columns.map Prod.fst, unique, descending := columns.map Prod.snd,
    constraintOwned := owned }

def readCheckConstraint (registry : Registry) : Reader CheckConstraint := do
  let name ← Reader.field
  let expression ← readExpr registry 65 0
  Decoder.lift (validateCheckExpression expression.1)
  return { name, expression := expression.1 }

def readNames : Reader (List Bytes) := do
  let n ← Reader.count
  Decoder.times Reader.field n

def readForeignKey : Reader ForeignKey := do
  let name ← Reader.field
  let referencedTable ← Reader.field
  let columns ← readNames
  let referencedColumns ← readNames
  return { name, columns, referencedTable, referencedColumns }

def readList {α : Type} (p : Reader α) : Reader (List α) := do
  let n ← Reader.count
  Decoder.times p n

def readConstraints (registry : Registry) : Reader TableConstraints := do
  let checks ← readList (readCheckConstraint registry)
  let foreignKeys ← readList readForeignKey
  return { checks, foreignKeys }

/-- `read_schema`. Its last step makes empty indexes to see that it can. -/
def readSchema (registry : Registry) (w : WireLayout) : Reader Shell := do
  let n ← Reader.count
  Reader.check (n ≠ 0) "Table has no columns"
  let columns ← readColumns registry w n []
  let indexDefinitions ← Reader.onlyIf w.extended [] (readList (readDefinition w))
  let constraints ← Reader.onlyIf w.constrained {} (readConstraints registry)
  let declarations : Shell := { columns, indexDefinitions, constraints }
  let _ ← Decoder.lift (makeIndexes { toShell := declarations } registry)
  return declarations

/-- The cells of a row, each checked as it is read. -/
def readCells (registry : Registry) (tagged : Bool)
    (check : Value → Column → Except Error Unit) : List Column → Reader Row
  | [] => pure []
  | c :: rest => do
      let v ← readValue registry c.type tagged
      Decoder.lift (check v c)
      let others ← readCells registry tagged check rest
      return v :: others

/-! ## The frame of a stored format -/

/-- `validate_snapshot`: the checksummed body. -/
def validateSnapshot (bytes : Bytes) : Except Error Bytes :=
  if bytes.length < 8 ∨ maxEncodedBytes < bytes.length then
    fail .format "Invalid snapshot size"
  else do
    let stored ← Reader.u64.run (bytes.drop (bytes.length - 8))
    if (checksum (bytes.take (bytes.length - 8))).toNat ≠ stored then
      fail .format "Snapshot checksum mismatch"
    else return bytes.take (bytes.length - 8)

def sealed (body : Bytes) : Bytes := body ++ u64 (checksum body).toNat

/-! ## Change records -/

/-- `Column::operator==`; defaults are compared as variants. -/
def Column.same (a b : Column) : Bool :=
  a.name == b.name && a.type == b.type && a.primaryKey == b.primaryKey && a.index == b.index &&
    (match a.defaultValue, b.defaultValue with
      | some v, some w => v.variantEqual w
      | none, none => true
      | _, _ => false) &&
    a.nullable == b.nullable

/-- The columns of a table that was there before: a prefix of the new ones. -/
def checkKnownColumns (w : WireLayout) (old new : List Column) : Except Error Unit :=
  if new.length < old.length ∨ !((old.zip new).all fun e => e.1.same e.2) then
    fail .format "Existing column changed in log"
  else if new.length ≠ old.length ∧ !w.extended then fail .format "Schema changed in legacy log"
  else .ok ()

/-- A chunk under construction, with the row sequence of its table. -/
structure ChunkReading where
  rows : List Row := []
  rowids : List Nat := []
  nextRowid : Nat

/-- The identity of the next row: stored, or issued by a table whose log
knew none. The sequence is held as the word `next_rowid` is stored in. -/
def readRowid (w : WireLayout) (nextRowid : Nat) : Reader (Nat × Nat) :=
  if w.extended then do
    let rowid ← Reader.u64
    return (rowid, nextRowid)
  else pure (nextRowid, nextRowid + 1)

def readChangedRow (registry : Registry) (w : WireLayout) (columns : List Column)
    (r : ChunkReading) : Reader ChunkReading := do
  let identity ← readRowid w r.nextRowid
  Reader.check (identity.1 ≠ 0 ∧ identity.1 < identity.2) "Invalid row identity"
  let row ← readCells registry w.tagged (fun v c => validateStored v c registry) columns
  return ⟨r.rows ++ [row], r.rowids ++ [identity.1], identity.2⟩

/-- A table under construction. `restored` counts the rows read. -/
structure TableReading where
  chunks : List (Nat × Chunk)
  nextRowid : Nat
  ids : List Nat := []
  restored : Nat := 0

def readChangedChunk (registry : Registry) (w : WireLayout) (columns : List Column)
    (nextChunk : Nat) (r : TableReading) : Reader TableReading := do
  let id ← Reader.u64
  let rows ← Reader.u64
  let left ← Decoder.remaining
  Reader.check (id < nextChunk ∧ id ∉ r.ids ∧ rows ≤ chunkRows ∧ rows ≤ left / 8 / columns.length)
    "Invalid chunk descriptor"
  if rows = 0 then do
    Reader.check ((SortedMap.find id r.chunks).isSome) "Deleting absent chunk"
    return { r with chunks := SortedMap.erase id r.chunks, ids := id :: r.ids }
  else do
    let c ← Decoder.loop (readChangedRow registry w columns) rows { nextRowid := r.nextRowid }
    return {
      chunks := SortedMap.insert id (Chunk.refresh { rows := c.rows, rowids := c.rowids }) r.chunks
      nextRowid := c.nextRowid
      ids := id :: r.ids
      restored := r.restored + rows }

/-- The last check on the chunks of a table: identities that are new, rows
that are wide enough. -/
def checkIdentities (width : Nat) (seen : List Nat) (e : Nat × Chunk) :
    Except Error (List Nat) :=
  if !(e.2.rowids.Nodup ∧ ∀ r ∈ e.2.rowids, r ∉ seen : Bool) then
    fail .format "Duplicate row identity"
  else if e.2.rows.any fun row => row.length != width then
    fail .format "Schema change omitted existing rows"
  else .ok (seen ++ e.2.rowids)

def readRowSequence (nextRowid : Nat) : Reader Nat := do
  let next ← Reader.u64
  Reader.check (nextRowid ≤ next ∧ next ≤ int64Max) "Invalid row sequence"
  return next

structure ChangedTable where
  name : Bytes
  table : Table
  restored : Nat

/-- One table of a record, after the ones in `seen`. -/
def readChangedTable (registry : Registry) (w : WireLayout) (base : Tables) (seen : List Bytes) :
    Reader ChangedTable := do
  let name ← Reader.field
  Reader.check (name ≠ [] ∧ name ∉ seen) "Invalid changed table name"
  let old := SortedMap.find name base
  let table := old.getD {}
  let declarations ← readSchema registry w
  Decoder.lift (if old.isSome then checkKnownColumns w table.columns declarations.columns
    else .ok ())
  let nextChunk ← Reader.u64
  Reader.check (table.nextChunk ≤ nextChunk) "Chunk sequence moved backwards"
  let nextRowid ← Reader.onlyIf w.extended table.nextRowid (readRowSequence table.nextRowid)
  let chunks ← Reader.count
  let r ← Decoder.loop (readChangedChunk registry w declarations.columns nextChunk) chunks
    { chunks := table.chunks, nextRowid }
  let _ ← Decoder.lift (r.chunks.foldlM (checkIdentities declarations.columns.length) [])
  return {
    name
    table := Table.refresh { table with
      columns := declarations.columns
      constraints := declarations.constraints
      indexDefinitions := declarations.indexDefinitions
      nextChunk
      nextRowid := r.nextRowid
      chunks := r.chunks }
    restored := r.restored }

def readChangedTables (registry : Registry) (w : WireLayout) (base : Tables) :
    Nat → List Bytes → Reader (List ChangedTable)
  | 0, _ => pure []
  | n + 1, seen => do
      let c ← readChangedTable registry w base seen
      let others ← readChangedTables registry w base n (c.name :: seen)
      return c :: others

def layoutOf (formats : List (Bytes × WireLayout)) (format : Bytes) (message : String) :
    Except Error WireLayout :=
  match formats.find? fun e => e.1 == format with
  | some e => .ok e.2
  | none => fail .format message

def readChanges (registry : Registry) (base : Tables) :
    Reader (WireLayout × List ChangedTable) := do
  let format ← Reader.field
  let w ← Decoder.lift (layoutOf changeFormats format "Unsupported change record")
  let n ← Reader.count
  let changed ← readChangedTables registry w base n []
  Reader.finish
  return (w, changed)

/-- The layout of a record and the tables it changes. -/
def decodeChanges (registry : Registry) (base : Tables) (bytes : Bytes) :
    Except Error (WireLayout × List ChangedTable) := do
  let body ← validateSnapshot bytes
  (readChanges registry base).run body

def applyChanges (registry : Registry) (base : State) (bytes : Bytes) : Except Error State := do
  let record ← decodeChanges registry base.tables bytes
  let next := { base with
    tables := record.2.foldl (fun tables c => SortedMap.insert c.name c.table tables) base.tables }
  let _ ← checkpointSize next
  return { next with stats := measure next }

end CoreSql
