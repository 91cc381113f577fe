import CoreSql.Mutation.Program

/-!
# Inserting, updating and erasing rows

`mutation.cpp`. An insert edits the stored table in place once nobody else
holds it; a point update that touches no key and no constraint does the same
to one chunk; every other update and erase builds a replacement table and
publishes it when all checks have passed.

Binding a WHERE clause or an assigned expression is the query engine's
business. What a mutation uses of it is the outcome: a function from rows to
values, a function from rows to truth, and possibly a list of candidate
locations an index offered. `Scalar` and `Filter` are exactly that, and
everything proved about a mutation holds whatever they select.
-/

namespace CoreSql

open Prog

instance : Inhabited Column := ⟨{ name := [], type := integerType }⟩

/-! ## The operations by name -/

def readTables : Prog Tables := perform .tables
def readTable (p : Place) : Prog Table := perform (.table p)
def detach (name : Bytes) : Prog Unit := perform (.detach name)
def copyTable (p : Place) : Prog Nat := perform (.copy p)
def makeTable (s : Shell) : Prog Nat := perform (.make s)
def stageIndexes (p : Place) : Prog Nat := perform (.stage p)
def act (p : Place) (o : TableOp) : Prog Unit := perform (.on p o)
def publishIndexes (p : Place) (i : Nat) : Prog Unit := perform (.publish p i)
def install (name : Bytes) (i : Nat) : Prog Unit := perform (.install name i)
def setDirty : Prog Unit := perform .setDirty

/-- `refresh(table)` on a table object. -/
def refreshTable (p : Place) : Prog Unit := do
  let t ← readTable p
  act p (.shell fun s =>
    { s with rowCount := t.refresh.rowCount, payloadBytes := t.refresh.payloadBytes })

/-! ## The largest integer key -/

def Table.integerPrimaryColumn (t : Table) : Option Nat :=
  match t.primary with
  | none => none
  | some b =>
    match t.columns[b.column]? with
    | none => none
    | some c => if c.type = integerType then some b.column else none

/-- `std::get_if<std::int64_t>`. -/
def integerKey : Value → Option Int
  | .integer i => some i.toInt
  | _ => none

def Shell.forgetKey (s : Shell) : Shell := { s with integerPkKnown := false, integerPkMax := none }

/-- `note_inserted_integer_key`; the row count already includes the row. -/
def Shell.noteInsertedKey (s : Shell) (key : Int) : Shell :=
  if s.integerPkKnown then
    if s.integerPkMax.all (· < key) then { s with integerPkMax := some key } else s
  else if s.rowCount = 1 then { s with integerPkKnown := true, integerPkMax := some key }
  else s

def Shell.forgetIntegerKey (s : Shell) (value : Value) : Shell :=
  if !s.integerPkKnown then s
  else
    match integerKey value with
    | none => s.forgetKey
    | some key => if s.integerPkMax = some key then s.forgetKey else s

/-- `observe_integer_key_change`. -/
def Shell.observeKeyChange (s : Shell) (previous next : Value) : Shell :=
  match integerKey previous, integerKey next with
  | some a, some b =>
    if a = b then s
    else if !s.integerPkKnown then s.forgetKey
    else
      let removedMaximum := s.integerPkMax = some a
      let s := if s.integerPkMax.all (· < b) then { s with integerPkMax := some b } else s
      if removedMaximum ∧ s.integerPkMax ≠ some b then s.forgetKey else s
  | none, some b =>
    if !s.integerPkKnown then s.forgetKey
    else if s.integerPkMax.all (· < b) then { s with integerPkMax := some b } else s
  | _, none => s.forgetKey

/-! ## Insertion -/

/-- Whether the next row starts a chunk of its own. -/
def startsChunk (t : Table) (added : Chunk) : Bool :=
  match t.chunks.getLast? with
  | none => true
  | some (_, last) =>
    chunkRows ≤ last.rows.length || uint32Max < last.nextSlot ||
      chunkBytes < last.encodedBytes + added.encodedBytes

def Chunk.append (c : Chunk) (row : Row) (rowid : Nat) (added : Chunk) : Chunk :=
  { c with
    rows := c.rows ++ [row]
    rowids := c.rowids ++ [rowid]
    payloadBytes := c.payloadBytes + added.payloadBytes
    encodedBytes := c.encodedBytes + added.encodedBytes
    slots := if c.slots.isEmpty then [] else c.slots ++ [c.nextSlot] }

def Shell.afterInsert (s : Shell) (newChunk : Bool) (rowid bytes : Nat) (key : Option Value) :
    Shell :=
  let s :=
    { s with
      nextRowid := max s.nextRowid (rowid + 1)
      nextChunk := if newChunk then s.nextChunk + 1 else s.nextChunk
      rowCount := s.rowCount + 1
      payloadBytes := s.payloadBytes + bytes }
  match key with
  | none => s
  | some value =>
    match integerKey value with
    | some k => s.noteInsertedKey k
    | none => s.forgetKey

/-- The indexes of an insert: the named and secondary ones privately, the
primary one in place and last. -/
def insertIndexes (name : Bytes) (t : Table) (row : Row) (location : RowLocation) : Prog Nat := do
  let staged ← stageIndexes (.stored name)
  forEach (fun i => do
      act (.held staged) (.copyOrdered i)
      act (.held staged) (.insertOrdered i row location))
    (List.range t.ordered.length)
  forEach (fun (e : IndexBinding × Nat) => do
      act (.held staged) (.writableIndex (.secondary e.2))
      act (.held staged) (.insertIndex (.secondary e.2) (row.cell e.1.column) location))
    t.indexes.zipIdx
  whenSome (fun (b : IndexBinding) => do
      act (.stored name) (.writableIndex .primary)
      act (.stored name) (.insertIndex .primary (row.cell b.column) location))
    t.primary
  return staged

def insertImpl (registry : Registry) (name : Bytes) (row : Row) (identity : Option Nat) :
    Prog Unit := do
  failIf (identity.any fun i => i == 0 || i == int64Max) .format "Invalid row identity"
  let tables ← readTables
  let t ← lift (requireTable tables name)
  let row ← lift (prepareRow row t.columns registry)
  lift (validateInsertConstraints tables name row registry)
  let duplicate ← lift (match t.primary with
    | none => .ok none
    | some b => t.lookup (row.cell b.column))
  failIf duplicate.isSome .constraint "Duplicate primary key"
  detach name
  let added := Chunk.refresh { rows := [row] }
  let newChunk := startsChunk t added
  failIf (newChunk && t.nextChunk == uint64Max) .state "Chunk identifier space exhausted"
  let (id, prepared) := match newChunk, t.chunks.getLast? with
    | false, some last => last
    | _, _ => (t.nextChunk, {})
  act (.stored name) (if newChunk then .reserveInsert id else .writable id)
  failIf (identity.isNone && t.nextRowid == int64Max) .state "Row identity exhausted"
  let staged ← insertIndexes name t row ⟨id, prepared.nextSlot⟩
  -- Nothing below can fail: this is the publication.
  let rowid := identity.getD t.nextRowid
  act (.stored name) (if newChunk then .emplace id (prepared.append row rowid added)
    else .edit id fun c => c.append row rowid added)
  publishIndexes (.stored name) staged
  act (.stored name) (.shell fun s =>
    s.afterInsert newChunk rowid added.payloadBytes (t.integerPrimaryColumn.map row.cell))
  setDirty

/-! ## Selecting rows -/

/-- A bound expression: its type and its value on a row. -/
structure BoundScalar where
  type : SqlType
  evaluate : Row → Except Error Value

structure Scalar where
  bind : Registry → Table → Except Error BoundScalar

/-- What `candidates` leaves: locations an index offered, and the condition
that still has to be tested. -/
structure Candidates where
  selected : Option (List RowLocation) := none
  condition : Row → Except Error Bool := fun _ => .ok true

structure BoundFilter where
  condition : Row → Except Error Bool := fun _ => .ok true
  candidates : Except Error Candidates := .ok {}

structure Filter where
  bind : Registry → Table → Except Error BoundFilter

/-- `bind_predicate`; no clause accepts every row. -/
def bindFilter (registry : Registry) (t : Table) : Option Filter → Except Error BoundFilter
  | none => .ok {}
  | some f => f.bind registry t

/-- `normalize`: sorted, without duplicates. -/
def normalize (rows : List RowLocation) : List RowLocation :=
  (rows.foldl (fun m l => SortedMap.insert l () m) []).map Prod.fst

/-- What `visit_chunks` visits: a chunk, whole or some locations of it. -/
structure Group where
  chunk : Nat
  rows : Option (List RowLocation)

/-- Split sorted locations where the chunk changes. -/
def groupRows : List RowLocation → List Group
  | [] => []
  | l :: rest =>
    match groupRows rest with
    | [] => [⟨l.chunk, some [l]⟩]
    | g :: gs =>
      if g.chunk = l.chunk then ⟨l.chunk, some (l :: g.rows.getD [])⟩ :: gs
      else ⟨l.chunk, some [l]⟩ :: g :: gs

def Table.groups (t : Table) : Option (List RowLocation) → List Group
  | none => t.chunks.map fun e => ⟨e.1, none⟩
  | some rows => groupRows (normalize rows)

/-- The chunk of a group and the positions to visit, after the checks on
what the index returned. -/
def Table.openGroup (t : Table) (g : Group) : Except Error (Chunk × List Nat) :=
  match SortedMap.find g.chunk t.chunks with
  | none => fail .state "Index returned a missing chunk"
  | some c =>
    match g.rows with
    | none => .ok (c, List.range c.rows.length)
    | some locations =>
      if locations.any fun l => c.position l.slot == c.rows.length then
        fail .state "Index returned a missing row"
      else .ok (c, locations.map fun l => c.position l.slot)

/-! ## Update -/

structure Assignment where
  column : Bytes
  value : Scalar

/-- Bind the assignments: columns, duplicates, types. -/
def bindAssignments (registry : Registry) (t : Table) :
    List Nat → List Assignment → Except Error (List (Nat × BoundScalar))
  | _, [] => .ok []
  | seen, a :: rest => do
      let (index, type) ← resolve t.columns { name := a.column }
      if index ∈ seen then .error ⟨.schema, lit "Duplicate assignment: " ++ a.column⟩
      let value ← a.value.bind registry t
      if value.type ≠ type then fail .type "Assignment type differs from column"
      let others ← bindAssignments registry t (index :: seen) rest
      return (index, value) :: others

/-- The assigned values of one row, each checked as it is computed. Every
expression sees the old row. -/
def assignedValues (registry : Registry) (columns : List Column) (row : Row) :
    List (Nat × BoundScalar) → Except Error (List (Nat × Value))
  | [] => .ok []
  | (index, e) :: rest => do
      let value ← e.evaluate row
      validateStored value (columns.getD index default) registry
      let others ← assignedValues registry columns row rest
      return (index, value) :: others

def Row.assign (row : Row) (values : List (Nat × Value)) : Row :=
  values.foldl (fun (r : Row) e => r.set e.1 e.2) row

/-- What an update reports: rows matched, rows updated, new rows. -/
structure Outcome where
  matched : Nat := 0
  updated : Nat := 0
  returning : List Row := []

structure BoundUpdate where
  assignments : List (Nat × BoundScalar)
  matching : Row → Except Error Bool
  additional : Row → Except Error Bool

/-- One chunk under update: its new rows, once some row was accepted. -/
structure ChunkUpdate where
  edited : Option (List Row) := none
  outcome : Outcome := {}
  keys : List (Row × Row) := []

def BoundUpdate.visit (b : BoundUpdate) (registry : Registry) (columns : List Column)
    (rows : List Row) (acc : ChunkUpdate) (position : Nat) : Except Error ChunkUpdate := do
  let row := rows.getD position []
  if !(← b.matching row) then return acc
  let acc := { acc with outcome := { acc.outcome with matched := acc.outcome.matched + 1 } }
  if !(← b.additional row) then return acc
  let values ← assignedValues registry columns row b.assignments
  let new := row.assign values
  return {
    edited := some ((acc.edited.getD rows).set position new)
    outcome := { acc.outcome with
      updated := acc.outcome.updated + 1, returning := acc.outcome.returning ++ [new] }
    keys := acc.keys ++ [(row, new)] }

def BoundUpdate.chunk (b : BoundUpdate) (registry : Registry) (columns : List Column)
    (c : Chunk) (positions : List Nat) : Except Error ChunkUpdate :=
  positions.foldlM (b.visit registry columns c.rows) {}

/-- The replacement, made when the first chunk needs it. -/
def replacementFor (name : Bytes) : Option Nat → Prog Nat
  | some i => pure i
  | none => copyTable (.stored name)

/-- A replacement under construction: the local variable, the chunks whose
reference was replaced, and the report so far. -/
structure Replacing where
  replacement : Option Nat := none
  edited : List Nat := []
  outcome : Outcome := {}

def Outcome.add (a b : Outcome) : Outcome :=
  ⟨a.matched + b.matched, a.updated + b.updated, a.returning ++ b.returning⟩

def observeKeys (column : Nat) (keys : List (Row × Row)) (s : Shell) : Shell :=
  keys.foldl (fun s k => s.observeKeyChange (k.1.cell column) (k.2.cell column)) s

/-- The general path of an update, chunk by chunk. -/
def updateGroups (registry : Registry) (name : Bytes) (t : Table) (b : BoundUpdate) :
    List Group → Replacing → Prog Replacing
  | [], r => pure r
  | g :: rest, r => do
      let (c, positions) ← lift (t.openGroup g)
      let u ← lift (b.chunk registry t.columns c positions)
      match u.edited with
      | none => updateGroups registry name t b rest { r with outcome := r.outcome.add u.outcome }
      | some rows => do
          let i ← replacementFor name r.replacement
          whenSome (fun column => act (.held i) (.shell (observeKeys column u.keys)))
            (t.integerPrimaryColumn.filter fun column => b.assignments.any fun a => a.1 == column)
          act (.held i) (.assign g.chunk (Chunk.refresh { c with rows }))
          updateGroups registry name t b rest
            ⟨some i, r.edited ++ [g.chunk], r.outcome.add u.outcome⟩

/-- A row of a chunk whose reference was replaced, before and after. -/
structure RowChange where
  erased : RowLocation
  inserted : RowLocation
  before : Row
  after : Row

/-- The rows `synchronize_index` compares. -/
def rowChanges (original replacement : Table) (edited : List Nat) : List RowChange :=
  replacement.chunks.flatMap fun e =>
    if e.1 ∈ edited then
      match SortedMap.find e.1 original.chunks with
      | none => []
      | some before =>
        (before.rows.zip e.2.rows).zipIdx.map fun r =>
          ⟨⟨e.1, before.slot r.2⟩, ⟨e.1, e.2.slot r.2⟩, r.1.1, r.1.2⟩
    else []

/-- The ordered half of `synchronize_index`. -/
def synchronizeOrdered (i : Nat) (changes : List RowChange) (assigned : List Nat)
    (x : OrderedIndex × Nat) : Prog Unit :=
  if x.1.columns.any fun c => assigned.contains c then do
    let moved := changes.filter fun r =>
      !x.1.columns.all fun c => sameStoredValue (r.before.cell c) (r.after.cell c)
    act (.held i) (.copyOrdered x.2)
    forEach (fun r => act (.held i) (.eraseOrdered x.2 r.before r.erased)) moved
    forEach (fun r => act (.held i) (.insertOrdered x.2 r.after r.inserted)) moved
  else pure ()

/-- `synchronize` for one binding. A unique index skips keys its type calls
equal, the others only identical ones. -/
def synchronizeBinding (registry : Registry) (original : Table) (i : Nat)
    (changes : List RowChange) (assigned : List Nat) (k : IndexSlot) (b : IndexBinding) :
    Prog Unit :=
  if assigned.contains b.column then do
    let type := Reference.columnType original b.column
    let addon ← lift (registry.addon type)
    let same (a b : Value) : Bool := match k, addon.equal with
      | .primary, some equal => equal type.parameters a b
      | _, _ => sameStoredValue a b
    let moved := changes.filter fun r => !same (r.before.cell b.column) (r.after.cell b.column)
    forEach (fun r => do
      act (.held i) (.writableIndex k)
      act (.held i) (.eraseIndex k (r.before.cell b.column) r.inserted)) moved
    forEach (fun r => do
      act (.held i) (.writableIndex k)
      act (.held i) (.insertIndex k (r.after.cell b.column) r.inserted)) moved
  else pure ()

def synchronizeIndex (registry : Registry) (original : Table) (i : Nat) (edited : List Nat)
    (assigned : List Nat) : Prog Unit := do
  let replacement ← readTable (.held i)
  let changes := rowChanges original replacement edited
  forEach (synchronizeOrdered i changes assigned) original.ordered.zipIdx
  whenSome (synchronizeBinding registry original i changes assigned .primary) original.primary
  forEach (fun (e : IndexBinding × Nat) =>
      synchronizeBinding registry original i changes assigned (.secondary e.2) e.1)
    original.indexes.zipIdx

/-- Whether an update changes no key and no constrained table: `row_only`. -/
def rowOnly (tables : Tables) (name : Bytes) (t : Table) (assigned : List Nat)
    (selected : Option (List RowLocation)) : Bool :=
  (match selected with
    | some rows => (normalize rows).length == 1
    | none => false) &&
  t.constraints.checks.isEmpty && t.constraints.foreignKeys.isEmpty &&
  (t.primary.all fun b => !assigned.contains b.column) &&
  (t.indexes.all fun b => !assigned.contains b.column) &&
  (t.ordered.all fun x => x.columns.all fun c => !assigned.contains c) &&
  (tables.all fun e => e.2.constraints.foreignKeys.all fun k => k.referencedTable != name)

/-- The point update: prepare the changed cells, then write them into the
chunk in place. -/
def pointUpdate (registry : Registry) (name : Bytes) (t : Table) (b : BoundUpdate)
    (selected : Option (List RowLocation)) : Prog Outcome :=
  match t.groups selected with
  | [g] => do
      let (c, positions) ← lift (t.openGroup g)
      let u ← lift (b.chunk registry t.columns c positions)
      match positions, u.keys with
      | [position], [(row, new)] =>
        if row = new then return u.outcome
        else do
          detach name
          act (.stored name) (.writable g.chunk)
          act (.stored name) (.edit g.chunk fun c =>
            Chunk.refresh { c with rows := c.rows.set position new })
          act (.stored name) (.shell fun s =>
            { s with payloadBytes := s.payloadBytes - c.payloadBytes +
                (Chunk.refresh { c with rows := c.rows.set position new }).payloadBytes })
          setDirty
          return u.outcome
      | _, _ => return u.outcome
  | _ => return {}

/-- Publish a replacement whose chunks changed. -/
def publishReplacement (registry : Registry) (name : Bytes) (i : Nat) (unchanged : Nat → Bool) :
    Prog Unit := do
  let tables ← readTables
  let replacement ← readTable (.held i)
  lift (validateReplacementConstraints tables name replacement unchanged registry)
  install name i
  setDirty

def updateImpl (registry : Registry) (name : Bytes) (assignments : List Assignment)
    (filter condition : Option Filter) : Prog Outcome := do
  let tables ← readTables
  let t ← lift (requireTable tables name)
  failIf assignments.isEmpty .schema "Update requires assignments"
  let bound ← lift (bindAssignments registry t [] assignments)
  let filter ← lift (bindFilter registry t filter)
  let additional ← lift (bindFilter registry t condition)
  let candidates ← lift filter.candidates
  let assigned := bound.map Prod.fst
  let b : BoundUpdate := ⟨bound, candidates.condition, additional.condition⟩
  if rowOnly tables name t assigned candidates.selected then
    pointUpdate registry name t b candidates.selected
  else do
    let r ← updateGroups registry name t b (t.groups candidates.selected) {}
    match r.replacement with
    | none => return r.outcome
    | some i => do
        onlyIf ((t.primary.any fun b => assigned.contains b.column) || !t.indexes.isEmpty ||
            !t.ordered.isEmpty)
          (synchronizeIndex registry t i r.edited assigned)
        refreshTable (.held i)
        publishReplacement registry name i fun id => !r.edited.contains id
        return r.outcome

/-! ## Erase -/

/-- The rows of a chunk split into those that stay and those that go. -/
structure ChunkErase where
  kept : List (Row × Nat × Nat) := []
  gone : List (RowLocation × Row) := []

/-- One row of a chunk: eligible when its location was selected. -/
def eraseVisit (matching : Row → Except Error Bool) (g : Group) (acc : ChunkErase)
    (e : (Row × Nat) × Nat) : Except Error ChunkErase := do
  let location : RowLocation := ⟨g.chunk, e.2⟩
  let eligible := g.rows.all fun rows => rows.contains location
  let goes ← if eligible then matching e.1.1 else pure false
  if goes then return { acc with gone := acc.gone ++ [(location, e.1.1)] }
  else return { acc with kept := acc.kept ++ [(e.1.1, e.1.2, e.2)] }

/-- The rows of a chunk with their identities and slots. -/
def Chunk.slotted (c : Chunk) : List ((Row × Nat) × Nat) :=
  (c.rows.zip c.rowids).zipIdx.map fun e => (e.1, c.slot e.2)

def eraseChunk (matching : Row → Except Error Bool) (g : Group) (c : Chunk) :
    Except Error ChunkErase :=
  c.slotted.foldlM (eraseVisit matching g) {}

/-- The chunk that is left. Only indexed tables need the slots. -/
def ChunkErase.chunk (u : ChunkErase) (indexed : Bool) : Chunk :=
  Chunk.refresh {
    rows := u.kept.map fun e => e.1
    rowids := u.kept.map fun e => e.2.1
    slots := if indexed then u.kept.map fun e => e.2.2 else [] }

/-- Take one row out of every index of the replacement. -/
def eraseIndexes (i : Nat) (t : Table) (e : RowLocation × Row) : Prog Unit := do
  forEach (fun j => do
      act (.held i) (.detachOrdered j)
      act (.held i) (.eraseOrdered j e.2 e.1))
    (List.range t.ordered.length)
  whenSome (fun (b : IndexBinding) => do
      act (.held i) (.writableIndex .primary)
      act (.held i) (.eraseIndex .primary (e.2.cell b.column) e.1))
    t.primary
  whenSome (fun column => act (.held i) (.shell fun s => s.forgetIntegerKey (e.2.cell column)))
    t.integerPrimaryColumn
  forEach (fun (b : IndexBinding × Nat) => do
      act (.held i) (.writableIndex (.secondary b.2))
      act (.held i) (.eraseIndex (.secondary b.2) (e.2.cell b.1.column) e.1))
    t.indexes.zipIdx

/-- The general path of an erase, chunk by chunk. -/
def eraseGroups (name : Bytes) (t : Table) (matching : Row → Except Error Bool) :
    List Group → Replacing → Prog Replacing
  | [], r => pure r
  | g :: rest, r => do
      let (c, _) ← lift (t.openGroup g)
      let u ← lift (eraseChunk matching g c)
      if u.gone.isEmpty then eraseGroups name t matching rest r
      else do
        let i ← replacementFor name r.replacement
        forEach (eraseIndexes i t) u.gone
        act (.held i) (if u.kept.isEmpty then .reset g.chunk
          else .assign g.chunk (u.chunk t.indexed))
        let gone := u.gone.map Prod.snd
        eraseGroups name t matching rest
          ⟨some i, r.edited ++ [g.chunk], r.outcome.add ⟨0, gone.length, gone⟩⟩

/-- The erase of a whole table: fresh structures, the number sequences kept. -/
def eraseAll (registry : Registry) (name : Bytes) (t : Table) : Prog Nat := do
  let i ← makeTable {
    columns := t.columns
    constraints := t.constraints
    indexDefinitions := t.indexDefinitions
    nextChunk := t.nextChunk
    nextRowid := t.nextRowid
    integerPkKnown := t.integerPrimaryColumn.isSome }
  act (.held i) (.makeIndexes registry)
  publishReplacement registry name i fun _ => false
  return t.rowCount

/-- `Transaction::erase_impl`; `forced` are locations a replace found. -/
def eraseImpl (registry : Registry) (name : Bytes) (filter : Option Filter)
    (forced : Option (List RowLocation)) (returning : Bool) : Prog (Nat × List Row) := do
  let tables ← readTables
  let t ← lift (requireTable tables name)
  if filter.isNone && forced.isNone && !returning then
    if t.rowCount = 0 then return (0, [])
    else do
      let count ← eraseAll registry name t
      return (count, [])
  else do
    let bound ← lift (bindFilter registry t filter)
    let candidates ← lift (match forced with
      | some rows => .ok { selected := some rows, condition := bound.condition }
      | none => bound.candidates)
    let r ← eraseGroups name t candidates.condition (t.groups candidates.selected) {}
    match r.replacement with
    | none => return (0, [])
    | some i => do
        act (.held i) .removeEmpty
        refreshTable (.held i)
        let replacement ← readTable (.held i)
        onlyIf (replacement.rowCount == 0 && t.integerPrimaryColumn.isSome)
          (act (.held i) (.shell fun s => { s with integerPkKnown := true, integerPkMax := none }))
        publishReplacement registry name i fun id => !r.edited.contains id
        return (r.outcome.updated, r.outcome.returning)

end CoreSql
