import CoreSql.Data.Constraints

/-!
# Programs over staged tables

A mutation reads the staged tables, edits a stored table in place or builds
a replacement beside it, and publishes the result by assigning a pointer. It
is written here as a program over the operations it performs on tables, and
run over plain values, which is what it computes.

`Place` says which table object an operation is for: the one a name of the
staged map refers to, or one a local variable of the mutation holds. A
`TableOp` is one access to a table object. Tables, chunks and indexes are
shared with other states until `detach`, `writable` and the like make a copy.
Sharing is not modelled: every place has a table of its own, these operations
change no value, and what they do for other holders of an object is outside
this development. They stand in the programs where the source has them.

A run keeps what was done before an error.
-/

namespace CoreSql

/-- Where a `std::shared_ptr<Table>` is kept. -/
inductive Place where
  | stored (name : Bytes)
  | held (i : Nat)
  deriving DecidableEq

inductive IndexSlot where
  | primary
  | secondary (i : Nat)
  deriving DecidableEq

inductive TableOp where
  /-- Assign plain members. -/
  | shell (f : Shell → Shell)
  /-- `chunks.reserve_insert(id)`. -/
  | reserveInsert (id : Nat)
  /-- `chunks[id].writable()`. -/
  | writable (id : Nat)
  /-- Write through the reference `writable` returned. -/
  | edit (id : Nat) (f : Chunk → Chunk)
  /-- `chunks[id] = std::make_shared<Chunk>(...)`. -/
  | assign (id : Nat) (c : Chunk)
  /-- `chunks.emplace(id, std::make_shared<Chunk>(...))`. -/
  | emplace (id : Nat) (c : Chunk)
  /-- `chunks[id].reset()`. -/
  | reset (id : Nat)
  /-- `chunks.remove_empty()`. -/
  | removeEmpty
  /-- `chunks = {}`. -/
  | clear
  /-- `index = std::make_shared<OrderedIndex>(*index)`. -/
  | copyOrdered (i : Nat)
  /-- The same, only when the index is shared. -/
  | detachOrdered (i : Nat)
  | insertOrdered (i : Nat) (row : Row) (l : RowLocation)
  | eraseOrdered (i : Nat) (row : Row) (l : RowLocation)
  /-- `writable_index(index)`. -/
  | writableIndex (k : IndexSlot)
  | insertIndex (k : IndexSlot) (v : Value) (l : RowLocation)
  | eraseIndex (k : IndexSlot) (v : Value) (l : RowLocation)
  /-- `ordered.push_back(...)`. -/
  | pushOrdered (x : OrderedIndex)
  /-- `ordered.erase(ordered.begin() + i)`. -/
  | dropOrdered (i : Nat)
  /-- `make_indexes(table, registry)`. -/
  | makeIndexes (registry : Registry)

def Table.binding (t : Table) : IndexSlot → Option IndexBinding
  | .primary => t.primary
  | .secondary i => t.indexes[i]?

def Table.setBinding (t : Table) (b : IndexBinding) : IndexSlot → Table
  | .primary => { t with primary := some b }
  | .secondary i => { t with indexes := t.indexes.set i b }

/-- Edit the binding in a slot; an empty slot is left alone. -/
def Table.editIndex (t : Table) (k : IndexSlot) (f : Index → Except Error Index) :
    Except Error Table :=
  match t.binding k with
  | none => .ok t
  | some b => do return t.setBinding { b with data := ← f b.data } k

def Table.editOrdered (t : Table) (i : Nat) (f : OrderedIndex → Except Error OrderedIndex) :
    Except Error Table :=
  match t.ordered[i]? with
  | none => .ok t
  | some x => do return { t with ordered := t.ordered.set i (← f x) }

/-- What an access does to the value of a table. -/
def TableOp.apply : TableOp → Table → Except Error Table
  | shell f, t => .ok { t with toShell := f t.toShell }
  | reserveInsert _, t => .ok t
  | writable _, t => .ok t
  | edit id f, t =>
    .ok (match SortedMap.find id t.chunks with
      | some c => { t with chunks := SortedMap.insert id (f c) t.chunks }
      | none => t)
  | assign id c, t => .ok { t with chunks := SortedMap.insert id c t.chunks }
  | emplace id c, t =>
    .ok (match SortedMap.find id t.chunks with
      | some _ => t
      | none => { t with chunks := SortedMap.insert id c t.chunks })
  -- The null reference is gone again after `remove_empty`, before a read.
  | reset id, t => .ok { t with chunks := SortedMap.erase id t.chunks }
  | removeEmpty, t => .ok t
  | clear, t => .ok { t with chunks := [] }
  | copyOrdered _, t => .ok t
  | detachOrdered _, t => .ok t
  | insertOrdered i row l, t => t.editOrdered i fun x => x.insert row l
  | eraseOrdered i row l, t => t.editOrdered i fun x => x.erase row l
  | writableIndex _, t => .ok t
  | insertIndex k v l, t => t.editIndex k fun x => x.insert v l
  | eraseIndex k v l, t => t.editIndex k fun x => x.erase v l
  | pushOrdered x, t => .ok { t with ordered := t.ordered ++ [x] }
  | dropOrdered i, t => .ok { t with ordered := t.ordered.eraseIdx i }
  | makeIndexes registry, t => CoreSql.makeIndexes t registry

inductive Op where
  /-- Read the staged map. -/
  | tables
  /-- Read one table. -/
  | table (p : Place)
  /-- `if (stored.use_count() != 1) stored = std::make_shared<Table>(*stored)`. -/
  | detach (name : Bytes)
  /-- `std::make_shared<Table>(*table)`. -/
  | copy (p : Place)
  /-- `std::make_shared<Table>()` with these members. -/
  | make (s : Shell)
  /-- `auto ordered = table.ordered; auto indexes = table.indexes`. -/
  | stage (p : Place)
  | on (p : Place) (o : TableOp)
  /-- Move staged index vectors back into a table. -/
  | publish (p : Place) (i : Nat)
  /-- `tables[name] = std::move(local)`. -/
  | install (name : Bytes) (i : Nat)
  | uninstall (name : Bytes)
  /-- Move a table to another name. -/
  | rename (name replacement : Bytes)
  | setDirty
  /-- `schema_epoch = std::make_shared<const int>(0)`. -/
  | newEpoch

def Op.Reply : Op → Type
  | tables => Tables
  | table _ => Table
  | copy _ | make _ | stage _ => Nat
  | _ => Unit

inductive Prog (α : Type) where
  | ret (a : α)
  | throw (e : Error)
  | op (o : Op) (k : o.Reply → Prog α)

namespace Prog

variable {α β : Type}

def bind : Prog α → (α → Prog β) → Prog β
  | ret a, f => f a
  | throw e, _ => throw e
  | op o k, f => op o fun r => (k r).bind f

instance : Monad Prog where
  pure := ret
  bind := bind

def perform (o : Op) : Prog o.Reply := op o ret

/-- An error of a pure computation ends the program. -/
def lift : Except Error α → Prog α
  | .ok a => ret a
  | .error e => throw e

/-- `throw Error(code, "...")`. -/
def fail (code : ErrorCode) (message : String) : Prog α := throw ⟨code, lit message⟩

/-- `if (condition) throw Error(code, "...")`. -/
def failIf (condition : Bool) (code : ErrorCode) (message : String) : Prog Unit :=
  if condition then fail code message else ret ()

def onlyIf (condition : Bool) (p : Prog Unit) : Prog Unit := if condition then p else ret ()

def whenSome (f : α → Prog Unit) : Option α → Prog Unit
  | none => ret ()
  | some a => f a

def forEach (f : α → Prog Unit) : List α → Prog Unit
  | [] => ret ()
  | a :: rest => (f a).bind fun _ => forEach f rest

end Prog

/-! ## Running over values -/

/-- The part of a transaction a mutation changes. -/
structure Staged where
  state : State := {}
  dirty : Bool := false

/-- A running mutation: the transaction and its local variables. -/
structure Work where
  staged : Staged
  held : List Table := []

namespace Work

def tables (w : Work) : Tables := w.staged.state.tables

def setTables (w : Work) (tables : Tables) : Work :=
  { w with staged := { w.staged with state := { w.staged.state with tables } } }

def get (w : Work) : Place → Option Table
  | .stored name => SortedMap.find name w.tables
  | .held i => w.held[i]?

def set (w : Work) (t : Table) : Place → Work
  | .stored name => w.setTables (SortedMap.insert name t w.tables)
  | .held i => { w with held := w.held.set i t }

def hold (w : Work) (t : Table) : Nat × Work := (w.held.length, { w with held := w.held ++ [t] })

end Work

/-- One operation on values. A place that holds nothing is left alone: no
program names one. -/
def Op.perform : (o : Op) → Work → Except Error o.Reply × Work
  | tables, w => (.ok w.tables, w)
  | table p, w => (.ok ((w.get p).getD {}), w)
  | detach _, w => (.ok (), w)
  | copy p, w => let (i, w) := w.hold ((w.get p).getD {}); (.ok i, w)
  | make s, w => let (i, w) := w.hold { toShell := s }; (.ok i, w)
  | stage p, w =>
    let t := (w.get p).getD {}
    let (i, w) := w.hold { ordered := t.ordered, indexes := t.indexes }
    (.ok i, w)
  | on p o, w =>
    match w.get p with
    | none => (.ok (), w)
    | some t =>
      match o.apply t with
      | .ok t => (.ok (), w.set t p)
      | .error e => (.error e, w)
  | publish p i, w =>
    match w.get p, w.held[i]? with
    | some t, some x => (.ok (), w.set { t with ordered := x.ordered, indexes := x.indexes } p)
    | _, _ => (.ok (), w)
  | install name i, w =>
    match w.held[i]? with
    | some t => (.ok (), w.setTables (SortedMap.insert name t w.tables))
    | none => (.ok (), w)
  | uninstall name, w => (.ok (), w.setTables (SortedMap.erase name w.tables))
  | rename name replacement, w =>
    match SortedMap.find name w.tables with
    | some t =>
      (.ok (), w.setTables
        (SortedMap.insert replacement t (SortedMap.erase name w.tables)))
    | none => (.ok (), w)
  | setDirty, w => (.ok (), { w with staged := { w.staged with dirty := true } })
  | newEpoch, w =>
    (.ok (), { w with staged := { w.staged with
      state := { w.staged.state with epoch := w.staged.state.epoch + 1 } } })

def Prog.run {α : Type} : Prog α → Work → Except Error α × Work
  | .ret a, w => (.ok a, w)
  | .throw e, w => (.error e, w)
  | .op o k, w =>
    match o.perform w with
    | (.ok r, w) => (k r).run w
    | (.error e, w) => (.error e, w)

/-- Run a mutation on a transaction; its local variables go with it. -/
def Prog.execute {α : Type} (p : Prog α) (s : Staged) : Except Error α × Staged :=
  ((p.run { staged := s }).1, (p.run { staged := s }).2.staged)

end CoreSql
