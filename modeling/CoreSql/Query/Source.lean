import CoreSql.Lib.Visit
import CoreSql.Query.Candidates

/-!
# What a query reads

A query reads tables and views of tables. A view keeps the chunks of the
table it was made from and lists the locations of the rows it shows, in scan
order; it has none of the table's indexes, because they would find the rows
it leaves out. In the source both are a `Table`, a view being one whose
`selection` is set.

Every reader goes through `visit_table_rows`, which hands rows to a callback
until the callback asks it to stop.
-/

namespace CoreSql

/-- `Table` as queries see it. -/
structure Source extends Table where
  selection : Option (List RowLocation) := none

def Table.source (t : Table) : Source := { t with }

namespace Source

/-- What `visit_chunks` goes through when nothing was offered: whole chunks,
or the selection cut where the chunk changes. -/
def groups (s : Source) : List Group :=
  match s.selection with
  | none => s.chunks.map fun e => ⟨e.1, none⟩
  | some rows => groupRows rows

section

variable {m : Type → Type} [Monad m] [MonadLiftT (Except Error) m]

/-- `visit_rows` over one chunk. -/
def visitGroup (s : Source) (visit : RowLocation × RowView → m Bool) (g : Group) : m Bool := do
  let (c, positions) ← (s.toTable.openGroup g : Except Error _)
  Visit.visit (fun i => visit (⟨g.chunk, c.slot i⟩, c.view i)) positions

def visitTableRows (s : Source) (visit : RowLocation × RowView → m Bool) : m Bool :=
  Visit.visit (s.visitGroup visit) s.groups

end

/-- `indexed_row`, of a table or a view: a join has no use for the identity of the row. -/
def indexedRow (s : Source) (l : RowLocation) : Except Error Row := do
  return (← s.toTable.indexedRow l).row

end Source

end CoreSql
