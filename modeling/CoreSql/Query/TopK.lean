import CoreSql.Lib.Heap
import CoreSql.Query.Scan

/-!
# The first rows of an order

When only the first rows of an order are wanted, the scan keeps no more than
that many: in the order they came in until there are enough, then as a heap
whose front is the last row in order. It sorts the heap at the end; a heap
that was never filled is sorted stably, and so are the rows of a scan that is
not bounded.

The heap and sort functions are those of the standard library, about which
only what it guarantees is assumed.
-/

namespace CoreSql

namespace BoundScan

variable (std : Heap.Algorithms Match) (b : BoundScan)

/-- What `accept` does with a row that passed. -/
def keepHeap (m : Match) (kept : List Match) : List Match :=
  match b.bounded, b.limit with
  | true, some limit => Heap.keepLeast std (Match.before b.order) limit kept m
  | _, _ => kept ++ [m]

/-- The part of `accept` after WHERE. -/
def acceptMatchHeap (v : RowView) : StateT Found (Except Error) Bool := do
  let keys ← (b.keys v : Except Error _)
  let s ← get
  let kept := b.keepHeap std ⟨v, keys, s.ordinal⟩ s.kept
  set ({ kept, ordinal := s.ordinal + 1 } : Found)
  return !b.order.isEmpty || b.limit != some kept.length

/-- `accept`, in a query without a search: of rows that an index of a search
selected inexactly, the source drops those that do not match it, between the
two tests. -/
def acceptHeap (residual : Option BoundPredicate) (v : RowView) :
    StateT Found (Except Error) Bool := do
  if ← (b.passesEarly v : Except Error Bool) then
    if ← (optionalMatches residual v : Except Error Bool) then b.acceptMatchHeap std v
    else return true
  else return true

def sorted (kept : List Match) : List Match :=
  if b.order.isEmpty then kept
  else
    match b.bounded, b.limit with
    | true, some limit => Heap.sortKept std (Match.before b.order) limit kept
    | _, _ => std.stableSort (Match.before b.order) kept

def output (found : List Match) : Except Error QueryResult := do
  return { types := b.types, rows := ← found.mapM fun m => b.project m.row }

/-- `run_scan` from the first row on: the rows its loop hands to `accept`, and
the output. -/
def scanRows (residual : Option BoundPredicate) (rows : List RowView) :
    Except Error QueryResult :=
  if b.limit = some 0 then .ok { types := b.types }
  else do
    let (_, s) ← (Visit.visit (b.acceptHeap std residual) rows).run {}
    b.output (b.sorted std s.kept)

/-- The rows `accept` accepts, with their keys and numbers, if it sees all of
them. -/
def acceptedFrom (residual : Option BoundPredicate) (n : Nat) :
    List RowView → Except Error (List Match)
  | [] => .ok []
  | v :: rest => do
      if ← b.passesEarly v then
        if ← optionalMatches residual v then
          let keys ← b.keys v
          return ⟨v, keys, n⟩ :: (← acceptedFrom residual (n + 1) rest)
        else acceptedFrom residual n rest
      else acceptedFrom residual n rest

end BoundScan

end CoreSql
