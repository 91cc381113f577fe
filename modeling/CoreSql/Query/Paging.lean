import CoreSql.Query.Candidates
import CoreSql.Query.PredicateReuse
import CoreSql.Query.Source

/-!
# A cross join over paged tables

What `run_scan` does to memory while it goes through a cross join. A chunk is
resident, or it is a page that has to be read before its rows have an
address. Reading goes through the pager, which keeps what it has read in a
cache and drops the least recently used chunks that nobody else holds as soon
as the cache exceeds its target. The scan holds the chunks of its two loops,
the last left and the last right chunk, and those of the matches it retains.
A chunk that neither the cache nor the scan holds is gone, and whatever is
read next may be given its addresses.

Where the next chunk goes is for the allocator to say; it is a parameter, and
every read is written down together with the chunks that were in memory at
the time, so that a run can be asked whether its allocator was a real one.
The calls of `BoundPredicate::truth` are written down as well.
-/

namespace CoreSql

/-! ## Memory -/

structure Block where
  base : Nat
  size : Nat

namespace Block

/-- Whether an address is that of one of the rows. -/
def Contains (b : Block) (address : Nat) : Prop := b.base ≤ address ∧ address < b.base + b.size

instance (b : Block) (address : Nat) : Decidable (b.Contains address) :=
  inferInstanceAs (Decidable (_ ∧ _))

/-- No row of the one is where a row of the other is. -/
def Apart (b c : Block) : Prop :=
  b.size = 0 ∨ c.size = 0 ∨ b.base + b.size ≤ c.base ∨ c.base + c.size ≤ b.base

instance (b c : Block) : Decidable (b.Apart c) := inferInstanceAs (Decidable (_ ∨ _ ∨ _ ∨ _))

end Block

/-- `ChunkRef`: where a chunk is, or the page it has to be read from. -/
inductive ChunkRef where
  | resident (base : Nat)
  | paged (page : Nat)

/-- `paged`. -/
def ChunkRef.page : ChunkRef → Option Nat
  | resident _ => none
  | paged page => some page

structure PagedSource extends Source where
  reference : Nat → ChunkRef

/-- What a scan does with the pairs it accepts: it may keep them, and a pair
that is kept holds the chunks of its rows. -/
structure Retention (σ : Type) where
  keep : Option Nat → Option Nat → RowView → σ → Except Error (σ × Bool)
  held : σ → List Nat
  held_keep : ∀ {left right : Option Nat} {v : RowView} {s s' : σ} {more : Bool},
    keep left right v s = .ok (s', more) →
      ∀ page ∈ held s', page ∈ held s ∨ left = some page ∨ right = some page

/-- The parts of the pager and of the allocator that do not change: the
target of the cache, how many rows a page has and what they take, and the
address the allocator gives to the rows of the `n`-th page that is read. -/
structure Storage where
  target : Nat
  rows : Nat → Nat
  footprint : Nat → Nat
  place : Nat → Nat

/-- What a run writes down: a page that was read, with the chunks that were
in memory, or a call of `BoundPredicate::truth`; each with the predicate as
it was at the time. -/
inductive Event where
  | loaded (block : Block) (live : List Block) (predicate : Reused)
  | called (address : Nat) (v : RowView) (predicate : Reused)

structure ScanState (σ : Type) where
  /-- The pages of `Pager::cache_`, the least recently used first. -/
  cache : List Nat
  /-- `Pager::resident_`. -/
  resident : Nat
  /-- `Page::loaded`. -/
  loaded : List (Nat × Nat)
  loads : Nat := 0
  /-- What the loops over the chunks of the two tables hold. -/
  leftChunk : Option Nat := none
  rightChunk : Option Nat := none
  leftPin : Option Nat := none
  rightPin : Option Nat := none
  predicate : Reused
  out : σ
  events : List Event := []

/-- A scan ends with an error or not, and leaves a state either way. -/
abbrev PagedScan (σ : Type) := ExceptT Error (StateM (ScanState σ))

namespace ScanState

variable {σ : Type}

def pins (retention : Retention σ) (s : ScanState σ) : List Nat :=
  [s.leftChunk, s.rightChunk, s.leftPin, s.rightPin].reduceOption ++ retention.held s.out

/-- Whether somebody still holds the chunk of a page. -/
def live (retention : Retention σ) (s : ScanState σ) (page : Nat) : Bool :=
  s.cache.contains page || (s.pins retention).contains page

/-- `Page::loaded.lock()`. -/
def lock (retention : Retention σ) (s : ScanState σ) (page : Nat) : Option Nat :=
  if s.live retention page then s.loaded.lookup page else none

/-- The chunks in memory that were read from pages. -/
def alive (retention : Retention σ) (s : ScanState σ) : List (Nat × Nat) :=
  s.loaded.filter fun e => s.live retention e.1

end ScanState

/-! ## The pager -/

section

variable {σ : Type} (storage : Storage) (retention : Retention σ)

/-- `Pager::evict`, over the entries of the cache that are left. -/
def evict (pinned : Nat → Bool) : List Nat → Nat → List Nat × Nat
  | [], resident => ([], resident)
  | page :: rest, resident =>
    if resident ≤ storage.target then (page :: rest, resident)
    else if pinned page then
      let (kept, resident) := evict pinned rest resident
      (page :: kept, resident)
    else evict pinned rest (resident - storage.footprint page)

/-- `Pager::retain`, then `Pager::evict`. The caller of `pin` holds the page. -/
def ScanState.retain (page : Nat) (s : ScanState σ) : ScanState σ :=
  let (cache, resident) :=
    if s.cache.contains page then (s.cache.erase page ++ [page], s.resident)
    else (s.cache ++ [page], s.resident + storage.footprint page)
  let (cache, resident) :=
    evict storage (fun p => p == page || (s.pins retention).contains p) cache resident
  { s with cache, resident }

/-- `Pager::load`: the page is read to where the allocator says. -/
def ScanState.load (page : Nat) (s : ScanState σ) : ScanState σ :=
  let block : Block := ⟨storage.place s.loads, storage.rows page⟩
  let live := (s.alive retention).map fun e => Block.mk e.2 (storage.rows e.1)
  { s with
    loaded := (page, block.base) :: s.loaded.filter (·.1 != page)
    loads := s.loads + 1
    events := s.events ++ [Event.loaded block live s.predicate] }

def ScanState.pin (page : Nat) (s : ScanState σ) : Nat × ScanState σ :=
  match s.lock retention page with
  | some base => (base, s.retain storage retention page)
  | none =>
    (storage.place s.loads, (s.load storage retention page).retain storage retention page)

def ChunkRef.pin : ChunkRef → PagedScan σ Nat
  | resident base => pure base
  | paged page => modifyGet (ScanState.pin storage retention page)

end

/-! ## The scan -/

/-- A repeatable cross join: its tables, the prefix of its WHERE clause that
another stage handed down, and the clause itself. -/
structure CrossScan (σ : Type) where
  storage : Storage
  retention : Retention σ
  left : PagedSource
  right : PagedSource
  early : Option BoundPredicate
  condition : Condition

/-- Write down that `truth` is called. -/
def ScanState.call {σ : Type} (address : Nat) (v : RowView) (s : ScanState σ) : ScanState σ :=
  { s with events := s.events ++ [Event.called address v s.predicate] }

namespace CrossScan

variable {σ : Type} (scan : CrossScan σ)

/-- The WHERE test of `accept`. A column compared with a literal is tested
without `truth`. -/
def test (address : Nat) (v : RowView) : PagedScan σ Bool := do
  match scan.condition.predicate.directComparison with
  | some direct =>
    let a := v.row.cell direct.column
    return !(a.isNull || direct.value.isNull) &&
      direct.operation.holds direct.comparison a direct.value
  | none => do
      let s : ScanState σ ← get
      modify (ScanState.call address v)
      let (t, predicate) ← (s.predicate.truth address v : Except Error _)
      modify fun s => { s with predicate }
      return t = .yes

def accept (address : Nat) (v : RowView) : PagedScan σ Bool := do
  let rejected ← (match scan.early with
    | none => .ok false
    | some p => do return (← p.truth v) = .no : Except Error Bool)
  if rejected then return true
  else if ← scan.test address v then
    let s : ScanState σ ← get
    let (out, more) ← (scan.retention.keep s.leftPin s.rightPin v s.out : Except Error _)
    modify fun s => { s with out }
    return more
  else return true

def rightGroup (address : Nat) (l : RowView) (g : Group) : PagedScan σ Bool := do
  let _ ← (scan.right.toTable.openGroup ⟨g.chunk, none⟩ : Except Error _)
  let page := (scan.right.reference g.chunk).page
  let _ ← (scan.right.reference g.chunk).pin scan.storage scan.retention
  let (c, positions) ← (scan.right.toTable.openGroup g : Except Error _)
  modify fun s => { s with rightChunk := page }
  let more ← Visit.visit (fun i => do
    modify fun s => { s with rightPin := page }
    scan.accept address ⟨l.row ++ (c.view i).row, l.id⟩) positions
  modify fun s => { s with rightChunk := none }
  return more

/-- The left rows of one chunk, each with every right row. -/
def leftGroup (g : Group) : PagedScan σ Bool := do
  let _ ← (scan.left.toTable.openGroup ⟨g.chunk, none⟩ : Except Error _)
  let page := (scan.left.reference g.chunk).page
  let base ← (scan.left.reference g.chunk).pin scan.storage scan.retention
  let (c, positions) ← (scan.left.toTable.openGroup g : Except Error _)
  modify fun s => { s with leftChunk := page, leftPin := page }
  let more ← Visit.visit (fun i =>
    Visit.visit (scan.rightGroup (base + i) (c.view i)) scan.right.groups) positions
  modify fun s => { s with leftChunk := none }
  return more

/-- The loop of `run_scan`. -/
def run : PagedScan σ Bool := Visit.visit scan.leftGroup scan.left.groups

/-- The state a scan starts in: the cache holds what earlier queries left. -/
def start (cache : List Nat) (resident : Nat) (loaded : List (Nat × Nat)) (out : σ) :
    ScanState σ :=
  { cache, resident, loaded, out
    predicate := reuseLeftPredicates scan.left.columns.length scan.condition }

def events (s : ScanState σ) : List Event := (scan.run.run.run s).2.events

end CrossScan

end CoreSql
