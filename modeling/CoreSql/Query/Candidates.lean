import CoreSql.Mutation.Rows
import CoreSql.Query.Predicate
import CoreSql.Query.Ranges

/-!
# Index selection

Which rows a WHERE clause has to be tested on. `candidates` tries, in this
order, the postings of an extracted key, the primary key, a prefix of an
ordered index, a range of the primary key, and a range of the leading column
of an ordered index. A result that certifies the leading condition discharges
it: the condition is taken out of the clause, or the whole clause is emptied
when it was nothing else.

Only what comes first in a conjunction may select. A condition that was moved
ahead of a computation would keep the computation from failing on the rows it
excludes; the source says so at every path.
-/

namespace CoreSql

def TypeAddon.nativeScalar (addon : TypeAddon) : Bool :=
  addon.nativeOps && addon.layout != .bytes

/-- A comparison of a column with a literal, the column on the left. -/
structure ColumnTest where
  column : Nat
  type : SqlType
  operation : Compare
  value : Value
  comparison : Comparison

namespace BoundPredicate

def directComparison : BoundPredicate → Option ColumnTest
  | comparison ⟨.column type index, .literal _ value, operation, c⟩ =>
    some ⟨index, type, operation, value, c⟩
  | _ => none

/-- A comparison of a column with a literal, turned so that the column is on
the left. -/
def columnLiteral : BoundPredicate → Option ColumnTest
  | comparison ⟨.column type index, .literal _ value, operation, c⟩ =>
    some ⟨index, type, operation, value, c⟩
  | comparison ⟨.literal _ value, .column type index, operation, c⟩ =>
    some ⟨index, type, operation.swap, value, c⟩
  | _ => none

def leadingKeyGuard : BoundPredicate → Option BoundPredicate
  | comparison leaf => some (comparison leaf)
  | contains m => some (contains m)
  | all (child :: _) => child.leadingKeyGuard
  | _ => none

/-- What discharging the leading guard leaves: nothing when the guard is the
whole predicate, an empty conjunction in its place otherwise. -/
def discharge : BoundPredicate → Option BoundPredicate
  | comparison _ => none
  | contains _ => none
  | all (child :: rest) => some (all (child.discharge.getD (all []) :: rest))
  | p => some p

def isComparison : BoundPredicate → Bool
  | comparison _ => true
  | _ => false

end BoundPredicate

def Table.nullable (t : Table) (column : Nat) : Bool := t.columns[column]?.any Column.nullable

/-! ## Collecting conditions -/

mutual

/-- The leading conditions a callback accepts, through nested conjunctions,
and whether nothing else was met. -/
def collect {α : Type} (accept : BoundPredicate → Except Error (Option α)) :
    BoundPredicate → Except Error (List α × Bool)
  | .all children => collectAll accept children
  | p => do
      match ← accept p with
      | some a => return ([a], true)
      | none => return ([], false)

def collectAll {α : Type} (accept : BoundPredicate → Except Error (Option α)) :
    List BoundPredicate → Except Error (List α × Bool)
  | [] => .ok ([], true)
  | child :: rest => do
      let (found, more) ← collect accept child
      if more then
        let (others, more) ← collectAll accept rest
        return (found ++ others, more)
      else return (found, false)

end

/-- Keep a test of a column of the table whose type has native operators. -/
def nativeTest (t : Table) (registry : Registry) : Option ColumnTest →
    Except Error (Option ColumnTest)
  | none => .ok none
  | some test =>
    if t.columns.length ≤ test.column then .ok none
    else do
      let addon ← registry.addon test.type
      return if addon.nativeScalar then some test else none

def nativeColumnLiteral (t : Table) (registry : Registry) (p : BoundPredicate) :
    Except Error (Option ColumnTest) :=
  nativeTest t registry p.columnLiteral

/-- A test that can be neither UNKNOWN nor fail. -/
def ColumnTest.definite (t : Table) (test : ColumnTest) : Bool :=
  !test.value.isNull && !t.nullable test.column

def nativeKey (t : Table) (registry : Registry) (p : BoundPredicate) :
    Except Error (Option ColumnTest) := do
  let test ← nativeColumnLiteral t registry p
  return test.filter (ColumnTest.definite t)

/-- What `composite_candidates` collects: only comparisons with the column
written on the left. -/
def directKey (t : Table) (registry : Registry) (p : BoundPredicate) :
    Except Error (Option ColumnTest) :=
  nativeTest t registry (p.directComparison.filter (ColumnTest.definite t))

/-! ## Ranges of the primary key -/

def Compare.boundsBelow : Compare → Bool
  | greater | greaterEqual => true
  | _ => false

def Compare.boundsAbove : Compare → Bool
  | less | lessEqual => true
  | _ => false

/-- Take the value of a test for the bound, where there is none or the value is
tighter. -/
def tighten (tighter : Int → Bool) (test : ColumnTest) (bound : Option Value) : Option Value :=
  if bound.all fun b => tighter (test.comparison.compare test.value b) then some test.value
  else bound

def tightenLower : ColumnTest → Option Value → Option Value := tighten fun c => 0 < c

def tightenUpper : ColumnTest → Option Value → Option Value := tighten fun c => c < 0

/-- The bounds of the primary key, from the tests of its column. -/
def keyBounds (tests : List ColumnTest) : Option Value × Option Value :=
  tests.foldl (fun b test =>
      (if test.operation == .equal || test.operation.boundsBelow
        then tightenLower test b.1 else b.1,
        if test.operation == .equal || test.operation.boundsAbove then tightenUpper test b.2
        else b.2))
    (none, none)

def primaryRangeCandidates (t : Table) (p : BoundPredicate) (registry : Registry) :
    Except Error (Option IndexResult) :=
  match t.primary with
  | none => .ok none
  | some b => do
      let addon ← registry.addon ((t.columns[b.column]?.map Column.type).getD integerType)
      if addon.compare.isNone then return none
      else do
        let (tests, _) ← collect (nativeKey t registry) p
        let (lower, upper) := keyBounds (tests.filter fun test => test.column == b.column)
        if lower.isNone && upper.isNone then return none
        else return (b.data.range lower upper).map fun r => { r with exact := false }

/-! ## Prefixes of ordered indexes -/

/-- The value a column is fixed to, by the first test that fixes it. -/
def firstEqual (tests : List ColumnTest) (column : Nat) : Option Value :=
  (tests.find? fun test => test.column == column && test.operation == .equal).map ColumnTest.value

def lastBound (bounds : Compare → Bool) (tests : List ColumnTest) (column : Nat) : Option Value :=
  tests.foldl (fun b test =>
    if test.column == column && bounds test.operation then some test.value else b) none

/-- What the tests say about the columns of an index: leading columns that
are fixed, and bounds on the next one. -/
structure PrefixPlan where
  equal : Row := []
  lo : Option Value := none
  hi : Option Value := none

/-- The plan for an index over these columns. -/
def prefixPlan (tests : List ColumnTest) : List Nat → PrefixPlan
  | [] => {}
  | column :: rest =>
    match firstEqual tests column with
    | some value =>
      let plan := prefixPlan tests rest
      { plan with equal := value :: plan.equal }
    | none =>
      { lo := lastBound Compare.boundsBelow tests column
        hi := lastBound Compare.boundsAbove tests column }

def PrefixPlan.score (plan : PrefixPlan) : Nat :=
  plan.equal.length * 2 + (if plan.lo.isSome || plan.hi.isSome then 1 else 0)

/-- The first index with the best plan; a plan that says nothing is none. -/
def choosePrefix (tests : List ColumnTest) (indexes : List OrderedIndex) :
    Option (OrderedIndex × PrefixPlan) :=
  indexes.foldl (fun chosen x =>
      let plan := prefixPlan tests x.columns
      if (chosen.map fun c => c.2.score).getD 0 < plan.score then some (x, plan) else chosen)
    none

def compositeCandidates (t : Table) (p : BoundPredicate) (registry : Registry) :
    Except Error (Option IndexResult) :=
  if t.ordered.isEmpty then .ok none
  else do
    let (tests, _) ← collect (directKey t registry) p
    match choosePrefix tests t.ordered with
    | none => return none
    | some (x, plan) => do
        let rows ← x.prefixRange plan.equal plan.lo plan.hi
        return some { rows }

/-! ## The leading condition -/

def membershipCandidates (t : Table) (m : BoundMembership) : Except Error (Option IndexResult) :=
  match m.left, m.right with
  | .column _ index, .literal _ key =>
    if key.isNull then .ok none
    else
      match t.indexes.find? fun b =>
        b.column == index && (t.columns[b.column]?.any fun c => c.index == m.extractor) with
      | none => .ok none
      | some b => do return some (← b.data.search key)
  | _, _ => .ok none

/-- The row a primary key selects. A NULL literal selects none, and that too
is certified. -/
def pointCandidates (t : Table) (guard : BoundPredicate) : Except Error (Option IndexResult) :=
  match t.primary, guard.columnLiteral with
  | some b, some test =>
    if test.operation == .equal && test.column == b.column then
      if test.value.isNull then .ok (some { exact := true })
      else do
        let location ← t.lookup test.value
        return some { rows := location.toList, exact := true }
    else .ok none
  | _, _ => .ok none

/-- What the leading condition selects by itself. -/
def guardCandidates (t : Table) : Option BoundPredicate → Except Error (Option IndexResult)
  | some (.contains m) => membershipCandidates t m
  | some guard => pointCandidates t guard
  | none => .ok none

/-- The upper bound the second conjunct puts on a column. -/
def upperBound (column : Nat) : BoundPredicate → Option Value
  | .all (_ :: next :: _) =>
    match next.directComparison with
    | some test =>
      if test.column == column && !test.value.isNull && test.operation == .lessEqual then
        some test.value
      else none
    | none => none
  | _ => none

/-- The bounds a leading comparison gives the column of an ordered index. -/
def leadingBounds (p : BoundPredicate) (test : ColumnTest) : Option (Value × Value) :=
  match test.operation with
  | .equal => some (test.value, test.value)
  | .greaterEqual => (upperBound test.column p).map fun hi => (test.value, hi)
  | _ => none

/-- A range of the leading column of an ordered index. The rows with NULL
there stay while there is more to evaluate. -/
def leadingCandidates (t : Table) (p guard : BoundPredicate) : Option IndexResult :=
  match guard.directComparison with
  | none => none
  | some test =>
    if test.value.isNull then none
    else
      match t.ordered.find? fun x => x.columns.head? == some test.column, leadingBounds p test with
      | some x, some (lo, hi) =>
        let null := Value.null test.type
        some { rows := x.range lo hi ++
          if t.nullable test.column && !p.isComparison then x.range null null else [] }
      | _, _ => none

/-- `if (!result) result = next`. -/
def orElse {α : Type} (next : Except Error (Option α)) : Option α → Except Error (Option α)
  | some a => .ok (some a)
  | none => next

/-- The rows `candidates` returns. -/
def selectRows (t : Table) (p : BoundPredicate) (registry : Registry) :
    Except Error (Option IndexResult) := do
  let result ← guardCandidates t p.leadingKeyGuard
  let result ← orElse (compositeCandidates t p registry) result
  let result ← orElse (primaryRangeCandidates t p registry) result
  orElse (.ok (p.leadingKeyGuard.bind (leadingCandidates t p))) result

/-- `candidates`: the rows to visit, and what is left of the predicate. -/
def candidates (t : Table) (p : Option BoundPredicate) (registry : Registry) :
    Except Error (Option IndexResult × Option BoundPredicate) :=
  match p with
  | none => .ok (none, none)
  | some p => do
      let result ← selectRows t p registry
      return (result, if result.any IndexResult.exact then p.discharge else some p)

/-! ## Scanning -/

def Chunk.view (c : Chunk) (position : Nat) : RowView :=
  ⟨c.rows.getD position [], some (c.rowids.getD position 0)⟩

/-- `indexed_row`: the row an index refers to, with its identity. -/
def Table.indexedRow (t : Table) (l : RowLocation) : Except Error RowView :=
  match SortedMap.find l.chunk t.chunks with
  | none => fail .state "Index returned a missing chunk"
  | some c =>
    if c.position l.slot = c.rows.length then fail .state "Index returned a missing row"
    else .ok (c.view (c.position l.slot))

section

variable {ε : Type} (raise : Error → ε) (t : Table) (test : RowView → Except ε Bool)

/-- `visit_rows` over one chunk, keeping the rows a test accepts. -/
def scanGroup (g : Group) : Except ε (List (RowLocation × RowView)) := do
  let (c, positions) ← (t.openGroup g).mapError raise
  Fallible.filter (fun e => test e.2)
    (positions.map fun i => (⟨g.chunk, c.slot i⟩, c.view i))

/-- `visit_chunks`. -/
def scanGroups : List Group → Except ε (List (RowLocation × RowView))
  | [] => .ok []
  | g :: rest => do
      let found ← scanGroup raise t test g
      let others ← scanGroups rest
      return found ++ others

end

/-- The rows of a table a WHERE clause selects, as a query without order and
limit finds them. -/
def scan (registry : Registry) (t : Table) (p : Option BoundPredicate) :
    Except Error (List (RowLocation × RowView)) := do
  let (selected, residual) ← candidates t p registry
  scanGroups id t (optionalMatches residual) (t.groups (selected.map IndexResult.rows))

/-- A bound WHERE clause as an update or an erase uses it. -/
def predicateFilter (registry : Registry) (t : Table) (p : BoundPredicate) : BoundFilter where
  condition row := p.matches ⟨row, none⟩
  candidates := do
    let (selected, residual) ← candidates t (some p) registry
    return ⟨selected.map IndexResult.rows, fun row => optionalMatches residual ⟨row, none⟩⟩

end CoreSql
