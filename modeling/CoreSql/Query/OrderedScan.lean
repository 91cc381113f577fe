import CoreSql.Query.IndexWalk
import Mathlib.Data.List.Sort

/-!
# Ordered scans

A query over one table that orders by columns can walk an ordered index
instead of sorting, and stop at its limit. `orderedScanPlan` looks for an
index that starts with the columns the WHERE clause fixes and goes on with
the ORDER BY columns, all in their directions or all against them; only
clauses that consist of comparisons of native columns with literals qualify,
because stopping early must not hide an error.

Complete ties have to come in table order, and an index breaks ties by its
further columns. `OrderedScan` therefore reads a whole group of entries that
agree on the ORDER BY columns, sorts it by location, and returns it entry by
entry.

An ORDER BY column that the clause fixes needs no place in the index order,
yet `sameOrder` compares it as well, on entries the clause has not been
tested on.
-/

namespace CoreSql

/-! ## Planning -/

structure Order where
  expression : Expr
  descending : Bool := false

structure OrderColumn where
  column : Nat
  type : SqlType
  descending : Bool

/-- The ORDER BY list as columns of native types; nothing if it is not one. -/
def orderColumns (registry : Registry) (columns : List Column) :
    List Order → Except Error (Option (List OrderColumn))
  | [] => .ok (some [])
  | ⟨.node .column head arguments, descending⟩ :: rest => do
      match ← bind registry columns 0 (.node .column head arguments) with
      | .column type index =>
        let addon ← registry.addon type
        if addon.nativeScalar then
          let others ← orderColumns registry columns rest
          return others.map (⟨index, type, descending⟩ :: ·)
        else return none
      | _ => return none
  | _ => .ok none

/-- An output expression, as far as planning looks into it: the columns its
tree names, if it names no row identity, and its value. -/
structure Projected where
  columns : Option (List Nat)
  evaluate : RowView → Except Error Value

def Projected.covered (e : Projected) (x : OrderedIndex) : Bool :=
  e.columns.any fun columns => columns.all x.columns.contains

/-- `equal`: the value a column without NULLs is fixed to. -/
def fixedValue (t : Table) (tests : List ColumnTest) (column : Nat) : Option Value :=
  (tests.find? fun test =>
    test.column == column && test.operation == .equal && test.definite t).map ColumnTest.value

/-- The bounds of the first column that is not fixed. -/
def columnBounds (t : Table) (tests : List ColumnTest) (column : Nat) : Bounds :=
  (tests.filter fun test => test.column == column && test.definite t).foldl
    (fun b test =>
      { b with
        lower := if test.operation.boundsBelow then tightenLower test b.lower else b.lower
        upper := if test.operation.boundsAbove then tightenUpper test b.upper else b.upper })
    {}

/-- The bounds of an index over these columns. -/
def indexBounds (t : Table) (tests : List ColumnTest) : List Nat → Bounds
  | [] => {}
  | column :: rest =>
    match fixedValue t tests column with
    | some value =>
      let b := indexBounds t tests rest
      { b with equal := value :: b.equal }
    | none => columnBounds t tests column

/-- `OrderedScanPlan`. An order key is a position in the index key and its
comparison. -/
structure OrderedScanPlan where
  index : OrderedIndex
  bounds : Bounds
  reverse : Bool
  orderKeys : List (Nat × Comparison)
  rowColumns : List (Option Nat)

/-- The loop that matches the ORDER BY columns with an index: each is a
column of it; one that is not fixed is the next after the leading values, in
a direction that agrees with the others. -/
def matchOrder (registry : Registry) (x : OrderedIndex) (fixed : Nat → Bool) :
    Nat → Option Bool → List OrderColumn →
      Except Error (Option (List (Nat × Comparison) × Option Bool))
  | _, reverse, [] => .ok (some ([], reverse))
  | position, reverse, o :: rest =>
    match x.columns.findIdx? (· == o.column) with
    | none => .ok none
    | some key => do
        let comparison ← Comparison.create registry o.type false
        let flip := (x.orderAt key).descending != o.descending
        let add := fun (found : List (Nat × Comparison) × Option Bool) =>
          ((key, comparison) :: found.1, found.2)
        if fixed o.column then
          return (← matchOrder registry x fixed position reverse rest).map add
        else if key != position || reverse.any (· != flip) then return none
        else return (← matchOrder registry x fixed (position + 1) (some flip) rest).map add

/-- The plan for one index, and how good it is. -/
def planFor (registry : Registry) (t : Table) (tests : List ColumnTest) (order : List OrderColumn)
    (projection : List Projected) (x : OrderedIndex) :
    Except Error (Option (OrderedScanPlan × Nat)) := do
  let bounds := indexBounds t tests x.columns
  let found ← matchOrder registry x (fun column => (fixedValue t tests column).isSome)
    bounds.equal.length none order
  return found.map fun found =>
    let covering := (projection.all fun e => e.covered x) &&
      tests.all fun test => x.columns.contains test.column
    ({ index := x, bounds, reverse := found.2.getD false, orderKeys := found.1
       rowColumns := (List.range t.columns.length).map fun column =>
         x.columns.findIdx? (· == column) },
      (1 + bounds.equal.length * 2 +
        (if bounds.lower.isSome || bounds.upper.isSome then 1 else 0)) *
        2 + if covering then 1 else 0)

def choosePlan (registry : Registry) (t : Table) (tests : List ColumnTest)
    (order : List OrderColumn) (projection : List Projected) :
    Except Error (Option (OrderedScanPlan × Nat)) :=
  t.ordered.foldlM (fun chosen x => do
      let found ← planFor registry t tests order projection x
      return if (chosen.map Prod.snd).getD 0 < (found.map Prod.snd).getD 0 then found else chosen)
    none

/-- `collect_keys`: the conjuncts of the clause, and whether all of them are
native tests. -/
def collectKeys (t : Table) (registry : Registry) :
    Option BoundPredicate → Except Error (List ColumnTest × Bool)
  | none => .ok ([], true)
  | some p => collect (nativeColumnLiteral t registry) p

def orderedScanPlan (registry : Registry) (t : Table) (p : Option BoundPredicate)
    (orderBy : List Order) (projection : List Projected) : Except Error (Option OrderedScanPlan) :=
  if orderBy.isEmpty || t.ordered.isEmpty then .ok none
  else do
    let (tests, complete) ← collectKeys t registry p
    if !complete then return none
    else do
      let order ← orderColumns registry t.columns orderBy
      match order with
      | none => return none
      | some order => do
          let chosen ← choosePlan registry t tests order projection
          return chosen.map Prod.fst

/-! ## Scanning -/

/-- `OrderedScan`: the walk, the entry that ended the last group, and what is
left of that group. -/
structure OrderedScan where
  stack : List (OrderedEntry × Avl OrderedEntry)
  pending : Option OrderedEntry := none
  group : List OrderedEntry := []

namespace OrderedScanPlan

variable (plan : OrderedScanPlan) {stack stack' : List (OrderedEntry × Avl OrderedEntry)}
  {e first : OrderedEntry} {s s' : OrderedScan}

/-- Where an entry stands to the bounds of the plan. -/
def position (e : OrderedEntry) : Int := plan.index.position plan.bounds e.1

/-- `OrderedScan(table, plan)`. -/
def start : OrderedScan :=
  { stack := (OrderedIndex.Walk.start plan.index plan.reverse (some plan.bounds)).stack }

/-- `read`: the next entry of the walk, and where the walk then is. Tables with ordered indexes have
no row selection. -/
def read (stack : List (OrderedEntry × Avl OrderedEntry)) :
    Option OrderedEntry × List (OrderedEntry × Avl OrderedEntry) :=
  let w : OrderedIndex.Walk :=
    { index := plan.index, reverse := plan.reverse, bounds := some plan.bounds, stack }
  (w.nextEntry.1, w.nextEntry.2.stack)

theorem read_eq (stack : List (OrderedEntry × Avl OrderedEntry)) :
    plan.read stack = Avl.next plan.reverse plan.position stack := rfl

def sameOrder (a b : Row) : Bool :=
  plan.orderKeys.all fun k => k.2.compare (a.cell k.1) (b.cell k.1) == 0

def ahead (stack : List (OrderedEntry × Avl OrderedEntry)) : Nat :=
  (Avl.upcoming plan.reverse stack).length

theorem ahead_read
    (h : plan.read stack = (some e, stack')) : plan.ahead stack' + 1 = plan.ahead stack := by
  cases stack with
  | nil => cases h
  | cons node stack =>
    rw [read_eq, Avl.next] at h
    split at h
    · cases h
    · obtain ⟨-, rfl⟩ := Prod.mk.inj h
      rw [ahead, ahead, Avl.upcoming_descend]
      simp [Avl.upcoming]

/-- The loop that collects a group: the entries in the order of `key`, and the
one that ended it. -/
def gather (key : Row) (stack : List (OrderedEntry × Avl OrderedEntry)) :
    List OrderedEntry × Option OrderedEntry × List (OrderedEntry × Avl OrderedEntry) :=
  match _h : plan.read stack with
  | (none, stack) => ([], none, stack)
  | (some e, rest) =>
    if plan.sameOrder key e.1 then
      let (group, pending, rest) := gather key rest
      (e :: group, pending, rest)
    else ([], some e, rest)
  termination_by plan.ahead stack
  decreasing_by
    have := plan.ahead_read _h
    omega

/-- The entry a group begins with: the one that ended the last group, or the
next of the walk. -/
def opening (s : OrderedScan) : Option OrderedEntry × List (OrderedEntry × Avl OrderedEntry) :=
  match s.pending with
  | some e => (some e, s.stack)
  | none => plan.read s.stack

/-- Collect the group that begins with an entry, sort it, and return its
first. -/
def nextGroup (first : OrderedEntry) (stack : List (OrderedEntry × Avl OrderedEntry)) :
    Option OrderedEntry × OrderedScan :=
  let found := plan.gather first.1 stack
  match (first :: found.1).insertionSort fun a b => a.2 ≤ b.2 with
  | [] => (none, { stack := found.2.2, pending := found.2.1 })
  | e :: group => (some e, { stack := found.2.2, pending := found.2.1, group })

def next (s : OrderedScan) : Option OrderedEntry × OrderedScan :=
  match s.group with
  | e :: group => (some e, { s with group })
  | [] =>
    match plan.opening s with
    | (none, stack) => (none, { stack })
    | (some first, stack) => plan.nextGroup first stack

/-- What a scan still has to return, counted. -/
def size (s : OrderedScan) : Nat :=
  s.group.length + s.pending.toList.length + plan.ahead s.stack

theorem gather_size (key : Row) (stack : List (OrderedEntry × Avl OrderedEntry)) :
    (plan.gather key stack).1.length + (plan.gather key stack).2.1.toList.length +
      plan.ahead (plan.gather key stack).2.2 ≤ plan.ahead stack := by
  fun_induction plan.gather key stack with
  | case1 stack stack' h =>
    have hempty : stack' = [] := by
      rw [read_eq, Avl.next.eq_def] at h
      split at h
      · exact (Prod.mk.inj h).2.symm
      · split at h
        · exact (Prod.mk.inj h).2.symm
        · cases h
    simp [hempty, ahead, Avl.upcoming]
  | case2 stack e rest h hsame group pending rest' heq ih =>
    have := plan.ahead_read h
    simp only [heq] at ih
    simp only [List.length_cons]
    omega
  | case3 stack e rest h hsame =>
    have := plan.ahead_read h
    simp only [List.length_nil, Option.toList_some, List.length_singleton]
    omega

theorem opening_size (h : plan.opening s = (some e, stack)) :
    plan.ahead stack + 1 = s.pending.toList.length + plan.ahead s.stack := by
  rw [opening] at h
  split at h
  · next e' hpending =>
      cases h
      simp [hpending, Nat.add_comm]
  · next hpending =>
      have := plan.ahead_read h
      simpa [hpending] using this

theorem nextGroup_size
    (h : plan.nextGroup first stack = (some e, s)) : plan.size s ≤ plan.ahead stack := by
  rw [nextGroup] at h
  split at h
  · cases h
  · next e' group hsort =>
      cases h
      have hlength := (List.perm_insertionSort (fun a b : OrderedEntry => a.2 ≤ b.2)
        (first :: (plan.gather first.1 stack).1)).length_eq
      have hgather := plan.gather_size first.1 stack
      rw [hsort, List.length_cons, List.length_cons] at hlength
      simp only [size]
      omega

theorem next_size (h : plan.next s = (some e, s')) : plan.size s' < plan.size s := by
  rw [next] at h
  split at h
  · next e' group hgroup =>
      cases h
      simp [size, hgroup]
  · next hgroup =>
      split at h
      · cases h
      · next first stack hopening =>
          have hgroupSize := plan.nextGroup_size h
          have hopeningSize := plan.opening_size hopening
          simp only [size, hgroup, List.length_nil] at hgroupSize ⊢
          omega

end OrderedScanPlan

/-- One cell of an `IndexRow`: from the index key where the index has the
column. -/
def indexCell (key row : Row) : Option Nat × Nat → Value
  | (some k, _) => key.cell k
  | (none, column) => row.cell column

/-- `IndexRow`. The source fetches the row only when it is asked for a cell
the index does not have, or for the identity; an entry of an index always has
a row, so this cannot be told. -/
def OrderedScanPlan.indexRow (plan : OrderedScanPlan) (t : Table) (e : OrderedEntry) :
    Except Error RowView := do
  let v ← t.indexedRow e.2
  return { v with row := plan.rowColumns.zipIdx.map (indexCell e.1 v.row) }

section

variable {ρ : Type} (t : Table) (plan : OrderedScanPlan) (p : Option BoundPredicate)
  (emit : RowLocation × RowView → Except Error ρ) (limit : Nat)

/-- The loop of `run_scan` over an ordered scan: what `emit` makes of the
rows that pass, until there are as many as the limit. -/
def orderedLoop (produced : Nat) (s : OrderedScan) : Except Error (List ρ) :=
  match _h : plan.next s with
  | (none, _) => .ok []
  | (some e, s) => do
      let v ← plan.indexRow t e
      if ← optionalMatches p v then
        let output ← emit (e.2, v)
        if produced + 1 = limit then return [output]
        else
          let others ← orderedLoop (produced + 1) s
          return output :: others
      else orderedLoop produced s
  termination_by plan.size s
  decreasing_by
    all_goals exact plan.next_size _h

/-- The ordered scan of `run_scan`; a limit of zero is answered before. -/
def orderedScan : Except Error (List ρ) :=
  if limit = 0 then .ok [] else orderedLoop t plan p emit limit 0 plan.start

end

def projectRow (projection : List Projected) (e : RowLocation × RowView) : Except Error Row :=
  projection.mapM fun expression => expression.evaluate e.2

end CoreSql
