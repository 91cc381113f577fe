import CoreSql.Lib.Walk
import CoreSql.Query.Candidates

/-!
# Walking an ordered index

`OrderedIndex::Walk`, the iterator behind ordered scans: a stack of nodes
whose near side is done, a direction, and bounds or none. Each call of
`next_entry` returns an entry and moves on.
-/

namespace CoreSql

/-- `OrderedIndex::Bounds`: values of leading columns, and bounds on the next
one. -/
structure Bounds where
  equal : Row := []
  lower : Option Value := none
  upper : Option Value := none

/-- Where a key stands to the leading values: the loop of `position`. -/
def leadingPosition : List KeyOrder → Row → Row → Int
  | o :: os, k :: ks, v :: vs =>
    let c := if k.isNull then -1 else o.compare k v
    if c ≠ 0 then if o.descending then -c.sign else c.sign else leadingPosition os ks vs
  | _, _, _ => 0

def OrderedIndex.position (x : OrderedIndex) (b : Bounds) (key : Row) : Int :=
  let c := leadingPosition x.order key b.equal
  if c ≠ 0 then c
  else if b.equal.length = x.columns.length then 0
  else
    let o := x.orderAt b.equal.length
    let k := key.cell b.equal.length
    let compare (v : Value) : Int := if k.isNull then -1 else o.compare k v
    if b.lower.any fun v => compare v < 0 then if o.descending then 1 else -1
    else if b.upper.any fun v => 0 < compare v then if o.descending then -1 else 1
    else 0

namespace OrderedIndex

structure Walk where
  index : OrderedIndex
  reverse : Bool
  bounds : Option Bounds
  stack : List (OrderedEntry × Avl OrderedEntry) := []

namespace Walk

/-- `position`. Without bounds nothing is out of them. -/
def position (w : Walk) (e : OrderedEntry) : Int :=
  match w.bounds with
  | none => 0
  | some b => w.index.position b e.1

/-- `Walk(index, reverse, bounds)`. -/
def start (index : OrderedIndex) (reverse : Bool) (bounds : Option Bounds) : Walk :=
  let w : Walk := { index, reverse, bounds }
  { w with stack := Avl.seek reverse w.position index.root [] }

def nextEntry (w : Walk) : Option OrderedEntry × Walk :=
  let (e, stack) := Avl.next w.reverse w.position w.stack
  (e, { w with stack })

/-- The walk after some calls of `next_entry`. -/
def after (w : Walk) : Nat → Walk
  | 0 => w
  | n + 1 => (w.after n).nextEntry.2

end Walk

end OrderedIndex

end CoreSql
