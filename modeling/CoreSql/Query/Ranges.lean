import CoreSql.Data.Table

/-!
# Searching an index

What the indexes offer to a query besides the lookup of one key: inclusive
ranges over unique keys, the postings of an extracted key, and walks of an
ordered index between bounds on its leading columns. Each answers with
locations in an order of its own; the query sorts them.
-/

namespace CoreSql

/-- `IndexResult`. An exact result certifies the condition it was asked for
on every row it returns. -/
structure IndexResult where
  rows : List RowLocation := []
  exact : Bool := false

/-- `INT64_MIN` and `INT64_MAX`. -/
def minKey : Int := -2 ^ 63
def maxKey : Int := 2 ^ 63 - 1

/-! ## The hash index -/

namespace HashIndex

def integerLookup (h : HashIndex) (key : Int) : Option RowLocation :=
  SortedMap.find key (h.integers (nativeNumber key))

/-- The walk of one bucket of integers: from `lower` on, up to `last`. -/
def integersBetween (first last : Int) (bucket : List (Int × RowLocation)) : List RowLocation :=
  ((bucket.dropWhile fun e => e.1 < first).takeWhile fun e => e.1 ≤ last).map Prod.snd

/-- The walk of one ordered bucket, from `lower_bound` on. -/
def bucketBetween (compare : Value → Value → Int) (lo hi : Option Value) (bucket : Bucket) :
    List RowLocation :=
  ((bucket.dropWhile fun e => lo.any fun lo => compare e.1 lo < 0).takeWhile fun e =>
    hi.all fun hi => !decide (compare hi e.1 < 0)).map Prod.snd

/-- `range`. A span narrower than the number of buckets is probed key by
key. -/
def range (h : HashIndex) (lo hi : Option Value) : IndexResult :=
  if h.native then
    let first := (lo.map payload).getD minKey
    let last := (hi.map payload).getD maxKey
    if last < first then {}
    else if last - first < bucketCount then
      { rows := (List.range ((last - first).toNat + 1)).filterMap fun (i : Nat) =>
          h.integerLookup (first + i) }
    else
      { rows := (List.range bucketCount).flatMap fun n =>
        integersBetween first last (h.integers n) }
  else
    { rows := (List.range bucketCount).flatMap fun n =>
      bucketBetween h.compare lo hi (h.buckets n) }

end HashIndex

/-! ## The paged index -/

namespace PagedIndex

/-- The loop of `range`: the image and the changes from the lower bound on,
merged up to the upper one. A change replaces the record it has the key of. -/
def rangeLoop (hi : Int) :
    List (Int × RowLocation) → List (Int × Option RowLocation) → List RowLocation
  | [], [] => []
  | b :: base, [] => if b.1 ≤ hi then b.2 :: rangeLoop hi base [] else []
  | [], c :: changes => if c.1 ≤ hi then c.2.toList ++ rangeLoop hi [] changes else []
  | b :: base, c :: changes =>
    if hi < b.1 then
      if c.1 ≤ hi then c.2.toList ++ rangeLoop hi (b :: base) changes else []
    else if c.1 ≤ hi ∧ c.1 ≤ b.1 then
      c.2.toList ++ rangeLoop hi (if c.1 = b.1 then base else b :: base) changes
    else b.2 :: rangeLoop hi base (c :: changes)
  termination_by base changes => base.length + changes.length
  decreasing_by
    all_goals (try split) <;> simp only [List.length_cons, List.length_nil] <;> omega

def range (x : PagedIndex) (lower upper : Option Value) : IndexResult :=
  let lo := (lower.map payload).getD minKey
  let hi := (upper.map payload).getD maxKey
  { rows := rangeLoop hi (x.base.dropWhile fun e => e.1 < lo)
      (x.changes.dropWhile fun e => e.1 < lo) }

end PagedIndex

/-! ## The extracted-key index -/

/-- The locations of the bits of a posting, block by block. -/
def Posting.locations (p : Posting) : List RowLocation :=
  p.flatMap fun e =>
    ((List.range 128).filter fun i => e.2.getLsbD i).map fun i => ⟨e.1.chunk, e.1.slot + i⟩

/-- `search("equal", key)`. Only a key that is there is certified. -/
def KeyIndex.search (x : KeyIndex) (key : Value) : IndexResult :=
  match x.findKey key (x.buckets (x.number key)) with
  | none => {}
  | some posting => { rows := posting.locations, exact := true }

namespace Index

/-- `range`; an index without order has none. -/
def range : Index → Option Value → Option Value → Option IndexResult
  | hash h, lo, hi => some (h.range lo hi)
  | paged x, lo, hi => some (x.range lo hi)
  | key _, _, _ => none

def search : Index → Value → Except Error IndexResult
  | key x, v => .ok (x.search v)
  | _, _ => fail .unsupported "Unsupported index search"

end Index

/-! ## The ordered index -/

/-- One column without its direction: NULL first, then the add-on's answer. -/
def KeyOrder.raw (o : KeyOrder) (a b : Value) : Int :=
  if a.isNull || b.isNull then compareNulls a b else o.compare a b

instance : Inhabited KeyOrder := ⟨⟨fun _ _ => 0, false⟩⟩

namespace OrderedIndex

/-- The order of key column `i`. -/
def orderAt (x : OrderedIndex) (i : Nat) : KeyOrder := x.order.getD i default

/-- What a walk does at a node whose position between the bounds is known:
the sides that can still hold something, and the node itself. -/
def visitBetween (descending : Bool) (lower upper : Int) (location : RowLocation)
    (left right : List RowLocation) : List RowLocation :=
  (if (if descending then decide (upper ≤ 0) else decide (0 ≤ lower)) then left else []) ++
    (if 0 ≤ lower ∧ upper ≤ 0 then [location] else []) ++
      (if (if descending then decide (0 ≤ lower) else decide (upper ≤ 0)) then right else [])

/-- The walk of `range`. -/
def rangeAt (x : OrderedIndex) (lo hi : Value) : Avl OrderedEntry → List RowLocation
  | .nil => []
  | .node e left right _ =>
    visitBetween (x.orderAt 0).descending ((x.orderAt 0).raw (e.1.cell 0) lo)
      ((x.orderAt 0).raw (e.1.cell 0) hi) e.2 (rangeAt x lo hi left) (rangeAt x lo hi right)

/-- `range(lo, hi)`: inclusive, on the leading column. -/
def range (x : OrderedIndex) (lo hi : Value) : List RowLocation := x.rangeAt lo hi x.root

/-- The walk of `prefix_range`. A key whose leading columns differ from the
wanted ones sends it to one side; between bounds it goes on like `range`. -/
def prefixRangeAt (x : OrderedIndex) (equal : Row) (lo hi : Option Value) :
    Avl OrderedEntry → List RowLocation
  | .nil => []
  | .node e left right _ =>
    let c := compareKeys x.order e.1 equal
    if c < 0 then prefixRangeAt x equal lo hi right
    else if 0 < c then prefixRangeAt x equal lo hi left
    else
      let o := x.orderAt equal.length
      visitBetween o.descending ((lo.map fun v => o.raw (e.1.cell equal.length) v).getD 1)
        ((hi.map fun v => o.raw (e.1.cell equal.length) v).getD (-1)) e.2
        (prefixRangeAt x equal lo hi left) (prefixRangeAt x equal lo hi right)

def prefixRange (x : OrderedIndex) (equal : Row) (lo hi : Option Value) :
    Except Error (List RowLocation) :=
  if x.columns.length < equal.length ∨
      ((lo.isSome ∨ hi.isSome) ∧ equal.length = x.columns.length) then
    fail .schema "Invalid index prefix width"
  else .ok (x.prefixRangeAt equal lo hi x.root)

end OrderedIndex

end CoreSql
