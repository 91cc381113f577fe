import CoreSql.Data.Expr
import CoreSql.Lib.Avl
import CoreSql.Lib.SortedMap
import CoreSql.Lib.ThreeWay
import Mathlib.Data.Prod.Lex

/-!
# The index structures

* `HashIndex`: 256 buckets, each an ordered map from key to location. Keys
  with native 64-bit payloads live in sorted vectors of their own.
* `KeyIndex`: 256 buckets of postings. A value contributes every key its
  extractor yields; a posting is a bit mask per block of 128 slots.
* `PagedIndex`: what a paged database turns the hash index of an integer key
  into, a sorted image on disk with the changes made since.
* `OrderedIndex`: an AVL tree of (key columns, location) pairs, ordered by
  the add-ons' comparisons column by column, NULL first, locations breaking
  ties.

What is shared between copies of an index plays no part in what it answers,
so the buckets are plain values here; the copy-on-write protocol around them
is modelled in `Query.SharedHash` and `Query.SharedKeys`.
-/

namespace CoreSql

/-- `RowLocation`, in its lexicographic order. -/
structure RowLocation where
  chunk : Nat
  slot : Nat
  deriving DecidableEq

namespace RowLocation

def key (l : RowLocation) : Nat ×ₗ Nat := toLex (l.chunk, l.slot)

theorem key_injective : Function.Injective key := by
  rintro ⟨c, s⟩ ⟨c', s'⟩ h
  have h' : (c, s) = (c', s') := toLex.injective h
  simpa using h'

instance : LinearOrder RowLocation := LinearOrder.lift' key key_injective

end RowLocation

/-! ## The hash index -/

/-- A `std::map` under the add-on's comparison. -/
abbrev Bucket := List (Value × RowLocation)

/-- `HashIndex`. `compare` and `hash` are the add-on's, at the column's
parameters. -/
structure HashIndex where
  native : Bool
  hash : Value → Nat
  compare : Value → Value → Int
  buckets : Nat → Bucket := fun _ => []
  integers : Nat → List (Int × RowLocation) := fun _ => []

def bucketCount : Nat := 256

def makeHashIndex (type : SqlType) (addon : TypeAddon) : Except Error HashIndex :=
  match addon.equal, addon.hash, addon.compare with
  | some _, some hash, some compare =>
    .ok { native := addon.nativeI64, hash := hash type.parameters,
          compare := compare type.parameters }
  | some _, some hash, none =>
    if addon.nativeI64 then
      .ok { native := true, hash := hash type.parameters, compare := fun _ _ => 0 }
    else fail .unsupported "Hash keys require equality, consistent ordering and hashing"
  | _, _, _ => fail .unsupported "Hash keys require equality, consistent ordering and hashing"

/-- `i64_payload`, on the cells a native index holds. -/
def payload (v : Value) : Int := v.i64Payload.getD 0

/-- `static_cast<std::uint64_t>(key) % 256`. -/
def nativeNumber (key : Int) : Nat := ((key % 2 ^ 64) % bucketCount).toNat

namespace HashIndex

def number (h : HashIndex) (v : Value) : Nat :=
  if h.native then nativeNumber (payload v) else h.hash v % bucketCount

def duplicateError : Error := ⟨.constraint, lit "Duplicate primary key"⟩

def lookup (h : HashIndex) (v : Value) : Option RowLocation :=
  if h.native then SortedMap.find (payload v) (h.integers (h.number v))
  else ThreeWay.find h.compare v (h.buckets (h.number v))

def insert (h : HashIndex) (v : Value) (location : RowLocation) : Except Error HashIndex :=
  let n := h.number v
  if h.native then
    match SortedMap.find (payload v) (h.integers n) with
    | some _ => .error duplicateError
    | none =>
      .ok { h with
        integers := Function.update h.integers n
          (SortedMap.insert (payload v) location (h.integers n)) }
  else
    match ThreeWay.emplace h.compare v location (h.buckets n) with
    | none => .error duplicateError
    | some bucket => .ok { h with buckets := Function.update h.buckets n bucket }

def erase (h : HashIndex) (v : Value) (location : RowLocation) : Except Error HashIndex :=
  let n := h.number v
  if h.lookup v ≠ some location then
    fail .state "Missing or mismatched primary index entry"
  else if h.native then
    .ok { h with
      integers := Function.update h.integers n (SortedMap.erase (payload v) (h.integers n)) }
  else
    .ok { h with
      buckets := Function.update h.buckets n (ThreeWay.erase h.compare v (h.buckets n)) }

def size (h : HashIndex) : Nat :=
  ((List.range bucketCount).map fun n =>
    if h.native then (h.integers n).length else (h.buckets n).length).sum

end HashIndex

/-! ## The paged integer index -/

/-- `PagedIntegerIndex`: the records of an immutable image in key order, and
what changed since; a change without a location is a deletion. -/
structure PagedIndex where
  base : List (Int × RowLocation)
  changes : List (Int × Option RowLocation) := []

def runSize : Nat := 4096

namespace PagedIndex

def lookup (x : PagedIndex) (v : Value) : Option RowLocation :=
  match SortedMap.find (payload v) x.changes with
  | some location => location
  | none => SortedMap.find (payload v) x.base

def merge (records : List (Int × RowLocation)) (change : Int × Option RowLocation) :
    List (Int × RowLocation) :=
  match change.2 with
  | some location => SortedMap.insert change.1 location records
  | none => SortedMap.erase change.1 records

/-- `compact`: a new image with every change merged in. -/
def compact (x : PagedIndex) : PagedIndex := { base := x.changes.foldl merge x.base }

/-- `change()`: the index a change is entered into. -/
def room (x : PagedIndex) : PagedIndex := if runSize ≤ x.changes.length then x.compact else x

/-- `change().insert_or_assign(key, location)`. -/
def record (x : PagedIndex) (key : Int) (location : Option RowLocation) : PagedIndex :=
  { x.room with changes := SortedMap.insert key location x.room.changes }

def insert (x : PagedIndex) (v : Value) (location : RowLocation) : Except Error PagedIndex :=
  if (x.lookup v).isSome then .error HashIndex.duplicateError
  else .ok (x.record (payload v) (some location))

def erase (x : PagedIndex) (v : Value) (location : RowLocation) : Except Error PagedIndex :=
  if x.lookup v ≠ some location then fail .state "Missing primary index entry"
  else .ok (x.record (payload v) none)

/-- The number of entries, as `validate` counts them. -/
def size (x : PagedIndex) : Int :=
  x.changes.foldl (fun count e =>
      count - (if (SortedMap.find e.1 x.base).isSome then 1 else 0) +
        (if e.2.isSome then 1 else 0))
    x.base.length

/-- One entry of an image under construction. -/
def enter (records : List (Int × RowLocation)) (e : Value × RowLocation) :
    Except Error (List (Int × RowLocation)) :=
  match SortedMap.find (payload e.1) records with
  | some _ => .error HashIndex.duplicateError
  | none => .ok (SortedMap.insert (payload e.1) e.2 records)

/-- `build`: the records of a column's entries, in key order. -/
def build (source : List (Value × RowLocation)) : Except Error PagedIndex := do
  let records ← source.foldlM enter []
  return { base := records }

end PagedIndex

/-! ## The extracted-key index -/

/-- The two 64-bit words of a mask, side by side. -/
abbrev Mask := BitVec 128

/-- `Posting`: masks by the first location of their block. -/
abbrev Posting := List (RowLocation × Mask)

/-- `KeyBinding` and the buckets over it. -/
structure KeyIndex where
  extractor : KeyExtractor
  addon : TypeAddon
  buckets : Nat → List (Value × Posting) := fun _ => []

/-- The block of 128 slots a location belongs to. -/
def RowLocation.block (l : RowLocation) : RowLocation := ⟨l.chunk, l.slot / 128 * 128⟩

/-- The bit of a location in the mask of its block. -/
def RowLocation.bit (l : RowLocation) : Mask := BitVec.twoPow 128 (l.slot % 128)

namespace Posting

/-- `(*posting)[block][word] |= bit`. -/
def add (l : RowLocation) (p : Posting) : Posting :=
  SortedMap.insert l.block ((SortedMap.find l.block p).getD 0 ||| l.bit) p

/-- `found->second[word] &= ~bit`, dropping a mask that becomes zero. -/
def remove (l : RowLocation) (p : Posting) : Posting :=
  match SortedMap.find l.block p with
  | none => p
  | some mask =>
    let mask := mask &&& ~~~l.bit
    if mask = 0 then SortedMap.erase l.block p else SortedMap.insert l.block mask p

end Posting

namespace KeyIndex

/-- One key's check in `KeyBinding::keys`. -/
def checkKey (x : KeyIndex) (key : Value) : Except Error Unit :=
  if key.isNull then fail .type "Extractor returned a NULL key"
  else if !holdsLayout x.addon x.extractor.keyType key then
    fail .type "Extractor returned the wrong key type"
  else x.addon.validateValue x.extractor.keyType.parameters key

def keys (x : KeyIndex) (v : Value) : Except Error (List Value) := do
  let result ← x.extractor.extract v
  result.forM x.checkKey
  return result

/-- The key add-on's equality; registering an extractor requires one. -/
def equal (x : KeyIndex) (a b : Value) : Bool :=
  match x.addon.equal with
  | some equal => equal x.extractor.keyType.parameters a b
  | none => false

def number (x : KeyIndex) (key : Value) : Nat :=
  match x.addon.hash with
  | some hash => hash x.extractor.keyType.parameters key % bucketCount
  | none => 0

/-- `unordered_map::find` by the key equality. -/
def findKey (x : KeyIndex) (key : Value) : List (Value × Posting) → Option Posting
  | [] => none
  | (k, p) :: rest => if x.equal k key then some p else findKey x key rest

/-- `bucket[key]`, then the insertion into its posting. -/
def addKey (x : KeyIndex) (key : Value) (l : RowLocation) :
    List (Value × Posting) → List (Value × Posting)
  | [] => [(key, Posting.add l [])]
  | (k, p) :: rest =>
    if x.equal k key then (k, p.add l) :: rest else (k, p) :: addKey x key l rest

/-- The removal from a key's posting; the key goes when nothing is left. -/
def removeKey (x : KeyIndex) (key : Value) (l : RowLocation) :
    List (Value × Posting) → List (Value × Posting)
  | [] => []
  | (k, p) :: rest =>
    if x.equal k key then
      if (p.remove l).isEmpty then rest else (k, p.remove l) :: rest
    else (k, p) :: removeKey x key l rest

/-- One key of `change`. -/
def changeKey (inserting : Bool) (l : RowLocation) (x : KeyIndex) (key : Value) : KeyIndex :=
  let n := x.number key
  let bucket := x.buckets n
  let bucket := if inserting then x.addKey key l bucket else x.removeKey key l bucket
  { x with buckets := Function.update x.buckets n bucket }

/-- `change`: every key of the value, or nothing when extraction fails. -/
def change (x : KeyIndex) (v : Value) (l : RowLocation) (inserting : Bool) :
    Except Error KeyIndex := do
  let ks ← x.keys v
  return ks.foldl (changeKey inserting l) x

end KeyIndex

/-! ## The ordered index -/

structure IndexDefinition where
  name : Bytes
  columns : List Bytes
  unique : Bool := false
  descending : List Bool := []
  constraintOwned : Bool := false
  deriving DecidableEq

/-- The direction of key column `i`. -/
def IndexDefinition.descends (d : IndexDefinition) (i : Nat) : Bool := d.descending.getD i false

/-- One key column's comparison: the add-on's, and the direction. -/
structure KeyOrder where
  compare : Value → Value → Int
  descending : Bool

/-- One column: NULL first, the sign of the add-on's answer, reversed in a
descending column. -/
def KeyOrder.cells (o : KeyOrder) (a b : Value) : Int :=
  let c := if a.isNull || b.isNull then compareNulls a b else o.compare a b
  if o.descending then -c.sign else c.sign

/-- `OrderedIndex::compare`: the first column that differs decides. -/
def compareKeys : List KeyOrder → Row → Row → Int
  | o :: os, x :: a, y :: b => if o.cells x y ≠ 0 then o.cells x y else compareKeys os a b
  | _, _, _ => 0

/-- Locations as `(p > q) - (p < q)`. -/
def compareLocations (p q : RowLocation) : Int :=
  if q < p then 1 else if p < q then -1 else 0

abbrev OrderedEntry := Row × RowLocation

/-- `OrderedIndex`. Its nodes are immutable in the source; `node`, `balance`
and the recursions over them are those of `Avl`. -/
structure OrderedIndex where
  definition : IndexDefinition
  columns : List Nat
  order : List KeyOrder
  root : Avl OrderedEntry := .nil

namespace OrderedIndex

/-- The constructor's walk over the key columns. -/
def resolveColumns (schema : List Column) (registry : Registry) (descends : Nat → Bool) :
    Nat → List Bytes → List Bytes → Except Error (List (Nat × KeyOrder))
  | _, _, [] => .ok []
  | i, seen, name :: rest =>
    match schema.findIdx? fun c => c.name == name with
    | none => fail .schema "Invalid index column"
    | some position => do
        if name ∈ seen then fail .schema "Invalid index column"
        let type := (schema[position]?.map Column.type).getD integerType
        registry.validateType type
        let addon ← registry.addon type
        match addon.compare with
        | none => fail .type "Ordered index needs ordering"
        | some compare => do
            let others ← resolveColumns schema registry descends (i + 1) (name :: seen) rest
            return (position, ⟨compare type.parameters, descends i⟩) :: others

/-- `OrderedIndex(definition, schema, registry)`. -/
def create (definition : IndexDefinition) (schema : List Column) (registry : Registry) :
    Except Error OrderedIndex :=
  if definition.name = [] ∨ definition.columns = [] then
    fail .schema "Index needs a name and columns"
  else if definition.constraintOwned && !definition.unique then
    fail .schema "Constraint-owned index must be unique"
  else do
    let columns ← resolveColumns schema registry definition.descends 0 [] definition.columns
    if definition.descending ≠ [] ∧ definition.descending.length ≠ columns.length then
      fail .schema "Index direction count mismatch"
    return { definition, columns := columns.map Prod.fst, order := columns.map Prod.snd }

def key (x : OrderedIndex) (row : Row) : Row := x.columns.map row.cell

def compare (x : OrderedIndex) (a b : Row) : Int := compareKeys x.order a b

def missingError : Error := ⟨.state, lit "Missing ordered index entry"⟩

def compareEntries (x : OrderedIndex) : OrderedEntry → OrderedEntry → Int :=
  ThreeWay.both x.compare compareLocations

/-- What `insert(link, key, location)` does at a node: refuse a duplicate, or
turn left or right. -/
def turn (x : OrderedIndex) (a b : OrderedEntry) : Except Error Bool :=
  if x.compare a.1 b.1 = 0 && x.definition.unique && !a.1.any Value.isNull then
    fail .constraint "Duplicate unique index key"
  else if x.compareEntries a b = 0 then fail .state "Duplicate index row location"
  else .ok (x.compareEntries a b < 0)

def insert (x : OrderedIndex) (row : Row) (location : RowLocation) : Except Error OrderedIndex := do
  let root ← Avl.insertWith (x.turn (x.key row, location)) (x.key row, location) x.root
  return { x with root }

def erase (x : OrderedIndex) (row : Row) (location : RowLocation) : Except Error OrderedIndex := do
  let root ← Avl.eraseWith x.compareEntries missingError (x.key row, location) x.root
  return { x with root }

/-- The walk of `equal`. -/
def equalAt (x : OrderedIndex) (key : Row) : Avl OrderedEntry → List RowLocation
  | .nil => []
  | .node e left right _ =>
    let c := x.compare key e.1
    (if c ≤ 0 then equalAt x key left else []) ++ (if c = 0 then [e.2] else []) ++
      (if 0 ≤ c then equalAt x key right else [])

def equal (x : OrderedIndex) (key : Row) : Except Error (List RowLocation) :=
  if key.length ≠ x.columns.length then fail .schema "Index key width mismatch"
  else .ok (x.equalAt key x.root)

end OrderedIndex

/-! ## Bindings -/

/-- The `Index` objects a column can be bound to. -/
inductive Index where
  | hash (h : HashIndex)
  | paged (x : PagedIndex)
  | key (x : KeyIndex)

namespace Index

def insert : Index → Value → RowLocation → Except Error Index
  | hash h, v, l => do return hash (← h.insert v l)
  | paged x, v, l => do return paged (← x.insert v l)
  | key x, v, l => do return key (← x.change v l true)

def erase : Index → Value → RowLocation → Except Error Index
  | hash h, v, l => do return hash (← h.erase v l)
  | paged x, v, l => do return paged (← x.erase v l)
  | key x, v, l => do return key (← x.change v l false)

def lookup : Index → Value → Except Error (Option RowLocation)
  | hash h, v => .ok (h.lookup v)
  | paged x, v => .ok (x.lookup v)
  | key _, _ => fail .unsupported "Index has no unique lookup"

end Index

structure IndexBinding where
  column : Nat
  data : Index

def Registry.index (registry : Registry) (name : Bytes) (type : SqlType)
    (requireUnique : Bool) : Except Error Index := do
  registry.validateType type
  match registry.indexes name with
  | none => .error ⟨.type, lit "Missing index implementation: " ++ name⟩
  | some index =>
    if requireUnique && !index.unique then
      fail .unsupported "Primary key requires a unique index"
    else
      match index with
      | .hash => do
          let addon ← registry.addon type
          return .hash (← makeHashIndex type addon)
      | .key extractor keyAddon =>
        if type ≠ extractor.sourceType then fail .type "Extractor source type differs"
        else return .key { extractor, addon := keyAddon }

end CoreSql
