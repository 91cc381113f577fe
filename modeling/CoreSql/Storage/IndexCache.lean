import CoreSql.Data.Table
import CoreSql.Lib.Merge
import CoreSql.Storage.Encoding

/-!
# The native-index cache

`paged_index.cpp`: what a paged database does about its primary indexes when
it is opened. The image of an integer key is a file of 24-byte records in key
order, searched where it lies. Images are built from the rows by an external
merge sort, or taken from a sibling file an earlier process left behind. That
file is nobody's word: whatever it holds is checked against the rows, and a
file that fails a check anywhere is dropped as a whole.

How a file is mapped is not modelled. What is found under the file's name is
its bytes or the error of reading it.
-/

namespace CoreSql

/-! ## Images -/

def recordSize : Nat := 24

def writeKey (e : Int × RowLocation) : Bytes :=
  u64 (toWord e.1) ++ u64 e.2.chunk ++ u64 e.2.slot

def recordWords : Reader (Int × RowLocation) := do
  let key ← Reader.u64
  let chunk ← Reader.u64
  let slot ← Reader.u64
  return (ofWord key, ⟨chunk, slot⟩)

def recordAt (bytes : Bytes) (position : Nat) : Except Error (Int × RowLocation) :=
  recordWords.run ((bytes.drop (position * recordSize)).take recordSize)

def readKey (bytes : Bytes) (position : Nat) : Except Error (Int × RowLocation) := do
  let record ← recordAt bytes position
  if uint32Max < record.2.slot then fail .format "Invalid cached index slot" else return record

/-- `Base`: the records of an image, as bytes. -/
structure Image where
  bytes : Bytes
  count : Nat

namespace Image

def get (x : Image) (i : Nat) : Except Error (Int × RowLocation) := readKey x.bytes i

/-- The loop of `lower_bound`. -/
def lowerBoundLoop (x : Image) (key : Int) (first last : Nat) : Except Error Nat :=
  if first < last then do
    let row ← x.get (first + (last - first) / 2)
    if row.1 < key then x.lowerBoundLoop key (first + (last - first) / 2 + 1) last
    else x.lowerBoundLoop key first (first + (last - first) / 2)
  else .ok first
  termination_by last - first

def lowerBound (x : Image) (key : Int) : Except Error Nat := x.lowerBoundLoop key 0 x.count

def lookup (x : Image) (key : Int) : Except Error (Option RowLocation) := do
  let first ← x.lowerBound key
  if first = x.count then return none
  else do
    let row ← x.get first
    return if row.1 = key then some row.2 else none

/-- The loop of `range` over an image without changes. -/
def rangeLoop (x : Image) (hi : Int) (position : Nat) : Except Error (List RowLocation) :=
  if position < x.count then do
    let row ← x.get position
    if hi < row.1 then return []
    else do
      let rest ← x.rangeLoop hi (position + 1)
      return row.2 :: rest
  else .ok []
  termination_by x.count - position

/-- `range` of an index that was just made from an image. -/
def range (x : Image) (lo hi : Int) : Except Error (List RowLocation) := do
  let first ← x.lowerBound lo
  x.rangeLoop hi first

/-- The index made from an image: the records it stands for. -/
def index (x : Image) : PagedIndex :=
  { base := (List.range x.count).filterMap fun i => (recordAt x.bytes i).toOption }

end Image

/-! ## Building -/

/-- `Writer`. -/
structure ImageWriter where
  bytes : Bytes := []
  count : Nat := 0
  previous : Option Int := none

def ImageWriter.add (w : ImageWriter) (e : Int × RowLocation) : Except Error ImageWriter :=
  if w.previous.any fun previous => e.1 ≤ previous then .error HashIndex.duplicateError
  else .ok ⟨w.bytes ++ writeKey e, w.count + 1, some e.1⟩

def ImageWriter.finish (w : ImageWriter) : Image := ⟨w.bytes, w.count⟩

structure Runs where
  done : List (List (Int × RowLocation)) := []
  buffer : List (Int × RowLocation) := []

def Runs.flush (r : Runs) : Runs :=
  if r.buffer.isEmpty then r
  else { done := r.done ++ [r.buffer.mergeSort fun a b => a.1 ≤ b.1] }

def Runs.push (r : Runs) (e : Int × RowLocation) : Runs :=
  if (r.buffer ++ [e]).length = runSize then Runs.flush { r with buffer := r.buffer ++ [e] }
  else { r with buffer := r.buffer ++ [e] }

/-- `build`: bounded runs, each sorted, merged into an image. -/
def buildImage (source : List (Value × RowLocation)) : Except Error Image := do
  let keys := source.map fun e => (payload e.1, e.2)
  let runs := (keys.foldl Runs.push {}).flush.done
  let writer ← (Merge.drain Prod.fst runs).foldlM ImageWriter.add {}
  return writer.finish

/-! ## Loading -/

/-- `Images`, a `std::map` by table name. -/
abbrev Images := List (Bytes × Image)

/-- `table.primary->column` of a table that has a primary index. -/
def Table.primaryColumn (t : Table) : Nat := (t.primary.map IndexBinding.column).getD 0

/-- The table a cached image claims to be of. -/
def cachedTable (registry : Registry) (tables : Tables) (name : Bytes) (column count left : Nat) :
    Except Error Table :=
  match SortedMap.find name tables with
  | none => fail .format "Invalid cached index descriptor"
  | some t =>
    if !t.eligible registry || t.primaryColumn != column || t.rowCount != count ||
        left / recordSize < count then
      fail .format "Invalid cached index descriptor"
    else .ok t

/-- Whether a location is outside the chunks of a table. -/
def Table.lacks (t : Table) (l : RowLocation) : Bool :=
  match SortedMap.find l.chunk t.chunks with
  | none => true
  | some c => decide (c.rows.length ≤ l.slot)

/-- One record of a cached image: in order, and at a slot its chunk has. -/
def checkCachedEntry (t : Table) (x : Image) (previous : Option Int) (i : Nat) :
    Except Error (Option Int) := do
  let e ← x.get i
  if (previous.any fun previous => e.1 ≤ previous) || t.lacks e.2 then
    fail .format "Invalid cached index entry"
  else return some e.1

/-- One row: the image has to find it where it is. -/
def checkCachedRow (x : Image) (e : Value × RowLocation) : Except Error Unit := do
  let found ← x.lookup (payload e.1)
  if found = some e.2 then return ()
  else fail .format "Cached index disagrees with stored rows"

def readCachedImage (registry : Registry) (tables : Tables) (images : Images) :
    Reader Images := do
  let length ← Reader.u64
  let left ← Decoder.remaining
  Reader.check (length ≤ left) "Invalid index cache name"
  let name ← Reader.take length
  let column ← Reader.u64
  let count ← Reader.u64
  let left ← Decoder.remaining
  let t ← Decoder.lift (cachedTable registry tables name column count left)
  let bytes ← Reader.take (count * recordSize)
  let _ ← Decoder.lift ((List.range count).foldlM (checkCachedEntry t ⟨bytes, count⟩) none)
  Decoder.lift ((t.entries column).forM (checkCachedRow ⟨bytes, count⟩))
  Reader.check (SortedMap.find name images = none) "Duplicate cached table"
  return SortedMap.insert name ⟨bytes, count⟩ images

/-- Everything between the file's start and its checksum. -/
def readImages (registry : Registry) (tables : Tables) (fingerprint : Nat) : Reader Images := do
  let magic ← Reader.take 8
  Reader.check (magic = lit "COREIDX1") "Stale index cache"
  let recorded ← Reader.u64
  Reader.check (recorded = fingerprint) "Stale index cache"
  let count ← Reader.u64
  Reader.check (count ≤ tables.length) "Invalid index cache count"
  let images ← Decoder.loop (readCachedImage registry tables) count []
  Reader.finish
  return images

/-- `load_cache`, on what reading the file came to. -/
def loadCache (registry : Registry) (tables : Tables) (fingerprint : Nat)
    (file : Except Error Bytes) : Except Error Images := do
  let bytes ← file
  if bytes.length < 32 then fail .format "Short index cache"
  else do
    let body := bytes.take (bytes.length - 8)
    let stored ← Reader.u64.run (bytes.drop (bytes.length - 8))
    if (checksum body).toNat ≠ stored then fail .format "Index cache checksum mismatch"
    else (readImages registry tables fingerprint).run body

/-- What `write_cache` writes. -/
def cacheBytes (tables : Tables) (images : Images) (fingerprint : Nat) : Bytes :=
  let body := lit "COREIDX1" ++ u64 fingerprint ++ u64 images.length ++
    images.flatMap fun e =>
      u64 e.1.length ++ e.1 ++
        u64 ((SortedMap.find e.1 tables).map Table.primaryColumn |>.getD 0) ++
        u64 e.2.count ++ e.2.bytes
  body ++ u64 (checksum body).toNat

/-! ## Rebuilding -/

/-- The image of a table: the one loaded, or one built from its rows. -/
def imageFor (images : Images) (name : Bytes) (t : Table) : Except Error Image :=
  match SortedMap.find name images with
  | some image => .ok image
  | none => buildImage (t.entries t.primaryColumn)

/-- The rows of a table entered into the indexes that are not images. -/
def enterRows (native : Bool) (t : Table) : Except Error Table :=
  if t.ordered.isEmpty && t.indexes.isEmpty && (native || t.primary.isNone) then .ok t
  else t.located.foldlM (Table.enterRow !native) t

/-- What the loop of `rebuild_paged_indexes` carries: the tables done, the
images, and whether one was built. -/
structure Rebuilding where
  tables : Tables := []
  images : Images
  changed : Bool := false

def rebuildPagedTable (registry : Registry) (r : Rebuilding) (e : Bytes × Table) :
    Except Error Rebuilding :=
  if e.2.eligible registry then do
    let image ← imageFor r.images e.1 e.2
    let t ← enterRows true
      { e.2 with primary := some ⟨e.2.primaryColumn, .paged image.index⟩ }
    return {
      tables := r.tables ++ [(e.1, t)]
      images := SortedMap.insert e.1 image r.images
      changed := r.changed || (SortedMap.find e.1 r.images).isNone }
  else do
    let t ← enterRows false e.2
    return { r with tables := r.tables ++ [(e.1, t)] }

/-- `make_indexes` on every table. -/
def makeAllIndexes (registry : Registry) (tables : Tables) : Except Error Tables :=
  tables.mapM fun e => do return (e.1, ← makeIndexes e.2 registry)

/-- `rebuild_paged_indexes`. An error of the cache file is as good as no
file. -/
def rebuildPagedIndexes (registry : Registry) (tables : Tables) (fingerprint : Nat)
    (file : Except Error Bytes) : Except Error Rebuilding := do
  let tables ← makeAllIndexes registry tables
  let images := match loadCache registry tables fingerprint file with
    | .ok images => images
    | .error _ => []
  tables.foldlM (rebuildPagedTable registry) { images }

end CoreSql
