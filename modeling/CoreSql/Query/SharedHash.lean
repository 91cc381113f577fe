import CoreSql.Lib.Copies
import CoreSql.Lib.CopyOnWrite
import CoreSql.Query.Ranges

/-!
# Clones of a hash index

A clone of a hash index has the bucket pointers of the index it was cloned
from, so buckets are shared until one of their owners changes them. `insert`
and `erase` take a bucket of their own first, by `writable` or `writable_int`,
and do so before `insert` looks whether the key is there.

`range` is written here with the machine integers of the source: the width of
the span is a difference of unsigned words, and the loop over a narrow span
increments a signed one.
-/

namespace CoreSql

open CopyOnWrite

/-! ## Ranges in machine integers -/

namespace HashIndex

/-- `i64_payload`. -/
def payloadWord (v : Value) : Int64 := Int64.ofInt (payload v)

/-- `for (auto key = first;; ++key)`; nothing when the increment overflows. -/
def probe (h : HashIndex) (last key : Int64) : Option (List RowLocation) :=
  let found := (h.integerLookup key.toInt).toList
  if key = last then some found
  else if key.toInt = maxKey then none
  else (probe h last (key + 1)).map (found ++ ·)
  termination_by (maxKey - key.toInt).toNat
  decreasing_by
    rename_i hmax
    have hle := Int64.toInt_lt key
    have hge := Int64.le_toInt key
    have hnext : (key + 1).toInt = key.toInt + 1 := by
      rw [Int64.toInt_add, show (1 : Int64).toInt = 1 from rfl]
      simp only [maxKey] at hmax
      exact Int.bmod_eq_of_le (by omega) (by omega)
    simp only [hnext, maxKey] at hmax ⊢
    omega

/-- `range(lo, hi)`. -/
def rangeWords (h : HashIndex) (lo hi : Option Value) : Option IndexResult :=
  if h.native then
    let first := (lo.map payloadWord).getD Int64.minValue
    let last := (hi.map payloadWord).getD Int64.maxValue
    if first > last then some {}
    else if last.toUInt64 - first.toUInt64 < 256 then
      (h.probe last first).map fun rows => { rows }
    else
      some { rows := (List.range bucketCount).flatMap fun n =>
        integersBetween first.toInt last.toInt (h.integers n) }
  else
    some { rows := (List.range bucketCount).flatMap fun n =>
      bucketBetween h.compare lo hi (h.buckets n) }

end HashIndex

/-! ## Shared buckets -/

/-- Hash indexes that are clones of one, and the buckets they share. -/
structure SharedHash where
  native : Bool
  hash : Value → Nat
  compare : Value → Value → Int
  buckets : Arrays Bucket
  integers : Arrays (List (Int × RowLocation))

inductive HashOperation where
  | insert (value : Value) (location : RowLocation)
  | erase (value : Value) (location : RowLocation)

namespace SharedHash

/-- `HashIndex(type, addon)`: no bucket is allocated yet. -/
def make (h : HashIndex) : SharedHash where
  native := h.native
  hash := h.hash
  compare := h.compare
  buckets := { store := { cells := fun _ => [] }, arrays := [fun _ => none] }
  integers := { store := { cells := fun _ => [] }, arrays := [fun _ => none] }

/-- One of the indexes, as it is seen through its pointers. -/
def index (s : SharedHash) (i : Nat) : HashIndex where
  native := s.native
  hash := s.hash
  compare := s.compare
  buckets n := s.buckets.view [] i n
  integers n := s.integers.view [] i n

def indexes (s : SharedHash) : List HashIndex := (List.range s.buckets.arrays.length).map s.index

def clone (s : SharedHash) (i : Nat) : SharedHash :=
  { s with buckets := s.buckets.clone i, integers := s.integers.clone i }

/-- `insert(value, location)`: an error, or none, and what is left behind. -/
def insert (s : SharedHash) (i : Nat) (v : Value) (l : RowLocation) : Option Error × SharedHash :=
  let n := (s.index i).number v
  if s.native then
    let (integers, a) := s.integers.writable [] bucketCount i n
    let bucket := integers.store.cells a
    match SortedMap.find (payload v) bucket with
    | some _ => (some HashIndex.duplicateError, { s with integers })
    | none => (none, { s with integers := integers.set a (SortedMap.insert (payload v) l bucket) })
  else
    let (buckets, a) := s.buckets.writable [] bucketCount i n
    match ThreeWay.emplace s.compare v l (buckets.store.cells a) with
    | none => (some HashIndex.duplicateError, { s with buckets })
    | some bucket => (none, { s with buckets := buckets.set a bucket })

def erase (s : SharedHash) (i : Nat) (v : Value) (l : RowLocation) : Option Error × SharedHash :=
  let n := (s.index i).number v
  if (s.index i).lookup v ≠ some l then
    (some ⟨.state, lit "Missing or mismatched primary index entry"⟩, s)
  else if s.native then
    let (integers, a) := s.integers.writable [] bucketCount i n
    (none, { s with
      integers := integers.set a (SortedMap.erase (payload v) (integers.store.cells a)) })
  else
    let (buckets, a) := s.buckets.writable [] bucketCount i n
    (none, { s with
      buckets := buckets.set a (ThreeWay.erase s.compare v (buckets.store.cells a)) })

def operate (s : SharedHash) (i : Nat) : HashOperation → Option Error × SharedHash
  | .insert v l => s.insert i v l
  | .erase v l => s.erase i v l

/-- Commands one after the other: which of them threw nothing, and the indexes after them. -/
def run (s : SharedHash) (commands : List (Copies.Command HashOperation)) :
    List Bool × SharedHash :=
  Copies.runBy (Copies.stepShared (fun s => s.buckets.arrays.length) clone operate) s commands

end SharedHash

end CoreSql
