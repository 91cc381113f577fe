import CoreSql.Lib.Copies
import CoreSql.Lib.CopyOnWrite
import CoreSql.Query.Ranges

/-!
# Clones of an extracted-key index

Clones of a key index share buckets, and buckets share postings: a bucket is a
table from keys to pointers. `change` works on copies of the buckets it
touches, which it installs at the end; within a copy a posting is changed in
place only when no other bucket points to it.

`search` is written here with the loop of the source, which takes the bits of
a mask word by word and from the lowest on.
-/

namespace CoreSql

open CopyOnWrite

/-! ## Scanning a mask -/

/-- `std::countr_zero`, of a word that is not zero. -/
def countrZero (n : Nat) : Nat :=
  if h : n = 0 ∨ n % 2 = 1 then 0 else countrZero (n / 2) + 1
  termination_by n
  decreasing_by omega

/-- `while (bits)`, with `bits &= bits - 1`. -/
def wordBits (bits : Nat) : List Nat :=
  if h : bits = 0 then [] else countrZero bits :: wordBits (bits &&& (bits - 1))
  termination_by bits
  decreasing_by
    have := Nat.and_le_right (n := bits) (m := bits - 1)
    omega

def Mask.word (mask : Mask) (word : Nat) : Nat := (mask.extractLsb' (64 * word) 64).toNat

/-- The locations of a posting, as `search` collects them. -/
def Posting.scan (p : Posting) : List RowLocation :=
  p.flatMap fun e => [0, 1].flatMap fun word =>
    (wordBits (Mask.word e.2 word)).map fun i => ⟨e.1.chunk, e.1.slot + word * 64 + i⟩

/-- `search("equal", key)`. -/
def KeyIndex.searchWords (x : KeyIndex) (key : Value) : IndexResult :=
  match x.findKey key (x.buckets (x.number key)) with
  | none => {}
  | some posting => { rows := posting.scan, exact := true }

/-! ## Tables of pointers -/

section Tables

variable {β : Type} (same : Value → Bool)

/-- `bucket.find(key)`. -/
def findEntry : List (Value × β) → Option β
  | [] => none
  | (k, b) :: rest => if same k then some b else findEntry rest

/-- `bucket[key] = b`. -/
def putEntry (key : Value) (b : β) : List (Value × β) → List (Value × β)
  | [] => [(key, b)]
  | (k, c) :: rest => if same k then (k, b) :: rest else (k, c) :: putEntry key b rest

/-- `bucket.erase(entry)`. -/
def dropEntry : List (Value × β) → List (Value × β)
  | [] => []
  | (k, b) :: rest => if same k then rest else (k, b) :: dropEntry rest

end Tables

/-! ## Shared buckets and postings -/

/-- Key indexes that are clones of one, and the buckets and postings they share. -/
structure SharedKeys where
  extractor : KeyExtractor
  addon : TypeAddon
  postings : Store Posting
  buckets : Store (List (Value × Nat))
  arrays : List (Nat → Option Nat)

inductive KeyIndexOperation where
  | insert (value : Value) (location : RowLocation)
  | erase (value : Value) (location : RowLocation)

namespace SharedKeys

/-- `KeyIndex(extractor, addon)`: no bucket is allocated yet. -/
def make (x : KeyIndex) : SharedKeys where
  extractor := x.extractor
  addon := x.addon
  postings := { cells := fun _ => [] }
  buckets := { cells := fun _ => [] }
  arrays := [fun _ => none]

def pointer (s : SharedKeys) (i n : Nat) : Option Nat := s.arrays[i]?.bind fun array => array n

/-- What a bucket shows, through its pointers. -/
def deref (s : SharedKeys) (b : Nat) : List (Value × Posting) :=
  (s.buckets.cells b).map fun e => (e.1, s.postings.cells e.2)

/-- One of the indexes, as it is seen through its pointers. -/
def index (s : SharedKeys) (i : Nat) : KeyIndex where
  extractor := s.extractor
  addon := s.addon
  buckets n := ((s.pointer i n).map s.deref).getD []

def indexes (s : SharedKeys) : List KeyIndex := (List.range s.arrays.length).map s.index

/-- The buckets something points to: an index, or the change that is going on. -/
def live (s : SharedKeys) (staged : List (Nat × Nat)) : List Nat :=
  ((s.arrays.flatMap fun array => (List.range bucketCount).filterMap array) ++
    staged.map Prod.snd).dedup

/-- `use_count` of a posting: how many pointers there are to it in them. -/
def uses (s : SharedKeys) (staged : List (Nat × Nat)) (a : Nat) : Nat :=
  ((s.live staged).map fun b => (s.buckets.cells b).countP fun e => e.2 == a).sum

/-- `changed.try_emplace(n)`: the copy of a bucket that is changed. -/
def stage (s : SharedKeys) (i : Nat) (staged : List (Nat × Nat)) (n : Nat) :
    SharedKeys × List (Nat × Nat) × Nat :=
  match SortedMap.find n staged with
  | some b => (s, staged, b)
  | none =>
    let (buckets, b) := s.buckets.alloc (s.buckets.read [] (s.pointer i n))
    ({ s with buckets }, SortedMap.insert n b staged, b)

/-- The insertion of a location into the posting of a key of a staged bucket. -/
def addTo (s : SharedKeys) (staged : List (Nat × Nat)) (b : Nat) (same : Value → Bool) (key : Value)
    (l : RowLocation) : SharedKeys :=
  let p := findEntry same (s.buckets.cells b)
  let (postings, a) := s.postings.writable [] p (s.uses staged (p.getD 0))
  { s with
    postings := postings.set a (Posting.add l (postings.cells a))
    buckets := s.buckets.set b (putEntry same key a (s.buckets.cells b)) }

def removeFrom (s : SharedKeys) (staged : List (Nat × Nat)) (b : Nat) (same : Value → Bool)
    (key : Value) (l : RowLocation) : SharedKeys :=
  match findEntry same (s.buckets.cells b) with
  -- A key that was emitted before is gone already.
  | none => s
  | some p =>
    let (postings, a) := s.postings.writable [] (some p) (s.uses staged p)
    let entries := putEntry same key a (s.buckets.cells b)
    match SortedMap.find l.block (postings.cells a) with
    | none => { s with postings, buckets := s.buckets.set b entries }
    | some _ =>
      let posting := Posting.remove l (postings.cells a)
      { s with
        postings := postings.set a posting
        buckets := s.buckets.set b (if posting.isEmpty then dropEntry same entries else entries) }

/-- One key of `change`. -/
def changeKey (i : Nat) (l : RowLocation) (inserting : Bool)
    (state : SharedKeys × List (Nat × Nat)) (key : Value) : SharedKeys × List (Nat × Nat) :=
  let x := state.1.index i
  let (s, staged, b) := state.1.stage i state.2 (x.number key)
  let same k := x.equal k key
  (if inserting then s.addTo staged b same key l else s.removeFrom staged b same key l, staged)

/-- `buckets[n] = bucket` for what was staged. -/
def install (s : SharedKeys) (i : Nat) (staged : List (Nat × Nat)) : SharedKeys :=
  { s with arrays := s.arrays.modify i fun array n => (SortedMap.find n staged).or (array n) }

/-- `change(source, location, inserting)`: an error, or none, and what is left behind. -/
def change (s : SharedKeys) (i : Nat) (v : Value) (l : RowLocation) (inserting : Bool) :
    Option Error × SharedKeys :=
  match (s.index i).keys v with
  | .error e => (some e, s)
  | .ok keys =>
    let (s, staged) := keys.foldl (changeKey i l inserting) (s, [])
    (none, s.install i staged)

def operate (s : SharedKeys) (i : Nat) : KeyIndexOperation → Option Error × SharedKeys
  | .insert v l => s.change i v l true
  | .erase v l => s.change i v l false

def clone (s : SharedKeys) (i : Nat) : SharedKeys :=
  { s with arrays := s.arrays ++ s.arrays[i]?.toList }

/-- Commands one after the other: which of them threw nothing, and the indexes after them. -/
def run (s : SharedKeys) (commands : List (Copies.Command KeyIndexOperation)) :
    List Bool × SharedKeys :=
  Copies.runBy (Copies.stepShared (fun s => s.arrays.length) clone operate) s commands

end SharedKeys

end CoreSql
