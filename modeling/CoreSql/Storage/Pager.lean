import CoreSql.Lib.Extents
import CoreSql.Storage.Pages

/-!
# The page file

`pager.cpp`: chunks that leave memory are written to a scratch file, each to
an extent of its own. An extent is the first free one that is long enough or
else the end of the file, and it is given back when the last reference to its
page goes: also when the page was never finished because a write failed.

What the system answers to `pwrite` and `ftruncate` is an input here. The
chunks that stay in memory as well, and the counts for the statistics, touch
neither the extents nor the file.
-/

namespace CoreSql

open Extents (Extent)

/-- `Page`, as far as it says where its bytes are. -/
structure Page where
  id : Nat
  offset : Nat
  length : Nat

structure Pager where
  file : Bytes := []
  end_ : Nat := 0
  next : Nat := 0
  free : List Extent := []

/-- What a call of `pwrite` does: it is interrupted, it writes nothing more and `errno` is set, or
it writes some bytes, at least one and no more than it was given. -/
inductive Pwrite where
  | interrupted
  | stopped (reason : Bytes)
  | wrote (more : Nat)

/-- `pwrite` of all the bytes. A write past the end leaves zeros before it. -/
def pwrite (offset : Nat) (bytes file : Bytes) : Bytes :=
  file.take offset ++ List.replicate (offset - file.length) 0 ++ bytes ++
    file.drop (offset + bytes.length)

def ftruncate (size : Nat) (file : Bytes) : Bytes :=
  file.take size ++ List.replicate (size - file.length) 0

namespace Pager

/-- `std::numeric_limits<off_t>::max()`. -/
def offMax : Nat := 2 ^ 63 - 1

def emplace (offset length : Nat) (free : List Extent) : List Extent × Bool :=
  match SortedMap.find offset free with
  | some _ => (free, false)
  | none => (SortedMap.insert offset length free, true)

/-- The extent for a page of this many bytes: where it is, and what is left free. -/
def reserve (size : Nat) (p : Pager) : Nat × List Extent :=
  match p.free.find? (size ≤ ·.2) with
  | none => (p.end_, p.free)
  | some e =>
    let excess := e.2 - size
    let free := if excess ≠ 0 then (emplace (e.1 + size) excess p.free).1 else p.free
    (e.1, SortedMap.erase e.1 free)

/-- The loop that writes a page: whether it got to the end, and the file. After the answers that are
listed a call writes all that it is given. -/
def write : List Pwrite → Nat → Bytes → Bytes → Except Error Unit × Bytes
  | _, _, [], file => (.ok (), file)
  | [], offset, remaining, file => (.ok (), pwrite offset remaining file)
  | .interrupted :: answers, offset, remaining, file => write answers offset remaining file
  | .stopped reason :: _, _, _, file => (.error ⟨.io, lit "Write page backing: " ++ reason⟩, file)
  | .wrote more :: answers, offset, remaining, file =>
    let n := min (more + 1) remaining.length
    write answers (offset + n) (remaining.drop n) (pwrite offset (remaining.take n) file)

/-- The extent with the free one that ends where it starts. -/
def mergeBefore (current : Extent) (free : List Extent) : Extent × List Extent :=
  match Extents.before current.1 free with
  | none => (current, free)
  | some before =>
    if before.1 + before.2 = current.1 then
      let merged := (before.1, before.2 + current.2)
      (merged, SortedMap.erase current.1 (SortedMap.insert merged.1 merged.2 free))
    else (current, free)

/-- The extent with the free one that starts where it ends. -/
def mergeAfter (current : Extent) (free : List Extent) : Extent × List Extent :=
  match Extents.after current.1 free with
  | none => (current, free)
  | some after =>
    if current.1 + current.2 = after.1 then
      let merged := (current.1, current.2 + after.2)
      (merged, SortedMap.erase after.1 (SortedMap.insert merged.1 merged.2 free))
    else (current, free)

/-- `release`, and whether `ftruncate` would succeed. -/
def release (offset length : Nat) (truncates : Bool) (p : Pager) : Pager :=
  let (free, inserted) := emplace offset length p.free
  if !inserted then p
  else
    let (current, free) := mergeBefore (offset, length) free
    let (current, free) := mergeAfter current free
    if current.1 + current.2 = p.end_ ∧ truncates then
      { p with
        file := ftruncate current.1 p.file
        end_ := current.1
        free := SortedMap.erase current.1 free }
    else { p with free }

/-- `Page::~Page`. -/
def destroy (page : Page) (truncates : Bool) (p : Pager) : Pager :=
  if page.length ≠ 0 then p.release page.offset page.length truncates else p

/-- `store`. A page whose writing failed is destroyed, and `truncates` is for that. -/
def store (c : Chunk) (answers : List Pwrite) (truncates : Bool) (p : Pager) :
    Except Error Page × Pager :=
  let bytes := encodePage c
  if offMax - p.end_ < bytes.length then
    (fail .state "Page backing exhausted file offset range", p)
  else
    let (offset, free) := p.reserve bytes.length
    let page : Page := { id := p.next, offset, length := bytes.length }
    let (written, file) := write answers offset bytes p.file
    let p := { p with
      file, free
      end_ := max p.end_ (offset + bytes.length)
      next := p.next + 1 }
    match written with
    | .ok () => (.ok page, p)
    | .error e => (.error e, p.destroy page truncates)

/-! ## Runs -/

/-- The pager with the pages that are referred to, and what was stored in each. -/
structure Use where
  pager : Pager := {}
  live : List (Page × Bytes) := []

inductive Event where
  | store (c : Chunk) (answers : List Pwrite) (truncates : Bool)
  | release (i : Nat) (truncates : Bool)

def step (u : Use) : Event → Use
  | .store c answers truncates =>
    match u.pager.store c answers truncates with
    | (.ok page, pager) => { pager, live := u.live ++ [(page, encodePage c)] }
    | (.error _, pager) => { u with pager }
  | .release i truncates =>
    match u.live[i]? with
    | none => u
    | some (page, _) =>
      { pager := u.pager.destroy page truncates, live := u.live.eraseIdx i }

def run (events : List Event) : Use := events.foldl step {}

end Pager

end CoreSql
