import CoreSql.Storage.Records

/-!
# The database file

`storage.cpp`: a log of records, each in a frame that says how long it is
twice and ends with a marker, so that what a crash left of the last one is
told from a record. A checkpoint is a new log of one record that takes the
place of the old file by a rename. One can be written while commits go on: it
copies the records that were appended meanwhile, in passes without the lock
and a last one with it.

The store knows states by their records: the database is what replaying the
records of its file comes to. Every call is one step, but a pass of the
background checkpoint is three, as other threads see it. What the encoders
return, which of its two ways a commit takes, and where the system refuses,
are inputs.
-/

namespace CoreSql

/-- A record has room for its tag, a count and a checksum, and is not too long. -/
def Record (p : Bytes) : Prop := 32 ≤ p.length ∧ p.length ≤ maxEncodedBytes

/-- What `encode_changes` and `encode_checkpoint` return: both check the size, and write 32 bytes if
there is nothing to say. -/
abbrev Encoded := { p : Bytes // Record p }

namespace DurableStore

def magic : Bytes := lit "CORELOG2"

/-- `committed`. -/
def marker : Bytes := lit "COREEND1"

def header (size : Nat) : Bytes := u64 size ++ u64 (2 ^ 64 - 1 - size)

/-- What `append` writes. -/
def frame (p : Bytes) : Bytes := header p.length ++ p ++ marker

section

variable {σ : Type} (apply : σ → Bytes → Except Error σ)

/-- The loop of `recover`, from `position` on. -/
def recoverFrom (latest : σ) (position : Nat) (rest : Bytes) : Except Error (σ × Nat) :=
  if rest.length < 16 then .ok (latest, position)
  else
    let size := LittleEndian.decode (rest.take 8)
    if LittleEndian.decode ((rest.drop 8).take 8) ≠ 2 ^ 64 - 1 - size ∨ size < 32 ∨
        maxEncodedBytes < size then
      fail .format "Corrupt transaction frame header"
    else if rest.length - 16 < size + 8 then .ok (latest, position)
    else if (rest.drop (16 + size)).take 8 ≠ marker then
      fail .format "Corrupt transaction commit marker"
    else do
      let latest ← apply latest ((rest.drop 16).take size)
      recoverFrom latest (position + (24 + size)) (rest.drop (24 + size))
termination_by rest.length
decreasing_by
  rw [List.length_drop]
  omega

/-- `recover`: the state, and where the file is cut off. -/
def recover (empty : σ) (file : Bytes) : Except Error (σ × Nat) :=
  if file.length < 8 then fail .format "Truncated database header"
  else if file.take 8 ≠ magic then fail .format "Unsupported database format"
  else recoverFrom apply empty 8 (file.drop 8)

end

/-- The records of a file that can be opened. -/
def records (file : Bytes) : List Bytes :=
  match recover (fun ps p => .ok (ps ++ [p])) [] file with
  | .ok (ps, _) => ps
  | .error _ => []

/-- Where `write_checkpoint` is: before the encoding or after it, copying up to an end, or done. -/
inductive Stage where
  | begun
  | encoded
  | copying (end_ : Nat)
  | ready

/-- `Checkpoint`. Files are known by number. `captured` are the records that led to the state it was
made for, and `record` is the one it wrote for them. -/
structure Checkpoint where
  source : Nat
  fresh : Nat
  generation : Nat
  copied : Nat
  stage : Stage := .begun
  captured : List Bytes
  record : Bytes := []

/-- The files, the one with the database's name, and the store. `committed` are the records of the
last checkpoint and of the commits since, `attempted` what they would be if the last of them had not
failed. -/
structure World where
  files : Nat → Bytes := fun _ => magic
  next : Nat := 1
  path : Nat := 0
  committedEnd : Nat := 8
  generation : Nat := 0
  failed : Bool := false
  background : Option Checkpoint := none
  committed : List Bytes := []
  attempted : List Bytes := []

/-- How replacing the file ends: done, or with an error before or after the rename. -/
inductive Replacement where
  | done
  | before
  | after

inductive Event where
  /-- `commit` by appending; an error strikes after so many bytes. -/
  | append (p : Encoded) (error : Option Nat)
  /-- `commit` by a checkpoint, or `checkpoint`. -/
  | checkpoint (p : Encoded) (r : Replacement)
  | prepare
  /-- The background checkpoint encodes its state, or fails to. -/
  | encode (p : Option Encoded)
  | pass
  | copy
  | publish (r : Replacement)
  /-- The background checkpoint ends with an error. -/
  | abandon
  /-- The process ends, and the database is opened again. -/
  | reopen

namespace World

def write (w : World) (file : Nat) (bytes : Bytes) : World :=
  { w with files := Function.update w.files file bytes }

/-- A file with the records `ps` takes the place of the database's. -/
def replace (w : World) (file : Nat) (ps : List Bytes) : Replacement → World
  | .before => { w with failed := true, attempted := ps }
  | .done => { w with
      path := file, committedEnd := (w.files file).length, generation := w.generation + 1
      committed := ps, attempted := ps }
  | .after => { w with
      path := file, committedEnd := (w.files file).length, generation := w.generation + 1
      failed := true, attempted := ps }

/-- `copy_tail`: the bytes from `copied` to the end go to the new file. -/
def copyTail (w : World) (t : Checkpoint) (end_ : Nat) : World :=
  w.write t.fresh (w.files t.fresh ++ ((w.files t.source).take end_).drop t.copied)

/-- What the background checkpoint does, if there is one. -/
def work (w : World) (f : Checkpoint → World) : World := w.background.elim w f

end World

open World in
def step (registry : Registry) (w : World) : Event → World
  | .append p error =>
    if w.failed then w
    else
      match error with
      | none => { w.write w.path (w.files w.path ++ frame p) with
          committedEnd := w.committedEnd + (24 + p.val.length)
          committed := w.committed ++ [p.val], attempted := w.committed ++ [p.val] }
      | some k => { w.write w.path (w.files w.path ++ (frame p).take k) with
          failed := true, attempted := w.committed ++ [p.val] }
  | .checkpoint p r =>
    if w.failed then w
    else
      { w.write w.next (magic ++ frame p) with next := w.next + 1 }.replace w.next [p.val] r
  | .prepare =>
    match w.failed, w.background with
    | false, none => { w.write w.next [] with
        next := w.next + 1
        background := some { source := w.path, fresh := w.next, generation := w.generation
                             copied := w.committedEnd, captured := w.committed } }
    | _, _ => w
  | .encode p => w.work fun t =>
    match t.stage, p with
    | .begun, some p => { w.write t.fresh (w.files t.fresh ++ (magic ++ frame p)) with
        background := some { t with stage := .encoded, record := p.val } }
    | .begun, none => { w with background := none }
    | _, _ => w
  | .pass => w.work fun t =>
    match t.stage with
    | .begun | .copying _ => w
    | _ =>
      if w.failed then { w with background := none }
      else if t.generation ≠ w.generation then w
      else { w with background := some { t with stage := .copying w.committedEnd } }
  | .copy => w.work fun t =>
    match t.stage with
    | .copying end_ => { w.copyTail t end_ with
        background := some { t with copied := max t.copied end_, stage := .ready } }
    | _ => w
  | .publish r => w.work fun t =>
    if w.failed ∨ t.generation ≠ w.generation then { w with background := none }
    else
      match t.stage with
      | .ready =>
        -- Back to another pass.
        if 256 * 1024 < w.committedEnd - t.copied then w
        else { w.copyTail t w.committedEnd with background := none }.replace t.fresh
          (t.record :: w.committed.drop t.captured.length) r
      | _ => w
  | .abandon => { w with background := none }
  | .reopen =>
    match recover (applyChanges registry) {} (w.files w.path) with
    | .error _ => { w with failed := true, background := none }
    | .ok (_, position) => { w.write w.path ((w.files w.path).take position) with
        committedEnd := position, generation := 0, failed := false, background := none
        committed := records (w.files w.path), attempted := records (w.files w.path) }

def run (registry : Registry) (events : List Event) : World := events.foldl (step registry) {}

end DurableStore

end CoreSql
