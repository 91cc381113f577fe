import CoreSql.Txn.Transaction

/-!
# The savepoint discipline, as a stack

What the guards of `Transaction.lean` are for, said without nodes or owner
pointers. A transaction is a state, a dirty flag and a stack of saved pairs;
each pair is labelled with the guard that controls it, which is enough to
name it because a guard is move-only and so at most one guard controls a
pair. A guard no stack mentions is closed.

* `rollback` restores the guard's pair and closes it and everything above;
* `rollbackTo` restores it, closes everything above and keeps it;
* `release` closes it and everything above and restores nothing;
* on a closed guard the first and the last do nothing and `rollbackTo`
  reports the error;
* `commit` is refused while the stack is not empty.
-/

namespace CoreSql.Txn

/-- One saved pair, with the guard that controls it. -/
structure Entry (S : Type) where
  guard : Nat
  state : S
  dirty : Bool

/-- An open transaction of the reference machine; the top of the stack is
its head. -/
structure RefTx (S : Type) where
  base : Nat
  state : S
  dirty : Bool
  stack : List (Entry S)

structure Ref (S : Type) where
  db : Database S
  txs : Nat → Option (RefTx S)
  nextTx : Nat
  nextGuard : Nat

variable {S : Type}

def fromGuard (g : Nat) (stack : List (Entry S)) : List (Entry S) :=
  stack.dropWhile fun e => e.guard ≠ g

def Entry.rename (dst src : Nat) (e : Entry S) : Entry S :=
  if e.guard = src then { e with guard := dst } else e

namespace Ref

def setTx (r : Ref S) (t : Nat) (tx : Option (RefTx S)) : Ref S :=
  { r with txs := Function.update r.txs t tx }

def stackOf (r : Ref S) (t : Nat) : List (Entry S) :=
  match r.txs t with
  | some tx => tx.stack
  | none => []

/-- The open transaction whose stack mentions the guard. -/
def find (r : Ref S) (g : Nat) : Option Nat :=
  (List.range r.nextTx).find? fun t => (r.stackOf t).any fun e => e.guard == g

def bases (r : Ref S) : List Nat :=
  (List.range r.nextTx).filterMap fun t => (r.txs t).map RefTx.base

def active (r : Ref S) (t : Nat) : Option Error :=
  if r.db.alive && (r.txs t).isSome then r.db.healthy else some inactiveError

/-- Restore the pair a guard controls; `keep` decides whether it stays. -/
def restore (r : Ref S) (g : Nat) (keep : Bool) : Ref S :=
  match r.find g with
  | none => r
  | some t =>
    match r.txs t with
    | none => r
    | some tx =>
      match fromGuard g tx.stack with
      | [] => r
      | e :: below =>
        r.setTx t (some { tx with
          state := e.state, dirty := e.dirty,
          stack := if keep then e :: below else below })

def rollback (r : Ref S) (g : Nat) : Ref S := r.restore g false

def rollbackTo (r : Ref S) (g : Nat) : Response × Ref S :=
  match r.find g with
  | none => (.error closedError, r)
  | some t =>
    match r.active t with
    | some e => (.error e, r)
    | none => (.done, r.restore g true)

def release (r : Ref S) (g : Nat) : Ref S :=
  match r.find g with
  | none => r
  | some t =>
    match r.txs t with
    | none => r
    | some tx => r.setTx t (some { tx with stack := (fromGuard g tx.stack).tail })

def savepoint (r : Ref S) (t : Nat) : Response × Ref S :=
  match r.active t, r.txs t with
  | some e, _ => (.error e, r)
  | none, none => (.error inactiveError, r)
  | none, some tx =>
    let e : Entry S := ⟨r.nextGuard, tx.state, tx.dirty⟩
    (.guard r.nextGuard,
      { r.setTx t (some { tx with stack := e :: tx.stack }) with
        nextGuard := r.nextGuard + 1 })

/-- Every stack hands the pair of one guard to another. -/
def rename (r : Ref S) (dst src : Nat) : Ref S :=
  { r with txs := fun t =>
      (r.txs t).map fun tx => { tx with stack := tx.stack.map (Entry.rename dst src) } }

def moveGuard (r : Ref S) (src : Nat) : Ref S :=
  { r.rename r.nextGuard src with nextGuard := r.nextGuard + 1 }

def assignGuard (r : Ref S) (dst src : Nat) : Ref S :=
  if dst = src ∨ r.nextGuard ≤ dst then r else (r.rollback dst).rename dst src

def beginTx (r : Ref S) : Response × Ref S :=
  match r.db.healthy with
  | some e => (.error e, r)
  | none =>
    match r.db.published r.db.current with
    | none => (.transaction r.nextTx, { r with nextTx := r.nextTx + 1 })
    | some s =>
      (.transaction r.nextTx,
        { r.setTx r.nextTx (some ⟨r.db.current, s, false, []⟩) with
          nextTx := r.nextTx + 1 })

def mutate (r : Ref S) (t : Nat) (f : S → Bool → Option Error × S × Bool) :
    Response × Ref S :=
  match r.active t, r.txs t with
  | some e, _ => (.error e, r)
  | none, none => (.error inactiveError, r)
  | none, some tx =>
    let (e, s, d) := f tx.state tx.dirty
    (answer e, r.setTx t (some { tx with state := s, dirty := d }))

def moveTx (r : Ref S) (src : Nat) : Ref S :=
  { (r.setTx src none).setTx r.nextTx (r.txs src) with nextTx := r.nextTx + 1 }

def assignTx (r : Ref S) (dst src : Nat) : Ref S :=
  if dst = src ∨ r.nextTx ≤ dst then r
  else (r.setTx src none).setTx dst (r.txs src)

/-- Commit: refused while a savepoint is open, a conflict when the database
moved on, nothing to do when clean, and otherwise whatever paging and the
log answer. -/
def commit (E : Engine S) (r : Ref S) (t : Nat) (a : Nat) (stored : Stored) :
    Response × Ref S :=
  match r.active t, r.txs t with
  | some e, _ => (.error e, r)
  | none, none => (.error inactiveError, r)
  | none, some tx =>
    if !tx.stack.isEmpty then (.error savepointsError, r)
    else if r.db.current ≠ tx.base then (.error conflictError, r)
    else if !tx.dirty then (.done, r.setTx t none)
    else
      let measured := E.measure tx.state
      let r := r.setTx t (some { tx with state := measured })
      match E.page measured ((r.db.published tx.base).getD measured) with
      | .error e => (.error e, r)
      | .ok next =>
        match stored with
        | .refused e => (.error e, r)
        | .broken e => (.error e, { r with db := { r.db with failed := true } })
        | .done =>
          (.done, { r.setTx t none with
            db := r.db.publish (allocate (heldBy r.db r.bases) a) next })

def step (E : Engine S) (r : Ref S) : Event S → Response × Ref S
  | .beginTx => r.beginTx
  | .mutate t f => r.mutate t f
  | .savepoint t => r.savepoint t
  | .release g => (.done, r.release g)
  | .rollback g => (.done, r.rollback g)
  | .rollbackTo g => r.rollbackTo g
  | .destroyGuard g => (.done, r.rollback g)
  | .moveGuard src => (.guard r.nextGuard, r.moveGuard src)
  | .assignGuard dst src => (.done, r.assignGuard dst src)
  | .commit t a stored => r.commit E t a stored
  | .rollbackTx t => (.done, r.setTx t none)
  | .moveTx src => (.transaction r.nextTx, r.moveTx src)
  | .assignTx dst src => (.done, r.assignTx dst src)
  | .retain => (.done, { r with db := { r.db with retained := r.db.current :: r.db.retained } })
  | .drop a => (.done, { r with db := { r.db with retained := r.db.retained.erase a } })
  | .close => (.done, { r with db := { r.db with alive := false } })

def initial (empty : S) : Ref S where
  db := (World.initial empty).db
  txs := fun _ => none
  nextTx := 0
  nextGuard := 0

end Ref

end CoreSql.Txn
