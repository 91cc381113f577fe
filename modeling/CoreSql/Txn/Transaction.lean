import CoreSql.Basic

/-!
# Transactions and savepoint guards

This is `transaction.cpp` with its pointers kept. A `Transaction` object owns
a staged state, remembers the published state it started from, and heads a
chain of savepoint nodes; a guard shares ownership of one node. Nodes are
mutable and shared, so they live in a table of their own, and a guard or a
chain link is an index into it. An index is never reused: a node dies only
when neither a guard nor the chain refers to it, and from then on nothing
can observe it.

The contents of a state play no part here — a transaction copies states and
swaps pointers to them — so the state type is a parameter. What the commit
path does to a state before publishing it (measuring it, paging it) is the
`Engine` it is run with, and what the log answered is an argument of the
commit.

Published states are reference counted and their addresses may come back:
`allocate` hands out any address no live reference holds. `capture() !=
base_` compares such addresses, which is sound only because an open
transaction keeps its base alive.
-/

namespace CoreSql.Txn

/-- `Transaction::SavepointState`. A closed node has no owner. -/
structure SavepointState (S : Type) where
  owner : Option Nat := none
  snapshot : Option S := none
  dirty : Bool := false
  parent : Option Nat := none

/-- The members of a `Transaction` object. `owner` is the weak reference to
the database: engaged or not; whether the database still exists is a fact
about the world. -/
structure Transaction (S : Type) where
  owner : Bool := false
  base : Option Nat := none
  staged : Option S := none
  dirty : Bool := false
  savepoint : Option Nat := none

/-- The `Owner` a database shares with its transactions: whether it still
exists, whether its storage failed, the published states by address, the
current one, and the addresses other readers retain. -/
structure Database (S : Type) where
  alive : Bool := true
  failed : Bool := false
  published : Nat → Option S
  current : Nat
  retained : List Nat := []

structure World (S : Type) where
  db : Database S
  txs : Nat → Transaction S
  nextTx : Nat
  nodes : Nat → SavepointState S
  nextNode : Nat
  guards : Nat → Option Nat
  nextGuard : Nat

/-- What a commit runs on a state before publishing it: the statistics
refresh of `measure` and the paging of `page_state`. -/
structure Engine (S : Type) where
  measure : S → S
  page : S → S → Except Error S

/-- What `DurableStore::commit` answered. A refusal before any I/O leaves
the store usable; an I/O failure poisons it. -/
inductive Stored where
  | done
  | refused (e : Error)
  | broken (e : Error)

inductive Response where
  | done
  | transaction (t : Nat)
  | guard (g : Nat)
  | error (e : Error)
  deriving DecidableEq

variable {S : Type}

def answer : Option Error → Response
  | none => .done
  | some e => .error e

def healthyError : Error :=
  ⟨.state, lit "Database unavailable; close and reopen after an uncertain I/O outcome"⟩

def inactiveError : Error :=
  ⟨.state, lit "Transaction is closed or database no longer exists"⟩

def closedError : Error := ⟨.state, lit "Savepoint is closed"⟩

def savepointsError : Error :=
  ⟨.state, lit "Release or roll back savepoints before committing"⟩

def conflictError : Error :=
  ⟨.conflict, lit "Database changed since transaction began; rollback and retry"⟩

def Database.healthy (db : Database S) : Option Error :=
  if db.alive && !db.failed then none else some healthyError

/-- Addresses some reference still holds: the current state, every base of
a transaction object, and whatever readers retain. -/
def heldBy (db : Database S) (bases : List Nat) : List Nat :=
  db.current :: (bases ++ db.retained)

/-- An allocator may return any address that is not held; `a` is its choice
and is replaced when it is taken. -/
def allocate (held : List Nat) (a : Nat) : Nat :=
  if a ∈ held then held.foldl max 0 + 1 else a

/-- `Owner::publish`: the new state at its address becomes the current one. -/
def Database.publish (db : Database S) (a : Nat) (s : S) : Database S :=
  { db with published := Function.update db.published a (some s), current := a }

namespace World

def setTx (w : World S) (t : Nat) (tx : Transaction S) : World S :=
  { w with txs := Function.update w.txs t tx }

def setNode (w : World S) (n : Nat) (node : SavepointState S) : World S :=
  { w with nodes := Function.update w.nodes n node }

def setGuard (w : World S) (g : Nat) (n : Option Nat) : World S :=
  { w with guards := Function.update w.guards g n }

def bases (w : World S) : List Nat :=
  (List.range w.nextTx).filterMap fun t => (w.txs t).base

/-- `Transaction::active`: `none` when the transaction may proceed. -/
def active (w : World S) (t : Nat) : Option Error :=
  if (w.txs t).owner && w.db.alive && (w.txs t).staged.isSome then w.db.healthy
  else some inactiveError

/-- The `while (savepoint_)` loop of `finish_savepoint`: pop nodes off the
chain, close each, stop after the target. The fuel only has to cover the
chain, whose node numbers decrease. -/
def popUntil (target : Option Nat) (t : Nat) : Nat → World S → World S
  | 0, w => w
  | fuel + 1, w =>
    match (w.txs t).savepoint with
    | none => w
    | some point =>
      let node := w.nodes point
      let w := w.setTx t { w.txs t with savepoint := node.parent }
      let w := w.setNode point
        { node with owner := none, snapshot := none, parent := none }
      if target = some point then w else popUntil target t fuel w

/-- `Transaction::finish_savepoint(target, restore)`. The snapshot is moved
out of the target before the chain is popped. -/
def finishSavepoint (w : World S) (t : Nat) (target : Option Nat)
    (restore : Bool) : World S :=
  let w :=
    match target, restore with
    | some n, true =>
      let node := w.nodes n
      let w := w.setTx t { w.txs t with staged := node.snapshot, dirty := node.dirty }
      w.setNode n { node with snapshot := none }
    | _, _ => w
  popUntil target t w.nextNode w

/-- The loop of `retarget_savepoints`: walk the chain and rewrite owners. -/
def retarget (t : Nat) : Nat → Option Nat → World S → World S
  | 0, _, w => w
  | _ + 1, none, w => w
  | fuel + 1, some n, w =>
    retarget t fuel (w.nodes n).parent (w.setNode n { w.nodes n with owner := some t })

/-- `Transaction::rollback()`: close the chain, drop everything held. -/
def rollbackTx (w : World S) (t : Nat) : World S :=
  let w := if (w.txs t).savepoint.isSome then w.finishSavepoint t none false else w
  w.setTx t {}

/-- `Transaction(Transaction&&)`: a new object takes the members over. The
source keeps its dirty flag and nothing else. -/
def moveTx (w : World S) (src : Nat) : World S :=
  let dst := w.nextTx
  let tx := w.txs src
  let w := { w with nextTx := w.nextTx + 1 }
  let w := (w.setTx src { dirty := tx.dirty }).setTx dst tx
  retarget dst w.nextNode tx.savepoint w

/-- `Transaction::operator=(Transaction&&)`. The target has to be an object
that was constructed. -/
def assignTx (w : World S) (dst src : Nat) : World S :=
  if dst = src ∨ w.nextTx ≤ dst then w
  else
    let w := w.rollbackTx dst
    let tx := w.txs src
    let w := (w.setTx src { dirty := tx.dirty }).setTx dst tx
    retarget dst w.nextNode tx.savepoint w

/-- The open transaction a guard's node still belongs to. -/
def guardOwner (w : World S) (g : Nat) : Option Nat :=
  (w.guards g).bind fun n => (w.nodes n).owner

def rollback (w : World S) (g : Nat) : World S :=
  match w.guardOwner g with
  | some t => w.finishSavepoint t (w.guards g) true
  | none => w

def release (w : World S) (g : Nat) : World S :=
  match w.guardOwner g with
  | some t => w.finishSavepoint t (w.guards g) false
  | none => w

/-- `Savepoint::rollback_to()`. A replacement node with a copy of the
snapshot is allocated first, the old node is finished, and the replacement
is pushed in its place and given to the guard. -/
def rollbackTo (w : World S) (g : Nat) : Response × World S :=
  match w.guards g, w.guardOwner g with
  | some n, some t =>
    match w.active t with
    | some e => (.error e, w)
    | none =>
      let replacement := w.nextNode
      let w := { w.setNode replacement (w.nodes n) with nextNode := w.nextNode + 1 }
      let w := w.finishSavepoint t (some n) true
      let w := w.setTx t { w.txs t with savepoint := some replacement }
      (.done, w.setGuard g (some replacement))
  | _, _ => (.error closedError, w)

def savepoint (w : World S) (t : Nat) : Response × World S :=
  match w.active t with
  | some e => (.error e, w)
  | none =>
    let tx := w.txs t
    let n := w.nextNode
    let g := w.nextGuard
    let w := w.setNode n
      { owner := some t, snapshot := tx.staged, dirty := tx.dirty, parent := tx.savepoint }
    let w := w.setTx t { tx with savepoint := some n }
    let w := w.setGuard g (some n)
    (.guard g, { w with nextNode := n + 1, nextGuard := g + 1 })

/-- `Savepoint(Savepoint&&)`: the node moves to a new guard. -/
def moveGuard (w : World S) (src : Nat) : World S :=
  let dst := w.nextGuard
  let n := w.guards src
  { (w.setGuard src none).setGuard dst n with nextGuard := dst + 1 }

/-- `Savepoint::operator=(Savepoint&&)`: roll the target back first. -/
def assignGuard (w : World S) (dst src : Nat) : World S :=
  if dst = src ∨ w.nextGuard ≤ dst then w
  else
    let w := w.rollback dst
    let n := w.guards src
    (w.setGuard src none).setGuard dst n

/-- `~Savepoint()`. -/
def destroyGuard (w : World S) (g : Nat) : World S :=
  (w.rollback g).setGuard g none

/-- `Database::begin()` and the `Transaction(owner)` constructor. -/
def beginTx (w : World S) : Response × World S :=
  match w.db.healthy with
  | some e => (.error e, w)
  | none =>
    let t := w.nextTx
    let tx : Transaction S :=
      { owner := true, base := some w.db.current, staged := w.db.published w.db.current }
    (.transaction t, { w.setTx t tx with nextTx := t + 1 })

/-- A mutating call on an active transaction. `f` is what the call does to
the staged state and the dirty flag, with the error it raises if it raises
one. Nothing is assumed here about a call that fails half way. -/
def mutate (w : World S) (t : Nat) (f : S → Bool → Option Error × S × Bool) :
    Response × World S :=
  match w.active t, (w.txs t).staged with
  | none, some s =>
    let (e, s', d) := f s (w.txs t).dirty
    (answer e, w.setTx t { w.txs t with staged := some s', dirty := d })
  | some e, _ => (.error e, w)
  | none, none => (.error inactiveError, w)

/-- `Transaction::commit()`, under `commit_mutex`. The staged state is
measured in place, its copy is paged and logged, and only then published. -/
def commit (E : Engine S) (w : World S) (t : Nat) (a : Nat) (stored : Stored) :
    Response × World S :=
  let tx := w.txs t
  match w.active t, tx.staged, tx.base with
  | none, some s, some base =>
    if tx.savepoint.isSome then (.error savepointsError, w)
    else if w.db.current ≠ base then (.error conflictError, w)
    else if !tx.dirty then (.done, w.rollbackTx t)
    else
      let measured := E.measure s
      let w := w.setTx t { tx with staged := some measured }
      match E.page measured ((w.db.published base).getD measured) with
      | .error e => (.error e, w)
      | .ok next =>
        match stored with
        | .refused e => (.error e, w)
        | .broken e => (.error e, { w with db := { w.db with failed := true } })
        | .done =>
          let a := allocate (heldBy w.db w.bases) a
          let w := { w with db := w.db.publish a next }
          (.done, w.rollbackTx t)
  | some e, _, _ => (.error e, w)
  | none, _, _ => (.error inactiveError, w)

end World

/-- Everything a program can do with the transactions of one database and
their guards. -/
inductive Event (S : Type) where
  | beginTx
  | mutate (t : Nat) (f : S → Bool → Option Error × S × Bool)
  | savepoint (t : Nat)
  | release (g : Nat)
  | rollback (g : Nat)
  | rollbackTo (g : Nat)
  | destroyGuard (g : Nat)
  | moveGuard (src : Nat)
  | assignGuard (dst src : Nat)
  | commit (t : Nat) (a : Nat) (stored : Stored)
  | rollbackTx (t : Nat)
  | moveTx (src : Nat)
  | assignTx (dst src : Nat)
  | retain
  | drop (a : Nat)
  | close

/-- One event. `rollbackTx` is also the destructor of a transaction. -/
def World.step (E : Engine S) (w : World S) : Event S → Response × World S
  | .beginTx => w.beginTx
  | .mutate t f => w.mutate t f
  | .savepoint t => w.savepoint t
  | .release g => (.done, w.release g)
  | .rollback g => (.done, w.rollback g)
  | .rollbackTo g => w.rollbackTo g
  | .destroyGuard g => (.done, w.destroyGuard g)
  | .moveGuard src => (.guard w.nextGuard, w.moveGuard src)
  | .assignGuard dst src => (.done, w.assignGuard dst src)
  | .commit t a stored => w.commit E t a stored
  | .rollbackTx t => (.done, w.rollbackTx t)
  | .moveTx src => (.transaction w.nextTx, w.moveTx src)
  | .assignTx dst src => (.done, w.assignTx dst src)
  | .retain => (.done, { w with db := { w.db with retained := w.db.current :: w.db.retained } })
  | .drop a => (.done, { w with db := { w.db with retained := w.db.retained.erase a } })
  | .close => (.done, { w with db := { w.db with alive := false } })

/-- A fresh database: the empty state published at address zero, nothing
open. -/
def World.initial (empty : S) : World S where
  db := { published := fun a => if a = 0 then some empty else none, current := 0 }
  txs := fun _ => {}
  nextTx := 0
  nodes := fun _ => {}
  nextNode := 0
  guards := fun _ => none
  nextGuard := 0

end CoreSql.Txn
