import CoreSql.Lib.Machine
import CoreSql.Txn.Transaction

/-!
# The history of a database

What a serial history is, said beside the machine and not in it. An observer
writes down every state that gets published, in order, and for every
transaction object which entry of that list it began from. The observer
never looks at an address: an object's entry is written when `begin`
answers, follows the object when it is moved, and is struck out when the
object is closed.
-/

namespace CoreSql.Txn

variable {S : Type}

/-- The published states, oldest first, and the entry each open transaction
object began from. -/
structure History (S : Type) where
  chain : List S
  read : Nat → Option Nat

namespace History

def start (empty : S) : History S := ⟨[empty], fun _ => none⟩

def forget (h : History S) (t : Nat) : History S :=
  { h with read := Function.update h.read t none }

def follow (h : History S) (dst src : Nat) : History S :=
  { h with read := Function.update (Function.update h.read src none) dst (h.read src) }

/-- What the observer writes after an event, seeing the world before it, the
answer and the world after it. -/
def next (h : History S) (w : World S) (e : Event S) (x : Response × World S) : History S :=
  match e, x.1 with
  | .beginTx, .transaction t =>
    { h with read := Function.update h.read t (some (h.chain.length - 1)) }
  | .commit t _ _, .done =>
    if (w.txs t).dirty then
      { h.forget t with chain := h.chain ++ (x.2.db.published x.2.db.current).toList }
    else h.forget t
  | .rollbackTx t, _ => h.forget t
  | .moveTx src, .transaction dst => h.follow dst src
  | .assignTx dst src, _ => if dst = src ∨ w.nextTx ≤ dst then h else h.follow dst src
  | _, _ => h

end History

def World.watched (E : Engine S) (x : History S × World S) (e : Event S) :
    Response × (History S × World S) :=
  ((x.2.step E e).1, (x.1.next x.2 e (x.2.step E e), (x.2.step E e).2))

end CoreSql.Txn
