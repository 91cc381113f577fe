import CoreSql.Lib.Machine
import CoreSql.Mutation.Calls

/-!
# Databases in use

The transaction machine of `Txn.Transaction` run on states of this model: a
mutating event is one of the calls, a commit measures the staged state and
pages a copy of it. Paging compares references with those of the base, and
storing a page can fail; what it decides, which tables have resident chunks
to store or the error that stopped it, is the parameter `paging`.
-/

namespace CoreSql

open Txn

/-- What a commit runs on a state: `measure` and `page_state`. -/
def engine (registry : Registry) (paging : State → State → Except Error (Bytes → Bool)) :
    Engine State where
  measure s := { s with stats := measure s }
  page s base := do
    let resident ← paging s base
    let tables ← pageTables registry resident s.tables
    return { s with tables }

/-- A mutating event that is one of the calls. -/
def ByCalls (registry : Registry) : Txn.Event State → Prop
  | .mutate _ f => ∃ c : Call, f = c.effect registry
  | _ => True

/-- The worlds a program can reach from a fresh database with calls. -/
def Reachable (registry : Registry) (paging : State → State → Except Error (Bytes → Bool))
    (w : World State) : Prop :=
  ∃ events : List (Txn.Event State), (∀ e ∈ events, ByCalls registry e) ∧
    w = (Machine.run (World.step (engine registry paging)) events (World.initial {})).2

end CoreSql
