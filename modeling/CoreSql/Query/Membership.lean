import CoreSql.Data.Expr
import CoreSql.Query.Predicate

/-!
# Membership in a list or in the rows of a query

`x IN (…)` in `bind`. A bound membership is a closure that is called once for
each row: it evaluates its candidates, or has them from the literals of the
expression or from a nested query, and compares them with the needle one by
one. Where the equality function knows a faster way, and the needle and the
candidates are of one type, it is asked once for a test that stands for all
comparisons, and the answer follows from that test and from what was noted
about NULLs. A nested query that is repeatable and captures nothing is one
computation, and runs once.

What a membership keeps between calls is its state: the rows of such a query,
and the `MembershipLookup`.
-/

namespace CoreSql

/-- Where the candidates come from. A nested query gets the values it
captures; a `cacheable` one captures none. -/
inductive MembershipSource where
  | arguments
  | literals (values : List Value)
  | query (run : List Value → Except Error (List Row))
  | cacheable (run : Except Error (List Row))

/-- What the closure of a membership was made from. Literals are set aside
only where they are of the type of the needle. -/
structure Membership where
  equal : Function
  truth : TypeAddon
  needleType : SqlType
  sameType : Bool
  source : MembershipSource
  literals_sameType : ∀ values, source = .literals values → sameType = true

structure MembershipState where
  cache : Option (List Row) := none
  lookup : MembershipLookup := {}

namespace Membership

variable (m : Membership)

/-- `values[0]`. -/
def needle (values : List Value) : Value := values.headD default

def cells (rows : List Row) : List Value := rows.map fun row => row.cell 0

def compareEach (values candidates : List Value) : Except Error Value :=
  matchCandidates m.equal m.truth (needle values) false candidates

/-- The lookup, and the loop where it has no answer. -/
def lookUp (values candidates : List Value) : StateT MembershipState (Except Error) Value := do
  let s ← get
  let lookup := s.lookup.prepare m.equal m.needleType candidates
  set { s with lookup }
  match lookup.find (needle values) with
  | some answer => return answer
  | none => (m.compareEach values candidates : Except Error Value)

def fetch (run : Except Error (List Row)) :
    StateT MembershipState (Except Error) (List Row) := do
  match (← get).cache with
  | some rows => return rows
  | none =>
    let rows ← run
    modify fun s => { s with cache := some rows }
    return rows

def evaluate (values : List Value) : StateT MembershipState (Except Error) Value :=
  match m.source with
  | .arguments => (m.compareEach values values.tail : Except Error Value)
  | .literals candidates => m.lookUp values candidates
  | .query run => do
      let rows ← (run values : Except Error (List Row))
      (m.compareEach values (cells rows) : Except Error Value)
  | .cacheable run => do
      let rows ← fetch run
      if m.sameType then m.lookUp values (cells rows)
      else (m.compareEach values (cells rows) : Except Error Value)

def candidates (values : List Value) : Except Error (List Value) :=
  match m.source with
  | .arguments => .ok values.tail
  | .literals candidates => .ok candidates
  | .query run => cells <$> run values
  | .cacheable run => cells <$> run

end Membership

def memberOf (equal : Value → Value → Bool) (needle : Value) (candidates : List Value) : Value :=
  if candidates = [] then .integer 0
  else if needle.isNull = false ∧ ∃ c ∈ candidates, c.isNull = false ∧ equal needle c = true then
    .integer 1
  else if needle.isNull = true ∨ ∃ c ∈ candidates, c.isNull = true then .null integerType
  else .integer 0

end CoreSql
