import CoreSql.Query.Bound

/-!
# Reusing the left side of a cross join

A cross join tests its WHERE clause on every pair of rows. The leading
conjuncts that read nothing of the right row give the same answer for every
right row, so `reuse_left_predicates` attaches a memo to each of them: the
address of the left row it was last evaluated on, and the answer. A memo is
looked at, and replaced, only when its conjunct is reached.
-/

namespace CoreSql

mutual

/-- `left_expression`: nothing of the right row is read. -/
def Bound.leftExpression (width : Nat) : Bound → Bool
  | .column _ index => index < width
  | .literal .. => true
  | .rowId => true
  | .apply _ _ arguments => leftExpressions width arguments

def leftExpressions (width : Nat) : List Bound → Bool
  | [] => true
  | e :: rest => e.leftExpression width && leftExpressions width rest

end

mutual

def Condition.leftPredicate (width : Nat) : Condition → Bool
  | .comparison left right _ _ => left.leftExpression width && right.leftExpression width
  | .contains left right _ _ => left.leftExpression width && right.leftExpression width
  | .all children => leftPredicates width children
  | .any children => leftPredicates width children
  | .negation child => child.leftPredicate width

def leftPredicates (width : Nat) : List Condition → Bool
  | [] => true
  | c :: rest => c.leftPredicate width && leftPredicates width rest

end

/-- `BoundPredicate::Memo`; no row has been seen while `left` is null. -/
structure Memo where
  left : Option Nat := none
  truth : Truth := .no

/-- A predicate whose leading conjuncts may have a memo. Below a conjunct
there are none, so that it can be kept as it is evaluated. -/
inductive Reused where
  | plain (p : BoundPredicate)
  | memo (m : Memo) (p : BoundPredicate)
  | all (children : List Reused)

mutual

/-- The `prefix` of `reuse_left_predicates`: the predicate with its memos, and
whether everything in it got one. -/
def Condition.reuse (width : Nat) : Condition → Reused × Bool
  | .all children =>
    let (children, more) := reuseAll width children
    (.all children, more)
  | c => if c.leftPredicate width then (.memo {} c.predicate, true) else (.plain c.predicate, false)

def reuseAll (width : Nat) : List Condition → List Reused × Bool
  | [] => ([], true)
  | c :: rest =>
    match c.reuse width with
    | (child, true) =>
      let (children, more) := reuseAll width rest
      (child :: children, more)
    | (child, false) => (child :: (predicates rest).map .plain, false)

end

def reuseLeftPredicates (width : Nat) (c : Condition) : Reused := (c.reuse width).1

mutual

/-- `BoundPredicate::truth` on a pair whose left row is at an address. A
failure leaves the memo as it was. -/
def Reused.truth (address : Nat) (v : RowView) : Reused → Except Error (Truth × Reused)
  | .plain p => do
      let t ← p.truth v
      return (t, .plain p)
  | .memo m p =>
    if m.left = some address then .ok (m.truth, .memo m p)
    else do
      let t ← p.truth v
      return (t, .memo ⟨some address, t⟩ p)
  | .all children => do
      let (t, children) ← reusedAll address v .yes children
      return (t, .all children)

def reusedAll (address : Nat) (v : RowView) (result : Truth) :
    List Reused → Except Error (Truth × List Reused)
  | [] => .ok (result, [])
  | child :: rest => do
      let (t, child) ← child.truth address v
      match t with
      | .no => return (.no, child :: rest)
      | .unknown =>
        let (t, rest) ← reusedAll address v .unknown rest
        return (t, child :: rest)
      | .yes =>
        let (t, rest) ← reusedAll address v result rest
        return (t, child :: rest)

end

mutual

def Reused.predicate : Reused → BoundPredicate
  | .plain p => p
  | .memo _ p => p
  | .all children => .all (reusedPredicates children)

def reusedPredicates : List Reused → List BoundPredicate
  | [] => []
  | r :: rest => r.predicate :: reusedPredicates rest

end

/-- `truth_uncached`, through and through. -/
def Reused.truthUncached (v : RowView) (r : Reused) : Except Error Truth := r.predicate.truth v

mutual

/-- The memos, in the order in which their conjuncts are reached. -/
def Reused.memos : Reused → List (Memo × BoundPredicate)
  | .plain _ => []
  | .memo m p => [(m, p)]
  | .all children => memosOf children

def memosOf : List Reused → List (Memo × BoundPredicate)
  | [] => []
  | r :: rest => r.memos ++ memosOf rest

end

mutual

/-- The nodes `truth` can be called on. -/
def Reused.nodes : Reused → List Reused
  | .plain p => [.plain p]
  | .memo m p => [.memo m p]
  | .all children => .all children :: nodesOf children

def nodesOf : List Reused → List Reused
  | [] => []
  | r :: rest => r.nodes ++ nodesOf rest

end

end CoreSql
