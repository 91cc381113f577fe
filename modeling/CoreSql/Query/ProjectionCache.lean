import CoreSql.Query.Bound

/-!
# Sharing in the projection

Before a repeatable query projects its first row, `ProjectionCache` goes
through the expressions of the projection and gives calls that it takes for
the same call one slot: the first of them that is evaluated for a row leaves
its value there, and the others take it. Only calls whose operands are
columns, literals, row identities and such calls again take part, and none
that returns a text. Slots are emptied before each row, and filled on demand,
so that a call inside a conditional is evaluated only where it would be.

Whether two calls are the same is decided by `same`, which compares literals
with the equality of the variant: the literals 0.0 and -0.0 are the same to
it, and so are calls that differ in nothing else.

The source finds the slot of a call through a pointer in the tree. Here a
call is marked with its place among the different calls (`seen`), and it has a
slot once a second call got the same place (`slots`).
-/

namespace CoreSql

/-- `BoundExpr`, as a projection has it. A function is known by its name: the
pointer that binding looked up. A membership or a nested query evaluates its
arguments and computes from their values. -/
inductive ProjectionExpr where
  | column (type : SqlType) (index : Nat)
  | literal (type : SqlType) (value : Value)
  | rowId
  | call (place : Option Nat) (type : SqlType) (function : Bytes) (arguments : List ProjectionExpr)
  | conditional (type : SqlType) (equality : Option Bytes) (arguments : List ProjectionExpr)
  | coalesce (type : SqlType) (arguments : List ProjectionExpr)
  | subquery (type : SqlType) (run : List Value → Except Error Value)
      (arguments : List ProjectionExpr)

namespace ProjectionExpr

def type : ProjectionExpr → SqlType
  | column type _ => type
  | literal type _ => type
  | rowId => integerType
  | call _ type .. => type
  | conditional type .. => type
  | coalesce type _ => type
  | subquery type .. => type

/-! ## Which calls share -/

mutual

def scalar : ProjectionExpr → Bool
  | column .. | literal .. | rowId => true
  | call _ _ _ arguments => allScalar arguments
  | _ => false

def allScalar : List ProjectionExpr → Bool
  | [] => true
  | e :: rest => e.scalar && allScalar rest

end

def shareable : ProjectionExpr → Bool
  | call _ type _ arguments => type != textType && allScalar arguments
  | _ => false

mutual

/-- `same`, on the expressions it is asked about. -/
def same : ProjectionExpr → ProjectionExpr → Bool
  | column type index, column type' index' => type == type' && index == index'
  | literal type value, literal type' value' => type == type' && value.variantEqual value'
  | rowId, rowId => true
  | call _ type function arguments, call _ type' function' arguments' =>
    type == type' && function == function' && allSame arguments arguments'
  | _, _ => false

def allSame : List ProjectionExpr → List ProjectionExpr → Bool
  | [], [] => true
  | e :: rest, e' :: rest' => e.same e' && allSame rest rest'
  | _, _ => false

end

end ProjectionExpr

/-- What the constructor of `ProjectionCache` collects. -/
structure Sharing where
  seen : List ProjectionExpr := []
  slots : List Nat := []

/-- The place of a call: that of the first call that is the same, which then
has a slot, or a new one. -/
def Sharing.place (s : Sharing) (e : ProjectionExpr) : Nat × Sharing :=
  match s.seen.findIdx? fun previous => e.same previous with
  | some k => (k, if k ∈ s.slots then s else { s with slots := s.slots ++ [k] })
  | none => (s.seen.length, { s with seen := s.seen ++ [e] })

namespace ProjectionExpr

mutual

/-- `visit`: arguments first. -/
def visit : ProjectionExpr → Sharing → ProjectionExpr × Sharing
  | call place type function arguments, s =>
    let (placed, s) := visitAll arguments s
    if (call place type function arguments).shareable then
      let (k, s) := s.place (call place type function arguments)
      (call (some k) type function placed, s)
    else (call none type function placed, s)
  | conditional type equality arguments, s =>
    let (placed, s) := visitAll arguments s
    (conditional type equality placed, s)
  | coalesce type arguments, s =>
    let (placed, s) := visitAll arguments s
    (coalesce type placed, s)
  | subquery type run arguments, s =>
    let (placed, s) := visitAll arguments s
    (subquery type run placed, s)
  | e, s => (e, s)

def visitAll : List ProjectionExpr → Sharing → List ProjectionExpr × Sharing
  | [], s => ([], s)
  | e :: rest, s =>
    let (e, s) := visit e s
    let (rest, s) := visitAll rest s
    (e :: rest, s)

end

end ProjectionExpr

/-! ## Evaluation -/

/-- A call of a function with evaluated arguments. -/
def Registry.call (registry : Registry) (function : Bytes) (types : List SqlType) (type : SqlType)
    (values : List Value) : Except Error Value := do
  let f ← registry.function function
  let addon ← registry.addon type
  if !f.acceptsNull && values.any Value.isNull then return .null type
  else
    let prepared := f.prepare.bind fun prepare => prepare types type
    let result ← (prepared.getD f.invoke) values
    checkValue addon type result
    return result

/-- Whether a conditional with a base takes a branch; neither operand is
NULL. -/
def Registry.matchesBase (registry : Registry) (equality : Bytes) (base value : Value) :
    Except Error Bool := do
  let f ← registry.function equality
  let truth ← registry.addon integerType
  let answer ← f.invoke [base, value]
  checkValue truth integerType answer
  return truthy answer

section

variable {m : Type → Type} [Monad m] [MonadLiftT (Except Error) m]

def inOrder : List (m Value) → m (List Value)
  | [] => pure []
  | x :: rest => do
      let value ← x
      let values ← inOrder rest
      return value :: values

def firstPresent (type : SqlType) : List (m Value) → m Value
  | [] => pure (.null type)
  | x :: rest => do
      let value ← x
      if value.isNull then firstPresent type rest else return value

/-- The operand that stands alone at the end. -/
def fallback (type : SqlType) : List (m Value) → m Value
  | [] => pure (.null type)
  | [x] => x
  | _ :: _ :: rest => fallback type rest

def searched (type : SqlType) : List (m Value) → m Value
  | [] => pure (.null type)
  | [x] => x
  | condition :: result :: rest => do
      let value ← condition
      if truthy value then result else searched type rest

/-- The branches of a conditional with a base. -/
def matched (registry : Registry) (type : SqlType) (equality : Bytes) (base : Value) :
    List (m Value) → m Value
  | [] => pure (.null type)
  | [x] => x
  | operand :: result :: rest => do
      let value ← operand
      if value.isNull then matched registry type equality base rest
      else
        let taken ← (registry.matchesBase equality base value : Except Error Bool)
        if taken then result else matched registry type equality base rest

def conditionally (registry : Registry) (type : SqlType) (equality : Option Bytes)
    (arguments : List (m Value)) : m Value :=
  match equality, arguments with
  | none, arguments => searched type arguments
  | some _, [] => pure (.null type)
  | some equality, base :: rest => do
      let value ← base
      if value.isNull then fallback type rest else matched registry type equality value rest

variable (registry : Registry) (reuse : ProjectionExpr → m Value → m Value)

mutual

/-- `evaluate` and `evaluate_uncached`; `reuse` is what `evaluate` does about
the slot of a call. -/
def ProjectionExpr.evaluateWith (v : RowView) : ProjectionExpr → m Value
  | .column _ index => pure (v.row.cell index)
  | .literal _ value => pure value
  | .rowId =>
    match v.id with
    | some id => pure (.integer (Int64.ofNat id))
    | none =>
      (fail .unsupported "Row identity is only available in query expressions" :
        Except Error Value)
  | .call place type function arguments => reuse (.call place type function arguments) do
      let values ← inOrder (evaluateEach v arguments)
      (registry.call function (arguments.map ProjectionExpr.type) type values : Except Error Value)
  | .conditional type equality arguments =>
    conditionally registry type equality (evaluateEach v arguments)
  | .coalesce type arguments => firstPresent type (evaluateEach v arguments)
  | .subquery _ run arguments => do
      let values ← inOrder (evaluateEach v arguments)
      (run values : Except Error Value)

def evaluateEach (v : RowView) : List ProjectionExpr → List (m Value)
  | [] => []
  | e :: rest => e.evaluateWith v :: evaluateEach v rest

end

end

/-- Evaluation of an expression from scratch. -/
def ProjectionExpr.evaluate (registry : Registry) (v : RowView) (e : ProjectionExpr) :
    Except Error Value :=
  e.evaluateWith registry (fun _ x => x) v

abbrev Slots := Nat → Option Value

/-- A call that has a slot: its value, or a new one. -/
def Sharing.reuse (s : Sharing) : ProjectionExpr → StateT Slots (Except Error) Value →
    StateT Slots (Except Error) Value
  | .call (some k) .., x =>
    if k ∈ s.slots then do
      match (← get) k with
      | some value => return value
      | none =>
        let value ← x
        modify fun slots => Function.update slots k (some value)
        return value
    else x
  | _, x => x

/-- A row of a projection, each expression evaluated from scratch. -/
def freshRow (registry : Registry) (projection : List ProjectionExpr) (v : RowView) :
    Except Error Row :=
  inOrder (evaluateEach registry (fun _ x => x) v projection)

/-- A row of a projection with slots: `reset`, and the expressions in order. -/
def sharedRow (registry : Registry) (s : Sharing) (placed : List ProjectionExpr) (v : RowView) :
    Except Error Row :=
  (inOrder (evaluateEach registry s.reuse v placed)).run' fun _ => none

/-- The rows of a projection with `ProjectionCache`. -/
def projectShared (registry : Registry) (repeatable : Bool) (projection : List ProjectionExpr)
    (rows : List RowView) : Except Error (List Row) :=
  let (placed, s) :=
    if repeatable then ProjectionExpr.visitAll projection {} else (projection, {})
  rows.mapM (sharedRow registry s placed)

/-! ## What binding establishes -/

mutual

/-- An expression that `bind` may have returned: its literals are valid, and
each call is of the type that its function infers. -/
def Registry.Binds (registry : Registry) : ProjectionExpr → Prop
  | .column .. | .rowId => True
  | .literal type value => registry.validate value type = .ok ()
  | .call place type function arguments =>
    place = none ∧
      (∃ f, registry.function function = .ok f ∧
        f.infer (arguments.map ProjectionExpr.type) = .ok type ∧
        ∀ prepare, f.prepare = some prepare →
          (prepare (arguments.map ProjectionExpr.type) type).isSome) ∧
      registry.validateType type = .ok () ∧ registry.BindsAll arguments
  | .conditional _ _ arguments | .coalesce _ arguments | .subquery _ _ arguments =>
    registry.BindsAll arguments

def Registry.BindsAll (registry : Registry) : List ProjectionExpr → Prop
  | [] => True
  | e :: rest => registry.Binds e ∧ registry.BindsAll rest

end

end CoreSql
