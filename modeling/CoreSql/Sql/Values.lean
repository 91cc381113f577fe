import CoreSql.Data.Scalars
import CoreSql.Lib.BinaryFormat
import CoreSql.Lib.Buckets
import CoreSql.Storage.Encoding

/-!
# Comparing SQL values

`sql/values.cpp`. A column without a declared type holds values of one opaque
type that wraps an integer, a double or a text. Values of different types
compare by their numbers where they have numbers, and by the kind of value
otherwise. An integer and a double are compared exactly, by the integral part
of the double first.

The equality functions are `sql.equal`, and one for each scalar type that
applies the affinity of the type to both operands first. They know a faster
way to test membership among values of a type with native operations: a list
for up to eight keys, a hash set above.
-/

namespace CoreSql

/-! ## Comparison in a registry -/

/-- What `Registry::equal` and `Registry::compare` check first. -/
def Registry.checkOperands (registry : Registry) (a b : Value) : Except Error TypeAddon := do
  let type := a.typeOf
  let addon ← registry.addon type
  addon.validateType type.parameters
  checkValue addon type a
  checkValue addon type b
  return addon

def Registry.equal (registry : Registry) (a b : Value) : Except Error Bool := do
  let addon ← registry.checkOperands a b
  match addon.equal with
  | none => .error ⟨.unsupported, lit "Type does not support equality: " ++ a.typeOf.id⟩
  | some equal =>
    return if a.isNull || b.isNull then a.isNull && b.isNull else equal a.typeOf.parameters a b

def Registry.compare (registry : Registry) (a b : Value) : Except Error Int := do
  let addon ← registry.checkOperands a b
  match addon.compare with
  | none => .error ⟨.unsupported, lit "Type does not support ordering: " ++ a.typeOf.id⟩
  | some compare =>
    return if a.isNull || b.isNull then compareNulls a b else compare a.typeOf.parameters a b

def Registry.equatable (registry : Registry) (type : SqlType) : Except Error Bool := do
  registry.validateType type
  let addon ← registry.addon type
  return addon.equal.isSome

/-! ## SQL values -/

namespace Sql

def anyType : SqlType := { id := lit "sql.value" }

def scalarType (type : SqlType) : Bool :=
  type == integerType || type == realType || type == textType || type == anyType

def unpackBytes : Reader Value := do
  let tag ← Reader.take 1
  match tag with
  | [0] => do
      let n ← Reader.u64
      Reader.finish
      return .integer (Int64.ofNat n)
  | [1] => do
      let n ← Reader.u64
      Reader.check (isFinite (UInt64.ofNat n) = true) "Invalid SQL real"
      Reader.finish
      return .real (UInt64.ofNat n)
  | [2] => do
      let n ← Decoder.remaining
      let bytes ← Reader.take n
      Reader.finish
      return .text bytes
  | _ => Decoder.lift (fail .format "Invalid SQL value tag")

def unpack : Value → Except Error Value
  | .blob type bytes => if type = anyType then unpackBytes.run bytes else .ok (.blob type bytes)
  | value => .ok value

/-- A double as a multiple of the smallest positive one. -/
def units (bits : UInt64) : Int :=
  let mantissa := (bits &&& 0xFFFFFFFFFFFFF).toNat
  let exponent := ((bits >>> 52) &&& 0x7FF).toNat
  let magnitude : Nat := if exponent = 0 then mantissa else (mantissa + 2 ^ 52) * 2 ^ (exponent - 1)
  if bits < 0x8000000000000000 then magnitude else -magnitude

def unitsOfOne : Nat := 2 ^ 1074

/-- `number_compare`, on a finite double. -/
def numberCompare (i : Int64) (bits : UInt64) : Int :=
  if 2 ^ 63 * unitsOfOne ≤ units bits then -1
  else if units bits < -(2 ^ 63 * unitsOfOne) then 1
  else
    let truncated := (units bits).tdiv unitsOfOne
    if i.toInt ≠ truncated then if i.toInt < truncated then -1 else 1
    else if truncated * unitsOfOne < units bits then -1
    else if units bits < truncated * unitsOfOne then 1
    else 0

/-- `double(i)`: the nearest double, of two the even one. -/
def doubleOf (i : Int) : UInt64 :=
  let magnitude := UInt64.ofNat (BinaryFormat.nearestEven 52 (i.natAbs * unitsOfOne))
  if i < 0 then 0x8000000000000000 + magnitude else magnitude

/-- `number_compare` with the conversion of the integral part back to a double
written out. -/
def numberCompareConverted (i : Int64) (bits : UInt64) : Int :=
  if 2 ^ 63 * unitsOfOne ≤ units bits then -1
  else if units bits < -(2 ^ 63 * unitsOfOne) then 1
  else
    let truncated := (units bits).tdiv unitsOfOne
    if i.toInt ≠ truncated then if i.toInt < truncated then -1 else 1
    else if units (doubleOf truncated) < units bits then -1
    else if units bits < units (doubleOf truncated) then 1
    else 0

/-- `Value::index`. -/
def kindIndex : Value → Nat
  | .integer _ => 0
  | .real _ => 1
  | .text _ => 2
  | .blob .. => 3
  | .null _ => 4
  | .compact8 .. | .compact16 .. => 5

def valueCompare (registry : Registry) (a b : Value) : Except Error Int := do
  let a ← unpack a
  let b ← unpack b
  if a.typeOf = b.typeOf then registry.compare a b
  else
    match a, b with
    | .integer i, .real d => return numberCompare i d
    | .real d, .integer i => return -numberCompare i d
    | a, b => return if kindIndex a < kindIndex b then -1 else 1

/-! ## Affinity -/

/-- What `apply_affinity` of the adapter of a type does; a type may have no
adapter, and an adapter no affinity. -/
abbrev TypeAdapters := SqlType → Option (Value → Except Error Value)

def affinity (adapters : TypeAdapters) (type : SqlType) (value : Value) : Except Error Value := do
  let value ← unpack value
  if value.isNull then return value
  else
    match adapters type with
    | some apply => apply value
    | none => return value

/-! ## Membership -/

/-- The test of a hash set: equal hash numbers, and equality. -/
def sameKey (hash : Value → Nat) (equal : Value → Value → Bool) (key value : Value) : Bool :=
  hash key == hash value && equal value key

/-- `membership_factory`. Binding has looked both types up. -/
def membershipFactory (registry : Registry) (affinity : Option SqlType) (type : SqlType)
    (candidates : List Value) : Option (Value → Bool) := do
  let addon ← registry.types type.id type.version
  let integers ← registry.types integerType.id integerType.version
  if (addon.layout ≠ .i64 ∧ addon.layout ≠ .text) ∨ (∃ t ∈ affinity, type ≠ t) then none
  else if !addon.nativeOps || !integers.nativeOps then none
  else
    let hash ← addon.hash
    let equal ← addon.equal
    let _ ← addon.compare
    let hash := hash type.parameters
    let equal := equal type.parameters
    if candidates.length ≤ 8 then
      return fun value => candidates.any fun key => equal value key
    else
      let keys := candidates.foldl (Buckets.addKey (sameKey hash equal)) []
      return Buckets.hasKey (sameKey hash equal) keys

/-! ## Equality functions -/

/-- `std::int64_t(bool)`. -/
def ofBool (b : Bool) : Value := .integer (if b then 1 else 0)

/-- `sql.equal`. -/
def equalFunction (registry : Registry) : Function where
  infer
    | [a, b] => do
        let same ← if a = b then registry.equatable a else pure false
        if same || (scalarType a && scalarType b) then return integerType
        else fail .type "Comparison needs compatible types"
    | _ => fail .type "Comparison needs compatible types"
  invoke
    | a :: b :: _ =>
      if a.typeOf = b.typeOf then do return ofBool (← registry.equal a b)
      else do return ofBool ((← valueCompare registry a b) == 0)
    | _ => fail .type "Comparison needs compatible types"
  prepareMembership := some (membershipFactory registry none)

/-- The equality that applies the affinity of a type. -/
def affinityEqual (registry : Registry) (adapters : TypeAdapters) (type : SqlType) : Function where
  infer
    | [a, b] =>
      if scalarType a && scalarType b then .ok integerType
      else fail .type "Affinity comparison needs SQL scalars"
    | _ => fail .type "Affinity comparison needs SQL scalars"
  invoke
    | a :: b :: _ => do
        let a ← affinity adapters type a
        let b ← affinity adapters type b
        return ofBool ((← valueCompare registry a b) == 0)
    | _ => fail .type "Affinity comparison needs SQL scalars"
  prepareMembership := some (membershipFactory registry (some type))

/-- The equality functions that `install` registers. -/
def equality (registry : Registry) (adapters : TypeAdapters) : Option SqlType → Function
  | none => equalFunction registry
  | some type => affinityEqual registry adapters type

end Sql

end CoreSql
