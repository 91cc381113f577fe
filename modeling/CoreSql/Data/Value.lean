import CoreSql.Basic

/-!
# Types, values and the registry

A stored cell is one of five closed layouts; what type a cell is of, and
what makes it valid, equal, less or hashed, is decided by an add-on that was
registered under the type's name and version. The engine never looks inside
an add-on, so its callbacks are fields here and everything proved later is
proved for all of them.

Doubles are kept as their bit patterns. The engine compares them in two
ways that must not be confused: `same_stored_value` looks at the bits, and
`Value::operator==`, which the record decoder uses on column defaults, is
the IEEE comparison, under which a NaN differs from itself and the two zeros
agree.
-/

namespace CoreSql

/-- `Type` of `core.hpp`: persistent identity plus add-on owned parameters. -/
structure SqlType where
  id : Bytes
  version : UInt32 := 1
  parameters : Bytes := []
  deriving DecidableEq

def integerType : SqlType := { id := lit "core.integer" }
def realType : SqlType := { id := lit "core.real" }
def textType : SqlType := { id := lit "core.text" }

/-- The three identities whose cells carry no type tag. -/
def defaultIdentity (id : Bytes) : Bool :=
  id == integerType.id || id == realType.id || id == textType.id

/-- What a `Compact` cell may be tagged with: `reject_default_identity`
keeps the untagged identities out. -/
abbrev CompactType := { type : SqlType // defaultIdentity type.id = false }

/-- `Value`. `blob` is the class `Opaque`; a `Compact` cell is eight or
sixteen bytes. -/
inductive Value where
  | integer (i : Int64)
  | real (bits : UInt64)
  | text (s : Bytes)
  | blob (type : SqlType) (bytes : Bytes)
  | null (type : SqlType)
  | compact8 (type : CompactType) (payload : Int64)
  | compact16 (type : CompactType) (payload : { b : Bytes // b.length = 16 })
  deriving DecidableEq

instance : Inhabited Value := ⟨.integer 0⟩

abbrev Row := List Value

/-- `row[i]`, on rows that are wide enough. -/
def Row.cell (row : Row) (i : Nat) : Value := row.getD i default

namespace Value

def isNull : Value → Bool
  | null _ => true
  | _ => false

def typeOf : Value → SqlType
  | integer _ => integerType
  | real _ => realType
  | text _ => textType
  | blob type _ => type
  | null type => type
  | compact8 type _ => type
  | compact16 type _ => type

/-- The payload of an eight-byte integer cell, tagged or not. -/
def i64Payload : Value → Option Int
  | integer i => some i.toInt
  | compact8 _ payload => some payload.toInt
  | _ => none

end Value

/-- All exponent bits set and a nonzero mantissa. -/
def isNaN (bits : UInt64) : Bool :=
  0x7FF0000000000000 < bits &&& 0x7FFFFFFFFFFFFFFF

/-- `==` on doubles. -/
def ieeeEqual (a b : UInt64) : Bool :=
  !isNaN a && !isNaN b &&
    (a == b || (a &&& 0x7FFFFFFFFFFFFFFF == 0 && b &&& 0x7FFFFFFFFFFFFFFF == 0))

/-- `Value::operator==`, the comparison of the variant: bitwise but for
doubles. -/
def Value.variantEqual : Value → Value → Bool
  | .real a, .real b => ieeeEqual a b
  | a, b => a == b

/-- `same_stored_value`. Values here carry no pointers, so storage identity
is equality. -/
def sameStoredValue (a b : Value) : Bool := a == b

/-! ## Add-ons -/

inductive Layout where
  | i64 | f64 | text | bytes | i128
  deriving DecidableEq

/-- `TypeAddon`. Equality, order and hash are optional; validation may
refuse. -/
structure TypeAddon where
  layout : Layout
  validateType : Bytes → Except Error Unit
  validateValue : Bytes → Value → Except Error Unit
  equal : Option (Bytes → Value → Value → Bool) := none
  compare : Option (Bytes → Value → Value → Int) := none
  hash : Option (Bytes → Value → Nat) := none
  nativeOps : Bool := false

def TypeAddon.nativeI64 (addon : TypeAddon) : Bool :=
  addon.layout == .i64 && addon.nativeOps

/-- `Function`. `prepare` and `prepareMembership` are the optional type-only
specialisations. -/
structure Function where
  infer : List SqlType → Except Error SqlType
  invoke : List Value → Except Error Value
  acceptsNull : Bool := false
  prepare : Option (List SqlType → SqlType → Option (List Value → Except Error Value)) := none
  prepareMembership : Option (SqlType → List Value → Option (Value → Bool)) := none

/-- `KeyExtractor`: a value's equality keys. -/
structure KeyExtractor where
  sourceType : SqlType
  keyType : SqlType
  extract : Value → Except Error (List Value)

/-- The two index implementations a registry can hold: the bundled unique
hash index, and the postings index every key extractor registers with the
key add-on it was registered under. -/
inductive IndexAddon where
  | hash
  | key (extractor : KeyExtractor) (addon : TypeAddon)

def IndexAddon.unique : IndexAddon → Bool
  | .hash => true
  | .key .. => false

/-- The layouts an identity may be registered with: each of the untagged ones
has its own, and nobody else has a double or a string. -/
def layoutAllowed (id : Bytes) (version : UInt32) (layout : Layout) : Bool :=
  if id = integerType.id then layout == .i64 && version == 1
  else if id = realType.id then layout == .f64 && version == 1
  else if id = textType.id then layout == .text && version == 1
  else layout != .f64 && layout != .text

/-- `Registry`, with what registration checks: no type has version zero or a
layout that is not its own, and an extractor's keys are of a registered type
with equality and hashing. -/
structure Registry where
  types : Bytes → UInt32 → Option TypeAddon
  functions : Bytes → Option Function
  indexes : Bytes → Option IndexAddon
  layout_allowed : ∀ id version addon, types id version = some addon →
    layoutAllowed id version addon.layout = true
  version_ne_zero : ∀ id version addon, types id version = some addon → version ≠ 0
  extractor_checked : ∀ name extractor addon, indexes name = some (.key extractor addon) →
    types extractor.keyType.id extractor.keyType.version = some addon ∧
      addon.validateType extractor.keyType.parameters = .ok () ∧
      addon.equal.isSome ∧ addon.hash.isSome

namespace Registry

def addon (registry : Registry) (type : SqlType) : Except Error TypeAddon :=
  match registry.types type.id type.version with
  | some addon => .ok addon
  | none =>
    .error ⟨.type, lit "Missing type/version: " ++ type.id ++ lit "/" ++
      lit (toString type.version)⟩

def function (registry : Registry) (name : Bytes) : Except Error Function :=
  match registry.functions name with
  | some f => .ok f
  | none => .error ⟨.type, lit "Unknown function: " ++ name⟩

/-- `Registry::validate(type)`. -/
def validateType (registry : Registry) (type : SqlType) : Except Error Unit := do
  let addon ← registry.addon type
  addon.validateType type.parameters

end Registry

def holdsLayout (addon : TypeAddon) (type : SqlType) : Value → Bool
  | .integer _ => addon.layout == .i64 && type == integerType
  | .compact8 tag _ => addon.layout == .i64 && type != integerType && tag.val == type
  | .real _ => addon.layout == .f64
  | .text _ => addon.layout == .text
  | .compact16 tag _ => addon.layout == .i128 && tag.val == type
  | .blob tag _ => addon.layout == .bytes && tag == type
  | .null _ => false

def checkValue (addon : TypeAddon) (type : SqlType) (value : Value) : Except Error Unit :=
  if value.isNull then
    if value.typeOf = type then .ok () else fail .type "NULL type mismatch"
  else if holdsLayout addon type value then addon.validateValue type.parameters value
  else .error ⟨.type, lit "Value does not match column/function type: " ++ type.id⟩

def Registry.validate (registry : Registry) (value : Value) (expected : SqlType) :
    Except Error Unit := do
  let addon ← registry.addon expected
  addon.validateType expected.parameters
  checkValue addon expected value

def compareNulls (a b : Value) : Int :=
  (if b.isNull then 1 else 0) - (if a.isNull then 1 else 0)

/-- `Comparison(registry, type, equality = true)` and its `equal`. -/
def Registry.comparisonEqual (registry : Registry) (type : SqlType) :
    Except Error (Value → Value → Bool) := do
  let addon ← registry.addon type
  registry.validateType type
  match addon.equal with
  | none => .error ⟨.unsupported, lit "Type does not support comparison: " ++ type.id⟩
  | some equal =>
    return fun a b =>
      if a.isNull || b.isNull then a.isNull && b.isNull else equal type.parameters a b

end CoreSql
