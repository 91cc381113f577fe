import CoreSql.Data.Table

/-!
# The bundled scalar types

`addons/scalars`: INTEGER, REAL and TEXT. The three add-ons are one template
over the native type; it compares with the type's own operators and hashes
with `std::hash`, which is any function of the value. REAL accepts finite
doubles only, and on those the operators compare signed magnitudes, with the
two zeros equal.
-/

namespace CoreSql

/-- `(x > y) - (x < y)`. -/
def threeWay {κ : Type} [LinearOrder κ] (x y : κ) : Int :=
  (if y < x then 1 else 0) - (if x < y then 1 else 0)

/-- `scalar<T>`: a native type is what `get` reads out of a cell. -/
def scalar {κ : Type} [LinearOrder κ] (layout : Layout) (get : Value → κ)
    (validate : Value → Except Error Unit) (hash : κ → Nat) : TypeAddon where
  layout := layout
  validateType parameters :=
    if parameters = [] then .ok () else fail .type "Scalar type has no parameters"
  validateValue _ value := validate value
  equal := some fun _ a b => get a = get b
  compare := some fun _ a b => threeWay (get a) (get b)
  hash := some fun _ value => hash (get value)
  nativeOps := true

/-- `std::get<std::int64_t>`. -/
def getInteger : Value → Int
  | .integer i => i.toInt
  | _ => 0

/-- A double as the number its order is the order of: the magnitude bits
with their sign. -/
def getReal : Value → Int
  | .real bits =>
    if bits < 0x8000000000000000 then (bits.toNat : Int)
    else -((bits &&& 0x7FFFFFFFFFFFFFFF).toNat : Int)
  | _ => 0

/-- `std::get<std::string>`. -/
def getText : Value → Bytes
  | .text s => s
  | _ => []

/-- `std::isfinite`: some exponent bit is clear. -/
def isFinite (bits : UInt64) : Bool := bits &&& 0x7FF0000000000000 < 0x7FF0000000000000

def checkFinite : Value → Except Error Unit
  | .real bits =>
    if isFinite bits then .ok () else fail .type "Non-finite real values are unsupported"
  | _ => .ok ()

def integerAddon : TypeAddon :=
  scalar .i64 getInteger (fun _ => .ok ()) fun i => (i % 2 ^ 64).toNat

def realAddon : TypeAddon :=
  scalar .f64 getReal checkFinite Int.natAbs

def textAddon : TypeAddon :=
  scalar .text getText (fun _ => .ok ()) fun s => s.foldl (fun h b => 31 * h + b.toNat) 0

/-- A registry with the scalar types, and the hash index every registry has:
`Registry(false)` and `install_scalar_types`. -/
def scalarRegistry : Registry where
  types id version :=
    if version ≠ 1 then none
    else if id = integerType.id then some integerAddon
    else if id = realType.id then some realAddon
    else if id = textType.id then some textAddon
    else none
  functions _ := none
  indexes name := if name = lit "core.hash" then some .hash else none
  layout_allowed id version addon h := by
    split at h
    · cases h
    next hversion =>
    obtain rfl : version = 1 := by simpa using hversion
    split at h
    · next hid =>
        cases h
        rw [hid]
        decide +kernel
    split at h
    · next hid =>
        cases h
        rw [hid]
        decide +kernel
    split at h
    · next hid =>
        cases h
        rw [hid]
        decide +kernel
    · cases h
  version_ne_zero id version addon h := by
    rintro rfl
    simp at h
  extractor_checked name extractor addon h := by
    split at h <;> cases h

end CoreSql
