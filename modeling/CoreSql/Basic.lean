import Mathlib.Algebra.Order.Ring.Nat
import Mathlib.Data.List.Lex
import Mathlib.Logic.Function.Basic
import Mathlib.Order.Basic

/-!
# Bytes and errors

Everything the engine persists or compares is a byte string: table and
column names, type parameters, text values, records. `std::string` is not
required to be UTF-8 anywhere in the source, so names are byte strings here
too, and a literal of the source is spelled through `lit`.

An `Error` carries the category the source throws and the text it throws
with; the texts are kept because callers tell failures apart by them.
-/

namespace CoreSql

/-- `std::vector<std::byte>`, and the contents of a `std::string`. -/
abbrev Bytes := List UInt8

/-- `std::string` and byte vectors compare byte by byte, unsigned. -/
instance linearOrderByte : LinearOrder UInt8 where
  le_refl := UInt8.le_refl
  le_trans _ _ _ := UInt8.le_trans
  lt_iff_le_not_ge a b := by
    simp only [UInt8.lt_iff_toNat_lt, UInt8.le_iff_toNat_le]
    omega
  le_antisymm _ _ := UInt8.le_antisymm
  le_total := UInt8.le_total
  toDecidableLE := inferInstance
  toDecidableEq := inferInstance
  toDecidableLT := inferInstance

instance lawfulBEqBytes : LawfulBEq Bytes := inferInstance

/-- The bytes of a literal written in the source. -/
def lit (s : String) : Bytes := s.toUTF8.toList

/-- `ErrorCode` of `core.hpp`. -/
inductive ErrorCode where
  | schema | type | unsupported | conflict | state
  | format | io | constraint | cancelled | resource
  deriving DecidableEq, Repr

/-- `Error` of `core.hpp`: a category and a message. -/
structure Error where
  code : ErrorCode
  message : Bytes
  deriving DecidableEq, Repr

/-- `throw Error(code, "...")`. -/
def fail {α : Type} (code : ErrorCode) (message : String) : Except Error α :=
  .error ⟨code, lit message⟩

end CoreSql
