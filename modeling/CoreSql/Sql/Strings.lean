import CoreSql.Data.Scalars

/-!
# String functions

`text.substring` of `sql/strings.cpp`: a pass over the bytes collects where
each code point begins, and the two positions are looked up in what was
collected.
-/

namespace CoreSql.Sql

def badUtf8 {α : Type} : Except Error α := fail .constraint "SUBSTRING requires valid UTF-8"

/-- `rest`: the bytes that follow `c` in its code point, or 4. -/
def following (c : UInt8) : Nat :=
  if c < 0x80 then 0 else if 0xc2 ≤ c ∧ c ≤ 0xdf then 1 else if 0xe0 ≤ c ∧ c ≤ 0xef then 2
  else if 0xf0 ≤ c ∧ c ≤ 0xf4 then 3 else 4

/-- The second bytes that make a code point overlong, a surrogate or too large. -/
def excluded (c next : UInt8) : Bool :=
  (c == 0xe0 && next < 0xa0) || (c == 0xed && 0xa0 ≤ next) || (c == 0xf0 && next < 0x90) ||
    (c == 0xf4 && 0x90 ≤ next)

/-- The bytes that follow `c` in the code point at the front of `c :: s`. -/
def codePoint (c : UInt8) (s : Bytes) : Except Error Nat :=
  let rest := following c
  if rest = 4 ∨ s.length < rest then badUtf8
  else if rest ≠ 0 ∧ excluded c (s.headD 0) then badUtf8
  else do
    (s.take rest).forM fun next => if next < 0x80 ∨ 0xbf < next then badUtf8 else .ok ()
    return rest

/-- `offsets`, from the byte at `i` on. -/
def offsets (i : Nat) : Bytes → Except Error (List Nat)
  | [] => .ok [i]
  | c :: s => do
      let rest ← codePoint c s
      return i :: (← offsets (i + 1 + rest) (s.drop rest))
  termination_by s => s.length
  decreasing_by
    rw [List.length_drop, List.length_cons]
    omega

/-- `index`: where in `size` offsets a position is. -/
def index (size : Nat) (position : Int64) : Nat :=
  if position ≤ 1 then 0 else min (position - 1).toUInt64.toNat (size - 1)

/-- `end`: the position after the last one selected. -/
def endPosition (start : Int64) : Option Int64 → Int64
  | none => Int64.maxValue
  | some count => if Int64.maxValue - count < start then Int64.maxValue else start + count

/-- `std::string::substr`, where `a` is at most the size. -/
def substrOf (s : Bytes) (a : Nat) (n : UInt64) : Bytes := (s.drop a).take n.toNat

def substringOf (s : Bytes) (start : Int64) (count : Option Int64) : Except Error Value :=
  if count.getD Int64.maxValue < 0 then fail .constraint "Negative SUBSTRING length"
  else do
    let offsets ← offsets 0 s
    let a := offsets.getD (index offsets.length start) 0
    let b := offsets.getD (index offsets.length (endPosition start count)) 0
    return .text (substrOf s a (UInt64.ofNat b - UInt64.ofNat a))

/-- `std::get<std::int64_t>`. -/
def getInt64 : Value → Int64
  | .integer i => i
  | _ => 0

/-- `text.substring`. -/
def substring : Function where
  infer types :=
    if types = [textType, integerType] ∨ types = [textType, integerType, integerType] then
      .ok textType
    else fail .type "SUBSTRING expects TEXT, INTEGER and optional INTEGER"
  invoke
    | [s, start] => substringOf (getText s) (getInt64 start) none
    | [s, start, count] => substringOf (getText s) (getInt64 start) (some (getInt64 count))
    | _ => fail .type "SUBSTRING expects TEXT, INTEGER and optional INTEGER"

end CoreSql.Sql
