import CoreSql.Data.Scalars
import CoreSql.Storage.Records

/-!
# The DECIMAL type

`addons/decimal/type.cpp`. A decimal is a signed 128-bit coefficient in a cell
whose type carries the precision and the scale. Arithmetic never leaves 128
bits: checked operations report an overflow, and the unchecked ones are wrapped
here as the machine would wrap them, so that what is proved about them includes
that they never do.

Where one operand is REAL, and for division, the source computes with doubles.
Those branches are a parameter, `Floating`.
-/

namespace CoreSql.Decimals

def typeId : Bytes := lit "coresql.decimal"

def overflow {α : Type} : Except Error α := fail .constraint "DECIMAL precision overflow"

/-! ## Wide integers -/

/-- What is left of a number in a `Wide`. -/
def wide (n : Int) : Int := n.bmod (2 ^ 128)

/-- The outcome of an operation with an overflow check. -/
def checked (n : Int) : Except Error Int :=
  if -2 ^ 127 ≤ n ∧ n < 2 ^ 127 then .ok n else overflow

def power (n : Nat) : Except Error Int := if 39 ≤ n then overflow else .ok (10 ^ n)

def scaled (n : Int) (places : Nat) : Except Error Int := do
  checked (n * (← power places))

/-! ## Types -/

structure Format where
  precision : Nat
  scale : Nat
  deriving DecidableEq

def validateFormat (precision scale : Nat) : Except Error Unit :=
  if precision < 1 ∨ 38 < precision ∨ precision < scale then
    fail .type "DECIMAL requires 1 <= precision <= 38 and 0 <= scale <= precision"
  else .ok ()

def parameterFormat : Bytes → Except Error Format
  | [precision, scale] => do
      validateFormat precision.toNat scale.toNat
      return ⟨precision.toNat, scale.toNat⟩
  | _ => fail .type "Invalid DECIMAL type"

/-- `type`. -/
def decimalType (precision scale : Nat) : Except Error SqlType := do
  validateFormat precision scale
  return ⟨typeId, 1, [UInt8.ofNat precision, UInt8.ofNat scale]⟩

def isDecimal (t : SqlType) : Bool := t.id == typeId && t.version == 1

def formatOf (t : SqlType) : Except Error Format :=
  if isDecimal t then parameterFormat t.parameters else fail .type "Invalid DECIMAL type"

def numeric (t : SqlType) : Except Error Format :=
  if t = integerType then .ok ⟨19, 0⟩ else formatOf t

/-! ## Values -/

def decode (bytes : Bytes) : Int :=
  let lo := LittleEndian.decode (bytes.take 8)
  let hi := LittleEndian.decode (bytes.drop 8)
  wide (hi * 2 ^ 64 + lo : Nat)

def payload (n : Int) : { b : Bytes // b.length = 16 } :=
  let bits := (n % 2 ^ 128).toNat
  ⟨LittleEndian.encode 8 (bits % 2 ^ 64) ++ LittleEndian.encode 8 (bits / 2 ^ 64), by simp⟩

def coefficient : Value → Except Error Int
  | .integer i => .ok i.toInt
  | .compact16 type bytes =>
    if isDecimal type then do
      let n := decode bytes
      let bound ← power (← formatOf type).precision
      if n ≤ -bound ∨ bound ≤ n then overflow else return n
    else fail .type "Expected DECIMAL"
  | _ => fail .type "Expected DECIMAL"

def value (n : Int) (t : SqlType) : Except Error Value := do
  let bound ← power (← formatOf t).precision
  if n ≤ -bound ∨ bound ≤ n then overflow
  else makeCompact t fun type => .compact16 type (payload n)

/-! ## Comparison and arithmetic -/

inductive Operation where
  | add | subtract | multiply | divide
  deriving DecidableEq

structure Floating where
  compare : Value → Value → Except Error Int
  arithmetic : Operation → Value → Value → Except Error Value

/-- The scale of a value, for the recursion of `compare`. -/
def scaleOf (v : Value) : Nat :=
  match numeric v.typeOf with
  | .ok f => f.scale
  | .error _ => 0

def compare (floating : Floating) (a b : Value) : Except Error Int :=
  if a.typeOf = realType ∨ b.typeOf = realType then floating.compare a b
  else
    match coefficient a, coefficient b with
    | .error e, _ => .error e
    | _, .error e => .error e
    | .ok x, .ok y =>
      match ha : numeric a.typeOf, hb : numeric b.typeOf with
      | .error e, _ => .error e
      | _, .error e => .error e
      | .ok fa, .ok fb =>
        if h : fb.scale < fa.scale then do return -(← compare floating b a)
        else do
          let factor ← power (fb.scale - fa.scale)
          let q := y.tdiv factor
          let rem := y.tmod factor
          if x ≠ q then return threeWay x q
          else return threeWay 0 rem
termination_by scaleOf a - scaleOf b
decreasing_by
  simp only [scaleOf, ha, hb]
  omega

def operands (types : List SqlType) (count : Nat) : Except Error Unit :=
  if types.length ≠ count then fail .type "Wrong DECIMAL argument count"
  else types.forM fun t =>
    if t ≠ integerType ∧ t ≠ realType then do
      let _ ← formatOf t
    else .ok ()

def arithmeticType (a b : SqlType) (op : Operation) : Except Error SqlType := do
  operands [a, b] 2
  if op = .divide ∨ a = realType ∨ b = realType then return realType
  let a ← numeric a
  let b ← numeric b
  let scale := if op = .multiply then a.scale + b.scale else max a.scale b.scale
  if 38 < scale then fail .type "DECIMAL result scale exceeds 38"
  let precision :=
    if op = .multiply then a.precision + b.precision
    else max (a.precision - a.scale) (b.precision - b.scale) + scale + 1
  decimalType (min 38 precision) scale

/-- `Arithmetic`, without the branch for doubles. -/
structure Arithmetic where
  result : SqlType
  op : Operation
  sa : Nat
  sb : Nat
  scale : Nat
  fa : Int
  fb : Int
  base : Int
  limit : Int

def Arithmetic.make (a b type : SqlType) (op : Operation) : Except Error Arithmetic := do
  let sa := (← numeric a).scale
  let sb := (← numeric b).scale
  let format ← formatOf type
  let scale := format.scale
  let fa ← power sa
  let fb ← power sb
  let base ← power scale
  let limit ← power (format.precision - scale)
  return ⟨type, op, sa, sb, scale, fa, fb, base, limit⟩

/-- The sum of two coefficients: integral and fractional parts are combined
before they are rescaled. -/
def Arithmetic.sum (x : Arithmetic) (a b : Int) : Except Error Int := do
  let integral ← checked (a.tdiv x.fa + b.tdiv x.fb)
  let fraction ← checked ((← scaled (a.tmod x.fa) (x.scale - x.sa)) +
    (← scaled (b.tmod x.fb) (x.scale - x.sb)))
  let integral ← checked (integral + fraction.tdiv x.base)
  let fraction := fraction.tmod x.base
  if integral < -x.limit ∨ x.limit < integral then overflow
  else checked (wide (integral * x.base) + fraction)

/-- `operator()`. -/
def Arithmetic.apply (x : Arithmetic) (v w : Value) : Except Error Value := do
  let a ← coefficient v
  let b ← coefficient w
  let n ← match x.op with
    | .multiply => checked (a * b)
    | .subtract => x.sum a (wide (-b))
    | _ => x.sum a b
  value n x.result

/-- The functions `decimal.add`, `decimal.subtract`, `decimal.multiply` and
`decimal.divide`. -/
def arithmetic (floating : Floating) (op : Operation) (v w : Value) : Except Error Value := do
  let type ← arithmeticType v.typeOf w.typeOf op
  if type = realType then floating.arithmetic op v w
  else
    let x ← Arithmetic.make v.typeOf w.typeOf type op
    x.apply v w

/-! ## Text -/

/-- `Digits`: the digits of a spelling without leading zeros, and where the
point is. -/
structure Digits where
  digits : Bytes
  scale : Int := 0
  negative : Bool := false

def isDigit (c : UInt8) : Bool := 48 ≤ c && c ≤ 57

/-- The loop over digits and one point: the digits, how many stand behind the
point, and what follows. -/
def scanDigits : Bool → Bytes → Bytes × Nat × Bytes
  | _, [] => ([], 0, [])
  | point, c :: rest =>
    if c = 46 ∧ point = false then scanDigits true rest
    else if !isDigit c then ([], 0, c :: rest)
    else
      let (digits, scale, others) := scanDigits point rest
      (c :: digits, if point then scale + 1 else scale, others)

/-- The loop over the digits of the exponent. -/
def scanExponent : Nat → Bytes → Except Error (Nat × Bytes)
  | exponent, [] => .ok (exponent, [])
  | exponent, c :: rest =>
    if !isDigit c then .ok (exponent, c :: rest)
    else
      let exponent := exponent * 10 + (c.toNat - 48)
      if 1000 < exponent then overflow else scanExponent exponent rest

def scanSign : Bytes → Bool × Bytes
  | [] => (false, [])
  | c :: rest => if c = 43 ∨ c = 45 then (c = 45, rest) else (false, c :: rest)

/-- The exponent, if there is one: what it adds to the scale. -/
def scanMarker : Bytes → Except Error (Int × Bytes)
  | [] => .ok (0, [])
  | c :: rest =>
    if c = 101 ∨ c = 69 then do
      let (negative, start) := scanSign rest
      let (exponent, others) ← scanExponent 0 start
      if others.length = start.length then fail .type "Invalid DECIMAL exponent"
      else return (if negative then exponent else -exponent, others)
    else .ok (0, c :: rest)

/-- The digits from the first that is not zero. -/
def stripZeros (digits : Bytes) : Bytes :=
  match digits.dropWhile (· == 48) with
  | [] => [48]
  | stripped => stripped

def digits (s : Bytes) : Except Error Digits := do
  if s = [] ∨ 256 < s.length then fail .type "Invalid DECIMAL text length"
  let (negative, s) := scanSign s
  let (found, places, s) := scanDigits false s
  if found = [] then fail .type "DECIMAL requires digits"
  let (exponent, s) ← scanMarker s
  if s ≠ [] then fail .type "Invalid DECIMAL text"
  return ⟨stripZeros found, places + exponent, negative⟩

/-- The end of `parse`: the number some digits stand for. -/
def assemble (target : SqlType) (precision : Nat) (negative : Bool) (digits : Bytes) (up : Bool) :
    Except Error Value :=
  if precision < digits.length then overflow
  else
    let n := digits.foldl (fun n c => wide (n * 10 + (c.toNat - 48 : Nat))) 0
    let n := if up then wide (n + 1) else n
    value (if negative then wide (-n) else n) target

def lossy {α : Type} : Except Error α := fail .type "Lossy DECIMAL conversion"

/-- The middle of `parse`: bring digits to the scale of the target. -/
def Digits.fit (d : Digits) (target : SqlType) (f : Format) (round : Bool) : Except Error Value :=
  let shift : Int := f.scale - d.scale
  if d.digits = [48] then value 0 target
  else if 0 ≤ shift then
    if f.precision < d.digits.length + shift.toNat then overflow
    else assemble target f.precision d.negative (d.digits ++ List.replicate shift.toNat 48) false
  else
    let remove := (-shift).toNat
    if d.digits.length < remove then
      if round then assemble target f.precision d.negative [48] false else lossy
    else
      let keep := d.digits.length - remove
      if !round && (d.digits.drop keep).any (· != 48) then lossy
      else
        let up := round && 53 ≤ d.digits.getD keep 0
        assemble target f.precision d.negative (d.digits.take keep) up

def parse (input : Bytes) (target : SqlType) (round : Bool) : Except Error Value := do
  let f ← formatOf target
  let d ← digits input
  d.fit target f round

/-- The loop of `literal` that drops zeros behind the point. -/
def Digits.trim (d : Digits) : Digits :=
  if 0 < d.scale ∧ 1 < d.digits.length ∧ d.digits.getLast? = some 48 then
    Digits.trim { d with digits := d.digits.dropLast, scale := d.scale - 1 }
  else d
termination_by d.digits.length
decreasing_by
  rw [List.length_dropLast]
  omega

def literal (input : Bytes) : Except Error Value := do
  let d := (← digits input).trim
  if d.digits = [48] then value 0 (← decimalType 1 0)
  else
    let scale := max 0 d.scale
    let precision := max (d.digits.length + max 0 (-d.scale)) scale
    if 38 < precision then overflow
    else parse input (← decimalType precision.toNat scale.toNat) false

/-- The loop of `format`: digits from the last to the first. -/
def reversedDigits (n : Nat) : Bytes :=
  UInt8.ofNat (48 + n % 10) :: if n / 10 = 0 then [] else reversedDigits (n / 10)
termination_by n
decreasing_by omega

def format (v : Value) : Except Error Bytes := do
  let n ← coefficient v
  let scale := (← numeric v.typeOf).scale
  let out := reversedDigits (if n < 0 then wide (-n) else n).toNat
  let out := (out ++ List.replicate (scale + 1 - out.length) 48).reverse
  let out := if scale = 0 then out
    else out.take (out.length - scale) ++ 46 :: out.drop (out.length - scale)
  return if n < 0 then 45 :: out else out

end CoreSql.Decimals
