import Mathlib.Data.Sum.Order
import CoreSql.Lib.FixedPoint
import CoreSql.Proofs.Lawful
import CoreSql.Sql.Values

/-!
# The order of SQL values

`value_compare` puts integers, doubles and texts into one order: numbers by
the rationals they are, before all texts. A double is a multiple of the
smallest positive one, and its bits grow with this multiple, so that comparing
two doubles is comparing rationals. An integer is compared with a double
through the integral part of the double, which converts back to a double
without loss because it has no more significant bits than the double has.
-/

namespace CoreSql.Sql

/-! ## Doubles -/

def word (bits : UInt64) : Nat := bits.toNat % 2 ^ 63

theorem units_eq (bits : UInt64) : units bits =
    if bits < 0x8000000000000000 then (BinaryFormat.units 52 (word bits) : Int)
    else -(BinaryFormat.units 52 (word bits) : Int) := by
  have hmantissa : (bits &&& 0xFFFFFFFFFFFFF).toNat = word bits % 2 ^ 52 := by
    rw [UInt64.toNat_and, show (0xFFFFFFFFFFFFF : UInt64).toNat = 2 ^ 52 - 1 from rfl,
      Nat.and_two_pow_sub_one_eq_mod, word]
    omega
  have hexponent : ((bits >>> 52) &&& 0x7FF).toNat = word bits / 2 ^ 52 := by
    rw [UInt64.toNat_and, UInt64.toNat_shiftRight,
      show (0x7FF : UInt64).toNat = 2 ^ 11 - 1 from rfl,
      Nat.and_two_pow_sub_one_eq_mod, show (52 : UInt64).toNat % 64 = 52 from rfl,
      Nat.shiftRight_eq_div_pow, word]
    omega
  rw [units]
  simp only [hmantissa, hexponent, BinaryFormat.units]

theorem getReal_eq (bits : UInt64) : getReal (.real bits) =
    if bits < 0x8000000000000000 then (word bits : Int) else -(word bits : Int) := by
  have hmagnitude : (bits &&& 0x7FFFFFFFFFFFFFFF).toNat = word bits := by
    rw [UInt64.toNat_and, show (0x7FFFFFFFFFFFFFFF : UInt64).toNat = 2 ^ 63 - 1 from rfl,
      Nat.and_two_pow_sub_one_eq_mod, word]
  rw [getReal, hmagnitude]
  split
  · next hlt =>
      rw [UInt64.lt_iff_toNat_lt] at hlt
      have hlt : bits.toNat < 2 ^ 63 := hlt
      rw [word, Nat.mod_eq_of_lt hlt]
  · rfl

theorem getReal_lt_iff (a b : UInt64) :
    getReal (.real a) < getReal (.real b) ↔ units a < units b := by
  have hmono := BinaryFormat.units_strictMono (p := 52)
  have hzero := BinaryFormat.units_zero (p := 52)
  have hlt := hmono.lt_iff_lt (a := word a) (b := word b)
  have hgt := hmono.lt_iff_lt (a := word b) (b := word a)
  have hpos : ∀ w, 0 < BinaryFormat.units 52 w ↔ 0 < w := fun w => by
    rw [← hmono.lt_iff_lt (a := 0) (b := w), hzero]
  have ha := hpos (word a)
  have hb := hpos (word b)
  rw [getReal_eq, getReal_eq, units_eq, units_eq]
  split <;> split <;> omega

def realAmount (bits : UInt64) : ℚ := units bits / unitsOfOne

theorem unitsOfOne_pos : (0 : Int) < unitsOfOne := by
  rw [unitsOfOne]
  positivity

theorem word_ofNat {w : Nat} (h : w < 2 ^ 63) :
    word (UInt64.ofNat w) = w ∧ word (0x8000000000000000 + UInt64.ofNat w) = w ∧
      UInt64.ofNat w < 0x8000000000000000 ∧
      ¬0x8000000000000000 + UInt64.ofNat w < 0x8000000000000000 := by
  have hw : (UInt64.ofNat w).toNat = w := UInt64.toNat_ofNat_of_lt' (by
    rw [UInt64.size]
    omega)
  have hsum : (0x8000000000000000 + UInt64.ofNat w).toNat = 2 ^ 63 + w := by
    rw [UInt64.toNat_add, hw, show (0x8000000000000000 : UInt64).toNat = 2 ^ 63 from rfl]
    omega
  have hlimit : (0x8000000000000000 : UInt64).toNat = 2 ^ 63 := rfl
  rw [word, word, UInt64.lt_iff_toNat_lt, UInt64.lt_iff_toNat_lt, hw, hsum, hlimit]
  omega

theorem units_doubleOf (bits : UInt64) : units (doubleOf ((units bits).tdiv unitsOfOne)) =
      (units bits).tdiv unitsOfOne * unitsOfOne := by
  obtain ⟨w, hw⟩ := BinaryFormat.exists_units_div (p := 52) (word bits) 1074
  rw [← unitsOfOne] at hw
  have hmono := BinaryFormat.units_strictMono (p := 52)
  have hle : w ≤ word bits := by
    rw [← hmono.le_iff_le, hw]
    exact Nat.div_mul_le_self _ _
  have hlt : w < 2 ^ 63 := hle.trans_lt (Nat.mod_lt _ (by norm_num))
  obtain ⟨hplain, hnegative, hsign, hsign'⟩ := word_ofNat hlt
  have hquotient : (units bits).tdiv unitsOfOne =
        ((BinaryFormat.units 52 (word bits) / unitsOfOne : Nat) : Int) ∨
      (units bits).tdiv unitsOfOne =
        -((BinaryFormat.units 52 (word bits) / unitsOfOne : Nat) : Int) := by
    rw [units_eq]
    split
    · exact .inl (Int.ofNat_tdiv _ _).symm
    · rw [Int.neg_tdiv]
      exact .inr (congrArg _ (Int.ofNat_tdiv _ _).symm)
  generalize BinaryFormat.units 52 (word bits) / unitsOfOne = q at hw hquotient
  have hunits : ((BinaryFormat.units 52 w : Nat) : Int) = q * unitsOfOne := by
    rw [hw, Nat.cast_mul]
  have habs : ((units bits).tdiv unitsOfOne).natAbs = q := by
    rcases hquotient with h | h <;> rw [h] <;> simp
  rw [doubleOf, habs, ← hw, BinaryFormat.nearestEven_units]
  split
  · next hneg =>
      rw [units_eq, if_neg hsign', hnegative, hunits, hquotient.resolve_left (by omega), neg_mul]
  · next hnonneg =>
      rw [units_eq, if_pos hsign, hplain, hunits]
      rcases hquotient with h | h
      · rw [h]
      · rw [h, show q = 0 by omega]
        rfl

theorem numberCompareConverted_eq (i : Int64) (bits : UInt64) :
    numberCompareConverted i bits = numberCompare i bits := by
  simp only [numberCompareConverted, numberCompare, units_doubleOf]

theorem threeWay_div (x y : Int) {u : Nat} (hu : (0 : Int) < u) :
    threeWay (x : ℚ) ((y : ℚ) / u) = threeWay (x * u) y := by
  have hq : (0 : ℚ) < u := by exact_mod_cast hu
  simp only [threeWay, lt_div_iff₀ hq, div_lt_iff₀ hq]
  norm_cast

theorem numberCompare_eq (i : Int64) (bits : UInt64) :
    numberCompare i bits = threeWay (i.toInt : ℚ) (realAmount bits) := by
  have hone := unitsOfOne_pos
  have hlow := i.le_toInt
  have hhigh := i.toInt_lt
  rw [realAmount, threeWay_div _ _ hone, numberCompare]
  split
  · next hbig =>
      have hlt : i.toInt * unitsOfOne < 2 ^ 63 * unitsOfOne := mul_lt_mul_of_pos_right hhigh hone
      rw [threeWay_of_lt (by omega)]
  split
  · next hsmall =>
      have hle : -2 ^ 63 * (unitsOfOne : Int) ≤ i.toInt * unitsOfOne :=
        mul_le_mul_of_nonneg_right hlow hone.le
      rw [threeWay_of_gt (by rw [neg_mul] at hle; omega)]
  simp only
  rcases lt_trichotomy i.toInt ((units bits).tdiv unitsOfOne) with hlt | heq | hgt
  · rw [if_pos hlt.ne, if_pos hlt, threeWay_of_lt (FixedPoint.lt_of_lt_tdiv hone hlt)]
  · rw [if_neg (not_not.mpr heq), ← heq, threeWay]
    split
    · next h => rw [if_neg h.not_gt]; rfl
    · split <;> rfl
  · rw [if_pos hgt.ne', if_neg hgt.not_gt, threeWay_of_gt (FixedPoint.lt_of_tdiv_lt hone hgt)]

theorem threeWay_getReal (a b : UInt64) :
    threeWay (getReal (.real a)) (getReal (.real b)) = threeWay (realAmount a) (realAmount b) := by
  have hq : (0 : ℚ) < unitsOfOne := by exact_mod_cast unitsOfOne_pos
  simp only [threeWay, realAmount, getReal_lt_iff, div_lt_div_iff_of_pos_right hq, Int.cast_lt]

/-! ## Values -/

def IsScalar : Value → Prop
  | .integer _ => True
  | .real bits => isFinite bits = true
  | .text _ => True
  | _ => False

/-- What the order of SQL values is the order of: numbers, then texts. -/
def sortKey : Value → ℚ ⊕ₗ Bytes
  | .integer i => Sum.inlₗ (i.toInt : ℚ)
  | .real bits => Sum.inlₗ (realAmount bits)
  | .text s => Sum.inrₗ s
  | _ => Sum.inrₗ []

/-- A registry in which the scalar types are the bundled ones. -/
structure HasScalars (registry : Registry) : Prop where
  integer : registry.types integerType.id integerType.version = some integerAddon
  real : registry.types realType.id realType.version = some realAddon
  text : registry.types textType.id textType.version = some textAddon

section

variable {κ μ : Type} [LinearOrder κ] [LinearOrder μ]

theorem threeWay_inl (x y : κ) : threeWay (Sum.inlₗ x : κ ⊕ₗ μ) (Sum.inlₗ y) = threeWay x y := by
  simp only [threeWay, Sum.Lex.inl_lt_inl_iff]

theorem threeWay_inr (x y : μ) : threeWay (Sum.inrₗ x : κ ⊕ₗ μ) (Sum.inrₗ y) = threeWay x y := by
  simp only [threeWay, Sum.Lex.inr_lt_inr_iff]

end

theorem scalarTypes_ne : integerType ≠ realType ∧ integerType ≠ textType ∧ realType ≠ textType := by
  decide +kernel

variable {registry : Registry} {a b c : Value}

theorem compare_eq_ok {addon : TypeAddon} {f : Bytes → Value → Value → Int}
    (htype : registry.types a.typeOf.id a.typeOf.version = some addon)
    (hvalid : addon.validateType a.typeOf.parameters = .ok ())
    (ha : checkValue addon a.typeOf a = .ok ()) (hb : checkValue addon a.typeOf b = .ok ())
    (hcompare : addon.compare = some f) (hnull : a.isNull = false) (hnull' : b.isNull = false) :
    registry.compare a b = .ok (f a.typeOf.parameters a b) := by
  have haddon : registry.addon a.typeOf = .ok addon := by rw [Registry.addon, htype]
  have hchecked : registry.checkOperands a b = .ok addon := by
    rw [Registry.checkOperands, haddon, Fallible.ok_bind, hvalid, Fallible.ok_bind, ha,
      Fallible.ok_bind, hb]
    rfl
  rw [Registry.compare, hchecked, Fallible.ok_bind, hcompare]
  simp only [hnull, hnull', Bool.or_self, Bool.false_eq_true, if_false]
  rfl

theorem valueCompare_sortKey (hs : HasScalars registry) {x y : Value} (hx : unpack x = .ok a)
    (hy : unpack y = .ok b) (ha : IsScalar a) (hb : IsScalar b) :
    valueCompare registry x y = .ok (threeWay (sortKey a) (sortKey b)) := by
  obtain ⟨hir, hit, hrt⟩ := scalarTypes_ne
  have hfinite : ∀ {bits}, IsScalar (.real bits) →
      checkValue realAddon realType (.real bits) = .ok () := fun h => if_pos h
  have hinteger : ∀ i, checkValue integerAddon integerType (.integer i) = .ok () := fun i => by
    rw [checkValue, if_neg (by simp [Value.isNull]),
      if_pos (by simp [holdsLayout, integerAddon, scalar])]
    rfl
  rw [valueCompare, hx, Fallible.ok_bind, hy, Fallible.ok_bind]
  cases a with
  | integer i =>
    cases b with
    | integer j =>
      refine (if_pos rfl).trans ((compare_eq_ok hs.integer rfl (hinteger i) (hinteger j) rfl rfl
        rfl).trans (congrArg Except.ok ?_))
      refine Eq.trans ?_ (threeWay_inl _ _).symm
      show threeWay i.toInt j.toInt = _
      simp only [threeWay, Int.cast_lt]
    | real d =>
      refine (if_neg hir).trans (congrArg Except.ok ?_)
      exact (numberCompare_eq i d).trans (threeWay_inl _ _).symm
    | text s =>
      refine (if_neg hit).trans (congrArg Except.ok ?_)
      exact (threeWay_of_lt (Sum.Lex.inl_lt_inr _ _)).symm
    | _ => exact hb.elim
  | real d =>
    cases b with
    | integer j =>
      refine (if_neg hir.symm).trans (congrArg Except.ok ?_)
      rw [numberCompare_eq, ← threeWay_comm]
      exact (threeWay_inl _ _).symm
    | real e =>
      refine (if_pos rfl).trans ((compare_eq_ok hs.real rfl (hfinite ha) (hfinite hb) rfl rfl
        rfl).trans (congrArg Except.ok ?_))
      exact (threeWay_getReal d e).trans (threeWay_inl _ _).symm
    | text s =>
      refine (if_neg hrt).trans (congrArg Except.ok ?_)
      exact (threeWay_of_lt (Sum.Lex.inl_lt_inr _ _)).symm
    | _ => exact hb.elim
  | text s =>
    cases b with
    | integer j =>
      refine (if_neg hit.symm).trans (congrArg Except.ok ?_)
      exact (threeWay_of_gt (Sum.Lex.inl_lt_inr _ _)).symm
    | real e =>
      refine (if_neg hrt.symm).trans (congrArg Except.ok ?_)
      exact (threeWay_of_gt (Sum.Lex.inl_lt_inr _ _)).symm
    | text u =>
      refine (if_pos rfl).trans ((compare_eq_ok hs.text rfl rfl rfl rfl rfl rfl).trans
        (congrArg Except.ok ?_))
      exact (threeWay_inr _ _).symm
    | _ => exact hb.elim
  | _ => exact ha.elim

def amount : Value → Option ℚ
  | .integer i => some i.toInt
  | .real bits => some (realAmount bits)
  | _ => none

theorem sortKey_of_amount {p : ℚ} (h : amount a = some p) : sortKey a = Sum.inlₗ p := by
  cases a with
  | integer i =>
    cases h
    rfl
  | real bits =>
    cases h
    rfl
  | _ => cases h

/-- Integers, finite doubles and texts, packed or not, are in one total
preorder: numbers by their exact rational values, and before all texts. The
conversion inside `number_compare` is exact. -/
theorem valueCompare_is_exact {registry : Registry} (hs : HasScalars registry) :
    (∀ x a, unpack x = .ok a → IsScalar a → valueCompare registry x x = .ok 0) ∧
    (∀ x y a b, unpack x = .ok a → unpack y = .ok b → IsScalar a → IsScalar b →
      ∃ c, valueCompare registry x y = .ok c ∧ valueCompare registry y x = .ok (-c)) ∧
    (∀ x y z a b c m n, unpack x = .ok a → unpack y = .ok b → unpack z = .ok c →
      IsScalar a → IsScalar b → IsScalar c → valueCompare registry x y = .ok m →
      valueCompare registry y z = .ok n → m ≤ 0 → n ≤ 0 →
      ∃ k, valueCompare registry x z = .ok k ∧ k ≤ 0) ∧
    (∀ x y a b p q, unpack x = .ok a → unpack y = .ok b → IsScalar a → IsScalar b →
      amount a = some p → amount b = some q →
      valueCompare registry x y = .ok (threeWay p q)) ∧
    (∀ x y a p s, unpack x = .ok a → unpack y = .ok (.text s) → IsScalar a → amount a = some p →
      valueCompare registry x y = .ok (-1)) ∧
    ∀ i bits, numberCompareConverted i bits = numberCompare i bits := by
  refine ⟨fun x a hx ha => ?_, fun x y a b hx hy ha hb => ?_,
    fun x y z a b c m n hx hy hz ha hb hc hm hn hm0 hn0 => ?_,
    fun x y a b p q hx hy ha hb hp hq => ?_, fun x y a p s hx hy ha hp => ?_,
    numberCompareConverted_eq⟩
  · rw [valueCompare_sortKey hs hx hx ha ha, threeWay_self]
  · refine ⟨_, valueCompare_sortKey hs hx hy ha hb, ?_⟩
    rw [valueCompare_sortKey hs hy hx hb ha, threeWay_comm]
  · rw [valueCompare_sortKey hs hx hy ha hb] at hm
    rw [valueCompare_sortKey hs hy hz hb hc] at hn
    cases hm
    cases hn
    rw [threeWay_le_zero] at hm0 hn0
    exact ⟨_, valueCompare_sortKey hs hx hz ha hc, threeWay_le_zero.mpr (hm0.trans hn0)⟩
  · rw [valueCompare_sortKey hs hx hy ha hb, sortKey_of_amount hp, sortKey_of_amount hq,
      threeWay_inl]
  · rw [valueCompare_sortKey hs hx hy ha trivial, sortKey_of_amount hp]
    exact congrArg Except.ok (threeWay_of_lt (Sum.Lex.inl_lt_inr _ _))

theorem scalarRegistry_hasScalars : HasScalars scalarRegistry := by
  have hri : realType.id ≠ integerType.id := by decide +kernel
  have hti : textType.id ≠ integerType.id := by decide +kernel
  have htr : textType.id ≠ realType.id := by decide +kernel
  refine ⟨?_, ?_, ?_⟩
  · simp [scalarRegistry, integerType]
  · simp only [scalarRegistry]
    rw [if_neg (by decide), if_neg hri, if_pos trivial]
  · simp only [scalarRegistry]
    rw [if_neg (by decide), if_neg hti, if_neg htr, if_pos trivial]

/-- The integer after the double `2 ^ 53`, which is no double. -/
theorem valueCompare_above_two_pow :
    valueCompare scalarRegistry (.integer 9007199254740993) (.real 0x4340000000000000) = .ok 1 := by
  have hreal : realAmount 0x4340000000000000 = 9007199254740992 := by
    have hunits : units 0x4340000000000000 = 9007199254740992 * unitsOfOne := by decide +kernel
    have hone : (unitsOfOne : ℚ) ≠ 0 := by exact_mod_cast unitsOfOne_pos.ne'
    rw [realAmount, hunits, Int.cast_mul, Int.cast_natCast, mul_div_cancel_right₀ _ hone]
    rfl
  rw [(valueCompare_is_exact scalarRegistry_hasScalars).2.2.2.1 _ _ (.integer 9007199254740993)
    (.real 0x4340000000000000) _ _ rfl rfl trivial (show isFinite _ = true by decide) rfl rfl,
      hreal]
  refine congrArg Except.ok (threeWay_of_gt ?_)
  rw [show Int64.toInt 9007199254740993 = 9007199254740993 from rfl]
  norm_num

end CoreSql.Sql
