import CoreSql.Addons.Decimal
import CoreSql.Lib.FixedPoint
import CoreSql.Lib.Fallible
import CoreSql.Proofs.Lawful

/-!
# Decimals are exact

A decimal stands for a rational. Comparison answers with the sign of the
difference of two of them whatever their scales are, and the three exact
operations return the sum, the difference and the product, or report an
overflow when that number has too many digits for the type of the result.
Neither is disturbed by the width of the machine: what does not fit 128 bits
does not fit 38 digits either.
-/

namespace CoreSql.Decimals

open Fallible FixedPoint

variable {p s k : Nat} {x : Arithmetic} {op : Operation}

/-! ## Values and the numbers they stand for -/

/-- A value that is an integer or a decimal, with its format and coefficient. -/
structure Holds (v : Value) (f : Format) (n : Int) : Prop where
  format : numeric v.typeOf = .ok f
  coefficient : coefficient v = .ok n

/-- The rational with a coefficient in a format. -/
def Format.amount (f : Format) (n : Int) : ℚ := FixedPoint.amount 10 n f.scale

structure Format.Valid (f : Format) : Prop where
  positive : 1 ≤ f.precision
  bounded : f.precision ≤ 38
  scale_le : f.scale ≤ f.precision

theorem validateFormat_eq_ok : validateFormat p s = .ok () ↔ Format.Valid ⟨p, s⟩ := by
  rw [validateFormat]
  split
  · next h =>
      refine ⟨fun h => (by cases h), fun hv => ?_⟩
      have h1 := hv.positive
      have h2 := hv.bounded
      have h3 := hv.scale_le
      simp only at h1 h2 h3
      omega
  · next h =>
      refine ⟨fun _ => ⟨?_, ?_, ?_⟩, fun _ => rfl⟩ <;> simp only <;> omega

variable {t : SqlType} {f : Format} {v w : Value} {n : Int}

theorem formatOf_eq_ok : formatOf t = .ok f ↔ isDecimal t = true ∧
    ∃ p s : UInt8, t.parameters = [p, s] ∧ f = ⟨p.toNat, s.toNat⟩ ∧ f.Valid := by
  rw [formatOf]
  split
  · next hd =>
      rw [parameterFormat.eq_def]
      split
      · next p s hp =>
          rw [bind_eq_ok]
          constructor
          · rintro ⟨⟨⟩, hv, hf⟩
            cases hf
            exact ⟨hd, p, s, hp, rfl, validateFormat_eq_ok.mp hv⟩
          · rintro ⟨-, p', s', hp', rfl, hv⟩
            rw [hp] at hp'
            cases hp'
            exact ⟨(), validateFormat_eq_ok.mpr hv, rfl⟩
      · next hne =>
          refine ⟨fun h => (by cases h), ?_⟩
          rintro ⟨-, p, s, hp, -⟩
          exact absurd hp (hne p s)
  · next hd =>
      exact ⟨fun h => (by cases h), fun h => absurd h.1 hd⟩

theorem formatOf_valid (h : formatOf t = .ok f) : f.Valid := by
  obtain ⟨-, p, s, -, -, hv⟩ := formatOf_eq_ok.mp h
  exact hv

theorem power_eq_ok (h : k ≤ 38) : power k = .ok (10 ^ k) := by
  rw [power, if_neg (by omega)]

theorem decimalType_eq_ok : decimalType p s = .ok t ↔
    Format.Valid ⟨p, s⟩ ∧ t = ⟨typeId, 1, [UInt8.ofNat p, UInt8.ofNat s]⟩ := by
  rw [decimalType, bind_eq_ok, ← validateFormat_eq_ok]
  constructor
  · rintro ⟨⟨⟩, hv, ht⟩
    exact ⟨hv, (Except.ok.inj ht).symm⟩
  · rintro ⟨hv, rfl⟩
    exact ⟨(), hv, rfl⟩

theorem formatOf_decimalType (h : decimalType p s = .ok t) : formatOf t = .ok ⟨p, s⟩ := by
  obtain ⟨hv, rfl⟩ := decimalType_eq_ok.mp h
  have hp := hv.bounded
  have hs := hv.scale_le
  simp only at hp hs
  refine formatOf_eq_ok.mpr ⟨by simp [isDecimal], UInt8.ofNat p, UInt8.ofNat s, rfl, ?_, hv⟩
  rw [UInt8.toNat_ofNat_of_lt' (show p < 256 by omega),
    UInt8.toNat_ofNat_of_lt' (show s < 256 by omega)]

/-! ## Storage -/

theorem wide_of_abs_le (h : |n| ≤ 10 ^ 38) : wide n = n := by
  have := abs_le.mp h
  rw [wide, Int.bmod_def]
  omega

theorem decode_payload (h : |n| ≤ 10 ^ 38) : decode (payload n) = n := by
  have hbits : (n % 2 ^ 128).toNat < 2 ^ 128 := by omega
  have hlow : (payload n).val.take 8 = LittleEndian.encode 8 ((n % 2 ^ 128).toNat % 2 ^ 64) := by
    rw [payload]
    exact List.take_left' (LittleEndian.length_encode _ _)
  have hhigh : (payload n).val.drop 8 = LittleEndian.encode 8 ((n % 2 ^ 128).toNat / 2 ^ 64) := by
    rw [payload]
    exact List.drop_left' (LittleEndian.length_encode _ _)
  rw [decode, hlow, hhigh, LittleEndian.decode_encode, LittleEndian.decode_encode]
  have hback : (n % 2 ^ 128).toNat / 2 ^ 64 % 256 ^ 8 * 2 ^ 64 +
      (n % 2 ^ 128).toNat % 2 ^ 64 % 256 ^ 8 = (n % 2 ^ 128).toNat := by
    omega
  have := abs_le.mp h
  rw [hback, wide, Int.bmod_def]
  omega

theorem isDecimal_id (h : isDecimal t = true) : defaultIdentity t.id = false := by
  rw [isDecimal, Bool.and_eq_true, beq_iff_eq] at h
  rw [h.1]
  decide +kernel

theorem numeric_of_formatOf (h : formatOf t = .ok f) : numeric t = .ok f := by
  rw [numeric, if_neg, h]
  rintro rfl
  have hid := isDecimal_id (formatOf_eq_ok.mp h).1
  revert hid
  decide +kernel

/-- Storing a coefficient succeeds exactly when it has few enough digits. -/
theorem value_of_lt (ht : formatOf t = .ok f) (hn : |n| < 10 ^ f.precision) :
    ∃ v, value n t = .ok v ∧ v.typeOf = t ∧ Holds v f n := by
  have hp := (formatOf_valid ht).bounded
  have hle : |n| ≤ 10 ^ 38 := hn.le.trans (pow_le_pow_right₀ (by norm_num) hp)
  have hid := isDecimal_id (formatOf_eq_ok.mp ht).1
  have hbound : ¬(n ≤ -10 ^ f.precision ∨ 10 ^ f.precision ≤ n) := by
    have := abs_lt.mp hn
    omega
  refine ⟨.compact16 ⟨t, hid⟩ (payload n), ?_, rfl, numeric_of_formatOf ht, ?_⟩
  · rw [value, ht]
    simp only [ok_bind, power_eq_ok hp, if_neg hbound]
    rw [makeCompact, dif_pos hid]
  · rw [coefficient, if_pos (formatOf_eq_ok.mp ht).1, decode_payload hle, ht]
    simp only [ok_bind, power_eq_ok hp, if_neg hbound]
    rfl

theorem value_of_le (ht : formatOf t = .ok f) (hn : 10 ^ f.precision ≤ |n|) :
    value n t = overflow := by
  have hp := (formatOf_valid ht).bounded
  have hbound : n ≤ -10 ^ f.precision ∨ 10 ^ f.precision ≤ n := by
    rcases le_abs'.mp hn with h | h
    · exact .inl h
    · exact .inr h
  rw [value, ht]
  simp only [ok_bind, power_eq_ok hp, if_pos hbound]

/-- Values have valid formats, and no more digits than these allow. -/
theorem Holds.bounds (h : Holds v f n) : f.Valid ∧ |n| < 10 ^ f.precision := by
  obtain ⟨hformat, hcoefficient⟩ := h
  rw [coefficient.eq_def] at hcoefficient
  split at hcoefficient
  · next i =>
      cases hcoefficient
      have hf : f = ⟨19, 0⟩ := by simpa [numeric, Value.typeOf] using hformat.symm
      subst hf
      refine ⟨⟨by norm_num, by norm_num, by norm_num⟩, abs_lt.mpr ?_⟩
      have h1 := i.le_toInt
      have h2 := i.toInt_lt
      simp only
      omega
  · next type bytes =>
      split at hcoefficient
      · next hd =>
          obtain ⟨f', hf', hrest⟩ := bind_eq_ok.mp hcoefficient
          have hvalid := formatOf_valid hf'
          obtain rfl : f' = f := by
            have hnumeric := numeric_of_formatOf hf'
            rw [show numeric type.val = .ok f from hformat] at hnumeric
            exact (Except.ok.inj hnumeric).symm
          rw [power_eq_ok hvalid.bounded, ok_bind] at hrest
          split at hrest
          · cases hrest
          · next hbound =>
              rw [← Except.ok.inj hrest]
              exact ⟨hvalid, abs_lt.mpr ⟨by omega, by omega⟩⟩
      · cases hcoefficient
  · cases hcoefficient

/-! ## Comparison -/

variable {fa fb : Format} {a b : Int} {floating : Floating}

theorem Holds.typeOf_ne_real (h : Holds v f n) : v.typeOf ≠ realType := by
  intro hreal
  have hformat := h.format
  rw [hreal] at hformat
  revert hformat
  rw [numeric, if_neg (by decide +kernel), formatOf, if_neg (by decide +kernel)]
  intro h
  cases h

theorem threeWay_truncated {factor x y : Int} (hf : 0 < factor) :
    (if x ≠ y.tdiv factor then threeWay x (y.tdiv factor) else threeWay 0 (y.tmod factor)) =
      threeWay (x * factor) y := by
  have hsplit := Int.mul_tdiv_add_tmod y factor
  rcases lt_trichotomy x (y.tdiv factor) with hlt | heq | hgt
  · rw [if_pos hlt.ne, threeWay_of_lt hlt, threeWay_of_lt (lt_of_lt_tdiv hf hlt)]
  · rw [if_neg (by simpa using heq)]
    have hy : y = x * factor + y.tmod factor := by
      rw [heq]
      linarith
    rcases lt_trichotomy (y.tmod factor) 0 with hneg | hzero | hpos
    · rw [threeWay_of_gt hneg, threeWay_of_gt (by omega)]
    · rw [hzero, threeWay_self, show x * factor = y by omega, threeWay_self]
    · rw [threeWay_of_lt hpos, threeWay_of_lt (by omega)]
  · rw [if_pos hgt.ne', threeWay_of_gt hgt, threeWay_of_gt (lt_of_tdiv_lt hf hgt)]

theorem threeWay_amount (x y : Int) :
    threeWay (FixedPoint.amount 10 x s) (FixedPoint.amount 10 y s) = threeWay x y := by
  simp only [threeWay, amount_lt_iff (show 0 < 10 by norm_num)]

section

variable (hv : Holds v fa a)
include hv

theorem compare_of_le (hw : Holds w fb b) (hle : fa.scale ≤ fb.scale) :
    compare floating v w = .ok (threeWay (fa.amount a) (fb.amount b)) := by
  have hb := hw.bounds.1
  have hpower : power (fb.scale - fa.scale) = .ok (10 ^ (fb.scale - fa.scale)) :=
    power_eq_ok (by have := hb.scale_le; have := hb.bounded; omega)
  have hpos : (0 : Int) < 10 ^ (fb.scale - fa.scale) := by positivity
  have hscaled : fa.amount a = FixedPoint.amount 10 (a * 10 ^ (fb.scale - fa.scale)) fb.scale :=
    (amount_rescale (by norm_num) hle).symm
  rw [compare, if_neg (by simp [hv.typeOf_ne_real, hw.typeOf_ne_real]), hv.coefficient,
    hw.coefficient]
  simp only
  rw [hscaled, Format.amount, threeWay_amount, ← threeWay_truncated hpos]
  split
  · next hformat => rw [hv.format] at hformat; cases hformat
  · next hformat _ => rw [hw.format] at hformat; cases hformat
  · next fa' fb' hfa hfb =>
      rw [hv.format] at hfa
      rw [hw.format] at hfb
      cases hfa
      cases hfb
      rw [dif_neg (by omega), hpower, ok_bind]
      split
      · rfl
      · rfl

/-- Where it is, the recursive call has the arguments in the other order. -/
theorem compare_of_lt (hw : Holds w fb b) (hlt : fb.scale < fa.scale) :
    compare floating v w = .ok (threeWay (fa.amount a) (fb.amount b)) := by
  rw [compare, if_neg (by simp [hv.typeOf_ne_real, hw.typeOf_ne_real]), hv.coefficient,
    hw.coefficient]
  simp only
  split
  · next hformat => rw [hv.format] at hformat; cases hformat
  · next hformat _ => rw [hw.format] at hformat; cases hformat
  · next fa' fb' hfa hfb =>
      rw [hv.format] at hfa
      rw [hw.format] at hfb
      cases hfa
      cases hfb
      rw [dif_pos hlt, compare_of_le hw hv hlt.le, ok_bind, threeWay_comm (fa.amount a)]
      rfl

theorem compare_eq (hw : Holds w fb b) :
    compare floating v w = .ok (threeWay (fa.amount a) (fb.amount b)) := by
  rcases Nat.lt_or_ge fb.scale fa.scale with hlt | hle
  · exact compare_of_lt hv hw hlt
  · exact compare_of_le hv hw hle

end

/-- `compare` is exact across types, and so a total preorder on all decimals
and integers together. -/
theorem compare_is_exact (floating : Floating) :
    (∀ v w fa fb a b, Holds v fa a → Holds w fb b →
      compare floating v w = .ok (threeWay (fa.amount a) (fb.amount b))) ∧
    (∀ v f a, Holds v f a → compare floating v v = .ok 0) ∧
    (∀ v w fa fb a b, Holds v fa a → Holds w fb b →
      ∃ c, compare floating v w = .ok c ∧ compare floating w v = .ok (-c) ∧
        (c = 0 ↔ fa.amount a = fb.amount b)) ∧
    ∀ u v w fa fb fc a b c x y, Holds u fa a → Holds v fb b → Holds w fc c →
      compare floating u v = .ok x → compare floating v w = .ok y → x ≤ 0 → y ≤ 0 →
      ∃ z, compare floating u w = .ok z ∧ z ≤ 0 := by
  refine ⟨fun v w fa fb a b hv hw => compare_eq hv hw, fun v f a hv => ?_,
    fun v w fa fb a b hv hw => ?_, fun u v w fa fb fc a b c x y hu hv hw hx hy hx0 hy0 => ?_⟩
  · rw [compare_eq hv hv, threeWay_self]
  · refine ⟨_, compare_eq hv hw, ?_, threeWay_eq_zero⟩
    rw [compare_eq hw hv, threeWay_comm]
  · rw [compare_eq hu hv] at hx
    rw [compare_eq hv hw] at hy
    cases hx
    cases hy
    rw [threeWay_le_zero] at hx0 hy0
    exact ⟨_, compare_eq hu hw, threeWay_le_zero.mpr (hx0.trans hy0)⟩

def tenths : SqlType := ⟨typeId, 1, [3, 1]⟩

theorem formatOf_tenths : formatOf tenths = .ok ⟨3, 1⟩ :=
  formatOf_eq_ok.mpr ⟨by decide +kernel, 3, 1, rfl, rfl, by decide, by decide, by decide⟩

theorem holds_integer (i : Int64) : Holds (.integer i) ⟨19, 0⟩ i.toInt :=
  ⟨if_pos rfl, rfl⟩

theorem compare_is_exact_tenths : ∃ v, value 255 tenths = .ok v ∧
    compare ⟨fun _ _ => overflow, fun _ _ _ => overflow⟩ v (.integer 26) = .ok (-1) := by
  obtain ⟨v, hv, -, hholds⟩ := value_of_lt (n := 255) formatOf_tenths (by norm_num)
  refine ⟨v, hv, ?_⟩
  rw [(compare_is_exact _).1 v _ _ _ _ _ hholds (holds_integer 26)]
  refine congrArg Except.ok (threeWay_of_lt ?_)
  rw [show Int64.toInt 26 = 26 from rfl, Format.amount, Format.amount, FixedPoint.amount,
    FixedPoint.amount]
  norm_num

/-! ## Arithmetic -/

theorem checked_of_lt (h : |n| < 2 ^ 127) : checked n = .ok n := by
  have := abs_lt.mp h
  rw [checked, if_pos (by omega)]

theorem checked_cases (n : Int) : checked n = .ok n ∨ checked n = overflow ∧ 2 ^ 127 ≤ |n| := by
  rw [checked]
  split
  · exact .inl rfl
  · next h =>
      refine .inr ⟨rfl, le_abs'.mpr ?_⟩
      omega

/-- The factors of an addition: the operands have scales that can be brought to
the scale of the result, which has `p` digits. -/
structure Arithmetic.Aligned (x : Arithmetic) (p : Nat) : Prop where
  left : x.fa * 10 ^ (x.scale - x.sa) = x.base
  right : x.fb * 10 ^ (x.scale - x.sb) = x.base
  left_pos : 0 < x.fa
  right_pos : 0 < x.fb
  limit : x.limit * x.base = 10 ^ p
  scale_le : x.scale ≤ 38
  base_le : x.base ≤ 10 ^ 38
  limit_le : x.limit ≤ 10 ^ 38
  bounded : p ≤ 38

/-- The coefficient of a sum, on the scale of the result. -/
def Arithmetic.total (x : Arithmetic) (a b : Int) : Int :=
  a * 10 ^ (x.scale - x.sa) + b * 10 ^ (x.scale - x.sb)

theorem scaled_tmod {c f base : Int} (hk : k ≤ 38) (hf : 0 < f)
    (hbase : f * 10 ^ k = base) (hle : base ≤ 10 ^ 38) :
    scaled (c.tmod f) k = .ok (c.tmod f * 10 ^ k) := by
  have habs := abs_tmod_mul_lt (a := c) hf (by positivity) hbase
  rw [scaled, power_eq_ok hk, ok_bind, checked_of_lt (by omega)]

/-- Adding by parts gives the sum, and stops early only when the sum has too
many digits. -/
theorem Arithmetic.Aligned.sum_cases (h : x.Aligned p) (a b : Int) :
    x.sum a b = .ok (x.total a b) ∨ x.sum a b = overflow ∧ 10 ^ p ≤ |x.total a b| := by
  have hbase : 0 < x.base := h.left ▸ mul_pos h.left_pos (by positivity)
  have hscale := h.scale_le
  have hlimit := h.limit_le
  have hble := h.base_le
  have htop : (10 : Int) ^ p ≤ 10 ^ 38 := pow_le_pow_right₀ (by norm_num) h.bounded
  have hparts : x.total a b = _ := sum_parts h.left h.right
  have hra := abs_lt.mp (abs_tmod_mul_lt (a := a) h.left_pos (by positivity) h.left)
  have hrb := abs_lt.mp (abs_tmod_mul_lt (a := b) h.right_pos (by positivity) h.right)
  have hfraction := le_abs_sum_of_fraction (a := a) (b := b) (u := 2 ^ 127) h.left_pos
    h.right_pos (by positivity) (by positivity) h.left h.right (by omega)
  rw [Arithmetic.sum, scaled_tmod (by omega) h.left_pos h.left h.base_le,
    scaled_tmod (by omega) h.right_pos h.right h.base_le]
  simp only [ok_bind]
  change _ → 2 ^ 127 ≤ |x.total a b| at hfraction
  generalize a.tdiv x.fa + b.tdiv x.fb = integral at hparts ⊢
  generalize a.tmod x.fa * 10 ^ (x.scale - x.sa) = ra at hra hparts hfraction ⊢
  generalize b.tmod x.fb * 10 ^ (x.scale - x.sb) = rb at hrb hparts hfraction ⊢
  have htwo : |ra + rb| < 2 * x.base := abs_lt.mpr ⟨by omega, by omega⟩
  rcases checked_cases integral with hok | ⟨hno, hbig⟩
  swap
  · refine .inr ⟨by rw [hno]; rfl, ?_⟩
    rw [← h.limit]
    exact le_abs_of_integral hbase hparts htwo (by omega)
  rw [hok, ok_bind]
  rcases checked_cases (ra + rb) with hok | ⟨hno, hbig⟩
  swap
  · refine .inr ⟨by rw [hno]; rfl, ?_⟩
    have := hfraction hbig
    omega
  rw [hok, ok_bind]
  -- The fraction's carry goes to the integral part.
  have hcarry : x.total a b =
      (integral + (ra + rb).tdiv x.base) * x.base + (ra + rb).tmod x.base := by
    have := Int.mul_tdiv_add_tmod (ra + rb) x.base
    rw [hparts, add_mul, mul_comm ((ra + rb).tdiv x.base)]
    omega
  have hrest : |(ra + rb).tmod x.base| < 1 * x.base := by
    rw [one_mul]
    exact abs_tmod_lt hbase
  generalize integral + (ra + rb).tdiv x.base = whole at hcarry ⊢
  generalize (ra + rb).tmod x.base = rest at hcarry hrest ⊢
  rcases checked_cases whole with hok | ⟨hno, hbig⟩
  swap
  · refine .inr ⟨by rw [hno]; rfl, ?_⟩
    rw [← h.limit]
    exact le_abs_of_integral hbase hcarry hrest (by omega)
  rw [hok, ok_bind]
  split
  · next hover =>
      refine .inr ⟨rfl, ?_⟩
      rw [← h.limit]
      refine le_abs_of_integral hbase hcarry hrest ?_
      rcases hover with hneg | hpos
      · exact le_abs'.mpr (.inl (by omega))
      · exact le_abs'.mpr (.inr (by omega))
  · next hover =>
      have hproduct : |whole * x.base| ≤ 10 ^ 38 := by
        rw [abs_mul, abs_of_pos hbase]
        calc |whole| * x.base ≤ x.limit * x.base :=
              mul_le_mul_of_nonneg_right (abs_le.mpr ⟨by omega, by omega⟩) hbase.le
          _ ≤ 10 ^ 38 := h.limit.trans_le htop
      rw [wide_of_abs_le hproduct, ← hcarry]
      rcases checked_cases (x.total a b) with hok | ⟨hno, hbig⟩
      · exact .inl hok
      · exact .inr ⟨hno, by omega⟩

def Operation.apply : Operation → ℚ → ℚ → ℚ
  | .add, x, y => x + y
  | .subtract, x, y => x - y
  | .multiply, x, y => x * y
  | .divide, x, y => x / y

theorem arithmeticType_eq_ok {a b : SqlType} (ha : numeric a = .ok fa)
    (hb : numeric b = .ok fb) (hop : op ≠ .divide) (hra : a ≠ realType) (hrb : b ≠ realType)
    (h : arithmeticType a b op = .ok t) : ∃ f, formatOf t = .ok f ∧
      f.scale = if op = .multiply then fa.scale + fb.scale else max fa.scale fb.scale := by
  rw [arithmeticType] at h
  obtain ⟨⟨⟩, -, h⟩ := bind_eq_ok.mp h
  rw [if_neg (by simp [hop, hra, hrb]), ha, hb] at h
  simp only [ok_bind] at h
  generalize (if op = .multiply then fa.scale + fb.scale else max fa.scale fb.scale) = scale at h ⊢
  by_cases hscale : 38 < scale
  · rw [if_pos hscale] at h
    cases h
  · rw [if_neg hscale] at h
    exact ⟨_, formatOf_decimalType h, rfl⟩

theorem Arithmetic.make_eq (hv : Holds v fa a) (hw : Holds w fb b) (ht : formatOf t = .ok f)
    (op : Operation) :
    Arithmetic.make v.typeOf w.typeOf t op = .ok ⟨t, op, fa.scale, fb.scale, f.scale,
      10 ^ fa.scale, 10 ^ fb.scale, 10 ^ f.scale, 10 ^ (f.precision - f.scale)⟩ := by
  obtain ⟨hva, -⟩ := hv.bounds
  obtain ⟨hvb, -⟩ := hw.bounds
  have hvf := formatOf_valid ht
  have := hva.scale_le
  have := hva.bounded
  have := hvb.scale_le
  have := hvb.bounded
  have := hvf.scale_le
  have := hvf.bounded
  rw [Arithmetic.make, hv.format, hw.format, ht]
  simp only [ok_bind]
  rw [power_eq_ok (by omega), power_eq_ok (by omega), power_eq_ok (by omega),
    power_eq_ok (by omega)]
  rfl

theorem Arithmetic.aligned_of_le (hf : f.Valid) (hscale : x.scale = f.scale)
    (ha : x.sa ≤ f.scale) (hb : x.sb ≤ f.scale) (hfa : x.fa = 10 ^ x.sa) (hfb : x.fb = 10 ^ x.sb)
    (hbase : x.base = 10 ^ f.scale) (hlimit : x.limit = 10 ^ (f.precision - f.scale)) :
    x.Aligned f.precision := by
  have hle := hf.scale_le
  have hbounded := hf.bounded
  refine ⟨?_, ?_, by rw [hfa]; positivity, by rw [hfb]; positivity, ?_, by omega, ?_, ?_, hbounded⟩
  · rw [hfa, hbase, hscale, ← pow_add, Nat.add_sub_cancel' ha]
  · rw [hfb, hbase, hscale, ← pow_add, Nat.add_sub_cancel' hb]
  · rw [hlimit, hbase, ← pow_add, Nat.sub_add_cancel hle]
  · rw [hbase]
    exact pow_le_pow_right₀ (by norm_num) (by omega)
  · rw [hlimit]
    exact pow_le_pow_right₀ (by norm_num) (by omega)

/-- A coefficient that came through, or is too large for the result, is stored
or refused. -/
theorem value_of_cases {m : Except Error Int} (ht : formatOf t = .ok f)
    (h : m = .ok n ∨ m = overflow ∧ 10 ^ f.precision ≤ |n|) :
    (|n| < 10 ^ f.precision → ∃ r, (m >>= fun k => value k t) = .ok r ∧ r.typeOf = t ∧
      Holds r f n) ∧ (10 ^ f.precision ≤ |n| → (m >>= fun k => value k t) = overflow) := by
  rcases h with rfl | ⟨rfl, hbig⟩
  · exact ⟨value_of_lt ht, value_of_le ht⟩
  · exact ⟨fun hlt => absurd hbig (not_le.mpr hlt), fun _ => rfl⟩

/-- The coefficient of a result in the format of the result. -/
def Operation.coefficient (op : Operation) (fa fb f : Format) (a b : Int) : Int :=
  match op with
  | .multiply => a * b
  | .subtract => a * 10 ^ (f.scale - fa.scale) + -b * 10 ^ (f.scale - fb.scale)
  | _ => a * 10 ^ (f.scale - fa.scale) + b * 10 ^ (f.scale - fb.scale)

theorem Operation.amount_coefficient (hop : op ≠ .divide)
    (hscale : f.scale = if op = .multiply then fa.scale + fb.scale else max fa.scale fb.scale) :
    f.amount (op.coefficient fa fb f a b) = op.apply (fa.amount a) (fb.amount b) := by
  have hten : 0 < 10 := by norm_num
  cases op with
  | add =>
    have hle : fa.scale ≤ f.scale ∧ fb.scale ≤ f.scale := by simp [hscale]
    simp only [Operation.coefficient, Operation.apply, Format.amount, amount_add]
    exact congrArg₂ (· + ·) (amount_rescale hten hle.1) (amount_rescale hten hle.2)
  | subtract =>
    have hle : fa.scale ≤ f.scale ∧ fb.scale ≤ f.scale := by simp [hscale]
    rw [Operation.coefficient, Operation.apply, Format.amount, amount_add, neg_mul, amount_neg,
      sub_eq_add_neg]
    exact congrArg₂ (fun x y => x + -y) (amount_rescale hten hle.1) (amount_rescale hten hle.2)
  | multiply =>
    rw [if_pos rfl] at hscale
    rw [Operation.coefficient, Operation.apply, Format.amount, hscale, amount_mul]
    rfl
  | divide => exact absurd rfl hop

/-- DECIMAL addition, subtraction and multiplication are exact: the result has
the type `arithmetic_type` infers and is the sum, the difference or the product
as a rational, and the overflow error is raised exactly when that number has
too many digits for the type. -/
theorem arithmetic_is_exact (floating : Floating) {op : Operation} (hop : op ≠ .divide)
    {v w : Value} {fa fb : Format} {a b : Int} (hv : Holds v fa a) (hw : Holds w fb b)
    {t : SqlType} (ht : arithmeticType v.typeOf w.typeOf op = .ok t) :
    ∃ f n, formatOf t = .ok f ∧ f.amount n = op.apply (fa.amount a) (fb.amount b) ∧
      (|n| < 10 ^ f.precision →
        ∃ r, arithmetic floating op v w = .ok r ∧ r.typeOf = t ∧ Holds r f n) ∧
      (10 ^ f.precision ≤ |n| → arithmetic floating op v w = overflow) := by
  obtain ⟨f, hf, hscale⟩ := arithmeticType_eq_ok hv.format hw.format hop hv.typeOf_ne_real
    hw.typeOf_ne_real ht
  have hreal : t ≠ realType := by
    rintro rfl
    have hd := (formatOf_eq_ok.mp hf).1
    revert hd
    decide +kernel
  refine ⟨f, op.coefficient fa fb f a b, hf, Operation.amount_coefficient hop hscale, ?_⟩
  rw [arithmetic, ht, ok_bind, if_neg hreal, Arithmetic.make_eq hv hw hf, ok_bind,
    Arithmetic.apply, hv.coefficient, hw.coefficient]
  simp only [ok_bind]
  have hsums : op ≠ .multiply → ∀ c, _ := fun hm c => by
    rw [if_neg hm] at hscale
    exact (Arithmetic.aligned_of_le (x := ⟨t, op, fa.scale, fb.scale, f.scale, 10 ^ fa.scale,
      10 ^ fb.scale, 10 ^ f.scale, 10 ^ (f.precision - f.scale)⟩) (formatOf_valid hf) rfl
      (by simp [hscale]) (by simp [hscale]) rfl rfl rfl rfl).sum_cases a c
  cases op with
  | add => exact value_of_cases hf (hsums (by simp) b)
  | subtract =>
      have hb : |-b| ≤ 10 ^ 38 := by
        obtain ⟨hvalid, hlt⟩ := hw.bounds
        rw [abs_neg]
        exact hlt.le.trans (pow_le_pow_right₀ (by norm_num) hvalid.bounded)
      simp only [wide_of_abs_le hb]
      exact value_of_cases hf (hsums (by simp) (-b))
  | multiply =>
      refine value_of_cases hf ?_
      rcases checked_cases (a * b) with hok | ⟨hno, hbig⟩
      · exact .inl hok
      · refine .inr ⟨hno, ?_⟩
        have htop : (10 : Int) ^ f.precision ≤ 10 ^ 38 :=
          pow_le_pow_right₀ (by norm_num) (formatOf_valid hf).bounded
        simp only [Operation.coefficient]
        omega
  | divide => exact absurd rfl hop

theorem arithmetic_is_exact_tenths : ∃ v r, value 255 tenths = .ok v ∧
    arithmetic ⟨fun _ _ => overflow, fun _ _ _ => overflow⟩ .add v (.integer 2) = .ok r ∧
    Holds r ⟨21, 1⟩ 275 := by
  obtain ⟨v, hv, htype, hholds⟩ := value_of_lt (n := 255) formatOf_tenths (by norm_num)
  have ht : arithmeticType v.typeOf (Value.integer 2).typeOf .add =
      .ok ⟨typeId, 1, [21, 1]⟩ := by
    rw [htype]
    have h : (arithmeticType tenths integerType .add).toOption =
        some ⟨typeId, 1, [21, 1]⟩ := by decide +kernel
    cases harith : arithmeticType tenths integerType .add with
    | error e => rw [harith] at h; cases h
    | ok t =>
        rw [harith] at h
        exact harith.trans (congrArg Except.ok (Option.some.inj h))
  have hf : formatOf ⟨typeId, 1, [21, 1]⟩ = .ok ⟨21, 1⟩ :=
    formatOf_eq_ok.mpr ⟨by decide +kernel, 21, 1, rfl, rfl, by decide, by decide, by decide⟩
  obtain ⟨f, n, hf', hn, hr, -⟩ := arithmetic_is_exact ⟨fun _ _ => overflow, fun _ _ _ => overflow⟩
    (by decide) hholds (holds_integer 2) ht
  obtain rfl : ⟨21, 1⟩ = f := Except.ok.inj (hf.symm.trans hf')
  obtain rfl : n = 275 := by
    rw [show Int64.toInt 2 = 2 from rfl, Operation.apply, Format.amount, Format.amount,
      Format.amount, FixedPoint.amount, FixedPoint.amount, FixedPoint.amount] at hn
    norm_num at hn
    have hcast : (n : ℚ) = (275 : Int) := by
      rw [div_eq_iff (by norm_num)] at hn
      rw [hn]
      norm_num
    exact_mod_cast hcast
  obtain ⟨r, hr, -, hrholds⟩ := hr (by norm_num)
  exact ⟨v, r, hv, hr, hrholds⟩

end CoreSql.Decimals
