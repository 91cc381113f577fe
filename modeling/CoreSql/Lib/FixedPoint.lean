import Mathlib.Algebra.Order.Field.Rat
import Mathlib.Algebra.Order.Ring.Abs
import Mathlib.Data.Rat.Cast.Order
import Mathlib.Tactic.FieldSimp
import Mathlib.Tactic.Linarith
import Mathlib.Tactic.Ring

/-!
# Fixed-point numbers

A coefficient and a number of digits behind the point stand for a rational.
Numbers with different scales are compared and added on a common scale. Where
the common scale is too large for the machine, a coefficient is split into its
integral and its fractional part by truncating division; the two parts have
the sign of the coefficient, and the fractional part is smaller than one.
-/

namespace FixedPoint

/-- The number with coefficient `n` and `s` digits behind the point. -/
def amount (b : Nat) (n : Int) (s : Nat) : ℚ := n / b ^ s

section

variable {b : Nat} {n n' : Int} {s s' : Nat}

theorem amount_rescale (hb : 0 < b) (h : s ≤ s') : amount b (n * b ^ (s' - s)) s' =
    amount b n s := by
  have hb' : (b : ℚ) ≠ 0 := by exact_mod_cast hb.ne'
  have hpow : (b : ℚ) ^ s' = b ^ (s' - s) * b ^ s := by rw [← pow_add, Nat.sub_add_cancel h]
  rw [amount, amount, hpow]
  push_cast
  field_simp

theorem amount_lt_iff (hb : 0 < b) : amount b n s < amount b n' s ↔ n < n' := by
  have hpow : (0 : ℚ) < b ^ s := by positivity
  rw [amount, amount, div_lt_div_iff_of_pos_right hpow, Int.cast_lt]

theorem amount_inj (hb : 0 < b) : amount b n s = amount b n' s ↔ n = n' := by
  have hpow : (b : ℚ) ^ s ≠ 0 := by positivity
  rw [amount, amount, div_left_inj' hpow, Int.cast_inj]

theorem amount_add : amount b (n + n') s = amount b n s + amount b n' s := by
  rw [amount, amount, amount, Int.cast_add, add_div]

theorem amount_neg : amount b (-n) s = -amount b n s := by
  rw [amount, amount, Int.cast_neg, neg_div]

theorem amount_mul : amount b (n * n') (s + s') = amount b n s * amount b n' s' := by
  rw [amount, amount, amount, Int.cast_mul, pow_add, mul_div_mul_comm]

end

/-! ## Truncation -/

section

variable {f x y : Int} {a b fa fb ka kb base : Int}

theorem lt_of_lt_tdiv (hf : 0 < f) (h : x < y.tdiv f) : x * f < y := by
  have hsplit := Int.mul_tdiv_add_tmod y f
  have hrem := Int.lt_tmod_of_pos y hf
  nlinarith

theorem lt_of_tdiv_lt (hf : 0 < f) (h : y.tdiv f < x) : y < x * f := by
  have hsplit := Int.mul_tdiv_add_tmod y f
  have hrem := Int.tmod_lt_of_pos y hf
  nlinarith

theorem abs_tmod_lt (hf : 0 < f) : |y.tmod f| < f :=
  abs_lt.mpr ⟨Int.lt_tmod_of_pos y hf, Int.tmod_lt_of_pos y hf⟩

/-- The sum of two numbers on a common scale, from their integral and
fractional parts. -/
theorem sum_parts (ha : fa * ka = base) (hb : fb * kb = base) : a * ka + b * kb =
      (a.tdiv fa + b.tdiv fb) * base + (a.tmod fa * ka + b.tmod fb * kb) := by
  have hsa := Int.mul_tdiv_add_tmod a fa
  have hsb := Int.mul_tdiv_add_tmod b fb
  calc a * ka + b * kb
      = (fa * a.tdiv fa + a.tmod fa) * ka + (fb * b.tdiv fb + b.tmod fb) * kb := by rw [hsa, hsb]
    _ = a.tdiv fa * (fa * ka) + b.tdiv fb * (fb * kb) + (a.tmod fa * ka + b.tmod fb * kb) := by
        ring
    _ = (a.tdiv fa + b.tdiv fb) * base + (a.tmod fa * ka + b.tmod fb * kb) := by
        rw [ha, hb]
        ring

section

variable (hfa : 0 < fa)
include hfa

theorem abs_tmod_mul_lt (hka : 0 < ka) (h : fa * ka = base) :
    |a.tmod fa * ka| < base := by
  rw [abs_mul, abs_of_pos hka, ← h]
  exact mul_lt_mul_of_pos_right (abs_tmod_lt hfa) hka

theorem tdiv_nonneg_of_tmod_pos (h : 0 < a.tmod fa) : 0 ≤ a.tdiv fa := by
  have ha : 0 ≤ a := by
    by_contra hneg
    have hle := Int.tmod_nonneg (a := -a) fa (by omega)
    rw [Int.neg_tmod] at hle
    omega
  exact Int.tdiv_nonneg ha hfa.le

theorem tdiv_nonpos_of_tmod_neg (h : a.tmod fa < 0) : a.tdiv fa ≤ 0 := by
  have hneg : 0 < (-a).tmod fa := by
    rw [Int.neg_tmod]
    omega
  have hle := tdiv_nonneg_of_tmod_pos hfa hneg
  rw [Int.neg_tdiv] at hle
  omega

/-- Fractional parts whose sum is large have one sign, and so have the integral
parts: the whole sum is as large. -/
theorem le_abs_sum_of_fraction {u : Int} (hfb : 0 < fb)
    (hka : 0 < ka) (hkb : 0 < kb) (ha : fa * ka = base) (hb : fb * kb = base)
    (hbase : base ≤ u) (h : u ≤ |a.tmod fa * ka + b.tmod fb * kb|) : u ≤ |a * ka + b * kb| := by
  have hra := abs_lt.mp (abs_tmod_mul_lt (a := a) hfa hka ha)
  have hrb := abs_lt.mp (abs_tmod_mul_lt (a := b) hfb hkb hb)
  have hpos : 0 < base := ha ▸ mul_pos hfa hka
  rw [sum_parts ha hb]
  rcases le_abs'.mp h with hneg | hpos'
  · have hqa := tdiv_nonpos_of_tmod_neg (a := a) hfa (neg_of_mul_neg_left (by omega) hka.le)
    have hqb := tdiv_nonpos_of_tmod_neg (a := b) hfb (neg_of_mul_neg_left (by omega) hkb.le)
    have hq : (a.tdiv fa + b.tdiv fb) * base ≤ 0 :=
      mul_nonpos_of_nonpos_of_nonneg (by omega) hpos.le
    exact le_abs'.mpr (.inl (by omega))
  · have hqa := tdiv_nonneg_of_tmod_pos (a := a) hfa (pos_of_mul_pos_left (by omega) hka.le)
    have hqb := tdiv_nonneg_of_tmod_pos (a := b) hfb (pos_of_mul_pos_left (by omega) hkb.le)
    have hq : 0 ≤ (a.tdiv fa + b.tdiv fb) * base := mul_nonneg (by omega) hpos.le
    exact le_abs'.mpr (.inr (by omega))

end

/-- An integral part above the limit leaves no room, whatever the fraction. -/
theorem le_abs_of_integral {n i r limit k : Int} (hbase : 0 < base) (hn : n = i * base + r)
    (hr : |r| < k * base) (hi : limit + k ≤ |i|) : limit * base ≤ |n| := by
  have hsplit : |i| * base ≤ |n| + |r| := by
    calc |i| * base = |i * base| := by rw [abs_mul, abs_of_pos hbase]
      _ = |n - r| := by rw [hn, add_sub_cancel_right]
      _ ≤ |n| + |r| := abs_sub n r
  have hle : (limit + k) * base ≤ |i| * base := mul_le_mul_of_nonneg_right hi hbase.le
  rw [add_mul] at hle
  omega

end

/-! ## Rounding -/

/-- An integer at most one half away, and not nearer to zero when it is exactly
that, is the nearest one with ties away from zero. -/
theorem nearest_of_half {y : ℚ} {n : Int} (hhalf : |y - n| ≤ 1 / 2)
    (htie : |y - n| = 1 / 2 → |y| ≤ |(n : ℚ)|) (m : Int) :
    |y - n| ≤ |y - m| ∧ (|y - m| = |y - n| → |m| ≤ |n|) := by
  by_cases hm : m = n
  · subst hm
    exact ⟨le_rfl, fun _ => le_rfl⟩
  have hstep : (1 : ℚ) ≤ |(m : ℚ) - n| := by
    have hint : 1 ≤ |m - n| := Int.one_le_abs (sub_ne_zero.mpr hm)
    exact_mod_cast hint
  have hdist : |(m : ℚ) - n| ≤ |y - m| + |y - n| := by
    rw [abs_sub_comm y m]
    exact (abs_sub_le (m : ℚ) y n)
  refine ⟨by linarith, fun heq => ?_⟩
  -- Both are one half away: `y` is in the middle of two neighbours.
  have hn : |y - n| = 1 / 2 := by linarith
  have hone : |m - n| = 1 := by
    have hle : |(m : ℚ) - n| ≤ 1 := by linarith
    have hle' : |m - n| ≤ 1 := by exact_mod_cast hle
    exact le_antisymm hle' (by exact_mod_cast hstep)
  have hmiddle : 2 * y = m + n := by
    rcases abs_eq_abs.mp heq with h | h
    · exact absurd (by exact_mod_cast sub_right_injective h : (m : ℤ) = n) hm
    · linarith
  have hfar : |m + n| ≤ 2 * |n| := by
    have hq : |((m : ℚ) + n)| ≤ 2 * |(n : ℚ)| := by
      rw [← hmiddle, abs_mul, abs_of_pos (by norm_num : (0 : ℚ) < 2)]
      linarith [htie hn]
    exact_mod_cast hq
  rcases abs_cases (m - n) with ⟨h1, h1'⟩ | ⟨h1, h1'⟩ <;>
    rcases abs_cases n with ⟨h2, h2'⟩ | ⟨h2, h2'⟩ <;>
    rcases abs_cases m with ⟨h3, h3'⟩ | ⟨h3, h3'⟩ <;>
    rcases abs_cases (m + n) with ⟨h4, h4'⟩ | ⟨h4, h4'⟩ <;>
    omega

/-- A quotient rounded to the nearest natural number, one half up. -/
def roundDiv (d m : Nat) : Nat := d / m + if m ≤ 2 * (d % m) then 1 else 0

theorem roundDiv_half {d m : Nat} (hm : 0 < m) : |(d : ℚ) / m - roundDiv d m| ≤ 1 / 2 ∧
      (|(d : ℚ) / m - roundDiv d m| = 1 / 2 → (d : ℚ) / m ≤ roundDiv d m) := by
  have hq : (0 : ℚ) < m := by exact_mod_cast hm
  have hsplit : (d : ℚ) / m = (d / m : Nat) + ((d % m : Nat) : ℚ) / m := by
    field_simp
    exact_mod_cast (Nat.div_add_mod d m).symm
  have hlt : ((d % m : Nat) : ℚ) < m := by exact_mod_cast Nat.mod_lt d hm
  have hnonneg : (0 : ℚ) ≤ (d % m : Nat) := by positivity
  rw [hsplit, roundDiv]
  split
  · next hup =>
      have hup' : (m : ℚ) ≤ 2 * (d % m : Nat) := by exact_mod_cast hup
      have hge : 1 / 2 ≤ ((d % m : Nat) : ℚ) / m := by
        rw [div_le_div_iff₀ (by norm_num) hq]
        linarith
      have hle : ((d % m : Nat) : ℚ) / m ≤ 1 := (div_le_one₀ hq).mpr hlt.le
      push_cast
      rw [abs_of_nonpos (by linarith)]
      exact ⟨by linarith, fun _ => by linarith⟩
  · next hdown =>
      have hdown' : 2 * ((d % m : Nat) : ℚ) < m := by exact_mod_cast not_le.mp hdown
      have hle : ((d % m : Nat) : ℚ) / m < 1 / 2 := by
        rw [div_lt_div_iff₀ hq (by norm_num)]
        linarith
      have hge : 0 ≤ ((d % m : Nat) : ℚ) / m := div_nonneg hnonneg hq.le
      push_cast
      rw [abs_of_nonneg (by linarith)]
      exact ⟨by linarith, fun _ => by linarith⟩

end FixedPoint
