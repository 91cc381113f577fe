import Mathlib.Algebra.Order.Ring.Nat
import Mathlib.Data.Nat.Log
import Mathlib.Order.Monotone.Basic
import Mathlib.Tactic.Linarith
import Mathlib.Tactic.Ring

/-!
# Binary floating-point magnitudes

The magnitude of a binary float is a word whose upper part is an exponent and
whose lower `p` bits are a mantissa. Every float is a multiple of the smallest
positive one; `units` is that multiple. It grows with the word, so that floats
compare as their words do, and the numbers it takes are those with at most
`p + 1` significant bits. `nearestEven` is the conversion of a number of units
to a word, and a number that is a float converts to itself.
-/

namespace BinaryFormat

/-- A magnitude as a multiple of the smallest positive float. -/
def units (p w : Nat) : Nat :=
  if w / 2 ^ p = 0 then w % 2 ^ p else (w % 2 ^ p + 2 ^ p) * 2 ^ (w / 2 ^ p - 1)

/-- The nearest float, of two the one with the even mantissa. -/
def nearestEven (p x : Nat) : Nat :=
  let k := Nat.log2 x - p
  let q := x / 2 ^ k
  let r := x % 2 ^ k
  k * 2 ^ p + q + if 2 ^ k < 2 * r ∨ 2 * r = 2 ^ k ∧ q % 2 = 1 then 1 else 0

variable {p : Nat}

theorem units_eq {e m : Nat} (hm : m < 2 ^ p) :
    units p (e * 2 ^ p + m) = if e = 0 then m else (m + 2 ^ p) * 2 ^ (e - 1) := by
  have hpos : 0 < 2 ^ p := Nat.two_pow_pos p
  have hdiv : (e * 2 ^ p + m) / 2 ^ p = e := by
    rw [mul_comm, Nat.mul_add_div hpos, Nat.div_eq_of_lt hm, Nat.add_zero]
  have hmod : (e * 2 ^ p + m) % 2 ^ p = m := by
    rw [mul_comm, Nat.mul_add_mod, Nat.mod_eq_of_lt hm]
  rw [units, hdiv, hmod]

theorem exists_fields (p w : Nat) : ∃ e m, m < 2 ^ p ∧ w = e * 2 ^ p + m :=
  ⟨w / 2 ^ p, w % 2 ^ p, Nat.mod_lt w (Nat.two_pow_pos p), by
    rw [mul_comm, Nat.div_add_mod]⟩

theorem units_zero : units p 0 = 0 := by
  simpa using units_eq (p := p) (e := 0) (m := 0) (Nat.two_pow_pos p)

theorem units_lt_succ (w : Nat) : units p w < units p (w + 1) := by
  obtain ⟨e, m, hm, rfl⟩ := exists_fields p w
  rw [units_eq hm]
  by_cases hnext : m + 1 < 2 ^ p
  · -- The mantissa grows.
    rw [Nat.add_assoc, units_eq hnext]
    split
    · omega
    · exact Nat.mul_lt_mul_of_pos_right (by omega) (Nat.two_pow_pos _)
  · -- The exponent grows.
    have hword : e * 2 ^ p + m + 1 = (e + 1) * 2 ^ p + 0 := by
      rw [add_mul]
      omega
    rw [hword, units_eq (Nat.two_pow_pos p), if_neg (Nat.succ_ne_zero e)]
    split
    · next he =>
        rw [he]
        simpa using hm
    · next he =>
        obtain ⟨e, rfl⟩ : ∃ j, e = j + 1 := ⟨e - 1, by omega⟩
        have hpow : 2 ^ (e + 1) = 2 * 2 ^ e := by rw [pow_succ]; ring
        calc (m + 2 ^ p) * 2 ^ (e + 1 - 1) < (2 * 2 ^ p) * 2 ^ e :=
              Nat.mul_lt_mul_of_pos_right (by omega) (Nat.two_pow_pos _)
          _ = (0 + 2 ^ p) * 2 ^ (e + 1 + 1 - 1) := by
              rw [Nat.zero_add, show e + 1 + 1 - 1 = e + 1 by omega, hpow]
              ring

theorem units_strictMono : StrictMono (units p) := strictMono_nat_of_lt_succ units_lt_succ

theorem exists_units {c : Nat} (hc : c < 2 ^ (p + 1)) (j : Nat) : ∃ w, units p w = c * 2 ^ j := by
  induction j generalizing c with
  | zero =>
    refine ⟨c, ?_⟩
    rw [pow_zero, mul_one]
    by_cases hsmall : c < 2 ^ p
    · simpa using units_eq (e := 0) hsmall
    · have hword : c = 1 * 2 ^ p + (c - 2 ^ p) := by omega
      rw [pow_succ] at hc
      rw [hword, units_eq (by omega), if_neg one_ne_zero, Nat.sub_self, pow_zero, mul_one]
      omega
  | succ j ih =>
    by_cases hsmall : c < 2 ^ p
    · obtain ⟨w, hw⟩ := ih (c := 2 * c) (by rw [pow_succ]; omega)
      refine ⟨w, hw.trans ?_⟩
      rw [pow_succ]
      ring
    · rw [pow_succ] at hc
      refine ⟨(j + 2) * 2 ^ p + (c - 2 ^ p), ?_⟩
      rw [units_eq (by omega), if_neg (by omega), Nat.sub_add_cancel (by omega)]
      rfl

theorem exists_units_div (w k : Nat) : ∃ w', units p w' = units p w / 2 ^ k * 2 ^ k := by
  obtain ⟨e, m, hm, rfl⟩ := exists_fields p w
  obtain ⟨c, j, hc, hunits⟩ : ∃ c j, c < 2 ^ (p + 1) ∧ units p (e * 2 ^ p + m) = c * 2 ^ j := by
    rw [units_eq hm]
    split
    · exact ⟨m, 0, by rw [pow_succ]; omega, by simp⟩
    · exact ⟨_, _, by rw [pow_succ]; omega, rfl⟩
  rw [hunits]
  rcases Nat.le_total k j with hle | hle
  · obtain ⟨i, rfl⟩ := Nat.exists_eq_add_of_le hle
    obtain ⟨w, hw⟩ := exists_units hc (k + i)
    refine ⟨w, hw.trans ?_⟩
    rw [pow_add, mul_left_comm, Nat.mul_div_cancel_left _ (Nat.two_pow_pos k), mul_comm]
  · obtain ⟨i, rfl⟩ := Nat.exists_eq_add_of_le hle
    obtain ⟨w, hw⟩ := exists_units (c := c / 2 ^ i) ((Nat.div_le_self c _).trans_lt hc) (j + i)
    refine ⟨w, hw.trans ?_⟩
    rw [pow_add, mul_comm c, Nat.mul_div_mul_left _ _ (Nat.two_pow_pos j)]

theorem nearestEven_units (w : Nat) : nearestEven p (units p w) = w := by
  obtain ⟨e, m, hm, rfl⟩ := exists_fields p w
  rw [units_eq hm]
  split
  · next he =>
      subst he
      have hlog : Nat.log2 m - p = 0 := by
        by_cases hzero : m = 0
        · rw [hzero]
          simp
        · have := (Nat.log2_lt hzero).mpr hm
          omega
      rw [nearestEven, hlog]
      simp [Nat.mod_one]
  · next he =>
      obtain ⟨e, rfl⟩ : ∃ j, e = j + 1 := ⟨e - 1, by omega⟩
      have hlog : Nat.log2 ((m + 2 ^ p) * 2 ^ e) - p = e := by
        have hpos : (m + 2 ^ p) * 2 ^ e ≠ 0 := by positivity
        have heq : Nat.log2 ((m + 2 ^ p) * 2 ^ e) = p + e := by
          refine (Nat.log2_eq_iff hpos).mpr ⟨?_, ?_⟩
          · rw [pow_add]
            exact Nat.mul_le_mul_right _ (by omega)
          · rw [show p + e + 1 = (p + 1) + e by omega, pow_add, pow_succ]
            exact Nat.mul_lt_mul_of_pos_right (by omega) (Nat.two_pow_pos _)
        omega
      rw [Nat.add_sub_cancel, nearestEven, hlog]
      simp only [Nat.mul_div_cancel _ (Nat.two_pow_pos e), Nat.mul_mod_left]
      rw [if_neg (by have := Nat.two_pow_pos e; omega), add_mul]
      omega

end BinaryFormat
