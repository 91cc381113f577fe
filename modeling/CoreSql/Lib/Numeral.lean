import Mathlib.Algebra.Order.Ring.Nat
import Mathlib.Data.Nat.Digits.Defs
import Mathlib.Tactic.Linarith
import Mathlib.Tactic.Ring

/-!
# Numerals

A list of digits, the leading one first, and the number it stands for. Digits
appended shift a number up; digits cut off at the end are the rest of a
division by a power of the base, and the first of them says on which side of
one half this rest is.
-/

namespace Numeral

variable {b h : Nat} {l r : List Nat} {d : Nat}

def number (b : Nat) (l : List Nat) : Nat := Nat.ofDigits b l.reverse

@[simp] theorem number_nil : number b [] = 0 := rfl

theorem number_append : number b (l ++ r) = number b l * b ^ r.length + number b r := by
  rw [number, List.reverse_append, Nat.ofDigits_append, List.length_reverse, number, number]
  ring

theorem number_cons : number b (d :: l) = d * b ^ l.length + number b l := by
  rw [number, Nat.ofDigits_reverse_cons, number]
  ring

@[simp] theorem number_replicate_zero (k : Nat) : number b (List.replicate k 0) = 0 := by
  rw [number, List.reverse_replicate, Nat.ofDigits_replicate_zero]

theorem number_lt (hb : 1 < b) (h : ∀ d ∈ l, d < b) : number b l < b ^ l.length := by
  have hlt := Nat.ofDigits_lt_base_pow_length (b := b) (l := l.reverse) hb fun d hd =>
    h d (List.mem_reverse.mp hd)
  rwa [List.length_reverse] at hlt

theorem le_number (hd : d ≠ 0) : b ^ l.length ≤ number b (d :: l) := by
  rw [number_cons]
  exact Nat.le_add_right_of_le (Nat.le_mul_of_pos_left _ (Nat.pos_of_ne_zero hd))

theorem number_dropWhile_zero : number b (l.dropWhile (· == 0)) = number b l := by
  induction l with
  | nil => rfl
  | cons d l ih =>
    rw [List.dropWhile_cons]
    split
    · next hd => rw [ih, number_cons, beq_iff_eq.mp hd, Nat.zero_mul, Nat.zero_add]
    · rfl

theorem number_eq_zero_iff (hb : 0 < b) : number b l = 0 ↔ ∀ d ∈ l, d = 0 := by
  induction l with
  | nil => simp
  | cons d l ih =>
    rw [number_cons, Nat.add_eq_zero_iff, Nat.mul_eq_zero, ih, List.forall_mem_cons]
    simp [hb.ne']

theorem number_split (hb : 1 < b) (h : ∀ d ∈ l, d < b) (k : Nat) :
    number b (l.take k) = number b l / b ^ (l.drop k).length ∧
      number b (l.drop k) = number b l % b ^ (l.drop k).length := by
  have hlt : number b (l.drop k) < b ^ (l.drop k).length :=
    number_lt hb fun d hd => h d (List.mem_of_mem_drop hd)
  have hsplit : number b l = number b (l.take k) * b ^ (l.drop k).length + number b (l.drop k) := by
    rw [← number_append, List.take_append_drop]
  have hpos : 0 < b ^ (l.drop k).length := Nat.pow_pos (by omega)
  constructor
  · rw [hsplit, mul_comm, Nat.mul_add_div hpos, Nat.div_eq_of_lt hlt, Nat.add_zero]
  · rw [hsplit, mul_comm, Nat.mul_add_mod, Nat.mod_eq_of_lt hlt]

/-- The first digit tells on which side of one half the number is. -/
theorem half_le_iff (hb : b = 2 * h) (hpos : 0 < h) (hl : ∀ d ∈ l, d < b) :
    h ≤ d ↔ b ^ (l.length + 1) ≤ 2 * number b (d :: l) := by
  have hlt := number_lt (by omega) hl
  rw [number_cons, pow_succ]
  constructor
  · intro hd
    calc b ^ l.length * b = 2 * (h * b ^ l.length) := by rw [hb]; ring
      _ ≤ 2 * (d * b ^ l.length) := by gcongr
      _ ≤ 2 * (d * b ^ l.length + number b l) := by omega
  · intro hle
    by_contra hd
    have hup : 2 * ((d + 1) * b ^ l.length) ≤ b ^ l.length * b := by
      calc 2 * ((d + 1) * b ^ l.length) ≤ 2 * (h * b ^ l.length) := by gcongr; omega
        _ = b ^ l.length * b := by rw [hb]; ring
    rw [add_mul, one_mul] at hup
    omega

end Numeral
