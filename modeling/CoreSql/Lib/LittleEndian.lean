import Mathlib.Algebra.Order.Ring.Nat
import Mathlib.Data.List.Basic
import Mathlib.Tactic.Common

/-!
# Numbers as bytes

The low bytes of a number, least significant first, and the number some
bytes stand for. Writing and reading are inverse up to the width.
-/

namespace LittleEndian

/-- The `k` low bytes of a number. -/
def encode : Nat → Nat → List UInt8
  | 0, _ => []
  | k + 1, n => UInt8.ofNat n :: encode k (n / 256)

def decode : List UInt8 → Nat
  | [] => 0
  | b :: rest => b.toNat + 256 * decode rest

@[simp] theorem length_encode (k n : Nat) : (encode k n).length = k := by
  induction k generalizing n with
  | zero => rfl
  | succ k ih => rw [encode, List.length_cons, ih]

theorem decode_encode (k n : Nat) : decode (encode k n) = n % 256 ^ k := by
  induction k generalizing n with
  | zero => rw [encode, decode, Nat.pow_zero, Nat.mod_one]
  | succ k ih =>
    rw [encode, decode, ih, Nat.pow_succ', Nat.mod_mul]
    rfl

theorem decode_lt (l : List UInt8) : decode l < 256 ^ l.length := by
  induction l with
  | nil => exact Nat.one_pos
  | cons b rest ih =>
    have hb : b.toNat < 256 := b.toNat_lt
    rw [decode, List.length_cons, Nat.pow_succ']
    omega

theorem encode_decode (l : List UInt8) : encode l.length (decode l) = l := by
  induction l with
  | nil => rfl
  | cons b rest ih =>
    have hb : b.toNat < 256 := b.toNat_lt
    have hlow : UInt8.ofNat (b.toNat + 256 * decode rest) = b :=
      UInt8.toNat.inj (by rw [UInt8.toNat_ofNat']; omega)
    rw [List.length_cons, decode, encode, hlow, show (b.toNat + 256 * decode rest) / 256 =
      decode rest by omega, ih]

theorem decode_injective {l l' : List UInt8} (hlength : l.length = l'.length)
    (h : decode l = decode l') : l = l' := by
  rw [← encode_decode l, h, hlength, encode_decode]

end LittleEndian
