import Mathlib.Data.Char
import Mathlib.Data.List.Basic
import Mathlib.Order.Basic

/-!
# UTF-8

The encoding of characters is the one of Lean's strings. What a decoder needs
to know is which bytes it can meet: one, two, three or four bytes in certain
ranges are the encoding of the character with the number they carry, and
every character has such an encoding.
-/

namespace Utf8

variable {t t' : List Char} {n : Nat}

def encode (t : List Char) : List UInt8 := t.flatMap String.utf8EncodeChar

@[simp] theorem encode_nil : encode [] = [] := rfl

theorem encode_cons (c : Char) (t : List Char) :
    encode (c :: t) = String.utf8EncodeChar c ++ encode t := List.flatMap_cons

@[simp] theorem encode_append (t t' : List Char) : encode (t ++ t') = encode t ++ encode t' :=
  List.flatMap_append

theorem encode_injective (h : encode t = encode t') : t = t' := by
  refine String.ofList_injective (String.toByteArray_inj.mp ?_)
  rw [String.toByteArray_ofList, String.toByteArray_ofList]
  exact congrArg List.toByteArray h

theorem forall_byte {P : UInt8 → Prop} (h : ∀ n < 256, P (UInt8.ofNat n)) (b : UInt8) : P b := by
  have := h b.toNat b.toNat_lt
  rwa [UInt8.ofNat_toNat] at this

theorem val_ofNat (h : n.isValidChar) : (Char.ofNat n).val.toNat = n := by
  rw [Char.ofNat, dif_pos h]
  rfl

theorem encodeChar_ascii {c : Char} (h : c.toNat < 128) :
    String.utf8EncodeChar c = [UInt8.ofNat c.toNat] :=
  if_pos (Nat.le_of_lt_succ h)

theorem encodeChar_one {a : UInt8} (ha : a.toNat < 128) :
    String.utf8EncodeChar (Char.ofNat a.toNat) = [a] := by
  have hv : (Char.ofNat a.toNat).toNat = a.toNat := val_ofNat (.inl (by omega))
  rw [encodeChar_ascii (hv.symm ▸ ha), hv, UInt8.ofNat_toNat]

section

variable {a b c d : UInt8} {n v : Nat}

theorem ofNat_eq (h : n = a.toNat) : UInt8.ofNat n = a := by
  rw [h, UInt8.ofNat_toNat]

theorem encodeChar_two (ha : 0xc2 ≤ a.toNat ∧ a.toNat ≤ 0xdf) (hb : 128 ≤ b.toNat ∧ b.toNat < 192) :
    String.utf8EncodeChar (Char.ofNat ((a.toNat - 192) * 64 + (b.toNat - 128))) = [a, b] := by
  have hv := val_ofNat (n := (a.toNat - 192) * 64 + (b.toNat - 128)) (.inl (by omega))
  rw [String.utf8EncodeChar, hv, if_neg (by omega), if_pos (by omega),
    ofNat_eq (a := a) (by omega), ofNat_eq (a := b) (by omega)]

theorem encodeChar_three (hv : v = (a.toNat - 224) * 4096 + (b.toNat - 128) * 64 +
      (c.toNat - 128)) (ha : 0xe0 ≤ a.toNat ∧ a.toNat ≤ 0xef) (hb : 128 ≤ b.toNat ∧ b.toNat < 192)
    (hc : 128 ≤ c.toNat ∧ c.toNat < 192) (hlow : 0x800 ≤ v) (hvalid : v.isValidChar) :
    String.utf8EncodeChar (Char.ofNat v) = [a, b, c] := by
  rw [String.utf8EncodeChar, val_ofNat hvalid, if_neg (by omega), if_neg (by omega),
    if_pos (by omega), ofNat_eq (a := a) (by omega), ofNat_eq (a := b) (by omega),
    ofNat_eq (a := c) (by omega)]

theorem encodeChar_four (hv : v = (a.toNat - 240) * 262144 + (b.toNat - 128) * 4096 +
      (c.toNat - 128) * 64 + (d.toNat - 128)) (ha : 0xf0 ≤ a.toNat ∧ a.toNat ≤ 0xf4)
    (hb : 128 ≤ b.toNat ∧ b.toNat < 192) (hc : 128 ≤ c.toNat ∧ c.toNat < 192)
    (hd : 128 ≤ d.toNat ∧ d.toNat < 192) (hlow : 0x10000 ≤ v) (hvalid : v.isValidChar) :
    String.utf8EncodeChar (Char.ofNat v) = [a, b, c, d] := by
  rw [String.utf8EncodeChar, val_ofNat hvalid, if_neg (by omega), if_neg (by omega),
    if_neg (by omega), ofNat_eq (a := a) (by omega), ofNat_eq (a := b) (by omega),
    ofNat_eq (a := c) (by omega), ofNat_eq (a := d) (by omega)]

end

inductive Form (v : Nat) : List UInt8 → Prop where
  | one {a : UInt8} (ha : a.toNat = v) (hv : v < 128) : Form v [a]
  | two {a b : UInt8} (ha : a.toNat = v / 64 + 192) (hb : b.toNat = v % 64 + 128)
      (hv : 0x80 ≤ v ∧ v < 0x800) : Form v [a, b]
  | three {a b c : UInt8} (ha : a.toNat = v / 4096 + 224) (hb : b.toNat = v / 64 % 64 + 128)
      (hc : c.toNat = v % 64 + 128) (hv : 0x800 ≤ v ∧ v < 0x10000) : Form v [a, b, c]
  | four {a b c d : UInt8} (ha : a.toNat = v / 262144 + 240) (hb : b.toNat = v / 4096 % 64 + 128)
      (hc : c.toNat = v / 64 % 64 + 128) (hd : d.toNat = v % 64 + 128)
      (hv : 0x10000 ≤ v ∧ v < 0x110000) : Form v [a, b, c, d]

theorem toNat_ofNat (h : n < 256) : (UInt8.ofNat n).toNat = n := by
  rw [UInt8.toNat_ofNat', Nat.mod_eq_of_lt h]

theorem form (c : Char) : Form c.toNat (String.utf8EncodeChar c) := by
  have hlt : c.toNat < 0x110000 := by
    rcases c.valid with h | h
    · exact Nat.lt_trans h (by decide)
    · exact h.2
  rw [String.utf8EncodeChar, show c.val.toNat = c.toNat from rfl]
  generalize c.toNat = v at hlt ⊢
  split
  · exact .one (toNat_ofNat (by omega)) (by omega)
  split
  · exact .two ((toNat_ofNat (by omega)).trans (by omega)) (toNat_ofNat (by omega)) (by omega)
  split
  · exact .three ((toNat_ofNat (by omega)).trans (by omega)) (toNat_ofNat (by omega))
      (toNat_ofNat (by omega)) (by omega)
  · exact .four ((toNat_ofNat (by omega)).trans (by omega)) (toNat_ofNat (by omega))
      (toNat_ofNat (by omega)) (toNat_ofNat (by omega)) (by omega)

theorem encodeChar_cons (c : Char) : ∃ a s, String.utf8EncodeChar c = a :: s := by
  have hform := form c
  generalize String.utf8EncodeChar c = bytes at hform ⊢
  cases hform <;> exact ⟨_, _, rfl⟩

end Utf8
