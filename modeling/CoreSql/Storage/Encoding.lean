import CoreSql.Basic
import CoreSql.Lib.Decoder
import CoreSql.Lib.LittleEndian
import Mathlib.Tactic.NormNum

/-!
# Bytes on disk

`encoding.hpp`: every number that is stored is eight bytes, least significant
first, and a `Reader` takes bytes off the front of a view. The checksum is
FNV-1a, which every stored format ends with and which proves nothing: whoever
can write the bytes can write the checksum.
-/

namespace CoreSql

def u64 (n : Nat) : Bytes := LittleEndian.encode 8 n

/-- `std::bit_cast<std::uint64_t>` of an integer. -/
def toWord (i : Int) : Nat := (i % 2 ^ 64).toNat

/-- `std::bit_cast<std::int64_t>`. -/
def ofWord (n : Nat) : Int := Int.bmod n (2 ^ 64)

abbrev Reader := Decoder Error UInt8

namespace Reader

def take (n : Nat) : Reader Bytes := Decoder.take ⟨.format, lit "Truncated encoded value"⟩ n

def u64 : Reader Nat := do
  let data ← take 8
  return LittleEndian.decode data

/-- `end`. -/
def finish : Reader Unit := Decoder.finish ⟨.format, lit "Unexpected trailing bytes"⟩

/-- `if (!condition) throw Error(ErrorCode::format, "...")`. -/
def check (c : Prop) [Decidable c] (message : String) : Reader Unit :=
  Decoder.check c ⟨.format, lit message⟩

end Reader

def fnvOffset : UInt64 := 14695981039346656037

def checksum (bytes : Bytes) : UInt64 :=
  bytes.foldl (fun hash byte => (hash ^^^ byte.toUInt64) * 1099511628211) fnvOffset

/-! ## What is read back -/

@[simp] theorem length_u64 (n : Nat) : (u64 n).length = 8 := LittleEndian.length_encode 8 n

theorem u64_reads {n : Nat} (h : n < 2 ^ 64) : Decoder.Reads Reader.u64 (u64 n) n := by
  have hdecode : LittleEndian.decode (u64 n) = n := by
    have hsize : 256 ^ 8 = 2 ^ 64 := by norm_num
    rw [u64, LittleEndian.decode_encode, hsize, Nat.mod_eq_of_lt h]
  have htake : Decoder.Reads (Reader.take 8) (u64 n) (u64 n) := by
    have : Decoder.Reads (Reader.take (u64 n).length) (u64 n) (u64 n) := Decoder.reads_take
    rwa [length_u64] at this
  intro rest
  rw [Reader.u64, Decoder.bind_of_ok (htake rest), hdecode, Decoder.pure_apply]

theorem u64_eq_ok {l rest : Bytes} {n : Nat} (h : Reader.u64 l = .ok (n, rest)) :
    ∃ front, front.length = 8 ∧ l = front ++ rest ∧ n = LittleEndian.decode front ∧ n < 2 ^ 64 := by
  obtain ⟨front, mid, htake, hn⟩ := Decoder.bind_eq_ok.mp h
  obtain ⟨hlen, hl⟩ := Decoder.take_eq_ok.mp htake
  rw [Decoder.pure_apply] at hn
  cases hn
  have hlt := LittleEndian.decode_lt front
  have hsize : 256 ^ 8 = 2 ^ 64 := by norm_num
  rw [hlen, hsize] at hlt
  exact ⟨front, hlen, hl, rfl, hlt⟩

theorem toWord_lt (i : Int) : toWord i < 2 ^ 64 := by
  rw [toWord]
  have := Int.emod_lt_of_pos i (show (0 : Int) < 2 ^ 64 by norm_num)
  have := Int.emod_nonneg i (show (2 ^ 64 : Int) ≠ 0 by norm_num)
  omega

theorem cast_toWord (i : Int) : (toWord i : Int) = i % ((2 ^ 64 : Nat) : Int) := by
  rw [toWord, Int.toNat_of_nonneg (Int.emod_nonneg i (by norm_num))]
  norm_num

theorem ofWord_toWord {i : Int} (hlo : -2 ^ 63 ≤ i) (hhi : i < 2 ^ 63) : ofWord (toWord i) = i :=
  calc ofWord (toWord i) = Int.bmod (i % ((2 ^ 64 : Nat) : Int)) (2 ^ 64) :=
        congrArg (fun x : Int => x.bmod (2 ^ 64)) (cast_toWord i)
    _ = Int.bmod i (2 ^ 64) := Int.emod_bmod i (2 ^ 64)
    _ = i := Int.bmod_eq_of_le (by norm_num; omega) (by norm_num; omega)

end CoreSql
