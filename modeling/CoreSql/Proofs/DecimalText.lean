import Mathlib.Algebra.Order.Field.Basic
import CoreSql.Lib.Numeral
import CoreSql.Proofs.Decimal

/-!
# Decimals as text

The grammar of a decimal text is a sign, digits with at most one point among
them, and an exponent; a spelling stands for a rational. `digits` accepts
exactly the spellings of at most 256 characters whose exponent is at most 1000,
and returns their digits without leading zeros.

Parsing moves the point to the scale of the target. With rounding the result is
the nearest decimal, the one further from zero of two; without, a spelling that
is no multiple of the last place is refused.
-/

namespace CoreSql.Decimals

open Fallible

variable {rest s ds : Bytes} {l : List (Fin 10)} {k m i p : Nat} {n e : Int} {f : Format} {y : ℚ}
  {point negative : Bool}

/-! ## Spellings -/

def digitChar (d : Fin 10) : UInt8 := UInt8.ofNat (48 + d)

def chars (l : List (Fin 10)) : Bytes := l.map digitChar

def numberOf (l : List (Fin 10)) : Nat := Numeral.number 10 (l.map Fin.val)

/-- A sign, written or not; `true` is a minus. -/
def signText : Option Bool → Bytes
  | none => []
  | some negative => [if negative then 45 else 43]

structure Exponent where
  capital : Bool
  sign : Option Bool
  digits : List (Fin 10)
  nonempty : digits ≠ []

def Exponent.text (e : Exponent) : Bytes :=
  (if e.capital then 69 else 101) :: (signText e.sign ++ chars e.digits)

def Exponent.power (e : Exponent) : Int :=
  if e.sign == some true then -(numberOf e.digits) else numberOf e.digits

/-- The spelling of a decimal; without a point there is no fraction. -/
structure Spelling where
  sign : Option Bool
  whole : List (Fin 10)
  fraction : Option (List (Fin 10))
  exponent : Option Exponent
  nonempty : whole ++ fraction.getD [] ≠ []

namespace Spelling

def digits (w : Spelling) : List (Fin 10) := w.whole ++ w.fraction.getD []

def pointText : Option (List (Fin 10)) → Bytes
  | none => []
  | some fraction => 46 :: chars fraction

def exponentText : Option Exponent → Bytes
  | none => []
  | some e => e.text

def text (w : Spelling) : Bytes :=
  signText w.sign ++ (chars w.whole ++ (pointText w.fraction ++ exponentText w.exponent))

def power (w : Spelling) : Int := (w.exponent.map Exponent.power).getD 0

/-- The number of digits behind the point, once the exponent has moved it. -/
def scale (w : Spelling) : Int := (w.fraction.getD []).length - w.power

def amount (w : Spelling) : ℚ :=
  (if w.sign == some true then -1 else 1) * numberOf w.digits * (10 : ℚ) ^ (-w.scale)

structure Admitted (w : Spelling) : Prop where
  length_le : w.text.length ≤ 256
  power_le : |w.power| ≤ 1000

end Spelling

theorem isDigit_digitChar (d : Fin 10) : isDigit (digitChar d) = true := by
  revert d
  decide

theorem toNat_digitChar (d : Fin 10) : (digitChar d).toNat - 48 = d := by
  revert d
  decide

theorem digitChar_ne_point (d : Fin 10) : digitChar d ≠ 46 := by
  revert d
  decide

theorem digitChar_ne_sign (d : Fin 10) : digitChar d ≠ 43 ∧ digitChar d ≠ 45 := by
  revert d
  decide

theorem digitChar_beq_zero (d : Fin 10) : (digitChar d == 48) = (d.val == 0) := by
  revert d
  decide

theorem exists_digitChar {c : UInt8} (h : isDigit c = true) : ∃ d, digitChar d = c := by
  have hle : 48 ≤ c.toNat ∧ c.toNat ≤ 57 := by
    simpa [isDigit, UInt8.le_iff_toNat_le] using h
  refine ⟨⟨c.toNat - 48, by omega⟩, ?_⟩
  rw [digitChar]
  exact UInt8.toNat.inj (by simp; omega)

/-! ## What the scanner accepts -/

def Stops (rest : Bytes) : Prop := ∀ c ∈ rest.head?, isDigit c = false

theorem scanDigits_stop (h : Stops rest)
    (hpoint : point = false → rest.head? ≠ some 46) : scanDigits point rest = ([], 0, rest) := by
  cases rest with
  | nil => rfl
  | cons c rest =>
    have hc : isDigit c = false := h c rfl
    have hne : ¬(c = 46 ∧ point = false) := fun ⟨hc', hp⟩ => hpoint hp (by rw [hc']; rfl)
    rw [scanDigits, if_neg hne, hc]
    rfl

theorem scanDigits_chars (point : Bool) (l : List (Fin 10)) (rest : Bytes) :
    scanDigits point (chars l ++ rest) = let r := scanDigits point rest
      (chars l ++ r.1, (if point then l.length else 0) + r.2.1, r.2.2) := by
  induction l with
  | nil => simp [chars]
  | cons d l ih =>
    rw [chars, List.map_cons, List.cons_append, scanDigits,
      if_neg (fun h => digitChar_ne_point d h.1), isDigit_digitChar, ← chars, ih]
    cases point with
    | false => rfl
    | true =>
      simp only [Bool.not_true, Bool.false_eq_true, if_false, if_true, List.length_cons,
        List.cons_append, Prod.mk.injEq, true_and, and_true]
      omega

theorem scanDigits_spelled (whole : List (Fin 10)) (fraction : Option (List (Fin 10)))
    (h : Stops rest) (hpoint : fraction = none → rest.head? ≠ some 46) :
    scanDigits false (chars whole ++ (Spelling.pointText fraction ++ rest)) =
      (chars (whole ++ fraction.getD []), (fraction.getD []).length, rest) := by
  rw [scanDigits_chars]
  cases fraction with
  | none => simp [Spelling.pointText, scanDigits_stop h fun _ => hpoint rfl]
  | some fraction =>
    rw [Spelling.pointText, List.cons_append, scanDigits, if_pos ⟨rfl, rfl⟩, scanDigits_chars,
      scanDigits_stop h (by simp)]
    simp [chars]

theorem scanSign_text (sign : Option Bool) (h : sign = none → ∀ c ∈ rest.head?, c ≠ 43 ∧ c ≠ 45) :
    scanSign (signText sign ++ rest) = (sign == some true, rest) := by
  cases sign with
  | none =>
    cases rest with
    | nil => rfl
    | cons c rest =>
      obtain ⟨h1, h2⟩ := h rfl c rfl
      simp [signText, scanSign, h1, h2]
  | some negative => cases negative <;> rfl

/-- A run of digits in an exponent is read, or refused once it is too large. -/
theorem scanExponent_chars (l : List (Fin 10)) (h : Stops rest) {n : Nat}
    (hn : n ≤ 1000) : scanExponent n (chars l ++ rest) =
      if n * 10 ^ l.length + numberOf l ≤ 1000 then .ok (n * 10 ^ l.length + numberOf l, rest)
      else overflow := by
  induction l generalizing n with
  | nil =>
    simp only [chars, List.map_nil, List.nil_append, List.length_nil, pow_zero, mul_one, numberOf,
      Numeral.number_nil, Nat.add_zero, if_pos hn]
    cases rest with
    | nil => rfl
    | cons c rest =>
      rw [scanExponent, show isDigit c = false from h c rfl]
      rfl
  | cons d l ih =>
    have hnumber : n * 10 ^ (d :: l).length + numberOf (d :: l) =
        (n * 10 + d) * 10 ^ l.length + numberOf l := by
      rw [numberOf, List.map_cons, Numeral.number_cons, List.length_map, List.length_cons, pow_succ,
        numberOf]
      ring
    rw [hnumber, chars, List.map_cons, List.cons_append, scanExponent, isDigit_digitChar,
      toNat_digitChar, ← chars]
    simp only [Bool.not_true, Bool.false_eq_true, if_false]
    by_cases hd : 1000 < n * 10 + d
    · have hle : n * 10 + d ≤ (n * 10 + d) * 10 ^ l.length :=
        Nat.le_mul_of_pos_right _ (Nat.pow_pos (by norm_num))
      rw [if_pos hd, if_neg (by omega)]
    · rw [if_neg hd, ih (by omega)]

theorem head_chars_ne_sign
    (h : ∀ c ∈ rest.head?, c ≠ 43 ∧ c ≠ 45) : ∀ c ∈ (chars l ++ rest).head?, c ≠ 43 ∧ c ≠ 45 := by
  cases l with
  | nil => exact h
  | cons d l =>
    intro c hc
    obtain rfl : digitChar d = c := by simpa [chars] using hc
    exact digitChar_ne_sign d

theorem scanMarker_text (e : Option Exponent) : scanMarker (Spelling.exponentText e) =
      if |(e.map Exponent.power).getD 0| ≤ 1000 then .ok (-(e.map Exponent.power).getD 0, [])
      else overflow := by
  cases e with
  | none => rfl
  | some e =>
    have hcapital : ∀ b : Bool, (if b then (69 : UInt8) else 101) = 101 ∨
        (if b then (69 : UInt8) else 101) = 69 := by decide
    have hstart : (chars e.digits).length ≠ 0 := by
      simpa [chars] using e.nonempty
    have hsign : scanSign (signText e.sign ++ (chars e.digits ++ [])) = _ :=
      scanSign_text e.sign fun _ => head_chars_ne_sign (by simp)
    have habs : |e.power| = numberOf e.digits := by
      rw [Exponent.power]
      split
      · rw [abs_neg, Nat.abs_cast]
      · rw [Nat.abs_cast]
    have hread : scanExponent 0 (chars e.digits ++ []) = _ :=
      scanExponent_chars e.digits (by simp [Stops]) (Nat.zero_le 1000)
    rw [Nat.zero_mul, Nat.zero_add] at hread
    rw [List.append_nil] at hsign hread
    rw [Spelling.exponentText, Exponent.text, scanMarker, if_pos (hcapital _), hsign]
    simp only [Option.map_some, Option.getD_some, habs]
    rw [hread]
    by_cases hle : numberOf e.digits ≤ 1000
    · rw [if_pos hle, if_pos (by exact_mod_cast hle), ok_bind, List.length_nil,
        if_neg hstart.symm, Exponent.power]
      split
      · rw [neg_neg]
        rfl
      · rfl
    · rw [if_neg hle, if_neg (by exact_mod_cast hle)]
      rfl

theorem stops_exponentText (e : Option Exponent) : Stops (Spelling.exponentText e) ∧
    (Spelling.exponentText e).head? ≠ some 46 := by
  cases e with
  | none => exact ⟨by simp [Stops, Spelling.exponentText], by simp [Spelling.exponentText]⟩
  | some e =>
    have hchars : ∀ b : Bool, isDigit (if b then 69 else 101) = false ∧
        (if b then (69 : UInt8) else 101) ≠ 46 := by decide
    refine ⟨fun c hc => ?_, ?_⟩
    · obtain rfl := Option.mem_some_iff.mp hc
      exact (hchars e.capital).1
    · exact fun h => (hchars e.capital).2 (Option.some.inj h)

namespace Spelling

variable {w : Spelling}

/-- What `digits` makes of a spelling. -/
def read (w : Spelling) : Digits := ⟨stripZeros (chars w.digits), w.scale, w.sign == some true⟩

theorem head_text_ne_sign (w : Spelling) :
    ∀ c ∈ (chars w.whole ++ (pointText w.fraction ++ exponentText w.exponent)).head?,
      c ≠ 43 ∧ c ≠ 45 := by
  refine head_chars_ne_sign fun c hc => ?_
  cases hf : w.fraction with
  | none =>
    rw [hf] at hc
    cases he : w.exponent with
    | none =>
      rw [he] at hc
      simp [pointText, exponentText] at hc
    | some e =>
      rw [he] at hc
      obtain rfl := Option.mem_some_iff.mp hc
      cases e.capital <;> decide
  | some fraction =>
    rw [hf] at hc
    obtain rfl := Option.mem_some_iff.mp hc
    decide

theorem text_ne_nil (w : Spelling) : w.text ≠ [] := by
  intro h
  have hnil := w.nonempty
  rw [text] at h
  simp only [List.append_eq_nil_iff] at h
  obtain ⟨-, hwhole, hpoint, -⟩ := h
  cases hf : w.fraction with
  | none =>
    rw [hf, Option.getD_none, List.append_nil] at hnil
    exact hnil (List.map_eq_nil_iff.mp hwhole)
  | some fraction =>
    rw [hf] at hpoint
    cases hpoint

theorem Admitted.digits_text (h : w.Admitted) : Decimals.digits w.text = .ok w.read := by
  obtain ⟨hstops, hpoint⟩ := stops_exponentText w.exponent
  have hchars : chars (w.whole ++ w.fraction.getD []) ≠ [] := by
    simpa [chars] using w.nonempty
  have hlength := h.length_le
  have hpower := h.power_le
  rw [power] at hpower
  rw [Decimals.digits, if_neg (by simp [w.text_ne_nil]; omega), text,
    scanSign_text w.sign fun _ => w.head_text_ne_sign]
  simp only [scanDigits_spelled w.whole w.fraction hstops fun _ => hpoint]
  rw [if_neg hchars, scanMarker_text, if_pos hpower]
  rfl

end Spelling

/-! ## Only spellings are accepted -/

theorem scanDigits_true_eq (h : scanDigits true s = (ds, k, rest)) :
    ∃ l, s = chars l ++ rest ∧ ds = chars l ∧ k = l.length := by
  induction s generalizing ds k with
  | nil =>
    cases h
    exact ⟨[], rfl, rfl, rfl⟩
  | cons c s ih =>
    rw [scanDigits, if_neg (by simp)] at h
    cases hc : isDigit c with
    | false =>
      rw [hc] at h
      cases h
      exact ⟨[], rfl, rfl, rfl⟩
    | true =>
      rw [hc] at h
      cases h
      obtain ⟨d, rfl⟩ := exists_digitChar hc
      obtain ⟨l, hs, hds, hk⟩ := ih rfl
      refine ⟨d :: l, ?_, ?_, ?_⟩
      · rw [chars, List.map_cons, List.cons_append, ← chars, ← hs]
      · rw [hds]
        rfl
      · rw [hk]
        rfl

theorem scanDigits_false_eq (h : scanDigits false s = (ds, k, rest)) :
    ∃ whole fraction, s = chars whole ++ (Spelling.pointText fraction ++ rest) ∧
      ds = chars (whole ++ fraction.getD []) := by
  induction s generalizing ds k with
  | nil =>
    cases h
    exact ⟨[], none, rfl, rfl⟩
  | cons c s ih =>
    rw [scanDigits] at h
    by_cases hpoint : c = 46
    · rw [if_pos ⟨hpoint, rfl⟩] at h
      obtain ⟨l, hs, hds, -⟩ := scanDigits_true_eq h
      refine ⟨[], some l, ?_, hds⟩
      rw [hpoint, hs]
      rfl
    · rw [if_neg (fun h => hpoint h.1)] at h
      cases hc : isDigit c with
      | false =>
        rw [hc] at h
        cases h
        exact ⟨[], none, rfl, rfl⟩
      | true =>
        rw [hc] at h
        cases h
        obtain ⟨d, rfl⟩ := exists_digitChar hc
        obtain ⟨whole, fraction, hs, hds⟩ := ih rfl
        refine ⟨d :: whole, fraction, ?_, ?_⟩
        · rw [chars, List.map_cons, List.cons_append, ← chars, ← hs]
        · rw [hds]
          rfl

theorem scanExponent_eq_ok {n : Nat} (h : scanExponent n s = .ok (m, rest)) :
    ∃ l, s = chars l ++ rest := by
  induction s generalizing n with
  | nil =>
    cases h
    exact ⟨[], rfl⟩
  | cons c s ih =>
    rw [scanExponent] at h
    cases hc : isDigit c with
    | false =>
      rw [hc] at h
      cases h
      exact ⟨[], rfl⟩
    | true =>
      rw [hc] at h
      obtain ⟨d, rfl⟩ := exists_digitChar hc
      simp only [Bool.not_true, Bool.false_eq_true, if_false] at h
      split at h
      · cases h
      · obtain ⟨l, hs⟩ := ih h
        exact ⟨d :: l, by rw [chars, List.map_cons, List.cons_append, ← chars, ← hs]⟩

theorem scanSign_eq (s : Bytes) : ∃ sign, s = signText sign ++ (scanSign s).2 := by
  cases s with
  | nil => exact ⟨none, rfl⟩
  | cons c s =>
    rw [scanSign]
    split
    · next hc =>
        rcases hc with rfl | rfl
        · exact ⟨some false, rfl⟩
        · exact ⟨some true, rfl⟩
    · exact ⟨none, rfl⟩

theorem scanMarker_eq_ok {m : Int} (h : scanMarker s = .ok (m, [])) :
    ∃ e, s = Spelling.exponentText e := by
  cases s with
  | nil => exact ⟨none, rfl⟩
  | cons c s =>
    rw [scanMarker] at h
    split at h
    · next hc =>
        obtain ⟨sign, hsign⟩ := scanSign_eq s
        generalize scanSign s = signed at h hsign
        obtain ⟨negative, start⟩ := signed
        obtain ⟨⟨exponent, others⟩, hread, hrest⟩ := bind_eq_ok.mp h
        obtain ⟨l, hl⟩ := scanExponent_eq_ok hread
        simp only at hrest hsign
        split at hrest
        · cases hrest
        next hne =>
        cases hrest
        rw [List.append_nil] at hl
        have hnil : l ≠ [] := by
          rintro rfl
          rw [hl] at hne
          exact hne rfl
        refine ⟨some ⟨c = 69, sign, l, hnil⟩, ?_⟩
        rw [Spelling.exponentText, Exponent.text, hsign, hl]
        rcases hc with rfl | rfl
        · rfl
        · rfl
    · cases h

theorem digits_eq_ok_iff : (∃ d, digits s = .ok d) ↔ ∃ w : Spelling, w.text = s ∧ w.Admitted := by
  constructor
  · rintro ⟨d, h⟩
    rw [digits] at h
    split at h
    · cases h
    next hlength =>
    obtain ⟨sign, hsign⟩ := scanSign_eq s
    obtain ⟨whole, fraction, hscan, hfound⟩ := scanDigits_false_eq (s := (scanSign s).2) rfl
    simp only at h
    split at h
    · cases h
    next hdigits =>
    obtain ⟨⟨exponent, rest⟩, hmarker, h⟩ := bind_eq_ok.mp h
    simp only at h
    split at h
    · cases h
    next hrest =>
    obtain rfl : rest = [] := by simpa using hrest
    obtain ⟨e, he⟩ := scanMarker_eq_ok hmarker
    have hnonempty : whole ++ fraction.getD [] ≠ [] := by
      intro hnil
      rw [hfound, hnil] at hdigits
      exact hdigits rfl
    have htext : Spelling.text ⟨sign, whole, fraction, e, hnonempty⟩ = s := by
      rw [Spelling.text, ← he, ← hscan, ← hsign]
    refine ⟨⟨sign, whole, fraction, e, hnonempty⟩, htext, ?_, ?_⟩
    · rw [htext]
      omega
    · rw [he, scanMarker_text] at hmarker
      by_contra hbig
      rw [Spelling.power] at hbig
      rw [if_neg hbig] at hmarker
      cases hmarker
  · rintro ⟨w, rfl, hw⟩
    exact ⟨_, hw.digits_text⟩

/-! ## Digits and their number -/

/-- Digits without leading zeros, a single zero apart. -/
def Stripped (l : List (Fin 10)) : Prop := l = [0] ∨ ∃ d r, l = d :: r ∧ d ≠ 0

/-- `stripZeros`, on digits. -/
def strip (l : List (Fin 10)) : List (Fin 10) :=
  match l.dropWhile (·.val == 0) with
  | [] => [0]
  | stripped => stripped

theorem stripZeros_chars (l : List (Fin 10)) : stripZeros (chars l) = chars (strip l) := by
  have hdrop : (chars l).dropWhile (· == 48) = chars (l.dropWhile (·.val == 0)) := by
    rw [chars, List.dropWhile_map]
    simp only [Function.comp_def, digitChar_beq_zero]
    rfl
  rw [stripZeros, hdrop, strip]
  cases l.dropWhile (·.val == 0) with
  | nil => rfl
  | cons d r => rfl

theorem stripped_strip (l : List (Fin 10)) : Stripped (strip l) := by
  rw [strip]
  cases h : l.dropWhile (·.val == 0) with
  | nil => exact .inl rfl
  | cons d r =>
    refine .inr ⟨d, r, rfl, ?_⟩
    rintro rfl
    have hhead := List.head?_dropWhile_not (fun d : Fin 10 => d.val == 0) l
    simp [h] at hhead

theorem numberOf_strip (l : List (Fin 10)) : numberOf (strip l) = numberOf l := by
  have hdrop : numberOf (l.dropWhile (·.val == 0)) = numberOf l := by
    have hzero := Numeral.number_dropWhile_zero (b := 10) (l := l.map Fin.val)
    rwa [List.dropWhile_map] at hzero
  rw [strip, ← hdrop]
  cases l.dropWhile (·.val == 0) with
  | nil => rfl
  | cons d r => rfl

theorem numberOf_lt (l : List (Fin 10)) : numberOf l < 10 ^ l.length := by
  have hlt := Numeral.number_lt (b := 10) (l := l.map Fin.val) (by norm_num) (by simp)
  rwa [List.length_map] at hlt

theorem numberOf_append (l r : List (Fin 10)) :
    numberOf (l ++ r) = numberOf l * 10 ^ r.length + numberOf r := by
  rw [numberOf, List.map_append, Numeral.number_append, List.length_map, numberOf, numberOf]

theorem numberOf_cons (d : Fin 10) (l : List (Fin 10)) :
    numberOf (d :: l) = d * 10 ^ l.length + numberOf l := by
  rw [numberOf, List.map_cons, Numeral.number_cons, List.length_map, numberOf]

theorem le_numberOf {d : Fin 10} (hd : d ≠ 0) (l : List (Fin 10)) :
    10 ^ l.length ≤ numberOf (d :: l) := by
  have hle := Numeral.le_number (b := 10) (l := l.map Fin.val) (d := d.val)
    (Fin.val_ne_zero_iff.mpr hd)
  rwa [List.length_map] at hle

theorem Stripped.eq_zero (h : Stripped l) : numberOf l = 0 ↔ l = [0] := by
  constructor
  · intro hzero
    rcases h with h | ⟨d, r, rfl, hd⟩
    · exact h
    · have := le_numberOf hd r
      have := Nat.pow_pos (n := r.length) (show 0 < 10 by norm_num)
      omega
  · rintro rfl
    rfl

/-! ## Parsing -/

def signed (negative : Bool) (n : Nat) : Int := if negative then -n else n

theorem abs_signed (negative : Bool) (n : Nat) : |signed negative n| = n := by
  cases negative with
  | false => exact Nat.abs_cast n
  | true => exact (abs_neg _).trans (Nat.abs_cast n)

theorem foldl_wide (l : List (Fin 10)) {n : Nat} (h : n * 10 ^ l.length + numberOf l ≤ 10 ^ 38) :
    (chars l).foldl (fun n c => wide (n * 10 + (c.toNat - 48 : Nat))) (n : Int) =
      (n * 10 ^ l.length + numberOf l : Nat) := by
  induction l generalizing n with
  | nil => simp [chars, numberOf]
  | cons d l ih =>
    have hnumber : n * 10 ^ (d :: l).length + numberOf (d :: l) =
        (n * 10 + d) * 10 ^ l.length + numberOf l := by
      rw [numberOf_cons, List.length_cons, pow_succ]
      ring
    rw [hnumber] at h ⊢
    have hle : n * 10 + d ≤ (n * 10 + d) * 10 ^ l.length :=
      Nat.le_mul_of_pos_right _ (Nat.pow_pos (by norm_num))
    have hwide : wide ((n : Int) * 10 + (d.val : Nat)) = (n * 10 + d : Nat) := by
      rw [wide_of_abs_le]
      · push_cast
        rfl
      · rw [abs_of_nonneg (by positivity)]
        omega
    rw [chars, List.map_cons, List.foldl_cons, toNat_digitChar, hwide, ← chars]
    exact ih h

theorem assemble_chars (ht : formatOf t = .ok f) (negative : Bool)
    (hfirst : f.precision < l.length → 10 ^ f.precision ≤ numberOf l) (up : Bool) :
    assemble t f.precision negative (chars l) up =
      value (signed negative (numberOf l + up.toNat)) t := by
  have hp := (formatOf_valid ht).bounded
  have hlength : (chars l).length = l.length := List.length_map _
  rw [assemble, hlength]
  split
  · next hlt =>
      refine (value_of_le ht ?_).symm
      rw [abs_signed]
      exact_mod_cast Nat.le_add_right_of_le (hfirst hlt)
  · next hle =>
      have hsmall : numberOf l < 10 ^ 38 :=
        (numberOf_lt l).trans_le (Nat.pow_le_pow_right (by norm_num) (by omega))
      have hread := foldl_wide l (n := 0) (by omega)
      rw [Nat.zero_mul, Nat.zero_add] at hread
      have hup : (if up = true then wide ((numberOf l : Int) + 1) else numberOf l) =
          (numberOf l + up.toNat : Nat) := by
        cases up with
        | false => rfl
        | true =>
          rw [if_pos rfl, wide_of_abs_le]
          · rfl
          · rw [abs_of_nonneg (by positivity)]
            omega
      rw [show ((0 : Nat) : Int) = 0 from rfl] at hread
      simp only [hread, hup]
      cases negative with
      | false => rfl
      | true =>
        have hbound : |-((numberOf l + up.toNat : Nat) : Int)| ≤ 10 ^ 38 := by
          have := Bool.toNat_le up
          rw [abs_neg, Nat.abs_cast]
          omega
        rw [if_pos rfl, wide_of_abs_le hbound]
        rfl

theorem chars_eq_zero : chars l = [48] ↔ l = [0] := by
  have hinjective : Function.Injective digitChar := fun a b h => Fin.ext (by
    rw [← toNat_digitChar a, ← toNat_digitChar b, h])
  exact (List.map_injective_iff.mpr hinjective).eq_iff (b := [0])

theorem any_chars : (chars l).any (· != 48) = true ↔ numberOf l ≠ 0 := by
  rw [numberOf, Ne, Numeral.number_eq_zero_iff (by norm_num), chars, List.any_map, List.any_eq_true]
  simp only [Function.comp_def, bne, digitChar_beq_zero]
  simp

theorem half_le_digitChar (d : Fin 10) : 53 ≤ digitChar d ↔ 5 ≤ d.val := by
  revert d
  decide

theorem half_le_getD (h : (l.drop i).length = k + 1) :
    53 ≤ (chars l).getD i 0 ↔ 10 ^ (k + 1) ≤ 2 * numberOf (l.drop i) := by
  obtain ⟨d, r, hr⟩ : ∃ d r, l.drop i = d :: r := List.exists_cons_of_length_eq_add_one h
  have hi : l[i]? = some d := by
    rw [← Nat.add_zero i, ← List.getElem?_drop, hr]
    rfl
  have hlength : r.length = k := by
    rw [hr, List.length_cons] at h
    omega
  have hhalf := Numeral.half_le_iff (b := 10) (h := 5) (d := d.val) (l := r.map Fin.val) rfl
    (by norm_num) (by simp)
  rw [List.length_map, hlength] at hhalf
  rw [List.getD_eq_getElem?_getD, chars, List.getElem?_map, hi, Option.map_some, Option.getD_some,
    half_le_digitChar, hhalf, hr]
  rfl

theorem signed_zero (negative : Bool) : signed negative 0 = 0 := by
  cases negative <;> rfl

/-- A run of digits that starts with one that is not zero is as long as its
number. -/
theorem Stripped.first_le (h : Stripped l) (hne : l ≠ [0])
    (hk : p < k) (hle : k ≤ l.length) : 10 ^ p ≤ numberOf (l.take k) := by
  rcases h with h | ⟨d, r, rfl, hd⟩
  · exact absurd h hne
  · obtain ⟨k, rfl⟩ : ∃ j, k = j + 1 := ⟨k - 1, by omega⟩
    rw [List.length_cons] at hle
    have hfirst := le_numberOf hd (r.take k)
    rw [List.length_take, Nat.min_eq_left (by omega)] at hfirst
    rw [List.take_succ_cons]
    exact (Nat.pow_le_pow_right (by norm_num) (by omega)).trans hfirst

section

variable {d : Digits} {l : List (Fin 10)} (hd : d.digits = chars l) (hl : Stripped l)
  (ht : formatOf t = .ok f) {k : Nat}

include hd hl ht

theorem Digits.fit_up (hk : (f.scale : Int) - d.scale = k) (round : Bool) :
    d.fit t f round = value (signed d.negative (numberOf l * 10 ^ k)) t := by
  rw [Digits.fit, hk]
  simp only [hd]
  by_cases hzero : l = [0]
  · subst hzero
    rw [if_pos (chars_eq_zero.mpr rfl), show numberOf [0] = 0 from rfl, Nat.zero_mul, signed_zero]
  rw [if_neg (fun h => hzero (chars_eq_zero.mp h)), if_pos (Int.natCast_nonneg k),
    Int.toNat_natCast]
  have hchars : chars l ++ List.replicate k 48 = chars (l ++ List.replicate k 0) := by
    rw [chars, chars, List.map_append, List.map_replicate]
    rfl
  have hnumber : numberOf (l ++ List.replicate k 0) = numberOf l * 10 ^ k := by
    have hrest : numberOf (List.replicate k 0) = 0 := by
      rw [numberOf, List.map_replicate]
      exact Numeral.number_replicate_zero k
    rw [numberOf_append, hrest, List.length_replicate, Nat.add_zero]
  have hfirst : f.precision < l.length + k → 10 ^ f.precision ≤ numberOf l * 10 ^ k := by
    intro hlt
    have hpositive : 1 ≤ l.length := by
      rcases hl with h | ⟨d, r, rfl, -⟩
      · exact absurd h hzero
      · simp
    have hle := hl.first_le hzero (k := l.length) (p := l.length - 1) (by omega) le_rfl
    rw [List.take_length] at hle
    calc 10 ^ f.precision ≤ 10 ^ (l.length - 1 + k) := Nat.pow_le_pow_right (by norm_num) (by omega)
      _ = 10 ^ (l.length - 1) * 10 ^ k := pow_add _ _ _
      _ ≤ numberOf l * 10 ^ k := Nat.mul_le_mul_right _ hle
  have hlength : (chars l).length = l.length := List.length_map _
  rw [hlength]
  split
  · next hlt =>
      refine (value_of_le ht ?_).symm
      rw [abs_signed]
      exact_mod_cast hfirst hlt
  · next hle =>
      rw [hchars, assemble_chars ht d.negative (fun hlt => ?_) false, hnumber]
      · rfl
      · rw [List.length_append, List.length_replicate] at hlt
        omega

theorem Digits.fit_down (hk : (f.scale : Int) - d.scale = -(k + 1 : Nat)) :
    d.fit t f true = value (signed d.negative (FixedPoint.roundDiv (numberOf l) (10 ^ (k + 1)))) t ∧
    d.fit t f false = if numberOf l % 10 ^ (k + 1) = 0 then
        value (signed d.negative (numberOf l / 10 ^ (k + 1))) t else lossy := by
  have hneg : ¬0 ≤ (f.scale : Int) - d.scale := by omega
  have hremove : (-((f.scale : Int) - d.scale)).toNat = k + 1 := by omega
  have hlength : (chars l).length = l.length := List.length_map _
  have hpow : 0 < 10 ^ (k + 1) := Nat.pow_pos (by norm_num)
  by_cases hzero : l = [0]
  · subst hzero
    have hnumber : numberOf [0] = 0 := rfl
    have hround : FixedPoint.roundDiv 0 (10 ^ (k + 1)) = 0 := by
      rw [FixedPoint.roundDiv, Nat.zero_div, Nat.zero_mod, if_neg (by omega)]
    have hchars : d.digits = [48] := hd.trans (chars_eq_zero.mpr rfl)
    rw [Digits.fit, Digits.fit, if_pos hchars, if_pos hchars, hnumber, hround, Nat.zero_mod,
      if_pos rfl, Nat.zero_div, signed_zero]
    exact ⟨rfl, rfl⟩
  have hchars : ¬d.digits = [48] := by
    rw [hd]
    exact fun h => hzero (chars_eq_zero.mp h)
  have hpositive : numberOf l ≠ 0 := fun h => hzero (hl.eq_zero.mp h)
  rw [Digits.fit, Digits.fit]
  simp only [if_neg hchars, if_neg hneg, hremove]
  rw [hd, hlength]
  by_cases hshort : l.length < k + 1
  · -- All digits are cut off, and the number is less than one tenth.
    have htenth : numberOf l < 10 ^ k :=
      (numberOf_lt l).trans_le (Nat.pow_le_pow_right (by norm_num) (by omega))
    have hlt : numberOf l < 10 ^ (k + 1) := by
      rw [pow_succ]
      omega
    have hhalf : ¬10 ^ (k + 1) ≤ 2 * numberOf l := by
      rw [pow_succ]
      omega
    rw [if_pos hshort, if_pos hshort, if_pos trivial, if_neg (by simp), FixedPoint.roundDiv,
      Nat.mod_eq_of_lt hlt, Nat.div_eq_of_lt hlt, if_neg hhalf, if_neg hpositive]
    refine ⟨?_, rfl⟩
    exact assemble_chars ht d.negative (l := [0]) (fun h => by
      have := (formatOf_valid ht).positive
      simp only [List.length_singleton] at h
      omega) false
  · have hdropLength : ((l.map Fin.val).drop (l.length - (k + 1))).length = k + 1 := by
      rw [List.length_drop, List.length_map]
      omega
    have hsplit := Numeral.number_split (b := 10) (l := l.map Fin.val) (by norm_num) (by simp)
      (l.length - (k + 1))
    rw [hdropLength, ← List.map_take, ← List.map_drop] at hsplit
    obtain ⟨htake, hdrop⟩ := hsplit
    change numberOf (l.take (l.length - (k + 1))) = numberOf l / 10 ^ (k + 1) at htake
    change numberOf (l.drop (l.length - (k + 1))) = numberOf l % 10 ^ (k + 1) at hdrop
    have hrest : (l.drop (l.length - (k + 1))).length = k + 1 := by
      rw [List.length_drop]
      omega
    have hfirst : f.precision < (l.take (l.length - (k + 1))).length →
        10 ^ f.precision ≤ numberOf (l.take (l.length - (k + 1))) := by
      intro hlt
      rw [List.length_take, Nat.min_eq_left (Nat.sub_le _ _)] at hlt
      exact hl.first_le hzero hlt (Nat.sub_le _ _)
    have hany := any_chars (l := l.drop (l.length - (k + 1)))
    have hup := half_le_getD hrest
    rw [hdrop] at hany hup
    rw [chars, List.map_drop, ← chars] at hany
    rw [if_neg hshort, if_neg hshort]
    rw [show (chars l).take (l.length - (k + 1)) = chars (l.take (l.length - (k + 1))) from
      (List.map_take ..).symm]
    constructor
    · rw [if_neg (by simp), assemble_chars ht d.negative hfirst, htake, FixedPoint.roundDiv]
      simp only [Bool.true_and]
      by_cases hhalf : 10 ^ (k + 1) ≤ 2 * (numberOf l % 10 ^ (k + 1))
      · rw [if_pos hhalf, decide_eq_true (hup.mpr hhalf)]
        rfl
      · rw [if_neg hhalf, decide_eq_false (fun h => hhalf (hup.mp h))]
        rfl
    · rw [Bool.not_false, Bool.true_and]
      by_cases hmod : numberOf l % 10 ^ (k + 1) = 0
      · rw [if_neg (fun h => hany.mp h hmod), if_pos hmod, assemble_chars ht d.negative hfirst,
          htake]
        rfl
      · rw [if_pos (hany.mpr hmod), if_neg hmod]

end

/-! ## Rounding -/

/-- The decimal of a format nearest to a number, and of two the one further
from zero. -/
structure Nearest (f : Format) (x : ℚ) (n : Int) : Prop where
  near : ∀ m, |x - f.amount n| ≤ |x - f.amount m|
  away : ∀ m, |x - f.amount m| = |x - f.amount n| → |m| ≤ |n|

def sign (negative : Bool) : ℚ := if negative then -1 else 1

theorem cast_signed (negative : Bool) (n : Nat) : (signed negative n : ℚ) = sign negative * n := by
  cases negative <;> simp [signed, sign]

def Digits.amount (d : Digits) (l : List (Fin 10)) : ℚ :=
  sign d.negative * numberOf l * (10 : ℚ) ^ (-d.scale)

theorem Digits.amount_eq {d : Digits} {s : Nat} (he : (s : Int) - d.scale = e) :
    d.amount l = sign d.negative * numberOf l * (10 : ℚ) ^ e / 10 ^ s := by
  rw [Digits.amount, show -d.scale = e - s by omega, zpow_sub₀ (by norm_num), zpow_natCast,
    mul_div_assoc]

theorem nearest_of_half (hhalf : |y - n| ≤ 1 / 2)
    (htie : |y - n| = 1 / 2 → |y| ≤ |(n : ℚ)|) : Nearest f (y / 10 ^ f.scale) n := by
  have hpow : (0 : ℚ) < 10 ^ f.scale := by positivity
  have hdist : ∀ m : Int, |y / 10 ^ f.scale - f.amount m| = |y - m| / 10 ^ f.scale := by
    intro m
    rw [Format.amount, FixedPoint.amount, Nat.cast_ofNat, ← sub_div, abs_div, abs_of_pos hpow]
  have hall := FixedPoint.nearest_of_half hhalf htie
  refine ⟨fun m => ?_, fun m h => ?_⟩
  · rw [hdist, hdist]
    exact div_le_div_of_nonneg_right (hall m).1 hpow.le
  · rw [hdist, hdist] at h
    exact (hall m).2 ((div_left_inj' hpow.ne').mp h)

theorem abs_sign_mul (negative : Bool) (x : ℚ) : |sign negative * x| = |x| := by
  cases negative <;> simp [sign]

theorem amount_eq_iff : y / 10 ^ f.scale = f.amount n ↔ y = n := by
  have hpow : (10 : ℚ) ^ f.scale ≠ 0 := by positivity
  rw [Format.amount, FixedPoint.amount, Nat.cast_ofNat, div_left_inj' hpow]

theorem shift_cases (shift : Int) : (∃ k : Nat, shift = k) ∨ ∃ k : Nat, shift = -(k + 1 : Nat) := by
  cases shift with
  | ofNat k => exact .inl ⟨k, rfl⟩
  | negSucc k => exact .inr ⟨k, rfl⟩

theorem signed_mul (negative : Bool) (m n : Nat) :
    signed negative (m * n) = signed negative m * n := by
  cases negative <;> simp [signed]

theorem sign_mul_div_eq_iff (hk : 0 < k) :
    sign negative * ((m : ℚ) / k) = n ↔ m % k = 0 ∧ signed negative (m / k) = n := by
  have hq : (k : ℚ) ≠ 0 := by exact_mod_cast hk.ne'
  have hcross : sign negative * ((m : ℚ) / k) = n ↔ signed negative m = n * k := by
    rw [← mul_div_assoc, div_eq_iff hq, ← cast_signed]
    exact_mod_cast Iff.rfl
  rw [hcross]
  constructor
  · intro h
    have hdvd : k ∣ m := by
      have habs := congrArg Int.natAbs h
      rw [Int.natAbs_mul, Int.natAbs_natCast] at habs
      refine ⟨n.natAbs, ?_⟩
      rw [mul_comm, ← habs]
      cases negative <;> simp [signed]
    obtain ⟨c, rfl⟩ := hdvd
    rw [Nat.mul_comm, signed_mul] at h
    refine ⟨Nat.mul_mod_right k c, ?_⟩
    rw [Nat.mul_div_cancel_left c hk]
    exact Int.eq_of_mul_eq_mul_right (by exact_mod_cast hk.ne') h
  · rintro ⟨hmod, rfl⟩
    rw [← signed_mul, Nat.div_mul_cancel (Nat.dvd_of_mod_eq_zero hmod)]

theorem mul_zpow_neg (x : ℚ) (m k : Nat) :
    x * m * (10 : ℚ) ^ (-(k : Nat) : Int) = x * ((m : ℚ) / (10 ^ k : Nat)) := by
  rw [zpow_neg, zpow_natCast]
  push_cast
  ring

section

variable {d : Digits} {l : List (Fin 10)} (hd : d.digits = chars l) (hl : Stripped l)
  (ht : formatOf t = .ok f)
include hd hl ht

theorem Digits.fit_nearest : ∃ n, Nearest f (d.amount l) n ∧ d.fit t f true = value n t := by
  obtain ⟨k, hk⟩ | ⟨k, hk⟩ := shift_cases (f.scale - d.scale)
  · refine ⟨_, ?_, Digits.fit_up hd hl ht hk true⟩
    have hexact : sign d.negative * numberOf l * (10 : ℚ) ^ (k : Int) =
        signed d.negative (numberOf l * 10 ^ k) := by
      rw [cast_signed, zpow_natCast]
      push_cast
      ring
    rw [Digits.amount_eq hk, hexact]
    exact nearest_of_half (by simp) fun h => by norm_num at h
  · refine ⟨_, ?_, (Digits.fit_down hd hl ht hk).1⟩
    obtain ⟨hhalf, htie⟩ := FixedPoint.roundDiv_half (d := numberOf l) (m := 10 ^ (k + 1))
      (Nat.pow_pos (by norm_num))
    rw [Digits.amount_eq hk, mul_zpow_neg]
    generalize FixedPoint.roundDiv (numberOf l) (10 ^ (k + 1)) = rounded at hhalf htie ⊢
    refine nearest_of_half ?_ ?_
    · rw [cast_signed, ← mul_sub, abs_sign_mul]
      exact hhalf
    · rw [cast_signed, ← mul_sub, abs_sign_mul, abs_sign_mul, abs_sign_mul, Nat.abs_cast]
      intro h
      rw [abs_of_nonneg (by positivity)]
      exact htie h

theorem Digits.fit_exact : (∀ n, d.amount l = f.amount n → d.fit t f false = value n t) ∧
    ((¬∃ n, d.amount l = f.amount n) → d.fit t f false = lossy) := by
  obtain ⟨k, hk⟩ | ⟨k, hk⟩ := shift_cases (f.scale - d.scale)
  · have hexact : d.amount l = f.amount (signed d.negative (numberOf l * 10 ^ k)) := by
      rw [Digits.amount_eq hk, amount_eq_iff, cast_signed, zpow_natCast]
      push_cast
      ring
    rw [Digits.fit_up hd hl ht hk false]
    refine ⟨fun n hn => ?_, fun h => absurd ⟨_, hexact⟩ h⟩
    rw [(FixedPoint.amount_inj (by norm_num)).mp (hexact.symm.trans hn)]
  · have hpow : 0 < 10 ^ (k + 1) := Nat.pow_pos (by norm_num)
    rw [(Digits.fit_down hd hl ht hk).2, Digits.amount_eq hk, mul_zpow_neg]
    simp only [amount_eq_iff, sign_mul_div_eq_iff hpow]
    constructor
    · rintro n ⟨hmod, rfl⟩
      rw [if_pos hmod]
    · intro hnone
      rw [if_neg fun hmod => hnone ⟨_, hmod, rfl⟩]

end

/-! ## Spelled decimals -/

namespace Spelling

variable {w : Spelling}

theorem read_digits (w : Spelling) : w.read.digits = chars (strip w.digits) :=
  stripZeros_chars w.digits

theorem amount_read (w : Spelling) : w.read.amount (strip w.digits) = w.amount := by
  rw [Digits.amount, numberOf_strip]
  rfl

theorem Admitted.parse_eq (hw : w.Admitted) (ht : formatOf t = .ok f) (round : Bool) :
    parse w.text t round = w.read.fit t f round := by
  rw [parse, ht, ok_bind, hw.digits_text, ok_bind]

theorem Admitted.parse_nearest (hw : w.Admitted) (ht : formatOf t = .ok f) :
    ∃ n, Nearest f w.amount n ∧ parse w.text t true = value n t := by
  rw [hw.parse_eq ht, ← w.amount_read]
  exact Digits.fit_nearest w.read_digits (stripped_strip _) ht

theorem Admitted.parse_exact (hw : w.Admitted) (ht : formatOf t = .ok f) :
    (∀ n, w.amount = f.amount n → parse w.text t false = value n t) ∧
    ((¬∃ n, w.amount = f.amount n) → parse w.text t false = lossy) := by
  rw [hw.parse_eq ht, ← w.amount_read]
  exact Digits.fit_exact w.read_digits (stripped_strip _) ht

end Spelling

theorem stored_or_refused {m : Except Error Value} (ht : formatOf t = .ok f) (h : m = value n t) :
    (|n| < 10 ^ f.precision → ∃ v, m = .ok v ∧ v.typeOf = t ∧ Holds v f n) ∧
    (10 ^ f.precision ≤ |n| → m = overflow) := by
  rw [h]
  exact ⟨value_of_lt ht, value_of_le ht⟩

theorem value_ne_lossy (ht : formatOf t = .ok f) (n : Int) : value n t ≠ lossy := by
  rcases lt_or_ge |n| (10 ^ f.precision) with hlt | hge
  · obtain ⟨v, hv, -⟩ := value_of_lt ht hlt
    rw [hv]
    intro h
    cases h
  · rw [value_of_le ht hge]
    intro h
    cases h

/-- DECIMAL parsing is exact. The accepted texts are the admitted spellings;
with rounding a spelling becomes the nearest decimal, ties away from zero, and
without it the number itself, or the lossy conversion is reported. What does
not fit the precision overflows. -/
theorem parse_rounds_exactly :
    (∀ text, (∃ d, digits text = .ok d) ↔ ∃ w : Spelling, w.text = text ∧ w.Admitted) ∧
    ∀ (w : Spelling) (t : SqlType) (f : Format), w.Admitted → formatOf t = .ok f →
      (∃ n, Nearest f w.amount n ∧
        (|n| < 10 ^ f.precision →
          ∃ v, parse w.text t true = .ok v ∧ v.typeOf = t ∧ Holds v f n) ∧
        (10 ^ f.precision ≤ |n| → parse w.text t true = overflow)) ∧
      (parse w.text t false = lossy ↔ ¬∃ n, w.amount = f.amount n) ∧
      ∀ n, w.amount = f.amount n →
        (|n| < 10 ^ f.precision →
          ∃ v, parse w.text t false = .ok v ∧ v.typeOf = t ∧ Holds v f n) ∧
        (10 ^ f.precision ≤ |n| → parse w.text t false = overflow) := by
  refine ⟨fun text => digits_eq_ok_iff, fun w t f hw ht => ?_⟩
  obtain ⟨n, hnearest, hrounded⟩ := hw.parse_nearest ht
  obtain ⟨hexact, hlossy⟩ := hw.parse_exact ht
  refine ⟨⟨n, hnearest, stored_or_refused ht hrounded⟩, ⟨?_, hlossy⟩, fun m hm =>
    stored_or_refused ht (hexact m hm)⟩
  rintro h ⟨m, hm⟩
  rw [hexact m hm] at h
  exact value_ne_lossy ht m h

/-- `2.25`, half way between two tenths. -/
def halfWay : Spelling := ⟨none, [2], some [2, 5], none, by decide⟩

theorem halfWay_admitted : halfWay.Admitted := ⟨by decide, by decide⟩

theorem halfWay_amount : halfWay.amount = 9 / 4 := by
  have hnumber : numberOf halfWay.digits = 225 := by decide
  have hscale : halfWay.scale = 2 := by decide
  have hsign : halfWay.sign = none := rfl
  rw [Spelling.amount, hnumber, hscale, hsign]
  norm_num

theorem parse_rounds_halfWay : ∃ v, parse halfWay.text tenths true = .ok v ∧ Holds v ⟨3, 1⟩ 23 := by
  obtain ⟨⟨n, hnearest, hfits, -⟩, -⟩ :=
    parse_rounds_exactly.2 halfWay tenths ⟨3, 1⟩ halfWay_admitted formatOf_tenths
  have hamount : ∀ m : Int, Format.amount ⟨3, 1⟩ m = m / 10 := by
    intro m
    rw [Format.amount, FixedPoint.amount]
    norm_num
  rw [halfWay_amount] at hnearest
  obtain rfl : n = 23 := by
    have hnear := hnearest.near 23
    have haway := hnearest.away 23
    rw [hamount, hamount] at hnear haway
    norm_num at hnear haway
    have hlow : (22 : ℚ) ≤ n := by linarith [(abs_le.mp hnear).2]
    have hhigh : (n : ℚ) ≤ 23 := by linarith [(abs_le.mp hnear).1]
    have hlow' : 22 ≤ n := by exact_mod_cast hlow
    have hhigh' : n ≤ 23 := by exact_mod_cast hhigh
    by_contra hne
    obtain rfl : n = 22 := by omega
    norm_num at haway
  obtain ⟨v, hv, -, hholds⟩ := hfits (by norm_num)
  exact ⟨v, hv, hholds⟩

end CoreSql.Decimals
