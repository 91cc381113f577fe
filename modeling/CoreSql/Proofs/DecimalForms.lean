import CoreSql.Proofs.DecimalText

/-!
# The text and the type of a decimal

`format` writes the digits of a coefficient, with as many zeros in front as the
point needs; read back at the scale it was written with, the text gives the
coefficient again. A literal has the smallest scale and then the smallest
precision its number can have, because zeros behind the point are dropped
before the digits are counted.
-/

namespace CoreSql.Decimals

open Fallible

variable {t : SqlType} {f : Format} {v w : Value} {n : Int} {d : Digits} {l : List (Fin 10)}

/-! ## Formatting -/

/-- The loop writes the digits of a number from the last to the first. -/
theorem reversedDigits_eq (n : Nat) : ∃ l, reversedDigits n = chars l ∧ l ≠ [] ∧
    numberOf l.reverse = n ∧ ∀ k, 0 < k → n < 10 ^ k → l.length ≤ k := by
  induction n using Nat.strong_induction_on with
  | _ n ih =>
    have hlast : n % 10 < 10 := Nat.mod_lt n (by norm_num)
    rw [reversedDigits]
    by_cases hzero : n / 10 = 0
    · rw [if_pos hzero]
      refine ⟨[⟨n % 10, hlast⟩], rfl, by simp, ?_, fun k hk _ => hk⟩
      rw [List.reverse_singleton, numberOf_cons]
      simp only [List.length_nil, pow_zero, mul_one]
      show n % 10 + 0 = n
      omega
    · rw [if_neg hzero]
      obtain ⟨l, hl, hne, hnumber, hlength⟩ := ih (n / 10) (by omega)
      refine ⟨⟨n % 10, hlast⟩ :: l, ?_, by simp, ?_, fun k hk hlt => ?_⟩
      · rw [hl]
        rfl
      · rw [List.reverse_cons, numberOf_append, hnumber, numberOf_cons]
        simp only [List.length_nil, List.length_singleton, pow_zero, pow_one, mul_one]
        show n / 10 * 10 + (n % 10 + 0) = n
        omega
      · obtain ⟨k, rfl⟩ : ∃ j, k = j + 1 := ⟨k - 1, by omega⟩
        have hk0 : k ≠ 0 := by
          rintro rfl
          omega
        rw [List.length_cons]
        have := hlength k (by omega) (by rw [pow_succ] at hlt; omega)
        omega

/-- The spelling of digits with the last of them behind the point. -/
def pointed (negative : Bool) (ds : List (Fin 10)) (scale : Nat) (h : ds ≠ []) : Spelling where
  sign := if negative then some true else none
  whole := ds.take (ds.length - scale)
  fraction := if scale = 0 then none else some (ds.drop (ds.length - scale))
  exponent := none
  nonempty := by
    split
    · next hzero => simpa [hzero] using h
    · simpa using h

section

variable {negative : Bool} {ds : List (Fin 10)} {scale : Nat} {h : ds ≠ []}

theorem digits_pointed : (pointed negative ds scale h).digits = ds := by
  rw [Spelling.digits, pointed]
  by_cases hzero : scale = 0
  · simp [hzero]
  · simp [hzero]

theorem text_pointed : (pointed negative ds scale h).text =
    (if negative then [45] else []) ++ if scale = 0 then chars ds
      else (chars ds).take (ds.length - scale) ++ 46 :: (chars ds).drop (ds.length - scale) := by
  have hsign : signText (if negative then some true else none) = if negative then [45] else [] := by
    cases negative <;> rfl
  rw [Spelling.text, pointed, hsign]
  refine congrArg _ ?_
  by_cases hzero : scale = 0
  · simp [hzero, Spelling.pointText, Spelling.exponentText]
  · simp [hzero, Spelling.pointText, Spelling.exponentText, chars]

theorem scale_pointed (hle : scale ≤ ds.length) : (pointed negative ds scale h).scale = scale := by
  rw [Spelling.scale, Spelling.power, pointed]
  by_cases hzero : scale = 0
  · simp [hzero]
  · simp only [if_neg hzero, Option.getD_some, List.length_drop, Option.map_none, Option.getD_none]
    omega

theorem pointed_admitted (hle : ds.length ≤ 254) : (pointed negative ds scale h).Admitted := by
  refine ⟨?_, ?_⟩
  · have hchars : (chars ds).length = ds.length := List.length_map _
    rw [text_pointed, List.length_append]
    split <;> split <;> simp [hchars] <;> omega
  · rw [Spelling.power, pointed]
    norm_num

theorem amount_pointed (hle : scale ≤ ds.length) :
    (pointed negative ds scale h).amount = sign negative * numberOf ds / 10 ^ scale := by
  have hsign : ((pointed negative ds scale h).sign == some true) = negative := by
    cases negative <;> rfl
  rw [Spelling.amount, hsign, digits_pointed, scale_pointed hle, zpow_neg, zpow_natCast,
    ← div_eq_mul_inv, sign]

end

theorem format_eq (hv : Holds v f n) : ∃ s : Spelling, format v = .ok s.text ∧ s.Admitted ∧
    s.amount = f.amount n := by
  obtain ⟨hvalid, hlt⟩ := hv.bounds
  have hscale := hvalid.scale_le
  have hbounded := hvalid.bounded
  have htop : |n| ≤ 10 ^ 38 := hlt.le.trans (pow_le_pow_right₀ (by norm_num) hbounded)
  have hnat : (if n < 0 then wide (-n) else n).toNat = n.natAbs := by
    rw [wide_of_abs_le (by rwa [abs_neg])]
    split <;> omega
  obtain ⟨l, hl, hne, hnumber, hlength⟩ := reversedDigits_eq n.natAbs
  have hshort : l.length ≤ 38 := by
    refine hlength 38 (by norm_num) ?_
    have hlt' : |n| < 10 ^ 38 := hlt.trans_le (pow_le_pow_right₀ (by norm_num) hbounded)
    have := abs_lt.mp hlt'
    omega
  have hchars : (chars l ++ List.replicate (f.scale + 1 - (chars l).length) 48).reverse =
      chars (List.replicate (f.scale + 1 - l.length) 0 ++ l.reverse) := by
    simp [chars, digitChar]
  have hds : numberOf (List.replicate (f.scale + 1 - l.length) 0 ++ l.reverse) = n.natAbs := by
    have hzeros : numberOf (List.replicate (f.scale + 1 - l.length) 0) = 0 := by
      rw [numberOf, List.map_replicate]
      exact Numeral.number_replicate_zero _
    rw [numberOf_append, hzeros, Nat.zero_mul, Nat.zero_add, hnumber]
  have hdsLength : (List.replicate (f.scale + 1 - l.length) 0 ++ l.reverse).length =
      f.scale + 1 - l.length + l.length := by simp
  have hdsNe : List.replicate (f.scale + 1 - l.length) 0 ++ l.reverse ≠ [] := by simp [hne]
  generalize List.replicate (f.scale + 1 - l.length) 0 ++ l.reverse =
    ds at hchars hds hdsLength hdsNe
  refine ⟨pointed (decide (n < 0)) ds f.scale hdsNe, ?_, pointed_admitted (by omega), ?_⟩
  · have hlen : (chars ds).length = ds.length := List.length_map _
    rw [format, hv.coefficient, hv.format]
    simp only [ok_bind]
    rw [hnat, hl, hchars, hlen, text_pointed]
    by_cases hneg : n < 0
    · simp only [hneg, if_true, decide_true]
      rfl
    · simp only [hneg, if_false, decide_false, Bool.false_eq_true]
      rfl
  · rw [amount_pointed (by omega), hds, ← cast_signed, Format.amount, FixedPoint.amount,
      Nat.cast_ofNat]
    congr 2
    rw [signed]
    by_cases hneg : n < 0
    · simp only [hneg, decide_true, if_true]
      omega
    · simp only [hneg, decide_false, Bool.false_eq_true, if_false]
      omega

/-! ## The round trip -/

theorem decode_injective {a b : {b : Bytes // b.length = 16 }} (h : decode a = decode b) :
    a = b := by
  have hhalves : ∀ c : { b : Bytes // b.length = 16 },
      (c.val.take 8).length = 8 ∧ (c.val.drop 8).length = 8 := fun c => by
    rw [List.length_take, List.length_drop, c.2]
    decide
  have hlt : ∀ l : Bytes, l.length = 8 → LittleEndian.decode l < 2 ^ 64 := fun l hl => by
    have := LittleEndian.decode_lt l
    rw [hl] at this
    omega
  have ha := hlt _ (hhalves a).1
  have ha' := hlt _ (hhalves a).2
  have hb := hlt _ (hhalves b).1
  have hb' := hlt _ (hhalves b).2
  rw [decode, decode, wide, wide, Int.bmod_def, Int.bmod_def] at h
  have hlow : LittleEndian.decode (a.val.take 8) = LittleEndian.decode (b.val.take 8) := by omega
  have hhigh : LittleEndian.decode (a.val.drop 8) = LittleEndian.decode (b.val.drop 8) := by omega
  have htake := LittleEndian.decode_injective ((hhalves a).1.trans (hhalves b).1.symm) hlow
  have hdrop := LittleEndian.decode_injective ((hhalves a).2.trans (hhalves b).2.symm) hhigh
  refine Subtype.ext ?_
  rw [← List.take_append_drop 8 a.val, htake, hdrop, List.take_append_drop]

section

variable (ht : formatOf v.typeOf = .ok f)
include ht

theorem Holds.cell (hv : Holds v f n) :
    ∃ type payload, v = .compact16 type payload ∧ decode payload = n := by
  have hdecimal := (formatOf_eq_ok.mp ht).1
  have hcoefficient := hv.coefficient
  rw [coefficient.eq_def] at hcoefficient
  split at hcoefficient
  · next i =>
      have hid : defaultIdentity integerType.id = false := isDecimal_id hdecimal
      have hdefault : defaultIdentity integerType.id = true := by decide +kernel
      rw [hdefault] at hid
      cases hid
  · next type payload =>
      refine ⟨type, payload, rfl, ?_⟩
      rw [if_pos (show isDecimal type.val = true from hdecimal),
        show formatOf type.val = .ok f from ht, ok_bind,
        power_eq_ok (formatOf_valid ht).bounded, ok_bind] at hcoefficient
      split at hcoefficient
      · cases hcoefficient
      · exact Except.ok.inj hcoefficient
  · cases hcoefficient

/-- Decimals of one type with one coefficient are the same value. -/
theorem Holds.unique (hv : Holds v f n) (hw : Holds w f n)
    (htype : w.typeOf = v.typeOf) : w = v := by
  obtain ⟨type, payload, rfl, hn⟩ := hv.cell ht
  obtain ⟨type', payload', rfl, hn'⟩ := hw.cell (htype ▸ ht)
  rw [decode_injective (hn'.trans hn.symm), Subtype.ext (show type'.val = type.val from htype)]

theorem parse_format (hv : Holds v f n) :
    ∃ text, format v = .ok text ∧ parse text v.typeOf false = .ok v := by
  obtain ⟨s, hs, hadmitted, hamount⟩ := format_eq hv
  obtain ⟨w, hw, htype, hholds⟩ := value_of_lt ht hv.bounds.2
  refine ⟨s.text, hs, ?_⟩
  rw [(hadmitted.parse_exact ht).1 n hamount, hw, hv.unique ht hholds htype]

end

/-! ## Literals -/

structure Represents (f : Format) (x : ℚ) : Prop where
  valid : f.Valid
  exists_coefficient : ∃ n : Int, x = f.amount n ∧ |n| < 10 ^ f.precision

theorem Digits.trim_eq (hd : d.digits = chars l)
    (hl : Stripped l) : ∃ l', d.trim.digits = chars l' ∧ Stripped l' ∧
      d.trim.amount l' = d.amount l ∧ (0 < d.trim.scale → l' ≠ [0] → numberOf l' % 10 ≠ 0) := by
  induction hlength : l.length using Nat.strong_induction_on generalizing d l with
  | _ k ih =>
    rw [Digits.trim]
    by_cases hmore : 0 < d.scale ∧ 1 < d.digits.length ∧ d.digits.getLast? = some 48
    · rw [if_pos hmore]
      obtain ⟨hscale, hlong, hlast⟩ := hmore
      rw [hd] at hlong hlast
      have hlong : 1 < l.length := by simpa [chars] using hlong
      obtain ⟨l₀, x, rfl⟩ : ∃ l₀ x, l = l₀ ++ [x] :=
        ⟨l.dropLast, l.getLast (List.ne_nil_of_length_pos (by omega)),
          (List.dropLast_concat_getLast _).symm⟩
      have hx : x = 0 := by
        have hchar : digitChar x = 48 := by simpa [chars] using hlast
        have hzero := digitChar_beq_zero x
        rw [hchar] at hzero
        exact Fin.ext (by simpa using hzero)
      subst hx
      have hstripped : Stripped l₀ := by
        rcases hl with hl | ⟨d, r, hl, hne⟩
        · rw [hl] at hlong
          simp at hlong
        · cases l₀ with
          | nil => simp at hlong
          | cons d' r' =>
            rw [List.cons_append, List.cons.injEq] at hl
            exact .inr ⟨d', r', rfl, hl.1 ▸ hne⟩
      have hdigits : d.digits.dropLast = chars l₀ := by
        rw [hd, chars, List.map_append, List.map_singleton, List.dropLast_concat]
        rfl
      obtain ⟨l', hl', hstripped', hamount, hminimal⟩ :=
        ih l₀.length (by rw [← hlength]; simp) (d := { d with
          digits := d.digits.dropLast, scale := d.scale - 1 }) hdigits hstripped rfl
      refine ⟨l', hl', hstripped', hamount.trans ?_, hminimal⟩
      have hnumber : numberOf (l₀ ++ [0]) = numberOf l₀ * 10 := by
        rw [numberOf_append]
        rfl
      rw [Digits.amount, Digits.amount, hnumber, show -(d.scale - 1) = -d.scale + 1 by omega,
        zpow_add_one₀ (by norm_num)]
      push_cast
      ring
    · rw [if_neg hmore]
      refine ⟨l, hd, hl, rfl, fun hscale hne hzero => hmore ⟨hscale, ?_⟩⟩
      have hnil : l ≠ [] := by
        rcases hl with rfl | ⟨d, r, rfl, -⟩ <;> simp
      obtain ⟨l₀, x, rfl⟩ : ∃ l₀ x, l = l₀ ++ [x] :=
        ⟨l.dropLast, l.getLast hnil, (List.dropLast_concat_getLast _).symm⟩
      have hx : x = 0 := by
        have hlast : numberOf (l₀ ++ [x]) = numberOf l₀ * 10 + x := by
          rw [numberOf_append, numberOf_cons]
          simp [numberOf]
        have := x.isLt
        exact Fin.ext (show x.val = 0 by omega)
      subst hx
      have hlong : l₀ ≠ [] := by
        rintro rfl
        exact hne rfl
      rw [hd]
      refine ⟨?_, by simp [chars, digitChar]⟩
      have := List.length_pos_iff.mpr hlong
      simpa [chars] using this

/-- Digits as `literal` counts them: `k` zeros are still missing before the
point, or `s` digits stand behind it. -/
structure Digits.Counted (d : Digits) (l : List (Fin 10)) (s k : Nat) : Prop where
  scale : max 0 d.scale = s
  zeros : max 0 (-d.scale) = k
  stripped : Stripped l
  nonzero : l ≠ [0]
  minimal : 0 < d.scale → numberOf l % 10 ≠ 0

namespace Digits.Counted

variable {d : Digits} {l : List (Fin 10)} {s k p : Nat} (h : d.Counted l s k)
include h

theorem amount_eq : d.amount l =
    Format.amount ⟨p, s⟩ (signed d.negative (numberOf l * 10 ^ k)) := by
  have hs := h.scale
  have hk := h.zeros
  rw [Digits.amount, Format.amount, FixedPoint.amount, cast_signed,
    show -d.scale = (k : Int) - s by omega, zpow_sub₀ (by norm_num), zpow_natCast, zpow_natCast]
  push_cast
  ring

theorem length_pos : 0 < l.length := by
  rcases h.stripped with rfl | ⟨d, r, rfl, -⟩ <;> simp

theorem le_number : 10 ^ (l.length - 1 + k) ≤ numberOf l * 10 ^ k := by
  have hpos := h.length_pos
  have hle := h.stripped.first_le h.nonzero (k := l.length) (p := l.length - 1) (by omega) le_rfl
  rw [List.take_length] at hle
  rw [pow_add]
  exact Nat.mul_le_mul_right _ hle

theorem scale_le (hf : Represents f (d.amount l)) : s ≤ f.scale := by
  obtain ⟨-, n, hn, -⟩ := hf
  by_contra hlt
  have hs := h.scale
  have hk := h.zeros
  obtain rfl : k = 0 := by omega
  rw [h.amount_eq (p := 0), Format.amount, Format.amount, pow_zero, mul_one,
    ← FixedPoint.amount_rescale (b := 10) (n := n) (by norm_num) (show f.scale ≤ s by omega),
    FixedPoint.amount_inj (by norm_num)] at hn
  -- One digit less would do, so the last one is zero.
  refine h.minimal (by omega) ?_
  have habs := congrArg Int.natAbs hn
  obtain ⟨e, he⟩ : ∃ e, s - f.scale = e + 1 := ⟨s - f.scale - 1, by omega⟩
  rw [he, pow_succ, ← mul_assoc, Int.natAbs_mul] at habs
  have hnumber : (signed d.negative (numberOf l)).natAbs = numberOf l := by
    cases d.negative <;> simp [signed]
  rw [hnumber] at habs
  rw [habs]
  exact Nat.mul_mod_left _ _

theorem precision_le (hf : Represents f (d.amount l)) : l.length + k ≤ f.precision := by
  have hle := h.scale_le hf
  obtain ⟨-, n, hn, hlt⟩ := hf
  rw [h.amount_eq (p := 0), Format.amount, Format.amount,
    ← FixedPoint.amount_rescale (b := 10) (by norm_num) hle,
    FixedPoint.amount_inj (by norm_num)] at hn
  have hfirst := h.le_number
  have hpos := h.length_pos
  have hscaled : (10 : Int) ^ (l.length - 1 + k) ≤ |n| := by
    rw [← hn, abs_mul, abs_signed]
    have hone : (1 : Int) ≤ |((10 : Nat) : Int) ^ (f.scale - s)| :=
      Int.one_le_abs (by positivity)
    calc (10 : Int) ^ (l.length - 1 + k) ≤ (numberOf l * 10 ^ k : Nat) := by exact_mod_cast hfirst
      _ ≤ (numberOf l * 10 ^ k : Nat) * |((10 : Nat) : Int) ^ (f.scale - s)| :=
          le_mul_of_one_le_right (by positivity) hone
  have := (Nat.pow_lt_pow_iff_right (show 1 < 10 by norm_num)).mp
    (by exact_mod_cast hscaled.trans_lt hlt : 10 ^ (l.length - 1 + k) < 10 ^ f.precision)
  omega

end Digits.Counted

/-- A literal is a decimal of the smallest type that has its number. -/
structure Minimal (f : Format) (x : ℚ) : Prop where
  represents : Represents f x
  scale_le : ∀ f', Represents f' x → f.scale ≤ f'.scale
  precision_le : ∀ f', Represents f' x → f'.scale = f.scale → f.precision ≤ f'.precision

theorem minimal_zero : Minimal ⟨1, 0⟩ 0 where
  represents := ⟨⟨by decide, by decide, by decide⟩, 0, by simp [Format.amount, FixedPoint.amount],
    by decide⟩
  scale_le _ _ := Nat.zero_le _
  precision_le f hf _ := hf.valid.positive

theorem Digits.Counted.minimal_type {s k : Nat}
    (h : d.Counted l s k) (hp : max (l.length + k) s ≤ 38) :
    Minimal ⟨max (l.length + k) s, s⟩ (d.amount l) := by
  have hpos := h.length_pos
  refine ⟨⟨⟨?_, hp, ?_⟩, _, h.amount_eq, ?_⟩, fun f' hf' => h.scale_le hf', fun f' hf' hs => ?_⟩
  · simp only
    omega
  · simp only
    omega
  · have hlt : numberOf l * 10 ^ k < 10 ^ (l.length + k) := by
      rw [pow_add]
      exact Nat.mul_lt_mul_of_pos_right (numberOf_lt l) (Nat.pow_pos (by norm_num))
    have hle : 10 ^ (l.length + k) ≤ 10 ^ max (l.length + k) s :=
      Nat.pow_le_pow_right (by norm_num) (le_max_left _ _)
    rw [abs_signed]
    exact_mod_cast hlt.trans_le hle
  · have hlength := h.precision_le hf'
    have hscale := hf'.valid.scale_le
    simp only at hs ⊢
    omega

theorem Spelling.Admitted.literal_cases {w : Spelling} (hw : w.Admitted) :
    (∃ v f n, literal w.text = .ok v ∧ formatOf v.typeOf = .ok f ∧ Holds v f n ∧
      w.amount = f.amount n ∧ Minimal f w.amount) ∨
    literal w.text = overflow ∧ ¬∃ f, Represents f w.amount := by
  obtain ⟨l, hl, hstripped, hamount, hminimal⟩ :=
    Digits.trim_eq w.read_digits (stripped_strip w.digits)
  rw [w.amount_read] at hamount
  rw [literal, hw.digits_text, ok_bind]
  generalize w.read.trim = d at hl hamount hminimal
  by_cases hzero : l = [0]
  · -- Zero has the smallest type of all.
    have hx : w.amount = 0 := by
      rw [← hamount, hzero, Digits.amount]
      simp [numberOf, Numeral.number]
    obtain ⟨t, ht⟩ : ∃ t, decimalType 1 0 = .ok t :=
      ⟨_, decimalType_eq_ok.mpr ⟨⟨by decide, by decide, by decide⟩, rfl⟩⟩
    have hf := formatOf_decimalType ht
    obtain ⟨v, hv, htype, hholds⟩ := value_of_lt (n := 0) hf (by decide)
    refine .inl ⟨v, ⟨1, 0⟩, 0, ?_, htype ▸ hf, hholds, ?_, hx ▸ minimal_zero⟩
    · rw [if_pos (by rw [hl, hzero]; exact chars_eq_zero.mpr rfl), ht, ok_bind, hv]
    · rw [hx, Format.amount, FixedPoint.amount]
      norm_num
  rw [if_neg (by rw [hl]; exact fun h => hzero (chars_eq_zero.mp h))]
  obtain ⟨s, hs⟩ := Int.eq_ofNat_of_zero_le (le_max_left 0 d.scale)
  obtain ⟨k, hk⟩ := Int.eq_ofNat_of_zero_le (le_max_left 0 (-d.scale))
  have hcounted : d.Counted l s k := ⟨hs, hk, hstripped, hzero, fun h => hminimal h hzero⟩
  have hlength : d.digits.length = l.length := by rw [hl]; exact List.length_map _
  have hprecision : max ((d.digits.length : Int) + max 0 (-d.scale)) (max 0 d.scale) =
      (max (l.length + k) s : Nat) := by
    rw [hs, hk, hlength]
    omega
  rw [← hamount]
  simp only [hprecision]
  by_cases hbig : 38 < max (l.length + k) s
  · refine .inr ⟨if_pos (by exact_mod_cast hbig), ?_⟩
    rintro ⟨f, hf⟩
    have hdigits := hcounted.precision_le hf
    have hscale := hcounted.scale_le hf
    have := hf.valid.scale_le
    have := hf.valid.bounded
    omega
  · have hmin := hcounted.minimal_type (by omega)
    obtain ⟨t, ht⟩ : ∃ t, decimalType (max (l.length + k) s) s = .ok t :=
      ⟨_, decimalType_eq_ok.mpr ⟨hmin.represents.valid, rfl⟩⟩
    have hf := formatOf_decimalType ht
    obtain ⟨n, hn, hlt⟩ := hmin.represents.exists_coefficient
    obtain ⟨v, hv, htype, hholds⟩ := value_of_lt hf hlt
    refine .inl ⟨v, _, n, ?_, htype ▸ hf, hholds, hn, hmin⟩
    rw [if_neg (by exact_mod_cast hbig), hs, Int.toNat_natCast, Int.toNat_natCast, ht, ok_bind,
      (hw.parse_exact hf).1 n (hamount ▸ hn), hv]

/-- DECIMAL text forms are faithful: the text of a decimal parses back to it,
and a literal is its number in the type with the smallest scale and precision,
or overflows when no type has the number. -/
theorem text_forms_are_faithful :
    (∀ v f n, formatOf v.typeOf = .ok f → Holds v f n →
      ∃ text, format v = .ok text ∧ parse text v.typeOf false = .ok v) ∧
    ∀ w : Spelling, w.Admitted →
      ((∃ f, Represents f w.amount) →
        ∃ v f n, literal w.text = .ok v ∧ formatOf v.typeOf = .ok f ∧ Holds v f n ∧
          w.amount = f.amount n ∧ Minimal f w.amount) ∧
      ((¬∃ f, Represents f w.amount) → literal w.text = overflow) := by
  refine ⟨fun v f n ht hv => parse_format ht hv, fun w hw => ?_⟩
  rcases hw.literal_cases with hliteral | ⟨hoverflow, hnone⟩
  · refine ⟨fun _ => hliteral, fun hnone => ?_⟩
    obtain ⟨v, f, n, -, -, -, -, hmin⟩ := hliteral
    exact absurd ⟨f, hmin.represents⟩ hnone
  · exact ⟨fun h => absurd h hnone, fun _ => hoverflow⟩

/-- `2.25` is a DECIMAL(3,2). -/
theorem text_forms_halfWay : ∃ v f n, literal halfWay.text = .ok v ∧
    formatOf v.typeOf = .ok f ∧ Holds v f n ∧ f.amount n = 9 / 4 := by
  have hrepresents : Represents ⟨3, 2⟩ halfWay.amount := by
    refine ⟨⟨by decide, by decide, by decide⟩, 225, ?_, by decide⟩
    rw [halfWay_amount, Format.amount, FixedPoint.amount]
    norm_num
  obtain ⟨v, f, n, hv, hf, hholds, hn, -⟩ :=
    (text_forms_are_faithful.2 halfWay halfWay_admitted).1 ⟨_, hrepresents⟩
  exact ⟨v, f, n, hv, hf, hholds, by rw [← hn, halfWay_amount]⟩

end CoreSql.Decimals
