import CoreSql.Addons.Json
import CoreSql.Lib.Utf8

/-!
# JSON strings

The grammar of a JSON string is over characters, and so is what it stands
for: `Chars` relates the characters between the quotes to the characters they
spell, where a pair of `\u` escapes may spell one. The code reads bytes and
collects bytes. It accepts exactly the encodings of such texts, and what it
collects is the encoding of what they spell; as the encoding is injective,
comparing the collected bytes is comparing names after unescaping.
-/

namespace CoreSql.Json

open Consume Fallible Utf8

variable {code code' n v d high low : Nat} {b a : UInt8} {s r out rest l out' : Bytes} {c e : Char}
  {x t y : List Char}

/-! ## Characters -/

theorem continuation_byte (b : UInt8) : b &&& 0xc0 = 0x80 ↔ 128 ≤ b.toNat ∧ b.toNat < 192 := by
  revert b
  exact forall_byte (by decide +kernel)

theorem continuation_eq_ok : continuation code b = .ok code' ↔
      (128 ≤ b.toNat ∧ b.toNat < 192) ∧ code' = code * 64 + (b.toNat - 128) := by
  have hbits (h : 128 ≤ b.toNat ∧ b.toNat < 192) :
      code <<< 6 ||| b.toNat &&& 63 = code * 64 + (b.toNat - 128) := by
    rw [show b.toNat &&& 63 = b.toNat % 64 from Nat.and_two_pow_sub_one_eq_mod _ 6,
      ← Nat.shiftLeft_add_eq_or_of_lt (Nat.mod_lt _ (by decide)), Nat.shiftLeft_eq]
    omega
  rw [continuation]
  split
  · rename_i h
    exact ⟨nofun, fun heq => absurd ((continuation_byte b).mpr heq.1) h⟩
  · rename_i h
    have hb := (continuation_byte b).mp (not_not.mp h)
    rw [hbits hb]
    exact ⟨fun heq => ⟨hb, (Except.ok.inj heq).symm⟩, fun heq => heq.2 ▸ rfl⟩

theorem continuation_cons : (b :: l).foldlM continuation code = .ok code' ↔
      (128 ≤ b.toNat ∧ b.toNat < 192) ∧
        l.foldlM continuation (code * 64 + (b.toNat - 128)) = .ok code' := by
  rw [List.foldlM_cons, bind_eq_ok]
  constructor
  · rintro ⟨code₁, h₁, h⟩
    obtain ⟨hb, hcode⟩ := continuation_eq_ok.mp h₁
    exact ⟨hb, hcode ▸ h⟩
  · rintro ⟨hb, h⟩
    exact ⟨_, continuation_eq_ok.mpr ⟨hb, rfl⟩, h⟩

theorem continuation_nil : ([] : Bytes).foldlM continuation code = .ok code' ↔ code' = code := by
  rw [List.foldlM_nil]
  exact ⟨fun h => (Except.ok.inj h).symm, fun h => h ▸ rfl⟩

theorem lead_bits (a : UInt8) :
    a.toNat &&& 0x7f >>> 2 = a.toNat % 32 ∧ a.toNat &&& 0x7f >>> 3 = a.toNat % 16 ∧
      a.toNat &&& 0x7f >>> 4 = a.toNat % 8 :=
  ⟨Nat.and_two_pow_sub_one_eq_mod _ 5, Nat.and_two_pow_sub_one_eq_mod _ 4,
    Nat.and_two_pow_sub_one_eq_mod _ 3⟩

theorem width_eq (a : UInt8) : width a = if 0xc2 ≤ a.toNat ∧ a.toNat ≤ 0xdf then 2
      else if 0xe0 ≤ a.toNat ∧ a.toNat ≤ 0xef then 3
      else if 0xf0 ≤ a.toNat ∧ a.toNat ≤ 0xf4 then 4 else 0 := rfl

theorem width_cases (h : width a ≠ 0) : (width a = 2 ∧ 0xc2 ≤ a.toNat ∧ a.toNat ≤ 0xdf) ∨
      (width a = 3 ∧ 0xe0 ≤ a.toNat ∧ a.toNat ≤ 0xef) ∨
      (width a = 4 ∧ 0xf0 ≤ a.toNat ∧ a.toNat ≤ 0xf4) := by
  rw [width_eq] at h ⊢
  split_ifs at h ⊢ with h₂ h₃ h₄
  · exact .inl ⟨rfl, h₂⟩
  · exact .inr (.inl ⟨rfl, h₃⟩)
  · exact .inr (.inr ⟨rfl, h₄⟩)
  · exact absurd rfl h

theorem character_sound (h : character a s = .ok n) :
    ∃ c : Char, (a :: s).take n = String.utf8EncodeChar c := by
  rw [character] at h
  split at h
  · rename_i ha
    cases h
    exact ⟨_, (encodeChar_one (UInt8.lt_iff_toNat_lt.mp ha)).symm⟩
  dsimp only at h
  split at h
  · cases h
  rename_i hn
  obtain ⟨code, hcode, h⟩ := bind_eq_ok.mp h
  split at h
  · cases h
  rename_i hrange
  cases h
  obtain ⟨hlead₂, hlead₃, hlead₄⟩ := lead_bits a
  -- The number has the bytes as its encoding, by the form they have.
  rcases width_cases (a := a) (by omega) with ⟨hw, ha⟩ | ⟨hw, ha⟩ | ⟨hw, ha⟩
  · rw [hw] at hn hcode ⊢
    cases s with
    | nil => simp at hn
    | cons b s =>
      rw [show (b :: s).take (2 - 1) = [b] from rfl, continuation_cons] at hcode
      exact ⟨_, (encodeChar_two ha hcode.1).symm⟩
  · rw [hw] at hn hcode hrange ⊢
    rcases s with _ | ⟨b, _ | ⟨c, s⟩⟩
    · simp at hn
    · simp at hn
    · rw [show (b :: c :: s).take (3 - 1) = [b, c] from rfl, continuation_cons,
        continuation_cons, continuation_nil, hlead₃] at hcode
      obtain ⟨hb, hc, hcode⟩ := hcode
      refine ⟨_, (encodeChar_three (v := code) (by omega) ha hb hc (by omega) ?_).symm⟩
      rcases Nat.lt_or_ge code 0xd800 with h | h
      · exact .inl h
      · exact .inr ⟨by omega, by omega⟩
  · rw [hw] at hn hcode hrange ⊢
    rcases s with _ | ⟨b, _ | ⟨c, _ | ⟨d, s⟩⟩⟩
    · simp at hn
    · simp at hn
    · simp at hn
    · rw [show (b :: c :: d :: s).take (4 - 1) = [b, c, d] from rfl, continuation_cons,
        continuation_cons, continuation_cons, continuation_nil, hlead₄] at hcode
      obtain ⟨hb, hc, hd, hcode⟩ := hcode
      exact ⟨_, (encodeChar_four (v := code) (by omega) ha hb hc hd (by omega)
        (.inr ⟨by omega, by omega⟩)).symm⟩

/-- A character of more than one byte, from the number its bytes carry. -/
theorem character_eq (ha : 0x80 ≤ a.toNat) (hw : width a = n) (hn : n ≠ 0) (hlen : n ≤ s.length + 1)
    (hcode : (s.take (n - 1)).foldlM continuation (a.toNat &&& 0x7f >>> n) = .ok v)
    (hrange : ¬((n = 3 ∧ v < 0x800) ∨ (n = 4 ∧ v < 0x10000) ∨ (0xd800 ≤ v ∧ v ≤ 0xdfff) ∨
      0x10ffff < v)) : character a s = .ok n := by
  rw [character, if_neg (by rw [UInt8.lt_iff_toNat_lt]; exact Nat.not_lt.mpr ha)]
  subst hw
  dsimp only
  rw [if_neg (by omega), hcode, ok_bind, if_neg hrange]

theorem character_encode (c : Char) (rest : Bytes) (h : String.utf8EncodeChar c ++ rest = a :: s) :
    character a s = .ok (String.utf8EncodeChar c).length := by
  have hvalid : ¬(0xd800 ≤ c.toNat ∧ c.toNat ≤ 0xdfff) := by
    have : c.toNat < 0xd800 ∨ 0xdfff < c.toNat ∧ c.toNat < 0x110000 := c.valid
    omega
  obtain ⟨hlead₂, hlead₃, hlead₄⟩ := lead_bits a
  have hform := form c
  generalize String.utf8EncodeChar c = bytes at h hform ⊢
  cases hform with
  | one ha hv =>
    obtain ⟨rfl, rfl⟩ := List.cons.inj h
    exact if_pos (UInt8.lt_iff_toNat_lt.mpr (ha ▸ hv))
  | @two a b ha hb hv =>
    obtain ⟨rfl, rfl⟩ := List.cons.inj h
    have hw : width a = 2 := by rw [width_eq, if_pos (by omega)]
    show character a ([b] ++ rest) = .ok 2
    refine character_eq (v := c.toNat) (by omega) hw (Nat.succ_ne_zero _) (by simp) ?_ (by omega)
    show [b].foldlM continuation (a.toNat &&& 0x7f >>> 2) = _
    rw [continuation_cons, continuation_nil, hlead₂]
    omega
  | @three a b d ha hb hd hv =>
    obtain ⟨rfl, rfl⟩ := List.cons.inj h
    have hw : width a = 3 := by rw [width_eq, if_neg (by omega), if_pos (by omega)]
    show character a ([b, d] ++ rest) = .ok 3
    refine character_eq (v := c.toNat) (by omega) hw (Nat.succ_ne_zero _) (by simp) ?_ (by omega)
    show [b, d].foldlM continuation (a.toNat &&& 0x7f >>> 3) = _
    rw [continuation_cons, continuation_cons, continuation_nil, hlead₃]
    omega
  | @four a b d e ha hb hd he hv =>
    obtain ⟨rfl, rfl⟩ := List.cons.inj h
    have hw : width a = 4 := by
      rw [width_eq, if_neg (by omega), if_neg (by omega), if_pos (by omega)]
    show character a ([b, d, e] ++ rest) = .ok 4
    refine character_eq (v := c.toNat) (by omega) hw (Nat.succ_ne_zero _) (by simp) ?_ (by omega)
    show [b, d, e].foldlM continuation (a.toNat &&& 0x7f >>> 4) = _
    rw [continuation_cons, continuation_cons, continuation_cons, continuation_nil, hlead₄]
    omega

/-- The check of every character accepts exactly what is the encoding of characters. -/
theorem characters_eq_ok : characters s = .ok () ↔ ∃ t, s = encode t := by
  constructor
  · intro h
    induction hlen : s.length using Nat.strong_induction_on generalizing s with
    | _ k ih =>
      cases s with
      | nil => exact ⟨[], rfl⟩
      | cons a s =>
        rw [characters] at h
        obtain ⟨n, hn, h⟩ := bind_eq_ok.mp h
        obtain ⟨c, hc⟩ := character_sound hn
        have hpos := character_pos hn
        obtain ⟨t, ht⟩ := ih _ (by rw [← hlen, List.length_drop, List.length_cons]; omega) h rfl
        refine ⟨c :: t, ?_⟩
        rw [encode_cons, ← hc, ← ht, show s.drop (n - 1) = (a :: s).drop n by
          rw [show n = n - 1 + 1 by omega]; rfl, List.take_append_drop]
  · rintro ⟨t, rfl⟩
    induction t with
    | nil => rw [encode_nil, characters]
    | cons c t ih =>
      obtain ⟨a, s, hs⟩ := encodeChar_cons c
      have hlen : (String.utf8EncodeChar c).length = s.length + 1 := by rw [hs, List.length_cons]
      rw [encode_cons, hs, List.cons_append, characters,
        character_encode c (encode t) (by rw [hs, List.cons_append]), ok_bind, hlen,
        Nat.add_sub_cancel, List.drop_left, ih]

/-- The bits of a byte that carry the number are below those that carry the form. -/
theorem or_eq_add {x : Nat} : (x < 32 → 0xc0 ||| x = x + 192) ∧ (x < 16 → 0xe0 ||| x = x + 224) ∧
      (x < 8 → 0xf0 ||| x = x + 240) ∧ (x < 64 → 0x80 ||| x = x + 128) := by
  refine ⟨fun h => ?_, fun h => ?_, fun h => ?_, fun h => ?_⟩
  · rw [show 0xc0 = 6 <<< 5 from rfl, ← Nat.shiftLeft_add_eq_or_of_lt h, Nat.add_comm]
  · rw [show 0xe0 = 14 <<< 4 from rfl, ← Nat.shiftLeft_add_eq_or_of_lt h, Nat.add_comm]
  · rw [show 0xf0 = 30 <<< 3 from rfl, ← Nat.shiftLeft_add_eq_or_of_lt h, Nat.add_comm]
  · rw [show 0x80 = 2 <<< 6 from rfl, ← Nat.shiftLeft_add_eq_or_of_lt h, Nat.add_comm]

theorem utf8_eq (c : Char) : utf8 c.toNat = String.utf8EncodeChar c := by
  have hlt (x : Nat) : x % 64 < 64 := Nat.mod_lt _ (by decide)
  have hform := form c
  generalize String.utf8EncodeChar c = bytes at hform ⊢
  generalize c.toNat = v at hform
  have h64 (x : Nat) : x &&& 63 = x % 64 := Nat.and_two_pow_sub_one_eq_mod _ 6
  have h6 : v >>> 6 = v / 64 := Nat.shiftRight_eq_div_pow v 6
  have h12 : v >>> 12 = v / 4096 := Nat.shiftRight_eq_div_pow v 12
  have h18 : v >>> 18 = v / 262144 := Nat.shiftRight_eq_div_pow v 18
  rw [utf8, h6, h12, h18, h64, h64, h64, or_eq_add.2.2.2 (hlt _), or_eq_add.2.2.2 (hlt _),
    or_eq_add.2.2.2 (hlt _)]
  cases hform with
  | one ha hv => rw [if_pos hv, ofNat_eq ha.symm]
  | two ha hb hv =>
    rw [if_neg (by omega), if_pos hv.2, or_eq_add.1 (by omega), ofNat_eq ha.symm, ofNat_eq hb.symm]
  | three ha hb hc hv =>
    rw [if_neg (by omega), if_neg (by omega), if_neg (by omega), or_eq_add.2.1 (by omega),
      ofNat_eq ha.symm, ofNat_eq hb.symm, ofNat_eq hc.symm]
    rfl
  | four ha hb hc hd hv =>
    rw [if_neg (by omega), if_neg (by omega), if_pos (by omega), or_eq_add.2.2.1 (by omega),
      ofNat_eq ha.symm, ofNat_eq hb.symm, ofNat_eq hc.symm, ofNat_eq hd.symm]
    rfl

/-! ## Escapes -/

/-- `c` is the hexadecimal digit `d`. -/
def HexDigit (c : Char) (d : Nat) : Prop :=
  "0123456789abcdef".toList[d]? = some c ∨ "0123456789ABCDEF".toList[d]? = some c

instance (c : Char) (d : Nat) : Decidable (HexDigit c d) := inferInstanceAs (Decidable (_ ∨ _))

/-- Hexadecimal digits behind the number `code`. -/
inductive Hex : Nat → List Char → Nat → Prop where
  | nil {code : Nat} : Hex code [] code
  | cons {code d v : Nat} {c : Char} {x : List Char} (hc : HexDigit c d)
      (more : Hex (code * 16 + d) x v) : Hex code (c :: x) v

/-- Four hexadecimal digits and the number they are. -/
def Hex4 (x : List Char) (v : Nat) : Prop := x.length = 4 ∧ Hex 0 x v

/-- The letters behind a backslash, and what they stand for. -/
def escapes : List (Char × Char) :=
  [('"', '"'), ('\\', '\\'), ('/', '/'), ('b', '\x08'), ('f', '\x0c'), ('n', '\n'), ('r', '\r'),
    ('t', '\t')]

/-- What may follow a backslash, and the character it stands for. -/
inductive Escape : Char → List Char → Prop where
  | short {e c : Char} (h : (e, c) ∈ escapes) : Escape c [e]
  | unicode {x : List Char} {c : Char} (h : Hex4 x c.toNat) : Escape c ('u' :: x)
  | pair {x y : List Char} {high low : Nat} {c : Char} (hx : Hex4 x high) (hy : Hex4 y low)
      (hhigh : 0xd800 ≤ high ∧ high ≤ 0xdbff) (hlow : 0xdc00 ≤ low ∧ low ≤ 0xdfff)
      (hc : c.toNat = 0x10000 + (high - 0xd800) * 0x400 + (low - 0xdc00)) :
      Escape c ('u' :: (x ++ '\\' :: 'u' :: y))

theorem hexDigit_sound (h : hexDigit b = some d) :
    ∃ c, HexDigit c d ∧ String.utf8EncodeChar c = [b] := by
  have hall : ∀ b : UInt8, ∀ d ∈ hexDigit b, HexDigit (Char.ofNat b.toNat) d ∧ b.toNat < 128 :=
    forall_byte (by decide +kernel)
  obtain ⟨hc, hb⟩ := hall b d h
  exact ⟨_, hc, encodeChar_one hb⟩

theorem hexDigit_complete (h : HexDigit c d) :
    ∃ b, String.utf8EncodeChar c = [b] ∧ hexDigit b = some d := by
  let fits (d : Nat) (c : Char) : Bool := c.toNat < 128 && hexDigit (UInt8.ofNat c.toNat) == some d
  have hall : ∀ d < 16, "0123456789abcdef".toList[d]?.all (fits d) ∧
      "0123456789ABCDEF".toList[d]?.all (fits d) := by decide +kernel
  obtain ⟨hc, hd⟩ : c.toNat < 128 ∧ hexDigit (UInt8.ofNat c.toNat) = some d := by
    rcases h with h | h
    · have hfits := (hall d (List.getElem?_eq_some_iff.mp h).1).1
      rw [h] at hfits
      simpa [fits] using hfits
    · have hfits := (hall d (List.getElem?_eq_some_iff.mp h).1).2
      rw [h] at hfits
      simpa [fits] using hfits
  exact ⟨_, encodeChar_ascii hc, hd⟩

theorem hexDigits_eq_ok :
    hexDigits n code s = .ok (v, r) ↔ ∃ x, x.length = n ∧ Hex code x v ∧ s = encode x ++ r := by
  induction n generalizing code s with
  | zero =>
    constructor
    · intro h
      cases h
      exact ⟨[], rfl, .nil, rfl⟩
    · rintro ⟨x, hx, hhex, rfl⟩
      cases List.length_eq_zero_iff.mp hx
      cases hhex
      rfl
  | succ n ih =>
    constructor
    · intro h
      cases s with
      | nil => cases h
      | cons b s =>
        rw [hexDigits] at h
        split at h
        · cases h
        · rename_i d hd
          obtain ⟨x, hx, hhex, rfl⟩ := ih.mp h
          obtain ⟨c, hc, hb⟩ := hexDigit_sound hd
          exact ⟨c :: x, congrArg Nat.succ hx, .cons hc hhex, by rw [encode_cons, hb]; rfl⟩
    · rintro ⟨x, hx, hhex, rfl⟩
      cases hhex with
      | nil => cases hx
      | @cons _ d _ c x hc hhex =>
        obtain ⟨b, hb, hd⟩ := hexDigit_complete hc
        rw [encode_cons, hb, List.append_assoc, List.singleton_append, hexDigits, hd]
        exact ih.mpr ⟨x, Nat.succ.inj hx, hhex, rfl⟩

theorem hex4_eq_ok : hex4 s = .ok (v, r) ↔ ∃ x, Hex4 x v ∧ s = encode x ++ r := by
  rw [hex4, hexDigits_eq_ok]
  exact exists_congr fun x => and_assoc.symm

theorem HexDigit.lt (h : HexDigit c d) : d < 16 := by
  rcases h with h | h
  · exact (List.getElem?_eq_some_iff.mp h).1
  · exact (List.getElem?_eq_some_iff.mp h).1

theorem Hex.lt (h : Hex code x v) : v < (code + 1) * 16 ^ x.length := by
  induction h with
  | nil => simp
  | @cons code d v c x hc _ ih =>
    have hd := hc.lt
    calc v < (code * 16 + d + 1) * 16 ^ x.length := ih
      _ ≤ ((code + 1) * 16) * 16 ^ x.length := Nat.mul_le_mul_right _ (by omega)
      _ = (code + 1) * 16 ^ (x.length + 1) := by rw [Nat.mul_assoc, ← Nat.pow_succ']

theorem Hex4.lt (h : Hex4 x v) : v < 0x10000 := by
  have := h.2.lt
  rwa [h.1] at this

theorem require_eq_ok {c : UInt8} : require c s = .ok r ↔ s = c :: r := by
  cases s with
  | nil => exact ⟨fun h => (by cases h), fun h => (by cases h)⟩
  | cons d s =>
    rw [require]
    split
    · rename_i h
      exact ⟨fun heq => by rw [h, Except.ok.inj heq], fun heq => by rw [(List.cons.inj heq).2]⟩
    · rename_i h
      exact ⟨fun heq => (by cases heq), fun heq => absurd (List.cons.inj heq).1 h⟩

theorem surrogates_valid (hhigh : 0xd800 ≤ high ∧ high ≤ 0xdbff)
    (hlow : 0xdc00 ≤ low ∧ low ≤ 0xdfff) :
    Nat.isValidChar (0x10000 + (high - 0xd800) * 0x400 + (low - 0xdc00)) :=
  .inr ⟨by omega, by omega⟩

theorem shift_surrogates (hlow : 0xdc00 ≤ low) : 0x10000 + (high - 0xd800) <<< 10 + low - 0xdc00 =
      0x10000 + (high - 0xd800) * 0x400 + (low - 0xdc00) := by
  rw [Nat.shiftLeft_eq]
  omega

theorem unicode_sound (h : unicode s = .ok (out, r)) :
    ∃ c x, Escape c ('u' :: x) ∧ out = String.utf8EncodeChar c ∧ s = encode x ++ r := by
  rw [unicode] at h
  obtain ⟨⟨code, s₁⟩, hcode, h'⟩ := bind_eq_ok.mp h
  obtain ⟨x, hx, rfl⟩ := hex4_eq_ok.mp hcode
  have hlt := hx.lt
  dsimp only at h'
  split at h'
  · rename_i hhigh
    obtain ⟨s₂, hs₂, h₂⟩ := bind_eq_ok.mp h'
    obtain ⟨s₃, hs₃, h₃⟩ := bind_eq_ok.mp h₂
    obtain ⟨⟨low, s₄⟩, hs₄, h₄⟩ := bind_eq_ok.mp h₃
    obtain ⟨y, hy, rfl⟩ := hex4_eq_ok.mp hs₄
    obtain rfl := require_eq_ok.mp hs₃
    obtain rfl := require_eq_ok.mp hs₂
    dsimp only at h₄
    split at h₄
    · cases h₄
    · rename_i hlow
      obtain ⟨hout, rfl⟩ := Prod.mk.inj (Except.ok.inj h₄)
      have hlow' : 0xdc00 ≤ low ∧ low ≤ 0xdfff := by omega
      have hc := val_ofNat (surrogates_valid hhigh hlow')
      refine ⟨_, _, .pair hx hy hhigh hlow' hc, ?_, by rw [encode_append, List.append_assoc]; rfl⟩
      rw [← hout, shift_surrogates hlow'.1, ← utf8_eq]
      exact congrArg utf8 hc.symm
  split at h'
  · cases h'
  · rename_i hhigh hlow
    obtain ⟨hout, rfl⟩ := Prod.mk.inj (Except.ok.inj h')
    have hvalid : code.isValidChar := by
      rcases Nat.lt_or_ge code 0xd800 with h | h
      · exact .inl h
      · exact .inr ⟨by omega, by omega⟩
    have hc : (Char.ofNat code).toNat = code := val_ofNat hvalid
    refine ⟨Char.ofNat code, x, .unicode (hc.symm ▸ hx), ?_, rfl⟩
    rw [← hout, ← utf8_eq, hc]

theorem unicode_single (h : Hex4 x c.toNat) :
    unicode (encode x ++ r) = .ok (String.utf8EncodeChar c, r) := by
  have hvalid : c.toNat < 0xd800 ∨ 0xdfff < c.toNat ∧ c.toNat < 0x110000 := c.valid
  rw [unicode, hex4_eq_ok.mpr ⟨x, h, rfl⟩, ok_bind]
  dsimp only
  rw [if_neg (by omega), if_neg (by omega), utf8_eq]
  rfl

theorem unicode_pair (hx : Hex4 x high)
    (hy : Hex4 y low) (hhigh : 0xd800 ≤ high ∧ high ≤ 0xdbff) (hlow : 0xdc00 ≤ low ∧ low ≤ 0xdfff)
    (hc : c.toNat = 0x10000 + (high - 0xd800) * 0x400 + (low - 0xdc00)) :
    unicode (encode x ++ 92 :: 117 :: (encode y ++ r)) = .ok (String.utf8EncodeChar c, r) := by
  rw [unicode, hex4_eq_ok.mpr ⟨x, hx, rfl⟩, ok_bind]
  dsimp only
  rw [if_pos hhigh, require_eq_ok.mpr rfl, ok_bind, require_eq_ok.mpr rfl, ok_bind,
    hex4_eq_ok.mpr ⟨y, hy, rfl⟩, ok_bind]
  dsimp only
  rw [if_neg (by omega), shift_surrogates hlow.1, ← hc, utf8_eq]
  rfl

theorem escape_short (h : (e, c) ∈ escapes) :
    escape (encode [e] ++ r) = .ok (String.utf8EncodeChar c, r) := by
  simp only [escapes, List.mem_cons, Prod.mk.injEq, List.not_mem_nil, or_false] at h
  rcases h with ⟨rfl, rfl⟩ | ⟨rfl, rfl⟩ | ⟨rfl, rfl⟩ | ⟨rfl, rfl⟩ | ⟨rfl, rfl⟩ | ⟨rfl, rfl⟩ |
    ⟨rfl, rfl⟩ | ⟨rfl, rfl⟩ <;> rfl

theorem escape_sound (h : escape s = .ok (out, r)) :
    ∃ c x, Escape c x ∧ out = String.utf8EncodeChar c ∧ s = encode x ++ r := by
  have hshort {e c : Char} {b : UInt8} (hb : String.utf8EncodeChar e = [b])
      (hmem : (e, c) ∈ escapes) {s : Bytes} :
      ∃ c' x, Escape c' x ∧ String.utf8EncodeChar c = String.utf8EncodeChar c' ∧
        b :: s = encode x ++ s :=
    ⟨c, [e], .short hmem, rfl, by rw [encode_cons, hb]; rfl⟩
  cases s with
  | nil => cases h
  | cons b s =>
    rw [escape] at h
    split at h
    · rename_i hb
      cases h
      rcases hb with rfl | rfl | rfl
      · exact hshort (e := '"') (c := '"') rfl (by decide)
      · exact hshort (e := '\\') (c := '\\') rfl (by decide)
      · exact hshort (e := '/') (c := '/') rfl (by decide)
    split at h
    · rename_i hb; cases hb; cases h
      exact hshort (e := 'b') (c := '\x08') rfl (by decide)
    split at h
    · rename_i hb; cases hb; cases h
      exact hshort (e := 'f') (c := '\x0c') rfl (by decide)
    split at h
    · rename_i hb; cases hb; cases h
      exact hshort (e := 'n') (c := '\n') rfl (by decide)
    split at h
    · rename_i hb; cases hb; cases h
      exact hshort (e := 'r') (c := '\r') rfl (by decide)
    split at h
    · rename_i hb; cases hb; cases h
      exact hshort (e := 't') (c := '\t') rfl (by decide)
    split at h
    · rename_i hb
      cases hb
      obtain ⟨c, x, hx, hout, rfl⟩ := unicode_sound h
      exact ⟨c, 'u' :: x, hx, hout, rfl⟩
    · cases h

theorem escape_complete (h : Escape c x) :
    escape (encode x ++ r) = .ok (String.utf8EncodeChar c, r) := by
  cases h with
  | short h => exact escape_short h
  | unicode h => exact unicode_single h
  | @pair x y _ _ _ hx hy hhigh hlow hc =>
    have hsplit : encode ('u' :: (x ++ '\\' :: 'u' :: y)) ++ r =
        117 :: (encode x ++ 92 :: 117 :: (encode y ++ r)) := by
      show 117 :: (encode (x ++ '\\' :: 'u' :: y) ++ r) = _
      rw [encode_append, List.append_assoc]
      rfl
    rw [hsplit]
    exact unicode_pair hx hy hhigh hlow hc

/-! ## Strings -/

/-- What stands between the quotes of a string, `t`, and what it spells. -/
inductive Chars : List Char → List Char → Prop where
  | nil : Chars [] []
  | unescaped {c : Char} {d t : List Char} (hlow : 0x20 ≤ c.toNat) (hquote : c ≠ '"')
      (hslash : c ≠ '\\') (more : Chars d t) : Chars (c :: d) (c :: t)
  | escaped {c : Char} {x d t : List Char} (hx : Escape c x) (more : Chars d t) :
      Chars (c :: d) ('\\' :: (x ++ t))

theorem encode_head
    (h : b :: s = String.utf8EncodeChar c ++ rest) (hc : c.toNat < 128) : b.toNat = c.toNat := by
  rw [encodeChar_ascii hc] at h
  rw [(List.cons.inj h).1, toNat_ofNat (by omega)]

theorem encode_head_ge
    (h : b :: s = String.utf8EncodeChar c ++ rest) (hc : 128 ≤ c.toNat) : 128 ≤ b.toNat := by
  have hform := form c
  generalize String.utf8EncodeChar c = bytes at h hform
  cases hform with
  | one => omega
  | two => obtain ⟨rfl, -⟩ := List.cons.inj h; omega
  | three => obtain ⟨rfl, -⟩ := List.cons.inj h; omega
  | four => obtain ⟨rfl, -⟩ := List.cons.inj h; omega

theorem stringLoop_sound (h : stringLoop.loop out s = .ok (out', r)) :
    ∃ d t, Chars d t ∧ s = encode t ++ 34 :: r ∧ out' = out ++ encode d := by
  refine stringLoop.loop_induction
    (Q := fun out s out' r => ∃ d t, Chars d t ∧ s = encode t ++ 34 :: r ∧ out' = out ++ encode d)
    ?_ ?_ h
  · intro out s out' r h
    cases s with
    | nil => cases h
    | cons b s =>
      change stringRound out (b :: s) = _ at h
      rw [stringRound] at h
      split at h
      · rename_i hb
        cases hb
        cases h
        exact ⟨[], [], .nil, rfl, by simp⟩
      split at h
      · cases h
      split at h
      · obtain ⟨_, -, h⟩ := bind_eq_ok.mp h
        cases h
      · obtain ⟨_, -, h⟩ := bind_eq_ok.mp h
        cases h
  · intro out s out₁ s₁ out' r h ih
    cases s with
    | nil => cases h
    | cons b s =>
      change stringRound out (b :: s) = _ at h
      rw [stringRound] at h
      split at h
      · cases h
      rename_i hquote
      split at h
      · cases h
      rename_i hlow
      obtain ⟨d, t, ht, hs₁, hout'⟩ := ih
      split at h
      · rename_i hslash
        cases hslash
        obtain ⟨⟨unit, s'⟩, hs', h⟩ := bind_eq_ok.mp h
        cases h
        obtain ⟨c, x, hx, hunit, hs⟩ := escape_sound hs'
        refine ⟨c :: d, '\\' :: (x ++ t), .escaped hx ht, ?_, ?_⟩
        · show 92 :: s = 92 :: (encode (x ++ t) ++ 34 :: r)
          rw [hs, hs₁, encode_append, List.append_assoc]
        · rw [hout', hunit, encode_cons, List.append_assoc]
      · rename_i hslash
        obtain ⟨n, hn, h⟩ := bind_eq_ok.mp h
        cases h
        obtain ⟨c, hc⟩ := character_sound hn
        have hs : b :: s = String.utf8EncodeChar c ++ (b :: s).drop n := by
          rw [← hc, List.take_append_drop]
        refine ⟨c :: d, c :: t, .unescaped ?_ ?_ ?_ ht, ?_, ?_⟩
        · by_contra hlt
          have := encode_head hs (by omega)
          exact hlow (UInt8.lt_iff_toNat_lt.mpr (show b.toNat < 32 by omega))
        · rintro rfl
          exact hquote (List.cons.inj hs).1
        · rintro rfl
          exact hslash (List.cons.inj hs).1
        · rw [hs, hs₁, encode_cons, List.append_assoc]
        · rw [hout', hc, encode_cons, List.append_assoc]

theorem stringLoop_complete {d : List Char} (h : Chars d t) :
    stringLoop.loop out (encode t ++ 34 :: r) = .ok (out ++ encode d, r) := by
  induction h generalizing out with
  | nil =>
    refine stringLoop.loop_stop ?_
    rw [encode_nil, List.append_nil]
    rfl
  | @unescaped c d t hlow hquote hslash _ ih =>
    rw [encode_cons, encode_cons, ← List.append_assoc out, List.append_assoc, ← ih]
    refine stringLoop.loop_next ?_
    generalize hrest : encode t ++ 34 :: r = rest
    obtain ⟨b, s, hs⟩ : ∃ b s, b :: s = String.utf8EncodeChar c ++ rest := by
      have hform := form c
      generalize String.utf8EncodeChar c = bytes at hform ⊢
      cases hform <;> exact ⟨_, _, rfl⟩
    -- The first byte is not one of those the loop looks for.
    have hne {e : Char} (he : e.toNat < 128) (hce : c ≠ e) : b.toNat ≠ e.toNat := by
      intro hbe
      rcases Nat.lt_or_ge c.toNat 128 with hc | hc
      · exact hce (Char.toNat_inj.mp ((encode_head hs hc).symm.trans hbe))
      · have := encode_head_ge hs hc
        omega
    have hge : 32 ≤ b.toNat := by
      rcases Nat.lt_or_ge c.toNat 128 with hc | hc
      · rw [encode_head hs hc]; exact hlow
      · exact (by decide : 32 ≤ 128).trans (encode_head_ge hs hc)
    show stringRound out _ = _
    rw [← hs, stringRound,
      if_neg fun hb => hne (e := '"') (by decide) hquote (congrArg UInt8.toNat hb),
      if_neg (by rw [UInt8.lt_iff_toNat_lt]; exact Nat.not_lt.mpr hge),
      if_neg fun hb => hne (e := '\\') (by decide) hslash (congrArg UInt8.toNat hb),
      character_encode c rest hs.symm, ok_bind, hs, List.take_left, List.drop_left]
    rfl
  | @escaped c x d t hx _ ih =>
    rw [encode_cons c, ← List.append_assoc out, ← ih]
    refine stringLoop.loop_next ?_
    show stringRound out (92 :: (encode (x ++ t) ++ 34 :: r)) = _
    rw [encode_append, List.append_assoc]
    show (escape _ >>= _) = _
    rw [escape_complete hx, ok_bind]
    rfl

theorem string_sound (h : string s = .ok (out, r)) :
    ∃ d t, Chars d t ∧ s = 34 :: (encode t ++ 34 :: r) ∧ out = encode d := by
  obtain ⟨s₁, hs₁, h⟩ := bind_eq_ok.mp h
  obtain ⟨d, t, ht, rfl, rfl⟩ := stringLoop_sound h
  exact ⟨d, t, ht, require_eq_ok.mp hs₁, rfl⟩

theorem string_complete {d : List Char} (h : Chars d t) :
    string (34 :: (encode t ++ 34 :: r)) = .ok (encode d, r) := by
  show stringLoop.loop [] (encode t ++ 34 :: r) = _
  rw [stringLoop_complete h]
  rfl

end CoreSql.Json
