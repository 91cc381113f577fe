import CoreSql.Proofs.JsonText

/-!
# The documents that are JSON

The grammar of RFC 8259, over characters: words, numbers, strings, arrays and
objects, with blanks around structural characters. It is stated a level at a
time. `Layer V` are the values whose nested values are in `V`, so that
`Document k` are the values with nothing nested deeper than `k` levels; the
names of an object are compared as what they spell.

`parse` follows the same levels. One level of it reads exactly the encodings
of one level of the grammar (`Recognises`), as long as what follows does not
go on with a number, which nothing that can follow a value does.
-/

namespace CoreSql.Json

open Consume Fallible Utf8

variable {p q : UInt8 → Bool} {P : Char → Prop} {t w sign minus w' : List Char} {r s : Bytes}

/-! ## Runs of bytes -/

def ahead (p : UInt8 → Bool) (s : Bytes) : Bool := s.head?.any p

@[simp] theorem ahead_cons (p : UInt8 → Bool) (b : UInt8) (s : Bytes) :
    ahead p (b :: s) = p b := rfl

theorem run_sound (hp : ∀ b, p b = true → b.toNat < 128 ∧ P (Char.ofNat b.toNat)) (s : Bytes) :
    ∃ t, (∀ c ∈ t, P c) ∧ s = encode t ++ s.dropWhile p := by
  induction s with
  | nil => exact ⟨[], by simp, rfl⟩
  | cons b s ih =>
    by_cases hb : p b = true
    · obtain ⟨t, ht, hs⟩ := ih
      obtain ⟨hlt, hP⟩ := hp b hb
      refine ⟨Char.ofNat b.toNat :: t, List.forall_mem_cons.mpr ⟨hP, ht⟩, ?_⟩
      rw [List.dropWhile_cons_of_pos hb, encode_cons, encodeChar_one hlt, List.append_assoc, ← hs]
      rfl
    · refine ⟨[], by simp, ?_⟩
      rw [List.dropWhile_cons_of_neg hb]
      rfl

theorem run_complete (hP : ∀ c, P c → ∃ b, String.utf8EncodeChar c = [b] ∧ p b = true)
    (ht : ∀ c ∈ t, P c) (hr : ahead p r = false) : (encode t ++ r).dropWhile p = r := by
  induction t with
  | nil =>
    cases r with
    | nil => rfl
    | cons b r => exact List.dropWhile_cons_of_neg (by simpa using hr)
  | cons c t ih =>
    obtain ⟨hc, ht⟩ := List.forall_mem_cons.mp ht
    obtain ⟨b, hb, hpb⟩ := hP c hc
    rw [encode_cons, hb, List.append_assoc, List.singleton_append,
      List.dropWhile_cons_of_pos hpb, ih ht]

/-- `ws` of the grammar. -/
def Ws (t : List Char) : Prop := ∀ c ∈ t, c ∈ [' ', '\t', '\n', '\r']

theorem whitespace_sound (s : Bytes) : ∃ w, Ws w ∧ s = encode w ++ whitespace s := by
  refine run_sound ?_ s
  exact forall_byte (by decide +kernel)

theorem whitespace_complete (hw : Ws w) (hr : ahead blank r = false) :
    whitespace (encode w ++ r) = r := by
  refine run_complete (fun c hc => ?_) hw hr
  simp only [List.mem_cons, List.not_mem_nil, or_false] at hc
  rcases hc with rfl | rfl | rfl | rfl
  all_goals exact ⟨_, rfl, rfl⟩

/-! ## Numbers -/

def Digits (t : List Char) : Prop := t ≠ [] ∧ ∀ c ∈ t, c.isDigit = true

/-- `int` of the grammar. -/
inductive Whole : List Char → Prop where
  | zero : Whole ['0']
  | digits {c : Char} {t : List Char} (hc : c.isDigit = true) (hzero : c ≠ '0')
      (ht : ∀ d ∈ t, d.isDigit = true) : Whole (c :: t)

/-- `[ frac ]` of the grammar. -/
inductive Fraction : List Char → Prop where
  | none : Fraction []
  | some {t : List Char} (ht : Digits t) : Fraction ('.' :: t)

/-- `[ exp ]` of the grammar. -/
inductive Exponent : List Char → Prop where
  | none : Exponent []
  | some {e : Char} {sign t : List Char} (he : e ∈ ['e', 'E']) (hsign : sign ∈ [[], ['+'], ['-']])
      (ht : Digits t) : Exponent (e :: (sign ++ t))

/-- `number` of the grammar. -/
def Number (t : List Char) : Prop :=
  ∃ minus w f e, minus ∈ [[], ['-']] ∧ Whole w ∧ Fraction f ∧ Exponent e ∧
    t = minus ++ (w ++ (f ++ e))

theorem digit_char : ∀ b : UInt8, digit b = true →
    b.toNat < 128 ∧ (Char.ofNat b.toNat).isDigit = true :=
  forall_byte (by decide +kernel)

theorem digit_iff (b : UInt8) : digit b = true ↔ 48 ≤ b.toNat ∧ b.toNat ≤ 57 := by
  revert b
  exact forall_byte (by decide +kernel)

theorem digit_run (s : Bytes) :
    ∃ t, (∀ c ∈ t, c.isDigit = true) ∧ s = encode t ++ s.dropWhile digit :=
  run_sound (P := fun c => c.isDigit = true) digit_char s

theorem digit_byte (c : Char) (h : c.isDigit = true) :
    ∃ b, String.utf8EncodeChar c = [b] ∧ digit b = true := by
  have hc : 48 ≤ c.toNat ∧ c.toNat ≤ 57 := by
    simpa [Char.isDigit, UInt32.le_iff_toNat_le] using h
  refine ⟨_, encodeChar_ascii (by omega), (digit_iff _).mpr ?_⟩
  rw [toNat_ofNat (by omega)]
  exact hc

theorem digits_sound (h : digits s = .ok r) : ∃ t, Digits t ∧ s = encode t ++ r := by
  rw [digits] at h
  split at h
  · rename_i hs
    cases h
    obtain ⟨t, ht, hst⟩ := digit_run s
    refine ⟨t, ⟨?_, ht⟩, hst⟩
    rintro rfl
    -- Something was read: the first byte is a digit.
    cases s with
    | nil => cases hs
    | cons b s =>
      have hlen := congrArg List.length hst
      rw [List.dropWhile_cons_of_pos (by simpa using hs)] at hlen
      have hle := (List.dropWhile_suffix (l := s) digit).length_le
      simp at hlen
      omega
  · cases h

theorem digits_complete (h : Digits t) (hr : ahead digit r = false) :
    digits (encode t ++ r) = .ok r := by
  obtain ⟨hne, ht⟩ := h
  have hhead : (encode t ++ r).head?.any digit = true := by
    cases t with
    | nil => exact absurd rfl hne
    | cons c t =>
      obtain ⟨b, hb, hd⟩ := digit_byte c (ht c List.mem_cons_self)
      rw [encode_cons, hb]
      exact hd
  rw [digits, if_pos hhead, run_complete digit_byte ht hr]

theorem whole_sound (h : whole s = .ok r) : ∃ t, Whole t ∧ s = encode t ++ r := by
  cases s with
  | nil => cases h
  | cons b s =>
    rw [whole] at h
    split at h
    · rename_i hb
      cases hb
      cases h
      exact ⟨['0'], .zero, rfl⟩
    split at h
    · rename_i hzero hb
      have hd : digit b = true := (digit_iff _).mpr
        ⟨Nat.le_of_succ_le (UInt8.le_iff_toNat_le.mp hb.1), UInt8.le_iff_toNat_le.mp hb.2⟩
      obtain ⟨hlt, hdigit⟩ := digit_char b hd
      obtain ⟨t, ht, hs⟩ := digit_run s
      rw [List.dropWhile_cons_of_pos hd] at h
      cases h
      refine ⟨Char.ofNat b.toNat :: t, .digits hdigit ?_ ht, ?_⟩
      · intro hc
        have := encodeChar_one hlt
        rw [hc] at this
        exact hzero (List.cons.inj this).1.symm
      · rw [encode_cons, encodeChar_one hlt, List.append_assoc, ← hs]
        rfl
    · cases h

theorem whole_complete (h : Whole t) (hr : ahead digit r = false) :
    whole (encode t ++ r) = .ok r := by
  cases h with
  | zero => rfl
  | @digits c t hc hzero ht =>
    obtain ⟨b, hb, hd⟩ := digit_byte c hc
    have hne : b ≠ 48 := by
      rintro rfl
      have : [c] = ['0'] := encode_injective (by rw [encode_cons, hb]; rfl)
      exact hzero (List.cons.inj this).1
    have hrun := run_complete (t := c :: t) digit_byte (List.forall_mem_cons.mpr ⟨hc, ht⟩) hr
    rw [encode_cons, hb] at hrun ⊢
    have hrange : 49 ≤ b ∧ b ≤ 57 := by
      have := (digit_iff b).mp hd
      have := mt UInt8.toNat_inj.mp hne
      rw [UInt8.le_iff_toNat_le, UInt8.le_iff_toNat_le]
      simp only [UInt8.reduceToNat] at this ⊢
      omega
    show (if b = 48 then _ else _) = _
    rw [if_neg hne, if_pos hrange]
    exact congrArg Except.ok hrun

def goesOn (b : UInt8) : Bool := digit b || b == 46 || b == 101 || b == 69

theorem goesOn_false {b : UInt8} (h : goesOn b = false) :
    digit b = false ∧ b ≠ 46 ∧ ¬(b = 101 ∨ b = 69) := by
  simp only [goesOn, Bool.or_eq_false_iff, beq_eq_false_iff_ne] at h
  exact ⟨h.1.1.1, h.1.1.2, not_or.mpr ⟨h.1.2, h.2⟩⟩

theorem ahead_digit (h : ahead goesOn r = false) : ahead digit r = false := by
  cases r with
  | nil => rfl
  | cons b r => exact (goesOn_false h).1

theorem fraction_sound (h : fraction s = .ok r) : ∃ t, Fraction t ∧ s = encode t ++ r := by
  cases s with
  | nil => cases h; exact ⟨[], .none, rfl⟩
  | cons b s =>
    rw [fraction] at h
    split at h
    · rename_i hb
      cases hb
      obtain ⟨t, ht, rfl⟩ := digits_sound h
      exact ⟨'.' :: t, .some ht, rfl⟩
    · cases h; exact ⟨[], .none, rfl⟩

theorem fraction_complete (h : Fraction t) (hr : ahead digit r = false)
    (hdot : ahead (· == 46) r = false) : fraction (encode t ++ r) = .ok r := by
  cases h with
  | none =>
    cases r with
    | nil => rfl
    | cons b r => exact if_neg (by simpa using hdot)
  | some ht => exact digits_complete ht hr

theorem skipSign_sound (s : Bytes) :
    ∃ sign, sign ∈ [[], ['+'], ['-']] ∧ s = encode sign ++ skipSign s := by
  cases s with
  | nil => exact ⟨[], by decide, rfl⟩
  | cons b s =>
    rw [skipSign]
    split
    · rename_i hb
      rcases hb with rfl | rfl
      · exact ⟨['+'], by decide, rfl⟩
      · exact ⟨['-'], by decide, rfl⟩
    · exact ⟨[], by decide, rfl⟩

theorem skipSign_complete (h : sign ∈ [[], ['+'], ['-']])
    (ht : Digits t) : skipSign (encode sign ++ (encode t ++ r)) = encode t ++ r := by
  simp only [List.mem_cons, List.not_mem_nil, or_false] at h
  rcases h with rfl | rfl | rfl
  · cases t with
    | nil => exact absurd rfl ht.1
    | cons c t =>
      obtain ⟨b, hb, hd⟩ := digit_byte c (ht.2 c List.mem_cons_self)
      rw [encode_cons, hb]
      refine if_neg ?_
      rintro (rfl | rfl) <;> cases hd
  · rfl
  · rfl

theorem exponent_sound (h : exponent s = .ok r) : ∃ t, Exponent t ∧ s = encode t ++ r := by
  cases s with
  | nil => cases h; exact ⟨[], .none, rfl⟩
  | cons b s =>
    rw [exponent] at h
    split at h
    · rename_i hb
      obtain ⟨t, ht, hs⟩ := digits_sound h
      obtain ⟨sign, hsign, hskip⟩ := skipSign_sound s
      rw [hs, ← List.append_assoc, ← encode_append] at hskip
      rcases hb with rfl | rfl
      · exact ⟨'e' :: (sign ++ t), .some (by decide) hsign ht, congrArg (List.cons 101) hskip⟩
      · exact ⟨'E' :: (sign ++ t), .some (by decide) hsign ht, congrArg (List.cons 69) hskip⟩
    · cases h; exact ⟨[], .none, rfl⟩

theorem exponent_complete (h : Exponent t)
    (hr : ahead goesOn r = false) : exponent (encode t ++ r) = .ok r := by
  cases h with
  | none =>
    cases r with
    | nil => rfl
    | cons b r => exact if_neg (goesOn_false hr).2.2
  | @some e sign t he hsign ht =>
    have hdigits : digits (skipSign (encode (sign ++ t) ++ r)) = .ok r := by
      rw [encode_append, List.append_assoc, skipSign_complete hsign ht,
        digits_complete ht (ahead_digit hr)]
    simp only [List.mem_cons, List.not_mem_nil, or_false] at he
    rcases he with rfl | rfl <;> exact hdigits

theorem number_sound (h : number s = .ok r) : ∃ t, Number t ∧ s = encode t ++ r := by
  obtain ⟨s₁, hs₁, h₁⟩ := bind_eq_ok.mp h
  obtain ⟨s₂, hs₂, h₂⟩ := bind_eq_ok.mp h₁
  obtain ⟨w, hw, hskip⟩ := whole_sound hs₁
  obtain ⟨f, hf, rfl⟩ := fraction_sound hs₂
  obtain ⟨e, he, rfl⟩ := exponent_sound h₂
  have hminus : ∃ minus, minus ∈ [[], ['-']] ∧ s = encode minus ++ skip 45 s := by
    cases s with
    | nil => exact ⟨[], by decide, rfl⟩
    | cons b s =>
      rw [skip]
      split
      · rename_i hb
        cases hb
        exact ⟨['-'], by decide, rfl⟩
      · exact ⟨[], by decide, rfl⟩
  obtain ⟨minus, hm, hs⟩ := hminus
  refine ⟨_, ⟨minus, w, f, e, hm, hw, hf, he, rfl⟩, ?_⟩
  rw [hs, hskip]
  simp only [encode_append, List.append_assoc]

theorem Exponent.ahead (h : Exponent t) (hr : ahead goesOn r = false) :
    Json.ahead digit (encode t ++ r) = false ∧ Json.ahead (· == 46) (encode t ++ r) = false := by
  cases h with
  | none =>
    refine ⟨ahead_digit hr, ?_⟩
    cases r with
    | nil => rfl
    | cons b r => simpa using (goesOn_false hr).2.1
  | some he =>
    simp only [List.mem_cons, List.not_mem_nil, or_false] at he
    rcases he with rfl | rfl <;> exact ⟨rfl, rfl⟩

theorem skip_minus (hm : minus ∈ [[], ['-']]) (hw : Whole w) :
    skip 45 (encode minus ++ (encode w ++ r)) = encode w ++ r := by
  simp only [List.mem_cons, List.not_mem_nil, or_false] at hm
  rcases hm with rfl | rfl
  · cases hw with
    | zero => rfl
    | digits hc =>
      obtain ⟨b, hb, hd⟩ := digit_byte _ hc
      rw [encode_cons, hb]
      refine if_neg ?_
      rintro rfl
      cases hd
  · rfl

theorem number_complete (h : Number t) (hr : ahead goesOn r = false) :
    number (encode t ++ r) = .ok r := by
  obtain ⟨minus, w, f, e, hm, hw, hf, he, rfl⟩ := h
  obtain ⟨hdigit, hdot⟩ := he.ahead hr
  have hfraction : fraction (encode f ++ (encode e ++ r)) = .ok (encode e ++ r) :=
    fraction_complete hf hdigit hdot
  have hafter : ahead digit (encode f ++ (encode e ++ r)) = false := by
    cases hf with
    | none => exact hdigit
    | some => rfl
  have hwhole := whole_complete hw hafter
  simp only [encode_append, List.append_assoc]
  rw [number, skip_minus hm hw, hwhole, ok_bind, hfraction, ok_bind, exponent_complete he hr]

/-! ## Values -/

def Padded (V : List Char → Prop) (t : List Char) : Prop :=
  ∃ w v w', Ws w ∧ V v ∧ Ws w' ∧ t = w ++ (v ++ w')

/-- The elements of an array that is not empty, with the commas between them. -/
inductive Elements (V : List Char → Prop) : List Char → Prop where
  | one {t : List Char} (ht : Padded V t) : Elements V t
  | more {t t' : List Char} (ht : Padded V t) (more : Elements V t') : Elements V (t ++ ',' :: t')

def Name (d t : List Char) : Prop :=
  ∃ w s w', Ws w ∧ Chars d s ∧ Ws w' ∧ t = w ++ '"' :: (s ++ '"' :: (w' ++ [':']))

/-- The members of an object that is not empty, and the names they have. -/
inductive Members (V : List Char → Prop) : List (List Char) → List Char → Prop where
  | one {d n t : List Char} (hn : Name d n) (ht : Padded V t) : Members V [d] (n ++ t)
  | more {d n t t' : List Char} {names : List (List Char)} (hn : Name d n) (ht : Padded V t)
      (more : Members V names t') : Members V (d :: names) (n ++ (t ++ ',' :: t'))

/-- The values whose nested values are in `V`. -/
inductive Layer (V : List Char → Prop) : List Char → Prop where
  | word {t : List Char} (h : t ∈ ["true".toList, "false".toList, "null".toList]) : Layer V t
  | number {t : List Char} (h : Number t) : Layer V t
  | string {d t : List Char} (h : Chars d t) : Layer V ('"' :: (t ++ ['"']))
  | emptyArray {w : List Char} (h : Ws w) : Layer V ('[' :: (w ++ [']']))
  | array {t : List Char} (h : Elements V t) : Layer V ('[' :: (t ++ [']']))
  | emptyObject {w : List Char} (h : Ws w) : Layer V ('{' :: (w ++ ['}']))
  | object {names : List (List Char)} {t : List Char} (h : Members V names t)
      (hnames : names.Nodup) : Layer V ('{' :: (t ++ ['}']))

/-- The values in which nothing is nested deeper than `k` levels. -/
def Document : Nat → List Char → Prop
  | 0 => Layer fun _ => False
  | k + 1 => Layer (Document k)

def begins (b : UInt8) : Bool :=
  digit b || b == 45 || b == 34 || b == 123 || b == 91 || b == 116 || b == 102 || b == 110

/-- `nested` reads the encodings of `V`, blanks in front of them included. -/
structure Recognises (nested : Nested) (V : List Char → Prop) : Prop where
  sound : ∀ {s u r}, nested.run s = .ok (u, r) → ∃ w t, Ws w ∧ V t ∧ s = encode w ++ (encode t ++ r)
  complete : ∀ {w t r}, Ws w → V t → ahead goesOn r = false →
    nested.run (encode w ++ (encode t ++ r)) = .ok ((), r)
  starts : ∀ {t}, V t → ahead begins (encode t) = true

@[simp] theorem encode_quote (t : List Char) : encode ('"' :: t) = 34 :: encode t := rfl

@[simp] theorem encode_comma (t : List Char) : encode (',' :: t) = 44 :: encode t := rfl

@[simp] theorem encode_colon (t : List Char) : encode (':' :: t) = 58 :: encode t := rfl

@[simp] theorem encode_open (t : List Char) : encode ('[' :: t) = 91 :: encode t := rfl

@[simp] theorem encode_close (t : List Char) : encode (']' :: t) = 93 :: encode t := rfl

@[simp] theorem encode_openBrace (t : List Char) : encode ('\x7b' :: t) = 123 :: encode t := rfl

@[simp] theorem encode_closeBrace (t : List Char) : encode ('\x7d' :: t) = 125 :: encode t := rfl

theorem Ws.append (hw : Ws w) (hw' : Ws w') : Ws (w ++ w') :=
  fun c hc => (List.mem_append.mp hc).elim (hw c) (hw' c)

theorem Ws.nil : Ws [] := fun _ h => nomatch h

theorem ahead_ws (hw : Ws w) (hr : ahead goesOn r = false) :
    ahead goesOn (encode w ++ r) = false := by
  cases w with
  | nil => exact hr
  | cons c w =>
    have hc := hw c List.mem_cons_self
    simp only [List.mem_cons, List.not_mem_nil, or_false] at hc
    rcases hc with rfl | rfl | rfl | rfl <;> rfl

theorem ahead_append (r : Bytes) (h : ahead p s = true) : ahead p (s ++ r) = true := by
  cases s with
  | nil => cases h
  | cons => exact h

theorem ahead_mono (hpq : ∀ b, p b = true → q b = true)
    (h : ahead p s = true) : ahead q s = true := by
  cases s with
  | nil => cases h
  | cons b s => exact hpq b h

theorem begins_not_blank : ∀ b : UInt8, begins b = true → blank b = false ∧ b ≠ 93 ∧ b ≠ 125 :=
  forall_byte (by decide +kernel)

theorem ahead_begins (h : ahead begins s = true) :
    ahead blank s = false ∧ (∀ r, s ≠ 93 :: r) ∧ ∀ r, s ≠ 125 :: r := by
  cases s with
  | nil => cases h
  | cons b s =>
    obtain ⟨hblank, hclose, hbrace⟩ := begins_not_blank b h
    exact ⟨hblank, fun r hr => hclose (List.cons.inj hr).1, fun r hr => hbrace (List.cons.inj hr).1⟩

namespace Recognises

variable {nested : Nested} {V : List Char → Prop} (H : Recognises nested V) {s s₁ r s₂ key : Bytes}
  {u : Unit} {b : UInt8} {t w d n : List Char} {seen : List Bytes} {names : List (List Char)}

include H

theorem padded_sound (h : nested.run s = .ok (u, s₁))
    (hb : whitespace s₁ = b :: r) : ∃ t, Padded V t ∧ s = encode t ++ b :: r := by
  obtain ⟨w, v, hw, hv, rfl⟩ := H.sound h
  obtain ⟨w', hw', hs₁⟩ := whitespace_sound s₁
  refine ⟨_, ⟨w, v, w', hw, hv, hw', rfl⟩, ?_⟩
  rw [hb] at hs₁
  simp only [encode_append, List.append_assoc, ← hs₁]

theorem padded_complete (h : Padded V t) (hblank : blank b = false) (hb : goesOn b = false) :
    ∃ s₁, nested.run (encode t ++ b :: r) = .ok ((), s₁) ∧ whitespace s₁ = b :: r := by
  obtain ⟨w, v, w', hw, hv, hw', rfl⟩ := h
  refine ⟨encode w' ++ b :: r, ?_, whitespace_complete hw' hblank⟩
  rw [encode_append, encode_append, List.append_assoc, List.append_assoc]
  exact H.complete hw hv (ahead_ws hw' hb)

/-! ### Arrays -/

theorem elements_sound (h : (elements nested).loop () s = .ok (u, r)) :
    ∃ t, Elements V t ∧ s = encode t ++ 93 :: r := by
  refine (elements nested).loop_induction
    (Q := fun _ s _ r => ∃ t, Elements V t ∧ s = encode t ++ 93 :: r) ?_ ?_ h
  · intro a s b r h
    obtain ⟨⟨_, s₁⟩, hs₁, h₁⟩ := bind_eq_ok.mp h
    dsimp only at h₁
    split at h₁
    · rename_i hb
      cases h₁
      obtain ⟨t, ht, rfl⟩ := H.padded_sound hs₁ hb
      exact ⟨t, .one ht, rfl⟩
    · cases h₁
    · cases h₁
  · intro a s a' s' b r h ih
    obtain ⟨⟨_, s₁⟩, hs₁, h₁⟩ := bind_eq_ok.mp h
    dsimp only at h₁
    split at h₁
    · cases h₁
    · rename_i hb
      cases h₁
      obtain ⟨t, ht, rfl⟩ := H.padded_sound hs₁ hb
      obtain ⟨t', ht', rfl⟩ := ih
      exact ⟨t ++ ',' :: t', .more ht ht', by rw [encode_append, List.append_assoc]; rfl⟩
    · cases h₁

theorem elements_complete (h : Elements V t) :
    (elements nested).loop () (encode t ++ 93 :: r) = .ok ((), r) := by
  induction h with
  | one ht =>
    obtain ⟨s₁, hs₁, hb⟩ := H.padded_complete (r := r) ht (b := 93) rfl rfl
    refine (elements nested).loop_stop ?_
    show (nested.run _ >>= _) = _
    rw [hs₁, ok_bind]
    dsimp only
    rw [hb]
    rfl
  | @more t t' ht _ ih =>
    obtain ⟨s₁, hs₁, hb⟩ := H.padded_complete (r := encode t' ++ 93 :: r) ht (b := 44) rfl rfl
    rw [encode_append, List.append_assoc, ← ih]
    refine (elements nested).loop_next ?_
    show (nested.run (encode t ++ 44 :: (encode t' ++ 93 :: r)) >>= _) = _
    rw [hs₁, ok_bind]
    dsimp only
    rw [hb]
    rfl

omit H in
theorem pad_elements (hw : Ws w) (h : Elements V t) : Elements V (w ++ t) := by
  have hpad {t : List Char} (ht : Padded V t) : Padded V (w ++ t) := by
    obtain ⟨w₁, v, w₂, hw₁, hv, hw₂, rfl⟩ := ht
    exact ⟨w ++ w₁, v, w₂, hw.append hw₁, hv, hw₂, by rw [List.append_assoc]⟩
  cases h with
  | one ht => exact .one (hpad ht)
  | more ht more => rw [← List.append_assoc]; exact .more (hpad ht) more

/-- The blanks in front of the first element, which are read before it. -/
theorem strip_elements (h : Elements V t) :
    ∃ w t', Ws w ∧ Elements V t' ∧ t = w ++ t' ∧ ahead begins (encode t') = true := by
  have hstrip {t : List Char} (ht : Padded V t) :
      ∃ w t', Ws w ∧ Padded V t' ∧ t = w ++ t' ∧ ahead begins (encode t') = true := by
    obtain ⟨w₁, v, w₂, hw₁, hv, hw₂, rfl⟩ := ht
    refine ⟨w₁, v ++ w₂, hw₁, ⟨[], v, w₂, .nil, hv, hw₂, rfl⟩, rfl, ?_⟩
    rw [encode_append]
    exact ahead_append _ (H.starts hv)
  cases h with
  | one ht =>
    obtain ⟨w, t', hw, ht', rfl, hbegins⟩ := hstrip ht
    exact ⟨w, t', hw, .one ht', rfl, hbegins⟩
  | more ht more =>
    obtain ⟨w, t', hw, ht', rfl, hbegins⟩ := hstrip ht
    refine ⟨w, _, hw, .more ht' more, List.append_assoc .., ?_⟩
    rw [encode_append]
    exact ahead_append _ hbegins

theorem array_sound (h : array nested s = .ok (u, r)) :
    ∃ t, Layer V t ∧ 91 :: s = encode t ++ r := by
  obtain ⟨w, hw, hs⟩ := whitespace_sound s
  rw [array] at h
  split at h
  · rename_i hb
    cases h
    refine ⟨_, .emptyArray hw, ?_⟩
    rw [hs, hb]
    simp
  · obtain ⟨t, ht, hst⟩ := H.elements_sound h
    refine ⟨_, .array (pad_elements hw ht), ?_⟩
    rw [hs, hst]
    simp

omit H in
theorem array_empty (hw : Ws w) : array nested (encode w ++ 93 :: r) = .ok ((), r) := by
  rw [array, whitespace_complete hw rfl]
  rfl

theorem array_complete (h : Elements V t) : array nested (encode t ++ 93 :: r) = .ok ((), r) := by
  obtain ⟨w, t', hw, ht', rfl, hbegins⟩ := H.strip_elements h
  obtain ⟨hblank, hclose, -⟩ := ahead_begins (ahead_append (93 :: r) hbegins)
  have hwhite : whitespace (encode (w ++ t') ++ 93 :: r) = encode t' ++ 93 :: r := by
    rw [encode_append, List.append_assoc, whitespace_complete hw hblank]
  rw [array, hwhite]
  split
  · rename_i heq
    exact absurd heq (hclose _)
  · exact H.elements_complete ht'

/-! ### Objects -/

omit H in
theorem name_sound (hkey : string (whitespace s) = .ok (key, s₁))
    (hcolon : require 58 (whitespace s₁) = .ok s₂) :
    ∃ d n, Name d n ∧ key = encode d ∧ s = encode n ++ s₂ := by
  obtain ⟨w, hw, hs⟩ := whitespace_sound s
  obtain ⟨d, t, ht, hst, rfl⟩ := string_sound hkey
  obtain ⟨w', hw', hs₁⟩ := whitespace_sound s₁
  rw [require_eq_ok.mp hcolon] at hs₁
  refine ⟨d, _, ⟨w, t, w', hw, ht, hw', rfl⟩, rfl, ?_⟩
  rw [hs, hst, hs₁]
  simp

omit H in
theorem name_complete (h : Name d n) :
    ∃ s₁, string (whitespace (encode n ++ r)) = .ok (encode d, s₁) ∧
      require 58 (whitespace s₁) = .ok r := by
  obtain ⟨w, t, w', hw, ht, hw', rfl⟩ := h
  refine ⟨encode w' ++ 58 :: r, ?_, ?_⟩
  · simp only [encode_append, encode_quote, encode_colon, encode_nil, List.append_assoc,
      List.cons_append, List.nil_append]
    rw [whitespace_complete hw rfl, string_complete ht]
  · rw [whitespace_complete hw' rfl]
    exact require_eq_ok.mpr rfl

theorem members_sound (h : (members nested).loop seen s = .ok (u, r)) :
    ∃ names t, Members V names t ∧ names.Nodup ∧ (∀ d ∈ names, encode d ∉ seen) ∧
      s = encode t ++ 125 :: r := by
  refine (members nested).loop_induction
    (Q := fun seen s _ r => ∃ names t, Members V names t ∧ names.Nodup ∧
      (∀ d ∈ names, encode d ∉ seen) ∧ s = encode t ++ 125 :: r) ?_ ?_ h
  · intro seen s b r h
    obtain ⟨⟨key, s₁⟩, hkey, h₁⟩ := bind_eq_ok.mp h
    dsimp only at h₁
    split at h₁
    · cases h₁
    rename_i hseen
    obtain ⟨s₂, hcolon, h₂⟩ := bind_eq_ok.mp h₁
    obtain ⟨⟨_, s₃⟩, hs₃, h₃⟩ := bind_eq_ok.mp h₂
    dsimp only at h₃
    split at h₃
    · rename_i hb
      cases h₃
      obtain ⟨t, ht, hs₂⟩ := H.padded_sound hs₃ hb
      obtain ⟨d, n, hn, rfl, hs⟩ := name_sound hkey hcolon
      refine ⟨[d], n ++ t, .one hn ht, by simp, by simpa using hseen, ?_⟩
      rw [hs, hs₂]
      simp
    · cases h₃
    · cases h₃
  · intro seen s seen' s' b r h ih
    obtain ⟨⟨key, s₁⟩, hkey, h₁⟩ := bind_eq_ok.mp h
    dsimp only at h₁
    split at h₁
    · cases h₁
    rename_i hseen
    obtain ⟨s₂, hcolon, h₂⟩ := bind_eq_ok.mp h₁
    obtain ⟨⟨_, s₃⟩, hs₃, h₃⟩ := bind_eq_ok.mp h₂
    dsimp only at h₃
    split at h₃
    · cases h₃
    · rename_i hb
      cases h₃
      obtain ⟨t, ht, hs₂⟩ := H.padded_sound hs₃ hb
      obtain ⟨d, n, hn, rfl, hs⟩ := name_sound hkey hcolon
      obtain ⟨names, t', ht', hnodup, hnot, rfl⟩ := ih
      refine ⟨d :: names, _, .more hn ht ht', List.nodup_cons.mpr ⟨?_, hnodup⟩, ?_, ?_⟩
      · exact fun hd => hnot d hd List.mem_cons_self
      · exact List.forall_mem_cons.mpr
          ⟨hseen, fun e he hmem => hnot e he (List.mem_cons_of_mem _ hmem)⟩
      · rw [hs, hs₂]
        simp
    · cases h₃

theorem members_complete
    (h : Members V names t) (hnodup : names.Nodup) (hnot : ∀ d ∈ names, encode d ∉ seen) :
    (members nested).loop seen (encode t ++ 125 :: r) = .ok ((), r) := by
  induction h generalizing seen with
  | @one d n t hn ht =>
    obtain ⟨s₃, hs₃, hb⟩ := H.padded_complete (r := r) ht (b := 125) rfl rfl
    obtain ⟨s₁, hkey, hcolon⟩ := name_complete (r := encode t ++ 125 :: r) hn
    refine (members nested).loop_stop ?_
    rw [encode_append, List.append_assoc]
    show (string _ >>= _) = _
    rw [hkey, ok_bind]
    dsimp only
    rw [if_neg (hnot d List.mem_cons_self), hcolon, ok_bind, hs₃, ok_bind]
    dsimp only
    rw [hb]
    rfl
  | @more d n t t' names hn ht _ ih =>
    obtain ⟨hd, hnodup⟩ := List.nodup_cons.mp hnodup
    have hrest : ∀ e ∈ names, encode e ∉ encode d :: seen := by
      intro e he hmem
      rcases List.mem_cons.mp hmem with heq | hmem
      · exact hd (encode_injective heq ▸ he)
      · exact hnot e (List.mem_cons_of_mem _ he) hmem
    obtain ⟨s₃, hs₃, hb⟩ := H.padded_complete (r := encode t' ++ 125 :: r) ht (b := 44) rfl rfl
    obtain ⟨s₁, hkey, hcolon⟩ := name_complete (r := encode t ++ 44 :: (encode t' ++ 125 :: r)) hn
    rw [← ih hnodup hrest]
    refine (members nested).loop_next ?_
    simp only [encode_append, encode_comma, List.append_assoc, List.cons_append]
    show (string _ >>= _) = _
    rw [hkey, ok_bind]
    dsimp only
    rw [if_neg (hnot d List.mem_cons_self), hcolon, ok_bind, hs₃, ok_bind]
    dsimp only
    rw [hb]
    rfl

omit H in
theorem pad_name (hw : Ws w) (h : Name d n) : Name d (w ++ n) := by
  obtain ⟨w₁, t, w₂, hw₁, ht, hw₂, rfl⟩ := h
  exact ⟨w ++ w₁, t, w₂, hw.append hw₁, ht, hw₂, by rw [List.append_assoc]⟩

omit H in
theorem pad_members (hw : Ws w) (h : Members V names t) : Members V names (w ++ t) := by
  cases h with
  | one hn ht => rw [← List.append_assoc]; exact .one (pad_name hw hn) ht
  | more hn ht more => rw [← List.append_assoc]; exact .more (pad_name hw hn) ht more

omit H in
theorem strip_members (h : Members V names t) :
    ∃ w t', Ws w ∧ Members V names t' ∧ t = w ++ t' ∧ ahead begins (encode t') = true := by
  have hstrip {d n : List Char} (hn : Name d n) :
      ∃ w n', Ws w ∧ Name d n' ∧ n = w ++ n' ∧ ahead begins (encode n') = true := by
    obtain ⟨w₁, t, w₂, hw₁, ht, hw₂, rfl⟩ := hn
    exact ⟨w₁, _, hw₁, ⟨[], t, w₂, .nil, ht, hw₂, rfl⟩, rfl, rfl⟩
  cases h with
  | one hn ht =>
    obtain ⟨w, n', hw, hn', rfl, hbegins⟩ := hstrip hn
    refine ⟨w, _, hw, .one hn' ht, List.append_assoc .., ?_⟩
    rw [encode_append]
    exact ahead_append _ hbegins
  | more hn ht more =>
    obtain ⟨w, n', hw, hn', rfl, hbegins⟩ := hstrip hn
    refine ⟨w, _, hw, .more hn' ht more, List.append_assoc .., ?_⟩
    rw [encode_append]
    exact ahead_append _ hbegins

theorem object_sound (h : object nested s = .ok (u, r)) :
    ∃ t, Layer V t ∧ 123 :: s = encode t ++ r := by
  obtain ⟨w, hw, hs⟩ := whitespace_sound s
  rw [object] at h
  split at h
  · rename_i hb
    cases h
    refine ⟨_, .emptyObject hw, ?_⟩
    rw [hs, hb]
    simp
  · obtain ⟨names, t, ht, hnodup, -, hst⟩ := H.members_sound h
    refine ⟨_, .object (pad_members hw ht) hnodup, ?_⟩
    rw [hs, hst]
    simp

omit H in
theorem object_empty (hw : Ws w) : object nested (encode w ++ 125 :: r) = .ok ((), r) := by
  rw [object, whitespace_complete hw rfl]
  rfl

theorem object_complete (h : Members V names t) (hnodup : names.Nodup) :
    object nested (encode t ++ 125 :: r) = .ok ((), r) := by
  obtain ⟨w, t', hw, ht', rfl, hbegins⟩ := strip_members h
  obtain ⟨hblank, -, hbrace⟩ := ahead_begins (ahead_append (125 :: r) hbegins)
  have hwhite : whitespace (encode (w ++ t') ++ 125 :: r) = encode t' ++ 125 :: r := by
    rw [encode_append, List.append_assoc, whitespace_complete hw hblank]
  rw [object, hwhite]
  split
  · rename_i heq
    exact absurd heq (hbrace _)
  · exact H.members_complete ht' hnodup (by simp)

/-! ### A level -/

omit H in
theorem word_eq_ok {w : Bytes} : word w s = .ok r ↔ s = w ++ r := by
  rw [word]
  constructor
  · intro h
    split at h
    · rename_i hw
      cases h
      calc s = s.take w.length ++ s.drop w.length := (List.take_append_drop ..).symm
        _ = w ++ s.drop w.length := by rw [hw]
    · cases h
  · rintro rfl
    rw [if_pos List.take_left, List.drop_left]

omit H in
theorem lit_words : lit "true" = encode "true".toList ∧ lit "false" = encode "false".toList ∧
    lit "null" = encode "null".toList := by decide +kernel

theorem document_sound (h : document nested s = .ok (u, r)) :
    ∃ w t, Ws w ∧ Layer V t ∧ s = encode w ++ (encode t ++ r) := by
  obtain ⟨w, hw, hs⟩ := whitespace_sound s
  suffices ∃ t, Layer V t ∧ whitespace s = encode t ++ r by
    obtain ⟨t, ht, hwhite⟩ := this
    exact ⟨w, t, hw, ht, by rw [← hwhite, ← hs]⟩
  rw [document] at h
  generalize whitespace s = s at h ⊢
  split at h
  · obtain ⟨⟨out, s₁⟩, hs₁, h₁⟩ := bind_eq_ok.mp h
    cases h₁
    obtain ⟨d, t, ht, hst, -⟩ := string_sound hs₁
    exact ⟨_, .string ht, by rw [hst]; simp⟩
  · exact H.object_sound h
  · exact H.array_sound h
  · obtain ⟨s₁, hs₁, h₁⟩ := bind_eq_ok.mp h
    cases h₁
    rw [lit_words.1] at hs₁
    exact ⟨_, .word (t := "true".toList) (by simp), word_eq_ok.mp hs₁⟩
  · obtain ⟨s₁, hs₁, h₁⟩ := bind_eq_ok.mp h
    cases h₁
    rw [lit_words.2.1] at hs₁
    exact ⟨_, .word (t := "false".toList) (by simp), word_eq_ok.mp hs₁⟩
  · obtain ⟨s₁, hs₁, h₁⟩ := bind_eq_ok.mp h
    cases h₁
    rw [lit_words.2.2] at hs₁
    exact ⟨_, .word (t := "null".toList) (by simp), word_eq_ok.mp hs₁⟩
  · obtain ⟨s₁, hs₁, h₁⟩ := bind_eq_ok.mp h
    cases h₁
    obtain ⟨t, ht, hst⟩ := number_sound hs₁
    exact ⟨t, .number ht, hst⟩

omit H in
theorem document_number (h : ahead (fun b => digit b || b == 45) (whitespace s) = true) :
    document nested s = (fun r => ((), r)) <$> number (whitespace s) := by
  rw [document]
  generalize whitespace s = s at h ⊢
  split
  case h_7 => rfl
  all_goals cases h

omit H in
theorem number_starts (h : Number t) : ahead (fun b => digit b || b == 45) (encode t) = true := by
  obtain ⟨minus, w, f, e, hm, hw, -, -, rfl⟩ := h
  have hwhole : ahead (fun b => digit b || b == 45) (encode w) = true := by
    cases hw with
    | zero => rfl
    | digits hc =>
      obtain ⟨b, hb, hd⟩ := digit_byte _ hc
      rw [encode_cons, hb]
      exact (Bool.or_eq_true _ _).mpr (.inl hd)
  simp only [List.mem_cons, List.not_mem_nil, or_false] at hm
  rcases hm with rfl | rfl
  · rw [List.nil_append, encode_append]
    exact ahead_append _ hwhole
  · rfl

omit H in
theorem layer_starts (h : Layer V t) : ahead begins (encode t) = true := by
  cases h with
  | word h =>
    simp only [List.mem_cons, List.not_mem_nil, or_false] at h
    rcases h with rfl | rfl | rfl <;> rfl
  | number h =>
    refine ahead_mono (fun b hb => ?_) (number_starts h)
    simp only [begins, hb, Bool.true_or]
  | string => rfl
  | emptyArray => rfl
  | array => rfl
  | emptyObject => rfl
  | object => rfl

theorem document_complete (hw : Ws w) (h : Layer V t) (hr : ahead goesOn r = false) :
    document nested (encode w ++ (encode t ++ r)) = .ok ((), r) := by
  have hwhite : whitespace (encode w ++ (encode t ++ r)) = encode t ++ r :=
    whitespace_complete hw (ahead_begins (ahead_append r (layer_starts h))).1
  cases h with
  | word h =>
    rw [document, hwhite]
    simp only [List.mem_cons, List.not_mem_nil, or_false] at h
    rcases h with rfl | rfl | rfl
    · show (word (lit "true") (encode "true".toList ++ r) >>= _) = _
      rw [lit_words.1, word_eq_ok.mpr rfl]
      rfl
    · show (word (lit "false") (encode "false".toList ++ r) >>= _) = _
      rw [lit_words.2.1, word_eq_ok.mpr rfl]
      rfl
    · show (word (lit "null") (encode "null".toList ++ r) >>= _) = _
      rw [lit_words.2.2, word_eq_ok.mpr rfl]
      rfl
  | number h =>
    rw [document_number (by rw [hwhite]; exact ahead_append r (number_starts h)), hwhite,
      number_complete h hr]
    rfl
  | @string d t h =>
    simp only [encode_append, encode_quote, encode_nil, List.append_assoc, List.cons_append,
      List.nil_append] at hwhite ⊢
    rw [document, hwhite]
    show (string _ >>= _) = _
    rw [string_complete h]
    rfl
  | @emptyArray w h =>
    simp only [encode_append, encode_open, encode_close, encode_nil, List.append_assoc,
      List.cons_append, List.nil_append] at hwhite ⊢
    rw [document, hwhite]
    exact array_empty h
  | @array t h =>
    simp only [encode_append, encode_open, encode_close, encode_nil, List.append_assoc,
      List.cons_append, List.nil_append] at hwhite ⊢
    rw [document, hwhite]
    exact H.array_complete h
  | @emptyObject w h =>
    simp only [encode_append, encode_openBrace, encode_closeBrace, encode_nil, List.append_assoc,
      List.cons_append, List.nil_append] at hwhite ⊢
    rw [document, hwhite]
    exact object_empty h
  | @object names t h hnames =>
    simp only [encode_append, encode_openBrace, encode_closeBrace, encode_nil, List.append_assoc,
      List.cons_append, List.nil_append] at hwhite ⊢
    rw [document, hwhite]
    exact H.object_complete h hnames

/-- A level of the parser reads a level of the grammar. -/
theorem level : Recognises ⟨document nested, document_length⟩ (Layer V) where
  sound := H.document_sound
  complete := H.document_complete
  starts := layer_starts

end Recognises

/-- `parse` reads the values that fit into the levels that are left. -/
theorem parse_recognises (k : Nat) : Recognises (parse (k + 1)) (Document k) := by
  induction k with
  | zero =>
    have hnone : Recognises (parse 0) fun _ => False := ⟨nofun, nofun, nofun⟩
    exact hnone.level
  | succ k ih => exact ih.level

/-- The bytes `value` accepts are the encodings of JSON texts: one value with blanks around it, with
nothing nested deeper than 64 levels, in which no escape is half of a pair and no object has two
members of one name. -/
theorem value_accepts_json (s : Bytes) :
    (∃ v, value s = .ok v) ↔ ∃ t, Padded (Document 64) t ∧ s = encode t := by
  have H := parse_recognises 64
  constructor
  · rintro ⟨v, h⟩
    obtain ⟨⟨_, r⟩, hrun, h₁⟩ := bind_eq_ok.mp h
    dsimp only at h₁
    split at h₁
    · rename_i hblank
      obtain ⟨w, t, hw, ht, hs⟩ := H.sound hrun
      obtain ⟨w', hw', hr⟩ := whitespace_sound r
      refine ⟨_, ⟨w, t, w', hw, ht, hw', rfl⟩, ?_⟩
      rw [hs, hr, hblank]
      simp
    · cases h₁
  · rintro ⟨_, ⟨w, t, w', hw, ht, hw', rfl⟩, rfl⟩
    have hafter : ahead goesOn (encode w') = false := by
      have := ahead_ws (r := []) hw' rfl
      rwa [List.append_nil] at this
    have hblank : whitespace (encode w') = [] := by
      have := whitespace_complete (r := []) hw' rfl
      rwa [List.append_nil] at this
    refine ⟨.blob type (encode (w ++ (t ++ w'))), ?_⟩
    rw [value, encode_append, encode_append, H.complete hw ht hafter, ok_bind]
    dsimp only
    rw [if_pos hblank]
    rfl

end CoreSql.Json
