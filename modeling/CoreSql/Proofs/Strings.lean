import CoreSql.Proofs.JsonText
import CoreSql.Sql.Strings

/-!
# Substrings

A text that `text.substring` accepts is the encoding of characters, and the
offsets it collects are the lengths of the encodings of their prefixes. What
lies between two of them is the encoding of the characters between the two
positions.

The positions are 64-bit integers, the end is saturated, and the length of the
piece is a difference of unsigned numbers: none of this shows, because a text
has fewer than `2 ^ 63 - 1` bytes.
-/

namespace CoreSql.Sql

open Fallible Utf8

variable {c a next : UInt8} {s : Bytes} {n k x y i q : Nat} {t l : List Char} {P : Nat → Bool}
  {b start : Int64} {count : Option Int64}

/-! ## Code points -/

theorem following_eq (c : UInt8) :
    following c = if c.toNat < 0x80 then 0 else if 0xc2 ≤ c.toNat ∧ c.toNat ≤ 0xdf then 1
      else if 0xe0 ≤ c.toNat ∧ c.toNat ≤ 0xef then 2
      else if 0xf0 ≤ c.toNat ∧ c.toNat ≤ 0xf4 then 3 else 4 := rfl

theorem following_cases (h : following c ≠ 4) : (following c = 0 ∧ c.toNat < 0x80) ∨
      (following c = 1 ∧ 0xc2 ≤ c.toNat ∧ c.toNat ≤ 0xdf) ∨
      (following c = 2 ∧ 0xe0 ≤ c.toNat ∧ c.toNat ≤ 0xef) ∨
      (following c = 3 ∧ 0xf0 ≤ c.toNat ∧ c.toNat ≤ 0xf4) := by
  rw [following_eq] at h ⊢
  split_ifs at h ⊢ <;> omega

theorem excluded_eq_false : excluded c next = false ↔
    (c.toNat = 0xe0 → 0xa0 ≤ next.toNat) ∧ (c.toNat = 0xed → next.toNat < 0xa0) ∧
      (c.toNat = 0xf0 → 0x90 ≤ next.toNat) ∧ (c.toNat = 0xf4 → next.toNat < 0x90) := by
  simp [excluded, ← UInt8.toNat_inj, UInt8.lt_iff_toNat_lt, UInt8.le_iff_toNat_le, and_assoc]

theorem codePoint_eq_ok : codePoint c s = .ok n ↔
    n = following c ∧ n ≠ 4 ∧ n ≤ s.length ∧ (n ≠ 0 → excluded c (s.headD 0) = false) ∧
      ∀ b ∈ s.take n, 128 ≤ b.toNat ∧ b.toNat < 192 := by
  have htail (b : UInt8) :
      (if b < 0x80 ∨ 0xbf < b then badUtf8 else .ok () : Except Error Unit) = .ok () ↔
        128 ≤ b.toNat ∧ b.toNat < 192 := by
    show (if b.toNat < 128 ∨ 191 < b.toNat then badUtf8 else _ : Except Error Unit) = _ ↔ _
    split
    · exact ⟨(fun h => by cases h), by omega⟩
    · exact ⟨fun _ => by omega, fun _ => rfl⟩
  rw [codePoint]
  split
  · exact ⟨(fun h => by cases h), by omega⟩
  next hlen =>
  split
  · next hexcluded =>
      refine ⟨(fun h => by cases h), ?_⟩
      rintro ⟨rfl, -, -, hnot, -⟩
      rw [hnot hexcluded.1] at hexcluded
      exact absurd hexcluded.2 (by decide)
  next hexcluded =>
  constructor
  · intro h
    obtain ⟨⟨⟩, hbytes, h⟩ := bind_eq_ok.mp h
    cases h
    exact ⟨rfl, by omega, by omega, by simpa using hexcluded,
      fun b hb => (htail b).mp (forM_eq_ok.mp hbytes b hb)⟩
  · rintro ⟨rfl, -, -, -, hbytes⟩
    exact bind_eq_ok.mpr ⟨(), forM_eq_ok.mpr fun b hb => (htail b).mpr (hbytes b hb), rfl⟩

theorem codePoint_sound (h : codePoint a s = .ok n) :
    ∃ c : Char, (a :: s).take (n + 1) = String.utf8EncodeChar c := by
  obtain ⟨rfl, hfour, hlen, hexcluded, hbytes⟩ := codePoint_eq_ok.mp h
  rcases following_cases hfour with ⟨hn, ha⟩ | ⟨hn, ha⟩ | ⟨hn, ha⟩ | ⟨hn, ha⟩ <;>
    rw [hn] at hlen hexcluded hbytes ⊢
  · exact ⟨_, (encodeChar_one ha).symm⟩
  · match s with
    | [] => simp at hlen
    | b :: s => exact ⟨_, (encodeChar_two ha (hbytes b (by simp))).symm⟩
  · match s with
    | [] => simp at hlen
    | [b] => simp at hlen
    | b :: c :: s =>
      have hb := hbytes b (by simp)
      have hc := hbytes c (by simp)
      have hrange := excluded_eq_false.mp (hexcluded (by decide))
      rw [List.headD_cons] at hrange
      refine ⟨_, (encodeChar_three rfl ha hb hc (by omega) ?_).symm⟩
      show _ < 0xd800 ∨ 0xdfff < _ ∧ _ < 0x110000
      omega
  · match s with
    | [] => simp at hlen
    | [b] => simp at hlen
    | [b, c] => simp at hlen
    | b :: c :: d :: s =>
      have hb := hbytes b (by simp)
      have hc := hbytes c (by simp)
      have hd := hbytes d (by simp)
      have hrange := excluded_eq_false.mp (hexcluded (by decide))
      rw [List.headD_cons] at hrange
      exact ⟨_, (encodeChar_four rfl ha hb hc hd (by omega) (.inr ⟨by omega, by omega⟩)).symm⟩

theorem codePoint_encode (c : Char) (rest : Bytes) (h : String.utf8EncodeChar c ++ rest = a :: s) :
    codePoint a s = .ok ((String.utf8EncodeChar c).length - 1) := by
  have hvalid : c.toNat < 0xd800 ∨ 0xdfff < c.toNat ∧ c.toNat < 0x110000 := c.valid
  have hform := form c
  generalize String.utf8EncodeChar c = bytes at h hform ⊢
  rw [codePoint_eq_ok]
  cases hform with
  | one ha hv =>
    obtain ⟨rfl, rfl⟩ := List.cons.inj h
    refine ⟨?_, by simp, by simp, by simp, by simp⟩
    rw [following_eq, if_pos (by omega), List.length_singleton]
  | @two a b ha hb hv =>
    obtain ⟨rfl, rfl⟩ := List.cons.inj h
    refine ⟨?_, by simp, by simp, fun _ => excluded_eq_false.mpr ?_, ?_⟩
    · rw [following_eq, if_neg (by omega), if_pos (by omega)]
      rfl
    · omega
    · simp
      omega
  | @three a b d ha hb hd hv =>
    obtain ⟨rfl, rfl⟩ := List.cons.inj h
    refine ⟨?_, by simp, by simp, fun _ => excluded_eq_false.mpr ?_, ?_⟩
    · rw [following_eq, if_neg (by omega), if_neg (by omega), if_pos (by omega)]
      rfl
    · show (_ → _ ≤ b.toNat) ∧ (_ → b.toNat < _) ∧ (_ → _ ≤ b.toNat) ∧ (_ → b.toNat < _)
      omega
    · simp
      omega
  | @four a b d e ha hb hd he hv =>
    obtain ⟨rfl, rfl⟩ := List.cons.inj h
    refine ⟨?_, by simp, by simp, fun _ => excluded_eq_false.mpr ?_, ?_⟩
    · rw [following_eq, if_neg (by omega), if_neg (by omega), if_neg (by omega), if_pos (by omega)]
      rfl
    · show (_ → _ ≤ b.toNat) ∧ (_ → b.toNat < _) ∧ (_ → _ ≤ b.toNat) ∧ (_ → b.toNat < _)
      omega
    · simp
      omega

/-- `text.substring` and the JSON validator take the same bytes for a character. -/
theorem codePoint_iff_character : codePoint a s = .ok n ↔ Json.character a s = .ok (n + 1) := by
  constructor
  · intro h
    obtain ⟨c, hc⟩ := codePoint_sound h
    have hlen : (String.utf8EncodeChar c).length = n + 1 := by
      rw [← hc, List.length_take, List.length_cons, Nat.min_eq_left]
      exact Nat.succ_le_succ (codePoint_eq_ok.mp h).2.2.1
    rw [Json.character_encode c ((a :: s).drop (n + 1)) (by rw [← hc, List.take_append_drop]), hlen]
  · intro h
    obtain ⟨c, hc⟩ := Json.character_sound h
    have hsplit : String.utf8EncodeChar c ++ (a :: s).drop (n + 1) = a :: s := by
      rw [← hc, List.take_append_drop]
    have hlen : (String.utf8EncodeChar c).length = n + 1 :=
      Except.ok.inj ((Json.character_encode c _ hsplit).symm.trans h)
    rw [codePoint_encode c _ hsplit, hlen, Nat.add_sub_cancel]

/-! ## Offsets -/

/-- Where the characters of a text begin in its encoding, and where it ends. -/
def marks (t : List Char) : List Nat :=
  (List.range (t.length + 1)).map fun k => (encode (t.take k)).length

theorem marks_cons (c : Char) (t : List Char) :
    marks (c :: t) = 0 :: (marks t).map ((String.utf8EncodeChar c).length + ·) := by
  rw [marks, List.length_cons, List.range_succ_eq_map, List.map_cons, marks, List.map_map,
    List.map_map]
  simp [encode_cons, Function.comp_def]

theorem offsets_encode (t : List Char) (i : Nat) :
    offsets i (encode t) = .ok ((marks t).map (i + ·)) := by
  induction t generalizing i with
  | nil => rw [encode_nil, offsets]; rfl
  | cons c t ih =>
    obtain ⟨a, s, hs⟩ := encodeChar_cons c
    have hlen : (String.utf8EncodeChar c).length = s.length + 1 := by rw [hs, List.length_cons]
    rw [encode_cons, hs, List.cons_append, offsets,
      codePoint_encode c (encode t) (by rw [hs, List.cons_append]), ok_bind, hlen,
      Nat.add_sub_cancel, List.drop_left, ih, ok_bind, marks_cons, hlen]
    simp only [List.map_cons, List.map_map, Nat.add_zero]
    congr 3
    funext k
    simp only [Function.comp_apply]
    omega

theorem offsets_sound {l : List Nat} (h : offsets i s = .ok l) : Json.characters s = .ok () := by
  induction hlen : s.length using Nat.strong_induction_on generalizing s i l with
  | _ k ih =>
    cases s with
    | nil => rw [Json.characters]
    | cons a s =>
      rw [offsets] at h
      obtain ⟨n, hn, h⟩ := bind_eq_ok.mp h
      obtain ⟨l', hl', -⟩ := bind_eq_ok.mp h
      rw [Json.characters, codePoint_iff_character.mp hn, ok_bind, Nat.add_sub_cancel]
      exact ih _ (by rw [← hlen, List.length_drop, List.length_cons]; omega) hl' rfl

/-! ## The characters between two positions -/

theorem length_marks (t : List Char) : (marks t).length = t.length + 1 := by
  rw [marks, List.length_map, List.length_range]

theorem getD_marks (h : k ≤ t.length) : (marks t).getD k 0 = (encode (t.take k)).length := by
  rw [marks, List.getD_eq_getElem?_getD, List.getElem?_map,
    List.getElem?_range (Nat.lt_succ_of_le h)]
  rfl

theorem split_between (t : List Char) (h : x ≤ y) :
    t.take x ++ (t.take y).drop x = t.take y ∧ t.take x ++ ((t.take y).drop x ++ t.drop y) = t := by
  have htake := List.take_append_drop x (t.take y)
  rw [List.take_take, Nat.min_eq_left h] at htake
  exact ⟨htake, by rw [← List.append_assoc, htake, List.take_append_drop]⟩

theorem encode_between (h : x ≤ y) : ((encode t).drop (encode (t.take x)).length).take
        ((encode (t.take y)).length - (encode (t.take x)).length) = encode ((t.take y).drop x) := by
  obtain ⟨htake, hall⟩ := split_between t h
  have hlen := congrArg (fun l => (encode l).length) htake
  simp only [encode_append, List.length_append] at hlen
  have hencode : encode t =
      encode (t.take x) ++ (encode ((t.take y).drop x) ++ encode (t.drop y)) := by
    rw [← encode_append, ← encode_append, hall]
  rw [← hlen, Nat.add_sub_cancel_left, hencode, List.drop_left, List.take_left]

theorem filter_positions {b : Bool} (h : ∀ q, k ≤ q → q < k + l.length → P q = b) :
    ((l.zipIdx k).filter fun e => P e.2).map Prod.fst = if b then l else [] := by
  have hall : ∀ e ∈ l.zipIdx k, P e.2 = b := fun e he =>
    h e.2 (List.le_snd_of_mem_zipIdx he) (List.snd_lt_add_of_mem_zipIdx he)
  cases b with
  | true => rw [List.filter_eq_self.mpr hall, if_pos rfl, List.zipIdx_map_fst]
  | false =>
    rw [List.filter_eq_nil_iff.mpr fun e he => by rw [hall e he]; decide]
    rfl

theorem filter_zipIdx (hxy : x ≤ y) (h : ∀ q, 1 ≤ q → q ≤ t.length → (P q = true ↔ x < q ∧ q ≤ y)) :
    ((t.zipIdx 1).filter fun e => P e.2).map Prod.fst = (t.take y).drop x := by
  have hfalse (q : Nat) (h₁ : 1 ≤ q) (h₂ : q ≤ t.length) (hnot : ¬(x < q ∧ q ≤ y)) :
      P q = false := by
    rw [← Bool.not_eq_true, h q h₁ h₂]
    exact hnot
  have hx : (t.take x).length = min x t.length := List.length_take
  have hy : ((t.take y).drop x).length = min y t.length - x := by
    rw [List.length_drop, List.length_take]
  have hz : (t.drop y).length = t.length - y := List.length_drop
  conv_lhs => rw [← (split_between t hxy).2]
  rw [List.zipIdx_append, List.zipIdx_append, List.filter_append, List.filter_append,
    List.map_append, List.map_append,
    filter_positions (b := false) fun q h₁ h₂ => hfalse q (by omega) (by omega) (by omega),
    filter_positions (b := true) fun q h₁ h₂ => (h q (by omega) (by omega)).mpr (by omega),
    filter_positions (b := false) fun q h₁ h₂ => hfalse q (by omega) (by omega) (by omega)]
  simp

/-- The characters at positions from `start` on, and before `start + count`. -/
def selected (t : List Char) (start : Int64) (count : Option Int64) : List Char :=
  ((t.zipIdx 1).filter fun e => decide (start.toInt ≤ e.2) &&
    count.all fun n => (e.2 : Int) < start.toInt + n.toInt).map Prod.fst

/-! ## Machine integers -/

theorem toInt_sub_of_le {a : Int64} (h : -2 ^ 63 ≤ a.toInt - b.toInt)
    (h' : a.toInt - b.toInt < 2 ^ 63) : (a - b).toInt = a.toInt - b.toInt := by
  rw [Int64.toInt_sub, Int.bmod_eq_of_le (by omega) (by omega)]

theorem toInt_add_of_le {a : Int64} (h : -2 ^ 63 ≤ a.toInt + b.toInt)
    (h' : a.toInt + b.toInt < 2 ^ 63) : (a + b).toInt = a.toInt + b.toInt := by
  rw [Int64.toInt_add, Int.bmod_eq_of_le (by omega) (by omega)]

theorem toNat_sub_ofNat {a b : Nat} (h : a ≤ b) (hb : b < 2 ^ 64) :
    (UInt64.ofNat b - UInt64.ofNat a).toNat = b - a := by
  rw [UInt64.toNat_sub, UInt64.toNat_ofNat_of_lt' hb,
    UInt64.toNat_ofNat_of_lt' (Nat.lt_of_le_of_lt h hb)]
  omega

theorem index_eq (n : Nat) (position : Int64) :
    index (n + 1) position = min (position.toInt - 1).toNat n := by
  rw [index, Nat.add_sub_cancel]
  split
  · next hle =>
      have : position.toInt ≤ 1 := Int64.le_iff_toInt_le.mp hle
      omega
  · next hgt =>
      rw [Int64.le_iff_toInt_le, show (1 : Int64).toInt = 1 from rfl] at hgt
      have hlt := Int64.toInt_lt position
      have hone : (1 : Int64).toInt = 1 := rfl
      have hsub : (position - 1).toInt = position.toInt - 1 := by
        rw [toInt_sub_of_le (by omega) (by omega), hone]
      have hpos : 0 ≤ position - 1 := by
        rw [Int64.le_iff_toInt_le, hsub, show (0 : Int64).toInt = 0 from rfl]
        omega
      rw [Int64.toNat_toUInt64_of_le hpos, Int64.toNatClampNeg, hsub]

/-- The end is the sum, or the largest position where that is smaller. -/
theorem endPosition_eq {n : Int64} (h : 0 ≤ n) :
    (endPosition start (some n)).toInt = min (start.toInt + n.toInt) (2 ^ 63 - 1) := by
  have hn : 0 ≤ n.toInt := Int64.le_iff_toInt_le.mp h
  have hn' := Int64.toInt_lt n
  have hs := Int64.le_toInt start
  have hmax : Int64.maxValue.toInt = 2 ^ 63 - 1 := rfl
  have hsub : (Int64.maxValue - n).toInt = 2 ^ 63 - 1 - n.toInt := by
    rw [toInt_sub_of_le (by omega) (by omega), hmax]
  rw [endPosition]
  split
  · next hlt =>
      rw [Int64.lt_iff_toInt_lt, hsub] at hlt
      omega
  · next hge =>
      rw [Int64.lt_iff_toInt_lt, hsub] at hge
      rw [toInt_add_of_le (by omega) (by omega)]
      omega

theorem le_endPosition (h : ∀ n ∈ count, 0 ≤ n) :
    start.toInt ≤ (endPosition start count).toInt := by
  have hlt := Int64.toInt_lt start
  cases count with
  | none =>
    have hmax : (endPosition start none).toInt = 2 ^ 63 - 1 := rfl
    omega
  | some n =>
    have hn : 0 ≤ n.toInt := Int64.le_iff_toInt_le.mp (h n rfl)
    rw [endPosition_eq (h n rfl)]
    omega

theorem lt_endPosition (h : ∀ n ∈ count, 0 ≤ n) (hq : q < 2 ^ 63 - 1) :
    (q : Int) < (endPosition start count).toInt ↔
      ∀ n ∈ count, (q : Int) < start.toInt + n.toInt := by
  cases count with
  | none =>
    have hmax : (endPosition start none).toInt = 2 ^ 63 - 1 := rfl
    refine iff_of_true ?_ (by simp)
    omega
  | some n =>
    rw [endPosition_eq (h n rfl)]
    simp only [Option.mem_some_iff, forall_eq']
    omega

/-! ## The function -/

theorem length_le_encode (t : List Char) : t.length ≤ (encode t).length := by
  induction t with
  | nil => exact Nat.le_refl _
  | cons c t ih =>
    obtain ⟨a, s, hs⟩ := encodeChar_cons c
    rw [encode_cons, hs, List.length_append, List.length_cons, List.length_cons]
    omega

theorem encode_take_le (h : x ≤ y) : (encode (t.take x)).length ≤ (encode (t.take y)).length := by
  rw [← (split_between t h).1, encode_append, List.length_append]
  exact Nat.le_add_right _ _

theorem substringOf_encode (hsize : (encode t).length < 2 ^ 63 - 1) (h : ∀ n ∈ count, 0 ≤ n) :
    substringOf (encode t) start count = .ok (.text (encode (selected t start count))) := by
  have hcount : ¬count.getD Int64.maxValue < 0 := by
    cases count with
    | none => decide
    | some n => exact Int64.not_lt.mpr (h n rfl)
  have hoffsets : offsets 0 (encode t) = .ok (marks t) := by
    rw [offsets_encode]
    simp
  have hlen := length_le_encode t
  have hle : start.toInt ≤ (endPosition start count).toInt := le_endPosition h
  rw [substringOf, if_neg hcount, hoffsets, ok_bind, length_marks, index_eq, index_eq]
  generalize hx : min (start.toInt - 1).toNat t.length = x
  generalize hy : min ((endPosition start count).toInt - 1).toNat t.length = y
  have hxy : x ≤ y := by omega
  have hbound : (encode (t.take y)).length ≤ (encode t).length := by
    have := encode_take_le (t := t) (x := y) (y := t.length) (by omega)
    rwa [List.take_length] at this
  have hmarks := encode_take_le (t := t) hxy
  have hselected : selected t start count = (t.take y).drop x := by
    refine filter_zipIdx (P := fun q => decide (start.toInt ≤ q) &&
      count.all fun n => (q : Int) < start.toInt + n.toInt) hxy fun q h₁ h₂ => ?_
    have hend : (q : Int) < (endPosition start count).toInt ↔ _ := lt_endPosition h (by omega)
    rw [Bool.and_eq_true, decide_eq_true_iff, Option.all_eq_true]
    simp only [decide_eq_true_iff]
    constructor
    · rintro ⟨hstart, hall⟩
      have := hend.mpr fun n hn => hall n hn
      omega
    · rintro ⟨h₃, h₄⟩
      exact ⟨by omega, fun n hn => hend.mp (by omega) n hn⟩
  rw [getD_marks (by omega), getD_marks (by omega), hselected, ← encode_between hxy]
  show Except.ok (Value.text (substrOf _ _ _)) = _
  rw [substrOf, toNat_sub_ofNat hmarks (by omega)]

/-- `text.substring` fails for a negative count and for bytes that are not UTF-8. Of the encoding
of characters it returns the encoding of those at the positions asked for. The UTF-8 it accepts is
the one that the JSON validator accepts. -/
theorem substring_exact (s : Bytes) (start : Int64) (count : Option Int64)
    (hsize : s.length < 2 ^ 63 - 1) :
    ((∃ e, substring.invoke (.text s :: .integer start :: (count.map .integer).toList) = .error e) ↔
      (∃ n ∈ count, n < 0) ∨ ¬∃ t, s = encode t) ∧
    (∀ t, s = encode t → (∀ n ∈ count, 0 ≤ n) →
      substring.invoke (.text s :: .integer start :: (count.map .integer).toList) =
        .ok (.text (encode (selected t start count)))) ∧
    ((∃ l, offsets 0 s = .ok l) ↔ Json.characters s = .ok ()) ∧
    ∀ (a : UInt8) (r : Bytes) (n : Nat),
      codePoint a r = .ok n ↔ Json.character a r = .ok (n + 1) := by
  have hinvoke : substring.invoke (.text s :: .integer start :: (count.map .integer).toList) =
      substringOf s start count := by
    cases count <;> rfl
  have hoffsets : (∃ l, offsets 0 s = .ok l) ↔ Json.characters s = .ok () := by
    constructor
    · rintro ⟨l, hl⟩
      exact offsets_sound hl
    · intro h
      obtain ⟨t, rfl⟩ := Json.characters_eq_ok.mp h
      exact ⟨_, offsets_encode t 0⟩
  rw [hinvoke]
  refine ⟨⟨?_, ?_⟩, ?_, hoffsets, fun a r n => codePoint_iff_character⟩
  · rintro ⟨e, he⟩
    by_contra hnot
    rw [not_or, not_not] at hnot
    obtain ⟨hcount, t, rfl⟩ := hnot
    rw [substringOf_encode hsize fun n hn => Int64.not_lt.mp fun hlt => hcount ⟨n, hn, hlt⟩] at he
    cases he
  · rintro (⟨n, hn, hlt⟩ | hnot)
    · cases hn
      exact ⟨_, if_pos hlt⟩
    · rw [substringOf]
      split
      · exact ⟨_, rfl⟩
      · cases hoff : offsets 0 s with
        | error e => exact ⟨e, rfl⟩
        | ok l => exact absurd (Json.characters_eq_ok.mp (hoffsets.mp ⟨l, hoff⟩)) hnot
  · rintro t rfl hcount
    exact substringOf_encode hsize hcount

/-- The middle one of three characters, the second of which has two bytes. -/
theorem substring_exact_middle :
    substring.invoke [.text (encode ['a', 'ñ', 'b']), .integer 2, .integer 1] =
      .ok (.text (encode ['ñ'])) := by
  have hlen : (encode ['a', 'ñ', 'b']).length = 4 := by decide +kernel
  have hselected : selected ['a', 'ñ', 'b'] 2 (some 1) = ['ñ'] := by decide +kernel
  have h := (substring_exact (encode ['a', 'ñ', 'b']) 2 (some 1) (by omega)).2.1 _ rfl (by simp)
  rwa [hselected] at h

end CoreSql.Sql
