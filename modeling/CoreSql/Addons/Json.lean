import CoreSql.Data.Value
import CoreSql.Lib.Consume

/-!
# JSON documents

The validation of `addons/json/type.cpp`, a recursive descent over the bytes
of a document. `Parser` is read over what is left of the input: `position` is
how much was taken off, and past the end `peek` returns a zero byte, which no
branch accepts.

`parse` may go down 64 levels. The levels that are left are the recursion
here; inside a level the loops over members and elements end because every
round consumes. So `value` is a total function: the parser ends on every
input.

`json::value` selects nothing, so the path, the key type and the selected
values of `Parser` play no part.
-/

namespace CoreSql.Json

open Consume Fallible

variable {c : UInt8} {s r out w : Bytes} {n code code' : Nat}

def invalid {α : Type} : Except Error α :=
  fail .type "Invalid JSON (depth limit 64; duplicate object keys rejected)"

/-- `utf8`: the bytes it appends. -/
def utf8 (c : Nat) : Bytes :=
  if c < 0x80 then [UInt8.ofNat c]
  else if c < 0x800 then [UInt8.ofNat (0xc0 ||| c >>> 6), UInt8.ofNat (0x80 ||| c &&& 63)]
  else
    (if 0x10000 ≤ c then [UInt8.ofNat (0xf0 ||| c >>> 18), UInt8.ofNat (0x80 ||| c >>> 12 &&& 63)]
      else [UInt8.ofNat (0xe0 ||| c >>> 12)]) ++
    [UInt8.ofNat (0x80 ||| c >>> 6 &&& 63), UInt8.ofNat (0x80 ||| c &&& 63)]

/-- The bytes of a character that begins with `c`, or 0. -/
def width (c : UInt8) : Nat :=
  if 0xc2 ≤ c ∧ c ≤ 0xdf then 2 else if 0xe0 ≤ c ∧ c ≤ 0xef then 3
  else if 0xf0 ≤ c ∧ c ≤ 0xf4 then 4 else 0

def continuation (code : Nat) (next : UInt8) : Except Error Nat :=
  if next &&& 0xc0 ≠ 0x80 then invalid else .ok (code <<< 6 ||| next.toNat &&& 63)

/-- `character`: how many bytes the character at the front of `c :: s` has. -/
def character (c : UInt8) (s : Bytes) : Except Error Nat :=
  if c < 0x80 then .ok 1
  else
    let n := width c
    if n = 0 ∨ s.length + 1 < n then invalid
    else do
      let code ← (s.take (n - 1)).foldlM continuation (c.toNat &&& 0x7f >>> n)
      if (n = 3 ∧ code < 0x800) ∨ (n = 4 ∧ code < 0x10000) ∨ (0xd800 ≤ code ∧ code ≤ 0xdfff) ∨
          0x10ffff < code then invalid
      else .ok n

/-- The loop that checks every character of a text. -/
def characters : Bytes → Except Error Unit
  | [] => .ok ()
  | c :: s => do
      let n ← character c s
      characters (s.drop (n - 1))
  termination_by s => s.length
  decreasing_by
    rw [List.length_drop, List.length_cons]
    omega

def blank (c : UInt8) : Bool := c == 32 || c == 9 || c == 10 || c == 13

def whitespace (s : Bytes) : Bytes := s.dropWhile blank

def require (c : UInt8) : Bytes → Except Error Bytes
  | [] => invalid
  | d :: s => if d = c then .ok s else invalid

def word (w s : Bytes) : Except Error Bytes :=
  if s.take w.length = w then .ok (s.drop w.length) else invalid

def hexDigit (c : UInt8) : Option Nat :=
  if 48 ≤ c ∧ c ≤ 57 then some (c.toNat - 48)
  else if 97 ≤ c ∧ c ≤ 102 then some (c.toNat - 97 + 10)
  else if 65 ≤ c ∧ c ≤ 70 then some (c.toNat - 65 + 10)
  else none

/-- The loop of `hex4`. -/
def hexDigits : Nat → Nat → Bytes → Except Error (Nat × Bytes)
  | 0, code, s => .ok (code, s)
  | _ + 1, _, [] => invalid
  | n + 1, code, c :: s =>
    match hexDigit c with
    | none => invalid
    | some digit => hexDigits n (code * 16 + digit) s

def hex4 (s : Bytes) : Except Error (Nat × Bytes) := hexDigits 4 0 s

/-- What `\u` stands for. -/
def unicode (s : Bytes) : Except Error (Bytes × Bytes) := do
  let (code, s) ← hex4 s
  if 0xd800 ≤ code ∧ code ≤ 0xdbff then
    let s ← require 92 s
    let s ← require 117 s
    let (low, s) ← hex4 s
    if low < 0xdc00 ∨ 0xdfff < low then invalid
    else return (utf8 (0x10000 + (code - 0xd800) <<< 10 + low - 0xdc00), s)
  else if 0xdc00 ≤ code ∧ code ≤ 0xdfff then invalid
  else return (utf8 code, s)

def escape : Bytes → Except Error (Bytes × Bytes)
  | [] => invalid
  | c :: s =>
    if c = 34 ∨ c = 92 ∨ c = 47 then .ok ([c], s)
    else if c = 98 then .ok ([8], s)
    else if c = 102 then .ok ([12], s)
    else if c = 110 then .ok ([10], s)
    else if c = 114 then .ok ([13], s)
    else if c = 116 then .ok ([9], s)
    else if c = 117 then unicode s
    else invalid

/-- A round of the loop of `string`. -/
def stringRound (out : Bytes) : Bytes → Except Error ((Bytes ⊕ Bytes) × Bytes)
  | [] => invalid
  | c :: s =>
    if c = 34 then .ok (.inr out, s)
    else if c < 0x20 then invalid
    else if c = 92 then do
      let (unit, s) ← escape s
      return (.inl (out ++ unit), s)
    else do
      let n ← character c s
      return (.inl (out ++ (c :: s).take n), (c :: s).drop n)

def digit (c : UInt8) : Bool := 48 ≤ c && c ≤ 57

def digits (s : Bytes) : Except Error Bytes :=
  if s.head?.any digit then .ok (s.dropWhile digit) else invalid

/-- `take`, when it does not matter whether it took. -/
def skip (c : UInt8) : Bytes → Bytes
  | [] => []
  | d :: s => if d = c then s else d :: s

def whole : Bytes → Except Error Bytes
  | [] => invalid
  | c :: s => if c = 48 then .ok s else if 49 ≤ c ∧ c ≤ 57 then .ok ((c :: s).dropWhile digit)
      else invalid

def fraction : Bytes → Except Error Bytes
  | [] => .ok []
  | c :: s => if c = 46 then digits s else .ok (c :: s)

/-- `if (!take('+')) take('-')`. -/
def skipSign : Bytes → Bytes
  | [] => []
  | c :: s => if c = 43 ∨ c = 45 then s else c :: s

def exponent : Bytes → Except Error Bytes
  | [] => .ok []
  | c :: s => if c = 101 ∨ c = 69 then digits (skipSign s) else .ok (c :: s)

/-- `number`, of a value that is not selected. -/
def number (s : Bytes) : Except Error Bytes := do
  let s ← whole (skip 45 s)
  let s ← fraction s
  exponent s

/-! ## Everything consumes -/

theorem whitespace_length (s : Bytes) : (whitespace s).length ≤ s.length :=
  (List.dropWhile_suffix _).length_le

theorem require_length (h : require c s = .ok r) : r.length < s.length := by
  cases s with
  | nil => cases h
  | cons d s =>
    rw [require] at h
    split at h
    · cases h; exact Nat.lt_succ_self _
    · cases h

theorem word_length (hw : w ≠ []) (h : word w s = .ok r) : r.length < s.length := by
  rw [word] at h
  split at h
  · rename_i htake
    cases h
    have hlen := congrArg List.length htake
    have := List.length_pos_iff.mpr hw
    rw [List.length_take] at hlen
    rw [List.length_drop]
    omega
  · cases h

theorem hexDigits_length (h : hexDigits n code s = .ok (code', r)) : r.length ≤ s.length := by
  induction n generalizing code s with
  | zero => cases h; exact Nat.le_refl _
  | succ n ih =>
    cases s with
    | nil => cases h
    | cons c s =>
      rw [hexDigits] at h
      split at h
      · cases h
      · exact Nat.le_succ_of_le (ih h)

theorem unicode_length (h : unicode s = .ok (out, r)) : r.length ≤ s.length := by
  rw [unicode] at h
  obtain ⟨⟨code, s₁⟩, hcode, h⟩ := bind_eq_ok.mp h
  have h₁ := hexDigits_length hcode
  dsimp only at h
  split at h
  · obtain ⟨s₂, hs₂, h⟩ := bind_eq_ok.mp h
    obtain ⟨s₃, hs₃, h⟩ := bind_eq_ok.mp h
    obtain ⟨⟨low, s₄⟩, hlow, h⟩ := bind_eq_ok.mp h
    have h₂ := require_length hs₂
    have h₃ := require_length hs₃
    have h₄ := hexDigits_length hlow
    dsimp only at h
    split at h
    · cases h
    · obtain ⟨-, rfl⟩ := Prod.mk.inj (Except.ok.inj h)
      exact (h₄.trans h₃.le).trans (h₂.le.trans h₁)
  split at h
  · cases h
  · obtain ⟨-, rfl⟩ := Prod.mk.inj (Except.ok.inj h)
    exact h₁

theorem escape_length (h : escape s = .ok (out, r)) : r.length < s.length := by
  cases s with
  | nil => cases h
  | cons c s =>
    rw [escape] at h
    split at h
    · cases h; exact Nat.lt_succ_self _
    split at h
    · cases h; exact Nat.lt_succ_self _
    split at h
    · cases h; exact Nat.lt_succ_self _
    split at h
    · cases h; exact Nat.lt_succ_self _
    split at h
    · cases h; exact Nat.lt_succ_self _
    split at h
    · cases h; exact Nat.lt_succ_self _
    split at h
    · exact Nat.lt_succ_of_le (unicode_length h)
    · cases h

theorem character_pos (h : character c s = .ok n) : 0 < n := by
  rw [character] at h
  split at h
  · cases h; exact Nat.one_pos
  dsimp only at h
  split at h
  · cases h
  · rename_i hn
    obtain ⟨code, -, h⟩ := bind_eq_ok.mp h
    split at h
    · cases h
    · cases h; omega

theorem stringRound_length {t : Bytes ⊕ Bytes}
    (h : stringRound out s = .ok (t, r)) : r.length < s.length := by
  cases s with
  | nil => cases h
  | cons c s =>
    rw [stringRound] at h
    split at h
    · cases h; exact Nat.lt_succ_self _
    split at h
    · cases h
    split at h
    · obtain ⟨⟨unit, s'⟩, hs', h⟩ := bind_eq_ok.mp h
      cases h
      exact Nat.lt_succ_of_lt (escape_length hs')
    · obtain ⟨n, hn, h⟩ := bind_eq_ok.mp h
      cases h
      have := character_pos hn
      rw [List.length_drop, List.length_cons]
      omega

/-- The loop of `string`. -/
def stringLoop : Round (List.length (α := UInt8)) Error Bytes Bytes where
  run := stringRound
  consumes := stringRound_length

def string (s : Bytes) : Except Error (Bytes × Bytes) := do
  let s ← require 34 s
  stringLoop.loop [] s

theorem string_length (h : string s = .ok (out, r)) : r.length < s.length := by
  obtain ⟨s₁, hs₁, h⟩ := bind_eq_ok.mp h
  exact Nat.lt_trans (stringLoop.loop_lt stringRound_length h) (require_length hs₁)

theorem digits_length (h : digits s = .ok r) : r.length ≤ s.length := by
  rw [digits] at h
  split at h
  · cases h; exact (List.dropWhile_suffix _).length_le
  · cases h

theorem skip_length (c : UInt8) (s : Bytes) : (skip c s).length ≤ s.length := by
  cases s with
  | nil => exact Nat.le_refl _
  | cons d s =>
    rw [skip]
    split
    · exact Nat.le_succ _
    · exact Nat.le_refl _

theorem skipSign_length (s : Bytes) : (skipSign s).length ≤ s.length := by
  cases s with
  | nil => exact Nat.le_refl _
  | cons c s =>
    rw [skipSign]
    split
    · exact Nat.le_succ _
    · exact Nat.le_refl _

theorem whole_length (h : whole s = .ok r) : r.length < s.length := by
  cases s with
  | nil => cases h
  | cons c s =>
    rw [whole] at h
    split at h
    · cases h; exact Nat.lt_succ_self _
    split at h
    · rename_i hc
      cases h
      rw [List.dropWhile_cons_of_pos (by simpa [digit] using ⟨by grind, hc.2⟩)]
      exact Nat.lt_succ_of_le (List.dropWhile_suffix _).length_le
    · cases h

theorem fraction_length (h : fraction s = .ok r) : r.length ≤ s.length := by
  cases s with
  | nil => cases h; exact Nat.le_refl _
  | cons c s =>
    rw [fraction] at h
    split at h
    · exact Nat.le_succ_of_le (digits_length h)
    · cases h; exact Nat.le_refl _

theorem exponent_length (h : exponent s = .ok r) : r.length ≤ s.length := by
  cases s with
  | nil => cases h; exact Nat.le_refl _
  | cons c s =>
    rw [exponent] at h
    split at h
    · exact Nat.le_succ_of_le (Nat.le_trans (digits_length h) (skipSign_length s))
    · cases h; exact Nat.le_refl _

theorem number_length (h : number s = .ok r) : r.length < s.length := by
  obtain ⟨s₁, hs₁, h⟩ := bind_eq_ok.mp h
  obtain ⟨s₂, hs₂, h⟩ := bind_eq_ok.mp h
  have h₁ := whole_length hs₁
  have h₂ := fraction_length hs₂
  have h₃ := exponent_length h
  have h₄ := skip_length 45 s
  omega

/-! ## Values -/

abbrev Nested := Reader (List.length (α := UInt8)) Error Unit

section

variable (nested : Nested) {s r : Bytes} {a u : Unit}

/-- A round of the loop over the elements of an array. -/
def elementRound (_ : Unit) (s : Bytes) : Except Error ((Unit ⊕ Unit) × Bytes) := do
  let ((), s) ← nested.run s
  match whitespace s with
  | 93 :: s => return (.inr (), s)
  | 44 :: s => return (.inl (), s)
  | _ => invalid

/-- A round of the loop over the members of an object; `seen` are the names so far. -/
def memberRound (seen : List Bytes) (s : Bytes) :
    Except Error ((List Bytes ⊕ Unit) × Bytes) := do
  let (key, s) ← string (whitespace s)
  if key ∈ seen then invalid
  else do
    let s ← require 58 (whitespace s)
    let ((), s) ← nested.run s
    match whitespace s with
    | 125 :: s => return (.inr (), s)
    | 44 :: s => return (.inl (key :: seen), s)
    | _ => invalid

theorem elementRound_length {t : Unit ⊕ Unit}
    (h : elementRound nested a s = .ok (t, r)) : r.length < s.length := by
  obtain ⟨⟨⟨⟩, s₁⟩, hs₁, h⟩ := bind_eq_ok.mp h
  have h₁ := nested.consumes hs₁
  have h₂ := whitespace_length s₁
  dsimp only at h
  split at h
  · rename_i hs
    cases h
    rw [hs, List.length_cons] at h₂
    omega
  · rename_i hs
    cases h
    rw [hs, List.length_cons] at h₂
    omega
  · cases h

theorem memberRound_length {seen : List Bytes} {t : List Bytes ⊕ Unit}
    (h : memberRound nested seen s = .ok (t, r)) : r.length < s.length := by
  obtain ⟨⟨key, s₁⟩, hs₁, h⟩ := bind_eq_ok.mp h
  have h₁ := string_length hs₁
  have h₁' := whitespace_length s
  dsimp only at h
  split at h
  · cases h
  obtain ⟨s₂, hs₂, h⟩ := bind_eq_ok.mp h
  obtain ⟨⟨⟨⟩, s₃⟩, hs₃, h⟩ := bind_eq_ok.mp h
  have h₂ := require_length hs₂
  have h₂' := whitespace_length s₁
  have h₃ := nested.consumes hs₃
  have h₄ := whitespace_length s₃
  dsimp only at h
  split at h
  · rename_i hs
    cases h
    rw [hs, List.length_cons] at h₄
    omega
  · rename_i hs
    cases h
    rw [hs, List.length_cons] at h₄
    omega
  · cases h

def elements : Round (List.length (α := UInt8)) Error Unit Unit where
  run := elementRound nested
  consumes := elementRound_length nested

def members : Round (List.length (α := UInt8)) Error (List Bytes) Unit where
  run := memberRound nested
  consumes := memberRound_length nested

/-- What follows `[`. -/
def array (s : Bytes) : Except Error (Unit × Bytes) :=
  match whitespace s with
  | 93 :: s => .ok ((), s)
  | s => (elements nested).loop () s

def object (s : Bytes) : Except Error (Unit × Bytes) :=
  match whitespace s with
  | 125 :: s => .ok ((), s)
  | s => (members nested).loop [] s

/-- `parse`, at a depth where values may be nested as `nested` reads them. -/
def document (s : Bytes) : Except Error (Unit × Bytes) :=
  match whitespace s with
  | 34 :: s => do
      let (_, s) ← string (34 :: s)
      return ((), s)
  | 123 :: s => object nested s
  | 91 :: s => array nested s
  | 116 :: s => do return ((), ← word (lit "true") (116 :: s))
  | 102 :: s => do return ((), ← word (lit "false") (102 :: s))
  | 110 :: s => do return ((), ← word (lit "null") (110 :: s))
  | s => do return ((), ← number s)

variable {nested}

theorem array_length (h : array nested s = .ok ((), r)) : r.length ≤ s.length := by
  rw [array] at h
  have hle := whitespace_length s
  split at h
  · rename_i hs
    cases h
    rw [hs, List.length_cons] at hle
    omega
  · have hlt := (elements nested).loop_lt (fun {a _ _ _} => elementRound_length nested (a := a)) h
    exact hlt.le.trans hle

theorem object_length (h : object nested s = .ok ((), r)) : r.length ≤ s.length := by
  rw [object] at h
  have hle := whitespace_length s
  split at h
  · rename_i hs
    cases h
    rw [hs, List.length_cons] at hle
    omega
  · exact ((members nested).loop_lt (memberRound_length nested) h).le.trans hle

theorem document_length (h : document nested s = .ok (u, r)) : r.length < s.length := by
  refine Nat.lt_of_lt_of_le ?_ (whitespace_length s)
  rw [document] at h
  generalize whitespace s = s at h ⊢
  split at h
  · obtain ⟨⟨out, s'⟩, hs', h⟩ := bind_eq_ok.mp h
    cases h
    exact string_length hs'
  · exact Nat.lt_succ_of_le (object_length h)
  · exact Nat.lt_succ_of_le (array_length h)
  · obtain ⟨s', hs', h⟩ := bind_eq_ok.mp h
    cases h
    exact word_length (by decide +kernel) hs'
  · obtain ⟨s', hs', h⟩ := bind_eq_ok.mp h
    cases h
    exact word_length (by decide +kernel) hs'
  · obtain ⟨s', hs', h⟩ := bind_eq_ok.mp h
    cases h
    exact word_length (by decide +kernel) hs'
  · obtain ⟨s', hs', h⟩ := bind_eq_ok.mp h
    cases h
    exact number_length hs'

end

/-- `parse`, with the levels that are left: at depth `d` they are `65 - d`. -/
def parse : Nat → Nested
  | 0 => .refuse _ ⟨.type, lit "Invalid JSON (depth limit 64; duplicate object keys rejected)"⟩
  | levels + 1 => ⟨document (parse levels), document_length⟩

def type : SqlType := ⟨lit "json.document", 1, []⟩

def value (input : Bytes) : Except Error Value := do
  let ((), rest) ← (parse 65).run input
  if whitespace rest = [] then return .blob type input else invalid

end CoreSql.Json
