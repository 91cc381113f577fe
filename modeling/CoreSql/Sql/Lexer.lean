import CoreSql.Basic

/-!
# The SQL lexer

`lex` of `parser.cpp`, read over what is left of the text. A round of its loop
skips a blank or a comment or takes one token; it looks at most one byte past
what it takes, and carries nothing from one round to the next except the
number of tokens.

`script` lexes a whole text, and cuts it at the semicolons that are tokens of
it. What it cuts out is lexed again, alone, when the statement is parsed.
-/

namespace CoreSql.Sql

variable {close c v : UInt8} {s rest cs text : Bytes}

/-- `Token::Kind` of `parser.cpp`. -/
inductive TokenKind where
  | word | identifier | string | number | symbol | parameter | end
  deriving DecidableEq, Repr

variable {t : Option (TokenKind × Bytes)}

/-- `Token`; `pos` is the source's `at`. -/
structure Token where
  kind : TokenKind
  text : Bytes
  pos : Nat
  deriving DecidableEq, Repr

/-- What `error` throws. -/
def errorAt (pos : Nat) (message : Bytes) : Error :=
  ⟨.unsupported, lit "SQL byte " ++ lit (toString pos) ++ lit ": " ++ message⟩

def error {α : Type} (pos : Nat) (message : String) : Except Error α :=
  .error (errorAt pos (lit message))

def alpha (c : UInt8) : Bool :=
  (97 ≤ c && c ≤ 122) || (65 ≤ c && c ≤ 90) || c == 95

def digit (c : UInt8) : Bool := 48 ≤ c && c ≤ 57

def wordChar (c : UInt8) : Bool := alpha c || digit c

/-- Identifiers and words are case insensitive. -/
def lower (text : Bytes) : Bytes :=
  text.map fun c => if 65 ≤ c ∧ c ≤ 90 then c + 32 else c

def follows (p : UInt8 → Bool) (s : Bytes) : Bool := s.head?.any p

/-- What was read to get from `s` to its suffix `rest`. -/
def substr (s rest : Bytes) : Bytes := s.take (s.length - rest.length)

/-- Behind the first `*/`. -/
def commentEnd : Bytes → Option Bytes
  | [] => none
  | c :: s => if c = 42 ∧ follows (· == 47) s then some s.tail else commentEnd s

/-- The contents of a quoted token, where a doubled `close` is one byte of it, and the rest. -/
def quoted (close : UInt8) : Bytes → Option (Bytes × Bytes)
  | [] => none
  | v :: s =>
    if v = close then
      match s with
      | [] => some ([], [])
      | w :: s' =>
        if w = close then (quoted close s').map fun (text, rest) => (v :: text, rest)
        else some ([], w :: s')
    else (quoted close s).map fun (text, rest) => (v :: text, rest)

/-- Behind a `.` and its digits, when there is one. -/
def skipFraction : Bytes → Bytes
  | 46 :: s => s.dropWhile digit
  | s => s

def skipSign : Bytes → Bytes
  | 43 :: s => s
  | 45 :: s => s
  | s => s

def skipExponent : Bytes → Bytes
  | 101 :: s => (skipSign s).dropWhile digit
  | 69 :: s => (skipSign s).dropWhile digit
  | s => s

/-- `<=`, `<>`, `>=`, `!=`, `==` and `||` are one symbol. -/
def pairs (c d : UInt8) : Bool :=
  (c == 60 && (d == 61 || d == 62)) || (c == 62 && d == 61) || (c == 33 && d == 61) ||
    (c == 61 && d == 61) || (c == 124 && d == 124)

/-- The token that begins with `c`, which no blank or comment does, and the rest. -/
def token (c : UInt8) (cs : Bytes) : Except String ((TokenKind × Bytes) × Bytes) :=
  let s := c :: cs
  if c = 39 ∨ c = 34 ∨ c = 96 ∨ c = 91 then
    match quoted (if c = 91 then 93 else c) cs with
    | none => .error "unterminated quoted token"
    | some (text, rest) =>
      .ok (if c = 39 then (.string, text) else (.identifier, lower text), rest)
  else if (c = 58 ∨ c = 64 ∨ c = 36) ∧ follows alpha cs then
    let rest := cs.tail.dropWhile wordChar
    .ok ((.parameter, substr s rest), rest)
  else if alpha c then
    let rest := cs.dropWhile wordChar
    .ok ((.word, lower (substr s rest)), rest)
  else if digit c ∨ (c = 46 ∧ follows digit cs) then
    let rest := skipExponent (skipFraction (s.dropWhile digit))
    .ok ((.number, substr s rest), rest)
  else
    let rest := if follows (pairs c) cs then cs.tail else cs
    .ok ((.symbol, substr s rest), rest)

/-- A round of `lex` at the byte `c`: the token it takes, if it takes one, and the rest. -/
def next (c : UInt8) (cs : Bytes) : Except String (Option (TokenKind × Bytes) × Bytes) :=
  if c = 32 ∨ c = 10 ∨ c = 13 ∨ c = 9 then .ok (none, cs)
  else if c = 45 ∧ follows (· == 45) cs then .ok (none, cs.dropWhile (· != 10))
  else if c = 47 ∧ follows (· == 42) cs then
    match commentEnd cs.tail with
    | none => .error "unterminated comment"
    | some rest => .ok (none, rest)
  else
    match token c cs with
    | .error message => .error message
    | .ok (t, rest) => .ok (some t, rest)

/-! ## A round leaves less -/

/-- What a quoted text looks like between its quotes. -/
def doubled (close : UInt8) (text : Bytes) : Bytes :=
  text.flatMap fun c => if c = close then [c, c] else [c]

theorem quoted_cons_of_ne (s : Bytes) (h : v ≠ close) : quoted close (v :: s) =
      (quoted close s).map fun (text, rest) => (v :: text, rest) := by
  rw [quoted.eq_def]
  exact if_neg h

theorem quoted_eq_some (h : quoted close s = some (text, rest)) :
    s = doubled close text ++ close :: rest ∧ follows (· == close) rest = false := by
  induction s using quoted.induct close generalizing text with
  | case1 => cases h
  | case2 =>
    rw [quoted, if_pos rfl] at h
    cases h
    exact ⟨rfl, rfl⟩
  | case3 s ih =>
    simp only [quoted, if_true, Option.map_eq_some_iff, Prod.exists, Prod.mk.injEq] at h
    obtain ⟨text, _, h, rfl, rfl⟩ := h
    obtain ⟨rfl, hrest⟩ := ih h
    exact ⟨by simp [doubled], hrest⟩
  | case4 w s hw =>
    simp only [quoted, if_true, if_neg hw] at h
    cases h
    exact ⟨rfl, by simpa [follows] using hw⟩
  | case5 v s hv ih =>
    simp only [quoted_cons_of_ne s hv, Option.map_eq_some_iff, Prod.exists, Prod.mk.injEq] at h
    obtain ⟨text, _, h, rfl, rfl⟩ := h
    obtain ⟨rfl, hrest⟩ := ih h
    exact ⟨by simp [doubled, hv], hrest⟩

theorem quoted_doubled (text : Bytes) (h : follows (· == close) rest = false) :
    quoted close (doubled close text ++ close :: rest) = some (text, rest) := by
  induction text with
  | nil =>
    cases rest with
    | nil => simp [doubled, quoted]
    | cons w rest => simpa [doubled, quoted, follows] using h
  | cons v text ih =>
    by_cases hv : v = close
    · subst hv
      have hcons : doubled v (v :: text) = v :: v :: doubled v text := by simp [doubled]
      simp [hcons, quoted, ih]
    · have hcons : doubled close (v :: text) = v :: doubled close text := by
        simp [doubled, hv]
      rw [hcons, List.cons_append, quoted_cons_of_ne _ hv, ih]
      rfl

theorem commentEnd_suffix (h : commentEnd s = some rest) : rest <:+ s := by
  induction s with
  | nil => cases h
  | cons c s ih =>
    rw [commentEnd] at h
    split at h
    · cases h
      exact (List.tail_suffix s).trans (List.suffix_cons c s)
    · exact (ih h).trans (List.suffix_cons c s)

theorem skipFraction_suffix (s : Bytes) : skipFraction s <:+ s := by
  unfold skipFraction
  split
  · exact (List.dropWhile_suffix _).trans (List.suffix_cons _ _)
  · exact List.suffix_rfl

theorem skipSign_suffix (s : Bytes) : skipSign s <:+ s := by
  unfold skipSign
  split
  · exact List.suffix_cons _ _
  · exact List.suffix_cons _ _
  · exact List.suffix_rfl

theorem skipExponent_suffix (s : Bytes) : skipExponent s <:+ s := by
  have h (s : Bytes) : (skipSign s).dropWhile digit <:+ s :=
    (List.dropWhile_suffix _).trans (skipSign_suffix s)
  unfold skipExponent
  split
  · exact (h _).trans (List.suffix_cons _ _)
  · exact (h _).trans (List.suffix_cons _ _)
  · exact List.suffix_rfl

theorem number_suffix (h : digit c = true ∨ c = 46) :
    skipExponent (skipFraction ((c :: cs).dropWhile digit)) <:+ cs := by
  refine (skipExponent_suffix _).trans ?_
  rcases h with h | rfl
  · rw [List.dropWhile_cons_of_pos h]
    exact (skipFraction_suffix _).trans (List.dropWhile_suffix _)
  · exact List.dropWhile_suffix _

theorem token_suffix {t : TokenKind × Bytes} (h : token c cs = .ok (t, rest)) : rest <:+ cs := by
  unfold token at h
  dsimp only at h
  split at h
  · split at h
    · cases h
    · rename_i text r hq
      cases h
      rw [(quoted_eq_some hq).1]
      exact ⟨doubled _ _ ++ [_], by simp; rfl⟩
  split at h
  · cases h
    exact (List.dropWhile_suffix _).trans (List.tail_suffix _)
  split at h
  · cases h
    exact List.dropWhile_suffix _
  split at h
  · rename_i hd
    cases h
    exact number_suffix (hd.imp_right And.left)
  · cases h
    split
    · exact List.tail_suffix _
    · exact List.suffix_rfl

theorem next_suffix (h : next c cs = .ok (t, rest)) : rest <:+ cs := by
  unfold next at h
  split at h
  · cases h
    exact List.suffix_rfl
  split at h
  · cases h
    exact List.dropWhile_suffix _
  split at h
  · split at h
    · cases h
    · rename_i r hr
      cases h
      exact (commentEnd_suffix hr).trans (List.tail_suffix _)
  split at h
  · cases h
  · rename_i hr
    cases h
    exact token_suffix hr

theorem next_length (h : next c cs = .ok (t, rest)) : rest.length < (c :: cs).length :=
  Nat.lt_succ_of_le (next_suffix h).length_le

/-! ## The loop -/

/-- The loop of `lex` at byte `pos`, with `count` tokens taken before. -/
def lexFrom (pos count : Nat) : Bytes → Except Error (List Token)
  | [] => .ok [⟨.end, [], pos⟩]
  | c :: cs =>
    match h : next c cs with
    | .error message => error pos message
    | .ok (none, rest) =>
      have := next_length h
      lexFrom (pos + (cs.length + 1 - rest.length)) count rest
    | .ok (some (kind, text), rest) =>
      have := next_length h
      if count + 1 > 16384 then error pos "too many tokens"
      else do
        let tokens ← lexFrom (pos + (cs.length + 1 - rest.length)) (count + 1) rest
        return ⟨kind, text, pos⟩ :: tokens
  termination_by s => s.length
  decreasing_by all_goals exact this

def lex (s : Bytes) : Except Error (List Token) :=
  if s.length > 1024 * 1024 then error 0 "statement exceeds 1 MiB" else lexFrom 0 0 s

def Token.semicolon (t : Token) : Bool := t.kind == .symbol && t.text == [59]

/-- A statement of a script: where it starts, and its text. -/
structure Piece where
  start : Nat
  text : Bytes
  deriving DecidableEq, Repr

/-- The loop of `script` over the tokens. -/
def cut (text : Bytes) (start : Nat) (content : Bool) : List Token → List Piece
  | [] => []
  | token :: tokens =>
    if token.kind = .end ∨ token.semicolon = true then
      let rest := cut text (token.pos + 1) false tokens
      if content then ⟨start, (text.drop start).take (token.pos - start)⟩ :: rest else rest
    else cut text start true tokens

/-- The texts `script` makes statements of. -/
def pieces (text : Bytes) : Except Error (List Piece) := do
  let tokens ← lex text
  return cut text 0 false tokens

end CoreSql.Sql
