import Mathlib.Data.List.Forall2
import CoreSql.Lib.Fallible
import CoreSql.Sql.Lexer

/-!
# Lexing a piece of a text

`Lexed` says what tokens a text has, round by round and without the limits.
A round looks at most one byte past what it takes, and no token goes on with
a semicolon. So a round in front of a semicolon token does not see whether
the text goes on there or ends (`next_cut`), and a text lexes to the tokens
before its first semicolon token, that token, and the tokens behind it
(`Lexed.split`).

`script` cuts at exactly these places. What it cuts out lexes, alone, to the
tokens the whole text has there.
-/

namespace CoreSql.Sql

open Fallible

variable {t : Option (TokenKind × Bytes)} {tokens ts₁ ts₂ : List Token} {content : Bool}
  {close : UInt8} {q : Nat}

/-! ## Cutting in front of a semicolon -/

variable {p : UInt8 → Bool} {c : UInt8} {cs x y r rest : Bytes}

theorem follows_cut (hp : p 59 = false) : follows p (x ++ 59 :: y) = follows p x := by
  cases x <;> simp [follows, hp]

theorem tail_cut (h : follows p x = true) : (x ++ y).tail = x.tail ++ y := by
  cases x with
  | nil => cases h
  | cons => rfl

theorem dropWhile_cut (hp : p 59 = false) :
    (x ++ 59 :: y).dropWhile p = x.dropWhile p ++ 59 :: y := by
  rw [List.dropWhile_append]
  split
  · rename_i h
    rw [List.isEmpty_iff.mp h, List.dropWhile_cons_of_neg (by simp [hp])]
    rfl
  · rfl

theorem skipFraction_cut : skipFraction (x ++ 59 :: y) = skipFraction x ++ 59 :: y := by
  cases x with
  | nil => rfl
  | cons c x =>
    by_cases hc : c = 46
    · subst hc
      exact dropWhile_cut (by decide)
    · rw [List.cons_append, skipFraction, skipFraction]
      · rfl
      · simpa using hc
      · simpa using hc

theorem skipSign_cut : skipSign (x ++ 59 :: y) = skipSign x ++ 59 :: y := by
  cases x with
  | nil => rfl
  | cons c x =>
    by_cases hp : c = 43
    · subst hp; rfl
    by_cases hm : c = 45
    · subst hm; rfl
    · rw [List.cons_append, skipSign, skipSign]
      · rfl
      all_goals simpa

theorem skipExponent_cut : skipExponent (x ++ 59 :: y) = skipExponent x ++ 59 :: y := by
  have h (s : Bytes) : (skipSign (s ++ 59 :: y)).dropWhile digit =
      (skipSign s).dropWhile digit ++ 59 :: y := by
    rw [skipSign_cut, dropWhile_cut (by decide)]
  cases x with
  | nil => rfl
  | cons c x =>
    by_cases hs : c = 101
    · subst hs; exact h x
    by_cases hc : c = 69
    · subst hc; exact h x
    · rw [List.cons_append, skipExponent, skipExponent]
      · rfl
      all_goals simpa

theorem substr_append : substr (x ++ y) (r ++ y) = (x ++ y).take (x.length - r.length) := by
  rw [substr, List.length_append, List.length_append, Nat.add_sub_add_right]

theorem substr_cut : substr (x ++ y) (r ++ y) = substr x r := by
  rw [substr_append, substr, List.take_append_of_le_length (Nat.sub_le _ _)]

theorem commentEnd_cut (h : commentEnd (x ++ 59 :: y) = some (r ++ 59 :: y)) :
    commentEnd x = some r := by
  induction x with
  | nil =>
    have hlong := (commentEnd_suffix (show commentEnd y = some (r ++ 59 :: y) from h)).length_le
    rw [List.length_append, List.length_cons] at hlong
    omega
  | cons c x ih =>
    rw [List.cons_append, commentEnd, follows_cut (by decide)] at h
    rw [commentEnd]
    split
    · rename_i hc
      rw [if_pos hc, tail_cut hc.2] at h
      exact congrArg some (List.append_cancel_right (Option.some.inj h))
    · rename_i hc
      rw [if_neg hc] at h
      exact ih h

theorem quoted_cut (h : quoted close (x ++ 59 :: y) = some (text, r ++ 59 :: y)) :
    quoted close x = some (text, r) := by
  obtain ⟨heq, hrest⟩ := quoted_eq_some h
  rw [← List.cons_append, ← List.append_assoc, List.append_left_inj] at heq
  rw [heq]
  refine quoted_doubled text ?_
  cases r with
  | nil => rfl
  | cons => exact hrest

theorem ok_cut {α : Type} {a b : α}
    (h : (Except.ok (a, x ++ y) : Except String _) = .ok (b, r ++ y)) :
    (Except.ok (a, x) : Except String _) = .ok (b, r) := by
  simpa using h

theorem token_cut {t : TokenKind × Bytes}
    (h : token c (cs ++ 59 :: y) = .ok (t, r ++ 59 :: y)) : token c cs = .ok (t, r) := by
  unfold token at h ⊢
  dsimp only at h ⊢
  simp only [← List.cons_append] at h
  split
  · rename_i hc
    rw [if_pos hc] at h
    split at h
    · cases h
    · rename_i text rest hq
      cases h
      rw [quoted_cut hq]
  rename_i hc
  rw [if_neg hc, follows_cut (by decide)] at h
  split
  · rename_i hparam
    rw [if_pos hparam, tail_cut hparam.2, dropWhile_cut (by decide), substr_cut] at h
    exact ok_cut h
  rename_i hparam
  rw [if_neg hparam] at h
  split
  · rename_i halpha
    rw [if_pos halpha, dropWhile_cut (by decide), substr_cut] at h
    exact ok_cut h
  rename_i halpha
  rw [if_neg halpha, follows_cut (by decide)] at h
  split
  · rename_i hdigit
    rw [if_pos hdigit, dropWhile_cut (by decide), skipFraction_cut, skipExponent_cut,
      substr_cut] at h
    exact ok_cut h
  rename_i hdigit
  have hpair : pairs c 59 = false := by simp [pairs]
  rw [if_neg hdigit, follows_cut hpair] at h
  split
  · rename_i htwo
    rw [if_pos htwo, tail_cut htwo, substr_cut] at h
    exact ok_cut h
  · rename_i htwo
    rw [if_neg htwo, substr_cut] at h
    exact ok_cut h

/-- A line comment runs over semicolons, so one that ends before has met its line break. -/
theorem lineComment_cut (h : (x ++ 59 :: y).dropWhile (· != 10) = r ++ 59 :: y) :
    x.dropWhile (· != 10) = r := by
  rw [List.dropWhile_append] at h
  split at h
  · have hlong := congrArg List.length h
    have hshort := (List.dropWhile_suffix (l := y) (· != 10)).length_le
    rw [List.dropWhile_cons_of_pos (by decide), List.length_append, List.length_cons] at hlong
    omega
  · exact List.append_cancel_right h

/-- A round that stays in front of a semicolon is the same when the text ends there. -/
theorem next_cut (h : next c (cs ++ 59 :: y) = .ok (t, r ++ 59 :: y)) : next c cs = .ok (t, r) := by
  unfold next at h ⊢
  split
  · rename_i hc
    rw [if_pos hc] at h
    exact ok_cut h
  rename_i hc
  rw [if_neg hc, follows_cut (by decide)] at h
  split
  · rename_i hline
    rw [if_pos hline] at h
    obtain ⟨ht, hr⟩ := Prod.mk.inj (Except.ok.inj h)
    rw [← ht, lineComment_cut hr]
  rename_i hline
  rw [if_neg hline, follows_cut (by decide)] at h
  split
  · rename_i hblock
    rw [if_pos hblock, tail_cut hblock.2] at h
    split at h
    · cases h
    · rename_i rest hrest
      cases h
      rw [commentEnd_cut hrest]
  rename_i hblock
  rw [if_neg hblock] at h
  split at h
  · cases h
  · rename_i t' rest ht
    cases h
    rw [token_cut ht]

/-! ## The tokens of a text -/

/-- `s` has the tokens `ts`, when its first byte is byte `pos`. -/
inductive Lexed : Nat → Bytes → List Token → Prop where
  | nil {pos : Nat} : Lexed pos [] []
  | blank {pos : Nat} {c : UInt8} {cs rest : Bytes} {ts : List Token}
      (step : next c cs = .ok (none, rest))
      (more : Lexed (pos + (cs.length + 1 - rest.length)) rest ts) : Lexed pos (c :: cs) ts
  | token {pos : Nat} {c : UInt8} {cs rest : Bytes} {kind : TokenKind} {text : Bytes}
      {ts : List Token} (step : next c cs = .ok (some (kind, text), rest))
      (more : Lexed (pos + (cs.length + 1 - rest.length)) rest ts) :
      Lexed pos (c :: cs) (⟨kind, text, pos⟩ :: ts)

variable {pos count start : Nat} {s text : Bytes} {ts : List Token}

theorem lexFrom_blank (step : next c cs = .ok (none, rest)) :
    lexFrom pos count (c :: cs) = lexFrom (pos + (cs.length + 1 - rest.length)) count rest := by
  rw [lexFrom]
  split
  · rename_i h; cases step.symm.trans h
  · rename_i h; cases step.symm.trans h; rfl
  · rename_i h; cases step.symm.trans h

theorem lexFrom_token {kind : TokenKind} (step : next c cs = .ok (some (kind, text), rest)) :
    lexFrom pos count (c :: cs) = if count + 1 > 16384 then error pos "too many tokens"
      else (⟨kind, text, pos⟩ :: ·) <$>
        lexFrom (pos + (cs.length + 1 - rest.length)) (count + 1) rest := by
  rw [lexFrom]
  split
  · rename_i h; cases step.symm.trans h
  · rename_i h; cases step.symm.trans h
  · rename_i h; cases step.symm.trans h; rfl

theorem lexFrom_error {message : String} (step : next c cs = .error message) :
    lexFrom pos count (c :: cs) = error pos message := by
  rw [lexFrom]
  split
  · rename_i h; cases step.symm.trans h; rfl
  · rename_i h; cases step.symm.trans h
  · rename_i h; cases step.symm.trans h

theorem next_pos (h : next c cs = .ok (t, rest)) :
    pos + (cs.length + 1 - rest.length) + rest.length = pos + (c :: cs).length := by
  have := next_length h
  rw [List.length_cons] at this ⊢
  omega

theorem Lexed.of_lexFrom (hcount : count ≤ 16384) (h : lexFrom pos count s = .ok tokens) :
    ∃ ts, Lexed pos s ts ∧ count + ts.length ≤ 16384 ∧
      tokens = ts ++ [⟨.end, [], pos + s.length⟩] := by
  induction pos, count, s using lexFrom.induct generalizing tokens with
  | case1 pos count =>
    rw [lexFrom] at h
    cases h
    exact ⟨[], .nil, hcount, rfl⟩
  | case2 pos count c cs message step =>
    rw [lexFrom_error step] at h
    cases h
  | case3 pos count c cs rest step _ ih =>
    rw [lexFrom_blank step] at h
    obtain ⟨ts, hts, hle, rfl⟩ := ih hcount h
    exact ⟨ts, .blank step hts, hle, by rw [next_pos step]⟩
  | case4 pos count c cs kind text rest step _ hmany =>
    rw [lexFrom_token step, if_pos hmany] at h
    cases h
  | case5 pos count c cs kind text rest step _ hmany ih =>
    rw [lexFrom_token step, if_neg hmany, map_eq_ok] at h
    obtain ⟨tokens, h, rfl⟩ := h
    obtain ⟨ts, hts, hle, rfl⟩ := ih (by omega) h
    refine ⟨_, .token step hts, ?_, by rw [next_pos step]; rfl⟩
    rw [List.length_cons]
    omega

theorem Lexed.lexFrom_eq (h : Lexed pos s ts) (hcount : count + ts.length ≤ 16384) :
    lexFrom pos count s = .ok (ts ++ [⟨.end, [], pos + s.length⟩]) := by
  induction h generalizing count with
  | nil => rw [lexFrom]; rfl
  | blank step _ ih => rw [lexFrom_blank step, ih hcount, next_pos step]
  | token step _ ih =>
    rw [List.length_cons] at hcount
    rw [lexFrom_token step, if_neg (by omega), ih (by omega), next_pos step]
    rfl

theorem lex_eq_ok : lex s = .ok tokens ↔ s.length ≤ 1024 * 1024 ∧
      ∃ ts, Lexed 0 s ts ∧ ts.length ≤ 16384 ∧ tokens = ts ++ [⟨.end, [], s.length⟩] := by
  rw [lex]
  split
  · rename_i h
    exact ⟨nofun, fun ⟨hle, _⟩ => absurd hle (Nat.not_le.mpr h)⟩
  · rename_i h
    constructor
    · intro h'
      obtain ⟨ts, hts, hle, rfl⟩ := Lexed.of_lexFrom (Nat.zero_le _) h'
      exact ⟨Nat.le_of_not_lt h, ts, hts, by omega, by rw [Nat.zero_add]⟩
    · rintro ⟨-, ts, hts, hle, rfl⟩
      rw [hts.lexFrom_eq (by omega), Nat.zero_add]

/-! ## Semicolons -/

/-- The token `t` of a text that starts at byte `start`, in a text that starts at byte 0. -/
def Token.shift (start : Nat) (t : Token) : Token := { t with pos := start + t.pos }

theorem Lexed.unshift (h : Lexed pos s ts) (hpos : pos = start + q) :
    ∃ ts₀, Lexed q s ts₀ ∧ ts = ts₀.map (Token.shift start) := by
  induction h generalizing q with
  | nil => exact ⟨[], .nil, rfl⟩
  | blank step _ ih =>
    obtain ⟨ts₀, hts, rfl⟩ := ih (by rw [hpos, Nat.add_assoc])
    exact ⟨ts₀, .blank step hts, rfl⟩
  | token step _ ih =>
    obtain ⟨ts₀, hts, rfl⟩ := ih (by rw [hpos, Nat.add_assoc])
    exact ⟨_, .token step hts, by rw [hpos]; rfl⟩

theorem token_kind_ne_end {t : TokenKind × Bytes} (h : token c cs = .ok (t, rest)) :
    t.1 ≠ .end := by
  unfold token at h
  dsimp only at h
  split at h
  · split at h
    · cases h
    · cases h
      split <;> exact nofun
  split at h
  · cases h; exact nofun
  split at h
  · cases h; exact nofun
  split at h
  · cases h; exact nofun
  · cases h; exact nofun

theorem substr_one : substr (c :: cs) cs = [c] := by
  rw [substr, List.length_cons, Nat.add_sub_cancel_left]
  rfl

theorem substr_two (h : follows p cs = true) : (substr (c :: cs) cs.tail).length = 2 := by
  cases cs with
  | nil => cases h
  | cons d cs =>
    rw [substr, List.length_take, List.tail_cons, List.length_cons, List.length_cons]
    omega

theorem token_semicolon (h : token c cs = .ok ((.symbol, [59]), rest)) : c = 59 ∧ rest = cs := by
  unfold token at h
  dsimp only at h
  split at h
  · split at h
    · cases h
    · split at h <;> cases h
  split at h
  · cases h
  split at h
  · cases h
  split at h
  · cases h
  · obtain ⟨ht, rfl⟩ := Prod.mk.inj (Except.ok.inj h)
    have htext := (Prod.mk.inj ht).2
    split at htext
    · rename_i hpair
      have := substr_two hpair ▸ congrArg List.length htext
      cases this
    · rename_i hpair
      rw [substr_one] at htext
      exact ⟨List.head_eq_of_cons_eq htext, if_neg hpair⟩

theorem next_eq_token {t : TokenKind × Bytes} (h : next c cs = .ok (some t, rest)) :
    token c cs = .ok (t, rest) := by
  unfold next at h
  split at h
  · cases h
  split at h
  · cases h
  split at h
  · split at h <;> cases h
  split at h
  · cases h
  · rename_i ht
    cases h
    exact ht

theorem Lexed.kind_ne_end (h : Lexed pos s ts) : ∀ t ∈ ts, t.kind ≠ .end := by
  induction h with
  | nil => simp
  | blank _ _ ih => exact ih
  | token step _ ih => exact List.forall_mem_cons.mpr ⟨token_kind_ne_end (next_eq_token step), ih⟩

/-- A round in front of a semicolon, in the text that ends there. -/
theorem next_before (h : next c cs = .ok (t, x ++ 59 :: y)) :
    ∃ cs', cs = cs' ++ 59 :: y ∧ next c cs' = .ok (t, x) ∧
      cs.length + 1 - (x ++ 59 :: y).length = cs'.length + 1 - x.length := by
  obtain ⟨u, rfl⟩ := next_suffix h
  rw [← List.append_assoc] at h ⊢
  exact ⟨u ++ x, rfl, next_cut h, by simp only [List.length_append]; omega⟩

/-- The tokens before the first semicolon are those of the text before it, and the others those
of the text behind it. -/
theorem Lexed.split (h : Lexed pos s ts) : (∀ t ∈ ts, t.semicolon = false) ∨
      ∃ x y ts₁ ts₂, s = x ++ 59 :: y ∧ ts = ts₁ ++ ⟨.symbol, [59], pos + x.length⟩ :: ts₂ ∧
        (∀ t ∈ ts₁, t.semicolon = false) ∧ Lexed pos x ts₁ ∧ Lexed (pos + x.length + 1) y ts₂ := by
  induction h with
  | nil => exact .inl (by simp)
  | @blank pos c cs rest ts step more ih =>
    refine ih.imp id ?_
    rintro ⟨x, y, ts₁, ts₂, rfl, rfl, hno, h₁, h₂⟩
    obtain ⟨cs, rfl, step', hlen⟩ := next_before step
    have hpos : pos + _ + _ = _ := next_pos step'
    rw [hlen] at h₁ h₂
    rw [hpos] at h₂
    refine ⟨c :: cs, y, ts₁, ts₂, rfl, ?_, hno, .blank step' h₁, h₂⟩
    rw [hlen, hpos]
  | @token pos c cs rest kind text ts step more ih =>
    by_cases hsemi : Token.semicolon ⟨kind, text, pos⟩ = true
    · -- The token is the semicolon.
      obtain ⟨rfl, rfl⟩ : kind = .symbol ∧ text = [59] := by simpa [Token.semicolon] using hsemi
      obtain ⟨rfl, rfl⟩ := token_semicolon (next_eq_token step)
      refine .inr ⟨[], rest, [], ts, rfl, rfl, by simp, .nil, ?_⟩
      rwa [Nat.add_sub_cancel_left] at more
    rw [Bool.not_eq_true] at hsemi
    refine ih.imp (fun hno => List.forall_mem_cons.mpr ⟨hsemi, hno⟩) ?_
    rintro ⟨x, y, ts₁, ts₂, rfl, rfl, hno, h₁, h₂⟩
    obtain ⟨cs, rfl, step', hlen⟩ := next_before step
    have hpos : pos + _ + _ = _ := next_pos step'
    rw [hlen] at h₁ h₂
    rw [hpos] at h₂
    refine ⟨c :: cs, y, _ :: ts₁, ts₂, rfl, ?_, List.forall_mem_cons.mpr ⟨hsemi, hno⟩,
      .token step' h₁, h₂⟩
    rw [hlen, hpos]
    rfl

/-! ## Scripts -/

theorem cut_append (tokens : List Token)
    (hkind : ∀ t ∈ ts₁, t.kind ≠ .end) (hno : ∀ t ∈ ts₁, t.semicolon = false) :
    cut text start content (ts₁ ++ tokens) = cut text start (content || !ts₁.isEmpty) tokens := by
  induction ts₁ generalizing content with
  | nil => rw [List.isEmpty_nil, Bool.not_true, Bool.or_false]; rfl
  | cons t ts₁ ih =>
    obtain ⟨hk, hkind⟩ := List.forall_mem_cons.mp hkind
    obtain ⟨hs, hno⟩ := List.forall_mem_cons.mp hno
    rw [List.cons_append, cut, if_neg (by simp [hk, hs]), ih hkind hno]
    simp

theorem cut_separator {t : Token} (h : t.kind = .end ∨ t.semicolon = true) :
    cut text start content (t :: tokens) =
      (if content then [⟨start, (text.drop start).take (t.pos - start)⟩] else []) ++
        cut text (t.pos + 1) false tokens := by
  rw [cut, if_pos h]
  cases content <;> rfl

/-- `piece` is a part of `text` that has the tokens `run` of it, and no others. -/
structure Piece.Lexes (text : Bytes) (piece : Piece) (run : List Token) : Prop where
  part : (text.drop piece.start).take piece.text.length = piece.text
  tokens : ∃ ts, lex piece.text = .ok (ts ++ [⟨.end, [], piece.text.length⟩]) ∧
    run = ts.map (Token.shift piece.start)

theorem Lexed.piece (htext : text.drop start = x ++ y) (h : Lexed start x ts)
    (hsize : text.length ≤ 1024 * 1024) (hcount : ts.length ≤ 16384) :
    Piece.Lexes text ⟨start, x⟩ ts where
  part := by rw [htext, List.take_left]
  tokens := by
    obtain ⟨ts₀, h₀, rfl⟩ := h.unshift (show start = start + 0 from rfl)
    rw [List.length_map] at hcount
    have hx := congrArg List.length htext
    rw [List.length_drop, List.length_append] at hx
    exact ⟨ts₀, lex_eq_ok.mpr ⟨show x.length ≤ _ by omega, ts₀, h₀, hcount, rfl⟩, rfl⟩

/-- The maximal runs of tokens between semicolons that are not empty. -/
def runs (ts : List Token) : List (List Token) :=
  (ts.splitOnP Token.semicolon).filter fun run => !run.isEmpty

theorem runs_eq (h : ∀ t ∈ ts, t.semicolon = false) :
    runs ts = if !ts.isEmpty then [ts] else [] := by
  rw [runs, List.splitOnP_eq_singleton h, List.filter_singleton, Bool.cond_eq_ite]

theorem runs_append {t : Token} (h : ∀ t ∈ ts₁, t.semicolon = false) (ht : t.semicolon = true) :
    runs (ts₁ ++ t :: ts₂) = (if !ts₁.isEmpty then [ts₁] else []) ++ runs ts₂ := by
  rw [← runs_eq h, runs, runs, runs, List.splitOnP_append_cons _ _ ht, List.filter_append]

theorem Piece.lexes_run {piece : Piece} (h : piece.Lexes text ts) :
    List.Forall₂ (Piece.Lexes text) (if !ts.isEmpty then [piece] else [])
      (if !ts.isEmpty then [ts] else []) := by
  split
  · exact .cons h .nil
  · exact .nil

theorem cut_runs (hsize : text.length ≤ 1024 * 1024) (hcount : ts.length ≤ 16384)
    (h : Lexed start (text.drop start) ts) :
    List.Forall₂ (Piece.Lexes text) (cut text start false (ts ++ [⟨.end, [], text.length⟩]))
      (runs ts) := by
  -- The induction is on the tokens, one statement at a time.
  induction hn : ts.length using Nat.strong_induction_on generalizing start ts with
  | h n ih =>
    have hkind := h.kind_ne_end
    rcases h.split with hno | ⟨x, y, ts₁, ts₂, htext, rfl, hno, h₁, h₂⟩
    · rw [cut_append _ hkind hno, cut_separator (.inl rfl), runs_eq hno, cut, List.append_nil,
        ← List.length_drop, List.take_length]
      exact Piece.lexes_run (h.piece (List.append_nil _).symm hsize hcount)
    · have hlen : (ts₁ ++ ⟨.symbol, [59], start + x.length⟩ :: ts₂).length =
          ts₁.length + ts₂.length + 1 := by
        rw [List.length_append, List.length_cons, Nat.add_assoc]
      have hrest : text.drop (start + x.length + 1) = y := by
        rw [Nat.add_assoc, ← List.drop_drop, htext, List.drop_append]
        simp
      have hmore := ih ts₂.length (by omega) (by omega) (hrest.symm ▸ h₂) rfl
      rw [List.append_assoc, List.cons_append,
        cut_append _ (fun t ht => hkind t (List.mem_append_left _ ht)) hno,
        cut_separator (.inr rfl), runs_append hno rfl, Nat.add_sub_cancel_left, htext,
        List.take_left]
      exact List.rel_append (Piece.lexes_run (h₁.piece htext hsize (by omega))) hmore

/-- The texts `script` cuts out of a text that lexes are parts of it, and lex, one by one, to the
runs of tokens between the semicolon tokens of the text. -/
theorem script_pieces_lex {tokens : List Token} (h : lex text = .ok tokens) :
    ∃ ts ps, tokens = ts ++ [⟨.end, [], text.length⟩] ∧ pieces text = .ok ps ∧
      List.Forall₂ (Piece.Lexes text) ps (runs ts) := by
  obtain ⟨hsize, ts, hts, hcount, rfl⟩ := lex_eq_ok.mp h
  refine ⟨ts, _, rfl, ?_, cut_runs hsize hcount hts⟩
  rw [pieces, h]
  rfl

/-- A semicolon in a string and one in a comment, which do not split, and one that does. -/
theorem script_pieces_two :
    lex (lit "a ';';b--;") = .ok [⟨.word, lit "a", 0⟩, ⟨.string, lit ";", 2⟩,
        ⟨.symbol, lit ";", 5⟩, ⟨.word, lit "b", 6⟩, ⟨.end, [], 10⟩] ∧
      ∃ ts ps, [⟨.word, lit "a", 0⟩, ⟨.string, lit ";", 2⟩, ⟨.symbol, lit ";", 5⟩,
          ⟨.word, lit "b", 6⟩, ⟨.end, [], 10⟩] = ts ++ [⟨.end, [], (lit "a ';';b--;").length⟩] ∧
        pieces (lit "a ';';b--;") = .ok ps ∧
        List.Forall₂ (Piece.Lexes (lit "a ';';b--;")) ps (runs ts) := by
  have h : lex (lit "a ';';b--;") = .ok [⟨.word, lit "a", 0⟩, ⟨.string, lit ";", 2⟩,
      ⟨.symbol, lit ";", 5⟩, ⟨.word, lit "b", 6⟩, ⟨.end, [], 10⟩] := by decide +kernel
  exact ⟨h, script_pieces_lex h⟩

end CoreSql.Sql
