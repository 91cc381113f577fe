import Mathlib.Algebra.Order.Ring.Nat
import Mathlib.Data.List.Basic
import Mathlib.Order.RelClasses
import Mathlib.Tactic.Common

/-!
# Matching with wildcards

A pattern is a list of characters, some of which match any piece of a text
and the others one element each. The matcher goes through the text once and
remembers the last wildcard it passed and the place in the text it took it to
end; when it gets stuck it lets that wildcard take one element more.

That the wildcards before the last one need not be tried again is
`Invariant.star`: between two wildcards every character matches one element,
so a match with an earlier wildcard longer would reach the later one further
on in the text, and the later one may be longer instead.
-/

namespace Wildcard

variable {α β : Type} (many : β → Bool) (one : β → α → Bool) {s : List α} {p : List β}

/-! ## The matcher -/

/-- Where the matcher is in the text and in the pattern, the last wildcard it passed, and where in
the text that one ends. -/
structure Cursor where
  i : Nat := 0
  j : Nat := 0
  star : Option Nat := none
  mark : Nat := 0
  behind : ∀ k ∈ star, k < j := by simp
  marked : mark ≤ i := by simp

/-- Let the last wildcard take one element more. -/
def Cursor.restart (x : Cursor) : Option Cursor :=
  match x.star with
  | none => none
  | some k => some { i := x.mark + 1, j := k + 1, star := some k, mark := x.mark + 1 }

/-- One turn of the loop, at an element of the text. -/
def Cursor.next (p : List β) (a : α) (x : Cursor) : Option Cursor :=
  match p[x.j]? with
  | none => x.restart
  | some c =>
    if !many c && one c a then
      some { x with
        i := x.i + 1
        j := x.j + 1
        behind := fun k hk => Nat.lt_succ_of_lt (x.behind k hk)
        marked := Nat.le_succ_of_le x.marked }
    else if many c then some { i := x.i, j := x.j + 1, star := some x.j, mark := x.i }
    else x.restart

/-- How far a cursor has come: in wildcards, then in the text, then in the pattern. -/
def Cursor.measure (s : List α) (p : List β) (x : Cursor) : Nat × Nat × Nat :=
  (p.length - (x.star.map (· + 1)).getD 0, s.length - x.mark, p.length - x.j)

theorem Cursor.measure_restart {x y : Cursor} (hi : x.i < s.length) (h : x.restart = some y) :
    Prod.Lex (· < ·) (Prod.Lex (· < ·) (· < ·)) (y.measure s p) (x.measure s p) := by
  rw [restart] at h
  split at h
  · cases h
  · next k hk =>
      cases h
      have hmarked := x.marked
      rw [measure, measure, hk]
      exact .right _ (.left _ _ (by simp only; omega))

theorem Cursor.measure_next {a : α} {x y : Cursor} (hi : x.i < s.length)
    (h : x.next many one p a = some y) :
    Prod.Lex (· < ·) (Prod.Lex (· < ·) (· < ·)) (y.measure s p) (x.measure s p) := by
  rw [next] at h
  split at h
  · exact measure_restart hi h
  next c hc =>
  have hj : x.j < p.length := (List.getElem?_eq_some_iff.mp hc).1
  split at h
  · cases h
    exact .right _ (.right _ (by simp only; omega))
  split at h
  · cases h
    refine .left _ _ ?_
    cases hstar : x.star with
    | none =>
      simp only [Option.map_some, Option.map_none, Option.getD_some, Option.getD_none]
      omega
    | some k =>
      have := x.behind k hstar
      simp only [Option.map_some, Option.getD_some]
      omega
  · exact measure_restart hi h

variable {many one} in
theorem turns_end (s : List α) (p : List β) :
    WellFounded fun y x : Cursor => ∃ hi : x.i < s.length, x.next many one p s[x.i] = some y :=
  Subrelation.wf (fun ⟨hi, hnext⟩ => Cursor.measure_next many one hi hnext)
    (InvImage.wf (Cursor.measure s p)
      (wellFounded_lt.prod_lex (wellFounded_lt.prod_lex wellFounded_lt)))

/-- The loop over the text: nothing if there is no match, or where in the pattern it ends. -/
def loop (s : List α) (p : List β) (x : Cursor) : Option Nat :=
  if hi : x.i < s.length then
    match hnext : x.next many one p s[x.i] with
    | none => none
    | some y => loop s p y
  else some x.j
  termination_by x.measure s p
  decreasing_by exact x.measure_next many one hi hnext

def skip (p : List β) (j : Nat) : Nat :=
  match hc : p[j]? with
  | none => j
  | some c => if many c then skip p (j + 1) else j
  termination_by p.length - j
  decreasing_by
    have := (List.getElem?_eq_some_iff.mp hc).1
    omega

def isMatch (s : List α) (p : List β) : Bool :=
  match loop many one s p {} with
  | none => false
  | some j => skip many p j == p.length

/-! ## What a match is -/

/-- A text is pieces, one for each character: any for a wildcard, one element for another. -/
def Matches (p : List β) (s : List α) : Prop :=
  ∃ pieces : List (List α), pieces.flatten = s ∧
    List.Forall₂ (fun c piece => many c = true ∨ many c = false ∧ ∃ a, piece = [a] ∧
      one c a = true) p
      pieces

section

variable {many one} {s : List α} {p : List β} {c : β} {a : α}

theorem matches_nil : Matches many one [] s ↔ s = [] := by
  constructor
  · rintro ⟨pieces, rfl, hpieces⟩
    cases hpieces
    rfl
  · rintro rfl
    exact ⟨[], rfl, .nil⟩

theorem matches_many (hc : many c = true) :
    Matches many one (c :: p) s ↔ ∃ n, Matches many one p (s.drop n) := by
  constructor
  · rintro ⟨pieces, rfl, hpieces⟩
    cases hpieces with
    | @cons _ piece _ pieces _ hpieces =>
      exact ⟨piece.length, pieces, by simp, hpieces⟩
  · rintro ⟨n, pieces, hs, hpieces⟩
    refine ⟨s.take n :: pieces, ?_, .cons (.inl hc) hpieces⟩
    rw [List.flatten_cons, hs, List.take_append_drop]

theorem matches_one (hc : many c = false) :
    Matches many one (c :: p) (a :: s) ↔ one c a = true ∧ Matches many one p s := by
  constructor
  · rintro ⟨pieces, hs, hpieces⟩
    cases hpieces with
    | @cons _ piece _ pieces hpiece hpieces =>
      rcases hpiece with hmany | ⟨-, b, rfl, hone⟩
      · rw [hc] at hmany
        cases hmany
      · obtain ⟨rfl, rfl⟩ := List.cons.inj hs
        exact ⟨hone, pieces, rfl, hpieces⟩
  · rintro ⟨hone, pieces, rfl, hpieces⟩
    exact ⟨[a] :: pieces, rfl, .cons (.inr ⟨hc, a, rfl, hone⟩) hpieces⟩

theorem not_matches_one (hc : many c = false) : ¬Matches many one (c :: p) ([] : List α) := by
  rintro ⟨pieces, hs, hpieces⟩
  cases hpieces with
  | cons hpiece _ =>
    rcases hpiece with hmany | ⟨-, b, rfl, -⟩
    · rw [hc] at hmany
      cases hmany
    · cases hs

end

/-! ## The rest of the text against the rest of the pattern -/

section

variable {many one} {s : List α} {p : List β} {c : β} {a : α} {i j k m : Nat}

variable (many one s p) in
/-- From `i` in the text and `j` in the pattern on there is a match. -/
def Rest (i j : Nat) : Prop := Matches many one (p.drop j) (s.drop i)

theorem drop_eq_cons {γ : Type} {l : List γ} {b : γ} {n : Nat} (h : l[n]? = some b) :
    l.drop n = b :: l.drop (n + 1) := by
  obtain ⟨hn, hb⟩ := List.getElem?_eq_some_iff.mp h
  rw [List.drop_eq_getElem_cons hn, hb]

theorem rest_end (hj : p[j]? = none) : Rest many one s p i j ↔ s.length ≤ i := by
  rw [Rest, List.drop_eq_nil_of_le (List.getElem?_eq_none_iff.mp hj), matches_nil,
    List.drop_eq_nil_iff]

theorem rest_many (hj : p[j]? = some c) (hc : many c = true) :
    Rest many one s p i j ↔ ∃ m, i ≤ m ∧ Rest many one s p m (j + 1) := by
  rw [Rest, drop_eq_cons hj, matches_many hc]
  constructor
  · rintro ⟨n, hn⟩
    rw [List.drop_drop] at hn
    exact ⟨i + n, by omega, hn⟩
  · rintro ⟨m, him, hm⟩
    refine ⟨m - i, ?_⟩
    rw [List.drop_drop, show i + (m - i) = m by omega]
    exact hm

theorem rest_one (hj : p[j]? = some c) (hc : many c = false) (hi : s[i]? = some a) :
    Rest many one s p i j ↔ one c a = true ∧ Rest many one s p (i + 1) (j + 1) := by
  rw [Rest, drop_eq_cons hj, drop_eq_cons hi, matches_one hc]
  rfl

theorem Rest.advance {n : Nat} (h : Rest many one s p m k)
    (hrun : ∀ t, k ≤ t → t < k + n → ∀ c, p[t]? = some c → many c = false) (hn : k + n ≤ p.length) :
    Rest many one s p (m + n) (k + n) ∧ (n = 0 ∨ m + n ≤ s.length) := by
  induction n generalizing m k with
  | zero => exact ⟨h, .inl rfl⟩
  | succ n ih =>
    have hk : p[k]? = some p[k] := List.getElem?_eq_getElem (by omega)
    have hc := hrun k (Nat.le_refl _) (by omega) _ hk
    have hm : m < s.length := by
      by_contra hge
      rw [Rest, drop_eq_cons hk, List.drop_eq_nil_of_le (Nat.not_lt.mp hge)] at h
      exact not_matches_one hc h
    obtain ⟨-, hrest⟩ := (rest_one hk hc (List.getElem?_eq_getElem hm)).mp h
    obtain ⟨hfar, hle⟩ := ih hrest (fun t ht ht' => hrun t (by omega) (by omega)) (by omega)
    rw [show m + 1 + n = m + (n + 1) by omega, show k + 1 + n = k + (n + 1) by omega] at hfar
    exact ⟨hfar, .inr (by omega)⟩

/-! ## The invariant -/

variable (many one s p) in
/-- There is a match from the start if there is one from the cursor, or from the last wildcard with
that one longer. -/
structure Invariant (x : Cursor) : Prop where
  text : x.i ≤ s.length
  pattern : x.j ≤ p.length
  star : ∀ k ∈ x.star, x.i = x.mark + (x.j - (k + 1)) ∧
    ∀ t, k + 1 ≤ t → t < x.j → ∀ c, p[t]? = some c → many c = false
  exact : Matches many one p s ↔ Rest many one s p x.i x.j ∨
    ∃ k ∈ x.star, ∃ m, x.mark < m ∧ Rest many one s p m (k + 1)

theorem Invariant.start : Invariant many one s p {} where
  text := Nat.zero_le _
  pattern := Nat.zero_le _
  star := by simp
  exact := by simp [Rest]

/-- A longer wildcard reaches the cursor's place in the pattern further on in the text. -/
theorem Invariant.reach {x : Cursor} (h : Invariant many one s p x) (hk : k ∈ x.star)
    (hm : x.mark < m) (hrest : Rest many one s p m (k + 1)) :
    ∃ n, x.i < n ∧ Rest many one s p n x.j ∧ (n = m ∨ n ≤ s.length) := by
  obtain ⟨hi, hrun⟩ := h.star k hk
  have hbehind := x.behind k hk
  have hj : k + 1 + (x.j - (k + 1)) = x.j := by omega
  obtain ⟨hfar, hle⟩ := hrest.advance (n := x.j - (k + 1))
    (fun t ht ht' => hrun t ht (by omega)) (by rw [hj]; exact h.pattern)
  rw [hj] at hfar
  exact ⟨m + (x.j - (k + 1)), by omega, hfar, by omega⟩

theorem Invariant.finish {x : Cursor} (h : Invariant many one s p x) (hi : s.length ≤ x.i) :
    Matches many one p s ↔ Rest many one s p s.length x.j := by
  have hlen : x.i = s.length := Nat.le_antisymm h.text hi
  rw [h.exact, hlen]
  refine ⟨?_, .inl⟩
  rintro (hrest | ⟨k, hk, m, hm, hrest⟩)
  · exact hrest
  · obtain ⟨n, hn, hfar, -⟩ := h.reach hk hm hrest
    have hle : s.length ≤ n := by omega
    rw [Rest, List.drop_eq_nil_of_le hle] at hfar
    rw [Rest, List.drop_eq_nil_of_le (Nat.le_refl _)]
    exact hfar

/-- Where there is no match from the cursor, the last wildcard has to be longer. -/
theorem Invariant.restart {x : Cursor} (h : Invariant many one s p x) (hi : x.i < s.length)
    (hstuck : ¬Rest many one s p x.i x.j) :
    match x.restart with
    | none => ¬Matches many one p s
    | some y => Invariant many one s p y := by
  rw [Cursor.restart]
  cases hstar : x.star with
  | none =>
    rw [h.exact, hstar]
    simp [hstuck]
  | some k =>
    have hmarked := x.marked
    have hbehind := x.behind k hstar
    have hpattern := h.pattern
    refine ⟨by simp only; omega, by simp only; omega, ?_, ?_⟩
    · rintro k' ⟨⟩
      exact ⟨by simp, fun t ht ht' => absurd ht (by simp only at ht'; omega)⟩
    · rw [h.exact, hstar]
      simp only [hstuck, false_or, Option.mem_some_iff, exists_eq_left']
      constructor
      · rintro ⟨m, hm, hrest⟩
        by_cases heq : m = x.mark + 1
        · subst heq
          exact .inl hrest
        · exact .inr ⟨m, by omega, hrest⟩
      · rintro (hrest | ⟨m, hm, hrest⟩)
        · exact ⟨x.mark + 1, by omega, hrest⟩
        · exact ⟨m, by omega, hrest⟩

/-- A turn of the loop keeps the invariant, or there is no match. -/
theorem Invariant.next {x : Cursor} (h : Invariant many one s p x) (hi : s[x.i]? = some a) :
    match x.next many one p a with
    | none => ¬Matches many one p s
    | some y => Invariant many one s p y := by
  have hlt : x.i < s.length := (List.getElem?_eq_some_iff.mp hi).1
  rw [Cursor.next]
  cases hj : p[x.j]? with
  | none => exact h.restart hlt fun hrest => absurd ((rest_end hj).mp hrest) (by omega)
  | some c =>
    have hjlt : x.j < p.length := (List.getElem?_eq_some_iff.mp hj).1
    dsimp only
    cases hmany : many c with
    | true =>
      -- The cursor passes a wildcard: it is the last one now, and takes the place of the other.
      simp only [Bool.not_true, Bool.false_and, Bool.false_eq_true, if_false, if_true]
      refine ⟨h.text, hjlt, ?_, ?_⟩
      · rintro k ⟨⟩
        exact ⟨by simp, fun t ht ht' => absurd ht (by simp only at ht'; omega)⟩
      · have hlonger : (∃ k ∈ x.star, ∃ m, x.mark < m ∧ Rest many one s p m (k + 1)) →
            Rest many one s p x.i x.j := by
          rintro ⟨k, hk, m, hm, hrest⟩
          obtain ⟨n, hn, hfar, -⟩ := h.reach hk hm hrest
          obtain ⟨m', hm', hrest'⟩ := (rest_many hj hmany).mp hfar
          exact (rest_many hj hmany).mpr ⟨m', by omega, hrest'⟩
        rw [h.exact, or_iff_left_of_imp hlonger, rest_many hj hmany]
        simp only [Option.mem_some_iff, exists_eq_left']
        constructor
        · rintro ⟨m, hm, hrest⟩
          by_cases heq : m = x.i
          · subst heq
            exact .inl hrest
          · exact .inr ⟨m, by omega, hrest⟩
        · rintro (hrest | ⟨m, hm, hrest⟩)
          · exact ⟨x.i, Nat.le_refl _, hrest⟩
          · exact ⟨m, by omega, hrest⟩
    | false =>
      cases hone : one c a with
      | true =>
        simp only [Bool.not_false, Bool.and_self, if_true]
        refine ⟨hlt, hjlt, fun k hk => ?_, ?_⟩
        · obtain ⟨heq, hrun⟩ := h.star k hk
          have hbehind := x.behind k hk
          refine ⟨by simp only; omega, fun t ht ht' d hd => ?_⟩
          by_cases htj : t = x.j
          · subst htj
            rw [hj] at hd
            cases hd
            exact hmany
          · exact hrun t ht (by simp only at ht'; omega) d hd
        · rw [h.exact, rest_one hj hmany hi]
          simp [hone]
      | false =>
        simp only [Bool.not_false, Bool.and_false, Bool.false_eq_true, if_false]
        refine h.restart hlt fun hrest => ?_
        have := ((rest_one hj hmany hi).mp hrest).1
        rw [hone] at this
        cases this

/-! ## Correctness -/

theorem rest_skip (hj : j ≤ p.length) :
    Rest many one s p s.length j ↔ skip many p j = p.length := by
  fun_induction skip many p j with
  | case1 j hnone =>
    have hlen := List.getElem?_eq_none_iff.mp hnone
    rw [rest_end hnone]
    exact ⟨fun _ => by omega, fun _ => Nat.le_refl _⟩
  | case2 j c hc hmany ih =>
    have hlt := (List.getElem?_eq_some_iff.mp hc).1
    rw [← ih hlt, rest_many hc hmany]
    constructor
    · rintro ⟨m, hm, hrest⟩
      rw [Rest, List.drop_eq_nil_of_le hm] at hrest
      rw [Rest, List.drop_eq_nil_of_le (Nat.le_refl _)]
      exact hrest
    · exact fun hrest => ⟨s.length, Nat.le_refl _, hrest⟩
  | case3 j c hc hmany =>
    have hlt := (List.getElem?_eq_some_iff.mp hc).1
    constructor
    · intro hrest
      rw [Rest, drop_eq_cons hc, List.drop_eq_nil_of_le (Nat.le_refl _)] at hrest
      exact absurd hrest (not_matches_one (by simpa using hmany))
    · omega

theorem loop_eq {x : Cursor} (h : Invariant many one s p x) :
    match loop many one s p x with
    | none => ¬Matches many one p s
    | some j => Matches many one p s ↔ skip many p j = p.length := by
  fun_induction loop many one s p x with
  | case1 x hi hnone =>
    have hnext := h.next (List.getElem?_eq_getElem hi)
    rw [hnone] at hnext
    exact hnext
  | case2 x hi y hsome ih =>
    have hnext := h.next (List.getElem?_eq_getElem hi)
    rw [hsome] at hnext
    exact ih hnext
  | case3 x hi => exact (h.finish (Nat.not_lt.mp hi)).trans (rest_skip h.pattern)

theorem isMatch_iff : isMatch many one s p = true ↔ Matches many one p s := by
  have h := loop_eq (Invariant.start : Invariant many one s p {})
  rw [isMatch]
  split at h
  · next hnone => simp [hnone, h]
  · next j hsome => simp [hsome, h]

end

end Wildcard
