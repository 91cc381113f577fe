import CoreSql.Lib.Buckets
import CoreSql.Lib.Related
import Mathlib.Data.List.Induction
import Mathlib.Data.List.Pairwise
import Mathlib.Data.List.Perm.Basic

/-!
# Elements gathered by the class of their key

A container has one entry for each class of keys: the first key of the class
that was met, and a state that was given the elements of the class. Where the
entry of a new class goes is up to the container; a list puts it at the end, an
ordered map where it belongs, and a hash table may number its entries.
`Consumes` is all that containers have in common, and it determines the entries
up to their order: two containers that are given the same elements fail alike,
or have the same entries in the end, and the state of an entry is what its
class amounts to.
-/

namespace Classes

variable {κ σ α ε : Type} {same : κ → κ → Bool} {P : κ → Prop} {l l' : List (κ × σ)}

/-- What giving an element with this key to a container does: the state of its
class takes it, or a new state in a new entry. -/
def Consumes (same : κ → κ → Bool) (k : κ) (create : Except ε σ) (step : σ → Except ε σ)
    (l : List (κ × σ)) (x : Except ε (List (κ × σ))) : Prop :=
  (∃ pre e post, l = pre ++ e :: post ∧ same e.1 k = true ∧
    x = do
      let s ← step e.2
      return pre ++ (e.1, s) :: post) ∨
  ∃ pre post, l = pre ++ post ∧ (∀ e ∈ l, same e.1 k = false) ∧
    x = do
      let s ← create
      let s ← step s
      return pre ++ (k, s) :: post

/-- Give an element to the entry with this number. -/
def feedAt (step : σ → Except ε σ) : Nat → List (κ × σ) → Except ε (List (κ × σ))
  | _, [] => .ok []
  | 0, e :: rest => do
      let s ← step e.2
      return (e.1, s) :: rest
  | n + 1, e :: rest => do
      let rest ← feedAt step n rest
      return e :: rest

theorem feedAt_append (step : σ → Except ε σ) (pre : List (κ × σ)) (e : κ × σ)
    (post : List (κ × σ)) : feedAt step pre.length (pre ++ e :: post) = do
      let s ← step e.2
      return pre ++ (e.1, s) :: post := by
  induction pre with
  | nil => rfl
  | cons d pre ih =>
    rw [List.length_cons, List.cons_append, feedAt, ih]
    cases step e.2 <;> rfl

theorem feedAt_keys {step : σ → Except ε σ} {n : Nat}
    (h : feedAt step n l = .ok l') : l'.map Prod.fst = l.map Prod.fst := by
  induction l generalizing n l' with
  | nil =>
    rw [feedAt] at h
    cases h
    rfl
  | cons e l ih =>
    cases n with
    | zero =>
      obtain ⟨s, -, h⟩ := Fallible.bind_eq_ok.mp h
      cases h
      rfl
    | succ n =>
      obtain ⟨rest, hrest, h⟩ := Fallible.bind_eq_ok.mp h
      cases h
      rw [List.map_cons, List.map_cons, ih hrest]

def Apart (same : κ → κ → Bool) (a b : κ × σ) : Prop :=
  same a.1 b.1 = false ∧ same b.1 a.1 = false

theorem Apart.symm {a b : κ × σ} (h : Apart same a b) : Apart same b a := ⟨h.2, h.1⟩

/-- Keys the test is an equivalence on, one of each class. -/
structure Proper (P : κ → Prop) (same : κ → κ → Bool) (l : List (κ × σ)) : Prop where
  keys : ∀ e ∈ l, P e.1
  apart : l.Pairwise (Apart same)

theorem Proper.perm (h : Proper P same l) (hperm : l'.Perm l) : Proper P same l' :=
  ⟨fun e he => h.keys e (hperm.mem_iff.mp he), (hperm.pairwise_iff Apart.symm).mpr h.apart⟩

theorem Proper.of_keys (h : Proper P same l)
    (hkeys : l'.map Prod.fst = l.map Prod.fst) : Proper P same l' := by
  have hP : ∀ k ∈ l.map Prod.fst, P k := by simpa using h.keys
  have happart : (l.map Prod.fst).Pairwise fun a b => same a b = false ∧ same b a = false :=
    List.pairwise_map.mpr h.apart
  rw [← hkeys] at hP happart
  refine ⟨fun e he => hP e.1 (List.mem_map_of_mem he), ?_⟩
  exact (List.pairwise_map.mp happart).imp fun h => h

section

variable (heq : Buckets.Equivalence same P) {l l' : List (κ × σ)} {k : κ}
  {create : Except ε σ} {step : σ → Except ε σ} {x x' : Except ε (List (κ × σ))} {e e' : κ × σ}

include heq

theorem Proper.eq_of_same (h : Proper P same l) (hk : P k) (he : e ∈ l)
    (he' : e' ∈ l) (hsame : same e.1 k = true) (hsame' : same e'.1 k = true) : e = e' := by
  by_contra hne
  have hsymm : Std.Symm (Apart (σ := σ) same) := ⟨fun _ _ h => h.symm⟩
  have hapart := h.apart.forall he he' hne
  have hboth := heq.trans (h.keys e he) hk (h.keys e' he') hsame
    (heq.symm (h.keys e' he') hk hsame')
  rw [hapart.1] at hboth
  cases hboth

theorem Consumes.proper (h : Consumes same k create step l x) (hl : Proper P same l) (hk : P k)
    (hx : x = .ok l') : Proper P same l' := by
  rcases h with ⟨pre, e, post, rfl, -, rfl⟩ | ⟨pre, post, rfl, hnone, rfl⟩
  · obtain ⟨s, -, hx⟩ := Fallible.bind_eq_ok.mp hx
    cases hx
    exact hl.of_keys (by simp)
  · obtain ⟨s, -, hx⟩ := Fallible.bind_eq_ok.mp hx
    obtain ⟨s', -, hx⟩ := Fallible.bind_eq_ok.mp hx
    cases hx
    refine Proper.perm (l := (k, s') :: (pre ++ post)) ⟨?_, ?_⟩ List.perm_middle
    · exact List.forall_mem_cons.mpr ⟨hk, hl.keys⟩
    · refine List.pairwise_cons.mpr ⟨fun e he => ?_, hl.apart⟩
      have hfalse := hnone e he
      refine ⟨?_, hfalse⟩
      rw [Bool.eq_false_iff] at hfalse ⊢
      exact fun hsame => hfalse (heq.symm hk (hl.keys e he) hsame)

/-- Two containers with the same entries have the same entries afterwards. -/
theorem Consumes.related (h : Consumes same k create step l x)
    (h' : Consumes same k create step l' x') (hl : Proper P same l) (hk : P k)
    (hperm : l.Perm l') : Fallible.Related List.Perm x x' := by
  rcases h with ⟨pre, e, post, rfl, hsame, rfl⟩ | ⟨pre, post, rfl, hnone, rfl⟩
  · rcases h' with ⟨pre', e', post', rfl, hsame', rfl⟩ | ⟨pre', post', rfl, hnone', rfl⟩
    · have he : e ∈ pre ++ e :: post := by simp
      have he' : e' ∈ pre ++ e :: post := hperm.mem_iff.mpr (by simp)
      obtain rfl := hl.eq_of_same heq hk he he' hsame hsame'
      have hrest : (pre ++ post).Perm (pre' ++ post') :=
        ((List.perm_middle.symm.trans hperm).trans List.perm_middle).cons_inv
      refine (Fallible.Related.rfl (fun _ => rfl) (step e.2)).bind fun s s' hs => ?_
      subst hs
      exact (List.perm_middle.trans (hrest.cons _)).trans List.perm_middle.symm
    · have hfalse := hnone' e (hperm.mem_iff.mp (by simp))
      rw [hfalse] at hsame
      cases hsame
  · rcases h' with ⟨pre', e', post', rfl, hsame', rfl⟩ | ⟨pre', post', rfl, hnone', rfl⟩
    · have hfalse := hnone e' (hperm.mem_iff.mpr (by simp))
      rw [hfalse] at hsame'
      cases hsame'
    · refine (Fallible.Related.rfl (fun _ => rfl) create).bind fun s s' hs => ?_
      subst hs
      refine (Fallible.Related.rfl (fun _ => rfl) (step s)).bind fun s s' hs => ?_
      subst hs
      exact (List.perm_middle.trans (hperm.cons _)).trans List.perm_middle.symm

end

/-! ## What the entries amount to -/

section

variable (same) (key : α → κ) (give : α → σ → Except ε σ) (s₀ : σ)

/-- The state that elements of one class amount to. -/
def amount (k : κ) (l : List α) : Except ε σ :=
  (l.filter fun a => same k (key a)).foldlM (fun s a => give a s) s₀

/-- The first keys of the classes, after some that were there from the
start. -/
def firsts (start : List κ) (l : List α) : List κ :=
  (l.map key).foldl (Buckets.addKey same) start

structure Gathered (start : List κ) (done : List α) (l : List (κ × σ)) : Prop where
  keys : (l.map Prod.fst).Perm (firsts same key start done)
  states : ∀ e ∈ l, amount same key give s₀ e.1 done = .ok e.2

end

section

variable {key : α → κ} {give : α → σ → Except ε σ} {s₀ : σ} {start : List κ} {done : List α}
  {l l' : List (κ × σ)} {a : α} {x : Except ε (List (κ × σ))}

theorem gathered_start (start : List κ) :
    Gathered same key give s₀ start [] (start.map fun k => (k, s₀)) := by
  refine ⟨by simp [firsts, Function.comp_def], fun e he => ?_⟩
  obtain ⟨k, -, rfl⟩ := List.mem_map.mp he
  rfl

theorem firsts_snoc : firsts same key start (done ++ [a]) =
    Buckets.addKey same (firsts same key start done) (key a) := by
  rw [firsts, firsts, List.map_append, List.foldl_append]
  rfl

theorem amount_snoc (k : κ) : amount same key give s₀ k (done ++ [a]) =
    if same k (key a) then amount same key give s₀ k done >>= give a
    else amount same key give s₀ k done := by
  rw [amount, amount, List.filter_append, List.foldlM_append]
  cases hsame : same k (key a) with
  | true =>
    simp only [List.filter_cons, hsame, if_true, List.filter_nil]
    refine congrArg _ (funext fun s => ?_)
    simp
  | false => simp [hsame]

theorem amount_append (k : κ) (l : List α) : amount same key give s₀ k (done ++ l) =
    amount same key give s₀ k done >>= fun s =>
      (l.filter fun a => same k (key a)).foldlM (fun s a => give a s) s := by
  rw [amount, amount, List.filter_append, List.foldlM_append]

theorem firsts_mono {k : κ} {l : List α} (h : k ∈ firsts same key start done) :
    k ∈ firsts same key start (done ++ l) := by
  have hstep : ∀ ks keys : List κ, k ∈ keys → k ∈ ks.foldl (Buckets.addKey same) keys := by
    intro ks
    induction ks with
    | nil => exact fun _ hk => hk
    | cons k' ks ih =>
      intro keys hk
      refine ih _ ?_
      rw [Buckets.addKey]
      split
      · exact hk
      · exact List.mem_append_left _ hk
  rw [firsts, List.map_append, List.foldl_append]
  exact hstep _ _ h

section

variable (heq : Buckets.Equivalence same P) {k : κ} (hstart : ∀ k ∈ start, P k)
include heq hstart

omit heq in
theorem firsts_apart (hpairwise : start.Pairwise fun a b => same a b = false) {l : List α}
    (hl : ∀ b ∈ l, P (key b)) : (∀ k ∈ firsts same key start l, P k) ∧
      (firsts same key start l).Pairwise fun a b => same a b = false := by
  induction l using List.reverseRecOn with
  | nil => exact ⟨hstart, hpairwise⟩
  | append_singleton l a ih =>
    obtain ⟨hkeys, hold⟩ := ih fun b hb => hl b (List.mem_append_left _ hb)
    rw [firsts_snoc]
    refine ⟨Buckets.addKey_keys hkeys (hl a (by simp)), ?_⟩
    rw [Buckets.addKey]
    split
    · exact hold
    next hmissing =>
      refine List.pairwise_append.mpr ⟨hold, List.pairwise_singleton _ _, fun k hk k' hk' => ?_⟩
      rw [List.mem_singleton.mp hk', Bool.eq_false_iff]
      exact fun hsame => hmissing (List.any_eq_true.mpr ⟨k, hk, hsame⟩)

theorem eq_key_of_mem_firsts
    {l : List α} (hl : ∀ b ∈ l, P (key b)) (h : k ∈ firsts same key start l) :
    k ∈ start ∨ ∃ pre a post, l = pre ++ a :: post ∧ k = key a ∧
      (∀ k' ∈ start, same k' k = false) ∧ ∀ b ∈ pre, same (key b) k = false := by
  induction l using List.reverseRecOn with
  | nil => exact .inl h
  | append_singleton l a ih =>
    have ha : P (key a) := hl a (by simp)
    have hl' : ∀ b ∈ l, P (key b) := fun b hb => hl b (List.mem_append_left _ hb)
    have hkeys : ∀ k ∈ l.map key, P k := by simpa using hl'
    rw [firsts_snoc, Buckets.addKey] at h
    by_cases hold : k ∈ firsts same key start l
    · rcases ih hl' hold with hk | ⟨pre, b, post, rfl, hk⟩
      · exact .inl hk
      · exact .inr ⟨pre, b, post ++ [a], by simp, hk⟩
    split at h
    · exact absurd h hold
    next hmissing =>
      rcases List.mem_append.mp h with hk | hk
      · exact absurd hk hold
      · obtain rfl := List.mem_singleton.mp hk
        rw [firsts, Buckets.hasKey_foldl heq hkeys hstart ha, Bool.or_eq_true, not_or,
          Bool.not_eq_true, Bool.not_eq_true] at hmissing
        refine .inr ⟨l, a, [], rfl, rfl, ?_, ?_⟩
        · simpa [Buckets.hasKey] using hmissing.1
        · simpa [Buckets.hasKey] using hmissing.2

section

variable (hl : Proper P same l) (hdone : ∀ b ∈ done, P (key b))
include hl hdone

theorem Gathered.amount_new (hk : P k)
    (h : Gathered same key give s₀ start done l) (hnone : ∀ e ∈ l, same e.1 k = false) :
    amount same key give s₀ k done = .ok s₀ := by
  have hempty : done.filter (fun b => same k (key b)) = [] := by
    rw [List.filter_eq_nil_iff]
    intro b hb hsame
    have hkeys : ∀ k ∈ done.map key, P k := by simpa using hdone
    have hhas : Buckets.hasKey same (firsts same key start done) (key b) = true := by
      rw [firsts, Buckets.hasKey_foldl heq hkeys hstart (hdone b hb), Bool.or_eq_true]
      exact .inr (List.any_eq_true.mpr ⟨key b, List.mem_map_of_mem hb, heq.refl (hdone b hb)⟩)
    obtain ⟨k', hk', hsame'⟩ := List.any_eq_true.mp hhas
    obtain ⟨e, he, rfl⟩ := List.mem_map.mp (h.keys.mem_iff.mpr hk')
    have hsameKey := heq.trans (hl.keys e he) (hdone b hb) hk hsame'
      (heq.symm hk (hdone b hb) hsame)
    rw [hnone e he] at hsameKey
    cases hsameKey
  rw [amount, hempty]
  rfl

theorem Gathered.step (ha : P (key a)) (h : Gathered same key give s₀ start done l)
    (hx : Consumes same (key a) (.ok s₀) (give a) l x) (hok : x = .ok l') :
    Gathered same key give s₀ start (done ++ [a]) l' := by
  have hold : ∀ e ∈ l, same e.1 (key a) = false →
      amount same key give s₀ e.1 (done ++ [a]) = .ok e.2 := by
    intro e he hfalse
    rw [amount_snoc, hfalse]
    exact h.states e he
  rcases hx with ⟨pre, e, post, rfl, hsame, rfl⟩ | ⟨pre, post, rfl, hnone, rfl⟩
  · obtain ⟨s, hs, hok⟩ := Fallible.bind_eq_ok.mp hok
    cases hok
    have he : e ∈ pre ++ e :: post := by simp
    refine ⟨?_, fun e' he' => ?_⟩
    · have hfound : Buckets.hasKey same (firsts same key start done) (key a) = true :=
        List.any_eq_true.mpr ⟨e.1, h.keys.mem_iff.mp (List.mem_map_of_mem he), hsame⟩
      rw [firsts_snoc, Buckets.addKey, if_pos hfound]
      simpa using h.keys
    · -- the entries beside the one that took the element are of other classes
      have hother : ∀ e' ∈ pre ++ post, same e'.1 (key a) = false := by
        intro e' he'
        have hmem : e' ∈ pre ++ e :: post := by
          rcases List.mem_append.mp he' with he' | he' <;> simp [he']
        have hapart := (List.pairwise_cons.mp
          ((List.perm_middle.pairwise_iff Apart.symm).mp hl.apart)).1 e' he'
        rw [Bool.eq_false_iff]
        intro hsame'
        have hboth := heq.trans (hl.keys e he) ha (hl.keys e' hmem) hsame
          (heq.symm (hl.keys e' hmem) ha hsame')
        rw [hapart.1] at hboth
        cases hboth
      rcases List.mem_cons.mp (List.perm_middle.mem_iff.mp he') with rfl | he'
      · rw [amount_snoc, hsame, h.states e he]
        exact hs
      · refine hold e' ?_ (hother e' he')
        rcases List.mem_append.mp he' with he' | he' <;> simp [he']
  · replace hok : (give a s₀ >>= fun s => .ok (pre ++ (key a, s) :: post)) = .ok l' := hok
    obtain ⟨s, hs, hok⟩ := Fallible.bind_eq_ok.mp hok
    cases hok
    refine ⟨?_, fun e' he' => ?_⟩
    · have hmissing : ¬Buckets.hasKey same (firsts same key start done) (key a) = true := by
        intro hhas
        obtain ⟨k', hk', hsame⟩ := List.any_eq_true.mp hhas
        obtain ⟨e, he, rfl⟩ := List.mem_map.mp (h.keys.mem_iff.mpr hk')
        rw [hnone e he] at hsame
        cases hsame
      rw [firsts_snoc, Buckets.addKey, if_neg hmissing]
      have hmiddle : (pre ++ (key a, s) :: post).Perm ((key a, s) :: (pre ++ post)) :=
        List.perm_middle
      have hperm : ((pre ++ (key a, s) :: post).map Prod.fst).Perm
          (key a :: (pre ++ post).map Prod.fst) := hmiddle.map Prod.fst
      exact (hperm.trans (h.keys.cons _)).trans (List.perm_append_singleton _ _).symm
    · rcases List.mem_cons.mp (List.perm_middle.mem_iff.mp he') with rfl | he'
      · rw [amount_snoc, heq.refl ha, h.amount_new heq hstart hl hdone ha hnone]
        exact hs
      · exact hold e' he' (hnone e' he')

/-- An element that cannot be taken is in a class that cannot be had. -/
theorem Gathered.error (ha : P (key a)) (h : Gathered same key give s₀ start done l) {e : ε}
    (hx : Consumes same (key a) (.ok s₀) (give a) l (.error e)) :
    ∃ k ∈ firsts same key start (done ++ [a]),
      amount same key give s₀ k (done ++ [a]) = .error e := by
  rw [firsts_snoc, Buckets.addKey]
  rcases hx with ⟨pre, d, post, rfl, hsame, hx⟩ | ⟨pre, post, rfl, hnone, hx⟩
  · have hd : d ∈ pre ++ d :: post := by simp
    have hfound : Buckets.hasKey same (firsts same key start done) (key a) = true :=
      List.any_eq_true.mpr ⟨d.1, h.keys.mem_iff.mp (List.mem_map_of_mem hd), hsame⟩
    refine ⟨d.1, ?_, ?_⟩
    · rw [if_pos hfound]
      exact h.keys.mem_iff.mp (List.mem_map_of_mem hd)
    · rw [amount_snoc, hsame, h.states d hd]
      rcases Fallible.bind_eq_error.mp hx.symm with hs | ⟨s, -, hs⟩
      · exact hs
      · cases hs
  · have hmissing : ¬Buckets.hasKey same (firsts same key start done) (key a) = true := by
      intro hhas
      obtain ⟨k', hk', hsame⟩ := List.any_eq_true.mp hhas
      obtain ⟨d, hd, rfl⟩ := List.mem_map.mp (h.keys.mem_iff.mpr hk')
      rw [hnone d hd] at hsame
      cases hsame
    refine ⟨key a, ?_, ?_⟩
    · rw [if_neg hmissing]
      simp
    · rw [amount_snoc, heq.refl ha, h.amount_new heq hstart hl hdone ha hnone]
      rcases Fallible.bind_eq_error.mp hx.symm with hs | ⟨s, hs, hx⟩
      · cases hs
      · cases hs
        rcases Fallible.bind_eq_error.mp hx with hs | ⟨s, -, hs⟩
        · exact hs
        · cases hs

end

end

end

/-! ## Runs -/

section

variable {τ τ' : Type} {slots : τ → List (κ × σ)} {V : τ → Prop} {consume : α → τ → Except ε τ}
  {slots' : τ' → List (κ × σ)} {V' : τ' → Prop} {consume' : α → τ' → Except ε τ'}
  {key : α → κ} {give : α → σ → Except ε σ} {s₀ : σ}

/-- A container that gathers, in states with an invariant of its own. -/
structure Gathers (P : κ → Prop) (same : κ → κ → Bool) (key : α → κ) (give : α → σ → Except ε σ)
    (s₀ : σ) (slots : τ → List (κ × σ)) (V : τ → Prop) (consume : α → τ → Except ε τ) : Prop where
  consumes : ∀ {a t}, V t → Proper P same (slots t) → P (key a) →
    Consumes same (key a) (.ok s₀) (give a) (slots t) (slots <$> consume a t)
  valid : ∀ {a t t'}, V t → Proper P same (slots t) → P (key a) → consume a t = .ok t' → V t'

section

variable (heq : Buckets.Equivalence same P) {start : List κ} {done l : List α} {t t' : τ}
  (hc : Gathers P same key give s₀ slots V consume)
include heq hc

theorem Gathers.run (hstart : ∀ k ∈ start, P k) (hV : V t)
    (hproper : Proper P same (slots t)) (hdone : ∀ a ∈ done, P (key a)) (hl : ∀ a ∈ l, P (key a))
    (h : Gathered same key give s₀ start done (slots t))
    (hrun : l.foldlM (fun t a => consume a t) t = .ok t') : V t' ∧ Proper P same (slots t') ∧
      Gathered same key give s₀ start (done ++ l) (slots t') := by
  induction l generalizing t done with
  | nil =>
    cases hrun
    rw [List.append_nil]
    exact ⟨hV, hproper, h⟩
  | cons a l ih =>
    obtain ⟨ha, hl⟩ := List.forall_mem_cons.mp hl
    rw [List.foldlM_cons] at hrun
    obtain ⟨t₁, ht₁, hrun⟩ := Fallible.bind_eq_ok.mp hrun
    have hx := hc.consumes hV hproper ha
    have hok : slots <$> consume a t = .ok (slots t₁) := by
      rw [ht₁]
      rfl
    have hdone' : ∀ b ∈ done ++ [a], P (key b) := by
      intro b hb
      rcases List.mem_append.mp hb with hb | hb
      · exact hdone b hb
      · rw [List.mem_singleton.mp hb]
        exact ha
    have hend := ih (hc.valid hV hproper ha ht₁) (hx.proper heq hproper ha hok) hdone' hl
      (h.step heq hstart hproper hdone ha hx hok) hrun
    rwa [List.append_assoc] at hend

theorem Gathers.ok (hstart : ∀ k ∈ start, P k) (hV : V t)
    (hproper : Proper P same (slots t)) (hdone : ∀ a ∈ done, P (key a)) (hl : ∀ a ∈ l, P (key a))
    (h : Gathered same key give s₀ start done (slots t))
    (hok : ∀ k ∈ firsts same key start (done ++ l),
      ∃ s, amount same key give s₀ k (done ++ l) = .ok s) :
    ∃ t', l.foldlM (fun t a => consume a t) t = .ok t' := by
  induction l generalizing t done with
  | nil => exact ⟨t, rfl⟩
  | cons a l ih =>
    obtain ⟨ha, hl⟩ := List.forall_mem_cons.mp hl
    have hx := hc.consumes hV hproper ha
    have hdone' : ∀ b ∈ done ++ [a], P (key b) := by
      intro b hb
      rcases List.mem_append.mp hb with hb | hb
      · exact hdone b hb
      · rw [List.mem_singleton.mp hb]
        exact ha
    rw [List.append_cons] at hok
    rw [List.foldlM_cons]
    cases hnext : consume a t with
    | ok t₁ =>
      have hok₁ : slots <$> consume a t = .ok (slots t₁) := by
        rw [hnext]
        rfl
      exact ih (hc.valid hV hproper ha hnext) (hx.proper heq hproper ha hok₁) hdone' hl
        (h.step heq hstart hproper hdone ha hx hok₁) hok
    | error e =>
      rw [hnext] at hx
      obtain ⟨k, hk, herror⟩ := h.error heq hstart hproper hdone ha hx
      obtain ⟨s, hs⟩ := hok k (firsts_mono hk)
      rw [amount_append, herror] at hs
      cases hs

/-- Two containers fail alike, or have the same entries in the end. -/
theorem Gathers.related (hc' : Gathers P same key give s₀ slots' V' consume') {t' : τ'} (hV : V t)
    (hV' : V' t') (hproper : Proper P same (slots t)) (hperm : (slots t).Perm (slots' t'))
    (hl : ∀ a ∈ l, P (key a)) : Fallible.Related (fun t t' => (slots t).Perm (slots' t'))
      (l.foldlM (fun t a => consume a t) t) (l.foldlM (fun t a => consume' a t) t') := by
  induction l generalizing t t' with
  | nil => exact hperm
  | cons a l ih =>
    obtain ⟨ha, hl⟩ := List.forall_mem_cons.mp hl
    have hproper' := hproper.perm hperm.symm
    have hx := hc.consumes hV hproper ha
    have hrelated := hx.related heq (hc'.consumes hV' hproper' ha) hproper ha hperm
    rw [List.foldlM_cons, List.foldlM_cons]
    cases hnext : consume a t with
    | error e =>
      cases hnext' : consume' a t' with
      | error e' =>
        rw [hnext, hnext'] at hrelated
        exact hrelated
      | ok t₂ =>
        rw [hnext, hnext'] at hrelated
        exact hrelated.elim
    | ok t₁ =>
      cases hnext' : consume' a t' with
      | error e' =>
        rw [hnext, hnext'] at hrelated
        exact hrelated.elim
      | ok t₂ =>
        rw [hnext, hnext'] at hrelated
        rw [hnext] at hx
        exact ih (hc.valid hV hproper ha hnext) (hc'.valid hV' hproper' ha hnext')
          (hx.proper heq hproper ha rfl) hrelated hl

end

end

end Classes
