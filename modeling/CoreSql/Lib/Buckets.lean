import Mathlib.Tactic.Common

/-!
# Buckets

A hash map from keys to lists, filled by pushing one value after another.
Two keys are the same when a test says so; a hash table asks for equal hash
numbers first and for equality then, and both together are such a test.
When the test is an equivalence on the keys that occur, looking a key up
gives the values that were pushed under the same key, in the order in which
they were pushed.
-/

namespace Buckets

variable {κ ν α : Type} (same : κ → κ → Bool) {keys l : List κ} {a b c : κ}

def push (k : κ) (v : ν) : List (κ × List ν) → List (κ × List ν)
  | [] => [(k, [v])]
  | e :: m => if same e.1 k then (e.1, e.2 ++ [v]) :: m else e :: push k v m

/-- The list of a key; empty when there is none. -/
def find (k : κ) : List (κ × List ν) → List ν
  | [] => []
  | e :: m => if same e.1 k then e.2 else find k m

def build (entries : List (κ × ν)) : List (κ × List ν) :=
  entries.foldl (fun m e => push same e.1 e.2 m) []

structure Equivalence (P : κ → Prop) : Prop where
  refl : ∀ {a}, P a → same a a = true
  symm : ∀ {a b}, P a → P b → same a b = true → same b a = true
  trans : ∀ {a b c}, P a → P b → P c → same a b = true → same b c = true → same a c = true

variable {same} {P : κ → Prop} {k k' : κ} {v : ν} {m : List (κ × List ν)}

theorem Equivalence.congr (h : Equivalence same P) (ha : P a) (hb : P b) (hc : P c)
    (hab : same a b = true) : same a c = same b c := by
  rw [Bool.eq_iff_iff]
  exact ⟨h.trans hb ha hc (h.symm ha hb hab), h.trans ha hb hc hab⟩

theorem push_keys (hk : P k) (hm : ∀ e ∈ m, P e.1) : ∀ e ∈ push same k v m, P e.1 := by
  induction m with
  | nil => simpa [push] using hk
  | cons e m ih =>
    have he := hm e List.mem_cons_self
    have hrest := ih fun e' he' => hm e' (List.mem_cons_of_mem _ he')
    rw [push]
    split
    · intro e' he'
      rcases List.mem_cons.mp he' with rfl | he'
      · exact he
      · exact hm e' (List.mem_cons_of_mem _ he')
    · intro e' he'
      rcases List.mem_cons.mp he' with rfl | he'
      · exact he
      · exact hrest e' he'

theorem find_push (h : Equivalence same P) (hm : ∀ e ∈ m, P e.1) (hk : P k) (hk' : P k') :
    find same k (push same k' v m) = if same k' k then find same k m ++ [v] else find same k m := by
  induction m with
  | nil =>
    rw [push, find]
    rfl
  | cons e m ih =>
    have he := hm e List.mem_cons_self
    have hrest := ih fun e' he' => hm e' (List.mem_cons_of_mem _ he')
    rw [push]
    by_cases hsame : same e.1 k' = true
    · rw [if_pos hsame, find, find, h.congr he hk' hk hsame]
      split <;> rfl
    · rw [if_neg hsame, find, find, hrest]
      by_cases hfound : same e.1 k = true
      · have hother : ¬same k' k = true := fun hkk =>
          hsame (h.trans he hk hk' hfound (h.symm hk' hk hkk))
        rw [if_pos hfound, if_neg hother, if_pos hfound]
      · simp only [if_neg hfound]

theorem find_build (h : Equivalence same P) {entries : List (κ × ν)}
    (hentries : ∀ e ∈ entries, P e.1) (hk : P k) : find same k (build same entries) =
      (entries.filter fun e => same e.1 k).map Prod.snd := by
  have hfold : ∀ (entries : List (κ × ν)) (m : List (κ × List ν)), (∀ e ∈ entries, P e.1) →
      (∀ e ∈ m, P e.1) → find same k (entries.foldl (fun m e => push same e.1 e.2 m) m) =
        find same k m ++ (entries.filter fun e => same e.1 k).map Prod.snd := by
    intro entries
    induction entries with
    | nil => simp
    | cons e entries ih =>
      intro m hentries hm
      have he := hentries e List.mem_cons_self
      rw [List.foldl_cons,
        ih _ (fun e' he' => hentries e' (List.mem_cons_of_mem _ he')) (push_keys he hm),
        find_push h hm hk he, List.filter_cons]
      split <;> simp
  rw [build, hfold entries [] hentries (by simp)]
  rfl

theorem foldl_push (skip : α → Bool) (key : α → κ) (value : α → ν) (l : List α) :
    l.foldl (fun m a => if skip a then m else push same (key a) (value a) m) [] =
      build same ((l.filter fun a => !skip a).map fun a => (key a, value a)) := by
  rw [build, List.foldl_map, List.foldl_filter]
  congr 1
  funext m a
  cases skip a <;> rfl

theorem find_eq_nil (h : ∀ e ∈ m, same e.1 k = false) : find same k m = [] := by
  induction m with
  | nil => rfl
  | cons e m ih =>
    rw [find, h e List.mem_cons_self]
    exact ih fun e' he' => h e' (List.mem_cons_of_mem _ he')

/-! ## Sets -/

def hasKey (same : κ → κ → Bool) (keys : List κ) (k : κ) : Bool := keys.any fun e => same e k

def addKey (same : κ → κ → Bool) (keys : List κ) (k : κ) : List κ :=
  if hasKey same keys k then keys else keys ++ [k]

theorem addKey_keys (hkeys : ∀ e ∈ keys, P e) (hk : P k) : ∀ e ∈ addKey same keys k, P e := by
  rw [addKey]
  split
  · exact hkeys
  · intro e he
    rcases List.mem_append.mp he with he | he
    · exact hkeys e he
    · rw [List.mem_singleton.mp he]
      exact hk

theorem hasKey_addKey (h : Equivalence same P) (hkeys : ∀ e ∈ keys, P e) (hk : P k) (hk' : P k') :
    hasKey same (addKey same keys k') k = (hasKey same keys k || same k' k) := by
  rw [addKey]
  split
  next hhas =>
      obtain ⟨e, he, hsame⟩ := List.any_eq_true.mp hhas
      by_cases hother : same k' k = true
      · have hfound : hasKey same keys k = true :=
          List.any_eq_true.mpr ⟨e, he, h.trans (hkeys e he) hk' hk hsame hother⟩
        rw [hfound, Bool.true_or]
      · rw [Bool.not_eq_true] at hother
        rw [hother, Bool.or_false]
  · simp [hasKey]

theorem hasKey_foldl (h : Equivalence same P) (hl : ∀ e ∈ l, P e)
    (hkeys : ∀ e ∈ keys, P e) (hk : P k) : hasKey same (l.foldl (addKey same) keys) k =
      (hasKey same keys k || l.any fun e => same e k) := by
  induction l generalizing keys with
  | nil => simp
  | cons e l ih =>
    obtain ⟨he, hl⟩ := List.forall_mem_cons.mp hl
    rw [List.foldl_cons, ih hl (addKey_keys hkeys he), hasKey_addKey h hkeys hk he,
      List.any_cons, Bool.or_assoc]

end Buckets
