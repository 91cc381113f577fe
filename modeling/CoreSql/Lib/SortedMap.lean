import Mathlib.Data.List.Perm.Basic
import Mathlib.Order.Lattice

/-!
# Sorted association lists

A map as the list of its entries in key order. This is what an ordered
container looks like from outside: iteration is the list itself, a lookup
is a search in it, and an assignment either replaces an entry where it
stands or puts a new one where the order wants it.

The lemmas come in two styles. `find_insert_*` and `find_erase_*` are what a
client that only looks keys up needs; `insert_split` says where in the list
the change happened, which is what a client that adds up or concatenates over
the entries needs.
-/

namespace SortedMap

variable {κ ν μ : Type} [LinearOrder κ] {m m' : List (κ × ν)}

def Sorted (m : List (κ × ν)) : Prop :=
  m.Pairwise fun a b => a.1 < b.1

def find (k : κ) : List (κ × ν) → Option ν
  | [] => none
  | e :: m => if e.1 = k then some e.2 else find k m

def insert (k : κ) (v : ν) : List (κ × ν) → List (κ × ν)
  | [] => [(k, v)]
  | e :: m =>
    if k < e.1 then (k, v) :: e :: m
    else if e.1 = k then (k, v) :: m
    else e :: insert k v m

def erase (k : κ) (m : List (κ × ν)) : List (κ × ν) :=
  m.filter fun e => e.1 ≠ k

section

variable {k k' : κ} {v w : ν} {e x : κ × ν} {m : List (κ × ν)}

@[simp] theorem find_nil : find k ([] : List (κ × ν)) = none := rfl

theorem find_cons : find k (e :: m) = if e.1 = k then some e.2 else find k m := rfl

@[simp] theorem sorted_nil : Sorted ([] : List (κ × ν)) := List.Pairwise.nil

theorem Sorted.tail (h : Sorted (e :: m)) : Sorted m := (List.pairwise_cons.mp h).2

theorem Sorted.head_lt (h : Sorted (e :: m)) (hx : x ∈ m) : e.1 < x.1 :=
  (List.pairwise_cons.mp h).1 x hx

theorem mem_of_find (h : find k m = some v) : (k, v) ∈ m := by
  induction m with
  | nil => simp at h
  | cons e m ih =>
    rw [find_cons] at h
    split at h
    · next hk =>
        obtain rfl : e.2 = v := by simpa using h
        subst hk
        exact List.mem_cons_self
    · next => exact List.mem_cons_of_mem _ (ih h)

theorem find_eq_none_iff : find k m = none ↔ ∀ e ∈ m, e.1 ≠ k := by
  induction m with
  | nil => simp
  | cons e m ih =>
    rw [find_cons]
    split
    · next hk => simp [hk]
    · next hk => simp [ih, hk]

theorem Sorted.find_eq_some_iff (h : Sorted m) : find k m = some v ↔ (k, v) ∈ m := by
  refine ⟨mem_of_find, fun hmem => ?_⟩
  induction m with
  | nil => simp at hmem
  | cons e m ih =>
    rw [find_cons]
    rcases List.mem_cons.mp hmem with rfl | hmem
    · rw [if_pos rfl]
    · have hlt := h.head_lt hmem
      rw [if_neg (ne_of_lt hlt)]
      exact ih h.tail hmem

theorem Sorted.find_of_mem (h : Sorted m) (he : e ∈ m) : find e.1 m = some e.2 :=
  h.find_eq_some_iff.mpr he

theorem find_filter (p : κ → Bool) :
    find k (m.filter fun e => p e.1) = if p k then find k m else none := by
  induction m with
  | nil => simp
  | cons e m ih =>
    rw [List.filter_cons, find_cons]
    by_cases hk : e.1 = k
    · subst hk
      cases hp : p e.1 <;> simp_all [find_cons]
    · cases hp : p e.1 <;> simp [find_cons, hk, ih]

/-! ## Assignment -/

theorem mem_insert (h : e ∈ insert k v m) : e = (k, v) ∨ e ∈ m := by
  induction m with
  | nil => simpa [insert] using h
  | cons x m ih =>
    rw [insert] at h
    split at h
    · simpa using h
    · split at h
      · rcases List.mem_cons.mp h with h | h
        · exact .inl h
        · exact .inr (List.mem_cons_of_mem _ h)
      · rcases List.mem_cons.mp h with h | h
        · exact .inr (by simp [h])
        · exact (ih h).imp id (List.mem_cons_of_mem _)

theorem Sorted.insert (h : Sorted m) : Sorted (insert k v m) := by
  induction m with
  | nil => exact List.pairwise_singleton _ _
  | cons x m ih =>
    rw [SortedMap.insert]
    split
    · next hlt =>
        refine List.pairwise_cons.mpr ⟨fun e he => ?_, h⟩
        rcases List.mem_cons.mp he with rfl | he
        · exact hlt
        · exact lt_trans hlt (h.head_lt he)
    · next hge =>
        split
        · next hk =>
            subst hk
            exact List.pairwise_cons.mpr ⟨fun e he => h.head_lt he, h.tail⟩
        · next hne =>
            refine List.pairwise_cons.mpr ⟨fun e he => ?_, ih h.tail⟩
            rcases mem_insert he with rfl | he
            · exact lt_of_le_of_ne (not_lt.mp hge) hne
            · exact h.head_lt he

@[simp] theorem find_insert_self : find k (insert k v m) = some v := by
  induction m with
  | nil => simp [insert, find_cons]
  | cons x m ih =>
    rw [insert]
    split
    · simp [find_cons]
    · split
      · simp [find_cons]
      · next hne => rw [find_cons, if_neg hne, ih]

theorem find_insert_of_ne (hne : k' ≠ k) : find k' (insert k v m) = find k' m := by
  induction m with
  | nil => simp [insert, find_cons, hne.symm]
  | cons x m ih =>
    rw [insert]
    split
    · rw [find_cons, if_neg hne.symm]
    · split
      · next hk => rw [find_cons, if_neg hne.symm, find_cons, if_neg (hk ▸ hne.symm)]
      · simp only [find_cons, ih]

theorem find_insert : find k' (insert k v m) = if k' = k then some v else find k' m := by
  split
  · next h => subst h; exact find_insert_self
  · next h => exact find_insert_of_ne h

/-- Assigning to a key that is present replaces its entry where it stands. -/
theorem insert_split (hs : Sorted m) (h : find k m = some w) :
    ∃ pre post, m = pre ++ (k, w) :: post ∧ ∀ v, insert k v m = pre ++ (k, v) :: post := by
  induction m with
  | nil => simp at h
  | cons x m ih =>
    rw [find_cons] at h
    split at h
    · next hk =>
        subst hk
        obtain rfl : x.2 = w := by simpa using h
        exact ⟨[], m, rfl, fun v => by simp [insert]⟩
    · next hne =>
        have hlt : x.1 < k := hs.head_lt (mem_of_find h)
        obtain ⟨pre, post, hm, hins⟩ := ih hs.tail h
        refine ⟨x :: pre, post, by rw [hm]; rfl, fun v => ?_⟩
        rw [insert, if_neg (not_lt.mpr (le_of_lt hlt)), if_neg hne, hins v]
        rfl

theorem insert_perm (h : find k m = none) : (insert k v m).Perm ((k, v) :: m) := by
  induction m with
  | nil => exact List.Perm.refl _
  | cons x m ih =>
    rw [find_cons] at h
    split at h
    · cases h
    · next hne =>
        rw [insert, if_neg hne]
        split
        · exact List.Perm.refl _
        · exact ((ih h).cons x).trans (List.Perm.swap _ _ _)

/-! ## Removal -/

theorem mem_erase : e ∈ erase k m ↔ e ∈ m ∧ e.1 ≠ k := by
  simp [erase]

theorem Sorted.erase (h : Sorted m) : Sorted (erase k m) := List.Pairwise.filter _ h

@[simp] theorem find_erase_self : find k (erase k m) = none := by
  rw [find_eq_none_iff]
  exact fun e he => (mem_erase.mp he).2

theorem find_erase_of_ne (hne : k' ≠ k) : find k' (erase k m) = find k' m := by
  induction m with
  | nil => rfl
  | cons x m ih =>
    by_cases hx : x.1 = k
    · rw [find_cons, if_neg (hx ▸ hne.symm), ← ih]
      simp [erase, hx]
    · simp only [erase, List.filter_cons, hx, ne_eq, not_false_eq_true, decide_true,
        ↓reduceIte, find_cons]
      rw [← ih]
      rfl

theorem find_erase : find k' (erase k m) = if k' = k then none else find k' m := by
  split
  · next h => subst h; exact find_erase_self
  · next h => exact find_erase_of_ne h

theorem erase_split (hs : Sorted m) (h : find k m = some v) :
    ∃ pre post, m = pre ++ (k, v) :: post ∧ erase k m = pre ++ post := by
  obtain ⟨pre, post, hm, -⟩ := insert_split hs h
  refine ⟨pre, post, hm, ?_⟩
  subst hm
  have hpre : ∀ e ∈ pre, e.1 ≠ k := fun e he =>
    ne_of_lt ((List.pairwise_append.mp hs).2.2 e he _ List.mem_cons_self)
  have hpost : ∀ e ∈ post, e.1 ≠ k := fun e he =>
    ne_of_gt ((List.pairwise_cons.mp (List.pairwise_append.mp hs).2.1).1 e he)
  rw [erase, List.filter_append, List.filter_cons]
  rw [List.filter_eq_self.mpr (by simpa using hpre), List.filter_eq_self.mpr (by simpa using hpost)]
  simp

end

theorem Sorted.ext (hm : Sorted m) (hm' : Sorted m') (h : ∀ k, find k m = find k m') : m = m' := by
  have hmem : ∀ e, e ∈ m ↔ e ∈ m' := fun e => by
    rw [← hm.find_eq_some_iff (k := e.1) (v := e.2), h, hm'.find_eq_some_iff]
  have hnodup : ∀ {l : List (κ × ν)}, Sorted l → l.Nodup := fun hl =>
    hl.imp fun hab heq => absurd hab (by rw [heq]; exact lt_irrefl _)
  refine List.Perm.eq_of_pairwise (fun a b _ _ hab hba => absurd (lt_trans hab hba) (lt_irrefl _))
    hm hm' ((List.perm_ext_iff_of_nodup (hnodup hm) (hnodup hm')).mpr hmem)

end SortedMap
