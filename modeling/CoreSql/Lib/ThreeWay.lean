import Mathlib.Data.List.Forall2
import Mathlib.Data.List.Perm.Basic
import Mathlib.Tactic.Common

/-!
# Three-way comparisons

A comparison answers with a sign. It orders the values it is meant for and
may do anything on others, so the laws are relative to a predicate. Two laws
are enough: exchanging the arguments exchanges the sign, and "not greater"
is transitive. Everything else, that zero is an equivalence and that it is a
congruence for the sign, follows.

The second half is an ordered map under such a comparison, as the list of
its entries, with the three operations a container offers.
-/

/-- `cmp` is a total preorder on the values `P` holds of. -/
structure ThreeWay {α : Type} (P : α → Prop) (cmp : α → α → Int) : Prop where
  swap : ∀ {a b}, P a → P b → (0 < cmp a b ↔ cmp b a < 0)
  trans : ∀ {a b c}, P a → P b → P c → cmp a b ≤ 0 → cmp b c ≤ 0 → cmp a c ≤ 0

namespace ThreeWay

variable {α β : Type} {P P' : α → Prop} {Q : β → Prop} {cmp : α → α → Int} {cmp' : β → β → Int}

section

variable (h : ThreeWay P cmp) {a b c : α} (ha : P a)
include h ha

theorem refl : cmp a a = 0 := by
  have := h.swap ha ha
  omega

section

variable (hb : P b)
include hb

theorem symm (hab : cmp a b = 0) : cmp b a = 0 := by
  have h1 := h.swap ha hb
  have h2 := h.swap hb ha
  omega

theorem le_swap : cmp a b ≤ 0 ↔ 0 ≤ cmp b a := by
  have := h.swap ha hb
  omega

section

variable (hc : P c)
include hc

theorem lt_of_lt_of_le (hab : cmp a b < 0) (hbc : cmp b c ≤ 0) : cmp a c < 0 := by
  by_contra hge
  -- Otherwise `c` is not above `a`, and with it `b` is not above `a`.
  have hca : cmp c a ≤ 0 := (h.le_swap hc ha).mpr (by omega)
  have hba : cmp b a ≤ 0 := h.trans hb hc ha hbc hca
  have := h.swap hb ha
  have := h.le_swap hb ha
  omega

theorem lt_of_le_of_lt (hab : cmp a b ≤ 0) (hbc : cmp b c < 0) : cmp a c < 0 := by
  by_contra hge
  have hca : cmp c a ≤ 0 := (h.le_swap hc ha).mpr (by omega)
  have hcb : cmp c b ≤ 0 := h.trans hc ha hb hca hab
  have := h.le_swap hc hb
  omega

theorem lt_trans (hab : cmp a b < 0) (hbc : cmp b c < 0) : cmp a c < 0 :=
  h.lt_of_lt_of_le ha hb hc hab (by omega)

theorem zero_trans (hab : cmp a b = 0) (hbc : cmp b c = 0) : cmp a c = 0 := by
  have hle := h.trans ha hb hc (by omega) (by omega)
  have hge := h.trans hc hb ha (Int.le_of_eq (h.symm hb hc hbc))
    (Int.le_of_eq (h.symm ha hb hab))
  have := h.le_swap hc ha
  omega

theorem lt_congr (hab : cmp a b = 0) : cmp a c < 0 ↔ cmp b c < 0 :=
  ⟨fun hac => h.lt_of_le_of_lt hb ha hc (Int.le_of_eq (h.symm ha hb hab)) hac,
    fun hbc => h.lt_of_le_of_lt ha hb hc (by omega) hbc⟩

end

end

end

section

variable (h : ThreeWay P cmp)
include h

theorem mono (hP : ∀ a, P' a → P a) : ThreeWay P' cmp where
  swap ha hb := h.swap (hP _ ha) (hP _ hb)
  trans ha hb hc := h.trans (hP _ ha) (hP _ hb) (hP _ hc)

theorem comap (f : β → α) : ThreeWay (fun b => P (f b)) fun a b => cmp (f a) (f b) where
  swap := h.swap
  trans := h.trans

theorem sign : ThreeWay P fun a b => (cmp a b).sign where
  swap ha hb := by simpa [Int.sign_pos_iff, Int.sign_neg_iff] using h.swap ha hb
  trans ha hb hc hab hbc := by
    simp only [Int.sign_nonpos_iff] at hab hbc ⊢
    exact h.trans ha hb hc hab hbc

theorem reverse : ThreeWay P fun a b => -cmp a b where
  swap {a b} ha hb := by
    have := h.swap hb ha
    omega
  trans {a b c} ha hb hc hab hbc := by
    have hcb : cmp c b ≤ 0 := (h.le_swap hc hb).mpr (by omega)
    have hba : cmp b a ≤ 0 := (h.le_swap hb ha).mpr (by omega)
    have := (h.le_swap hc ha).mp (h.trans hc hb ha hcb hba)
    omega

end

def both (cmp : α → α → Int) (cmp' : β → β → Int) (a b : α × β) : Int :=
  if cmp a.1 b.1 = 0 then cmp' a.2 b.2 else cmp a.1 b.1

theorem both_lawful (h : ThreeWay P cmp) (h' : ThreeWay Q cmp') :
    ThreeWay (fun e : α × β => P e.1 ∧ Q e.2) (both cmp cmp') where
  swap {a b} ha hb := by
    have h1 := h.swap ha.1 hb.1
    have h2 := h.swap hb.1 ha.1
    have h3 := h'.swap ha.2 hb.2
    rw [both, both]
    split <;> split <;> omega
  trans {a b c} ha hb hc := by
    have htrans := h.trans ha.1 hb.1 hc.1
    have hzero := h.zero_trans ha.1 hb.1 hc.1
    have hlt := h.lt_of_lt_of_le ha.1 hb.1 hc.1
    have hlt' := h.lt_of_le_of_lt ha.1 hb.1 hc.1
    have htrans' := h'.trans ha.2 hb.2 hc.2
    rw [both, both, both]
    intro hab hbc
    split at hab
    · next hab0 =>
        split at hbc
        · next hbc0 => rw [if_pos (hzero hab0 hbc0)]; exact htrans' hab hbc
        · next hbc0 =>
            have := hlt' (by omega) (by omega)
            rw [if_neg (by omega)]
            omega
    · next hab0 =>
        have hbc' : cmp b.1 c.1 ≤ 0 := by
          split at hbc <;> omega
        have := hlt (by omega) hbc'
        rw [if_neg (by omega)]
        omega

/-- Lists, by the first place that decides; each place has a comparison of its
own. -/
def lex : List (α → α → Int) → List α → List α → Int
  | cmp :: cmps, a :: as, b :: bs => if cmp a b = 0 then lex cmps as bs else cmp a b
  | _, _, _ => 0

theorem lex_cons (cmp : α → α → Int) (cmps : List (α → α → Int)) (a b : α) (as bs : List α) :
    lex (cmp :: cmps) (a :: as) (b :: bs) = both cmp (lex cmps) (a, as) (b, bs) := rfl

theorem lex_lawful {Ps : List (α → Prop)} {cmps : List (α → α → Int)}
    (h : List.Forall₂ ThreeWay Ps cmps) :
    ThreeWay (List.Forall₂ (fun P a => P a) Ps) (lex cmps) := by
  induction h with
  | nil =>
    have hzero : ∀ a b : List α, lex [] a b = 0 := fun a b => by cases a <;> cases b <;> rfl
    constructor
    · intro a b _ _
      simp [hzero]
    · intro a b c _ _ _ _ _
      simp [hzero]
  | cons hfirst _ ih =>
    have hboth := hfirst.both_lawful ih
    constructor
    · intro a b ha hb
      cases ha with
      | cons hx hxs =>
        cases hb with
        | cons hy hys =>
          rw [lex_cons, lex_cons]
          exact hboth.swap ⟨hx, hxs⟩ ⟨hy, hys⟩
    · intro a b c ha hb hc
      cases ha with
      | cons hx hxs =>
        cases hb with
        | cons hy hys =>
          cases hc with
          | cons hz hzs =>
            rw [lex_cons, lex_cons, lex_cons]
            exact hboth.trans ⟨hx, hxs⟩ ⟨hy, hys⟩ ⟨hz, hzs⟩

/-! ## Sorting -/

theorem pairwise_mergeSort (h : ThreeWay P cmp) {l : List α} (hl : ∀ a ∈ l, P a) :
    (l.mergeSort fun a b => !decide (cmp b a < 0)).Pairwise fun a b => cmp a b ≤ 0 := by
  -- the laws hold of the values of the list only, so these are sorted as a type of their own
  have hsub := @List.pairwise_mergeSort { a // P a } (fun a b => !decide (cmp b.1 a.1 < 0))
    (by
      rintro ⟨a, ha⟩ ⟨b, hb⟩ ⟨c, hc⟩ hab hbc
      have htrans := h.trans ha hb hc
      have hab' := h.le_swap ha hb
      have hbc' := h.le_swap hb hc
      have hac' := h.le_swap ha hc
      simp only [Bool.not_eq_true', decide_eq_false_iff_not] at hab hbc ⊢
      omega)
    (by
      rintro ⟨a, ha⟩ ⟨b, hb⟩
      have hswap := h.swap ha hb
      have hswap' := h.swap hb ha
      simp only [Bool.or_eq_true, Bool.not_eq_true', decide_eq_false_iff_not]
      omega)
    (l.attachWith P hl)
  have hmap : ((l.attachWith P hl).mergeSort fun a b => !decide (cmp b.1 a.1 < 0)).map Subtype.val =
      l.mergeSort fun a b => !decide (cmp b a < 0) := by
    rw [List.map_mergeSort (s := fun a b => !decide (cmp b a < 0)) fun _ _ _ _ => rfl,
      List.attachWith_map_subtype_val]
  rw [← hmap, List.pairwise_map]
  refine hsub.imp fun {a b} hab => ?_
  have hswap := h.le_swap a.2 b.2
  simp only [Bool.not_eq_true', decide_eq_false_iff_not] at hab
  omega

/-! ## Ordered maps -/

variable {ν : Type}

section

variable (cmp : α → α → Int)

/-- Find the entry whose key is neither below nor above. -/
def find (v : α) : List (α × ν) → Option ν
  | [] => none
  | (k, l) :: rest =>
    if cmp k v < 0 then find v rest
    else if cmp v k < 0 then none
    else some l

def emplace (v : α) (x : ν) : List (α × ν) → Option (List (α × ν))
  | [] => some [(v, x)]
  | (k, l) :: rest =>
    if cmp k v < 0 then (emplace v x rest).map ((k, l) :: ·)
    else if cmp v k < 0 then some ((v, x) :: (k, l) :: rest)
    else none

def erase (v : α) : List (α × ν) → List (α × ν)
  | [] => []
  | (k, l) :: rest =>
    if cmp k v < 0 then (k, l) :: erase v rest
    else if cmp v k < 0 then (k, l) :: rest
    else rest

end

/-- Keys the comparison is lawful on, strictly increasing. -/
structure SortedMap (P : α → Prop) (cmp : α → α → Int) (m : List (α × ν)) : Prop where
  keys : ∀ e ∈ m, P e.1
  increasing : m.Pairwise fun a b => cmp a.1 b.1 < 0

namespace SortedMap

variable {v w : α} {x y : ν} {m m' : List (α × ν)} {e a : α × ν}

theorem nil : SortedMap P cmp ([] : List (α × ν)) := ⟨by simp, List.Pairwise.nil⟩

section

variable (hm : SortedMap P cmp (e :: m))
include hm

theorem tail : SortedMap P cmp m :=
  ⟨fun a ha => hm.keys a (List.mem_cons_of_mem _ ha), (List.pairwise_cons.mp hm.increasing).2⟩

theorem head : P e.1 := hm.keys e List.mem_cons_self

theorem head_lt (ha : a ∈ m) : cmp e.1 a.1 < 0 :=
  (List.pairwise_cons.mp hm.increasing).1 a ha

end

theorem find_eq_some_iff (h : ThreeWay P cmp) (hm : SortedMap P cmp m) (hv : P v) :
    find cmp v m = some x ↔ ∃ k, (k, x) ∈ m ∧ cmp k v = 0 := by
  induction m with
  | nil => simp [find]
  | cons e m ih =>
    obtain ⟨k, l⟩ := e
    have hk : P k := hm.head
    have hswap := h.swap hk hv
    rw [find]
    split
    · next hlt =>
        rw [ih hm.tail]
        constructor
        · rintro ⟨k', hk', h0⟩
          exact ⟨k', List.mem_cons_of_mem _ hk', h0⟩
        · rintro ⟨k', hk', h0⟩
          rcases List.mem_cons.mp hk' with heq | hk'
          · cases heq
            omega
          · exact ⟨k', hk', h0⟩
    · next hge =>
        split
        · next hlt =>
            constructor
            · simp
            · rintro ⟨k', hk', h0⟩
              have hPk' : P k' := hm.keys _ hk'
              -- Everything from here on is above the key.
              have habove : cmp v k' < 0 := by
                rcases List.mem_cons.mp hk' with heq | hk'
                · cases heq
                  exact hlt
                · exact h.lt_trans hv hk hPk' hlt (hm.head_lt hk')
              have := h.symm hPk' hv h0
              omega
        · next hge' =>
            constructor
            · intro hx
              cases hx
              refine ⟨k, List.mem_cons_self, ?_⟩
              omega
            · rintro ⟨k', hk', h0⟩
              rcases List.mem_cons.mp hk' with heq | hk'
              · cases heq
                rfl
              · have hPk' : P k' := hm.keys _ (List.mem_cons_of_mem _ hk')
                have := h.lt_of_lt_of_le hk hPk' hv (hm.head_lt hk') (by omega)
                omega

theorem emplace_eq_none_iff (v : α) (x : ν) (m : List (α × ν)) :
    emplace cmp v x m = none ↔ (find cmp v m).isSome := by
  induction m with
  | nil => simp [emplace, find]
  | cons e m ih =>
    rw [emplace, find]
    split
    · simpa using ih
    · split <;> simp

theorem emplace_perm (h : emplace cmp v x m = some m') : m'.Perm ((v, x) :: m) := by
  induction m generalizing m' with
  | nil =>
    cases h
    exact List.Perm.refl _
  | cons e m ih =>
    rw [emplace] at h
    split at h
    · obtain ⟨rest, hrest, rfl⟩ := Option.map_eq_some_iff.mp h
      exact ((ih hrest).cons e).trans (List.Perm.swap _ _ _)
    · split at h
      · cases h
        exact List.Perm.refl _
      · cases h

section

variable (h : ThreeWay P cmp) (hm : SortedMap P cmp m)
include h hm

theorem emplace (hv : P v) (he : emplace cmp v x m = some m') : SortedMap P cmp m' := by
  refine ⟨fun a ha => ?_, ?_⟩
  · rcases List.mem_cons.mp ((emplace_perm he).mem_iff.mp ha) with rfl | ha
    · exact hv
    · exact hm.keys a ha
  · induction m generalizing m' with
    | nil =>
      cases he
      exact List.pairwise_singleton _ _
    | cons e m ih =>
      have hk : P e.1 := hm.head
      rw [ThreeWay.emplace] at he
      split at he
      · next hlt =>
          obtain ⟨rest, hrest, rfl⟩ := Option.map_eq_some_iff.mp he
          refine List.pairwise_cons.mpr ⟨fun a ha => ?_, ih hm.tail hrest⟩
          rcases List.mem_cons.mp ((emplace_perm hrest).mem_iff.mp ha) with rfl | ha
          · exact hlt
          · exact hm.head_lt ha
      · split at he
        · next hlt =>
            cases he
            refine List.pairwise_cons.mpr ⟨fun a ha => ?_, hm.increasing⟩
            rcases List.mem_cons.mp ha with rfl | ha
            · exact hlt
            · exact h.lt_trans hv hk (hm.keys a (List.mem_cons_of_mem _ ha)) hlt (hm.head_lt ha)
        · cases he

theorem erase_split (hv : P v) (hx : find cmp v m = some x) :
    ∃ before k after, m = before ++ (k, x) :: after ∧ erase cmp v m = before ++ after ∧
      cmp k v = 0 := by
  induction m with
  | nil => simp [find] at hx
  | cons e m ih =>
    obtain ⟨k, l⟩ := e
    have hswap := h.swap hm.head hv
    rw [find] at hx
    rw [erase]
    split at hx
    · next hlt =>
        obtain ⟨before, k', after, hm', he, h0⟩ := ih hm.tail hx
        refine ⟨(k, l) :: before, k', after, by rw [hm']; rfl, ?_, h0⟩
        rw [if_pos hlt, he]
        rfl
    · next hge =>
        split at hx
        · cases hx
        · next hge' =>
            cases hx
            refine ⟨[], k, m, rfl, ?_, by simp only at hswap; omega⟩
            rw [if_neg hge, if_neg hge']
            rfl

/-- After an addition the new key, and every equal one, is found at its
value, and the others are found as before. -/
theorem find_emplace (hv : P v) (hw : P w) (he : ThreeWay.emplace cmp v x m = some m') :
    find cmp w m' = if cmp v w = 0 then some x else find cmp w m := by
  have hm' := hm.emplace h hv he
  have hmem : ∀ e, e ∈ m' ↔ e = (v, x) ∨ e ∈ m := fun e => by
    rw [(emplace_perm he).mem_iff, List.mem_cons]
  split
  · next h0 => exact (hm'.find_eq_some_iff h hw).mpr ⟨v, (hmem _).mpr (.inl rfl), h0⟩
  · next hne =>
      refine Option.ext fun y => ?_
      rw [hm'.find_eq_some_iff h hw, hm.find_eq_some_iff h hw]
      refine exists_congr fun k =>
        ⟨fun ⟨hk, h0⟩ => ?_, fun ⟨hk, h0⟩ => ⟨(hmem _).mpr (.inr hk), h0⟩⟩
      rcases (hmem _).mp hk with heq | hk
      · cases heq
        exact absurd h0 hne
      · exact ⟨hk, h0⟩

end

theorem sublist (hm : SortedMap P cmp m) (hs : m'.Sublist m) : SortedMap P cmp m' :=
  ⟨fun a ha => hm.keys a (hs.subset ha), hm.increasing.sublist hs⟩

/-- After a removal the key and every equal one is gone, and the others are
found as before. -/
theorem find_erase (h : ThreeWay P cmp) (hm : SortedMap P cmp m) (hv : P v) (hw : P w)
    (hx : find cmp v m = some x) :
    find cmp w (erase cmp v m) = if cmp v w = 0 then none else find cmp w m := by
  obtain ⟨before, k, after, hsplit, herase, hkv⟩ := hm.erase_split h hv hx
  have hk : P k := hm.keys (k, x) (by rw [hsplit]; simp)
  have hm' : SortedMap P cmp (erase cmp v m) := by
    refine hm.sublist ?_
    rw [herase, hsplit]
    exact List.Sublist.append_left (List.sublist_cons_self _ _) _
  -- No two keys of the map are equal.
  have hother : ∀ e ∈ before ++ after, cmp e.1 k ≠ 0 := by
    intro e he h0
    have hinc := hm.increasing
    rw [hsplit, List.pairwise_append, List.pairwise_cons] at hinc
    have hPe : P e.1 := hm'.keys e (by rw [herase]; exact he)
    rcases List.mem_append.mp he with he | he
    · have hlt : cmp e.1 k < 0 := hinc.2.2 e he _ List.mem_cons_self
      omega
    · have hlt : cmp k e.1 < 0 := hinc.2.1.1 e he
      have := h.symm hPe hk h0
      omega
  split
  · next h0 =>
      refine Option.eq_none_iff_forall_ne_some.mpr fun y hy => ?_
      obtain ⟨k', hk', hk'w⟩ := (hm'.find_eq_some_iff h hw).mp hy
      have hPk' : P k' := hm'.keys _ hk'
      rw [herase] at hk'
      refine hother _ hk' (h.zero_trans hPk' hw hk hk'w ?_)
      exact h.zero_trans hw hv hk (h.symm hv hw h0) (h.symm hk hv hkv)
  · next hne =>
      refine Option.ext fun y => ?_
      rw [hm'.find_eq_some_iff h hw, hm.find_eq_some_iff h hw]
      refine exists_congr fun k' => and_congr_left fun hk'w => ?_
      rw [herase, hsplit]
      simp only [List.mem_append, List.mem_cons]
      refine ⟨fun hmem => hmem.imp id .inr, fun hmem => ?_⟩
      rcases hmem with hmem | heq | hmem
      · exact .inl hmem
      · cases heq
        exact absurd (h.zero_trans hv hk hw (h.symm hk hv hkv) hk'w) hne
      · exact .inr hmem

end SortedMap

end ThreeWay
