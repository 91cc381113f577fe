import CoreSql.Lib.SortedMap
import Mathlib.Algebra.Order.Ring.Nat

/-!
# Free extents

The free part of a file as a map from offsets to lengths. Two facts carry
everything an allocator over it has to show: which bytes the map holds after
a change, and that its extents still neither overlap nor touch. Both are
stated for an extent that is taken out and for one that is put in, and an
allocator's splitting and merging are made of these two.
-/

namespace Extents

abbrev Extent := Nat × Nat

variable {a b : Extent}

def Spans (e : Extent) (x : Nat) : Prop := e.1 ≤ x ∧ x < e.1 + e.2

def Held (m : List Extent) (x : Nat) : Prop := ∃ e ∈ m, Spans e x

/-- There is a byte between any two extents, and in every one. -/
structure Gapped (m : List Extent) : Prop where
  sorted : SortedMap.Sorted m
  positive : ∀ e ∈ m, 0 < e.2
  apart : ∀ a ∈ m, ∀ b ∈ m, a.1 < b.1 → a.1 + a.2 < b.1

variable {m : List Extent} {e : Extent} {k n x : Nat}

theorem gapped_nil : Gapped [] where
  sorted := SortedMap.sorted_nil
  positive := by simp
  apart := by simp

theorem Gapped.pairwise (h : Gapped m) : m.Pairwise fun a b => a.1 + a.2 < b.1 :=
  (List.Pairwise.and_mem.mp h.sorted).imp fun hab => h.apart _ hab.1 _ hab.2.1 hab.2.2

theorem Gapped.eq_of_offset (h : Gapped m) (ha : a ∈ m) (hb : b ∈ m) (hab : a.1 = b.1) : a = b := by
  have hfind := h.sorted.find_of_mem ha
  rw [hab, h.sorted.find_of_mem hb] at hfind
  exact Prod.ext hab (Option.some.inj hfind).symm

theorem Gapped.eq_of_spans (h : Gapped m) (ha : a ∈ m) (hb : b ∈ m)
    (hax : Spans a x) (hbx : Spans b x) : a = b := by
  refine h.eq_of_offset ha hb ?_
  obtain ⟨ha₁, ha₂⟩ := hax
  obtain ⟨hb₁, hb₂⟩ := hbx
  rcases Nat.lt_trichotomy a.1 b.1 with hlt | heq | hlt
  · have := h.apart a ha b hb hlt
    omega
  · exact heq
  · have := h.apart b hb a ha hlt
    omega

/-! ## Taking an extent out -/

theorem Gapped.erase (h : Gapped m) : Gapped (SortedMap.erase k m) where
  sorted := h.sorted.erase
  positive a ha := h.positive a (SortedMap.mem_erase.mp ha).1
  apart a ha b hb := h.apart a (SortedMap.mem_erase.mp ha).1 b (SortedMap.mem_erase.mp hb).1

theorem Gapped.held_erase (h : Gapped m) (he : e ∈ m) :
    Held (SortedMap.erase e.1 m) x ↔ Held m x ∧ ¬Spans e x := by
  constructor
  · rintro ⟨a, ha, hax⟩
    obtain ⟨ha, hne⟩ := SortedMap.mem_erase.mp ha
    exact ⟨⟨a, ha, hax⟩, fun hex => hne (congrArg Prod.fst (h.eq_of_spans ha he hax hex))⟩
  · rintro ⟨⟨a, ha, hax⟩, hex⟩
    refine ⟨a, SortedMap.mem_erase.mpr ⟨ha, fun hae => hex ?_⟩, hax⟩
    rwa [← h.eq_of_offset ha he hae]

/-! ## Putting an extent in -/

theorem mem_insert_new (hk : SortedMap.find k m = none) :
    e ∈ SortedMap.insert k n m ↔ e = (k, n) ∨ e ∈ m := by
  rw [(SortedMap.insert_perm hk).mem_iff, List.mem_cons]

theorem held_insert (hk : SortedMap.find k m = none) :
    Held (SortedMap.insert k n m) x ↔ Spans (k, n) x ∨ Held m x := by
  simp only [Held, mem_insert_new hk, or_and_right, exists_or, exists_eq_left]

/-- The extent neither overlaps nor touches one of the map. -/
def Loose (e : Extent) (m : List Extent) : Prop :=
  ∀ a ∈ m, a.1 + a.2 < e.1 ∨ e.1 + e.2 < a.1

theorem Loose.find (h : Loose (k, n) m) : SortedMap.find k m = none := by
  refine SortedMap.find_eq_none_iff.mpr fun a ha hak => ?_
  have := h a ha
  dsimp only at this
  omega

theorem Gapped.insert (h : Gapped m) (hn : 0 < n) (hloose : Loose (k, n) m) :
    Gapped (SortedMap.insert k n m) where
  sorted := h.sorted.insert
  positive a ha := by
    rcases (mem_insert_new hloose.find).mp ha with rfl | ha
    · exact hn
    · exact h.positive a ha
  apart a ha b hb hab := by
    rcases (mem_insert_new hloose.find).mp ha with rfl | ha <;>
      rcases (mem_insert_new hloose.find).mp hb with rfl | hb
    · omega
    · have := hloose b hb
      dsimp only at this hab ⊢
      omega
    · have := hloose a ha
      dsimp only at this hab ⊢
      omega
    · exact h.apart a ha b hb hab

/-! ## The extents next to an offset -/

/-- The last extent that starts before an offset. -/
def before (k : Nat) (m : List Extent) : Option Extent := (m.filter (·.1 < k)).getLast?

/-- The first extent that starts after an offset. -/
def after (k : Nat) (m : List Extent) : Option Extent := m.find? (k < ·.1)

theorem mem_of_before (h : before k m = some e) : e ∈ m ∧ e.1 < k := by
  simpa using List.mem_of_getLast? h

theorem mem_of_after (h : after k m = some e) : e ∈ m ∧ k < e.1 :=
  ⟨List.mem_of_find?_eq_some h, by simpa using List.find?_some h⟩

theorem le_before (hm : SortedMap.Sorted m) (ha : a ∈ m) (hak : a.1 < k) :
    ∃ b, before k m = some b ∧ a.1 ≤ b.1 := by
  have hmem : a ∈ m.filter (·.1 < k) := List.mem_filter.mpr ⟨ha, by simpa using hak⟩
  obtain ⟨b, hb⟩ := Option.isSome_iff_exists.mp (List.getLast?_isSome.mpr (List.ne_nil_of_mem hmem))
  refine ⟨b, hb, ?_⟩
  obtain ⟨pre, hpre⟩ := List.getLast?_eq_some_iff.mp hb
  rw [hpre, List.mem_append, List.mem_singleton] at hmem
  rcases hmem with hmem | rfl
  · have hsorted := List.Pairwise.filter (fun e : Extent => decide (e.1 < k)) hm
    rw [hpre, List.pairwise_append] at hsorted
    exact Nat.le_of_lt (hsorted.2.2 a hmem b List.mem_cons_self)
  · exact Nat.le_refl _

theorem after_le (hm : SortedMap.Sorted m) (ha : a ∈ m) (hak : k < a.1) :
    ∃ b, after k m = some b ∧ b.1 ≤ a.1 := by
  cases hb : after k m with
  | none => exact absurd (List.find?_eq_none.mp hb a ha) (by simpa using hak)
  | some b =>
    refine ⟨b, rfl, ?_⟩
    obtain ⟨-, pre, post, rfl, hpre⟩ := List.find?_eq_some_iff_append.mp hb
    rcases List.mem_append.mp ha with ha | ha
    · exact absurd hak (by simpa using hpre a ha)
    rcases List.mem_cons.mp ha with rfl | ha
    · exact Nat.le_refl _
    · exact Nat.le_of_lt ((List.pairwise_cons.mp (List.pairwise_append.mp hm).2.1).1 a ha)

end Extents
