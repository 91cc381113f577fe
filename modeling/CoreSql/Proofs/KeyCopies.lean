import CoreSql.Proofs.Ranges
import CoreSql.Proofs.Scans
import CoreSql.Query.SharedKeys
import Mathlib.Data.Nat.Factorization.Basic

/-!
# Clones of an extracted-key index answer for themselves

As with hash indexes, every clone is seen through its pointers as a `KeyIndex`
of its own, and a command changes what is seen of one of them only. The
argument has a level more. A staged bucket is nobody else's, but its postings
may be; one of them is written to only if no other bucket points to it, which
is what its count says. `Staged` is what holds between two keys of a change:
what the indexes show is as it was, and the staged buckets show the change so
far.
-/

namespace CoreSql

open CopyOnWrite

variable {l : RowLocation} {key : Value} {n k N i c : Nat}

/-! ## Scanning a mask -/

theorem countrZero_two_pow (k m : Nat) : countrZero (2 ^ k * (2 * m + 1)) = k := by
  induction k with
  | zero =>
    rw [countrZero, dif_pos (by omega)]
  | succ k ih =>
    have hpos : 0 < 2 ^ k * (2 * m + 1) := Nat.mul_pos (Nat.two_pow_pos k) (by omega)
    have hdouble : 2 ^ (k + 1) * (2 * m + 1) = 2 * (2 ^ k * (2 * m + 1)) := by
      rw [Nat.pow_succ]
      ac_rfl
    rw [countrZero, hdouble, dif_neg (by omega), Nat.mul_div_cancel_left _ (by omega), ih]

theorem testBit_and_sub_one (hn : n ≠ 0) (j : Nat) :
    (n &&& (n - 1)).testBit j = (n.testBit j && decide (j ≠ countrZero n)) ∧
      n.testBit (countrZero n) = true ∧ ∀ i < countrZero n, n.testBit i = false := by
  obtain ⟨k, m, hm, rfl⟩ := Nat.exists_eq_two_pow_mul_odd hn
  obtain ⟨m, rfl⟩ := hm
  rw [countrZero_two_pow]
  have hpow := Nat.two_pow_pos k
  have hbits : ∀ j, (2 ^ k * (2 * m + 1)).testBit j =
    if j < k then false else (2 * m + 1).testBit (j - k) := by
    intro j
    have := Nat.testBit_two_pow_mul_add (2 * m + 1) hpow j
    simpa using this
  have hless : 2 ^ k * (2 * m + 1) - 1 = 2 ^ k * (2 * m) + (2 ^ k - 1) := by
    rw [Nat.mul_add]
    omega
  refine ⟨?_, ?_, fun i hi => ?_⟩
  · rw [Nat.testBit_and, hbits, hless, Nat.testBit_two_pow_mul_add _ (by omega)]
    by_cases hj : j < k
    · simp [hj]
    · rw [if_neg hj, if_neg hj]
      cases hjk : j - k with
      | zero =>
        have heq : j = k := by omega
        simp [heq]
      | succ i =>
        have hne : j ≠ k := by omega
        have hodd : (2 * m + 1).testBit (i + 1) = (2 * m).testBit (i + 1) := by
          rw [Nat.testBit_succ, Nat.testBit_succ]
          congr 1
          omega
        simp [hne, hodd]
  · rw [hbits]
    simp
  · rw [hbits, if_pos hi]

theorem filter_range_first {p : Nat → Bool} (hk : k < N) (hp : p k = true)
    (hfirst : ∀ i < k, p i = false) :
    (List.range N).filter p = k :: (List.range N).filter fun j => p j && decide (j ≠ k) := by
  induction N with
  | zero => omega
  | succ N ih =>
    rw [List.range_succ, List.filter_append, List.filter_append]
    by_cases hN : k = N
    · subst hN
      have hnone : ∀ q : Nat → Bool, (∀ i < k, q i = false) → (List.range k).filter q = [] :=
        fun q hq => List.filter_eq_nil_iff.mpr fun i hi => by simp [hq i (List.mem_range.mp hi)]
      rw [hnone p hfirst, hnone _ fun i hi => by simp [hfirst i hi]]
      simp [hp]
    · rw [ih (by omega)]
      have hne : N ≠ k := Ne.symm hN
      simp [List.filter_cons, hne]

theorem wordBits_eq (hn : n < 2 ^ 64) : wordBits n = (List.range 64).filter n.testBit := by
  induction n using Nat.strongRecOn with
  | ind n ih =>
    rw [wordBits]
    split
    · next hzero =>
        subst hzero
        exact (List.filter_eq_nil_iff.mpr fun i _ => by simp).symm
    · next hne =>
        obtain ⟨-, hbit, hfirst⟩ := testBit_and_sub_one hne 0
        have hlt : countrZero n < 64 := by
          by_contra hge
          rw [Nat.testBit_lt_two_pow (Nat.lt_of_lt_of_le hn
            (Nat.pow_le_pow_right (by omega) (by omega)))] at hbit
          cases hbit
        have hle := Nat.and_le_right (n := n) (m := n - 1)
        rw [ih _ (by omega) (by omega), filter_range_first hlt hbit hfirst]
        refine congrArg _ (List.filter_congr fun j _ => ?_)
        exact (testBit_and_sub_one hne j).1

theorem testBit_word (mask : Mask) (word : Nat) (hi : i < 64) :
    (Mask.word mask word).testBit i = mask.getLsbD (64 * word + i) := by
  rw [Mask.word, BitVec.testBit_toNat, BitVec.getLsbD_extractLsb']
  simp [hi]

theorem Posting.scan_eq (p : Posting) : p.scan = p.locations := by
  refine List.flatMap_congr fun e _ => ?_
  have hword : ∀ word, wordBits (Mask.word e.2 word) =
      (List.range 64).filter fun i => e.2.getLsbD (64 * word + i) := by
    intro word
    rw [wordBits_eq (show Mask.word e.2 word < 2 ^ 64 from BitVec.isLt _)]
    exact List.filter_congr fun i hi => testBit_word e.2 word (List.mem_range.mp hi)
  have hsplit : List.range 128 = List.range 64 ++ (List.range 64).map (64 + ·) := by decide
  simp only [List.flatMap_cons, List.flatMap_nil, List.append_nil, hword]
  rw [hsplit, List.filter_append, List.map_append, List.filter_map, List.map_map]
  simp [Function.comp_def, Nat.add_assoc]

/-! ## Tables of pointers -/

section Tables

variable {β γ : Type} {same : Value → Bool} {es : List (Value × β)} {g g' : β → γ} {b : β}
  {e : Value × β}

theorem findEntry_map (g : β → γ) (es : List (Value × β)) :
    findEntry same (es.map fun e => (e.1, g e.2)) = (findEntry same es).map g := by
  induction es with
  | nil => rfl
  | cons e es ih =>
    rw [List.map_cons, findEntry, findEntry, ih]
    split <;> rfl

/-- A table in which only one entry is exchanged may be read anew but for that one. -/
theorem putEntry_map (h : ∀ e ∈ dropEntry same es, g' e.2 = g e.2) :
    (putEntry same key b es).map (fun e => (e.1, g' e.2)) =
      putEntry same key (g' b) (es.map fun e => (e.1, g e.2)) := by
  induction es with
  | nil => rfl
  | cons e es ih =>
    rw [List.map_cons, putEntry, putEntry]
    rw [dropEntry] at h
    split
    · next hsame =>
        rw [if_pos hsame] at h
        rw [List.map_cons]
        congr 1
        exact List.map_congr_left fun e he => by rw [h e he]
    · next hother =>
        rw [if_neg hother] at h
        rw [List.map_cons, h e List.mem_cons_self, ih fun e he => h e (List.mem_cons_of_mem _ he)]

theorem dropEntry_map (h : ∀ e ∈ dropEntry same es, g' e.2 = g e.2) :
    (dropEntry same es).map (fun e => (e.1, g' e.2)) =
      dropEntry same (es.map fun e => (e.1, g e.2)) := by
  induction es with
  | nil => rfl
  | cons e es ih =>
    rw [List.map_cons, dropEntry, dropEntry]
    rw [dropEntry] at h
    split
    · next hsame =>
        rw [if_pos hsame] at h
        exact List.map_congr_left fun e he => by rw [h e he]
    · next hother =>
        rw [if_neg hother] at h
        rw [List.map_cons, h e List.mem_cons_self, ih fun e he => h e (List.mem_cons_of_mem _ he)]

theorem mem_putEntry (he : e ∈ putEntry same key b es) : e.2 = b ∨ e ∈ dropEntry same es := by
  induction es with
  | nil =>
    rw [List.mem_singleton.mp he]
    exact .inl rfl
  | cons c es ih =>
    rw [putEntry] at he
    rw [dropEntry]
    split at he
    · next hsame =>
        rw [if_pos hsame]
        rcases List.mem_cons.mp he with rfl | he
        · exact .inl rfl
        · exact .inr he
    · next hother =>
        rw [if_neg hother]
        rcases List.mem_cons.mp he with rfl | he
        · exact .inr List.mem_cons_self
        · exact (ih he).imp id (List.mem_cons_of_mem _)

theorem dropEntry_subset (he : e ∈ dropEntry same es) : e ∈ es := by
  induction es with
  | nil => cases he
  | cons c es ih =>
    rw [dropEntry] at he
    split at he
    · exact List.mem_cons_of_mem _ he
    · rcases List.mem_cons.mp he with rfl | he
      · exact List.mem_cons_self
      · exact List.mem_cons_of_mem _ (ih he)

theorem dropEntry_putEntry (h : (findEntry same es).isSome = true) :
    dropEntry same (putEntry same key b es) = dropEntry same es := by
  induction es with
  | nil => cases h
  | cons c es ih =>
    rw [findEntry] at h
    rw [putEntry]
    split
    · next hsame => rw [dropEntry, if_pos hsame, dropEntry, if_pos hsame]
    · next hother =>
        rw [if_neg hother] at h
        rw [dropEntry, if_neg hother, dropEntry, if_neg hother, ih h]

theorem countP_dropEntry {es : List (Value × Nat)} {p : Nat} (h : findEntry same es = some p) :
    (es.countP fun e => e.2 == p) = ((dropEntry same es).countP fun e => e.2 == p) + 1 := by
  induction es with
  | nil => cases h
  | cons c es ih =>
    rw [findEntry] at h
    rw [dropEntry]
    split at h
    · next hsame =>
        cases h
        rw [if_pos hsame, List.countP_cons_of_pos (by simp)]
    · next hother =>
        rw [if_neg hother, List.countP_cons, List.countP_cons, ih h]
        dsimp only
        omega

end Tables

/-! The changes to a bucket of a key index in these terms. -/

namespace KeyIndex

variable {x : KeyIndex} {b : List (Value × Posting)}

theorem addKey_eq_putEntry (b : List (Value × Posting)) :
    x.addKey key l b = putEntry (fun k => x.equal k key) key
      (Posting.add l ((findEntry (fun k => x.equal k key) b).getD [])) b := by
  induction b with
  | nil => rfl
  | cons e b ih =>
    rw [addKey, putEntry, findEntry, ih]
    split <;> rfl

theorem removeKey_of_none
    (h : findEntry (fun k => x.equal k key) b = none) : x.removeKey key l b = b := by
  induction b with
  | nil => rfl
  | cons e b ih =>
    rw [findEntry] at h
    split at h
    · cases h
    · next hother => rw [removeKey, if_neg hother, ih h]

theorem removeKey_of_some {p : Posting} (h : findEntry (fun k => x.equal k key) b = some p) :
    x.removeKey key l b = if (Posting.remove l p).isEmpty then dropEntry (fun k => x.equal k key) b
      else putEntry (fun k => x.equal k key) key (Posting.remove l p) b := by
  induction b with
  | nil => cases h
  | cons e b ih =>
    rw [findEntry] at h
    rw [removeKey, dropEntry, putEntry]
    split at h
    · next hsame =>
        cases h
        rw [if_pos hsame, if_pos hsame, if_pos hsame]
    · next hother =>
        rw [if_neg hother, if_neg hother, if_neg hother, ih h]
        split <;> rfl

end KeyIndex

/-! ## Counts -/

theorem add_le_sum {f : Nat → Nat} {bs : List Nat} {b : Nat} (hb : b ∈ bs) (hc : c ∈ bs)
    (hne : b ≠ c) : f b + f c ≤ (bs.map f).sum := by
  induction bs with
  | nil => cases hb
  | cons d bs ih =>
    rw [List.map_cons, List.sum_cons]
    have hone : ∀ {e}, e ∈ bs → f e ≤ (bs.map f).sum := fun he =>
      List.single_le_sum (by simp) _ (List.mem_map_of_mem he)
    rcases List.mem_cons.mp hb with hbd | hbs <;> rcases List.mem_cons.mp hc with hcd | hcs
    · exact absurd (hbd.trans hcd.symm) hne
    · have := hone hcs
      rw [hbd]
      omega
    · have := hone hbs
      rw [hcd]
      omega
    · have := ih hbs hcs
      omega

namespace SharedKeys

variable {s s₀ s' : SharedKeys} {i j n b : Nat} {staged : List (Nat × Nat)}
  {f : Nat → List (Value × Posting)}

def IsLive (s : SharedKeys) (staged : List (Nat × Nat)) (b : Nat) : Prop :=
  (∃ j n, s.pointer j n = some b) ∨ ∃ n, SortedMap.find n staged = some b

/-- Pointers are to buckets and postings there are, and postings are not empty. -/
structure Valid (s : SharedKeys) : Prop where
  width : ∀ j n b, s.pointer j n = some b → n < bucketCount
  buckets : ∀ j n b, s.pointer j n = some b → b < s.buckets.next
  postings : ∀ j n b, s.pointer j n = some b → ∀ e ∈ s.buckets.cells b,
    e.2 < s.postings.next ∧ s.postings.cells e.2 ≠ []

/-- A change of index `i` that is going on: it started at `s₀`, and `f` is what the index is to show
so far. -/
structure Staged (s₀ : SharedKeys) (i : Nat) (s : SharedKeys) (staged : List (Nat × Nat))
    (f : Nat → List (Value × Posting)) : Prop where
  binding : s.extractor = s₀.extractor ∧ s.addon = s₀.addon
  arrays : s.arrays = s₀.arrays
  sorted : SortedMap.Sorted staged
  next : s₀.buckets.next ≤ s.buckets.next
  old : ∀ c < s₀.buckets.next, s.buckets.cells c = s₀.buckets.cells c
  fresh : ∀ n b, SortedMap.find n staged = some b →
    n < bucketCount ∧ s₀.buckets.next ≤ b ∧ b < s.buckets.next
  apart : ∀ m n b, SortedMap.find m staged = some b → SortedMap.find n staged = some b → m = n
  postings : ∀ b, s.IsLive staged b → ∀ e ∈ s.buckets.cells b,
    e.2 < s.postings.next ∧ s.postings.cells e.2 ≠ []
  others : ∀ j n b, s₀.pointer j n = some b → s.deref b = s₀.deref b
  seen : ∀ n, f n = match SortedMap.find n staged with
    | some b => s.deref b
    | none => (s₀.index i).buckets n

theorem Staged.pointer_eq (h : Staged s₀ i s staged f) (j n : Nat) : s.pointer j n =
    s₀.pointer j n := by
  rw [pointer, pointer, h.arrays]

theorem Valid.start (h : s₀.Valid) (i : Nat) : Staged s₀ i s₀ [] (s₀.index i).buckets where
  binding := ⟨rfl, rfl⟩
  arrays := rfl
  sorted := SortedMap.sorted_nil
  next := Nat.le_refl _
  old _ _ := rfl
  fresh _ _ hb := by cases hb
  apart _ _ _ hb := by cases hb
  postings b hb := by
    rcases hb with ⟨j, n, hb⟩ | ⟨n, hb⟩
    · exact h.postings j n b hb
    · cases hb
  others _ _ _ _ := rfl
  seen _ := rfl

theorem Staged.mem_live (h : Staged s₀ i s staged f) (hvalid : s₀.Valid) (hb : s.IsLive staged b) :
    b ∈ s.live staged := by
  rw [live, List.mem_dedup, List.mem_append]
  rcases hb with ⟨j, n, hb⟩ | ⟨n, hb⟩
  · left
    have hn := hvalid.width j n b (h.pointer_eq j n ▸ hb)
    rw [pointer, Option.bind_eq_some_iff] at hb
    obtain ⟨array, harray, hb⟩ := hb
    exact List.mem_flatMap.mpr ⟨array, List.mem_of_getElem? harray,
      List.mem_filterMap.mpr ⟨n, List.mem_range.mpr hn, hb⟩⟩
  · right
    exact List.mem_map.mpr ⟨(n, b), SortedMap.mem_of_find hb, rfl⟩

/-! ## Staging -/

theorem Staged.stage (h : Staged s₀ i s staged f) (hvalid : s₀.Valid) (hn : n < bucketCount) :
    Staged s₀ i (s.stage i staged n).1 (s.stage i staged n).2.1 f ∧
      SortedMap.find n (s.stage i staged n).2.1 = some (s.stage i staged n).2.2 := by
  rw [SharedKeys.stage]
  cases hfind : SortedMap.find n staged with
  | some b => exact ⟨h, hfind⟩
  | none =>
    dsimp only
    have hcells : ∀ c < s.buckets.next,
        (s.buckets.alloc (s.buckets.read [] (s.pointer i n))).1.cells c = s.buckets.cells c :=
      fun c hc => Function.update_of_ne (Nat.ne_of_lt hc) _ _
    have hnew : (s.buckets.alloc (s.buckets.read [] (s.pointer i n))).1.cells s.buckets.next =
        s.buckets.read [] (s.pointer i n) := Function.update_self _ _ _
    refine ⟨⟨h.binding, h.arrays, h.sorted.insert, Nat.le_succ_of_le h.next, ?_, ?_, ?_,
      ?_, ?_, ?_⟩,
      SortedMap.find_insert_self⟩
    · intro c hc
      exact (hcells c (Nat.lt_of_lt_of_le hc h.next)).trans (h.old c hc)
    · intro m b hb
      rw [SortedMap.find_insert] at hb
      split at hb
      · next hm =>
          cases hb
          exact ⟨hm ▸ hn, h.next, Nat.lt_succ_self _⟩
      · obtain ⟨hm, hle, hlt⟩ := h.fresh m b hb
        exact ⟨hm, hle, Nat.lt_succ_of_lt hlt⟩
    · intro m m' b hb hb'
      rw [SortedMap.find_insert] at hb hb'
      split at hb <;> split at hb'
      · next hm hm' => rw [hm, hm']
      · cases hb
        exact absurd (h.fresh m' _ hb').2.2 (Nat.lt_irrefl _)
      · cases hb'
        exact absurd (h.fresh m _ hb).2.2 (Nat.lt_irrefl _)
      · exact h.apart m m' b hb hb'
    · intro b hb
      have hlive : ∀ c, s.IsLive staged c → c < s.buckets.next := by
        rintro c (⟨j, m, hc⟩ | ⟨m, hc⟩)
        · exact Nat.lt_of_lt_of_le (hvalid.buckets j m c (h.pointer_eq j m ▸ hc)) h.next
        · exact (h.fresh m c hc).2.2
      rcases hb with ⟨j, m, hb⟩ | ⟨m, hb⟩
      · have hlive' : s.IsLive staged b := .inl ⟨j, m, hb⟩
        rw [hcells b (hlive b hlive')]
        exact h.postings b hlive'
      · rw [SortedMap.find_insert] at hb
        split at hb
        · cases hb
          rw [show (s.buckets.alloc (s.buckets.read [] (s.pointer i n))).1.cells
            (s.buckets.alloc (s.buckets.read [] (s.pointer i n))).2 = _ from hnew]
          cases hp : s.pointer i n with
          | none => exact fun e he => by cases he
          | some c => exact h.postings c (.inl ⟨i, n, hp⟩)
        · have hlive' : s.IsLive staged b := .inr ⟨m, hb⟩
          rw [hcells b (hlive b hlive')]
          exact h.postings b hlive'
    · intro j m b hb
      rw [← h.others j m b hb]
      show List.map _ ((s.buckets.alloc _).1.cells b) = List.map _ (s.buckets.cells b)
      rw [hcells b (Nat.lt_of_lt_of_le (hvalid.buckets j m b hb) h.next)]
    · intro m
      rw [h.seen m, SortedMap.find_insert]
      by_cases hm : m = n
      · subst hm
        rw [if_pos rfl, hfind]
        show ((s₀.pointer i m).map s₀.deref).getD [] = List.map _ _
        rw [show (s.buckets.alloc (s.buckets.read [] (s.pointer i m))).1.cells
          (s.buckets.alloc (s.buckets.read [] (s.pointer i m))).2 = _ from hnew, h.pointer_eq]
        cases hp : s₀.pointer i m with
        | none => rfl
        | some c => exact (h.others i m c hp).symm
      · rw [if_neg hm]
        cases hstaged : SortedMap.find m staged with
        | none => rfl
        | some b =>
          show List.map _ (s.buckets.cells b) = List.map _ ((s.buckets.alloc _).1.cells b)
          rw [hcells b (h.fresh m b hstaged).2.2]

/-! ## Writing to a posting -/

section Write

variable {same : Value → Bool}

/-- A posting for a key of a staged bucket, to be written to. -/
def ownPosting (s : SharedKeys) (staged : List (Nat × Nat)) (b : Nat) (same : Value → Bool) :
    Store Posting × Nat :=
  s.postings.writable [] (findEntry same (s.buckets.cells b))
    (s.uses staged ((findEntry same (s.buckets.cells b)).getD 0))

variable (h : Staged s₀ i s staged f) (hvalid : s₀.Valid) (hb : SortedMap.find n staged = some b)
include h hvalid hb

omit hvalid in
theorem Staged.ownPosting_address (same : Value → Bool) :
    (s.ownPosting staged b same).2 < (s.ownPosting staged b same).1.next ∧
      s.postings.next ≤ (s.ownPosting staged b same).1.next ∧
      ((s.ownPosting staged b same).2 = s.postings.next ∨
        findEntry same (s.buckets.cells b) = some (s.ownPosting staged b same).2 ∧
          s.uses staged (s.ownPosting staged b same).2 = 1) := by
  have hlive : s.IsLive staged b := .inr ⟨n, hb⟩
  have hlt : ∀ p, findEntry same (s.buckets.cells b) = some p → p < s.postings.next := by
    intro p hp
    have hmem : ∃ e ∈ s.buckets.cells b, e.2 = p := by
      have hcount := countP_dropEntry hp
      have hpos : 0 < (s.buckets.cells b).countP fun e => e.2 == p := by omega
      obtain ⟨e, he, heq⟩ := List.countP_pos_iff.mp hpos
      exact ⟨e, he, by simpa using heq⟩
    obtain ⟨e, he, rfl⟩ := hmem
    exact (h.postings b hlive e he).1
  obtain ⟨h₁, h₂, h₃⟩ := Store.writable_address []
    (s.uses staged ((findEntry same (s.buckets.cells b)).getD 0)) hlt
  refine ⟨h₁, h₂, h₃.imp id fun ⟨hp, huses⟩ => ⟨hp, ?_⟩⟩
  rw [hp, Option.getD_some] at huses
  exact huses

/-- No other pointer leads to it: not from the rest of the bucket, and not from another one. -/
theorem Staged.ownPosting_alone (same : Value → Bool) :
    (∀ e ∈ dropEntry same (s.buckets.cells b), e.2 ≠ (s.ownPosting staged b same).2) ∧
      ∀ c, s.IsLive staged c → c ≠ b → ∀ e ∈ s.buckets.cells c,
        e.2 ≠ (s.ownPosting staged b same).2 := by
  have hlive : s.IsLive staged b := .inr ⟨n, hb⟩
  obtain ⟨-, -, hnew | ⟨hfound, huses⟩⟩ := h.ownPosting_address hb same
  · rw [hnew]
    refine ⟨fun e he => ?_, fun c hc _ e he => ?_⟩
    · exact Nat.ne_of_lt (h.postings b hlive e (dropEntry_subset he)).1
    · exact Nat.ne_of_lt (h.postings c hc e he).1
  · generalize (s.ownPosting staged b same).2 = a at hfound huses
    have hcount := countP_dropEntry hfound
    rw [uses] at huses
    constructor
    · intro e he heq
      have hone : (s.buckets.cells b).countP (fun e => e.2 == a) ≤
          ((s.live staged).map fun b => (s.buckets.cells b).countP fun e => e.2 == a).sum :=
        List.single_le_sum (by simp) _
          (List.mem_map_of_mem (f := fun b => (s.buckets.cells b).countP fun e => e.2 == a)
            (h.mem_live hvalid hlive))
      have hpos : 0 < (dropEntry same (s.buckets.cells b)).countP fun e => e.2 == a :=
        List.countP_pos_iff.mpr ⟨e, he, by simp [heq]⟩
      omega
    · intro c hc hne e he heq
      have htwo := add_le_sum (f := fun b => (s.buckets.cells b).countP fun e => e.2 == a)
        (h.mem_live hvalid hc) (h.mem_live hvalid hlive) hne
      have hpos : 0 < (s.buckets.cells c).countP fun e => e.2 == a :=
        List.countP_pos_iff.mpr ⟨e, he, by simp [heq]⟩
      omega

/-- Writing to it, and exchanging the entries of the staged bucket, is seen in that bucket only. -/
theorem Staged.write (q : Posting) (entries : List (Value × Nat))
    (hentries : ∀ e ∈ entries, e ∈ dropEntry same (s.buckets.cells b) ∨
      e.2 = (s.ownPosting staged b same).2 ∧ q ≠ []) : Staged s₀ i { s with
        postings := (s.ownPosting staged b same).1.set (s.ownPosting staged b same).2 q,
        buckets := s.buckets.set b entries } staged
      (Function.update f n (entries.map fun e =>
        (e.1, ((s.ownPosting staged b same).1.set (s.ownPosting staged b same).2 q).cells
          e.2))) := by
  obtain ⟨hlt, hle, -⟩ := h.ownPosting_address hb same
  obtain ⟨hrest, halone⟩ := h.ownPosting_alone hvalid hb same
  obtain ⟨hn, hfresh, hbnext⟩ := h.fresh n b hb
  have hlive : s.IsLive staged b := .inr ⟨n, hb⟩
  -- a posting that is not this one is as it was
  have hframe : ∀ c, s.IsLive staged c → ∀ e ∈ s.buckets.cells c,
      e.2 ≠ (s.ownPosting staged b same).2 →
      ((s.ownPosting staged b same).1.set (s.ownPosting staged b same).2 q).cells e.2 =
        s.postings.cells e.2 := by
    intro c hc e he hne
    exact (Function.update_of_ne hne _ _).trans (Store.writable_frame (h.postings c hc e he).1)
  have hother : ∀ c, c ≠ b → (s.buckets.set b entries).cells c = s.buckets.cells c :=
    fun c hc => Function.update_of_ne hc _ _
  have hself : (s.buckets.set b entries).cells b = entries := Function.update_self _ _ _
  have hsame : ∀ c, s.IsLive staged c → c ≠ b →
      ((s.buckets.set b entries).cells c).map (fun e => (e.1,
        ((s.ownPosting staged b same).1.set (s.ownPosting staged b same).2 q).cells e.2)) =
        s.deref c := by
    intro c hc hne
    rw [hother c hne]
    exact List.map_congr_left fun e he => by rw [hframe c hc e he (halone c hc hne e he)]
  refine ⟨h.binding, h.arrays, h.sorted, h.next, ?_, h.fresh, h.apart, ?_, ?_, ?_⟩
  · intro c hc
    exact (hother c (by omega)).trans (h.old c hc)
  · intro c hc e he
    have hc : s.IsLive staged c := hc
    by_cases hcb : c = b
    · subst hcb
      have he : e ∈ entries := by simpa [Store.set] using he
      rcases hentries e he with he | ⟨heq, hq⟩
      · have hmem := dropEntry_subset he
        obtain ⟨hlt', hne⟩ := h.postings c hc e hmem
        refine ⟨Nat.lt_of_lt_of_le hlt' hle, ?_⟩
        show ((s.ownPosting staged c same).1.set (s.ownPosting staged c same).2 q).cells e.2 ≠ []
        rw [hframe c hc e hmem (hrest e he)]
        exact hne
      · refine ⟨heq ▸ hlt, ?_⟩
        have hcell :
          ((s.ownPosting staged c same).1.set (s.ownPosting staged c same).2 q).cells e.2 =
            q := by
          rw [heq]
          exact Function.update_self _ _ _
        exact fun hempty => hq (hcell.symm.trans hempty)
    · have he : e ∈ s.buckets.cells c := by rwa [← hother c hcb]
      obtain ⟨hlt', hne⟩ := h.postings c hc e he
      refine ⟨Nat.lt_of_lt_of_le hlt' hle, ?_⟩
      show ((s.ownPosting staged b same).1.set (s.ownPosting staged b same).2 q).cells e.2 ≠ []
      rw [hframe c hc e he (halone c hc hcb e he)]
      exact hne
  · intro j m c hc
    have hcb : c ≠ b := by
      have := hvalid.buckets j m c hc
      omega
    exact (hsame c (.inl ⟨j, m, (h.pointer_eq j m).trans hc⟩) hcb).trans (h.others j m c hc)
  · intro m
    by_cases hm : m = n
    · subst hm
      rw [Function.update_self, hb]
      show _ = ((s.buckets.set b entries).cells b).map _
      rw [hself]
    · rw [Function.update_of_ne hm, h.seen m]
      cases hstaged : SortedMap.find m staged with
      | none => rfl
      | some c =>
        have hcb : c ≠ b := by
          rintro rfl
          exact hm (h.apart m n c hstaged hb)
        exact (hsame c (.inr ⟨m, hstaged⟩) hcb).symm

theorem Staged.rest_frame (same : Value → Bool) (q : Posting) :
    ∀ e ∈ dropEntry same (s.buckets.cells b),
      ((s.ownPosting staged b same).1.set (s.ownPosting staged b same).2 q).cells e.2 =
        s.postings.cells e.2 := by
  intro e he
  have hne := (h.ownPosting_alone hvalid hb same).1 e he
  have hlt := (h.postings b (.inr ⟨n, hb⟩) e (dropEntry_subset he)).1
  exact (Function.update_of_ne hne _ _).trans (Store.writable_frame hlt)

omit hvalid in
theorem Staged.seen_staged : f n = s.deref b := by
  rw [h.seen n, hb]

omit hvalid in
theorem Staged.findEntry_seen (same : Value → Bool) :
    findEntry same (f n) = (findEntry same (s.buckets.cells b)).map s.postings.cells := by
  rw [h.seen_staged hb, deref, findEntry_map]

omit h hvalid hb in
theorem ownPosting_content (s : SharedKeys) (staged : List (Nat × Nat)) (b : Nat)
    (same : Value → Bool) : (s.ownPosting staged b same).1.cells (s.ownPosting staged b same).2 =
      ((findEntry same (s.buckets.cells b)).map s.postings.cells).getD [] := by
  rw [ownPosting, Store.writable_content]
  cases findEntry same (s.buckets.cells b) <;> rfl

theorem Staged.put (same : Value → Bool) {q : Posting} (hq : q ≠ []) (key : Value) :
    Staged s₀ i { s with
        postings := (s.ownPosting staged b same).1.set (s.ownPosting staged b same).2 q,
        buckets := s.buckets.set b
          (putEntry same key (s.ownPosting staged b same).2 (s.buckets.cells b)) } staged
      (Function.update f n (putEntry same key q (f n))) := by
  have hwrite := h.write hvalid hb q
    (putEntry same key (s.ownPosting staged b same).2 (s.buckets.cells b))
    fun e he => (mem_putEntry he).symm.imp id fun heq => ⟨heq, hq⟩
  rw [putEntry_map (h.rest_frame hvalid hb same q)] at hwrite
  rw [h.seen_staged hb]
  have hself : ((s.ownPosting staged b same).1.set (s.ownPosting staged b same).2 q).cells
      (s.ownPosting staged b same).2 = q := Function.update_self _ _ _
  rw [hself] at hwrite
  exact hwrite

theorem Staged.addTo (same : Value → Bool) (key : Value) (l : RowLocation) :
    Staged s₀ i (s.addTo staged b same key l) staged (Function.update f n
        (putEntry same key (Posting.add l ((findEntry same (f n)).getD [])) (f n))) := by
  have hput := h.put hvalid hb same
    (Posting.add_ne_nil ((findEntry same (f n)).getD []) l) key
  rw [h.findEntry_seen hb same, ← ownPosting_content s staged] at hput ⊢
  exact hput

theorem Staged.removeFrom (x : KeyIndex) (key : Value) (l : RowLocation) :
    Staged s₀ i (s.removeFrom staged b (fun k => x.equal k key) key l) staged
      (Function.update f n (x.removeKey key l (f n))) := by
  have hfound := h.findEntry_seen hb fun k => x.equal k key
  rw [SharedKeys.removeFrom]
  cases hp : findEntry (fun k => x.equal k key) (s.buckets.cells b) with
  | none =>
    rw [hp] at hfound
    rw [KeyIndex.removeKey_of_none hfound, Function.update_eq_self]
    exact h
  | some p =>
    rw [hp, Option.map_some] at hfound
    have hown : s.postings.writable [] (some p) (s.uses staged p) =
        s.ownPosting staged b fun k => x.equal k key := by
      rw [ownPosting, hp]
      rfl
    have hcontent := ownPosting_content s staged b fun k => x.equal k key
    rw [hp, Option.map_some, Option.getD_some] at hcontent
    have hnonempty : s.postings.cells p ≠ [] := by
      have hcount := countP_dropEntry hp
      have hpos : 0 < (s.buckets.cells b).countP fun e => e.2 == p := by omega
      obtain ⟨e, he, heq⟩ := List.countP_pos_iff.mp hpos
      have heq : e.2 = p := by simpa using heq
      exact heq ▸ (h.postings b (.inr ⟨n, hb⟩) e he).2
    dsimp only
    rw [KeyIndex.removeKey_of_some hfound, hown, hcontent]
    cases hblock : SortedMap.find l.block (s.postings.cells p) with
    | none =>
      -- the posting was made writable and left as it is
      dsimp only
      have hsame : Posting.remove l (s.postings.cells p) = s.postings.cells p := by
        rw [Posting.remove, hblock]
      rw [hsame, if_neg (by simpa using hnonempty)]
      have hput := h.put hvalid hb (fun k => x.equal k key) hnonempty key
      have hset : (s.ownPosting staged b fun k => x.equal k key).1.set
          (s.ownPosting staged b fun k => x.equal k key).2 (s.postings.cells p) =
          (s.ownPosting staged b fun k => x.equal k key).1 := by
        rw [← hcontent, Store.set, Function.update_eq_self]
      rw [hset] at hput
      exact hput
    | some mask =>
      dsimp only
      split
      · next hempty =>
          rw [dropEntry_putEntry (by rw [hp]; rfl)]
          have hwrite := h.write hvalid hb (Posting.remove l (s.postings.cells p))
            (dropEntry (fun k => x.equal k key) (s.buckets.cells b)) fun e he => .inl he
          rw [dropEntry_map (h.rest_frame hvalid hb _ _)] at hwrite
          rw [h.seen_staged hb]
          exact hwrite
      · next hleft => exact h.put hvalid hb _ (by simpa using hleft) key

end Write

/-! ## A change -/

def toShow (s₀ : SharedKeys) (i : Nat) (f : Nat → List (Value × Posting)) : KeyIndex :=
  { s₀.index i with buckets := f }

theorem number_lt (x : KeyIndex) (key : Value) : x.number key < bucketCount := by
  rw [KeyIndex.number]
  split
  · exact Nat.mod_lt _ (by decide)
  · decide

theorem Staged.changeKey (h : Staged s₀ i s staged f) (hvalid : s₀.Valid) (l : RowLocation)
    (inserting : Bool) (key : Value) :
    ∃ f', KeyIndex.changeKey inserting l (s₀.toShow i f) key = s₀.toShow i f' ∧
      Staged s₀ i (SharedKeys.changeKey i l inserting (s, staged) key).1
        (SharedKeys.changeKey i l inserting (s, staged) key).2 f' := by
  have hnumber : (s.index i).number key = (s₀.toShow i f).number key := by
    rw [KeyIndex.number, KeyIndex.number]
    simp only [index, toShow, h.binding.1, h.binding.2]
  have hequal : ∀ k, (s.index i).equal k key = (s₀.toShow i f).equal k key := by
    intro k
    rw [KeyIndex.equal, KeyIndex.equal]
    simp only [index, toShow, h.binding.1, h.binding.2]
  obtain ⟨hstaged, hfind⟩ := h.stage hvalid (number_lt (s₀.toShow i f) key)
  refine ⟨_, rfl, ?_⟩
  rw [SharedKeys.changeKey]
  simp only [hnumber, hequal]
  cases inserting with
  | true =>
    rw [if_pos rfl, if_pos rfl, KeyIndex.addKey_eq_putEntry]
    exact hstaged.addTo hvalid hfind _ key l
  | false =>
    rw [if_neg (by simp), if_neg (by simp)]
    exact hstaged.removeFrom hvalid hfind _ key l

theorem Staged.changeKeys (hvalid : s₀.Valid) (l : RowLocation) (inserting : Bool)
    (keys : List Value)
    (h : Staged s₀ i s staged f) :
    ∃ f', keys.foldl (KeyIndex.changeKey inserting l) (s₀.toShow i f) = s₀.toShow i f' ∧
      Staged s₀ i (keys.foldl (SharedKeys.changeKey i l inserting) (s, staged)).1
        (keys.foldl (SharedKeys.changeKey i l inserting) (s, staged)).2 f' := by
  induction keys generalizing s staged f with
  | nil => exact ⟨f, rfl, h⟩
  | cons key keys ih =>
    obtain ⟨f', hvalue, hstaged⟩ := h.changeKey hvalid l inserting key
    rw [List.foldl_cons, List.foldl_cons, hvalue]
    exact ih hstaged

theorem pointer_install (hi : i < s.arrays.length) (j n : Nat) : (s.install i staged).pointer j n =
      if j = i then (SortedMap.find n staged).or (s.pointer i n) else s.pointer j n := by
  rw [pointer, install, pointer]
  dsimp only
  rw [List.getElem?_modify]
  split
  · next hj =>
      subst hj
      rw [List.getElem?_eq_getElem hi]
      simp
  · next hj =>
      rw [pointer]
      cases s.arrays[j]? <;> simp [Ne.symm hj]

def system : Copies.System SharedKeys KeyIndex where
  valid := Valid
  count s := s.arrays.length
  view := index

/-- What was staged is shown once it is installed, and the other indexes are as they were. -/
theorem Staged.install (h : Staged s₀ i s staged f) (hvalid : s₀.Valid)
    (hi : i < s₀.arrays.length) :
    (s.install i staged).Valid ∧ (s.install i staged).arrays.length = s₀.arrays.length ∧
      ∀ j, (s.install i staged).index j = if j = i then s₀.toShow i f else s₀.index j := by
  have hi' : i < s.arrays.length := by rw [h.arrays]; exact hi
  have hlive : ∀ j n b, (s.install i staged).pointer j n = some b → s.IsLive staged b := by
    intro j n b hb
    rw [pointer_install hi'] at hb
    split at hb
    · rw [Option.or_eq_some_iff] at hb
      rcases hb with hb | ⟨-, hb⟩
      · exact .inr ⟨n, hb⟩
      · exact .inl ⟨i, n, hb⟩
    · exact .inl ⟨j, n, hb⟩
  refine ⟨⟨?_, ?_, fun j n b hb => h.postings b (hlive j n b hb)⟩, ?_, fun j => ?_⟩
  · intro j n b hb
    rw [pointer_install hi', h.pointer_eq, h.pointer_eq] at hb
    split at hb
    · rw [Option.or_eq_some_iff] at hb
      rcases hb with hb | ⟨-, hb⟩
      · exact (h.fresh n b hb).1
      · exact hvalid.width i n b hb
    · exact hvalid.width j n b hb
  · intro j n b hb
    rcases hlive j n b hb with ⟨j', n', hb⟩ | ⟨n', hb⟩
    · exact Nat.lt_of_lt_of_le (hvalid.buckets j' n' b (h.pointer_eq j' n' ▸ hb)) h.next
    · exact (h.fresh n' b hb).2.2
  · rw [SharedKeys.install, ← h.arrays]
    exact List.length_modify ..
  · have hbuckets : ((s.install i staged).index j).buckets =
        if j = i then f else (s₀.index j).buckets := by
      funext n
      show (((s.install i staged).pointer j n).map s.deref).getD [] = _
      have hold : ∀ p, (∃ j n, s₀.pointer j n = p) → (p.map s.deref).getD [] =
        (p.map s₀.deref).getD [] := by
        rintro p ⟨j, n, rfl⟩
        cases hp : s₀.pointer j n with
        | none => rfl
        | some b => exact h.others j n b hp
      rw [pointer_install hi', h.pointer_eq, h.pointer_eq]
      split
      · rw [h.seen n]
        cases SortedMap.find n staged with
        | none => exact hold _ ⟨i, n, rfl⟩
        | some b => rfl
      · exact hold _ ⟨j, n, rfl⟩
    have hindex : (s.install i staged).index j =
        { s₀.index j with buckets := ((s.install i staged).index j).buckets } := by
      show KeyIndex.mk s.extractor s.addon _ = KeyIndex.mk s₀.extractor s₀.addon _
      rw [h.binding.1, h.binding.2]
      rfl
    rw [hindex, hbuckets]
    split <;> rfl

theorem Valid.change (hs : s.Valid) (hi : i < s.arrays.length) (v : Value) (l : RowLocation)
    (inserting : Bool) :
    system.Does s i ((s.index i).change v l inserting) (s.change i v l inserting) := by
  rw [SharedKeys.change, KeyIndex.change]
  cases hkeys : (s.index i).keys v with
  | error e =>
    refine ⟨hs, rfl, rfl, fun j => ?_⟩
    show s.index j = if j = i then s.index i else s.index j
    split
    · next hj => rw [hj]
    · rfl
  | ok keys =>
    obtain ⟨f, hvalue, hstaged⟩ := (hs.start i).changeKeys hs l inserting keys
    obtain ⟨hvalid, hlength, hshows⟩ := hstaged.install hs hi
    have hfold : keys.foldl (KeyIndex.changeKey inserting l) (s.index i) = s.toShow i f := hvalue
    refine ⟨hvalid, hlength, rfl, fun j => ?_⟩
    refine (hshows j).trans ?_
    split
    · exact hfold.symm
    · rfl

theorem Valid.clone (hs : s.Valid) (hi : i < s.arrays.length) : system.Clones s i (s.clone i) := by
  have hpointer : ∀ j n, (s.clone i).pointer j n =
      if j = s.arrays.length then s.pointer i n else s.pointer j n := by
    intro j n
    exact Arrays.pointer_clone (c := { store := s.buckets, arrays := s.arrays }) hi
  refine ⟨⟨?_, ?_, ?_⟩, ?_, fun j => ?_⟩
  · intro j n b hb
    rw [hpointer] at hb
    split at hb
    · exact hs.width i n b hb
    · exact hs.width j n b hb
  · intro j n b hb
    rw [hpointer] at hb
    split at hb
    · exact hs.buckets i n b hb
    · exact hs.buckets j n b hb
  · intro j n b hb
    rw [hpointer] at hb
    split at hb
    · exact hs.postings i n b hb
    · exact hs.postings j n b hb
  · exact Arrays.length_clone (c := { store := s.buckets, arrays := s.arrays }) hi
  · show (s.clone i).index j = if j = s.arrays.length then s.index i else s.index j
    rw [index]
    simp only [hpointer]
    split <;> rfl

def act (x : KeyIndex) : KeyIndexOperation → Except Error KeyIndex
  | .insert v l => x.change v l true
  | .erase v l => x.change v l false

theorem Valid.run (hs : s.Valid) (commands : List (Copies.Command KeyIndexOperation)) :
    (s.run commands).1 = (Copies.run act s.indexes commands).1 ∧
      (s.run commands).2.indexes = (Copies.run act s.indexes commands).2 := by
  refine system.run_views (fun s i hs hi => Valid.clone hs hi) (fun s i op hs hi => ?_) hs commands
  cases op with
  | insert v l => exact Valid.change hs hi v l true
  | erase v l => exact Valid.change hs hi v l false

theorem make_valid (x : KeyIndex) : (make x).Valid := by
  have hnone : ∀ i n, (make x).pointer i n = none := by
    intro i n
    cases i <;> rfl
  refine ⟨?_, ?_, ?_⟩ <;> intro i n b hb <;> rw [hnone] at hb <;> cases hb

end SharedKeys

/-! ## What a clone answers -/

theorem Posting.Ok.locations_sorted {p : Posting} (h : p.Ok) : p.locations.Pairwise (· < ·) := by
  rw [Posting.locations, List.pairwise_flatMap]
  constructor
  · intro e _
    rw [List.pairwise_map]
    refine (List.pairwise_lt_range.filter _).imp fun hij => ?_
    exact RowLocation.lt_iff.mpr (.inr ⟨rfl, by simp only; omega⟩)
  · refine List.Pairwise.imp_of_mem (fun {a b} ha hb hab x hx y hy => ?_) h.sorted
    obtain ⟨i, hi, rfl⟩ := List.mem_map.mp hx
    obtain ⟨j, -, rfl⟩ := List.mem_map.mp hy
    have hi := List.mem_range.mp (List.mem_filter.mp hi).1
    have haligned := congrArg RowLocation.slot (h.aligned a ha)
    have haligned' := congrArg RowLocation.slot (h.aligned b hb)
    simp only [RowLocation.block] at haligned haligned'
    rw [RowLocation.lt_iff]
    rcases RowLocation.lt_iff.mp hab with hchunk | ⟨hchunk, hslot⟩
    · exact .inl hchunk
    · exact .inr ⟨hchunk, by simp only; omega⟩

namespace KeyIndex

variable {registry : Registry} {x₀ x x' : KeyIndex} {m : List (Value × RowLocation)} {v : Value}

theorem searchWords_eq (x : KeyIndex) (key : Value) : x.searchWords key = x.search key := by
  rw [searchWords, search]
  cases x.findKey key (x.buckets (x.number key)) with
  | none => rfl
  | some p => simp only [Posting.scan_eq]

theorem Fits.search_sorted (h : x.Fits registry) (key : Value) :
    (x.search key).rows.Pairwise (· < ·) := by
  rw [search]
  cases hfind : x.findKey key (x.buckets (x.number key)) with
  | none => exact List.Pairwise.nil
  | some p =>
    obtain ⟨k, hk, -⟩ := findKey_mem hfind
    exact ((h.buckets _).postings _ hk).1.locations_sorted

/-- The reference: a document at a location, unless its keys cannot be extracted. -/
def reference (x : KeyIndex) (m : List (Value × RowLocation)) :
    KeyIndexOperation → Except Unit (List (Value × RowLocation))
  | .insert v l =>
    match x.keys v with
    | .error _ => .error ()
    | .ok _ => .ok ((v, l) :: m)
  | .erase v l =>
    match x.keys v with
    | .error _ => .error ()
    | .ok _ => .ok (m.filter fun e => e.2 ≠ l)

/-- A location holds at most one document, and is erased with the document it holds. -/
def Permits (m : List (Value × RowLocation)) : KeyIndexOperation → Prop
  | .insert _ l => ∀ e ∈ m, e.2 ≠ l
  | .erase v l => (v, l) ∈ m

/-- A clone of a key index, and the documents it holds. -/
structure Clone (registry : Registry) (x₀ x : KeyIndex) (m : List (Value × RowLocation)) :
    Prop where
  same : x = { x₀ with buckets := x.buckets }
  holds : x.Holds registry m
  locations : (m.map Prod.snd).Nodup

theorem Clone.keys_eq (h : Clone registry x₀ x m) (v : Value) : x.keys v = x₀.keys v := by
  rw [h.same]
  rfl

theorem change_eq {inserting : Bool} (h : x.change v l inserting = .ok x') :
    x' = { x with buckets := x'.buckets } := by
  obtain ⟨keys, -, h⟩ := Fallible.bind_eq_ok.mp h
  have hfold : ∀ (keys : List Value) (y : KeyIndex), y = { x with buckets := y.buckets } →
      keys.foldl (changeKey inserting l) y =
        { x with buckets := (keys.foldl (changeKey inserting l) y).buckets } := by
    intro keys
    induction keys with
    | nil => exact fun y hy => hy
    | cons key keys ih =>
      intro y hy
      rw [List.foldl_cons]
      refine ih _ ?_
      rw [hy]
      rfl
  rw [← Except.ok.inj h]
  exact hfold keys x rfl

section

variable (hlawful : registry.Lawful)
include hlawful

theorem Clone.insert (h : Clone registry x₀ x m)
    (hl : ∀ e ∈ m, e.2 ≠ l) (hins : x.change v l true = .ok x') :
    Clone registry x₀ x' ((v, l) :: m) := by
  refine ⟨?_, h.holds.insert hlawful hins, ?_⟩
  · rw [change_eq hins, h.same]
  · refine List.nodup_cons.mpr ⟨fun hmem => ?_, h.locations⟩
    obtain ⟨e, he, heq⟩ := List.mem_map.mp hmem
    exact hl e he heq

theorem Clone.erase (h : Clone registry x₀ x m) (hmem : (v, l) ∈ m)
    (hdel : x.change v l false = .ok x') : Clone registry x₀ x' (m.filter fun e => e.2 ≠ l) := by
  obtain ⟨before, after, rfl⟩ := List.append_of_mem hmem
  have hnodup : ((v, l) :: (before ++ after)).map Prod.snd |>.Nodup :=
    ((List.perm_middle.map Prod.snd).nodup_iff).mp h.locations
  rw [List.map_cons, List.nodup_cons] at hnodup
  have hrest : (before ++ (v, l) :: after).filter (fun e => e.2 ≠ l) = before ++ after := by
    have hother : ∀ e ∈ before ++ after, decide (e.2 ≠ l) = true := by
      intro e he
      have hne : e.2 ≠ l := fun heq => hnodup.1 (List.mem_map.mpr ⟨e, he, heq⟩)
      simpa using hne
    rw [List.filter_append, List.filter_cons_of_neg (by simp), ← List.filter_append,
      List.filter_eq_self.mpr hother]
  rw [hrest]
  refine ⟨?_, (h.holds.perm List.perm_middle).erase hlawful hnodup.1 hdel, hnodup.2⟩
  rw [change_eq hdel, h.same]

theorem simulates (x₀ : KeyIndex) :
    Copies.Simulates (Clone registry x₀) Permits SharedKeys.act x₀.reference where
  succeeds := by
    intro x m op m' h hop href
    cases op with
    | insert v l =>
      rw [reference] at href
      cases hkeys : x₀.keys v with
      | error e => simp [hkeys] at href
      | ok keys =>
        rw [hkeys] at href
        cases href
        obtain ⟨x', hins⟩ : ∃ x', x.change v l true = .ok x' :=
          ⟨_, by rw [change, h.keys_eq, hkeys]; rfl⟩
        exact ⟨x', hins, h.insert hlawful hop hins⟩
    | erase v l =>
      rw [reference] at href
      cases hkeys : x₀.keys v with
      | error e => simp [hkeys] at href
      | ok keys =>
        rw [hkeys] at href
        cases href
        obtain ⟨x', hdel⟩ : ∃ x', x.change v l false = .ok x' :=
          ⟨_, by rw [change, h.keys_eq, hkeys]; rfl⟩
        exact ⟨x', hdel, h.erase hlawful hop hdel⟩
  fails := by
    intro x m op u h hop href
    cases op with
    | insert v l =>
      rw [reference] at href
      cases hkeys : x₀.keys v with
      | error e => exact ⟨e, by rw [SharedKeys.act, change, h.keys_eq, hkeys]; rfl⟩
      | ok keys => simp [hkeys] at href
    | erase v l =>
      rw [reference] at href
      cases hkeys : x₀.keys v with
      | error e => exact ⟨e, by rw [SharedKeys.act, change, h.keys_eq, hkeys]; rfl⟩
      | ok keys => simp [hkeys] at href

end

end KeyIndex

/-- Every integer is a document that yields itself, twice. -/
def twiceExtractor : KeyExtractor where
  sourceType := integerType
  keyType := integerType
  extract v := .ok [v, v]

end CoreSql
