import CoreSql.Proofs.UniqueIndex
import Mathlib.Data.BitVec

/-!
# What an extracted-key index holds

An index of extracted keys answers, for a key and a location, whether the
row there yields the key. `Holds` says that the answer is right for every
key of the type, and `Fits` that the buckets are in the one shape a set of
answers can be stored in: no two equal keys, no empty posting, no empty mask,
every mask at the start of its block.

A removal clears what an insertion set only if no other row is at the
location; two rows never are.
-/

namespace CoreSql

/-! ## Postings -/

namespace Posting

variable {p q : Posting} {l m b : RowLocation} {i : Nat}

def has (p : Posting) (l : RowLocation) : Bool :=
  ((SortedMap.find l.block p).getD 0).getLsbD (l.slot % 128)

/-- Masks in order, each at the start of its block, none of them empty. -/
structure Ok (p : Posting) : Prop where
  sorted : SortedMap.Sorted p
  aligned : ∀ e ∈ p, e.1.block = e.1
  nonzero : ∀ e ∈ p, e.2 ≠ 0

theorem ok_nil : Ok [] := ⟨SortedMap.sorted_nil, by simp, by simp⟩

theorem block_block (l : RowLocation) : l.block.block = l.block := by
  simp only [RowLocation.block, RowLocation.mk.injEq, true_and]
  omega

theorem eq_iff_block_bit : l = m ↔ l.block = m.block ∧ l.slot % 128 = m.slot % 128 := by
  obtain ⟨c, s⟩ := l
  obtain ⟨c', s'⟩ := m
  simp only [RowLocation.block, RowLocation.mk.injEq]
  omega

theorem getLsbD_bit (l : RowLocation) (i : Nat) : l.bit.getLsbD i = decide (l.slot % 128 = i) := by
  have hlt : l.slot % 128 < 128 := Nat.mod_lt _ (by decide)
  rw [RowLocation.bit, BitVec.getLsbD_twoPow, decide_eq_true hlt, Bool.true_and]

theorem has_add (p : Posting) (l m : RowLocation) :
    (p.add l).has m = (p.has m || decide (m = l)) := by
  have hbit := getLsbD_bit l (m.slot % 128)
  rw [has, add, SortedMap.find_insert]
  by_cases hblock : m.block = l.block
  · rw [if_pos hblock, Option.getD_some, BitVec.getLsbD_or, hbit, has, hblock]
    congr 1
    simp [eq_iff_block_bit, hblock, eq_comm]
  · rw [if_neg hblock]
    simp [has, eq_iff_block_bit, hblock]

theorem add_ne_nil (p : Posting) (l : RowLocation) : p.add l ≠ [] := by
  intro h
  have := has_add p l l
  rw [h] at this
  simp [has] at this

theorem Ok.add (h : p.Ok) (l : RowLocation) : (p.add l).Ok := by
  refine ⟨h.sorted.insert, fun e he => ?_, fun e he => ?_⟩
  · rcases SortedMap.mem_insert he with rfl | he
    · exact block_block l
    · exact h.aligned e he
  · rcases SortedMap.mem_insert he with rfl | he
    · intro h0
      have hset : ((SortedMap.find l.block p).getD 0 ||| l.bit).getLsbD (l.slot % 128) = true := by
        rw [BitVec.getLsbD_or, getLsbD_bit]
        simp
      simp only at h0
      rw [h0] at hset
      simp at hset
    · exact h.nonzero e he

theorem has_remove (p : Posting) (l m : RowLocation) :
    (p.remove l).has m = (p.has m && !decide (m = l)) := by
  have hlt : m.slot % 128 < 128 := Nat.mod_lt _ (by decide)
  have hbit := getLsbD_bit l (m.slot % 128)
  rw [remove]
  cases hfind : SortedMap.find l.block p with
  | none =>
    -- Nothing is set in this block.
    by_cases hm : m = l
    · subst hm
      simp [has, hfind]
    · simp [hm]
  | some mask =>
    have hmask : (mask &&& ~~~l.bit).getLsbD (m.slot % 128) =
        (mask.getLsbD (m.slot % 128) && !decide (l.slot % 128 = m.slot % 128)) := by
      rw [BitVec.getLsbD_and, BitVec.getLsbD_not, hbit]
      simp [hlt]
    by_cases hblock : m.block = l.block
    · have hsame : decide (m = l) = decide (l.slot % 128 = m.slot % 128) := by
        simp [eq_iff_block_bit, hblock, eq_comm]
      rw [hsame]
      simp only
      split
      · next h0 =>
          rw [h0] at hmask
          rw [has, hblock, SortedMap.find_erase_self, has, hblock, hfind, Option.getD_some, ← hmask]
          rfl
      · rw [has, hblock, SortedMap.find_insert, if_pos rfl, has, hblock, hfind, Option.getD_some,
          Option.getD_some, hmask]
    · have hne : decide (m = l) = false := by simp [eq_iff_block_bit, hblock]
      rw [hne]
      simp only
      split
      · simp [has, SortedMap.find_erase_of_ne hblock]
      · simp [has, SortedMap.find_insert, hblock]

theorem Ok.remove (h : p.Ok) (l : RowLocation) : (p.remove l).Ok := by
  rw [Posting.remove]
  split
  · exact h
  · simp only
    split
    · exact ⟨h.sorted.erase, fun e he => h.aligned e (SortedMap.mem_erase.mp he).1,
        fun e he => h.nonzero e (SortedMap.mem_erase.mp he).1⟩
    · next hne =>
        refine ⟨h.sorted.insert, fun e he => ?_, fun e he => ?_⟩
        · rcases SortedMap.mem_insert he with rfl | he
          · exact block_block l
          · exact h.aligned e he
        · rcases SortedMap.mem_insert he with rfl | he
          · exact hne
          · exact h.nonzero e he

theorem block_add (h : b.block = b) (hi : i < 128) :
    (⟨b.chunk, b.slot + i⟩ : RowLocation).block = b ∧ (b.slot + i) % 128 = i := by
  obtain ⟨c, s⟩ := b
  simp only [RowLocation.block, RowLocation.mk.injEq, true_and] at h ⊢
  omega

theorem has_of_mem (h : p.Ok) {e : RowLocation × Mask} (he : e ∈ p) (hi : i < 128) :
    p.has ⟨e.1.chunk, e.1.slot + i⟩ = e.2.getLsbD i := by
  obtain ⟨hblock, hmod⟩ := block_add (h.aligned e he) hi
  rw [has, hblock, h.sorted.find_of_mem he]
  simp only [hmod, Option.getD_some]

end Posting

/-! ## Buckets -/

namespace KeyIndex

variable {registry : Registry} {x : KeyIndex} {n : Nat} {key w v : Value} {l : RowLocation}
  {b : List (Value × Posting)} {f : Option Posting → Option Posting}

abbrev IsKey (x : KeyIndex) (registry : Registry) : Value → Prop :=
  registry.Key x.extractor.keyType

/-- The callbacks are those of the registered key type. -/
def Registered (registry : Registry) (x : KeyIndex) : Prop :=
  ∃ equal hash, registry.Keyed x.extractor.keyType x.addon equal ∧ x.addon.hash = some hash

/-- A bucket in the shape every set of answers has exactly once. -/
structure BucketOk (registry : Registry) (x : KeyIndex) (n : Nat) (b : List (Value × Posting)) :
    Prop where
  keys : ∀ e ∈ b, x.IsKey registry e.1 ∧ x.number e.1 = n
  apart : b.Pairwise fun a c => x.equal a.1 c.1 = false
  postings : ∀ e ∈ b, e.2.Ok ∧ e.2 ≠ []

theorem Registered.equal_eq (h : x.Registered registry) (a c : Value) :
    x.equal a c = registry.sameKey x.extractor.keyType a c := by
  obtain ⟨equal, hash, hkeyed, -⟩ := h
  rw [KeyIndex.equal, hkeyed.sameKey_eq]
  simp only [hkeyed.comparable]

section Lawful

variable (hlawful : registry.Lawful) (hr : x.Registered registry)
include hlawful hr

theorem Registered.symm (hv : x.IsKey registry v) (hw : x.IsKey registry w)
    (h : x.equal v w = true) : x.equal w v = true := by
  obtain ⟨equal, hash, hkeyed, -⟩ := id hr
  rw [hr.equal_eq] at h ⊢
  exact hkeyed.sameKey_symm hlawful hv hw h

theorem Registered.trans (hkey : x.IsKey registry key) (hv : x.IsKey registry v)
    (hw : x.IsKey registry w) (h : x.equal key v = true) (h' : x.equal v w = true) :
    x.equal key w = true := by
  obtain ⟨equal, hash, hkeyed, -⟩ := id hr
  rw [hr.equal_eq] at h h' ⊢
  exact hkeyed.sameKey_trans hlawful hkey hv hw h h'

theorem Registered.number_eq (hv : x.IsKey registry v) (hw : x.IsKey registry w)
    (h : x.equal v w = true) : x.number v = x.number w := by
  obtain ⟨equal, hash, hkeyed, hhash⟩ := id hr
  rw [hr.equal_eq, hkeyed.sameKey_eq] at h
  simp only [number, hhash]
  rw [(hlawful _ _ hkeyed.registered hkeyed.allowed).hash_equal hhash hkeyed.comparable
    (hkeyed.accepts hv) (hkeyed.accepts hw) h]

end Lawful

/-- Both changes to a bucket: change the posting of a key, which is dropped
when nothing is left. -/
def alterKey (x : KeyIndex) (key : Value) (f : Option Posting → Option Posting) :
    List (Value × Posting) → List (Value × Posting)
  | [] => (f none).toList.map fun p => (key, p)
  | (k, p) :: rest =>
    if x.equal k key then (f (some p)).toList.map (fun p => (k, p)) ++ rest
    else (k, p) :: alterKey x key f rest

/-- What happens to the posting of a changed key. -/
def alterPosting (inserting : Bool) (l : RowLocation) (p : Option Posting) : Option Posting :=
  if inserting then some ((p.getD []).add l)
  else p.bind fun p => if (p.remove l).isEmpty then none else some (p.remove l)

theorem addKey_eq (b : List (Value × Posting)) :
    x.addKey key l b = x.alterKey key (alterPosting true l) b := by
  induction b with
  | nil => rfl
  | cons e rest ih =>
    rw [addKey, alterKey, ih]
    rfl

theorem removeKey_eq (b : List (Value × Posting)) :
    x.removeKey key l b = x.alterKey key (alterPosting false l) b := by
  induction b with
  | nil => rfl
  | cons e rest ih =>
    rw [removeKey, alterKey, ih]
    split
    · simp only [alterPosting, Bool.false_eq_true, if_false, Option.bind_some]
      split <;> rfl
    · rfl

theorem has_alterPosting (inserting : Bool) (l m : RowLocation) (p : Option Posting) :
    ((alterPosting inserting l p).getD []).has m =
      if m = l then inserting else (p.getD []).has m := by
  rw [alterPosting]
  cases inserting with
  | true =>
    simp only [if_true, Option.getD_some, Posting.has_add]
    by_cases h : m = l <;> simp [h]
  | false =>
    simp only [Bool.false_eq_true, if_false]
    cases p with
    | none => simp [Posting.has]
    | some p =>
      have hremove := Posting.has_remove p l m
      simp only [Option.bind_some, Option.getD_some]
      split
      · next hempty =>
          rw [List.isEmpty_iff.mp hempty] at hremove
          by_cases h : m = l
          · simp [h, Posting.has]
          · simpa [h] using hremove
      · rw [Option.getD_some, hremove]
        by_cases h : m = l <;> simp [h]

theorem alterPosting_ok {inserting : Bool} {p : Option Posting}
    (hp : ∀ q ∈ p, q.Ok ∧ q ≠ []) {q : Posting} (hq : q ∈ alterPosting inserting l p) :
    q.Ok ∧ q ≠ [] := by
  rw [alterPosting] at hq
  cases inserting with
  | true =>
    obtain rfl : (p.getD []).add l = q := by simpa using hq
    have hok : (p.getD []).Ok := by
      cases p with
      | none => exact Posting.ok_nil
      | some p => exact (hp p rfl).1
    exact ⟨hok.add l, Posting.add_ne_nil _ l⟩
  | false =>
    cases p with
    | none => simp at hq
    | some p =>
      simp only [Bool.false_eq_true, if_false, Option.bind_some] at hq
      split at hq
      · cases hq
      · next hne =>
          cases hq
          exact ⟨(hp p rfl).1.remove l, by simpa using hne⟩

theorem findKey_mem {p : Posting} (h : x.findKey key b = some p) :
    ∃ k, (k, p) ∈ b ∧ x.equal k key = true := by
  induction b with
  | nil => cases h
  | cons e rest ih =>
    rw [findKey] at h
    split at h
    · next heq =>
        cases h
        exact ⟨e.1, List.mem_cons_self, heq⟩
    · obtain ⟨k, hk, heq⟩ := ih h
      exact ⟨k, List.mem_cons_of_mem _ hk, heq⟩

theorem findKey_buckets (x : KeyIndex) (buckets : Nat → List (Value × Posting)) (key : Value)
    (b : List (Value × Posting)) : findKey { x with buckets } key b = x.findKey key b := by
  induction b with
  | nil => rfl
  | cons e rest ih =>
    rw [findKey, findKey, ih]
    rfl

theorem findKey_eq_none (h : ∀ e ∈ b, x.equal e.1 key = false) : x.findKey key b = none := by
  induction b with
  | nil => rfl
  | cons e rest ih =>
    rw [findKey, if_neg (by simp [h e List.mem_cons_self])]
    exact ih fun e he => h e (List.mem_cons_of_mem _ he)

theorem mem_alterKey {e : Value × Posting}
    (he : e ∈ x.alterKey key f b) : e ∈ b ∨ (e.1 = key ∨ ∃ p, (e.1, p) ∈ b) ∧
      ∃ p, (p = none ∨ ∃ q, p = some q ∧ ∃ k, (k, q) ∈ b) ∧ e.2 ∈ f p := by
  induction b with
  | nil =>
    obtain ⟨p, hp, rfl⟩ := List.mem_map.mp he
    exact .inr ⟨.inl rfl, none, .inl rfl, by simpa using hp⟩
  | cons c rest ih =>
    rw [alterKey] at he
    split at he
    · rcases List.mem_append.mp he with he | he
      · obtain ⟨p, hp, rfl⟩ := List.mem_map.mp he
        exact .inr ⟨.inr ⟨c.2, List.mem_cons_self⟩, some c.2,
          .inr ⟨c.2, rfl, c.1, List.mem_cons_self⟩, by simpa using hp⟩
      · exact .inl (List.mem_cons_of_mem _ he)
    · rcases List.mem_cons.mp he with rfl | he
      · exact .inl List.mem_cons_self
      · rcases ih he with he | ⟨hk, p, hp, hep⟩
        · exact .inl (List.mem_cons_of_mem _ he)
        · refine .inr ⟨?_, p, ?_, hep⟩
          · exact hk.imp_right fun ⟨q, hq⟩ => ⟨q, List.mem_cons_of_mem _ hq⟩
          · exact hp.imp_right fun ⟨q, hq, k, hk⟩ => ⟨q, hq, k, List.mem_cons_of_mem _ hk⟩

/-- After a change the changed key finds the new posting, every other key
what it found before. -/
theorem BucketOk.findKey_alterKey (hlawful : registry.Lawful) (hr : x.Registered registry)
    (hb : BucketOk registry x n b) (hkey : x.IsKey registry key)
    (f : Option Posting → Option Posting) (hw : x.IsKey registry w) :
    x.findKey w (x.alterKey key f b) =
      if x.equal key w then f (x.findKey key b) else x.findKey w b := by
  induction b with
  | nil =>
    rw [alterKey]
    cases hf : f none with
    | none => simp [findKey, hf]
    | some p => simp [findKey, hf]
  | cons c rest ih =>
    obtain ⟨hapart, hrest⟩ := List.pairwise_cons.mp hb.apart
    have hc := (hb.keys c List.mem_cons_self).1
    rw [alterKey]
    by_cases hck : x.equal c.1 key = true
    · rw [if_pos hck]
      have hfound : x.findKey key (c :: rest) = some c.2 := by rw [findKey, if_pos hck]
      rw [hfound]
      by_cases hkw : x.equal key w = true
      · -- The rest of the bucket has no key equal to this one.
        have hcw := hr.trans hlawful hc hkey hw hck hkw
        rw [if_pos hkw]
        cases hf : f (some c.2) with
        | some p => simp [findKey, hcw]
        | none =>
          refine findKey_eq_none fun e he => ?_
          have hew := hapart e he
          have he' := (hb.keys e (List.mem_cons_of_mem _ he)).1
          rw [Bool.eq_false_iff] at hew ⊢
          exact fun h => hew (hr.trans hlawful hc hw he' hcw (hr.symm hlawful he' hw h))
      · have hcw : x.equal c.1 w = false := by
          rw [Bool.eq_false_iff]
          exact fun h => hkw (hr.trans hlawful hkey hc hw (hr.symm hlawful hc hkey hck) h)
        rw [if_neg hkw]
        cases hf : f (some c.2) with
        | some p => simp [findKey, hcw]
        | none => simp [findKey, hcw]
    · rw [if_neg hck]
      have ih := ih ⟨fun e he => hb.keys e (List.mem_cons_of_mem _ he), hrest,
        fun e he => hb.postings e (List.mem_cons_of_mem _ he)⟩
      rw [findKey, findKey, ih, findKey, if_neg hck]
      by_cases hkw : x.equal key w = true
      · have hcw : x.equal c.1 w = false := by
          rw [Bool.eq_false_iff]
          exact fun h => hck (hr.trans hlawful hc hw hkey h (hr.symm hlawful hkey hw hkw))
        simp [hkw, hcw]
      · simp [hkw]

theorem BucketOk.alterKey (hb : BucketOk registry x n b) (hkey : x.IsKey registry key)
    (hn : x.number key = n)
    (hf : ∀ p, (∀ q ∈ p, Posting.Ok q ∧ q ≠ []) → ∀ q ∈ f p, Posting.Ok q ∧ q ≠ []) :
    BucketOk registry x n (x.alterKey key f b) := by
  refine ⟨fun e he => ?_, ?_, fun e he => ?_⟩
  · rcases mem_alterKey he with he | ⟨rfl | ⟨p, hp⟩, -⟩
    · exact hb.keys e he
    · exact ⟨hkey, hn⟩
    · exact hb.keys (e.1, p) hp
  · -- The induction is on the bucket; a new key comes last, after keys that differ.
    have hkeys := fun e he => (hb.keys e he).1
    have hapart := hb.apart
    clear hb
    induction b with
    | nil =>
      rw [KeyIndex.alterKey]
      cases f none <;> simp
    | cons c rest ih =>
      obtain ⟨hc, hrest⟩ := List.pairwise_cons.mp hapart
      rw [KeyIndex.alterKey]
      split
      · cases f (some c.2) with
        | none => simpa using hrest
        | some p => simpa using ⟨fun k q hq => hc (k, q) hq, hrest⟩
      · next hne =>
          refine List.pairwise_cons.mpr ⟨fun e he => ?_,
            ih (fun e he => hkeys e (List.mem_cons_of_mem _ he)) hrest⟩
          rcases mem_alterKey he with he | ⟨rfl | ⟨p, hp⟩, -⟩
          · exact hc e he
          · simpa using hne
          · exact hc (e.1, p) hp
  · rcases mem_alterKey he with he | ⟨-, p, hp, hep⟩
    · exact hb.postings e he
    · refine hf p (fun q hq => ?_) _ hep
      rcases hp with rfl | ⟨q', rfl, k, hk⟩
      · cases hq
      · cases hq
        exact hb.postings _ hk

theorem BucketOk.of_buckets {buckets : Nat → List (Value × Posting)}
    (h : BucketOk registry x n b) : BucketOk registry { x with buckets } n b :=
  ⟨h.keys, h.apart, h.postings⟩

/-! ## The index -/

/-- Whether the row at a location yields a key, as the index has it. -/
def has (x : KeyIndex) (key : Value) (l : RowLocation) : Bool :=
  ((x.findKey key (x.buckets (x.number key))).getD []).has l

theorem has_buckets (x : KeyIndex) (buckets : Nat → List (Value × Posting)) (key : Value)
    (l : RowLocation) :
    has { x with buckets } key l = ((x.findKey key (buckets (x.number key))).getD []).has l := by
  rw [has, findKey_buckets]
  rfl

/-- The callbacks are the key type's and every bucket is in order. -/
structure Fits (registry : Registry) (x : KeyIndex) : Prop where
  registered : x.Registered registry
  buckets : ∀ n, BucketOk registry x n (x.buckets n)

/-- A value yields a key, up to the equality of the key type. -/
def Yields (x : KeyIndex) (v w : Value) : Prop :=
  ∃ ks, x.keys v = .ok ks ∧ ∃ k ∈ ks, x.equal k w = true

structure Holds (registry : Registry) (x : KeyIndex) (entries : List (Value × RowLocation)) :
    Prop where
  fits : x.Fits registry
  extracted : ∀ e ∈ entries, ∃ ks, x.keys e.1 = .ok ks
  exact : ∀ w, x.IsKey registry w → ∀ l, x.has w l = true ↔
    ∃ v, (v, l) ∈ entries ∧ x.Yields v w

def changed (inserting : Bool) (l : RowLocation) (x : KeyIndex) (key : Value) :
    Nat → List (Value × Posting) :=
  Function.update x.buckets (x.number key)
    (x.alterKey key (alterPosting inserting l) (x.buckets (x.number key)))

theorem changeKey_eq (inserting : Bool) (l : RowLocation) (x : KeyIndex) (key : Value) :
    changeKey inserting l x key = { x with buckets := changed inserting l x key } := by
  rw [changeKey]
  cases inserting
  · simp only [Bool.false_eq_true, if_false, removeKey_eq]
    rfl
  · simp only [if_true, addKey_eq]
    rfl

theorem Fits.changeKey (hlawful : registry.Lawful) (hf : x.Fits registry)
    (hkey : x.IsKey registry key) (inserting : Bool) (l : RowLocation) :
    (changeKey inserting l x key).Fits registry ∧ ∀ w, x.IsKey registry w → ∀ m,
      (changeKey inserting l x key).has w m =
        if x.equal key w = true ∧ m = l then inserting else x.has w m := by
  have hr := hf.registered
  rw [changeKey_eq]
  constructor
  · refine ⟨hr, fun n => ?_⟩
    refine BucketOk.of_buckets (b := changed inserting l x key n) ?_
    rw [changed]
    by_cases hn : n = x.number key
    · subst hn
      rw [Function.update_self]
      exact (hf.buckets _).alterKey hkey rfl fun p hp q hq => alterPosting_ok hp hq
    · rw [Function.update_of_ne hn]
      exact hf.buckets n
  · intro w hw m
    rw [has_buckets, changed]
    by_cases hkw : x.equal key w = true
    · have hn := hr.number_eq hlawful hkey hw hkw
      rw [hn, Function.update_self, ← hn,
        (hf.buckets _).findKey_alterKey hlawful hr hkey _ hw, if_pos hkw, has_alterPosting]
      -- The two keys find the same posting.
      have hsame : x.findKey key (x.buckets (x.number key)) =
          x.findKey w (x.buckets (x.number w)) := by
        have hid := (hf.buckets (x.number key)).findKey_alterKey hlawful hr hkey id hw
        have hself : ∀ b, x.alterKey key id b = b := by
          intro b
          induction b with
          | nil => rfl
          | cons c rest ih =>
            rw [KeyIndex.alterKey, ih]
            split <;> simp
        rw [hself, if_pos hkw] at hid
        rw [← hn]
        exact hid.symm
      simp only [hkw, true_and, has, hsame]
    · simp only [hkw, false_and, if_false, Bool.false_eq_true]
      by_cases hn : x.number w = x.number key
      · rw [hn, Function.update_self, (hf.buckets _).findKey_alterKey hlawful hr hkey _ hw,
          if_neg hkw, has, hn]
      · rw [Function.update_of_ne hn, has]

theorem Fits.changeKeys (hlawful : registry.Lawful) (inserting : Bool) (l : RowLocation)
    (ks : List Value) : ∀ {x : KeyIndex}, x.Fits registry → (∀ k ∈ ks, x.IsKey registry k) →
      ∃ buckets, ks.foldl (KeyIndex.changeKey inserting l) x = { x with buckets } ∧
        Fits registry { x with buckets } ∧ ∀ w, x.IsKey registry w → ∀ m,
          has { x with buckets } w m =
            if (∃ k ∈ ks, x.equal k w = true) ∧ m = l then inserting else x.has w m := by
  induction ks with
  | nil =>
    intro x hf _
    exact ⟨x.buckets, rfl, hf, fun w _ m => by simp⟩
  | cons k ks ih =>
    intro x hf hks
    obtain ⟨hf', hhas⟩ := hf.changeKey hlawful (hks k List.mem_cons_self) inserting l
    rw [changeKey_eq] at hf' hhas
    obtain ⟨buckets, heq, hfits, hanswers⟩ :=
      ih hf' (fun k' hk' => hks k' (List.mem_cons_of_mem _ hk'))
    refine ⟨buckets, ?_, hfits, fun w hw m => ?_⟩
    · rw [List.foldl_cons, changeKey_eq]
      exact heq
    · refine (hanswers w hw m).trans ?_
      rw [hhas w hw m]
      show (if (∃ k' ∈ ks, x.equal k' w = true) ∧ m = l then _ else _) = _
      by_cases hm : m = l
      · by_cases hex : ∃ k' ∈ ks, x.equal k' w = true
        · have : ∃ k' ∈ k :: ks, x.equal k' w = true := by
            obtain ⟨k', hk', hkw⟩ := hex
            exact ⟨k', List.mem_cons_of_mem _ hk', hkw⟩
          rw [if_pos ⟨hex, hm⟩, if_pos ⟨this, hm⟩]
        · simp only [List.mem_cons, exists_eq_or_imp, hex, or_false, hm, and_true, if_false]
      · simp [hm]

theorem keys_isKey (hr : x.Registered registry) {ks : List Value} (h : x.keys v = .ok ks) :
    ∀ k ∈ ks, x.IsKey registry k := by
  obtain ⟨equal, hash, hkeyed, -⟩ := hr
  obtain ⟨result, -, h⟩ := Fallible.bind_eq_ok.mp h
  obtain ⟨⟨⟩, hchecked, h⟩ := Fallible.bind_eq_ok.mp h
  cases h
  intro k hk
  have hcheck := Fallible.forM_eq_ok.mp hchecked k hk
  rw [checkKey] at hcheck
  split at hcheck
  · cases hcheck
  · next hnull =>
      split at hcheck
      · cases hcheck
      · next hlayout =>
          have hnull : k.isNull = false := by simpa using hnull
          exact ⟨cell_iff.mpr ⟨x.addon, hkeyed.registered, hkeyed.allowed,
            .inr ⟨hnull, by simpa using hlayout, hcheck⟩⟩, hnull⟩

namespace Holds

variable {entries entries' : List (Value × RowLocation)} {x' : KeyIndex}

theorem perm (h : x.Holds registry entries) (hp : entries.Perm entries') :
    x.Holds registry entries' where
  fits := h.fits
  extracted e he := h.extracted e (hp.mem_iff.mpr he)
  exact w hw m := by
    rw [h.exact w hw m]
    exact exists_congr fun v => and_congr_left fun _ => hp.mem_iff

/-- Entering a row. -/
theorem insert (hlawful : registry.Lawful) (h : x.Holds registry entries)
    (hins : x.change v l true = .ok x') : x'.Holds registry ((v, l) :: entries) := by
  obtain ⟨ks, hks, hins⟩ := Fallible.bind_eq_ok.mp hins
  obtain ⟨buckets, heq, hfits, hanswers⟩ := h.fits.changeKeys hlawful true l ks
    (keys_isKey h.fits.registered hks)
  rw [heq] at hins
  cases hins
  refine ⟨hfits, fun e he => ?_, fun w hw m => ?_⟩
  · rcases List.mem_cons.mp he with rfl | he
    · exact ⟨ks, hks⟩
    · exact h.extracted e he
  · rw [hanswers w hw m]
    have hyields : x.Yields v w ↔ ∃ k ∈ ks, x.equal k w = true := by
      simp only [Yields, hks, Except.ok.injEq, exists_eq_left']
    show _ ↔ ∃ v', (v', m) ∈ (v, l) :: entries ∧ x.Yields v' w
    split
    · next hhit => exact ⟨fun _ => ⟨v, by simp [hhit.2], hyields.mpr hhit.1⟩, fun _ => rfl⟩
    · next hmiss =>
        rw [h.exact w hw m]
        constructor
        · rintro ⟨v', hv', hyv⟩
          exact ⟨v', List.mem_cons_of_mem _ hv', hyv⟩
        · rintro ⟨v', hv', hyv⟩
          rcases List.mem_cons.mp hv' with heq | hv'
          · cases heq
            exact absurd ⟨hyields.mp hyv, rfl⟩ hmiss
          · exact ⟨v', hv', hyv⟩

theorem erase (hlawful : registry.Lawful) (h : x.Holds registry ((v, l) :: entries))
    (hl : l ∉ entries.map Prod.snd) (hdel : x.change v l false = .ok x') :
    x'.Holds registry entries := by
  obtain ⟨ks, hks, hdel⟩ := Fallible.bind_eq_ok.mp hdel
  obtain ⟨buckets, heq, hfits, hanswers⟩ := h.fits.changeKeys hlawful false l ks
    (keys_isKey h.fits.registered hks)
  rw [heq] at hdel
  cases hdel
  refine ⟨hfits, fun e he => h.extracted e (List.mem_cons_of_mem _ he), fun w hw m => ?_⟩
  rw [hanswers w hw m]
  have hyields : x.Yields v w ↔ ∃ k ∈ ks, x.equal k w = true := by
    simp only [Yields, hks, Except.ok.injEq, exists_eq_left']
  show _ ↔ ∃ v', (v', m) ∈ entries ∧ x.Yields v' w
  split
  · next hhit =>
      refine ⟨by simp, ?_⟩
      rintro ⟨v', hv', -⟩
      exact absurd (List.mem_map.mpr ⟨_, hv', hhit.2⟩) hl
  · next hmiss =>
      rw [h.exact w hw m]
      constructor
      · rintro ⟨v', hv', hyv⟩
        rcases List.mem_cons.mp hv' with heq | hv'
        · cases heq
          exact absurd ⟨hyields.mp hyv, rfl⟩ hmiss
        · exact ⟨v', hv', hyv⟩
      · rintro ⟨v', hv', hyv⟩
        exact ⟨v', List.mem_cons_of_mem _ hv', hyv⟩

/-- An index without buckets holds nothing. -/
theorem empty (hr : x.Registered registry) (hx : ∀ n, x.buckets n = []) : x.Holds registry [] := by
  refine ⟨⟨hr, fun n => ?_⟩, by simp, fun w _ m => ?_⟩
  · rw [hx n]
    exact ⟨by simp, List.Pairwise.nil, by simp⟩
  · simp [has, hx, findKey, Posting.has]

end Holds

end KeyIndex

end CoreSql
