import CoreSql.Proofs.Indexes
import CoreSql.Query.Ranges

/-!
# What a search of an index returns

For each kind of search, which locations it returns, in terms of the entries
the index holds: the rows that yield a key, the rows whose key lies between
inclusive bounds, the rows whose leading columns are fixed and whose next one
lies between bounds. The order in which they are returned is left open, since
every caller sorts them.
-/

namespace CoreSql

variable {registry : Registry} {type : SqlType} {l : RowLocation}
  {entries : List (Value × RowLocation)} {addon : TypeAddon} {compare : Bytes → Value → Value → Int}
  {lo hi : Option Value} {key k : Value}

/-! ## Postings -/

theorem Posting.mem_locations {p : Posting} (h : p.Ok) : l ∈ p.locations ↔ p.has l = true := by
  simp only [locations, List.mem_flatMap, List.mem_map, List.mem_filter, List.mem_range]
  constructor
  · rintro ⟨e, he, i, ⟨hi, hbit⟩, rfl⟩
    rw [has_of_mem h he hi]
    exact hbit
  · intro hhas
    cases hfind : SortedMap.find l.block p with
    | none => simp [has, hfind] at hhas
    | some mask =>
      rw [has, hfind] at hhas
      refine ⟨(l.block, mask), SortedMap.mem_of_find hfind, l.slot % 128,
        ⟨Nat.mod_lt _ (by decide), hhas⟩, ?_⟩
      obtain ⟨c, s⟩ := l
      simp only [RowLocation.block, RowLocation.mk.injEq, true_and]
      omega

theorem KeyIndex.Holds.mem_search {x : KeyIndex}
    (h : x.Holds registry entries) (hkey : x.IsKey registry key) :
    l ∈ (x.search key).rows ↔ ∃ v, (v, l) ∈ entries ∧ x.Yields v key := by
  rw [← h.exact key hkey l, KeyIndex.has, KeyIndex.search]
  cases hfind : x.findKey key (x.buckets (x.number key)) with
  | none => simp [Posting.has]
  | some p =>
    obtain ⟨k, hk, -⟩ := KeyIndex.findKey_mem hfind
    exact Posting.mem_locations ((h.fits.buckets _).postings _ hk).1

/-! ## Ranges of unique keys -/

/-- The key lies between the bounds that are given. -/
def KeyBetween (compare : Value → Value → Int) (lo hi : Option Value) (k : Value) : Prop :=
  (∀ v ∈ lo, 0 ≤ compare k v) ∧ ∀ v ∈ hi, compare k v ≤ 0

theorem payload_bounds (v : Value) : minKey ≤ payload v ∧ payload v ≤ maxKey := by
  have hbounds : ∀ i : Int64, minKey ≤ i.toInt ∧ i.toInt ≤ maxKey := by
    intro i
    have hlo := Int64.le_toInt i
    have hhi := Int64.toInt_lt i
    simp only [minKey, maxKey]
    omega
  have hzero : minKey ≤ 0 ∧ (0 : Int) ≤ maxKey := by decide
  cases v <;> simp only [payload, Value.i64Payload, Option.getD_some, Option.getD_none] <;>
    first | exact hbounds _ | exact hzero

/-- With native operators the bounds of a key are those of its payload. -/
theorem keyBetween_iff_payload (hlawful : registry.Lawful) {equal : Bytes → Value → Value → Bool}
    (hkeyed : registry.Keyed type addon equal) (hnative : addon.nativeI64 = true)
    (hcompare : addon.compare = some compare)
    (hlo : ∀ v ∈ lo, registry.Key type v) (hhi : ∀ v ∈ hi, registry.Key type v)
    (hk : registry.Key type k) : KeyBetween (compare type.parameters) lo hi k ↔
      (lo.map payload).getD minKey ≤ payload k ∧ payload k ≤ (hi.map payload).getD maxKey := by
  have hlaw := hlawful type addon hkeyed.registered hkeyed.allowed
  have hbounds := payload_bounds k
  refine and_congr ?_ ?_
  · cases lo with
    | none => simp [hbounds.1]
    | some v =>
      have hv := hkeyed.accepts (hlo v rfl)
      have hk := hkeyed.accepts hk
      simp only [Option.mem_some_iff, forall_eq', Option.map_some, Option.getD_some]
      rw [← (hlaw.compare hcompare).le_swap hv hk]
      exact hlaw.native_compare hnative hcompare hv hk
  · cases hi with
    | none => simp [hbounds.2]
    | some v =>
      simp only [Option.mem_some_iff, forall_eq', Option.map_some, Option.getD_some]
      exact hlaw.native_compare hnative hcompare (hkeyed.accepts hk) (hkeyed.accepts (hhi v rfl))

namespace HashIndex

variable {h : HashIndex} {size i first last : Int} {entries : List (Value × RowLocation)}
  {lo hi : Option Value} {bucket : Bucket} {P : Value → Prop} {compare : Value → Value → Int}
  {a b : Value}

theorem Fits.mem_integers (hlawful : registry.Lawful) (hf : h.Fits registry type)
    (hm : UniqueMap registry type h.lookup size entries) (hn : h.native = true) :
    (i, l) ∈ h.integers (nativeNumber i) ↔ ∃ k, (k, l) ∈ entries ∧ payload k = i := by
  constructor
  · intro hmem
    obtain ⟨-, v, hv, hpayload⟩ := hf.payloads hn _ _ hmem
    have hfound : h.lookup v = some l := by
      rw [lookup_native hn, number, if_pos hn, hpayload]
      exact (hf.integers hn _).find_of_mem hmem
    obtain ⟨k, hk, hkv⟩ := (hm.exact v hv l).mp hfound
    exact ⟨k, hk, ((hf.sameKey_native hlawful hn (hm.keys _ hk) hv).mp hkv).trans hpayload⟩
  · rintro ⟨k, hk, rfl⟩
    have hfound := hm.lookup_of_mem hlawful hk
    rw [lookup_native hn, number, if_pos hn] at hfound
    exact SortedMap.mem_of_find hfound

theorem integersBetween_eq {bucket : List (Int × RowLocation)} (hs : SortedMap.Sorted bucket)
    (first last : Int) : integersBetween first last bucket =
      (bucket.filter fun e => decide (first ≤ e.1) && decide (e.1 ≤ last)).map Prod.snd := by
  have hdrop : bucket.Pairwise fun a b => decide (b.1 < first) = true →
    decide (a.1 < first) = true := by
    refine hs.imp fun hab hb => ?_
    simp only [decide_eq_true_eq] at hb ⊢
    omega
  have htake : (bucket.filter fun e => !decide (e.1 < first)).Pairwise fun a b =>
      decide (b.1 ≤ last) = true → decide (a.1 ≤ last) = true := by
    refine (hs.filter _).imp fun hab hb => ?_
    simp only [decide_eq_true_eq] at hb ⊢
    omega
  rw [integersBetween, Lists.dropWhile_eq_filter hdrop, Lists.takeWhile_eq_filter htake,
    List.filter_filter]
  refine congrArg _ (List.filter_congr fun e _ => ?_)
  rw [Bool.and_comm, ← decide_not, decide_eq_decide.mpr not_lt]

theorem mem_integersBetween {bucket : List (Int × RowLocation)} (hs : SortedMap.Sorted bucket) :
    l ∈ integersBetween first last bucket ↔ ∃ i, (i, l) ∈ bucket ∧ first ≤ i ∧ i ≤ last := by
  rw [integersBetween_eq hs]
  simp only [List.mem_map, List.mem_filter, Bool.and_eq_true, decide_eq_true_eq]
  constructor
  · rintro ⟨⟨i, l⟩, ⟨hmem, hbounds⟩, rfl⟩
    exact ⟨i, hmem, hbounds⟩
  · rintro ⟨i, hmem, hbounds⟩
    exact ⟨(i, l), ⟨hmem, hbounds⟩, rfl⟩

/-- A range of a native index selects by payload, whichever way it goes. -/
theorem Fits.mem_range_native (hlawful : registry.Lawful) (hf : h.Fits registry type)
    (hm : UniqueMap registry type h.lookup size entries) (hn : h.native = true) :
    l ∈ (h.range lo hi).rows ↔ ∃ k, (k, l) ∈ entries ∧
      (lo.map payload).getD minKey ≤ payload k ∧ payload k ≤ (hi.map payload).getD maxKey := by
  rw [range, if_pos hn]
  generalize (lo.map payload).getD minKey = first
  generalize (hi.map payload).getD maxKey = last
  have hlookup : ∀ i, h.integerLookup i = some l ↔ ∃ k, (k, l) ∈ entries ∧ payload k = i := by
    intro i
    rw [integerLookup, (hf.integers hn _).find_eq_some_iff, hf.mem_integers hlawful hm hn]
  simp only
  split
  · next hempty =>
      refine ⟨by simp, ?_⟩
      rintro ⟨k, -, hfirst, hlast⟩
      omega
  · next hle =>
      split
      · -- Every key of a narrow range is probed.
        simp only [List.mem_filterMap, List.mem_range, hlookup]
        constructor
        · rintro ⟨j, hj, k, hk, hpayload⟩
          exact ⟨k, hk, by omega, by omega⟩
        · rintro ⟨k, hk, hfirst, hlast⟩
          exact ⟨(payload k - first).toNat, by omega, k, hk, by omega⟩
      · simp only [List.mem_flatMap, List.mem_range]
        constructor
        · rintro ⟨n, -, hmem⟩
          obtain ⟨i, hi, hfirst, hlast⟩ := (mem_integersBetween (hf.integers hn n)).mp hmem
          obtain ⟨hnumber, -⟩ := hf.payloads hn n _ hi
          simp only at hnumber
          subst hnumber
          obtain ⟨k, hk, rfl⟩ := (hf.mem_integers hlawful hm hn).mp hi
          exact ⟨k, hk, hfirst, hlast⟩
        · rintro ⟨k, hk, hfirst, hlast⟩
          have hmem := (hf.mem_integers hlawful hm hn).mpr ⟨k, hk, rfl⟩
          have hnumber : nativeNumber (payload k) < bucketCount := by
            rw [nativeNumber, bucketCount]
            omega
          exact ⟨_, hnumber, (mem_integersBetween (hf.integers hn _)).mpr ⟨_, hmem, hfirst, hlast⟩⟩

section

variable (hlaw : ThreeWay P compare)
include hlaw

/-- Cutting an ordered bucket at both ends selects by comparison. -/
theorem bucketBetween_eq (hs : ThreeWay.SortedMap P compare bucket)
    (hlo : ∀ v ∈ lo, P v) (hhi : ∀ v ∈ hi, P v) : bucketBetween compare lo hi bucket =
      (bucket.filter fun e => (lo.all fun v => decide (compare v e.1 ≤ 0)) &&
        hi.all fun v => decide (compare e.1 v ≤ 0)).map Prod.snd := by
  have hdrop : bucket.Pairwise fun a b => (lo.any fun v => decide (compare b.1 v < 0)) = true →
      (lo.any fun v => decide (compare a.1 v < 0)) = true := by
    refine List.Pairwise.imp_of_mem (fun {a b} ha hb hab hbelow => ?_) hs.increasing
    cases lo with
    | none => cases hbelow
    | some v =>
      simp only [Option.any_some, decide_eq_true_eq] at hbelow ⊢
      exact hlaw.lt_trans (hs.keys a ha) (hs.keys b hb) (hlo v rfl) hab hbelow
  have htake : (bucket.filter fun e => !lo.any fun v => decide (compare e.1 v < 0)).Pairwise
      fun a b => (hi.all fun v => !decide (compare v b.1 < 0)) = true →
        (hi.all fun v => !decide (compare v a.1 < 0)) = true := by
    refine List.Pairwise.imp_of_mem (fun {a b} ha hb hab hbelow => ?_) (hs.increasing.filter _)
    cases hi with
    | none => rfl
    | some v =>
      have hPa := hs.keys a (List.mem_filter.mp ha).1
      have hPb := hs.keys b (List.mem_filter.mp hb).1
      simp only [Option.all_some, Bool.not_eq_true', decide_eq_false_iff_not] at hbelow ⊢
      exact fun hva => hbelow (hlaw.lt_trans (hhi v rfl) hPa hPb hva hab)
  rw [bucketBetween, Lists.dropWhile_eq_filter hdrop, Lists.takeWhile_eq_filter htake,
    List.filter_filter]
  refine congrArg _ (List.filter_congr fun e he => ?_)
  rw [Bool.and_comm]
  congr 1
  · cases lo with
    | none => rfl
    | some v =>
      have hswap := hlaw.le_swap (hlo v rfl) (hs.keys e he)
      rw [Option.any_some, Option.all_some, ← decide_not]
      exact decide_eq_decide.mpr (not_lt.trans hswap.symm)
  · cases hi with
    | none => rfl
    | some v =>
      have hswap := hlaw.le_swap (hs.keys e he) (hhi v rfl)
      rw [Option.all_some, Option.all_some, ← decide_not]
      exact decide_eq_decide.mpr (not_lt.trans hswap.symm)

theorem mem_bucketBetween (hs : ThreeWay.SortedMap P compare bucket)
    (hlo : ∀ v ∈ lo, P v) (hhi : ∀ v ∈ hi, P v) :
    l ∈ bucketBetween compare lo hi bucket ↔ ∃ k, (k, l) ∈ bucket ∧ KeyBetween compare lo hi k := by
  have hbetween : ∀ e ∈ bucket, ((lo.all fun v => decide (compare v e.1 ≤ 0)) &&
      hi.all fun v => decide (compare e.1 v ≤ 0)) = true ↔ KeyBetween compare lo hi e.1 := by
    intro e he
    rw [Bool.and_eq_true]
    refine and_congr ?_ ?_
    · cases lo with
      | none => simp
      | some v => simpa using hlaw.le_swap (hlo v rfl) (hs.keys e he)
    · cases hi <;> simp
  rw [bucketBetween_eq hlaw hs hlo hhi]
  simp only [List.mem_map, List.mem_filter]
  constructor
  · rintro ⟨e, ⟨hmem, hbounds⟩, rfl⟩
    exact ⟨e.1, hmem, (hbetween e hmem).mp hbounds⟩
  · rintro ⟨k, hmem, hk⟩
    exact ⟨(k, l), ⟨hmem, (hbetween _ hmem).mpr hk⟩, rfl⟩

theorem keyBetween_congr (hlo : ∀ v ∈ lo, P v) (hhi : ∀ v ∈ hi, P v)
    (ha : P a) (hb : P b) (hab : compare a b = 0)
    (h : KeyBetween compare lo hi a) : KeyBetween compare lo hi b := by
  have hba := hlaw.symm ha hb hab
  refine ⟨fun v hv => ?_, fun v hv => ?_⟩
  · have hva := (hlaw.le_swap (hlo v hv) ha).mpr (h.1 v hv)
    exact (hlaw.le_swap (hlo v hv) hb).mp (hlaw.trans (hlo v hv) ha hb hva (by omega))
  · exact hlaw.trans hb ha (hhi v hv) (by omega) (h.2 v hv)

end

theorem Fits.mem_range_buckets (hlawful : registry.Lawful) (hf : h.Fits registry type)
    (hm : UniqueMap registry type h.lookup size entries) (hn : h.native = false)
    (hlo : ∀ v ∈ lo, registry.Key type v) (hhi : ∀ v ∈ hi, registry.Key type v) :
    l ∈ (h.range lo hi).rows ↔ ∃ k, (k, l) ∈ entries ∧ KeyBetween h.compare lo hi k := by
  have hlaw := hf.threeWay hlawful hn
  rw [range, if_neg (by simp [hn])]
  simp only [List.mem_flatMap, List.mem_range]
  constructor
  · rintro ⟨n, -, hmem⟩
    obtain ⟨k, hk, hbetween⟩ := (mem_bucketBetween hlaw (hf.buckets hn n) hlo hhi).mp hmem
    have hkey := (hf.buckets hn n).keys _ hk
    have hfound : h.lookup k = some l := by
      rw [lookup_buckets hn, hf.hashed hn n _ hk]
      exact ((hf.buckets hn n).find_eq_some_iff hlaw hkey).mpr ⟨k, hk, hlaw.refl hkey⟩
    obtain ⟨k', hk', hsame⟩ := (hm.exact k hkey l).mp hfound
    have h0 := (hf.sameKey_compare hlawful hn (hm.keys _ hk') hkey).mp hsame
    exact ⟨k', hk', keyBetween_congr hlaw hlo hhi hkey (hm.keys _ hk')
      (hlaw.symm (hm.keys _ hk') hkey h0) hbetween⟩
  · rintro ⟨k, hk, hbetween⟩
    have hkey := hm.keys _ hk
    have hfound := hm.lookup_of_mem hlawful hk
    rw [lookup_buckets hn] at hfound
    obtain ⟨k', hk', h0⟩ := ((hf.buckets hn _).find_eq_some_iff hlaw hkey).mp hfound
    have hkey' := (hf.buckets hn _).keys _ hk'
    refine ⟨h.number k, number_lt h k, (mem_bucketBetween hlaw (hf.buckets hn _) hlo hhi).mpr
      ⟨k', hk', keyBetween_congr hlaw hlo hhi hkey hkey' (hlaw.symm hkey' hkey h0) hbetween⟩⟩

end HashIndex

namespace PagedIndex

variable {ν : Type} {i hi : Int} {base : List (Int × RowLocation)}
  {changes : List (Int × Option RowLocation)} {e : Int × ν} {m : List (Int × ν)}

/-- The location of a key: a change decides, else the record. -/
def locate (base : List (Int × RowLocation)) (changes : List (Int × Option RowLocation)) (i : Int) :
    Option RowLocation :=
  match SortedMap.find i changes with
  | some location => location
  | none => SortedMap.find i base

theorem le_of_find (hs : SortedMap.Sorted (e :: m))
    {v : ν} (h : SortedMap.find i (e :: m) = some v) : e.1 ≤ i := by
  rcases List.mem_cons.mp (SortedMap.mem_of_find h) with heq | hmem
  · rw [← heq]
  · exact le_of_lt (hs.head_lt hmem)

theorem find_eq_none_of_lt
    (hs : SortedMap.Sorted (e :: m)) (h : i < e.1) : SortedMap.find i (e :: m) = none := by
  cases hfind : SortedMap.find i (e :: m) with
  | none => rfl
  | some v => exact absurd (le_of_find hs hfind) (not_le.mpr h)

theorem locate_cons (base : List (Int × RowLocation)) (c : Int × Option RowLocation)
    (changes : List (Int × Option RowLocation)) (i : Int) :
    locate base (c :: changes) i = if c.1 = i then c.2 else locate base changes i := by
  rw [locate, SortedMap.find_cons]
  by_cases h : c.1 = i
  · rw [if_pos h, if_pos h]
  · rw [if_neg h, if_neg h, locate]

/-- The first change is taken, and the record it replaces is passed over. -/
theorem exists_locate_cons (base' : List (Int × RowLocation)) {c : Int × Option RowLocation}
    (hc : SortedMap.Sorted (c :: changes)) (hle : c.1 ≤ hi)
    (hnone : SortedMap.find c.1 base' = none)
    (hsame : ∀ i, i ≠ c.1 → SortedMap.find i base' = SortedMap.find i base) :
    (∃ i, i ≤ hi ∧ locate base (c :: changes) i = some l) ↔
      c.2 = some l ∨ ∃ i, i ≤ hi ∧ locate base' changes i = some l := by
  have hother : ∀ i, i ≠ c.1 → locate base (c :: changes) i = locate base' changes i := by
    intro i hi
    rw [locate_cons, if_neg hi.symm, locate, locate, hsame i hi]
  constructor
  · rintro ⟨i, hi', h⟩
    by_cases hic : i = c.1
    · subst hic
      rw [locate_cons, if_pos rfl] at h
      exact .inl h
    · exact .inr ⟨i, hi', (hother i hic).symm.trans h⟩
  · rintro (h | ⟨i, hi', h⟩)
    · exact ⟨c.1, hle, by rw [locate_cons, if_pos rfl, h]⟩
    · refine ⟨i, hi', (hother i ?_).trans h⟩
      rintro rfl
      have hchange : SortedMap.find c.1 changes = none :=
        SortedMap.find_eq_none_iff.mpr fun e he => ne_of_gt (hc.head_lt he)
      simp [locate, hchange, hnone] at h

theorem exists_locate_base {b : Int × RowLocation}
    (hb : SortedMap.Sorted (b :: base)) (hle : b.1 ≤ hi)
    (hnone : SortedMap.find b.1 changes = none) :
    (∃ i, i ≤ hi ∧ locate (b :: base) changes i = some l) ↔
      l = b.2 ∨ ∃ i, i ≤ hi ∧ locate base changes i = some l := by
  have hother : ∀ i, i ≠ b.1 → locate (b :: base) changes i = locate base changes i := by
    intro i hi
    rw [locate, locate, SortedMap.find_cons, if_neg hi.symm]
  have hself : locate (b :: base) changes b.1 = some b.2 := by
    simp [locate, hnone, SortedMap.find_cons]
  constructor
  · rintro ⟨i, hi', h⟩
    by_cases hib : i = b.1
    · subst hib
      rw [hself] at h
      exact .inl (Option.some.inj h).symm
    · exact .inr ⟨i, hi', (hother i hib).symm.trans h⟩
  · rintro (rfl | ⟨i, hi', h⟩)
    · exact ⟨b.1, hle, hself⟩
    · refine ⟨i, hi', (hother i ?_).trans h⟩
      rintro rfl
      have hbase : SortedMap.find b.1 base = none :=
        SortedMap.find_eq_none_iff.mpr fun e he => ne_of_gt (hb.head_lt he)
      simp [locate, hnone, hbase] at h

theorem mem_rangeLoop (hb : SortedMap.Sorted base) (hc : SortedMap.Sorted changes) :
    l ∈ rangeLoop hi base changes ↔ ∃ i, i ≤ hi ∧ locate base changes i = some l := by
  induction base, changes using rangeLoop.induct hi with
  | case1 => simp [rangeLoop, locate]
  | case2 b base hle ih =>
    rw [rangeLoop, if_pos hle, List.mem_cons, ih hb.tail hc, exists_locate_base hb hle rfl]
  | case3 b base hgt =>
    rw [rangeLoop, if_neg hgt]
    refine ⟨by simp, ?_⟩
    rintro ⟨i, hi', h⟩
    have := le_of_find hb (by simpa [locate] using h)
    omega
  | case4 c changes hle ih =>
    rw [rangeLoop, if_pos hle, List.mem_append, ih hb hc.tail, Option.mem_toList,
      exists_locate_cons [] hc hle rfl fun _ _ => rfl]
  | case5 c changes hgt =>
    rw [rangeLoop, if_neg hgt]
    refine ⟨by simp, ?_⟩
    rintro ⟨i, hi', h⟩
    simp [locate, find_eq_none_of_lt hc (by omega : i < c.1)] at h
  | case6 b base c changes hgt hle ih =>
    rw [rangeLoop, if_pos hgt, if_pos hle, List.mem_append, ih hb hc.tail, Option.mem_toList,
      exists_locate_cons (b :: base) hc hle (find_eq_none_of_lt hb (by omega)) fun _ _ => rfl]
  | case7 b base c changes hgt hgt' =>
    rw [rangeLoop, if_pos hgt, if_neg hgt']
    refine ⟨by simp, ?_⟩
    rintro ⟨i, hi', h⟩
    simp [locate, find_eq_none_of_lt hc (by omega : i < c.1),
      find_eq_none_of_lt hb (by omega : i < b.1)] at h
  | case8 b base c changes hle hcond ih =>
    have hbase : SortedMap.Sorted (if c.1 = b.1 then base else b :: base) := by
      split
      · exact hb.tail
      · exact hb
    simp only [dite_eq_ite] at ih
    rw [rangeLoop, if_neg hle, if_pos hcond, List.mem_append, ih hbase hc.tail, Option.mem_toList,
      exists_locate_cons (if c.1 = b.1 then base else b :: base) hc hcond.1]
    · split
      · next heq =>
          exact SortedMap.find_eq_none_iff.mpr fun e he => heq ▸ ne_of_gt (hb.head_lt he)
      · next hne => exact find_eq_none_of_lt hb (lt_of_le_of_ne hcond.2 hne)
    · intro i hi'
      split
      · next heq => rw [SortedMap.find_cons, if_neg fun h => hi' (h.symm.trans heq.symm)]
      · rfl
  | case9 b base c changes hle hcond ih =>
    rw [rangeLoop, if_neg hle, if_neg hcond, List.mem_cons, ih hb.tail hc,
      exists_locate_base hb (not_lt.mp hle) (find_eq_none_of_lt hc (by omega))]

variable {x : PagedIndex} {size : Int} {entries : List (Value × RowLocation)}

theorem Fits.mem_range (hlawful : registry.Lawful) (hf : x.Fits registry type)
    (hm : UniqueMap registry type x.lookup size entries) {hi : Option Value} :
    l ∈ (x.range lo hi).rows ↔ ∃ k, (k, l) ∈ entries ∧
      (lo.map payload).getD minKey ≤ payload k ∧ payload k ≤ (hi.map payload).getD maxKey := by
  rw [range]
  generalize (lo.map payload).getD minKey = first
  generalize (hi.map payload).getD maxKey = last
  have hcut : ∀ {ν : Type} {m : List (Int × ν)}, SortedMap.Sorted m →
      (m.dropWhile fun e => decide (e.1 < first)) = m.filter fun e => decide (first ≤ e.1) := by
    intro ν m hs
    rw [Lists.dropWhile_eq_filter]
    · refine List.filter_congr fun e _ => ?_
      rw [← decide_not]
      exact decide_eq_decide.mpr not_lt
    · refine hs.imp fun hab hb => ?_
      simp only [decide_eq_true_eq] at hb ⊢
      omega
  have hlocate : ∀ i, locate (x.base.filter fun e => decide (first ≤ e.1))
      (x.changes.filter fun e => decide (first ≤ e.1)) i =
        if first ≤ i then SortedMap.find i x.merged else none := by
    intro i
    rw [locate, SortedMap.find_filter fun k => decide (first ≤ k),
      SortedMap.find_filter fun k => decide (first ≤ k), merged, find_foldl_merge hf.changes]
    cases SortedMap.find i x.changes <;> by_cases h : first ≤ i <;> simp [h]
  simp only [hcut hf.base, hcut hf.changes]
  rw [mem_rangeLoop (hf.base.filter _) (hf.changes.filter _)]
  simp only [hlocate, Option.ite_none_right_eq_some]
  constructor
  · rintro ⟨i, hlast, hfirst, hfind⟩
    obtain ⟨v, hv, rfl⟩ := hf.payloads _ (SortedMap.mem_of_find hfind)
    obtain ⟨k, hk, hkv⟩ := (hm.exact v hv l).mp
      ((lookup_eq_find_merged hf.changes v).trans hfind)
    have hpayload : payload k = payload v := (hf.sameKey hlawful (hm.keys _ hk) hv).mp hkv
    exact ⟨k, hk, by omega, by omega⟩
  · rintro ⟨k, hk, hfirst, hlast⟩
    refine ⟨payload k, hlast, hfirst, ?_⟩
    rw [← lookup_eq_find_merged hf.changes]
    exact hm.lookup_of_mem hlawful hk

end PagedIndex

/-- A range of a unique index returns the rows whose key lies between the
bounds. -/
theorem Index.Holds.mem_range (hlawful : registry.Lawful) {d : Index}
    (h : d.Holds registry type entries)
    (haddon : registry.types type.id type.version = some addon)
    (hcompare : addon.compare = some compare)
    (hlo : ∀ v ∈ lo, registry.Key type v) (hhi : ∀ v ∈ hi, registry.Key type v)
    {r : IndexResult} (hr : d.range lo hi = some r) :
    l ∈ r.rows ↔ ∃ k, (k, l) ∈ entries ∧ KeyBetween (compare type.parameters) lo hi k := by
  cases d with
  | hash x =>
    cases hr
    obtain ⟨hf, hm⟩ := h
    obtain ⟨addon', equal, hash, hkeyed, -, -, hnative, hbuckets⟩ := hf.of_addon
    obtain rfl : addon' = addon := Option.some.inj (hkeyed.registered.symm.trans haddon)
    cases hn : x.native with
    | true =>
      rw [hf.mem_range_native hlawful hm hn]
      refine exists_congr fun k => and_congr_right fun hk => ?_
      exact (keyBetween_iff_payload hlawful hkeyed (hnative ▸ hn) hcompare hlo hhi
        (hm.keys _ hk)).symm
    | false =>
      obtain ⟨compare', hcompare', heq⟩ := hbuckets hn
      obtain rfl : compare' = compare := Option.some.inj (hcompare'.symm.trans hcompare)
      rw [hf.mem_range_buckets hlawful hm hn hlo hhi, heq]
  | paged x =>
    cases hr
    obtain ⟨hf, hm⟩ := h
    obtain ⟨addon', equal, hkeyed, hnative⟩ := hf.of_addon
    obtain rfl : addon' = addon := Option.some.inj (hkeyed.registered.symm.trans haddon)
    rw [hf.mem_range hlawful hm]
    refine exists_congr fun k => and_congr_right fun hk => ?_
    exact (keyBetween_iff_payload hlawful hkeyed hnative hcompare hlo hhi (hm.keys _ hk)).symm
  | key x => cases hr

/-! ## Ordered indexes -/

namespace KeyOrder

variable {o : KeyOrder} {a b v : Value} {lo hi : Option Value}

theorem cells_eq_zero : o.cells a b = 0 ↔ o.raw a b = 0 := by
  show (if o.descending then -(o.raw a b).sign else (o.raw a b).sign) = 0 ↔ _
  split <;> simp

theorem cells_le_zero :
    o.cells a b ≤ 0 ↔ if o.descending then 0 ≤ o.raw a b else o.raw a b ≤ 0 := by
  show (if o.descending then -(o.raw a b).sign else (o.raw a b).sign) ≤ 0 ↔ _
  split
  · rw [Int.neg_nonpos_iff, Int.sign_nonneg_iff]
  · exact Int.sign_nonpos_iff

theorem Of.raw (hlawful : registry.Lawful) (h : o.Of registry type) :
    ThreeWay (registry.Cell type) o.raw :=
  h.nullsFirst hlawful

/-- The cell comes before every one between the bounds, in the direction of
the column. -/
def below (o : KeyOrder) (lo hi : Option Value) (v : Value) : Bool :=
  if o.descending then hi.any fun hi => 0 < o.raw v hi else lo.any fun lo => o.raw v lo < 0

/-- The cell comes after every one between the bounds. -/
def above (o : KeyOrder) (lo hi : Option Value) (v : Value) : Bool :=
  if o.descending then lo.any fun lo => o.raw v lo < 0 else hi.any fun hi => 0 < o.raw v hi

theorem between_iff : (o.below lo hi v || o.above lo hi v) = false ↔ KeyBetween o.raw lo hi v := by
  rw [below, above, KeyBetween]
  cases o.descending <;> cases lo <;> cases hi <;> simp [and_comm]

theorem below_of_le (hlawful : registry.Lawful) (h : o.Of registry type)
    (hlo : ∀ v ∈ lo, registry.Cell type v) (hhi : ∀ v ∈ hi, registry.Cell type v)
    (ha : registry.Cell type a) (hb : registry.Cell type b) (hab : o.cells a b ≤ 0)
    (hbelow : o.below lo hi b = true) : o.below lo hi a = true := by
  have hlaw := h.raw hlawful
  rw [cells_le_zero] at hab
  rw [below] at hbelow ⊢
  cases hd : o.descending with
  | false =>
    cases lo with
    | none => simp [hd] at hbelow
    | some v =>
      simp only [hd, Bool.false_eq_true, if_false, Option.any_some, decide_eq_true_eq]
        at hab hbelow ⊢
      exact hlaw.lt_of_le_of_lt ha hb (hlo v rfl) hab hbelow
  | true =>
    cases hi with
    | none => simp [hd] at hbelow
    | some v =>
      simp only [hd, if_true, Option.any_some, decide_eq_true_eq] at hab hbelow ⊢
      have hva := hlaw.lt_of_lt_of_le (hhi v rfl) hb ha
        ((hlaw.swap hb (hhi v rfl)).mp hbelow) ((hlaw.le_swap hb ha).mpr hab)
      exact (hlaw.swap ha (hhi v rfl)).mpr hva

theorem above_of_le (hlawful : registry.Lawful) (h : o.Of registry type)
    (hlo : ∀ v ∈ lo, registry.Cell type v) (hhi : ∀ v ∈ hi, registry.Cell type v)
    (ha : registry.Cell type a) (hb : registry.Cell type b) (hab : o.cells a b ≤ 0)
    (habove : o.above lo hi a = true) : o.above lo hi b = true := by
  have hlaw := h.raw hlawful
  rw [cells_le_zero] at hab
  rw [above] at habove ⊢
  cases hd : o.descending with
  | false =>
    cases hi with
    | none => simp [hd] at habove
    | some v =>
      simp only [hd, Bool.false_eq_true, if_false, Option.any_some, decide_eq_true_eq]
        at hab habove ⊢
      have hvb := hlaw.lt_of_lt_of_le (hhi v rfl) ha hb
        ((hlaw.swap ha (hhi v rfl)).mp habove) hab
      exact (hlaw.swap hb (hhi v rfl)).mpr hvb
  | true =>
    cases lo with
    | none => simp [hd] at habove
    | some v =>
      simp only [hd, if_true, Option.any_some, decide_eq_true_eq] at hab habove ⊢
      exact hlaw.lt_of_le_of_lt hb ha (hlo v rfl) ((hlaw.le_swap hb ha).mpr hab) habove

end KeyOrder

/-- How two keys in order stand to a prefix: the earlier one is not after it
when the later one is before it, and where both begin with it, the next
column is in order. -/
theorem compareKeys_prefix (hlawful : registry.Lawful) {types : List SqlType}
    {orders : List KeyOrder} (h : List.Forall₂ (fun type o => o.Of registry type) types orders)
    {a b e : Row} (ha : List.Forall₂ registry.Cell types a)
    (hb : List.Forall₂ registry.Cell types b)
    (he : List.Forall₂ registry.Cell (types.take e.length) e) (hab : compareKeys orders a b ≤ 0) :
    (compareKeys orders b e < 0 → compareKeys orders a e < 0) ∧
      (0 < compareKeys orders a e → 0 < compareKeys orders b e) ∧
      (compareKeys orders a e = 0 → compareKeys orders b e = 0 → e.length < types.length →
        (orders.getD e.length default).cells (a.cell e.length) (b.cell e.length) ≤ 0) := by
  induction h generalizing a b e with
  | nil =>
    have hzero : ∀ x y, compareKeys [] x y = 0 := fun x y => by cases x <;> cases y <;> rfl
    simp [hzero]
  | @cons type o types orders ho _ ih =>
    cases ha with
    | @cons _ x _ as hx has =>
    cases hb with
    | @cons _ y _ bs hy hbs =>
    have hlaw := ho.threeWay hlawful
    simp only [compareKeys] at hab
    cases e with
    | nil =>
      have hxy : o.cells x y ≤ 0 := by
        split at hab
        · exact hab
        · omega
      have hzero : ∀ k, compareKeys (o :: orders) k [] = 0 := fun k => by cases k <;> rfl
      refine ⟨by simp [hzero], by simp [hzero], fun _ _ _ => ?_⟩
      simpa [Row.cell] using hxy
    | cons z es =>
      cases he with
      | cons hz hes =>
      simp only [compareKeys]
      by_cases hxy : o.cells x y = 0
      · -- Equal first cells stand alike to the prefix, and the rest decides.
        have hyx := hlaw.symm hx hy hxy
        have hlt : o.cells x z < 0 ↔ o.cells y z < 0 := hlaw.lt_congr hx hy hz hxy
        have hzero : o.cells x z = 0 ↔ o.cells y z = 0 :=
          ⟨fun h0 => hlaw.zero_trans hy hx hz hyx h0, fun h0 => hlaw.zero_trans hx hy hz hxy h0⟩
        obtain ⟨ih1, ih2, ih3⟩ := ih has hbs hes (by simpa [hxy] using hab)
        by_cases hxz : o.cells x z = 0
        · simp only [hxz, hzero.mp hxz, ne_eq, not_true_eq_false, if_false]
          exact ⟨ih1, ih2, fun h1 h2 h3 => ih3 h1 h2 (by simpa using h3)⟩
        · have hyz : o.cells y z ≠ 0 := fun h0 => hxz (hzero.mpr h0)
          simp only [hxz, hyz, ne_eq, not_false_eq_true, if_true]
          refine ⟨hlt.mpr, fun hpos => ?_, fun h0 => h0.elim⟩
          by_contra hneg
          exact absurd (hlt.mpr (by omega)) (by omega)
      · have hxy : o.cells x y < 0 := by
          simp only [hxy, ne_eq, not_false_eq_true, if_true] at hab
          omega
        have hle : o.cells y z ≤ 0 → o.cells x z < 0 := hlaw.lt_of_lt_of_le hx hy hz hxy
        refine ⟨fun hneg => ?_, fun hpos => ?_, fun h1 h2 => ?_⟩
        · have hyz : o.cells y z ≤ 0 := by
            split at hneg <;> omega
          rw [if_pos (by have := hle hyz; omega)]
          exact hle hyz
        · by_cases hyz : o.cells y z ≤ 0
          · have := hle hyz
            rw [if_pos (by omega)] at hpos
            omega
          · rw [if_pos (by omega)]
            omega
        · have hyz : o.cells y z ≤ 0 := by
            split at h2 <;> omega
          have := hle hyz
          rw [if_pos (by omega)] at h1
          omega

namespace OrderedIndex

variable {columns : List Column} {x : OrderedIndex} {rows : List (RowLocation × Row)} {equal : Row}
  {lo hi : Option Value}

/-- An entry comes before every one the walk of `prefix_range` is after. -/
def beforeRange (x : OrderedIndex) (equal : Row) (lo hi : Option Value) (e : OrderedEntry) : Bool :=
  compareKeys x.order e.1 equal < 0 || (compareKeys x.order e.1 equal == 0 &&
    (x.orderAt equal.length).below lo hi (e.1.cell equal.length))

/-- An entry comes after every one the walk is after. -/
def afterRange (x : OrderedIndex) (equal : Row) (lo hi : Option Value) (e : OrderedEntry) : Bool :=
  0 < compareKeys x.order e.1 equal || (compareKeys x.order e.1 equal == 0 &&
    (x.orderAt equal.length).above lo hi (e.1.cell equal.length))

theorem visitBetween_eq (o : KeyOrder) (lo hi : Option Value) (v : Value) (location : RowLocation)
    (left right : List RowLocation) : visitBetween o.descending ((lo.map fun b => o.raw v b).getD 1)
        ((hi.map fun b => o.raw v b).getD (-1)) location left right =
      (if o.below lo hi v then [] else left) ++
        (if o.below lo hi v || o.above lo hi v then [] else [location]) ++
          (if o.above lo hi v then [] else right) := by
  have hleft : (if o.descending then decide ((hi.map fun b => o.raw v b).getD (-1) ≤ 0)
      else decide (0 ≤ (lo.map fun b => o.raw v b).getD 1)) = !o.below lo hi v := by
    rw [KeyOrder.below]
    cases o.descending <;> cases lo <;> cases hi <;> simp [← decide_not]
  have hright : (if o.descending then decide (0 ≤ (lo.map fun b => o.raw v b).getD 1)
      else decide ((hi.map fun b => o.raw v b).getD (-1) ≤ 0)) = !o.above lo hi v := by
    rw [KeyOrder.above]
    cases o.descending <;> cases lo <;> cases hi <;> simp [← decide_not]
  have hnode : (0 ≤ (lo.map fun b => o.raw v b).getD 1 ∧
      (hi.map fun b => o.raw v b).getD (-1) ≤ 0) ↔
        ¬(o.below lo hi v || o.above lo hi v) = true := by
    rw [Bool.not_eq_true, KeyOrder.between_iff, KeyBetween]
    cases lo <;> cases hi <;> simp
  rw [visitBetween, hleft, hright]
  simp only [hnode]
  cases o.below lo hi v <;> cases o.above lo hi v <;> simp

theorem prefixRangeAt_eq (x : OrderedIndex) (equal : Row) (lo hi : Option Value)
    (t : Avl OrderedEntry) : x.prefixRangeAt equal lo hi t =
      (t.between (x.beforeRange equal lo hi) (x.afterRange equal lo hi)).map Prod.snd := by
  induction t with
  | nil => rfl
  | node e left right h ihl ihr =>
    rw [prefixRangeAt, Avl.between, ihl, ihr, beforeRange, afterRange, visitBetween_eq]
    rcases lt_trichotomy (compareKeys x.order e.1 equal) 0 with hc | hc | hc
    · simp [hc, not_lt_of_gt hc, ne_of_lt hc]
    · simp only [hc, lt_irrefl, if_false, decide_false, Bool.false_or, beq_self_eq_true,
        Bool.true_and, List.map_append]
      congr 1
      · congr 1
        · split <;> rfl
        · split <;> rfl
      · split <;> rfl
    · simp [hc, not_lt_of_gt hc, (ne_of_lt hc).symm]

theorem rangeAt_eq (x : OrderedIndex) (lo hi : Value) (t : Avl OrderedEntry) :
    x.rangeAt lo hi t = x.prefixRangeAt [] (some lo) (some hi) t := by
  induction t with
  | nil => rfl
  | node e left right h ihl ihr =>
    have hzero : compareKeys x.order e.1 [] = 0 := by
      cases x.order <;> cases e.1 <;> rfl
    rw [rangeAt, prefixRangeAt, ihl, ihr, hzero]
    rfl

/-- What the bounds of a walk have to be: cells of the columns they bound. -/
structure BoundsOk (registry : Registry) (types : List SqlType) (equal : Row)
    (lo hi : Option Value) : Prop where
  fixed : List.Forall₂ registry.Cell (types.take equal.length) equal
  lower : ∀ v ∈ lo, ∃ type, types[equal.length]? = some type ∧ registry.Cell type v
  upper : ∀ v ∈ hi, ∃ type, types[equal.length]? = some type ∧ registry.Cell type v

section

variable {types : List SqlType} {equal key : Row} {lo hi : Option Value} {i : Nat}

section

variable (h : BoundsOk registry types equal lo hi)
include h

theorem BoundsOk.lower_cell
    (htype : types[equal.length]? = some type) : ∀ v ∈ lo, registry.Cell type v := by
  intro v hv
  obtain ⟨type', htype', hcell⟩ := h.lower v hv
  rw [htype] at htype'
  cases htype'
  exact hcell

theorem BoundsOk.upper_cell
    (htype : types[equal.length]? = some type) : ∀ v ∈ hi, registry.Cell type v := by
  intro v hv
  obtain ⟨type', htype', hcell⟩ := h.upper v hv
  rw [htype] at htype'
  cases htype'
  exact hcell

theorem BoundsOk.unbounded (htype : types[equal.length]? = none) : lo = none ∧ hi = none := by
  constructor
  · cases lo with
    | none => rfl
    | some v =>
      obtain ⟨type, hsome, -⟩ := h.lower v rfl
      simp [htype] at hsome
  · cases hi with
    | none => rfl
    | some v =>
      obtain ⟨type, hsome, -⟩ := h.upper v rfl
      simp [htype] at hsome

end

theorem Fits.order_at (h : x.Fits registry columns)
    (htype : (typesAt columns x.columns)[i]? = some type) : (x.orderAt i).Of registry type := by
  obtain ⟨hlt, rfl⟩ := List.getElem?_eq_some_iff.mp htype
  have hlen := h.orders.length_eq
  have := (List.forall₂_iff_get.mp h.orders).2 i hlt (by omega)
  rw [orderAt, List.getD_eq_getElem?_getD, List.getElem?_eq_getElem (by omega)]
  simpa using this

theorem cell_at (h : List.Forall₂ registry.Cell types key)
    (htype : types[i]? = some type) : registry.Cell type (key.cell i) := by
  obtain ⟨hlt, rfl⟩ := List.getElem?_eq_some_iff.mp htype
  have hlen := h.length_eq
  have := (List.forall₂_iff_get.mp h).2 i hlt (by omega)
  rw [Row.cell, List.getD_eq_getElem?_getD, List.getElem?_eq_getElem (by omega)]
  simpa using this

end

section

variable {equal : Row} {lo hi : Option Value} {a b : OrderedEntry}

section

variable (hlawful : registry.Lawful)
include hlawful

theorem Fits.beforeRange_of_le (h : x.Fits registry columns)
    (hbounds : BoundsOk registry (typesAt columns x.columns) equal lo hi)
    (ha : List.Forall₂ registry.Cell (typesAt columns x.columns) a.1)
    (hb : List.Forall₂ registry.Cell (typesAt columns x.columns) b.1)
    (hab : compareKeys x.order a.1 b.1 ≤ 0) (hbefore : x.beforeRange equal lo hi b = true) :
    x.beforeRange equal lo hi a = true := by
  obtain ⟨hneg, hpos, hnext⟩ := compareKeys_prefix hlawful h.orders ha hb hbounds.fixed hab
  simp only [beforeRange, Bool.or_eq_true, decide_eq_true_eq, Bool.and_eq_true, beq_iff_eq]
    at hbefore ⊢
  rcases hbefore with hlt | ⟨hzero, hbelow⟩
  · exact .inl (hneg hlt)
  · rcases lt_trichotomy (compareKeys x.order a.1 equal) 0 with hc | hc | hc
    · exact .inl hc
    · refine .inr ⟨hc, ?_⟩
      cases htype : (typesAt columns x.columns)[equal.length]? with
      | none =>
        obtain ⟨rfl, rfl⟩ := hbounds.unbounded htype
        simp [KeyOrder.below] at hbelow
      | some type =>
        exact KeyOrder.below_of_le hlawful (h.order_at htype) (hbounds.lower_cell htype)
          (hbounds.upper_cell htype) (cell_at ha htype) (cell_at hb htype)
          (hnext hc hzero (List.getElem?_eq_some_iff.mp htype).1) hbelow
    · have := hpos hc
      omega

theorem Fits.afterRange_of_le (h : x.Fits registry columns)
    (hbounds : BoundsOk registry (typesAt columns x.columns) equal lo hi)
    (ha : List.Forall₂ registry.Cell (typesAt columns x.columns) a.1)
    (hb : List.Forall₂ registry.Cell (typesAt columns x.columns) b.1)
    (hab : compareKeys x.order a.1 b.1 ≤ 0) (hafter : x.afterRange equal lo hi a = true) :
    x.afterRange equal lo hi b = true := by
  obtain ⟨hneg, hpos, hnext⟩ := compareKeys_prefix hlawful h.orders ha hb hbounds.fixed hab
  simp only [afterRange, Bool.or_eq_true, decide_eq_true_eq, Bool.and_eq_true, beq_iff_eq]
    at hafter ⊢
  rcases hafter with hlt | ⟨hzero, habove⟩
  · exact .inl (hpos hlt)
  · rcases lt_trichotomy (compareKeys x.order b.1 equal) 0 with hc | hc | hc
    · have := hneg hc
      omega
    · refine .inr ⟨hc, ?_⟩
      cases htype : (typesAt columns x.columns)[equal.length]? with
      | none =>
        obtain ⟨rfl, rfl⟩ := hbounds.unbounded htype
        simp [KeyOrder.above] at habove
      | some type =>
        exact KeyOrder.above_of_le hlawful (h.order_at htype) (hbounds.lower_cell htype)
          (hbounds.upper_cell htype) (cell_at ha htype) (cell_at hb htype)
          (hnext hzero hc (List.getElem?_eq_some_iff.mp htype).1) habove
    · exact .inl hc

/-- The walk returns exactly the entries in the range, in index order. -/
theorem Ordered.prefixRangeAt_root (h : x.Ordered registry columns)
    (hbounds : BoundsOk registry (typesAt columns x.columns) equal lo hi) :
    x.prefixRangeAt equal lo hi x.root = (x.root.entries.filter fun e =>
        !(x.beforeRange equal lo hi e || x.afterRange equal lo hi e)).map Prod.snd := by
  rw [prefixRangeAt_eq, Avl.between_eq_filter h.sorted]
  · exact fun a ha b hb hab => h.fits.beforeRange_of_le hlawful hbounds (h.keys a ha) (h.keys b hb)
      (compare_le_of_entries hab)
  · exact fun a ha b hb hab => h.fits.afterRange_of_le hlawful hbounds (h.keys a ha) (h.keys b hb)
      (compare_le_of_entries hab)

end

end

/-- The entries in the range begin with the prefix and have the next column
between the bounds. -/
theorem inRange_iff {e : OrderedEntry} :
    (!(x.beforeRange equal lo hi e || x.afterRange equal lo hi e)) = true ↔
      compareKeys x.order e.1 equal = 0 ∧
        KeyBetween (x.orderAt equal.length).raw lo hi (e.1.cell equal.length) := by
  rw [← KeyOrder.between_iff, Bool.not_eq_true', beforeRange, afterRange]
  rcases lt_trichotomy (compareKeys x.order e.1 equal) 0 with hc | hc | hc
  · simp [hc, ne_of_lt hc]
  · simp [hc]
  · simp [hc, (ne_of_lt hc).symm]

/-- `prefix_range` returns the rows that begin with the prefix and have the
next column between the bounds. -/
theorem Holds.mem_prefixRange (hlawful : registry.Lawful) (h : x.Holds registry columns rows)
    (hbounds : BoundsOk registry (typesAt columns x.columns) equal lo hi) :
    ∃ found, x.prefixRange equal lo hi = .ok found ∧ ∀ l, l ∈ found ↔ ∃ row, (l, row) ∈ rows ∧
      compareKeys x.order (x.key row) equal = 0 ∧
        KeyBetween (x.orderAt equal.length).raw lo hi ((x.key row).cell equal.length) := by
  have hlen : (typesAt columns x.columns).length = x.columns.length := by simp [typesAt]
  have hwidth := hbounds.fixed.length_eq
  rw [List.length_take, hlen] at hwidth
  have hvalid : ¬(x.columns.length < equal.length ∨
      ((lo.isSome ∨ hi.isSome) ∧ equal.length = x.columns.length)) := by
    rintro (hlt | ⟨hsome, heq⟩)
    · omega
    · obtain ⟨rfl, rfl⟩ := hbounds.unbounded (List.getElem?_eq_none (by omega))
      simp at hsome
  refine ⟨x.prefixRangeAt equal lo hi x.root, by rw [prefixRange, if_neg hvalid], fun l => ?_⟩
  rw [h.ordered.prefixRangeAt_root hlawful hbounds]
  simp only [List.mem_map, List.mem_filter, inRange_iff]
  constructor
  · rintro ⟨e, ⟨he, hin⟩, rfl⟩
    obtain ⟨r, hr, rfl⟩ := List.mem_map.mp (h.entries.mem_iff.mp he)
    exact ⟨r.2, hr, hin⟩
  · rintro ⟨row, hrow, hin⟩
    exact ⟨(x.key row, l), ⟨h.entries.mem_iff.mpr (List.mem_map.mpr ⟨(l, row), hrow, rfl⟩), hin⟩,
      rfl⟩

/-- `range` returns the rows with the leading column between the bounds. -/
theorem Holds.mem_range (hlawful : registry.Lawful) (h : x.Holds registry columns rows)
    {lo hi : Value} (htype : (typesAt columns x.columns)[0]? = some type)
    (hlo : registry.Cell type lo) (hhi : registry.Cell type hi) :
    l ∈ x.range lo hi ↔ ∃ row, (l, row) ∈ rows ∧
      KeyBetween (x.orderAt 0).raw (some lo) (some hi) ((x.key row).cell 0) := by
  have hbounds : BoundsOk registry (typesAt columns x.columns) [] (some lo) (some hi) :=
    ⟨.nil, fun v hv => ⟨type, htype, by cases hv; exact hlo⟩,
      fun v hv => ⟨type, htype, by cases hv; exact hhi⟩⟩
  have hzero : ∀ row, compareKeys x.order (x.key row) [] = 0 := by
    intro row
    cases x.order <;> cases x.key row <;> rfl
  obtain ⟨found, hfound, hmem⟩ := h.mem_prefixRange hlawful hbounds
  rw [prefixRange] at hfound
  split at hfound
  · cases hfound
  · cases hfound
    rw [range, rangeAt_eq, hmem]
    simp [hzero]

end OrderedIndex

end CoreSql
