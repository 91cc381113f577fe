import CoreSql.Proofs.Ranges
import CoreSql.Proofs.Structure
import CoreSql.Query.SharedHash

/-!
# Clones of a hash index are maps of their own

Three steps lead from the shared buckets of `SharedHash` to a reference that
is a list of keys and locations for each clone. Through its pointers every
clone is seen as a `HashIndex`, and a command changes what is seen of one of
them only (`SharedHash.Valid.run`). What an operation does to a `HashIndex`
is what the reference does to its list (`HashIndex.simulates`). And the loops
of `range` over machine integers do what they do over unbounded ones
(`rangeWords_eq`), which is to select entries.
-/

namespace CoreSql

open CopyOnWrite

variable {registry : Registry} {type : SqlType} {v : Value} {l : RowLocation}

/-! ## Machine integers -/

namespace HashIndex

variable {h h' : HashIndex} {last first key : Int64}

theorem toInt_payloadWord (v : Value) : (payloadWord v).toInt = payload v := by
  have hbounds := payload_bounds v
  simp only [minKey, maxKey] at hbounds
  exact Int64.toInt_ofInt_of_le hbounds.1 (by omega)

theorem toInt_bound (b : Option Value) (d : Int64) :
    ((b.map payloadWord).getD d).toInt = (b.map payload).getD d.toInt := by
  cases b with
  | none => rfl
  | some v => exact toInt_payloadWord v

/-- The difference of the unsigned words is the width of the span. -/
theorem toNat_span (h : first.toInt ≤ last.toInt) :
    ((last.toUInt64 - first.toUInt64).toNat : Int) = last.toInt - first.toInt := by
  have hfirst : first.toInt = first.toBitVec.toInt := rfl
  have hlast : last.toInt = last.toBitVec.toInt := rfl
  have hword : (last.toUInt64 - first.toUInt64).toNat =
      (2 ^ 64 - first.toBitVec.toNat + last.toBitVec.toNat) % 2 ^ 64 :=
    UInt64.toNat_sub last.toUInt64 first.toUInt64
  have hlt := first.toBitVec.isLt
  have hlt' := last.toBitVec.isLt
  rw [hfirst, hlast, BitVec.toInt_eq_toNat_cond, BitVec.toInt_eq_toNat_cond] at h ⊢
  rw [hword]
  split at h <;> split at h <;> omega

theorem filterMap_range_succ {α : Type} (f : Nat → Option α) (n : Nat) :
    (List.range (n + 1)).filterMap f = (f 0).toList ++ (List.range n).filterMap (f ∘ Nat.succ) := by
  rw [List.range_succ_eq_map, List.filterMap_cons, List.filterMap_map]
  cases f 0 <;> rfl

/-- The loop probes every key up to the last one, and does not overflow on the way. -/
theorem probe_eq (h : HashIndex) (hle : key.toInt ≤ last.toInt) :
    h.probe last key = some ((List.range ((last.toInt - key.toInt).toNat + 1)).filterMap
      fun (i : Nat) => h.integerLookup (key.toInt + i)) := by
  generalize hk : (last.toInt - key.toInt).toNat = k
  induction k generalizing key with
  | zero =>
    have heq : key = last := Int64.toInt_inj.mp (by omega)
    rw [probe, if_pos heq, filterMap_range_succ]
    simp
  | succ k ih =>
    have hne : key ≠ last := by
      rintro rfl
      omega
    have hlast := Int64.toInt_lt last
    have hkey := Int64.le_toInt key
    have hmax : key.toInt ≠ maxKey := by
      simp only [maxKey]
      omega
    have hnext : (key + 1).toInt = key.toInt + 1 := by
      rw [Int64.toInt_add, show (1 : Int64).toInt = 1 from rfl]
      exact Int.bmod_eq_of_le (by omega) (by omega)
    have hrest : (fun (i : Nat) => h.integerLookup ((key + 1).toInt + i)) =
        (fun (i : Nat) => h.integerLookup (key.toInt + i)) ∘ Nat.succ := by
      funext i
      show _ = h.integerLookup (key.toInt + (i + 1 : Nat))
      congr 1
      omega
    rw [probe, if_neg hne, if_neg hmax, ih (by omega) (by omega), hrest,
      filterMap_range_succ _ (k + 1)]
    simp

theorem rangeWords_eq (h : HashIndex) (lo hi : Option Value) :
    h.rangeWords lo hi = some (h.range lo hi) := by
  rw [rangeWords, range]
  by_cases hn : h.native = true
  swap
  · rw [if_neg hn, if_neg hn]
  have hfirst := toInt_bound lo Int64.minValue
  have hlast := toInt_bound hi Int64.maxValue
  rw [if_pos hn, if_pos hn]
  have hmin : Int64.minValue.toInt = minKey := rfl
  have hmax : Int64.maxValue.toInt = maxKey := rfl
  rw [hmin] at hfirst
  rw [hmax] at hlast
  generalize (lo.map payloadWord).getD Int64.minValue = first at hfirst
  generalize (hi.map payloadWord).getD Int64.maxValue = last at hlast
  rw [← hfirst, ← hlast]
  dsimp only
  by_cases hempty : last.toInt < first.toInt
  · rw [if_pos (Int64.lt_iff_toInt_lt.mpr hempty), if_pos hempty]
  rw [if_neg fun hgt => hempty (Int64.lt_iff_toInt_lt.mp hgt), if_neg hempty]
  have hspan := toNat_span (Int.not_lt.mp hempty)
  have hnarrow : last.toUInt64 - first.toUInt64 < 256 ↔ last.toInt - first.toInt < bucketCount := by
    rw [UInt64.lt_iff_toNat_lt, show (256 : UInt64).toNat = 256 from rfl, bucketCount]
    omega
  by_cases hwide : last.toInt - first.toInt < bucketCount
  · rw [if_pos (hnarrow.mpr hwide), if_pos hwide, h.probe_eq (Int.not_lt.mp hempty)]
    rfl
  · rw [if_neg fun hlt => hwide (hnarrow.mp hlt), if_neg hwide]

end HashIndex

def HashIndex.act (h : HashIndex) : HashOperation → Except Error HashIndex
  | .insert v l => h.insert v l
  | .erase v l => h.erase v l

/-! ## What is seen of shared buckets -/

namespace SharedHash

variable {s : SharedHash} {i n : Nat}

/-- Pointers are to buckets there are, and every index has both its arrays. -/
structure Valid (s : SharedHash) : Prop where
  buckets : s.buckets.Valid bucketCount
  integers : s.integers.Valid bucketCount
  length : s.integers.arrays.length = s.buckets.arrays.length

def system : Copies.System SharedHash HashIndex where
  valid := Valid
  count s := s.buckets.arrays.length
  view := index

/-- An operation on an index came out as it does for the index that is seen. -/
abbrev Does (s : SharedHash) (i : Nat) (r : Except Error HashIndex)
    (out : Option Error × SharedHash) : Prop :=
  system.Does s i r out

/-- One of the two kinds of buckets of the indexes: its arrays, the indexes with
other arrays in their place, and what is then seen of one of them. -/
structure Half (s : SharedHash) (β : Type) where
  arrays : Arrays (List β)
  put : Arrays (List β) → SharedHash
  seen : HashIndex → (Nat → List β) → HashIndex
  valid : arrays.Valid bucketCount
  length : arrays.arrays.length = s.buckets.arrays.length
  valid_put : ∀ {c}, c.Valid bucketCount → c.arrays.length = arrays.arrays.length → (put c).Valid
  count_put : ∀ {c}, c.arrays.length = arrays.arrays.length →
    (put c).buckets.arrays.length = s.buckets.arrays.length
  index_put : ∀ c j, (put c).index j = seen (s.index j) (c.view [] j)
  seen_view : ∀ j, seen (s.index j) (arrays.view [] j) = s.index j

def Valid.integersHalf (hs : s.Valid) : Half s (Int × RowLocation) where
  arrays := s.integers
  put c := { s with integers := c }
  seen h view := { h with integers := view }
  valid := hs.integers
  length := hs.length
  valid_put hc hlength := ⟨hs.buckets, hc, hlength.trans hs.length⟩
  count_put _ := rfl
  index_put _ _ := rfl
  seen_view _ := rfl

def Valid.bucketsHalf (hs : s.Valid) : Half s (Value × RowLocation) where
  arrays := s.buckets
  put c := { s with buckets := c }
  seen h view := { h with buckets := view }
  valid := hs.buckets
  length := rfl
  valid_put hc hlength := ⟨hc, hs.integers, hs.length.trans hlength.symm⟩
  count_put hlength := hlength
  index_put _ _ := rfl
  seen_view _ := rfl

section Writes

variable {β : Type} (half : Half s β) (hi : i < s.buckets.arrays.length) (hn : n < bucketCount)
include hi hn

/-- A bucket that was asked for and not written to shows nowhere. -/
theorem Half.asked {e error : Error} : Does s i (.error e) (some error,
      half.put (half.arrays.writable [] bucketCount i n).1) where
  valid := half.valid_put (half.valid.writable [] (half.length ▸ hi) hn)
    (Arrays.length_writable [] _ _ _ _)
  count := half.count_put (Arrays.length_writable [] _ _ _ _)
  outcome := rfl
  shows j := by
    have hview : (half.arrays.writable [] bucketCount i n).1.view [] j = half.arrays.view [] j :=
      funext (half.valid.view_writable [] (half.length ▸ hi) j)
    have hindex : (half.put (half.arrays.writable [] bucketCount i n).1).index j = s.index j := by
      rw [half.index_put, hview, half.seen_view]
    refine hindex.trans ?_
    split
    · next hj => rw [hj]; rfl
    · rfl

theorem Half.wrote (b : List β) :
    Does s i (.ok (half.seen (s.index i) (Function.update (half.arrays.view [] i) n b))) (none,
      half.put ((half.arrays.writable [] bucketCount i n).1.set
        (half.arrays.writable [] bucketCount i n).2 b)) where
  valid := half.valid_put ((half.valid.writable [] (half.length ▸ hi) hn).set _ _)
    (Arrays.length_writable [] _ _ _ _)
  count := half.count_put (Arrays.length_writable [] _ _ _ _)
  outcome := rfl
  shows j := by
    have hview := half.valid.view_write [] (n := n) (half.length ▸ hi) b j
    show index _ j = if j = i then half.seen (s.index i) _ else s.index j
    rw [half.index_put]
    split
    · next hj =>
        subst hj
        congr 1
        funext m
        rw [hview, Function.update_apply]
        simp only [Prod.mk.injEq, true_and]
    · next hj =>
        refine Eq.trans ?_ (half.seen_view j)
        congr 1
        funext m
        rw [hview, if_neg (by simp [hj])]

end Writes

section

variable (hs : s.Valid)
include hs

section

variable (hi : i < s.buckets.arrays.length)
include hi

theorem Valid.insert (v : Value) (l : RowLocation) :
    Does s i ((s.index i).insert v l) (s.insert i v l) := by
  have hn := HashIndex.number_lt (s.index i) v
  rw [SharedHash.insert, HashIndex.insert]
  dsimp only
  by_cases hnative : s.native = true
  · rw [if_pos hnative, if_pos (show (s.index i).native = true from hnative),
      Arrays.content_writable,
      show s.integers.view [] i = (s.index i).integers from rfl]
    cases SortedMap.find (payload v) ((s.index i).integers ((s.index i).number v)) with
    | some _ => exact hs.integersHalf.asked hi hn
    | none => exact hs.integersHalf.wrote hi hn _
  · rw [if_neg hnative, if_neg (show ¬(s.index i).native = true from hnative),
      Arrays.content_writable,
      show s.buckets.view [] i = (s.index i).buckets from rfl,
      show ThreeWay.emplace s.compare = ThreeWay.emplace (s.index i).compare from rfl]
    cases ThreeWay.emplace (s.index i).compare v l ((s.index i).buckets ((s.index i).number v)) with
    | none => exact hs.bucketsHalf.asked hi hn
    | some b => exact hs.bucketsHalf.wrote hi hn b

theorem Valid.erase (v : Value) (l : RowLocation) :
    Does s i ((s.index i).erase v l) (s.erase i v l) := by
  have hn := HashIndex.number_lt (s.index i) v
  rw [SharedHash.erase, HashIndex.erase]
  dsimp only
  by_cases hfound : (s.index i).lookup v ≠ some l
  · rw [if_pos hfound, if_pos hfound]
    refine ⟨hs, rfl, rfl, fun j => ?_⟩
    split
    · next hj =>
        subst hj
        rfl
    · rfl
  rw [if_neg hfound, if_neg hfound]
  by_cases hnative : s.native = true
  · rw [if_pos hnative, if_pos (show (s.index i).native = true from hnative),
      Arrays.content_writable]
    exact hs.integersHalf.wrote hi hn _
  · rw [if_neg hnative, if_neg (show ¬(s.index i).native = true from hnative),
      Arrays.content_writable]
    exact hs.bucketsHalf.wrote hi hn _

theorem Valid.clone : system.Clones s i (s.clone i) := by
  have hi' : i < s.integers.arrays.length := hs.length ▸ hi
  refine ⟨⟨hs.buckets.clone hi, hs.integers.clone hi', ?_⟩, Arrays.length_clone hi, fun j => ?_⟩
  · exact (Arrays.length_clone hi').trans
      ((congrArg (· + 1) hs.length).trans (Arrays.length_clone hi).symm)
  · have hb := Arrays.view_clone [] hi j
    have hint := Arrays.view_clone [] hi' j
    rw [hs.length] at hint
    show (s.clone i).index j = if j = s.buckets.arrays.length then s.index i else s.index j
    split
    · next hj =>
        rw [index, index]
        simp only [hj, if_true] at hb hint
        congr 1
        · funext n
          exact hj ▸ hb n
        · funext n
          exact hj ▸ hint n
    · next hj =>
        rw [index, index]
        simp only [if_neg hj] at hb hint
        congr 1
        · funext n
          exact hb n
        · funext n
          exact hint n

end

theorem Valid.run (commands : List (Copies.Command HashOperation)) :
    (s.run commands).1 = (Copies.run HashIndex.act s.indexes commands).1 ∧
      (s.run commands).2.indexes = (Copies.run HashIndex.act s.indexes commands).2 := by
  refine system.run_views (fun s i hs hi => Valid.clone hs hi)
    (fun s i op hs hi => ?_) hs commands
  cases op with
  | insert v l => exact Valid.insert hs hi v l
  | erase v l => exact Valid.erase hs hi v l

end

theorem make_valid (h : HashIndex) : (make h).Valid := by
  have hnone : ∀ {β : Type} (s : Store β) (i n : Nat),
      Arrays.pointer { store := s, arrays := [fun _ => none] } i n = none := by
    intro β s i n
    cases i <;> rfl
  refine ⟨fun i n a ha => ?_, fun i n a ha => ?_, rfl⟩
  · rw [make, hnone] at ha
    cases ha
  · rw [make, hnone] at ha
    cases ha

end SharedHash

/-! ## The map a hash index is -/

def mapLookup (registry : Registry) (type : SqlType) (m : List (Value × RowLocation)) (v : Value) :
    Option RowLocation :=
  (m.find? fun e => registry.sameKey type e.1 v).map Prod.snd

/-- The reference: a key is entered if no equal one is there, and taken out if it is there with that
location. -/
def hashReference (registry : Registry) (type : SqlType) (m : List (Value × RowLocation)) :
    HashOperation → Except Unit (List (Value × RowLocation))
  | .insert v l => if (mapLookup registry type m v).isSome then .error () else .ok ((v, l) :: m)
  | .erase v l =>
    if mapLookup registry type m v = some l then
      .ok (m.filter fun e => !registry.sameKey type e.1 v)
    else .error ()

def KeyOperation (registry : Registry) (type : SqlType) (_ : List (Value × RowLocation)) :
    HashOperation → Prop
  | .insert v _ => registry.Key type v
  | .erase v _ => registry.Key type v

namespace HashIndex

variable {h h' : HashIndex} {m : List (Value × RowLocation)} {k a b : Value} {addon : TypeAddon}
  {equal : Bytes → Value → Value → Bool} {lo hi : Option Value} {first last : Int}

def records (h : HashIndex) : List (Int × RowLocation) :=
  (List.range bucketCount).flatMap h.integers

def held (h : HashIndex) : Bucket := (List.range bucketCount).flatMap h.buckets

/-- The index has these entries, by payload or as they are. -/
def Contains (h : HashIndex) (m : List (Value × RowLocation)) : Prop :=
  (h.native = true → h.records.Perm (m.map fun e => (payload e.1, e.2))) ∧
    (h.native = false → h.held.Perm m)

theorem insert_of_lookup_none (hnone : h.lookup v = none) : ∃ h', h.insert v l = .ok h' := by
  rw [lookup] at hnone
  rw [HashIndex.insert]
  cases hn : h.native with
  | true =>
    rw [hn, if_pos rfl] at hnone
    simp only [if_true, hnone]
    exact ⟨_, rfl⟩
  | false =>
    simp only [hn, Bool.false_eq_true, if_false] at hnone
    cases hplaced : ThreeWay.emplace h.compare v l (h.buckets (h.number v)) with
    | none =>
      have hsome := (ThreeWay.SortedMap.emplace_eq_none_iff v l _).mp hplaced
      rw [hnone] at hsome
      cases hsome
    | some bucket =>
      simp only [Bool.false_eq_true, if_false]
      exact ⟨_, rfl⟩

theorem erase_of_lookup_some (hsome : h.lookup v = some l) : ∃ h', h.erase v l = .ok h' := by
  rw [HashIndex.erase, if_neg (by simp [hsome])]
  split
  · exact ⟨_, rfl⟩
  · exact ⟨_, rfl⟩

/-- A hash index and the entries it has, no two of them with equal keys. -/
structure Mirrors (registry : Registry) (type : SqlType) (h : HashIndex)
    (m : List (Value × RowLocation)) : Prop where
  fits : h.Fits registry type
  keys : ∀ e ∈ m, registry.Key type e.1
  distinct : m.Pairwise fun a b => registry.sameKey type a.1 b.1 = false
  contains : h.Contains m

section

variable (hlawful : registry.Lawful)
include hlawful

section

variable (hm : Mirrors registry type h m) (hv : registry.Key type v)
include hm hv

theorem Mirrors.lookup_iff :
    h.lookup v = some l ↔ ∃ k, (k, l) ∈ m ∧ registry.sameKey type k v = true := by
  have hf := hm.fits
  cases hn : h.native with
  | true =>
    have hrecords := (hm.contains.1 hn).mem_iff (a := (payload v, l))
    rw [lookup_native hn, (hf.integers hn _).find_eq_some_iff]
    have hbucket : (payload v, l) ∈ h.integers (h.number v) ↔ (payload v, l) ∈ h.records := by
      rw [records, List.mem_flatMap]
      constructor
      · exact fun hmem => ⟨h.number v, List.mem_range.mpr (number_lt h v), hmem⟩
      · rintro ⟨n, -, hmem⟩
        have hnumber : h.number v = n := by
          rw [number, if_pos hn]
          exact (hf.payloads hn n _ hmem).1
        exact hnumber ▸ hmem
    rw [hbucket, hrecords, List.mem_map]
    constructor
    · rintro ⟨e, he, heq⟩
      obtain ⟨hpayload, hloc⟩ := Prod.mk.inj heq
      subst hloc
      exact ⟨e.1, he, (hf.sameKey_native hlawful hn (hm.keys e he) hv).mpr hpayload⟩
    · rintro ⟨k, hk, hsame⟩
      exact ⟨(k, l), hk, Prod.ext ((hf.sameKey_native hlawful hn (hm.keys _ hk) hv).mp hsame) rfl⟩
  | false =>
    have hheld := hm.contains.2 hn
    rw [lookup_buckets hn, (hf.buckets hn _).find_eq_some_iff (hf.threeWay hlawful hn) hv]
    refine exists_congr fun k => ?_
    rw [← hheld.mem_iff, held, List.mem_flatMap]
    constructor
    · rintro ⟨hk, hzero⟩
      have hkey := (hf.buckets hn _).keys _ hk
      exact ⟨⟨h.number v, List.mem_range.mpr (number_lt h v), hk⟩,
        (hf.sameKey_compare hlawful hn hkey hv).mpr hzero⟩
    · rintro ⟨⟨n, -, hk⟩, hsame⟩
      have hkey := (hf.buckets hn _).keys _ hk
      have hnumber : h.number v = n :=
        (hf.number_eq hlawful hkey hv hsame).symm.trans (hf.hashed hn n _ hk)
      exact ⟨hnumber ▸ hk, (hf.sameKey_compare hlawful hn hkey hv).mp hsame⟩

/-- The entry of a key is the only one, so the list is that entry and those of other keys. -/
theorem Mirrors.perm_filter (hk : (k, l) ∈ m) (hsame : registry.sameKey type k v = true) :
    m.Perm ((k, l) :: m.filter fun e => !registry.sameKey type e.1 v) := by
  obtain ⟨addon, equal, hash, hkeyed, -⟩ := hm.fits.of_addon
  have hone : m.filter (fun e => registry.sameKey type e.1 v) = [(k, l)] := by
    have hmem : (k, l) ∈ m.filter fun e => registry.sameKey type e.1 v :=
      List.mem_filter.mpr ⟨hk, hsame⟩
    have hpair := hm.distinct.filter fun e => registry.sameKey type e.1 v
    have hall : ∀ e ∈ m.filter fun e => registry.sameKey type e.1 v,
        registry.Key type e.1 ∧ registry.sameKey type e.1 v = true := fun e he =>
      ⟨hm.keys e (List.mem_filter.mp he).1, (List.mem_filter.mp he).2⟩
    generalize m.filter (fun e => registry.sameKey type e.1 v) = found at hmem hpair hall
    cases found with
    | nil => cases hmem
    | cons a rest =>
      cases rest with
      | nil => rw [List.mem_singleton.mp hmem]
      | cons b rest =>
        have ha := hall a List.mem_cons_self
        have hb := hall b (List.mem_cons_of_mem _ List.mem_cons_self)
        have hab := hkeyed.sameKey_trans hlawful ha.1 hv hb.1 ha.2
          (hkeyed.sameKey_symm hlawful hb.1 hv hb.2)
        rw [(List.pairwise_cons.mp hpair).1 b List.mem_cons_self] at hab
        cases hab
  have hperm := (List.filter_append_perm (fun e => registry.sameKey type e.1 v) m).symm
  rw [hone] at hperm
  exact hperm

theorem Mirrors.mapLookup_eq : h.lookup v = mapLookup registry type m v := by
  have hsome : ∀ l, mapLookup registry type m v = some l →
      ∃ k, (k, l) ∈ m ∧ registry.sameKey type k v = true := by
    intro l hl
    rw [mapLookup, Option.map_eq_some_iff] at hl
    obtain ⟨e, he, rfl⟩ := hl
    exact ⟨e.1, List.mem_of_find?_eq_some he, by simpa using List.find?_some he⟩
  cases hmap : mapLookup registry type m v with
  | some l => exact (hm.lookup_iff hlawful hv).mpr (hsome l hmap)
  | none =>
    rw [mapLookup, Option.map_eq_none_iff, List.find?_eq_none] at hmap
    cases hfound : h.lookup v with
    | none => rfl
    | some l =>
      obtain ⟨k, hk, hsame⟩ := (hm.lookup_iff hlawful hv).mp hfound
      exact absurd hsame (hmap _ hk)

theorem Mirrors.insert (hins : h.insert v l = .ok h') : Mirrors registry type h' ((v, l) :: m) := by
  obtain ⟨hfits, hnone, -⟩ := hm.fits.insert hlawful hv hins
  have hlt := number_lt h v
  refine ⟨hfits, ?_, ?_, ?_⟩
  · intro e he
    rcases List.mem_cons.mp he with rfl | he
    · exact hv
    · exact hm.keys e he
  · refine List.pairwise_cons.mpr ⟨fun e he => ?_, hm.distinct⟩
    obtain ⟨addon, equal, hash, hkeyed, -⟩ := hm.fits.of_addon
    by_contra hne
    have hsame : registry.sameKey type v e.1 = true := by simpa using hne
    have hfound := (hm.lookup_iff hlawful hv).mpr
      ⟨e.1, he, hkeyed.sameKey_symm hlawful hv (hm.keys e he) hsame⟩
    rw [hnone] at hfound
    cases hfound
  · -- what the bucket has more, the buckets together have more
    rw [HashIndex.insert] at hins
    cases hn : h.native with
    | true =>
      rw [hn, if_pos rfl] at hins
      split at hins
      · cases hins
      next hfree =>
      cases hins
      refine ⟨fun _ => ?_, fun hfalse => by cases hfalse⟩
      have hmore := Lists.flatMap_update_insert hlt (SortedMap.insert_perm (v := l) hfree)
      exact hmore.trans ((hm.contains.1 hn).cons (payload v, l))
    | false =>
      rw [hn, if_neg (by simp)] at hins
      split at hins
      · cases hins
      next bucket hplaced =>
      cases hins
      refine ⟨fun htrue => (by cases htrue), fun _ => ?_⟩
      have hmore := Lists.flatMap_update_insert hlt (ThreeWay.SortedMap.emplace_perm hplaced)
      exact hmore.trans ((hm.contains.2 hn).cons (v, l))

theorem Mirrors.erase (hdel : h.erase v l = .ok h') :
    Mirrors registry type h' (m.filter fun e => !registry.sameKey type e.1 v) := by
  obtain ⟨hfits, hfound, -⟩ := hm.fits.erase hlawful hv hdel
  obtain ⟨k, hk, hsame⟩ := (hm.lookup_iff hlawful hv).mp hfound
  have hperm := hm.perm_filter hlawful hv hk hsame
  have hlt := number_lt h v
  refine ⟨hfits, fun e he => hm.keys e (List.mem_filter.mp he).1, hm.distinct.filter _, ?_⟩
  rw [HashIndex.erase, if_neg (by simp [hfound])] at hdel
  cases hn : h.native with
  | true =>
    rw [hn, if_pos rfl] at hdel
    cases hdel
    refine ⟨fun _ => ?_, fun hfalse => by cases hfalse⟩
    rw [lookup_native hn] at hfound
    obtain ⟨before, after, hsplit, herase⟩ := SortedMap.erase_split (hm.fits.integers hn _) hfound
    have hbucket : (h.integers (h.number v)).Perm
        ((payload v, l) :: SortedMap.erase (payload v) (h.integers (h.number v))) := by
      rw [herase, hsplit]
      exact List.perm_middle
    have hpayload := (hm.fits.sameKey_native hlawful hn (hm.keys _ hk) hv).mp hsame
    have hrest := ((Lists.flatMap_update_erase hlt hbucket).symm.trans (hm.contains.1 hn)).trans
      (hperm.map fun e => (payload e.1, e.2))
    rw [List.map_cons, hpayload] at hrest
    exact hrest.cons_inv
  | false =>
    rw [hn, if_neg (by simp)] at hdel
    cases hdel
    refine ⟨fun htrue => (by cases htrue), fun _ => ?_⟩
    rw [lookup_buckets hn] at hfound
    obtain ⟨before, k', after, hsplit, herase, hzero⟩ :=
      (hm.fits.buckets hn _).erase_split (hm.fits.threeWay hlawful hn) hv hfound
    have hbucket : (h.buckets (h.number v)).Perm
        ((k', l) :: ThreeWay.erase h.compare v (h.buckets (h.number v))) := by
      rw [herase, hsplit]
      exact List.perm_middle
    have hheld := Lists.flatMap_update_erase hlt hbucket
    have hk' : (k', l) ∈ m := (hm.contains.2 hn).mem_iff.mp (hheld.mem_iff.mpr List.mem_cons_self)
    have hsame' := (hm.fits.sameKey_compare hlawful hn (hm.keys _ hk') hv).mpr hzero
    exact ((hheld.symm.trans (hm.contains.2 hn)).trans
      (hm.perm_filter hlawful hv hk' hsame')).cons_inv

end

/-- The reference refuses what the index refuses, and does what it does. -/
theorem simulates : Copies.Simulates (Mirrors registry type) (KeyOperation registry type) act
      (hashReference registry type) where
  succeeds := by
    intro h m op m' hm hop href
    cases op with
    | insert v l =>
      rw [hashReference, ← hm.mapLookup_eq hlawful hop] at href
      split at href
      · cases href
      next hfree =>
      cases href
      obtain ⟨h', hins⟩ : ∃ h', h.insert v l = .ok h' :=
        insert_of_lookup_none (Option.not_isSome_iff_eq_none.mp hfree)
      exact ⟨h', hins, hm.insert hlawful hop hins⟩
    | erase v l =>
      rw [hashReference, ← hm.mapLookup_eq hlawful hop] at href
      split at href
      next hfound =>
        cases href
        obtain ⟨h', hdel⟩ := erase_of_lookup_some hfound
        exact ⟨h', hdel, hm.erase hlawful hop hdel⟩
      · cases href
  fails := by
    intro h m op u hm hop href
    cases hact : h.act op with
    | error e => exact ⟨e, rfl⟩
    | ok h' =>
      exfalso
      cases op with
      | insert v l =>
        obtain ⟨-, hnone, -⟩ := hm.fits.insert hlawful hop hact
        rw [hashReference, ← hm.mapLookup_eq hlawful hop, hnone] at href
        cases href
      | erase v l =>
        obtain ⟨-, hfound, -⟩ := hm.fits.erase hlawful hop hact
        rw [hashReference, ← hm.mapLookup_eq hlawful hop, if_pos hfound] at href
        cases href

end

theorem makeHashIndex_empty (hmake : makeHashIndex type addon = .ok h) :
    h.buckets = (fun _ => []) ∧ h.integers = fun _ => [] := by
  rw [makeHashIndex] at hmake
  split at hmake
  · cases hmake
    exact ⟨rfl, rfl⟩
  · split at hmake <;> cases hmake
    exact ⟨rfl, rfl⟩
  · cases hmake

theorem makeHashIndex_mirrors (haddon : registry.types type.id type.version = some addon)
    (htype : addon.validateType type.parameters = .ok ())
    (hmake : makeHashIndex type addon = .ok h) : Mirrors registry type h [] := by
  obtain ⟨hfits, -, -⟩ := makeHashIndex_fits haddon htype hmake
  obtain ⟨hbuckets, hintegers⟩ := makeHashIndex_empty hmake
  refine ⟨hfits, by simp, List.Pairwise.nil, fun _ => ?_, fun _ => ?_⟩
  · simp [records, hintegers]
  · simp [held, hbuckets]

/-! ## Ranges -/

/-- The order of a type's keys: its comparison, or the order of the payloads where there is none. -/
def keyLe (addon : TypeAddon) (type : SqlType) (a b : Value) : Bool :=
  match addon.compare with
  | some compare => compare type.parameters a b ≤ 0
  | none => payload a ≤ payload b

def keyWithin (addon : TypeAddon) (type : SqlType) (lo hi : Option Value) (k : Value) : Bool :=
  (lo.all fun v => keyLe addon type v k) && hi.all fun v => keyLe addon type k v

/-- Of a native type the order is that of the payloads in any case. -/
theorem keyLe_native (hlawful : registry.Lawful) (hkeyed : registry.Keyed type addon equal)
    (hnative : addon.nativeI64 = true) (ha : registry.Key type a)
    (hb : registry.Key type b) : keyLe addon type a b = decide (payload a ≤ payload b) := by
  rw [keyLe]
  split
  · next compare hcompare =>
      have hlaw := hlawful type addon hkeyed.registered hkeyed.allowed
      exact decide_eq_decide.mpr
        (hlaw.native_compare hnative hcompare (hkeyed.accepts ha) (hkeyed.accepts hb))
  · rfl

theorem keyWithin_native (hlawful : registry.Lawful) (hkeyed : registry.Keyed type addon equal)
    (hnative : addon.nativeI64 = true)
    (hlo : ∀ v ∈ lo, registry.Key type v) (hhi : ∀ v ∈ hi, registry.Key type v)
    (hk : registry.Key type k) :
    keyWithin addon type lo hi k = (decide ((lo.map payload).getD minKey ≤ payload k) &&
      decide (payload k ≤ (hi.map payload).getD maxKey)) := by
  have hbounds := payload_bounds k
  rw [keyWithin]
  congr 1
  · cases lo with
    | none => simp [hbounds.1]
    | some v => exact keyLe_native hlawful hkeyed hnative (hlo v rfl) hk
  · cases hi with
    | none => simp [hbounds.2]
    | some v => exact keyLe_native hlawful hkeyed hnative hk (hhi v rfl)

/-- Selecting in every bucket is selecting in all of them together. -/
theorem flatMap_filter_range {α : Type} {p : α → Bool} {f : Nat → List α}
    {g : Nat → List RowLocation}
    {location : α → RowLocation} (h : ∀ n, g n = ((f n).filter p).map location) (N : Nat) :
    (List.range N).flatMap g = (((List.range N).flatMap f).filter p).map location := by
  induction N with
  | zero => rfl
  | succ N ih => simp [List.range_succ, ih, h]

/-- Probing every key of a span finds the records there are in it. -/
theorem Mirrors.probes_perm (hlawful : registry.Lawful) (hm : Mirrors registry type h m)
    (hn : h.native = true) (hle : first ≤ last) :
    ((List.range ((last - first).toNat + 1)).filterMap fun (i : Nat) =>
        h.integerLookup (first + i)).Perm
      ((h.records.filter fun e => decide (first ≤ e.1) && decide (e.1 ≤ last)).map Prod.snd) := by
  have hdistinct : h.records.Nodup := by
    refine (hm.contains.1 hn).nodup_iff.mpr ?_
    rw [List.Nodup, List.pairwise_map]
    refine hm.distinct.imp_of_mem fun {a b} ha hb hab heq => ?_
    have hsame := (hm.fits.sameKey_native hlawful hn (hm.keys a ha) (hm.keys b hb)).mpr
      (Prod.mk.inj heq).1
    rw [hab] at hsame
    cases hsame
  have hrecord : ∀ i l, h.integerLookup i = some l ↔ (i, l) ∈ h.records := by
    intro i l
    rw [integerLookup, (hm.fits.integers hn _).find_eq_some_iff, records, List.mem_flatMap]
    constructor
    · intro hmem
      have hlt : nativeNumber i < bucketCount := by
        rw [nativeNumber, bucketCount]
        omega
      exact ⟨nativeNumber i, List.mem_range.mpr hlt, hmem⟩
    · rintro ⟨n, -, hmem⟩
      exact (hm.fits.payloads hn n _ hmem).1 ▸ hmem
  -- both sides list records, each once: so it is enough that they list the same
  have hpairs : ((List.range ((last - first).toNat + 1)).filterMap fun (i : Nat) =>
        (h.integerLookup (first + i)).map fun l => (first + (i : Int), l)).Perm
      (h.records.filter fun e => decide (first ≤ e.1) && decide (e.1 ≤ last)) := by
    refine (List.perm_ext_iff_of_nodup ?_ (hdistinct.filter _)).mpr fun e => ?_
    · refine List.Nodup.filterMap (fun i j e hi hj => ?_) List.nodup_range
      obtain ⟨l, -, rfl⟩ := Option.map_eq_some_iff.mp hi
      obtain ⟨l', -, heq⟩ := Option.map_eq_some_iff.mp hj
      have := (Prod.mk.inj heq).1
      omega
    · simp only [List.mem_filterMap, List.mem_range, Option.map_eq_some_iff, hrecord,
        List.mem_filter,
        Bool.and_eq_true, decide_eq_true_eq]
      constructor
      · rintro ⟨i, hi, l, hl, rfl⟩
        exact ⟨hl, by omega, by omega⟩
      · rintro ⟨hmem, hlo, hhi⟩
        refine ⟨(e.1 - first).toNat, by omega, e.2, ?_, ?_⟩
        · rw [show first + ((e.1 - first).toNat : Int) = e.1 by omega]
          exact hmem
        · exact Prod.ext (by simp only; omega) rfl
  have hrows := hpairs.map Prod.snd
  rw [List.map_filterMap] at hrows
  refine List.Perm.trans (List.Perm.of_eq ?_) hrows
  congr 1
  funext i
  cases h.integerLookup (first + i) <;> rfl

/-- A range returns the location of each key between the bounds once. -/
theorem Mirrors.range_perm (hlawful : registry.Lawful) (hm : Mirrors registry type h m)
    (haddon : registry.types type.id type.version = some addon)
    (hlo : ∀ v ∈ lo, registry.Key type v) (hhi : ∀ v ∈ hi, registry.Key type v) :
    (h.range lo hi).rows.Perm
      ((m.filter fun e => keyWithin addon type lo hi e.1).map Prod.snd) := by
  obtain ⟨addon', equal, hash, hkeyed, -, -, hnative, hcompare⟩ := hm.fits.of_addon
  obtain rfl : addon' = addon := Option.some.inj (hkeyed.registered.symm.trans haddon)
  rw [range]
  cases hn : h.native with
  | true =>
    rw [if_pos rfl]
    have hwithin : ∀ e ∈ m, keyWithin addon' type lo hi e.1 =
        (decide ((lo.map payload).getD minKey ≤ payload e.1) &&
          decide (payload e.1 ≤ (hi.map payload).getD maxKey)) := fun e he =>
      keyWithin_native hlawful hkeyed (hnative ▸ hn) hlo hhi (hm.keys e he)
    generalize (lo.map payload).getD minKey = first at hwithin
    generalize (hi.map payload).getD maxKey = last at hwithin
    have hselected : ((h.records.filter fun e =>
        decide (first ≤ e.1) && decide (e.1 ≤ last)).map Prod.snd).Perm
          ((m.filter fun e => keyWithin addon' type lo hi e.1).map Prod.snd) := by
      refine (((hm.contains.1 hn).filter _).map _).trans (List.Perm.of_eq ?_)
      rw [List.filter_map, List.map_map, List.filter_congr hwithin]
      rfl
    refine List.Perm.trans ?_ hselected
    dsimp only
    by_cases hempty : last < first
    · rw [if_pos hempty, List.filter_eq_nil_iff.mpr]
      · exact List.Perm.refl _
      · intro e _
        simp only [Bool.and_eq_true, decide_eq_true_eq]
        omega
    rw [if_neg hempty]
    split
    · exact hm.probes_perm hlawful hn (not_lt.mp hempty)
    · exact List.Perm.of_eq
        (flatMap_filter_range (fun n => integersBetween_eq (hm.fits.integers hn n) first last) _)
  | false =>
    rw [if_neg (by simp)]
    obtain ⟨compare, hsome, heq⟩ := hcompare hn
    have hbuckets := flatMap_filter_range (fun n => bucketBetween_eq (hm.fits.threeWay hlawful hn)
      (hm.fits.buckets hn n) hlo hhi) bucketCount
    refine (List.Perm.of_eq hbuckets).trans ?_
    refine (((hm.contains.2 hn).filter _).map _).trans (List.Perm.of_eq ?_)
    refine congrArg _ (List.filter_congr fun e _ => ?_)
    simp only [keyWithin, keyLe, hsome, heq]

end HashIndex

/-! ## Clones -/

/-- A clone answers as the map of its entries does. -/
structure HashAnswers (registry : Registry) (type : SqlType) (addon : TypeAddon) (h : HashIndex)
    (m : List (Value × RowLocation)) : Prop where
  distinct : m.Pairwise fun a b => registry.sameKey type a.1 b.1 = false
  lookup : ∀ v, registry.Key type v → h.lookup v = mapLookup registry type m v
  range : ∀ lo hi, (∀ v ∈ lo, registry.Key type v) → (∀ v ∈ hi, registry.Key type v) →
    ∃ result, h.rangeWords lo hi = some result ∧
      result.rows.Perm ((m.filter fun e => HashIndex.keyWithin addon type lo hi e.1).map Prod.snd)

/-- Clones of a hash index, after any operations on them: each answers as a map of its own, and
refused what the map refused. -/
theorem hash_clones_exact (registry : Registry) (type : SqlType) (addon : TypeAddon) (h : HashIndex)
    (hlawful : registry.Lawful) (haddon : registry.types type.id type.version = some addon)
    (htype : addon.validateType type.parameters = .ok ()) (hmake : makeHashIndex type addon = .ok h)
    (commands : List (Copies.Command HashOperation))
    (hallowed : Copies.Allowed (hashReference registry type) (KeyOperation registry type) [[]]
      commands) :
    ((SharedHash.make h).run commands).1 =
        (Copies.run (hashReference registry type) [[]] commands).1 ∧
      List.Forall₂ (HashAnswers registry type addon) ((SharedHash.make h).run commands).2.indexes
        (Copies.run (hashReference registry type) [[]] commands).2 := by
  have hindexes : (SharedHash.make h).indexes = [h] := by
    obtain ⟨hbuckets, hintegers⟩ := HashIndex.makeHashIndex_empty hmake
    show [(SharedHash.make h).index 0] = [h]
    obtain ⟨native, hash, compare, buckets, integers⟩ := h
    cases hbuckets
    cases hintegers
    rfl
  obtain ⟨houtcomes, hfinal⟩ := (SharedHash.make_valid h).run commands
  have hstart : List.Forall₂ (HashIndex.Mirrors registry type) [h] [[]] :=
    .cons (HashIndex.makeHashIndex_mirrors haddon htype hmake) .nil
  obtain ⟨hsame, hrelated⟩ := (HashIndex.simulates hlawful).run hstart hallowed
  rw [houtcomes, hfinal, hindexes]
  refine ⟨hsame, hrelated.imp fun h m hm => ⟨hm.distinct, fun v hv => hm.mapLookup_eq hlawful hv,
    fun lo hi hlo hhi =>
      ⟨h.range lo hi, h.rangeWords_eq lo hi, hm.range_perm hlawful haddon hlo hhi⟩⟩⟩

theorem hash_clones_exact_refused :
    ∃ h, makeHashIndex integerType integerAddon = .ok h ∧
      ((SharedHash.make h).run [.apply 0 (.insert (.integer 1) ⟨0, 0⟩), .copy 0,
        .apply 0 (.erase (.integer 1) ⟨0, 0⟩), .apply 1 (.insert (.integer 1) ⟨0, 1⟩)]).1 =
        [true, true, true, false] := by
  have haddon : scalarRegistry.types integerType.id integerType.version = some integerAddon := by
    simp [scalarRegistry, integerType]
  have hkey : scalarRegistry.Key integerType (.integer 1) := ⟨integer_cell 1, rfl⟩
  refine ⟨_, rfl, (hash_clones_exact scalarRegistry integerType integerAddon _ scalarRegistry_lawful
    haddon rfl rfl _ ?_).1.trans ?_⟩
  · refine ⟨?_, ?_, ?_, ?_, trivial⟩ <;> rintro i op ⟨⟩ m hm
    · exact hkey
    · exact hkey
    · exact hkey
  · decide +kernel

end CoreSql
