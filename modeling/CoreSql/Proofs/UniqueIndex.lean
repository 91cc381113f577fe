import CoreSql.Lib.Lists
import CoreSql.Proofs.OrderedIndex

/-!
# What a unique index holds

The hash index and its paged form are two representations of one thing: a
finite map from keys, up to the equality of their type, to locations.
`UniqueMap` says so about a lookup function and a count, whatever they are
computed from, and has the two rules for entering and removing a key. Each
representation then has to show what its operations do to its lookups.

A key that is updated to one its type calls equal is left in the index as it
was, so the stored bits may differ from the row's; equality of keys is
always that of the type here.
-/

namespace CoreSql

def Registry.Key (registry : Registry) (type : SqlType) (v : Value) : Prop :=
  registry.Cell type v ∧ v.isNull = false

def Registry.sameKey (registry : Registry) (type : SqlType) (a b : Value) : Bool :=
  match registry.types type.id type.version with
  | none => false
  | some addon =>
    match addon.equal with
    | none => false
    | some equal => equal type.parameters a b

/-- A type whose keys can be told apart: registered, with equality. -/
structure Registry.Keyed (registry : Registry) (type : SqlType) (addon : TypeAddon)
    (equal : Bytes → Value → Value → Bool) : Prop where
  registered : registry.types type.id type.version = some addon
  allowed : addon.validateType type.parameters = .ok ()
  comparable : addon.equal = some equal

section

variable {registry : Registry} {type : SqlType} {addon : TypeAddon}
  {equal : Bytes → Value → Value → Bool} {a b c : Value}

theorem Registry.Keyed.sameKey_eq (h : registry.Keyed type addon equal) (a b : Value) :
    registry.sameKey type a b = equal type.parameters a b := by
  rw [Registry.sameKey, h.registered]
  simp only [h.comparable]

theorem Registry.Keyed.accepts (h : registry.Keyed type addon equal)
    (ha : registry.Key type a) : addon.Accepts type a :=
  ha.1.accepts ha.2 h.registered

variable (hlawful : registry.Lawful)
include hlawful

section

variable (h : registry.Keyed type addon equal) (ha : registry.Key type a)
include h ha

theorem Registry.Keyed.sameKey_refl : registry.sameKey type a a = true := by
  rw [h.sameKey_eq]
  exact (hlawful type addon h.registered h.allowed).equal_refl h.comparable (h.accepts ha)

theorem Registry.Keyed.sameKey_symm (hb : registry.Key type b)
    (hab : registry.sameKey type a b = true) : registry.sameKey type b a = true := by
  rw [h.sameKey_eq] at hab ⊢
  exact (hlawful type addon h.registered h.allowed).equal_symm h.comparable (h.accepts ha)
    (h.accepts hb) hab

theorem Registry.Keyed.sameKey_trans (hb : registry.Key type b) (hc : registry.Key type c)
    (hab : registry.sameKey type a b = true) (hbc : registry.sameKey type b c = true) :
    registry.sameKey type a c = true := by
  rw [h.sameKey_eq] at hab hbc ⊢
  exact (hlawful type addon h.registered h.allowed).equal_trans h.comparable (h.accepts ha)
    (h.accepts hb)
    (h.accepts hc) hab hbc

end

end

/-! ## Maps from keys to locations -/

/-- A lookup and a count are those of a map with these entries. -/
structure UniqueMap (registry : Registry) (type : SqlType)
    (lookup : Value → Option RowLocation) (size : Int) (entries : List (Value × RowLocation)) :
    Prop where
  keyed : ∃ addon equal, registry.Keyed type addon equal
  keys : ∀ e ∈ entries, registry.Key type e.1
  exact : ∀ v, registry.Key type v → ∀ l, lookup v = some l ↔
    ∃ k, (k, l) ∈ entries ∧ registry.sameKey type k v = true
  size : size = entries.length

/-- How a lookup changes when one key is given a location or none. -/
def Updated (registry : Registry) (type : SqlType) (lookup lookup' : Value → Option RowLocation)
    (v : Value) (x : Option RowLocation) : Prop :=
  ∀ w, registry.Key type w →
    lookup' w = if registry.sameKey type v w = true then x else lookup w

namespace UniqueMap

variable {registry : Registry} {type : SqlType} {lookup lookup' : Value → Option RowLocation}
  {size size' : Int} {entries entries' : List (Value × RowLocation)} {v : Value} {l : RowLocation}

theorem perm (h : UniqueMap registry type lookup size entries) (hp : entries.Perm entries') :
    UniqueMap registry type lookup size entries' where
  keyed := h.keyed
  keys e he := h.keys e (hp.mem_iff.mpr he)
  exact w hw m := by
    rw [h.exact w hw m]
    exact exists_congr fun k => and_congr_left fun _ => hp.mem_iff
  size := by rw [h.size, hp.length_eq]

/-- Entering a key that is not there. -/
theorem insert (hlawful : registry.Lawful) (h : UniqueMap registry type lookup size entries)
    (hv : registry.Key type v) (hnone : lookup v = none)
    (hu : Updated registry type lookup lookup' v (some l)) (hsize : size' = size + 1) :
    UniqueMap registry type lookup' size' ((v, l) :: entries) := by
  obtain ⟨addon, equal, hkeyed⟩ := h.keyed
  refine ⟨h.keyed, fun e he => ?_, fun w hw m => ?_, ?_⟩
  · rcases List.mem_cons.mp he with rfl | he
    · exact hv
    · exact h.keys e he
  · rw [hu w hw]
    split
    · next hvw =>
        constructor
        · intro heq
          cases heq
          exact ⟨v, List.mem_cons_self, hvw⟩
        · rintro ⟨k, hk, hkw⟩
          rcases List.mem_cons.mp hk with heq | hk
          · cases heq
            rfl
          · -- An equal key among the entries would have been found.
            have hwv := hkeyed.sameKey_symm hlawful hv hw hvw
            have hkv := hkeyed.sameKey_trans hlawful (h.keys _ hk) hw hv hkw hwv
            rw [(h.exact v hv m).mpr ⟨k, hk, hkv⟩] at hnone
            cases hnone
    · next hvw =>
        rw [h.exact w hw m]
        constructor
        · rintro ⟨k, hk, hkw⟩
          exact ⟨k, List.mem_cons_of_mem _ hk, hkw⟩
        · rintro ⟨k, hk, hkw⟩
          rcases List.mem_cons.mp hk with heq | hk
          · cases heq
            exact absurd hkw hvw
          · exact ⟨k, hk, hkw⟩
  · rw [hsize, h.size]
    simp

theorem lookup_of_mem (hlawful : registry.Lawful)
    (h : UniqueMap registry type lookup size entries) {e : Value × RowLocation}
    (he : e ∈ entries) : lookup e.1 = some e.2 := by
  obtain ⟨addon, equal, hkeyed⟩ := h.keyed
  have hkey := h.keys e he
  exact (h.exact e.1 hkey e.2).mpr ⟨e.1, he, hkeyed.sameKey_refl hlawful hkey⟩

/-- An empty lookup is the empty map. -/
theorem empty {addon : TypeAddon} {equal : Bytes → Value → Value → Bool}
    (hkeyed : registry.Keyed type addon equal) (hnone : ∀ v, lookup v = none) (hsize : size = 0) :
    UniqueMap registry type lookup size [] where
  keyed := ⟨addon, equal, hkeyed⟩
  keys e he := by cases he
  exact v _ l := by simp [hnone]
  size := hsize

end UniqueMap

/-! ## The hash index -/

namespace HashIndex

variable {x : Option RowLocation}

/-- A hash index of a type: its callbacks are the add-on's, its buckets are
in order, and every key in them belongs there. -/
structure Fits (registry : Registry) (type : SqlType) (h : HashIndex) : Prop where
  of_addon : ∃ addon equal hash, registry.Keyed type addon equal ∧ addon.hash = some hash ∧
    h.hash = hash type.parameters ∧ h.native = addon.nativeI64 ∧
    (h.native = false → ∃ compare, addon.compare = some compare ∧
      h.compare = compare type.parameters)
  integers : h.native = true → ∀ n, SortedMap.Sorted (h.integers n)
  buckets : h.native = false → ∀ n,
    ThreeWay.SortedMap (registry.Key type) h.compare (h.buckets n)
  payloads : h.native = true → ∀ n, ∀ e ∈ h.integers n,
    nativeNumber e.1 = n ∧ ∃ v, registry.Key type v ∧ payload v = e.1
  hashed : h.native = false → ∀ n, ∀ e ∈ h.buckets n, h.number e.1 = n

variable {registry : Registry} {type : SqlType} {h h' : HashIndex} {v w : Value}
  {l : RowLocation}

theorem number_lt (h : HashIndex) (v : Value) : h.number v < bucketCount := by
  rw [number]
  split
  · rw [nativeNumber, bucketCount]
    omega
  · exact Nat.mod_lt _ (by decide)

section

variable (hlawful : registry.Lawful) (hf : h.Fits registry type)
include hlawful hf

theorem Fits.sameKey_native (hn : h.native = true) (hv : registry.Key type v)
    (hw : registry.Key type w) : registry.sameKey type v w = true ↔ payload v = payload w := by
  obtain ⟨addon, equal, hash, hkeyed, -, -, hnative, -⟩ := hf.of_addon
  rw [hkeyed.sameKey_eq]
  exact (hlawful type addon hkeyed.registered hkeyed.allowed).native_equal (hnative ▸ hn)
    hkeyed.comparable (hkeyed.accepts hv) (hkeyed.accepts hw)

theorem Fits.sameKey_compare (hn : h.native = false) (hv : registry.Key type v)
    (hw : registry.Key type w) : registry.sameKey type v w = true ↔ h.compare v w = 0 := by
  obtain ⟨addon, equal, hash, hkeyed, -, -, -, hcompare⟩ := hf.of_addon
  obtain ⟨compare, hcompare, heq⟩ := hcompare hn
  rw [hkeyed.sameKey_eq, heq]
  exact ((hlawful type addon hkeyed.registered hkeyed.allowed).compare_equal hcompare
    hkeyed.comparable (hkeyed.accepts hv) (hkeyed.accepts hw)).symm

theorem Fits.threeWay (hn : h.native = false) : ThreeWay (registry.Key type) h.compare := by
  obtain ⟨addon, equal, hash, hkeyed, -, -, -, hcompare⟩ := hf.of_addon
  obtain ⟨compare, hcompare, heq⟩ := hcompare hn
  rw [heq]
  exact ((hlawful type addon hkeyed.registered hkeyed.allowed).compare hcompare).mono
    fun a ha => hkeyed.accepts ha

theorem Fits.number_eq (hv : registry.Key type v) (hw : registry.Key type w)
    (hvw : registry.sameKey type v w = true) : h.number v = h.number w := by
  rw [number, number]
  cases hn : h.native with
  | true =>
    rw [(hf.sameKey_native hlawful hn hv hw).mp hvw]
    rfl
  | false =>
    obtain ⟨addon, equal, hash, hkeyed, hhash, heq, -⟩ := hf.of_addon
    rw [hkeyed.sameKey_eq] at hvw
    have := (hlawful type addon hkeyed.registered hkeyed.allowed).hash_equal hhash
      hkeyed.comparable (hkeyed.accepts hv) (hkeyed.accepts hw) hvw
    simp [heq, this]

end

theorem lookup_native (hn : h.native = true) :
    h.lookup w = SortedMap.find (payload w) (h.integers (h.number w)) := by
  rw [lookup, if_pos hn]

theorem lookup_buckets (hn : h.native = false) :
    h.lookup w = ThreeWay.find h.compare w (h.buckets (h.number w)) := by
  rw [lookup, hn]
  rfl

/-! Both operations replace one bucket; these are the effects of that. -/

section

variable {n : Nat}

theorem Fits.setIntegers (hf : h.Fits registry type) {b : List (Int × RowLocation)}
    (hb : SortedMap.Sorted b)
    (hp : ∀ e ∈ b, nativeNumber e.1 = n ∧ ∃ v, registry.Key type v ∧ payload v = e.1) :
    Fits registry type { h with integers := Function.update h.integers n b } := by
  refine ⟨hf.of_addon, fun hn m => ?_, hf.buckets, fun hn m e he => ?_, hf.hashed⟩
  · show SortedMap.Sorted (Function.update h.integers n b m)
    by_cases hm : m = n
    · rw [hm, Function.update_self]
      exact hb
    · rw [Function.update_of_ne hm]
      exact hf.integers hn m
  · change e ∈ Function.update h.integers n b m at he
    by_cases hm : m = n
    · subst hm
      rw [Function.update_self] at he
      exact hp e he
    · rw [Function.update_of_ne hm] at he
      exact hf.payloads hn m e he

theorem Fits.setBucket (hf : h.Fits registry type) {b : Bucket}
    (hb : ThreeWay.SortedMap (registry.Key type) h.compare b) (hp : ∀ e ∈ b, h.number e.1 = n) :
    Fits registry type { h with buckets := Function.update h.buckets n b } := by
  refine ⟨hf.of_addon, hf.integers, fun hn m => ?_, hf.payloads, fun hn m e he => ?_⟩
  · show ThreeWay.SortedMap (registry.Key type) h.compare (Function.update h.buckets n b m)
    by_cases hm : m = n
    · rw [hm, Function.update_self]
      exact hb
    · rw [Function.update_of_ne hm]
      exact hf.buckets hn m
  · change e ∈ Function.update h.buckets n b m at he
    by_cases hm : m = n
    · subst hm
      rw [Function.update_self] at he
      exact hp e he
    · rw [Function.update_of_ne hm] at he
      exact hf.hashed hn m e he

theorem lookup_setIntegers (hn : h.native = true) (b : List (Int × RowLocation)) (w : Value) :
    lookup { h with integers := Function.update h.integers n b } w =
      if h.number w = n then SortedMap.find (payload w) b else h.lookup w := by
  rw [lookup_native hn]
  refine (lookup_native (h := { h with integers := Function.update h.integers n b }) hn).trans ?_
  show SortedMap.find (payload w) (Function.update h.integers n b (h.number w)) = _
  split
  · next heq => rw [heq, Function.update_self]
  · next hne => rw [Function.update_of_ne hne]

theorem lookup_setBucket (hn : h.native = false) (b : Bucket) (w : Value) :
    lookup { h with buckets := Function.update h.buckets n b } w =
      if h.number w = n then ThreeWay.find h.compare w b else h.lookup w := by
  rw [lookup_buckets hn]
  refine (lookup_buckets (h := { h with buckets := Function.update h.buckets n b }) hn).trans ?_
  show ThreeWay.find h.compare w (Function.update h.buckets n b (h.number w)) = _
  split
  · next heq => rw [heq, Function.update_self]
  · next hne => rw [Function.update_of_ne hne]

theorem size_setIntegers (hn : h.native = true) (hlt : n < bucketCount)
    (b : List (Int × RowLocation)) :
    size { h with integers := Function.update h.integers n b } + (h.integers n).length =
      h.size + b.length := by
  simpa [size, hn] using Lists.sum_length_update h.integers b hlt

theorem size_setBucket (hn : h.native = false) (hlt : n < bucketCount) (b : Bucket) :
    size { h with buckets := Function.update h.buckets n b } + (h.buckets n).length =
      h.size + b.length := by
  simpa [size, hn] using Lists.sum_length_update h.buckets b hlt

end

section

variable (hlawful : registry.Lawful) (hf : h.Fits registry type)
include hlawful hf

/-- A bucket that answers as updated makes the index answer as updated. -/
theorem Fits.updated_integers
    (hn : h.native = true) (hv : registry.Key type v) {b : List (Int × RowLocation)}
    (hb : ∀ k, SortedMap.find k b =
      if k = payload v then x else SortedMap.find k (h.integers (h.number v))) :
    Updated registry type h.lookup
      (lookup { h with integers := Function.update h.integers (h.number v) b }) v x := by
  intro w hw
  rw [lookup_setIntegers hn, hb]
  by_cases hvw : registry.sameKey type v w = true
  · rw [if_pos hvw, if_pos (hf.number_eq hlawful hv hw hvw).symm,
      if_pos ((hf.sameKey_native hlawful hn hv hw).mp hvw).symm]
  · have hne : payload w ≠ payload v := fun heq =>
      hvw ((hf.sameKey_native hlawful hn hv hw).mpr heq.symm)
    rw [if_neg hvw, if_neg hne]
    split
    · next heq => rw [lookup_native hn, heq]
    · rfl

theorem Fits.updated_bucket (hn : h.native = false) (hv : registry.Key type v) {b : Bucket}
    (hb : ∀ w, registry.Key type w → ThreeWay.find h.compare w b =
      if h.compare v w = 0 then x else ThreeWay.find h.compare w (h.buckets (h.number v))) :
    Updated registry type h.lookup
      (lookup { h with buckets := Function.update h.buckets (h.number v) b }) v x := by
  intro w hw
  rw [lookup_setBucket hn, hb w hw]
  by_cases hvw : registry.sameKey type v w = true
  · rw [if_pos hvw, if_pos (hf.number_eq hlawful hv hw hvw).symm,
      if_pos ((hf.sameKey_compare hlawful hn hv hw).mp hvw)]
  · have hne : h.compare v w ≠ 0 := fun heq =>
      hvw ((hf.sameKey_compare hlawful hn hv hw).mpr heq)
    rw [if_neg hvw, if_neg hne]
    split
    · next heq => rw [lookup_buckets hn, heq]
    · rfl

theorem Fits.insert (hv : registry.Key type v) (hins : h.insert v l = .ok h') :
    h'.Fits registry type ∧ h.lookup v = none ∧
      Updated registry type h.lookup h'.lookup v (some l) ∧ h'.size = h.size + 1 := by
  cases hn : h.native with
  | true =>
    rw [HashIndex.insert, if_pos hn] at hins
    split at hins
    · cases hins
    · next hnone =>
        cases hins
        have hnumber : h.number v = nativeNumber (payload v) := by rw [number, if_pos hn]
        refine ⟨hf.setIntegers (hf.integers hn _).insert fun e he => ?_, ?_, ?_, ?_⟩
        · rcases SortedMap.mem_insert he with rfl | he
          · exact ⟨hnumber.symm, v, hv, rfl⟩
          · exact hf.payloads hn _ e he
        · rw [lookup_native hn]
          exact hnone
        · exact hf.updated_integers hlawful hn hv fun k => SortedMap.find_insert
        · have hlen := (SortedMap.insert_perm (v := l) hnone).length_eq
          have hsize := size_setIntegers hn (number_lt h v)
            (SortedMap.insert (payload v) l (h.integers (h.number v)))
          rw [List.length_cons] at hlen
          omega
  | false =>
    rw [HashIndex.insert, if_neg (by simp [hn])] at hins
    have hlaw := hf.threeWay hlawful hn
    have hbucket := hf.buckets hn (h.number v)
    split at hins
    · cases hins
    · next bucket hemplace =>
        cases hins
        refine ⟨hf.setBucket (hbucket.emplace hlaw hv hemplace) fun e he => ?_, ?_, ?_, ?_⟩
        · rcases List.mem_cons.mp ((ThreeWay.SortedMap.emplace_perm hemplace).mem_iff.mp he) with
            rfl | he
          · rfl
          · exact hf.hashed hn _ e he
        · rw [lookup_buckets hn]
          by_contra hsome
          rw [(ThreeWay.SortedMap.emplace_eq_none_iff v l _).mpr
            (Option.isSome_iff_ne_none.mpr hsome)] at hemplace
          cases hemplace
        · exact hf.updated_bucket hlawful hn hv fun w hw =>
            hbucket.find_emplace hlaw hv hw hemplace
        · have hlen := (ThreeWay.SortedMap.emplace_perm hemplace).length_eq
          have hsize := size_setBucket hn (number_lt h v) bucket
          rw [List.length_cons] at hlen
          omega

theorem Fits.erase (hv : registry.Key type v) (hdel : h.erase v l = .ok h') :
    h'.Fits registry type ∧ h.lookup v = some l ∧
      Updated registry type h.lookup h'.lookup v none ∧ h.size = h'.size + 1 := by
  rw [HashIndex.erase] at hdel
  split at hdel
  · cases hdel
  next hfound =>
  have hfound : h.lookup v = some l := by simpa using hfound
  cases hn : h.native with
  | true =>
    rw [if_pos hn] at hdel
    cases hdel
    have hfind : SortedMap.find (payload v) (h.integers (h.number v)) = some l := by
      rw [lookup_native hn] at hfound
      exact hfound
    have hsorted := hf.integers hn (h.number v)
    refine ⟨hf.setIntegers hsorted.erase fun e he =>
      hf.payloads hn _ e (SortedMap.mem_erase.mp he).1, hfound, ?_, ?_⟩
    · refine hf.updated_integers hlawful hn hv fun k => ?_
      split
      · next heq => rw [heq, SortedMap.find_erase_self]
      · next hne => exact SortedMap.find_erase_of_ne hne
    · obtain ⟨before, after, hsplit, herase⟩ := SortedMap.erase_split hsorted hfind
      have hsize := size_setIntegers hn (number_lt h v)
        (SortedMap.erase (payload v) (h.integers (h.number v)))
      rw [herase] at hsize
      have hlen := congrArg List.length hsplit
      simp only [List.length_append, List.length_cons] at hlen hsize
      rw [herase]
      omega
  | false =>
    rw [if_neg (by simp [hn])] at hdel
    cases hdel
    have hlaw := hf.threeWay hlawful hn
    have hbucket := hf.buckets hn (h.number v)
    have hfind : ThreeWay.find h.compare v (h.buckets (h.number v)) = some l := by
      rw [lookup_buckets hn] at hfound
      exact hfound
    obtain ⟨before, k, after, hsplit, herase, -⟩ := hbucket.erase_split hlaw hv hfind
    have hsub : (ThreeWay.erase h.compare v (h.buckets (h.number v))).Sublist
        (h.buckets (h.number v)) := by
      rw [herase, hsplit]
      exact List.Sublist.append_left (List.sublist_cons_self _ _) _
    refine ⟨hf.setBucket (hbucket.sublist hsub) fun e he => hf.hashed hn _ e (hsub.subset he),
      hfound, ?_, ?_⟩
    · exact hf.updated_bucket hlawful hn hv fun w hw => hbucket.find_erase hlaw hv hw hfind
    · have hsize := size_setBucket hn (number_lt h v)
        (ThreeWay.erase h.compare v (h.buckets (h.number v)))
      rw [herase] at hsize
      have hlen := congrArg List.length hsplit
      simp only [List.length_append, List.length_cons] at hlen hsize
      rw [herase]
      omega

end

theorem makeHashIndex_fits {addon : TypeAddon}
    (haddon : registry.types type.id type.version = some addon)
    (htype : addon.validateType type.parameters = .ok ())
    (hmake : makeHashIndex type addon = .ok h) :
    h.Fits registry type ∧ (∀ v, h.lookup v = none) ∧ h.size = 0 := by
  have hempty : ∀ (native : Bool) (hash : Value → Nat) (compare : Value → Value → Int),
      (∀ v, lookup { native, hash, compare } v = none) ∧ size { native, hash, compare } = 0 := by
    intro native hash compare
    refine ⟨fun v => ?_, ?_⟩
    · cases native <;> rfl
    · simp [size]
  rw [makeHashIndex] at hmake
  split at hmake
  · next equal hash compare hequal hhash hcompare =>
      cases hmake
      refine ⟨⟨⟨addon, equal, hash, ⟨haddon, htype, hequal⟩, hhash, rfl, rfl, fun _ => ?_⟩, ?_, ?_,
        by simp, by simp⟩, hempty _ _ _⟩
      · exact ⟨compare, hcompare, rfl⟩
      · exact fun _ _ => SortedMap.sorted_nil
      · exact fun _ _ => ThreeWay.SortedMap.nil
  · next equal hash hequal hhash hcompare =>
      split at hmake
      · next hnative =>
          cases hmake
          refine ⟨⟨⟨addon, equal, hash, ⟨haddon, htype, hequal⟩, hhash, rfl, hnative.symm,
            fun hn => by cases hn⟩, ?_, ?_, by simp, by simp⟩, hempty _ _ _⟩
          · exact fun _ _ => SortedMap.sorted_nil
          · exact fun _ _ => ThreeWay.SortedMap.nil
      · cases hmake
  · cases hmake

end HashIndex

/-! ## The paged index -/

namespace PagedIndex

def merged (x : PagedIndex) : List (Int × RowLocation) := x.changes.foldl merge x.base

/-- A paged index of a type with native integer keys, its image and its
changes in order, with keys of the type. -/
structure Fits (registry : Registry) (type : SqlType) (x : PagedIndex) : Prop where
  of_addon : ∃ addon equal, registry.Keyed type addon equal ∧ addon.nativeI64 = true
  base : SortedMap.Sorted x.base
  changes : SortedMap.Sorted x.changes
  payloads : ∀ e ∈ x.merged, ∃ v, registry.Key type v ∧ payload v = e.1

section Merging

variable {records : List (Int × RowLocation)} {changes : List (Int × Option RowLocation)} {k : Int}

theorem merge_sorted (h : SortedMap.Sorted records) (c : Int × Option RowLocation) :
    SortedMap.Sorted (merge records c) := by
  rw [merge]
  split
  · exact h.insert
  · exact h.erase

theorem foldl_merge_sorted (changes : List (Int × Option RowLocation)) :
    ∀ {records}, SortedMap.Sorted records → SortedMap.Sorted (changes.foldl merge records) := by
  induction changes with
  | nil => intro records h; exact h
  | cons c changes ih => intro records h; exact ih (merge_sorted h c)

theorem find_merge (c : Int × Option RowLocation) :
    SortedMap.find k (merge records c) = if k = c.1 then c.2 else SortedMap.find k records := by
  obtain ⟨key, location⟩ := c
  cases location with
  | some l => exact SortedMap.find_insert
  | none =>
    simp only [merge]
    split
    · next heq => rw [heq, SortedMap.find_erase_self]
    · next hne => exact SortedMap.find_erase_of_ne hne

theorem find_foldl_merge (hs : SortedMap.Sorted changes) :
    SortedMap.find k (changes.foldl merge records) = match SortedMap.find k changes with
      | some location => location | none => SortedMap.find k records := by
  induction changes generalizing records with
  | nil => rfl
  | cons c changes ih =>
    rw [List.foldl_cons, ih hs.tail, SortedMap.find_cons]
    by_cases hk : c.1 = k
    · -- Later changes are to larger keys.
      have hnone : SortedMap.find k changes = none :=
        SortedMap.find_eq_none_iff.mpr fun e he => hk ▸ (ne_of_gt (hs.head_lt he))
      rw [if_pos hk, hnone]
      simp only [find_merge, hk, if_true]
    · rw [if_neg hk]
      split
      · rfl
      · rw [find_merge, if_neg (fun h => hk h.symm)]

theorem length_merge (h : SortedMap.Sorted records) (c : Int × Option RowLocation) :
    ((merge records c).length : Int) =
      records.length - (if (SortedMap.find c.1 records).isSome then 1 else 0) +
        (if c.2.isSome then 1 else 0) := by
  obtain ⟨key, location⟩ := c
  simp only [merge]
  cases hfind : SortedMap.find key records with
  | none =>
    cases location with
    | some l =>
      have := (SortedMap.insert_perm (v := l) hfind).length_eq
      simp [this]
    | none =>
      have : SortedMap.erase key records = records :=
        List.filter_eq_self.mpr (by simpa using SortedMap.find_eq_none_iff.mp hfind)
      simp [this]
  | some l' =>
    cases location with
    | some l =>
      obtain ⟨before, after, hsplit, hins⟩ := SortedMap.insert_split h hfind
      have hlen := congrArg List.length hsplit
      have hlen' := congrArg List.length (hins l)
      simp only [List.length_append, List.length_cons] at hlen hlen'
      simp only [Option.isSome_some, if_true]
      omega
    | none =>
      obtain ⟨before, after, hsplit, herase⟩ := SortedMap.erase_split h hfind
      have hlen := congrArg List.length hsplit
      have hlen' := congrArg List.length herase
      simp only [List.length_append, List.length_cons] at hlen hlen'
      simp only [Option.isSome_some, Option.isSome_none, Bool.false_eq_true, if_true, if_false]
      omega

end Merging

theorem size_eq_length_merged {x : PagedIndex} (hb : SortedMap.Sorted x.base)
    (hc : SortedMap.Sorted x.changes) : x.size = x.merged.length := by
  -- The changes to come are to keys that stand as they do in the image.
  have hfold : ∀ (changes : List (Int × Option RowLocation)) (records : List (Int × RowLocation)),
      SortedMap.Sorted changes → SortedMap.Sorted records →
      (∀ e ∈ changes, SortedMap.find e.1 records = SortedMap.find e.1 x.base) →
      changes.foldl (fun count e =>
          count - (if (SortedMap.find e.1 x.base).isSome then 1 else 0) +
            (if e.2.isSome then 1 else 0)) (records.length : Int) =
        ((changes.foldl merge records).length : Int) := by
    intro changes
    induction changes with
    | nil => intro records _ _ _; rfl
    | cons c changes ih =>
      intro records hs hr hsame
      rw [List.foldl_cons, List.foldl_cons, ← hsame c List.mem_cons_self, ← length_merge hr c]
      refine ih _ hs.tail (merge_sorted hr c) fun e he => ?_
      rw [find_merge, if_neg (ne_of_gt (hs.head_lt he))]
      exact hsame e (List.mem_cons_of_mem _ he)
  exact hfold x.changes x.base hc hb fun _ _ => rfl

variable {registry : Registry} {type : SqlType} {x x' : PagedIndex} {v w : Value} {l : RowLocation}

theorem lookup_eq_find_merged (hc : SortedMap.Sorted x.changes) (v : Value) :
    x.lookup v = SortedMap.find (payload v) x.merged :=
  (find_foldl_merge hc).symm

section

variable (hf : x.Fits registry type)
include hf

theorem Fits.room : x.room.Fits registry type ∧ x.room.merged = x.merged := by
  rw [PagedIndex.room]
  split
  · exact ⟨⟨hf.of_addon, foldl_merge_sorted _ hf.base, SortedMap.sorted_nil, hf.payloads⟩, rfl⟩
  · exact ⟨hf, rfl⟩

theorem Fits.merged_record (k : Int) (location : Option RowLocation) :
    (x.record k location).merged = merge x.merged (k, location) := by
  obtain ⟨hroom, hmerged⟩ := hf.room
  have hchanges : SortedMap.Sorted (x.record k location).changes := hroom.changes.insert
  have hbase : SortedMap.Sorted (x.record k location).base := hroom.base
  refine SortedMap.Sorted.ext (foldl_merge_sorted _ hbase)
    (merge_sorted (foldl_merge_sorted _ hf.base) _) fun j => ?_
  rw [merged, find_foldl_merge hchanges, find_merge, ← hmerged, merged,
    find_foldl_merge hroom.changes]
  show (match SortedMap.find j (SortedMap.insert k location x.room.changes) with
    | some location => location
    | none => SortedMap.find j x.room.base) = _
  rw [SortedMap.find_insert]
  split
  · next hj =>
      split at hj
      · next heq =>
          cases hj
          rw [if_pos heq]
      · next hne =>
          rw [if_neg hne, hj]
  · next hj =>
      split at hj
      · cases hj
      · next hne => rw [if_neg hne, hj]

theorem Fits.record (hv : registry.Key type v)
    (location : Option RowLocation) : (x.record (payload v) location).Fits registry type := by
  obtain ⟨hroom, -⟩ := hf.room
  refine ⟨hf.of_addon, hroom.base, hroom.changes.insert, fun e he => ?_⟩
  rw [hf.merged_record, merge] at he
  split at he
  · rcases SortedMap.mem_insert he with rfl | he
    · exact ⟨v, hv, rfl⟩
    · exact hf.payloads e he
  · exact hf.payloads e (SortedMap.mem_erase.mp he).1

end

theorem Fits.sameKey (hlawful : registry.Lawful) (hf : x.Fits registry type)
    (hv : registry.Key type v) (hw : registry.Key type w) :
    registry.sameKey type v w = true ↔ payload v = payload w := by
  obtain ⟨addon, equal, hkeyed, hnative⟩ := hf.of_addon
  rw [hkeyed.sameKey_eq]
  exact (hlawful type addon hkeyed.registered hkeyed.allowed).native_equal hnative
    hkeyed.comparable (hkeyed.accepts hv) (hkeyed.accepts hw)

theorem Fits.updated (hlawful : registry.Lawful) (hf : x.Fits registry type)
    (hv : registry.Key type v) (location : Option RowLocation) :
    Updated registry type x.lookup (x.record (payload v) location).lookup v location := by
  intro w hw
  rw [lookup_eq_find_merged (hf.record hv location).changes, lookup_eq_find_merged hf.changes,
    hf.merged_record, find_merge]
  by_cases hvw : registry.sameKey type v w = true
  · rw [if_pos hvw, if_pos ((hf.sameKey hlawful hv hw).mp hvw).symm]
  · rw [if_neg hvw, if_neg fun heq => hvw ((hf.sameKey hlawful hv hw).mpr heq.symm)]

theorem Fits.size_record (hf : x.Fits registry type) (hv : registry.Key type v)
    (location : Option RowLocation) : (x.record (payload v) location).size = x.size -
      (if (x.lookup v).isSome then 1 else 0) + (if location.isSome then 1 else 0) := by
  have hrecorded := hf.record hv location
  rw [size_eq_length_merged hrecorded.base hrecorded.changes, hf.merged_record,
    size_eq_length_merged hf.base hf.changes, lookup_eq_find_merged hf.changes]
  exact length_merge (foldl_merge_sorted _ hf.base) _

theorem Fits.insert (hlawful : registry.Lawful) (hf : x.Fits registry type)
    (hv : registry.Key type v) (hins : x.insert v l = .ok x') :
    x'.Fits registry type ∧ x.lookup v = none ∧
      Updated registry type x.lookup x'.lookup v (some l) ∧ x'.size = x.size + 1 := by
  rw [PagedIndex.insert] at hins
  split at hins
  · cases hins
  · next hnone =>
      cases hins
      have hnone : x.lookup v = none := by simpa using hnone
      refine ⟨hf.record hv _, hnone, hf.updated hlawful hv _, ?_⟩
      rw [hf.size_record hv, hnone]
      simp

end PagedIndex

end CoreSql
