import CoreSql.Proofs.Predicates
import CoreSql.Query.GroupTable

/-!
# The strategies of a table of groups agree

Over lawful add-ons the three ways to find a group amount to one equivalence
of keys: equal payloads, equal hashes and values, or neither key below the
other. So each table is a container of classes (`Classes.Gathers`), with an
invariant that says what its indexes stand for. What containers of classes
have in common does the rest: the tables fail alike or end with the same
groups, which are those of `referenceGroups`.
-/

namespace CoreSql

open Fallible

variable {rows history : List Row} {row : Row} {aggregates : List BoundAggregate} {given : Given}

/-! ## The order of keys -/

theorem compareRows_eq (order : List Comparison) :
    compareRows order = ThreeWay.lex (order.map Comparison.compare) := by
  induction order with
  | nil =>
    funext a b
    cases a <;> cases b <;> rfl
  | cons c cs ih =>
    funext a b
    cases a with
    | nil => rfl
    | cons x xs =>
      cases b with
      | nil => rfl
      | cons y ys =>
        rw [compareRows, List.map_cons, ThreeWay.lex, ih]
        by_cases h : c.compare x y = 0 <;> simp [h]

section

variable {registry : Registry} {types : List SqlType} {order : List Comparison}

abbrev KeyOf (registry : Registry) (types : List SqlType) (key : Row) : Prop :=
  List.Forall₂ registry.Cell types key

theorem compareRows_threeWay (hlawful : registry.Lawful) (h : registry.rowOrder types = .ok order) :
    ThreeWay (KeyOf registry types) (compareRows order) := by
  have hall : List.Forall₂ ThreeWay (types.map registry.Cell) (order.map Comparison.compare) := by
    rw [List.forall₂_map_left_iff, List.forall₂_map_right_iff]
    exact (mapM_eq_ok.mp h).imp fun type c hc => Comparison.compare_threeWay hlawful hc
  rw [compareRows_eq]
  exact (ThreeWay.lex_lawful hall).mono fun key hkey => List.forall₂_map_left_iff.mpr hkey

variable {P : Row → Prop} {a b : Row}

theorem rowSame_iff (h : ThreeWay P (compareRows order)) (ha : P a) (hb : P b) :
    rowSame order a b = true ↔ compareRows order a b = 0 := by
  have hswap := h.swap ha hb
  have hswap' := h.swap hb ha
  simp only [rowSame, rowLess, Bool.and_eq_true, Bool.not_eq_true', decide_eq_false_iff_not]
  omega

theorem rowSame_comm (order : List Comparison) (a b : Row) :
    rowSame order a b = rowSame order b a := Bool.and_comm _ _

theorem rowSame_equivalence (h : ThreeWay P (compareRows order)) :
    Buckets.Equivalence (rowSame order) P := by
  constructor
  · intro a ha
    exact (rowSame_iff h ha ha).mpr (h.refl ha)
  · intro a b ha hb hab
    exact (rowSame_iff h hb ha).mpr (h.symm ha hb ((rowSame_iff h ha hb).mp hab))
  · intro a b c ha hb hc hab hbc
    exact (rowSame_iff h ha hc).mpr (h.zero_trans ha hb hc ((rowSame_iff h ha hb).mp hab)
      ((rowSame_iff h hb hc).mp hbc))

end

/-! ## Equal keys -/

section

variable {registry : Registry} {types : List SqlType} {addons : List TypeAddon}
  {order : List Comparison} {a b : Row} {type : SqlType} {addon : TypeAddon} {x y : Value}
  {equal : Bytes → Value → Value → Bool}

/-- Two cells are equal by the add-on, or both NULL, where they compare as
equal. -/
theorem cell_equal_iff (hlawful : registry.Lawful) {c : Comparison}
    (hc : Comparison.create registry type false = .ok c)
    (haddon : registry.types type.id type.version = some addon) (hequal : addon.equal = some equal)
    (hx : registry.Cell type x) (hy : registry.Cell type y) :
    (if x.isNull || y.isNull then x.isNull && y.isNull else equal type.parameters x y) = true ↔
      c.compare x y = 0 := by
  obtain ⟨addon', haddon', hvalid, rfl, -, hsome⟩ := Comparison.create_ok hc
  cases haddon.symm.trans haddon'
  obtain ⟨compare, hcompare⟩ := Option.isSome_iff_exists.mp (hsome rfl)
  rw [Comparison.compare, hcompare]
  cases hnx : x.isNull with
  | true => cases hny : y.isNull <;> simp [compareNulls, hnx, hny]
  | false =>
    cases hny : y.isNull with
    | true => simp [compareNulls, hnx, hny]
    | false =>
      simp only [Bool.or_self, Bool.false_eq_true, if_false]
      exact ((hlawful type addon haddon hvalid).compare_equal hcompare hequal
        (hx.accepts hnx haddon) (hy.accepts hny haddon)).symm

abbrev Hashable (registry : Registry) (type : SqlType) (addon : TypeAddon) : Prop :=
  registry.types type.id type.version = some addon ∧ addon.hashableGroup = true

theorem hashable_of_mapM (haddons : types.mapM registry.addon = .ok addons)
    (hall : addons.all TypeAddon.hashableGroup = true) :
    List.Forall₂ (Hashable registry) types addons := by
  have h := mapM_eq_ok.mp haddons
  rw [List.all_eq_true] at hall
  induction h with
  | nil => exact .nil
  | cons haddon _ ih =>
    obtain ⟨hfirst, hrest⟩ := List.forall_mem_cons.mp hall
    exact .cons ⟨addon_eq_ok.mp haddon, hfirst⟩ (ih (mapM_eq_ok.mpr ‹_›) hrest)

section

variable (hlawful : registry.Lawful)
include hlawful

theorem keyEqual_iff (haddons : List.Forall₂ (Hashable registry) types addons)
    (horder : List.Forall₂ (fun type c => Comparison.create registry type false = .ok c)
      types order)
    (ha : KeyOf registry types a) (hb : KeyOf registry types b) :
    keyEqual (types.zip addons) a b = true ↔ compareRows order a b = 0 := by
  induction haddons generalizing order a b with
  | nil =>
    cases horder
    simp [keyEqual, compareRows]
  | cons haddon _ ih =>
    obtain ⟨haddon, hhash⟩ := haddon
    cases horder with
    | cons hc horder =>
    cases ha with
    | cons hx ha =>
    cases hb with
    | cons hy hb =>
      simp only [TypeAddon.hashableGroup, Bool.and_eq_true, Option.isSome_iff_exists] at hhash
      obtain ⟨⟨-, equal, hequal⟩, -⟩ := hhash
      have hcell := cell_equal_iff hlawful hc haddon hequal hx hy
      rw [List.zip_cons_cons, keyEqual, compareRows, Bool.and_eq_true, ih horder ha hb, hequal]
      simp only [Option.any_some, hcell]
      split <;> simp_all

theorem mixHash_eq (hash : UInt64)
    (haddon : registry.types type.id type.version = some addon) (hequal : addon.equal = some equal)
    (hx : registry.Cell type x) (hy : registry.Cell type y)
    (h : (if x.isNull || y.isNull then x.isNull && y.isNull else equal type.parameters x y) =
      true) :
    mixHash hash ((type, addon), x) = mixHash hash ((type, addon), y) := by
  rw [mixHash, mixHash]
  cases hnx : x.isNull with
  | true =>
    have hny : y.isNull = true := by simpa [hnx] using h
    simp only [hny]
  | false =>
    have hny : y.isNull = false := by
      cases hny : y.isNull with
      | true => simp [hnx, hny] at h
      | false => rfl
    have hxy : equal type.parameters x y = true := by simpa [hnx, hny] using h
    obtain ⟨addon', haddon', hvalid, -⟩ := cell_iff.mp hx
    cases haddon.symm.trans haddon'
    cases hhash : addon.hash with
    | none => simp only [hny]
    | some f =>
      have hsame := (hlawful type addon haddon hvalid).hash_equal hhash hequal
        (hx.accepts hnx haddon) (hy.accepts hny haddon) hxy
      simp only [hny, hsame]

theorem foldl_mixHash_eq
    (haddons : List.Forall₂ (Hashable registry) types addons) (ha : KeyOf registry types a)
    (hb : KeyOf registry types b) (h : keyEqual (types.zip addons) a b = true) (hash : UInt64) :
    ((types.zip addons).zip a).foldl mixHash hash =
      ((types.zip addons).zip b).foldl mixHash hash := by
  induction haddons generalizing a b hash with
  | nil => rfl
  | cons haddon _ ih =>
    obtain ⟨haddon, hhash⟩ := haddon
    cases ha with
    | cons hx ha =>
    cases hb with
    | cons hy hb =>
      simp only [TypeAddon.hashableGroup, Bool.and_eq_true, Option.isSome_iff_exists] at hhash
      obtain ⟨⟨-, equal, hequal⟩, -⟩ := hhash
      rw [List.zip_cons_cons, keyEqual, Bool.and_eq_true, hequal, Option.any_some] at h
      simp only [List.zip_cons_cons, List.foldl_cons]
      rw [mixHash_eq hlawful hash haddon hequal hx hy h.1]
      exact ih ha hb h.2 _

theorem sameHashed_eq_rowSame (horder : registry.rowOrder types = .ok order)
    (haddons : List.Forall₂ (Hashable registry) types addons) (ha : KeyOf registry types a)
    (hb : KeyOf registry types b) :
    GroupTable.sameHashed (types.zip addons) a b = rowSame order a b := by
  have hequal := keyEqual_iff hlawful haddons (mapM_eq_ok.mp horder) ha hb
  rw [Bool.eq_iff_iff, GroupTable.sameHashed, Bool.and_eq_true, beq_iff_eq, hequal,
    rowSame_iff (compareRows_threeWay hlawful horder) ha hb]
  constructor
  · exact And.right
  · intro h
    exact ⟨foldl_mixHash_eq hlawful haddons ha hb (hequal.mpr h) 0, h⟩

theorem nativeSame_eq (horder : registry.rowOrder [type] = .ok order)
    (haddon : registry.types type.id type.version = some addon) (hnative : addon.nativeI64 = true)
    (ha : KeyOf registry [type] a) (hb : KeyOf registry [type] b) :
    nativeSame a b = rowSame order a b := by
  rw [Bool.eq_iff_iff, rowSame_iff (compareRows_threeWay hlawful horder) ha hb]
  cases mapM_eq_ok.mp horder with
  | @cons _ c _ _ hc hnil =>
  cases hnil
  cases ha with
  | @cons _ x _ _ hx hnil =>
  cases hnil
  cases hb with
  | @cons _ y _ _ hy hnil =>
  cases hnil
  obtain ⟨addon', haddon', hvalid, rfl, -, hsome⟩ := Comparison.create_ok hc
  cases haddon.symm.trans haddon'
  obtain ⟨compare, hcompare⟩ := Option.isSome_iff_exists.mp (hsome rfl)
  have hlaw := hlawful type addon haddon hvalid
  have hcx : Row.cell [x] 0 = x := rfl
  have hcy : Row.cell [y] 0 = y := rfl
  simp only [compareRows, Comparison.compare, hcompare, nativeSame, hcx, hcy]
  cases hnx : x.isNull with
  | true => cases hny : y.isNull <;> simp [compareNulls, hnx, hny]
  | false =>
    cases hny : y.isNull with
    | true => simp [compareNulls, hnx, hny]
    | false =>
      have hax := hx.accepts hnx haddon
      have hay := hy.accepts hny haddon
      have hle := hlaw.native_compare hnative hcompare hax hay
      have hge := hlaw.native_compare hnative hcompare hay hax
      have hswap := (hlaw.compare hcompare).swap hax hay
      have hswap' := (hlaw.compare hcompare).swap hay hax
      simp only [Bool.or_self, Bool.false_eq_true, if_false, beq_iff_eq]
      split <;> omega

end

end

/-! ## What the indexes of a table stand for -/

namespace GroupTable

open Classes

section

variable {σ α : Type} {order : List Comparison} {P : Row → Prop} {t t' : GroupTable σ} {key : Row}
  {a b : Row}

/-- The way a table finds its groups is a way to find equal keys. -/
structure Fits (order : List Comparison) (P : Row → Prop) (t : GroupTable σ) : Prop where
  less : t.less = order
  native : t.strategy = .native → ∀ {a b}, P a → P b → nativeSame a b = rowSame order a b
  hashed : t.strategy = .hashed → ∀ {a b}, P a → P b →
    sameHashed t.columns a b = rowSame order a b

/-- The indexes find the entries, and the ordered map is in order. -/
structure Valid (order : List Comparison) (P : Row → Prop) (t : GroupTable σ) : Prop
    extends Fits order P t where
  found : t.strategy ≠ .ordered → ∀ {key}, P key →
    t.find key = t.entries.findIdx? fun e => rowSame order e.1 key
  sorted : t.strategy = .ordered → t.ordered.Pairwise fun a b => compareRows order a.1 b.1 < 0

theorem Fits.valid (h : Fits order P t) (hordered : t.ordered = []) (hintegers : t.integers = [])
    (hnull : t.null = none) (hentries : t.entries = []) (hmap : t.hashedMap = []) :
    Valid order P t := by
  refine ⟨h, fun hne key _ => ?_, fun _ => ?_⟩
  · rw [find, hentries]
    cases hs : t.strategy with
    | native => simp [hnull, hintegers]
    | hashed => simp [hmap]
    | ordered => exact absurd hs hne
  · rw [hordered]
    exact .nil

theorem Valid.lowerBound_split (horder : ThreeWay P (compareRows order)) (h : Valid order P t)
    (hs : t.strategy = .ordered) (hkeys : ∀ e ∈ t.ordered, P e.1) (hkey : P key) :
    (∀ e ∈ t.ordered.take (t.lowerBound key), compareRows order e.1 key < 0) ∧
      ∀ e ∈ t.ordered.drop (t.lowerBound key), 0 ≤ compareRows order e.1 key := by
  have hbelow : ∀ e ∈ t.ordered.take (t.lowerBound key), compareRows order e.1 key < 0 := by
    intro e he
    obtain ⟨i, hi, rfl⟩ := List.mem_take_iff_getElem.mp he
    have hnot := List.not_of_lt_findIdx (Nat.lt_of_lt_of_le hi (Nat.min_le_left _ _))
    simpa [rowLess, h.less] using hnot
  refine ⟨hbelow, fun e he => ?_⟩
  cases hdrop : t.ordered.drop (t.lowerBound key) with
  | nil => simp [hdrop] at he
  | cons first rest =>
    have hlt : t.lowerBound key < t.ordered.length := by
      by_contra hge
      simp [List.drop_eq_nil_of_le (Nat.le_of_not_lt hge)] at hdrop
    have hfirst : 0 ≤ compareRows order first.1 key := by
      have hget : (!rowLess t.less t.ordered[t.lowerBound key].1 key) = true :=
        List.findIdx_getElem (w := hlt)
      have hhead : t.ordered[t.lowerBound key] = first := by
        rw [List.drop_eq_getElem_cons hlt] at hdrop
        exact (List.cons.inj hdrop).1
      rw [hhead] at hget
      simpa [rowLess, h.less] using hget
    rw [hdrop] at he
    rcases List.mem_cons.mp he with rfl | he'
    · exact hfirst
    · have hsorted := (h.sorted hs).sublist (List.drop_sublist (t.lowerBound key) t.ordered)
      rw [hdrop] at hsorted
      have hlt' := (List.pairwise_cons.mp hsorted).1 e he'
      have hmem : ∀ d ∈ first :: rest, P d.1 := fun d hd =>
        hkeys d (List.mem_of_mem_drop (hdrop ▸ hd))
      have hPf := hmem first List.mem_cons_self
      have hPe := hmem e he
      by_contra hneg
      have hneg' := horder.lt_trans hPf hPe hkey hlt' (by omega)
      omega

theorem rowSame_of_lt (h : compareRows order a b < 0) : rowSame order a b = false := by
  simp [rowSame, rowLess, h]

theorem rowSame_of_gt (h : compareRows order b a < 0) : rowSame order a b = false := by
  simp [rowSame, rowLess, h]

theorem Valid.find_eq (horder : ThreeWay P (compareRows order)) (h : Valid order P t)
    (hkeys : ∀ e ∈ t.slots, P e.1) (hkey : P key) :
    t.find key = t.slots.findIdx? fun e => rowSame order e.1 key := by
  rw [slots] at hkeys ⊢
  cases hs : t.strategy with
  | native => exact h.found (by simp [hs]) hkey
  | hashed => exact h.found (by simp [hs]) hkey
  | ordered =>
    simp only [hs] at hkeys ⊢
    obtain ⟨hbelow, habove⟩ := h.lowerBound_split horder hs hkeys hkey
    have hlen : (t.ordered.take (t.lowerBound key)).length = t.lowerBound key :=
      List.length_take_of_le List.findIdx_le_length
    have hnone : (t.ordered.take (t.lowerBound key)).findIdx? (fun e => rowSame order e.1 key) =
        none := List.findIdx?_eq_none_iff.mpr fun e he => rowSame_of_lt (hbelow e he)
    have hsplit : t.ordered.findIdx? (fun e => rowSame order e.1 key) =
        ((t.ordered.drop (t.lowerBound key)).findIdx? fun e => rowSame order e.1 key).map
          (· + t.lowerBound key) := by
      conv_lhs => rw [← List.take_append_drop (t.lowerBound key) t.ordered]
      rw [List.findIdx?_append, hnone, hlen, Option.none_or]
    rw [find, hs, hsplit]
    cases hdrop : t.ordered.drop (t.lowerBound key) with
    | nil =>
      have hget : t.ordered[t.lowerBound key]? = none :=
        List.getElem?_eq_none (List.drop_eq_nil_iff.mp hdrop)
      simp [hget]
    | cons first rest =>
      have hget : t.ordered[t.lowerBound key]? = some first := by
        rw [← List.head?_drop, hdrop, List.head?_cons]
      have hmem : ∀ e ∈ first :: rest, P e.1 := fun e he =>
        hkeys e (List.mem_of_mem_drop (hdrop ▸ he))
      have hfirst : 0 ≤ compareRows order first.1 key := habove first (by simp [hdrop])
      have hswap := horder.swap (hmem first List.mem_cons_self) hkey
      simp only [hget, h.less, rowLess]
      by_cases hlt : compareRows order key first.1 < 0
      · have hall : (first :: rest).findIdx? (fun e => rowSame order e.1 key) = none := by
          refine List.findIdx?_eq_none_iff.mpr fun e he => rowSame_of_gt ?_
          rcases List.mem_cons.mp he with rfl | he'
          · exact hlt
          · have hsorted := (h.sorted hs).sublist (List.drop_sublist (t.lowerBound key) t.ordered)
            rw [hdrop] at hsorted
            exact horder.lt_trans hkey (hmem first List.mem_cons_self) (hmem e he) hlt
              ((List.pairwise_cons.mp hsorted).1 e he')
        simp [hlt, hall]
      · have hsame : rowSame order first.1 key = true := by
          simp only [rowSame, rowLess, Bool.and_eq_true, Bool.not_eq_true', decide_eq_false_iff_not]
          omega
        simp [hlt, List.findIdx?_cons, hsame]

/-! ## Adding -/

theorem add_slots (t : GroupTable σ) (key : Row) (state : σ) : ∃ pre post, t.slots = pre ++ post ∧
    pre.length = t.newNumber key ∧ (t.add key state).slots = pre ++ (key, state) :: post := by
  rw [slots, newNumber]
  cases hs : t.strategy with
  | ordered =>
    refine ⟨t.ordered.take (t.lowerBound key), t.ordered.drop (t.lowerBound key),
      (List.take_append_drop _ _).symm, List.length_take_of_le List.findIdx_le_length, ?_⟩
    simp [add, slots, hs]
  | hashed =>
    refine ⟨t.entries, [], (List.append_nil _).symm, rfl, ?_⟩
    simp [add, slots, hs]
  | native =>
    refine ⟨t.entries, [], (List.append_nil _).symm, rfl, ?_⟩
    cases hnull : (key.cell 0).isNull <;> simp [add, slots, hs, hnull]

theorem add_fixed (t : GroupTable σ) (key : Row) (state : σ) :
    (t.add key state).strategy = t.strategy ∧ (t.add key state).less = t.less ∧
      (t.add key state).columns = t.columns := by
  rw [add]
  cases t.strategy with
  | ordered => exact ⟨rfl, rfl, rfl⟩
  | hashed => exact ⟨rfl, rfl, rfl⟩
  | native => cases (key.cell 0).isNull <;> exact ⟨rfl, rfl, rfl⟩

theorem find_add_native (t : GroupTable σ) (key key' : Row) (state : σ)
    (hs : t.strategy = .native) : (t.add key' state).find key =
      if nativeSame key' key then some t.entries.length else t.find key := by
  have hs' : (t.add key' state).strategy = .native := (add_fixed t key' state).1.trans hs
  rw [find, hs', find, hs, nativeSame]
  cases hnull : (key.cell 0).isNull with
  | true => cases hnull' : (key'.cell 0).isNull <;> simp [add, hs, hnull']
  | false =>
    cases hnull' : (key'.cell 0).isNull with
    | true => simp [add, hs, hnull']
    | false =>
      simp only [add, hs, hnull', Bool.or_self, Bool.false_eq_true, if_false]
      rw [List.lookup_cons, BEq.comm]
      cases payload (key'.cell 0) == payload (key.cell 0) <;> rfl

theorem find_add_hashed (t : GroupTable σ) (key key' : Row) (state : σ)
    (hs : t.strategy = .hashed) : (t.add key' state).find key =
      (t.find key).or (if sameHashed t.columns key' key then some t.entries.length else none) := by
  simp only [find, add, hs, List.find?_append, Option.map_or, List.find?_singleton]
  congr 1
  split <;> rfl

theorem findIdx?_snoc (p : α → Bool) (l : List α) (a : α) :
    (l ++ [a]).findIdx? p = (l.findIdx? p).or (if p a then some l.length else none) := by
  rw [List.findIdx?_append, List.findIdx?_singleton]
  split <;> simp

theorem Valid.add (horder : ThreeWay P (compareRows order)) (h : Valid order P t)
    (hkeys : ∀ e ∈ t.slots, P e.1) (hkey : P key) (hnone : t.find key = none) (state : σ) :
    Valid order P (t.add key state) := by
  obtain ⟨hstrategy, hless, hcolumns⟩ := add_fixed t key state
  have hfits : Fits order P (t.add key state) := by
    refine ⟨hless.trans h.less, fun hs => h.native (hstrategy ▸ hs), fun hs => ?_⟩
    rw [hcolumns]
    exact h.hashed (hstrategy ▸ hs)
  have hother := hnone
  rw [h.find_eq horder hkeys hkey, List.findIdx?_eq_none_iff] at hother
  rw [slots] at hkeys hother
  refine ⟨hfits, fun hs key' hkey' => ?_, fun hs => ?_⟩
  · have hs' : t.strategy ≠ .ordered := hstrategy ▸ hs
    cases hcase : t.strategy with
    | ordered => exact absurd hcase hs'
    | native =>
      have hentries : (t.add key state).entries = t.entries ++ [(key, state)] := by
        cases hnull : (key.cell 0).isNull <;> simp [GroupTable.add, hcase, hnull]
      simp only [hcase] at hkeys hother
      rw [find_add_native t key' key state hcase, hentries, findIdx?_snoc, h.found hs' hkey',
        h.native hcase hkey hkey']
      by_cases hsame : rowSame order key key' = true
      · have hmissing : t.entries.findIdx? (fun e => rowSame order e.1 key') = none := by
          refine List.findIdx?_eq_none_iff.mpr fun e he => ?_
          have heq := rowSame_equivalence horder
          rw [← hother e he, Bool.eq_iff_iff]
          exact ⟨fun h' => heq.trans (hkeys e he) hkey' hkey h' (heq.symm hkey hkey' hsame),
            fun h' => heq.trans (hkeys e he) hkey hkey' h' hsame⟩
        simp [hsame, hmissing]
      · simp [hsame]
    | hashed =>
      have hentries : (t.add key state).entries = t.entries ++ [(key, state)] := by
        simp [GroupTable.add, hcase]
      rw [find_add_hashed t key' key state hcase, hentries, findIdx?_snoc, h.found hs' hkey',
        h.hashed hcase hkey hkey']
  · have hs' : t.strategy = .ordered := hstrategy ▸ hs
    simp only [hs'] at hkeys hother
    obtain ⟨hbelow, habove⟩ := h.lowerBound_split horder hs' hkeys hkey
    have hsorted := h.sorted hs'
    rw [← List.take_append_drop (t.lowerBound key) t.ordered, List.pairwise_append] at hsorted
    obtain ⟨hpre, hpost, hcross⟩ := hsorted
    have hafter : ∀ e ∈ t.ordered.drop (t.lowerBound key), compareRows order key e.1 < 0 := by
      intro e he
      have hmem := List.mem_of_mem_drop he
      have hne : compareRows order e.1 key ≠ 0 := fun h0 => by
        have := hother e hmem
        rw [(rowSame_iff horder (hkeys e hmem) hkey).mpr h0] at this
        cases this
      have hge := habove e he
      exact (horder.swap (hkeys e hmem) hkey).mp (by omega)
    simp only [GroupTable.add, hs']
    refine List.pairwise_append.mpr ⟨hpre, List.pairwise_cons.mpr ⟨hafter, hpost⟩, ?_⟩
    intro a ha b hb
    rcases List.mem_cons.mp hb with rfl | hb
    · exact hbelow a ha
    · exact hcross a ha b hb

/-! ## Feeding -/

theorem feed_slots (t : GroupTable σ) (n : Nat) (step : σ → Except Error σ) :
    slots <$> t.feed n step = feedAt step n t.slots := by
  rw [feed, slots]
  cases hs : t.strategy with
  | ordered => cases feedAt step n t.ordered <;> simp [slots]
  | hashed => cases feedAt step n t.entries <;> simp [slots]
  | native => cases feedAt step n t.entries <;> simp [slots]

theorem Valid.feed {n : Nat} {step : σ → Except Error σ} (h : Valid order P t)
    (hfeed : t.feed n step = .ok t') : Valid order P t' := by
  -- the indexes do not read the states
  have hkeys : ∀ {l l' : List (Row × σ)} {key : Row}, l'.map Prod.fst = l.map Prod.fst →
      (l'.findIdx? fun e => rowSame order e.1 key) = l.findIdx? fun e => rowSame order e.1 key := by
    intro l l' key hmap
    have hcongr := congrArg (List.findIdx? fun k => rowSame order k key) hmap
    rwa [List.findIdx?_map, List.findIdx?_map] at hcongr
  obtain ⟨strategy, less, columns, ordered, integers, null, entries, hashedMap⟩ := t
  cases strategy with
  | ordered =>
    obtain ⟨ordered', hordered, ht'⟩ := bind_eq_ok.mp hfeed
    cases ht'
    refine ⟨⟨h.less, h.native, h.hashed⟩, fun hne => absurd rfl hne, fun hs => ?_⟩
    have hsorted := h.sorted hs
    rw [← List.pairwise_map (f := Prod.fst) (R := fun a b =>
      compareRows order a b < 0)] at hsorted ⊢
    rwa [feedAt_keys hordered]
  | hashed =>
    obtain ⟨entries', hentries, ht'⟩ := bind_eq_ok.mp hfeed
    cases ht'
    exact ⟨⟨h.less, h.native, h.hashed⟩, fun hne key hkey =>
      (h.found hne hkey).trans (hkeys (feedAt_keys hentries)).symm, h.sorted⟩
  | native =>
    obtain ⟨entries', hentries, ht'⟩ := bind_eq_ok.mp hfeed
    cases ht'
    exact ⟨⟨h.less, h.native, h.hashed⟩, fun hne key hkey =>
      (h.found hne hkey).trans (hkeys (feedAt_keys hentries)).symm, h.sorted⟩

end

/-! ## Tables gather -/

section

variable {order : List Comparison} {P : Row → Prop}

theorem gathers (aggregates : List BoundAggregate) (width : Nat)
    (horder : ThreeWay P (compareRows order)) :
    Gathers P (rowSame order) (fun row : Row => row.take width)
      (fun row given => feedAll aggregates given (row.drop width)) (newStates aggregates) slots
      (Valid order P) (GroupTable.consume aggregates width) := by
  constructor
  · intro row t hV hproper hkey
    have hfind := hV.find_eq horder hproper.keys hkey
    rw [GroupTable.consume, get]
    cases hfound : t.find (row.take width) with
    | some n =>
      obtain ⟨hn, hsame, -⟩ := List.findIdx?_eq_some_iff_getElem.mp (hfind.symm.trans hfound)
      have hsplit : t.slots = t.slots.take n ++ t.slots[n] :: t.slots.drop (n + 1) := by
        rw [← List.drop_eq_getElem_cons hn, List.take_append_drop]
      refine .inl ⟨t.slots.take n, t.slots[n], t.slots.drop (n + 1), hsplit, hsame, ?_⟩
      refine (feed_slots _ _ _).trans ?_
      have hfeed := feedAt_append (fun given => feedAll aggregates given (row.drop width))
        (t.slots.take n) t.slots[n] (t.slots.drop (n + 1))
      rwa [List.length_take_of_le (Nat.le_of_lt hn), ← hsplit] at hfeed
    | none =>
      obtain ⟨pre, post, hsplit, hnumber, hadd⟩ :=
        add_slots t (row.take width) (newStates aggregates)
      refine .inr ⟨pre, post, hsplit, List.findIdx?_eq_none_iff.mp (hfind.symm.trans hfound), ?_⟩
      refine (feed_slots _ _ _).trans ?_
      rw [hadd, ← hnumber]
      exact feedAt_append _ _ _ _
  · intro row t t' hV hproper hkey hconsume
    rw [GroupTable.consume, get] at hconsume
    cases hfound : t.find (row.take width) with
    | some n =>
      rw [hfound] at hconsume
      exact hV.feed hconsume
    | none =>
      rw [hfound] at hconsume
      exact (hV.add horder hproper.keys hkey hfound _).feed hconsume

end

end GroupTable

/-! ## What the aggregates are given -/

theorem BoundAggregate.given_snoc (a : BoundAggregate) (rows : List Row) (row : Row) :
    a.given (rows ++ [row]) =
      if a.distinct then addDistinct a.order (a.given rows) row else a.given rows ++ [row] := by
  rw [given, given]
  cases a.distinct <;> simp

theorem BoundAggregate.feed_given {a : BoundAggregate}
    (h : a.feed (a.given rows) row = .ok history) : history = a.given (rows ++ [row]) := by
  rw [a.given_snoc, addDistinct]
  rw [feed] at h
  cases hd : a.distinct with
  | false =>
    rw [hd, Bool.false_and, if_neg (by decide)] at h
    obtain ⟨-, -, h⟩ := bind_eq_ok.mp h
    cases h
    rfl
  | true =>
    rw [hd, Bool.true_and] at h
    simp only [if_true]
    split at h
    next hany =>
      rw [if_pos hany]
      exact (Except.ok.inj h).symm
    next hany =>
      rw [if_neg hany]
      obtain ⟨-, -, h⟩ := bind_eq_ok.mp h
      exact (Except.ok.inj h).symm

theorem feedAll_givenAll (h : feedAll aggregates (givenAll aggregates rows) row = .ok given) :
    given = givenAll aggregates (rows ++ [row]) := by
  induction aggregates generalizing rows row given with
  | nil =>
    cases h
    rfl
  | cons a as ih =>
    obtain ⟨history, hhistory, h⟩ := bind_eq_ok.mp h
    obtain ⟨histories, hrest, h⟩ := bind_eq_ok.mp h
    cases h
    rw [givenAll, BoundAggregate.feed_given hhistory, ih hrest, List.map_append, List.map_append]
    rfl

theorem givenAll_nil (aggregates : List BoundAggregate) :
    givenAll aggregates [] = newStates aggregates := by
  induction aggregates with
  | nil => rfl
  | cons a as ih =>
    have hgiven : a.given [] = [] := by
      rw [BoundAggregate.given]
      split <;> rfl
    rw [givenAll, newStates, List.map_cons]
    exact congrArg₂ List.cons hgiven ih

theorem foldlM_feedAll {width : Nat}
    (h : rows.foldlM (fun given row => feedAll aggregates given (row.drop width))
      (newStates aggregates) = .ok given) :
    given = givenAll aggregates (rows.map fun row => row.drop width) := by
  induction rows using List.reverseRecOn generalizing given with
  | nil =>
    cases h
    exact (givenAll_nil aggregates).symm
  | append_singleton rows row ih =>
    rw [List.foldlM_append] at h
    obtain ⟨before, hbefore, h⟩ := bind_eq_ok.mp h
    rw [ih hbefore] at h
    obtain ⟨after, hafter, h⟩ := bind_eq_ok.mp h
    cases h
    rw [feedAll_givenAll hafter, List.map_append]
    rfl

/-! ## The groups -/

section

open Classes

variable {order : List Comparison} {P : Row → Prop} {σ : Type}

section

variable (horder : ThreeWay P (compareRows order))
include horder

theorem strict_of_apart {keys : List Row}
    (hkeys : ∀ k ∈ keys, P k) (hle : keys.Pairwise fun a b => compareRows order a b ≤ 0)
    (hapart : keys.Pairwise fun a b => rowSame order a b = false) :
    keys.Pairwise fun a b => compareRows order a b < 0 := by
  refine (hle.and hapart).imp_of_mem fun {a b} ha hb hab => ?_
  have hne : compareRows order a b ≠ 0 := fun h0 => by
    have hsame := (rowSame_iff horder (hkeys a ha) (hkeys b hb)).mpr h0
    rw [hab.2] at hsame
    cases hsame
  have hle := hab.1
  omega

theorem mergeSort_entries {entries : List (Row × σ)} (hentries : Proper P (rowSame order) entries) :
    ((entries.mergeSort fun a b => !rowLess order b.1 a.1).map Prod.fst).Pairwise
      fun a b => compareRows order a b < 0 := by
  have hsorted := hentries.perm (List.mergeSort_perm entries fun a b => !rowLess order b.1 a.1)
  refine strict_of_apart horder ?_ ?_ ?_
  · simpa using hsorted.keys
  · exact List.pairwise_map.mpr ((horder.comap Prod.fst).pairwise_mergeSort hentries.keys)
  · exact List.pairwise_map.mpr (hsorted.apart.imp And.left)

/-- The groups a table visits are its entries in ascending order. -/
theorem GroupTable.Valid.finish
    {t : GroupTable σ} (h : Valid order P t) (hproper : Proper P (rowSame order) t.slots) :
    t.finish.Perm t.slots ∧
      (t.finish.map Prod.fst).Pairwise fun a b => compareRows order a b < 0 := by
  rw [slots] at hproper ⊢
  rw [GroupTable.finish, h.less]
  cases hs : t.strategy with
  | ordered => exact ⟨.refl _, List.pairwise_map.mpr (h.sorted hs)⟩
  | hashed =>
    simp only [hs] at hproper
    exact ⟨List.mergeSort_perm _ _, mergeSort_entries horder hproper⟩
  | native =>
    simp only [hs] at hproper
    exact ⟨List.mergeSort_perm _ _, mergeSort_entries horder hproper⟩

end

section

variable {aggregates : List BoundAggregate} {width : Nat} {rows : List Row}
  {visited entries : List (Row × Given)} {t t₀ t' : GroupTable Given}

theorem classKeys_perm (order : List Comparison) (width : Nat) (rows : List Row) :
    (classKeys order width rows).Perm
      (firsts (rowSame order) (fun row : Row => row.take width) (startKeys width) rows) :=
  List.mergeSort_perm _ _

/-- The keys of the groups are in ascending order, with one of each class. -/
theorem classKeys_sorted (horder : ThreeWay P (compareRows order))
    (hstart : ∀ k ∈ startKeys width, P k) (hrows : ∀ row ∈ rows, P (row.take width)) :
    (∀ k ∈ classKeys order width rows, P k) ∧
      (classKeys order width rows).Pairwise fun a b => compareRows order a b < 0 := by
  have hpairwise : (startKeys width).Pairwise fun a b => rowSame order a b = false := by
    rw [startKeys]
    split
    · exact List.pairwise_singleton _ _
    · exact .nil
  obtain ⟨hkeys, hapart⟩ := firsts_apart hstart hpairwise hrows
  have hperm := classKeys_perm order width rows
  have hkeys' : ∀ k ∈ classKeys order width rows, P k := fun k hk => hkeys k (hperm.mem_iff.mp hk)
  refine ⟨hkeys', strict_of_apart horder hkeys' (horder.pairwise_mergeSort hkeys) ?_⟩
  refine (hperm.pairwise_iff fun {a b} hab => ?_).mpr hapart
  rwa [rowSame_comm]

abbrev EntriesAfter (order : List Comparison) (aggregates : List BoundAggregate) (width : Nat)
    (rows : List Row) (entries : List (Row × Given)) : Prop :=
  Gathered (rowSame order) (fun row : Row => row.take width)
    (fun row given => feedAll aggregates given (row.drop width)) (newStates aggregates)
    (startKeys width) rows entries

theorem EntriesAfter.sorted_eq (horder : ThreeWay P (compareRows order))
    (h : EntriesAfter order aggregates width rows entries)
    (hstart : ∀ k ∈ startKeys width, P k) (hrows : ∀ row ∈ rows, P (row.take width))
    (hperm : visited.Perm entries)
    (hsorted : (visited.map Prod.fst).Pairwise fun a b => compareRows order a b < 0) :
    visited = referenceGroups order aggregates width rows := by
  obtain ⟨hkeys, hsorted'⟩ := classKeys_sorted horder hstart hrows
  have hkeysPerm : (visited.map Prod.fst).Perm (classKeys order width rows) :=
    ((hperm.map Prod.fst).trans h.keys).trans (classKeys_perm order width rows).symm
  have hfst : visited.map Prod.fst = classKeys order width rows := by
    refine List.Perm.eq_of_pairwise (fun a b ha hb hab hba => ?_) hsorted hsorted' hkeysPerm
    have hswap := horder.swap (hkeys a (hkeysPerm.mem_iff.mp ha)) (hkeys b hb)
    omega
  rw [referenceGroups, ← hfst, List.map_map]
  refine (List.map_id _).symm.trans (List.map_congr_left fun e he => ?_)
  have hstate := h.states e (hperm.mem_iff.mp he)
  exact Prod.ext rfl (foldlM_feedAll hstate)

theorem GroupTable.Valid.started (horder : ThreeWay P (compareRows order))
    (h : Valid order P t) (aggregates : List BoundAggregate) (hempty : t.slots = [])
    (hstart : ∀ k ∈ startKeys width, P k) :
    ∃ t₀, t.started aggregates width = .ok t₀ ∧ Valid order P t₀ ∧
      t₀.slots = (startKeys width).map fun k => (k, newStates aggregates) := by
  by_cases hwidth : width = 0
  · have hkeys : ∀ e ∈ t.slots, P e.1 := by simp [hempty]
    have hkey : P [] := hstart [] (by simp [startKeys, hwidth])
    have hnone : t.find [] = none := by
      rw [h.find_eq horder hkeys hkey, hempty]
      rfl
    obtain ⟨pre, post, hsplit, -, hadd⟩ := add_slots t [] (newStates aggregates)
    rw [hempty] at hsplit
    obtain ⟨rfl, rfl⟩ := List.append_eq_nil_iff.mp hsplit.symm
    refine ⟨t.add [] (newStates aggregates), ?_, h.add horder hkeys hkey hnone _, ?_⟩
    · rw [GroupTable.started, if_pos hwidth, get, hnone]
      rfl
    · rw [hadd, startKeys, if_pos hwidth]
      rfl
  · refine ⟨t, if_neg hwidth, h, ?_⟩
    rw [hempty, startKeys, if_neg hwidth]
    rfl

theorem GroupTable.groupRows_of_started
    (h : t.started aggregates width = .ok t₀) : t.groupRows aggregates width rows =
      rows.foldlM (fun t row => t.consume aggregates width row) t₀ >>= fun t => .ok t.finish := by
  rw [groupRows, h]
  rfl

theorem startKeys_proper (hstart : ∀ k ∈ startKeys width, P k) (s : Given) :
    Proper P (rowSame order) ((startKeys width).map fun k => (k, s)) := by
  refine ⟨by simpa using hstart, ?_⟩
  rw [startKeys]
  split
  · exact List.pairwise_singleton _ _
  · exact .nil

/-- What a table visits after some rows, unless an aggregate fails. -/
theorem GroupTable.Valid.groupRows_eq_ok_iff (horder : ThreeWay P (compareRows order))
    (h : Valid order P t) (hempty : t.slots = [])
    (hstart : ∀ k ∈ startKeys width, P k) (hrows : ∀ row ∈ rows, P (row.take width)) :
    t.groupRows aggregates width rows = .ok visited ↔ (∀ key ∈ classKeys order width rows,
        ∃ given, classGiven order aggregates width rows key = .ok given) ∧
      visited = referenceGroups order aggregates width rows := by
  obtain ⟨t₀, ht₀, hvalid, hslots⟩ := h.started horder aggregates hempty hstart
  have heq := rowSame_equivalence horder
  have hgathers := gathers aggregates width horder
  have hproper : Proper P (rowSame order) t₀.slots := hslots ▸ startKeys_proper hstart _
  have hbegin : EntriesAfter order aggregates width [] t₀.slots := hslots ▸ gathered_start _
  have hdone : ∀ row ∈ ([] : List Row), P (row.take width) := by simp
  rw [groupRows_of_started ht₀]
  constructor
  · intro hrun
    obtain ⟨t₁, ht₁, hrun⟩ := bind_eq_ok.mp hrun
    cases hrun
    obtain ⟨hvalid₁, hproper₁, hgathered⟩ :=
      hgathers.run heq hstart hvalid hproper hdone hrows hbegin ht₁
    rw [List.nil_append] at hgathered
    obtain ⟨hperm, hsorted⟩ := hvalid₁.finish horder hproper₁
    refine ⟨fun key hkey => ?_, EntriesAfter.sorted_eq horder hgathered hstart hrows hperm hsorted⟩
    obtain ⟨e, he, rfl⟩ := List.mem_map.mp
      (hgathered.keys.mem_iff.mpr ((classKeys_perm order width rows).mem_iff.mp hkey))
    exact ⟨e.2, hgathered.states e he⟩
  · rintro ⟨hok, rfl⟩
    obtain ⟨t₁, ht₁⟩ := hgathers.ok heq hstart hvalid hproper hdone hrows hbegin fun k hk =>
      hok k ((classKeys_perm order width rows).mem_iff.mpr hk)
    obtain ⟨hvalid₁, hproper₁, hgathered⟩ :=
      hgathers.run heq hstart hvalid hproper hdone hrows hbegin ht₁
    rw [List.nil_append] at hgathered
    obtain ⟨hperm, hsorted⟩ := hvalid₁.finish horder hproper₁
    rw [← EntriesAfter.sorted_eq horder hgathered hstart hrows hperm hsorted, ht₁]
    rfl

theorem GroupTable.Valid.groupRows_eq (horder : ThreeWay P (compareRows order))
    (h : Valid order P t) (h' : Valid order P t') (hempty : t.slots = [])
    (hempty' : t'.slots = []) (hstart : ∀ k ∈ startKeys width, P k)
    (hrows : ∀ row ∈ rows, P (row.take width)) :
    t.groupRows aggregates width rows = t'.groupRows aggregates width rows := by
  obtain ⟨t₀, ht₀, hvalid, hslots⟩ := h.started horder aggregates hempty hstart
  obtain ⟨t₀', ht₀', hvalid', hslots'⟩ := h'.started horder aggregates hempty' hstart
  have hgathers := gathers aggregates width horder
  have hproper : Proper P (rowSame order) t₀.slots := hslots ▸ startKeys_proper hstart _
  have hperm : t₀.slots.Perm t₀'.slots := by rw [hslots, hslots']
  have hrelated := hgathers.related (rowSame_equivalence horder) hgathers hvalid hvalid' hproper
    hperm hrows
  cases hrun : t.groupRows aggregates width rows with
  | ok visited =>
    exact ((h'.groupRows_eq_ok_iff horder hempty' hstart hrows).mpr
      ((h.groupRows_eq_ok_iff horder hempty hstart hrows).mp hrun)).symm
  | error e =>
    rw [groupRows_of_started ht₀] at hrun
    rw [groupRows_of_started ht₀']
    rcases bind_eq_error.mp hrun with hfold | ⟨t₁, -, hok⟩
    · rw [hfold] at hrelated
      cases hfold' : rows.foldlM (fun t row => t.consume aggregates width row) t₀' with
      | ok t₁ =>
        rw [hfold'] at hrelated
        exact hrelated.elim
      | error e' =>
        rw [hfold'] at hrelated
        exact congrArg Except.error hrelated
    · cases hok

end

end

/-! ## The strategies -/

section

open Classes

variable {registry : Registry} {types : List SqlType} {addons : List TypeAddon}
  {order : List Comparison} {rows : List Row}

theorem GroupStrategy.Applies.fits (hlawful : registry.Lawful)
    (haddons : types.mapM registry.addon = .ok addons)
    (horder : registry.rowOrder types = .ok order)
    {strategy : GroupStrategy} (h : strategy.Applies addons) {σ : Type} :
    GroupTable.Fits order (KeyOf registry types)
      ({ strategy, less := order, columns := types.zip addons } : GroupTable σ) := by
  refine ⟨rfl, fun hs a b ha hb => ?_, fun hs a b ha hb => ?_⟩
  · obtain rfl : strategy = .native := hs
    obtain ⟨hone, hnative⟩ := h
    obtain ⟨addon, rfl⟩ := List.length_eq_one_iff.mp hone
    cases mapM_eq_ok.mp haddons with
    | cons haddon hnil =>
      cases hnil
      exact nativeSame_eq hlawful horder (addon_eq_ok.mp haddon) (by simpa using hnative) ha hb
  · obtain rfl : strategy = .hashed := hs
    exact sameHashed_eq_rowSame hlawful horder (hashable_of_mapM haddons h) ha hb

theorem startKeys_valid (registry : Registry) (types : List SqlType) :
    ∀ k ∈ startKeys types.length, KeyOf registry types k := by
  intro k hk
  rw [startKeys] at hk
  split at hk
  next hlen =>
    rw [List.mem_singleton.mp hk, List.length_eq_zero_iff.mp hlen]
    exact .nil
  · simp at hk

/-- The native, the hashed and the ordered table, each where it can be used,
fail alike or visit the same groups. These are one for each class of keys, in
ascending order, under the first key of the class, and its aggregates were
given the rows of the class in the order of the input. Without keys there is
one group. -/
theorem grouping_strategies_agree (hlawful : registry.Lawful)
    (haddons : types.mapM registry.addon = .ok addons)
    (horder : registry.rowOrder types = .ok order)
    (aggregates : List BoundAggregate)
    (hrows : ∀ row ∈ rows, KeyOf registry types (row.take types.length)) :
    (∃ outcome : Except Error (List (Row × Given)),
      (∀ strategy : GroupStrategy, strategy.Applies addons →
        ({ strategy, less := order, columns := types.zip addons } : GroupTable Given).groupRows
          aggregates types.length rows = outcome) ∧
      ∀ visited, outcome = .ok visited ↔
        (∀ key ∈ classKeys order types.length rows,
          ∃ given, classGiven order aggregates types.length rows key = .ok given) ∧
        visited = referenceGroups order aggregates types.length rows) ∧
    (classKeys order types.length rows).Pairwise (fun a b => rowLess order a b = true) ∧
    (∀ row ∈ rows, ∃ key ∈ classKeys order types.length rows,
      rowSame order key (row.take types.length) = true) ∧
    (types ≠ [] → ∀ key ∈ classKeys order types.length rows, ∃ pre row post,
      rows = pre ++ row :: post ∧ key = row.take types.length ∧
        ∀ earlier ∈ pre, rowSame order (earlier.take types.length) key = false) ∧
    (types = [] → classKeys order types.length rows = [[]]) := by
  have hthree := compareRows_threeWay hlawful horder
  have heq := rowSame_equivalence hthree
  have hstart := startKeys_valid registry types
  have hvalid : ∀ {strategy : GroupStrategy}, strategy.Applies addons →
      GroupTable.Valid order (KeyOf registry types)
        ({ strategy, less := order, columns := types.zip addons } : GroupTable Given) :=
    fun h => (h.fits hlawful haddons horder).valid rfl rfl rfl rfl rfl
  have hempty : ∀ strategy : GroupStrategy,
      ({ strategy, less := order, columns := types.zip addons } : GroupTable Given).slots = [] := by
    intro strategy
    cases strategy <;> rfl
  have hordered : GroupStrategy.ordered.Applies addons := trivial
  have hperm := classKeys_perm order types.length rows
  obtain ⟨hkeys, hsorted⟩ := classKeys_sorted hthree hstart hrows
  have hmet : ∀ k ∈ rows.map fun row => row.take types.length, KeyOf registry types k := by
    simpa using hrows
  refine ⟨⟨_, fun strategy h => (hvalid h).groupRows_eq hthree (hvalid hordered) (hempty _)
    (hempty _) hstart hrows, fun visited => (hvalid hordered).groupRows_eq_ok_iff hthree (hempty _)
    hstart hrows⟩, ?_, ?_, ?_, ?_⟩
  · exact hsorted.imp fun h => decide_eq_true h
  · intro row hrow
    have hhas : Buckets.hasKey (rowSame order) (firsts (rowSame order)
        (fun row : Row => row.take types.length) (startKeys types.length) rows)
        (row.take types.length) = true := by
      rw [firsts, Buckets.hasKey_foldl heq hmet hstart (hrows row hrow), Bool.or_eq_true]
      exact .inr (List.any_eq_true.mpr
        ⟨_, List.mem_map_of_mem hrow, heq.refl (hrows row hrow)⟩)
    obtain ⟨key, hkey, hsame⟩ := List.any_eq_true.mp hhas
    exact ⟨key, hperm.mem_iff.mpr hkey, hsame⟩
  · intro hne key hkey
    have hlen : types.length ≠ 0 := fun h0 => hne (List.length_eq_zero_iff.mp h0)
    have hnil : startKeys types.length = [] := if_neg hlen
    rcases eq_key_of_mem_firsts heq hstart hrows (hperm.mem_iff.mp hkey) with
      hkey | ⟨pre, row, post, hsplit, hkey, -, hpre⟩
    · simp [hnil] at hkey
    · exact ⟨pre, row, post, hsplit, hkey, hpre⟩
  · rintro rfl
    have hmem : [] ∈ classKeys order ([] : List SqlType).length rows := by
      have hfirst : [] ∈ firsts (rowSame order) (fun row : Row => row.take 0) (startKeys 0) [] :=
        List.mem_singleton_self _
      exact hperm.mem_iff.mpr (firsts_mono hfirst)
    have hnil : ∀ k ∈ classKeys order ([] : List SqlType).length rows, k = [] := fun k hk => by
      cases hkeys k hk
      rfl
    cases hlist : classKeys order ([] : List SqlType).length rows with
    | nil =>
        rw [hlist] at hmem
        cases hmem
    | cons k rest =>
        rw [hlist] at hnil hsorted
        obtain ⟨rfl, hrest⟩ := List.forall_mem_cons.mp hnil
        cases rest with
        | nil => rfl
        | cons k' rest =>
            obtain rfl := hrest k' List.mem_cons_self
            have hlt := (List.pairwise_cons.mp hsorted).1 [] List.mem_cons_self
            have hrefl := hthree.refl List.Forall₂.nil
            omega

/-- An aggregate that is given distinct integers. -/
def distinctIntegers : BoundAggregate where
  function := { step := fun _ _ _ => .ok () }
  types := [integerType]
  distinct := true
  order := [⟨integerType.parameters, integerAddon⟩]

def integerGroups (strategy : GroupStrategy) : GroupTable Given where
  strategy := strategy
  less := [⟨integerType.parameters, integerAddon⟩]
  columns := [(integerType, integerAddon)]

def keyedIntegers : List Row :=
  [[.integer 2, .integer 7], [.null integerType, .integer 7], [.integer 1, .integer 7],
    [.null integerType, .integer 8], [.integer 2, .integer 7]]

theorem grouping_strategies_agree_integers :
    [GroupStrategy.native, .hashed, .ordered].map
      (fun strategy => (integerGroups strategy).groupRows [distinctIntegers] 1 keyedIntegers) =
    List.replicate 3 (.ok [([.null integerType], [[[.integer 7], [.integer 8]]]),
      ([.integer 1], [[[.integer 7]]]), ([.integer 2], [[[.integer 7]]])]) := by
  have haddon : scalarRegistry.addon integerType = .ok integerAddon := by
    simp [Registry.addon, scalarRegistry, integerType]
  have hcreate : Comparison.create scalarRegistry integerType false =
      .ok ⟨integerType.parameters, integerAddon⟩ := by
    simp [Comparison.create, Registry.addon, Registry.validateType, scalarRegistry, integerType]
    rfl
  have haddons : [integerType].mapM scalarRegistry.addon = .ok [integerAddon] :=
    mapM_eq_ok.mpr (.cons haddon .nil)
  have horder : scalarRegistry.rowOrder [integerType] =
      .ok [⟨integerType.parameters, integerAddon⟩] := mapM_eq_ok.mpr (.cons hcreate .nil)
  have hnull : scalarRegistry.Cell integerType (.null integerType) :=
    cell_iff.mpr ⟨integerAddon, addon_eq_ok.mp haddon, rfl, .inl ⟨rfl, rfl⟩⟩
  have hkeys : ∀ row ∈ keyedIntegers,
      KeyOf scalarRegistry [integerType] (row.take [integerType].length) := by
    simp [keyedIntegers, KeyOf, integer_cell, hnull]
  obtain ⟨⟨outcome, hall, -⟩, -⟩ := grouping_strategies_agree scalarRegistry_lawful haddons
    horder [distinctIntegers] hkeys
  have hordered : (integerGroups .ordered).groupRows [distinctIntegers] 1 keyedIntegers =
      .ok [([.null integerType], [[[.integer 7], [.integer 8]]]), ([.integer 1], [[[.integer 7]]]),
        ([.integer 2], [[[.integer 7]]])] := by
    decide +kernel
  have heach : ∀ strategy : GroupStrategy, strategy.Applies [integerAddon] →
      (integerGroups strategy).groupRows [distinctIntegers] 1 keyedIntegers =
        (integerGroups .ordered).groupRows [distinctIntegers] 1 keyedIntegers :=
    fun strategy h => (hall strategy h).trans (hall .ordered trivial).symm
  simp only [List.map_cons, List.map_nil, heach .native ⟨rfl, rfl⟩, heach .hashed rfl, hordered]
  rfl

end

end CoreSql
