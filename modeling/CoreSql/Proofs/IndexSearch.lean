import CoreSql.Proofs.OrderedWalk
import CoreSql.Query.IndexWalk

/-!
# Searches and walks of an ordered index

What the searches of an ordered index return, in terms of the entries of the
index alone. Each prunes subtrees by comparisons in index order; what comes
out is said column by column and without direction: `KeyOrder.raw` compares
two cells of a column with NULL below everything.

A search may be asked for a NULL of any type, since a NULL compares by being
one. Such an argument is exchanged for the NULL of the column, which is a
cell, before the lemmas about ordered indexes apply.
-/

namespace CoreSql

variable {registry : Registry} {columns : List Column} {types : List SqlType} {type : SqlType}
  {orders : List KeyOrder} {a e b f : Row} {v w : Value} {o : KeyOrder}

/-! ## Keys column by column -/

theorem compareKeys_eq_zero (ha : e.length ≤ a.length) (ho : e.length ≤ orders.length) :
    compareKeys orders a e = 0 ↔
      ∀ i < e.length, (orders.getD i default).raw (a.cell i) (e.cell i) = 0 := by
  induction e generalizing orders a with
  | nil =>
    cases orders <;> cases a <;> simp [compareKeys]
  | cons v e ih =>
    cases a with
    | nil => simp at ha
    | cons k a =>
      cases orders with
      | nil => simp at ho
      | cons o orders =>
        have hrest := ih (by simpa using ha) (by simpa using ho)
        rw [compareKeys]
        by_cases hcell : o.cells k v = 0
        · rw [if_neg (by simp [hcell]), hrest]
          constructor
          · intro h i hi
            cases i with
            | zero => exact KeyOrder.cells_eq_zero.mp hcell
            | succ i => exact h i (by simpa using hi)
          · intro h i hi
            exact h (i + 1) (by simpa using hi)
        · rw [if_pos hcell]
          refine ⟨fun h => absurd h hcell, fun h => absurd ?_ hcell⟩
          exact KeyOrder.cells_eq_zero.mpr (h 0 (by simp))

/-! ## Arguments -/

/-- What a search may be asked for in a column: a cell of it, or any NULL. -/
def Registry.Argument (registry : Registry) (type : SqlType) (v : Value) : Prop :=
  v.isNull = true ∨ registry.Cell type v

def SameCell (v w : Value) : Prop := v = w ∨ (v.isNull = true ∧ w.isNull = true)

theorem SameCell.isNull (h : SameCell v w) : v.isNull = w.isNull := by
  rcases h with rfl | ⟨hv, hw⟩
  · rfl
  · rw [hv, hw]

theorem KeyOrder.raw_congr {a b : Value} (hab : SameCell a b) (hvw : SameCell v w) :
    o.raw a v = o.raw b w := by
  rw [KeyOrder.raw, KeyOrder.raw, compareNulls, compareNulls, hab.isNull, hvw.isNull]
  split
  · rfl
  · rename_i hnull
    simp only [Bool.or_eq_true, not_or] at hnull
    rw [hab.resolve_right fun h => hnull.1 h.2, hvw.resolve_right fun h => hnull.2 h.2]

theorem compareKeys_congr (hab : List.Forall₂ SameCell a b)
    (hef : List.Forall₂ SameCell e f) : compareKeys orders a e = compareKeys orders b f := by
  induction orders generalizing a b e f with
  | nil => simp [compareKeys]
  | cons o orders ih =>
    cases hab with
    | nil => simp [compareKeys]
    | @cons k l _ _ hkl hab =>
      cases hef with
      | nil => simp [compareKeys]
      | @cons v w _ _ hvw hef =>
        have hcells : o.cells k v = o.cells l w := by
          show (if o.descending then -(o.raw k v).sign else (o.raw k v).sign) =
            if o.descending then -(o.raw l w).sign else (o.raw l w).sign
          rw [KeyOrder.raw_congr hkl hvw]
        rw [compareKeys, compareKeys, hcells, ih hab hef]

theorem sameCell_refl (a : Row) : List.Forall₂ SameCell a a :=
  List.forall₂_same.mpr fun _ _ => .inl rfl

theorem Registry.Argument.cell (ho : o.Of registry type)
    (h : registry.Argument type v) : ∃ w, registry.Cell type w ∧ SameCell v w := by
  rcases h with h | h
  · obtain ⟨addon, compare, haddon, htype, -⟩ := ho
    exact ⟨.null type, cell_iff.mpr ⟨addon, haddon, htype, .inl ⟨rfl, rfl⟩⟩, .inr ⟨h, rfl⟩⟩
  · exact ⟨v, h, .inl rfl⟩

theorem Registry.Argument.cells (ho : List.Forall₂ (fun type o => o.Of registry type) types orders)
    (h : List.Forall₂ registry.Argument types e) :
    ∃ e', List.Forall₂ registry.Cell types e' ∧ List.Forall₂ SameCell e e' := by
  induction ho generalizing e with
  | nil =>
    cases h
    exact ⟨[], .nil, .nil⟩
  | cons ho _ ih =>
    cases h with
    | cons hv h =>
      obtain ⟨w, hw, hsame⟩ := hv.cell ho
      obtain ⟨e', he', hsames⟩ := ih h
      exact ⟨w :: e', .cons hw he', .cons hsame hsames⟩

namespace OrderedIndex

variable {x : OrderedIndex} {key : Row} {lo hi : Option Value} {b : Bounds}

/-- A well-formed index: in order and balanced, with one entry for a location. -/
structure WellFormed (registry : Registry) (columns : List Column) (x : OrderedIndex) : Prop where
  ordered : x.Ordered registry columns
  locations : (x.root.entries.map Prod.snd).Nodup

/-- Each location of an entry whose key has the property, and no other, once. -/
structure Answers (x : OrderedIndex) (found : List RowLocation) (wanted : Row → Prop) : Prop where
  once : found.Nodup
  exact : ∀ l, l ∈ found ↔ ∃ key, (key, l) ∈ x.root.entries ∧ wanted key

theorem WellFormed.answers (h : x.WellFormed registry columns) {p : OrderedEntry → Bool}
    {wanted : Row → Prop} (hp : ∀ e ∈ x.root.entries, p e = true ↔ wanted e.1) :
    x.Answers ((x.root.entries.filter p).map Prod.snd) wanted where
  once := h.locations.sublist (List.filter_sublist.map _)
  exact l := by
    simp only [List.mem_map, List.mem_filter]
    constructor
    · rintro ⟨e, ⟨he, hpe⟩, rfl⟩
      exact ⟨e.1, he, (hp e he).mp hpe⟩
    · rintro ⟨key, he, hwanted⟩
      exact ⟨(key, l), ⟨he, (hp _ he).mpr hwanted⟩, rfl⟩

/-! ## Specifications -/

/-- The leading columns of the key compare equal to these values. -/
def Leads (x : OrderedIndex) (equal key : Row) : Prop :=
  ∀ i < equal.length, (x.orderAt i).raw (key.cell i) (equal.cell i) = 0

/-- Column `i` of the key is between the bounds that are given. -/
def Between (x : OrderedIndex) (i : Nat) (lo hi : Option Value) (key : Row) : Prop :=
  (∀ v ∈ lo, 0 ≤ (x.orderAt i).raw (key.cell i) v) ∧ ∀ v ∈ hi, (x.orderAt i).raw (key.cell i) v ≤ 0

/-- What `prefix_range` may be asked for: values for some leading columns, and bounds only if there
is a next one. -/
structure Asks (registry : Registry) (types : List SqlType) (equal : Row) (lo hi : Option Value) :
    Prop where
  fixed : List.Forall₂ registry.Argument (types.take equal.length) equal
  lower : ∀ v ∈ lo, ∃ type, types[equal.length]? = some type ∧ registry.Argument type v
  upper : ∀ v ∈ hi, ∃ type, types[equal.length]? = some type ∧ registry.Argument type v

theorem Fits.leads_iff (h : x.Fits registry columns) {equal : Row}
    (hkey : List.Forall₂ registry.Cell (typesAt columns x.columns) key)
    (hle : equal.length ≤ (typesAt columns x.columns).length) :
    compareKeys x.order key equal = 0 ↔ x.Leads equal key :=
  compareKeys_eq_zero (by rw [← hkey.length_eq]; exact hle)
    (by rw [← h.orders.length_eq]; exact hle)

/-! ## Searches -/

section Congr

variable {equal equal' : Row} {lo lo' hi hi' : Option Value}

theorem equalAt_congr (h : List.Forall₂ SameCell equal equal') (t : Avl OrderedEntry) :
    x.equalAt equal t = x.equalAt equal' t := by
  have hcompare : ∀ key, x.compare equal key = x.compare equal' key := fun key =>
    compareKeys_congr h (sameCell_refl key)
  induction t with
  | nil => rfl
  | node e left right _ ihl ihr => rw [equalAt, equalAt, ihl, ihr, hcompare]

theorem map_raw_congr (h : Option.Rel SameCell lo lo') (o : KeyOrder) (k : Value) :
    lo.map (fun v => o.raw k v) = lo'.map fun v => o.raw k v := by
  cases h with
  | none => rfl
  | some h => rw [Option.map_some, Option.map_some, KeyOrder.raw_congr (.inl rfl) h]

theorem prefixRangeAt_congr (h : List.Forall₂ SameCell equal equal')
    (hlo : Option.Rel SameCell lo lo')
    (hhi : Option.Rel SameCell hi hi') (t : Avl OrderedEntry) :
    x.prefixRangeAt equal lo hi t = x.prefixRangeAt equal' lo' hi' t := by
  induction t with
  | nil => rfl
  | node e left right _ ihl ihr =>
    rw [prefixRangeAt, prefixRangeAt, ihl, ihr, compareKeys_congr (sameCell_refl e.1) h,
      h.length_eq]
    dsimp only
    rw [map_raw_congr hlo, map_raw_congr hhi]

theorem leads_congr (h : List.Forall₂ SameCell equal equal') (key : Row) :
    x.Leads equal key ↔ x.Leads equal' key := by
  have hcell : ∀ i, SameCell (equal.cell i) (equal'.cell i) := by
    induction h with
    | nil => exact fun i => .inl rfl
    | cons hv _ ih =>
      intro i
      cases i with
      | zero => exact hv
      | succ i => exact ih i
  simp only [Leads, h.length_eq, KeyOrder.raw_congr (.inl rfl) (hcell _)]

theorem between_congr {i : Nat} (hlo : Option.Rel SameCell lo lo')
    (hhi : Option.Rel SameCell hi hi')
    (key : Row) : x.Between i lo hi key ↔ x.Between i lo' hi' key := by
  have hbound : ∀ {b b' : Option Value}, Option.Rel SameCell b b' → ∀ P : Int → Prop,
      (∀ v ∈ b, P ((x.orderAt i).raw (key.cell i) v)) ↔
        ∀ v ∈ b', P ((x.orderAt i).raw (key.cell i) v) := by
    intro b b' h P
    cases h with
    | none => rfl
    | some h => simp [KeyOrder.raw_congr (.inl rfl) h]
  exact and_congr (hbound hlo (0 ≤ ·)) (hbound hhi (· ≤ 0))

end Congr

/-- `equal` finds the entries whose key compares equal in every column. -/
theorem WellFormed.equal (hlawful : registry.Lawful) (h : x.WellFormed registry columns)
    (hkey : List.Forall₂ registry.Argument (typesAt columns x.columns) key) :
    ∃ found, x.equal key = .ok found ∧ x.Answers found (x.Leads key) := by
  obtain ⟨cells, hcells, hsame⟩ := Registry.Argument.cells h.ordered.fits.orders hkey
  have hlaw := h.ordered.fits.compare hlawful
  have hlen : key.length = x.columns.length := by
    rw [← hkey.length_eq, typesAt, List.length_map]
  refine ⟨x.equalAt key x.root, by rw [OrderedIndex.equal, if_neg (by simp [hlen])], ?_⟩
  rw [equalAt_congr hsame, h.ordered.equalAt_root hlawful hcells]
  refine h.answers fun e he => ?_
  have hkeys := h.ordered.keys e he
  rw [beq_iff_eq, leads_congr hsame, ← h.ordered.fits.leads_iff hkeys hcells.length_eq.ge]
  exact ⟨hlaw.symm hcells hkeys, hlaw.symm hkeys hcells⟩

theorem Asks.bounds (h : x.Fits registry columns) {equal : Row}
    (hasks : Asks registry (typesAt columns x.columns) equal lo hi) :
    ∃ equal' lo' hi', BoundsOk registry (typesAt columns x.columns) equal' lo' hi' ∧
      List.Forall₂ SameCell equal equal' ∧ Option.Rel SameCell lo lo' ∧
        Option.Rel SameCell hi hi' := by
  have horders : List.Forall₂ (fun type o => KeyOrder.Of registry type o)
      ((typesAt columns x.columns).take equal.length) (x.order.take equal.length) :=
    List.forall₂_take equal.length h.orders
  obtain ⟨equal', hcells, hsame⟩ := Registry.Argument.cells horders hasks.fixed
  have hbound : ∀ b : Option Value,
      (∀ v ∈ b, ∃ type, (typesAt columns x.columns)[equal.length]? = some type ∧
        registry.Argument type v) →
      ∃ b', Option.Rel SameCell b b' ∧ ∀ v ∈ b', ∃ type,
        (typesAt columns x.columns)[equal.length]? = some type ∧ registry.Cell type v := by
    intro b hb
    cases b with
    | none => exact ⟨none, .none, nofun⟩
    | some v =>
      obtain ⟨type, htype, hv⟩ := hb v rfl
      obtain ⟨w, hw, hvw⟩ := hv.cell (h.order_at htype)
      exact ⟨some w, .some hvw, fun u hu => ⟨type, htype, by cases hu; exact hw⟩⟩
  obtain ⟨lo', hlo, hlower⟩ := hbound lo hasks.lower
  obtain ⟨hi', hhi, hupper⟩ := hbound hi hasks.upper
  rw [hsame.length_eq] at hcells hlower hupper
  exact ⟨equal', lo', hi', ⟨hcells, hlower, hupper⟩, hsame, hlo, hhi⟩

/-- `prefix_range` finds the entries that begin with the prefix and have the next column between
the bounds. -/
theorem WellFormed.prefixRange (hlawful : registry.Lawful) (h : x.WellFormed registry columns)
    {equal : Row} (hasks : Asks registry (typesAt columns x.columns) equal lo hi) :
    ∃ found, x.prefixRange equal lo hi = .ok found ∧
      x.Answers found fun key => x.Leads equal key ∧ x.Between equal.length lo hi key := by
  obtain ⟨equal', lo', hi', hbounds, hsame, hlo, hhi⟩ := hasks.bounds h.ordered.fits
  have hle : equal'.length ≤ (typesAt columns x.columns).length := by
    have := hbounds.fixed.length_eq
    rw [List.length_take] at this
    omega
  have hwidth : ¬(x.columns.length < equal.length ∨
      ((lo.isSome ∨ hi.isSome) ∧ equal.length = x.columns.length)) := by
    have hlen : (typesAt columns x.columns).length = x.columns.length := by simp [typesAt]
    rw [hsame.length_eq]
    rintro (hlt | ⟨hsome, heq⟩)
    · omega
    · obtain ⟨rfl, rfl⟩ := hbounds.unbounded (List.getElem?_eq_none (by omega))
      cases hlo
      cases hhi
      simp at hsome
  refine ⟨x.prefixRangeAt equal lo hi x.root, by rw [OrderedIndex.prefixRange, if_neg hwidth], ?_⟩
  rw [prefixRangeAt_congr hsame hlo hhi, h.ordered.prefixRangeAt_root hlawful hbounds]
  refine h.answers fun e he => ?_
  rw [inRange_iff, h.ordered.fits.leads_iff (h.ordered.keys e he) hle, leads_congr hsame,
    between_congr hlo hhi, hsame.length_eq]
  rfl

/-- `range` finds the entries with the leading column between the bounds. -/
theorem WellFormed.range (hlawful : registry.Lawful) (h : x.WellFormed registry columns)
    {lo hi : Value} (htype : (typesAt columns x.columns)[0]? = some type)
    (hlo : registry.Argument type lo) (hhi : registry.Argument type hi) :
    x.Answers (x.range lo hi) (x.Between 0 (some lo) (some hi)) := by
  have hasks : Asks registry (typesAt columns x.columns) [] (some lo) (some hi) :=
    ⟨.nil, fun v hv => ⟨type, htype, by cases hv; exact hlo⟩,
      fun v hv => ⟨type, htype, by cases hv; exact hhi⟩⟩
  obtain ⟨found, hfound, hanswers⟩ := h.prefixRange hlawful hasks
  rw [OrderedIndex.prefixRange] at hfound
  split at hfound
  · cases hfound
  · cases hfound
    rw [OrderedIndex.range, rangeAt_eq]
    refine ⟨hanswers.once, fun l => (hanswers.exact l).trans ?_⟩
    simp [Leads]

/-! ## An index -/

def sampleIndex : OrderedIndex where
  definition := { name := lit "i", columns := [lit "a"], descending := [true] }
  columns := [0]
  order := [⟨fun a b => threeWay (getInteger a) (getInteger b), true⟩]
  root := .node ([.integer 2], ⟨0, 0⟩) .nil (.node ([.integer 1], ⟨0, 1⟩) .nil .nil 1) 2

def sampleColumns : List Column := [{ name := lit "a", type := integerType }]

theorem sampleIndex_wellFormed : sampleIndex.WellFormed scalarRegistry sampleColumns := by
  have hcells (i : Int64) :
      List.Forall₂ scalarRegistry.Cell (typesAt sampleColumns sampleIndex.columns) [.integer i] :=
    .cons (integer_cell i) .nil
  refine ⟨⟨⟨by decide +kernel, by decide, ?_⟩, ?_, by decide, ?_⟩, by decide⟩
  · have haddon : scalarRegistry.types integerType.id integerType.version = some integerAddon := by
      simp [scalarRegistry, integerType]
    exact .cons ⟨integerAddon, _, haddon, rfl, rfl, rfl⟩ .nil
  · simp [sampleIndex, Avl.Balanced, Avl.height]
  · intro e he
    obtain rfl | rfl : e = ([.integer 2], ⟨0, 0⟩) ∨ e = ([.integer 1], ⟨0, 1⟩) := by
      simpa [sampleIndex, Avl.entries] using he
    · exact hcells 2
    · exact hcells 1

/-! ## What the searches return -/

/-- `equal`, `range` and `prefix_range` return the locations of the matching entries, each once. -/
theorem ordered_searches_exact (registry : Registry) (columns : List Column) (x : OrderedIndex)
    (hlawful : registry.Lawful) (h : x.WellFormed registry columns) :
    (∀ key, List.Forall₂ registry.Argument (typesAt columns x.columns) key →
      ∃ found, x.equal key = .ok found ∧ x.Answers found (x.Leads key)) ∧
    (∀ type lo hi, (typesAt columns x.columns)[0]? = some type → registry.Argument type lo →
      registry.Argument type hi → x.Answers (x.range lo hi) (x.Between 0 (some lo) (some hi))) ∧
    ∀ equal lo hi, Asks registry (typesAt columns x.columns) equal lo hi →
      ∃ found, x.prefixRange equal lo hi = .ok found ∧
        x.Answers found fun key => x.Leads equal key ∧ x.Between equal.length lo hi key :=
  ⟨fun _ hkey => h.equal hlawful hkey,
    fun _ _ _ htype hlo hhi => h.range hlawful htype hlo hhi,
    fun _ _ _ hasks => h.prefixRange hlawful hasks⟩

theorem ordered_searches_exact_pair : sampleIndex.WellFormed scalarRegistry sampleColumns ∧
    sampleIndex.Answers (sampleIndex.range (.null integerType) (.integer 1))
      (sampleIndex.Between 0 (some (.null integerType)) (some (.integer 1))) :=
  ⟨sampleIndex_wellFormed,
    (ordered_searches_exact _ _ _ scalarRegistry_lawful sampleIndex_wellFormed).2.1
      integerType _ _ rfl
      (.inl rfl) (.inr (integer_cell 1))⟩

/-! ## Walks -/

/-- The key begins with the prefix and has the next column between the bounds. -/
def within (x : OrderedIndex) (b : Bounds) (key : Row) : Bool :=
  ((List.range b.equal.length).all fun i => (x.orderAt i).raw (key.cell i) (b.equal.cell i) == 0) &&
    (b.lower.all fun v => 0 ≤ (x.orderAt b.equal.length).raw (key.cell b.equal.length) v) &&
    b.upper.all fun v => (x.orderAt b.equal.length).raw (key.cell b.equal.length) v ≤ 0

theorem within_iff :
    x.within b key = true ↔ x.Leads b.equal key ∧ x.Between b.equal.length b.lower b.upper key := by
  simp only [within, Leads, Between, Bool.and_eq_true, List.all_eq_true, List.mem_range, beq_iff_eq,
    Option.all_eq_true, decide_eq_true_eq, and_assoc, Option.mem_def]

theorem Ordered.position_eq_zero (h : x.Ordered registry columns)
    (hbounds : x.ScanBounds registry columns b) {e : OrderedEntry} (he : e ∈ x.root.entries) :
    x.position b e.1 = 0 ↔ x.within b e.1 = true := by
  have hle : b.equal.length ≤ (typesAt columns x.columns).length := by
    have := hbounds.cells.fixed.length_eq
    rw [List.length_take] at this
    omega
  rw [hbounds.position_eq_zero, within_iff, h.fits.leads_iff (h.keys e he) hle]
  rfl

namespace Walk

def remaining (w : Walk) : List OrderedEntry := Avl.remaining w.reverse w.position w.stack

/-- A call returns the first entry that is left, and leaves the others. -/
theorem nextEntry_spec (w : Walk) :
    w.nextEntry.1 = w.remaining.head? ∧ w.nextEntry.2.remaining = w.remaining.tail := by
  cases hleft : w.remaining with
  | nil =>
    have hnext := Avl.next_nil (show Avl.remaining w.reverse w.position w.stack = [] from hleft)
    rw [nextEntry, hnext]
    exact ⟨rfl, rfl⟩
  | cons e l =>
    obtain ⟨stack, hnext, hrest⟩ :=
      Avl.next_cons (show Avl.remaining w.reverse w.position w.stack = e :: l from hleft)
    rw [nextEntry, hnext]
    exact ⟨rfl, hrest⟩

theorem remaining_after (w : Walk) (n : Nat) : (w.after n).remaining = w.remaining.drop n := by
  induction n with
  | zero => rfl
  | succ n ih => rw [after, (nextEntry_spec _).2, ih, List.tail_drop]

end Walk

/-- The calls of a walk return the entries within its bounds one after the other, in index order or
against it, and then nothing. -/
theorem bounded_walk_exact (registry : Registry) (columns : List Column) (x : OrderedIndex)
    (reverse : Bool) (bounds : Option Bounds) (hlawful : registry.Lawful)
    (h : x.WellFormed registry columns) (hbounds : ∀ b ∈ bounds, x.ScanBounds registry columns b)
    (n : Nat) :
    ((Walk.start x reverse bounds).after n).nextEntry.1 =
      ((if reverse then x.root.entries.reverse else x.root.entries).filter fun e =>
        bounds.all fun b => x.within b e.1)[n]? := by
  have hstart : (Walk.start x reverse bounds).remaining =
      (x.root.walk reverse).filter fun e => bounds.all fun b => x.within b e.1 := by
    cases bounds with
    | none =>
        have hwalk : (x.root.walk reverse).Pairwise fun _ _ =>
            if reverse then (0 : Int) ≤ 0 else (0 : Int) ≤ 0 :=
          List.pairwise_of_forall fun _ _ => by split <;> exact Int.le_refl 0
        exact Avl.remaining_seek hwalk
    | some b =>
        refine (h.ordered.remaining_seek hlawful (hbounds b rfl) reverse).trans ?_
        refine List.filter_congr fun e he => ?_
        rw [Bool.eq_iff_iff, beq_iff_eq]
        exact h.ordered.position_eq_zero (hbounds b rfl) (Avl.mem_walk.mp he)
  rw [(Walk.nextEntry_spec _).1, Walk.remaining_after, hstart, List.head?_drop]
  rfl

theorem bounded_walk_exact_pair :
    ((Walk.start sampleIndex false (some ⟨[], none, some (.integer 1)⟩)).after 0).nextEntry.1 =
      some ([.integer 1], ⟨0, 1⟩) := by
  have hbounds :
    sampleIndex.ScanBounds scalarRegistry sampleColumns ⟨[], none, some (.integer 1)⟩ :=
    ⟨⟨.nil, nofun, fun v hv => ⟨integerType, rfl, by cases hv; exact integer_cell 1⟩⟩, nofun, nofun,
      fun v hv => by cases hv; rfl⟩
  rw [bounded_walk_exact _ _ _ _ _ scalarRegistry_lawful sampleIndex_wellFormed
    (fun b hb => by cases hb; exact hbounds) 0]
  decide

end OrderedIndex

end CoreSql
