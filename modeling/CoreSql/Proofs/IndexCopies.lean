import CoreSql.Lib.Copies
import CoreSql.Proofs.IndexSearch
import Mathlib.Data.Multiset.Filter

/-!
# Copies of an ordered index

The nodes of an ordered index are immutable and shared between its copies, so
a copy is a value: `insert` and `erase` build a new root beside the old one
and assign it when nothing was thrown. What such copies hold after any
operations is said by a reference that knows no tree: for each copy a multiset
of keys and locations.

`Represents` is what a copy is to its multiset. The order it speaks of,
`Precedes`, is said column by column; that the comparison of the source is
this order is `precedes_iff`.
-/

namespace CoreSql

variable {registry : Registry} {schema : List Column}

/-! ## The order -/

/-- The first column in which keys differ decides, in its direction. -/
theorem compareKeys_neg {orders : List KeyOrder} {a b : Row} (ha : a.length = orders.length)
    (hb : b.length = orders.length) :
    compareKeys orders a b < 0 ↔ ∃ i < orders.length,
      (∀ j < i, (orders.getD j default).raw (a.cell j) (b.cell j) = 0) ∧
        if (orders.getD i default).descending then
          0 < (orders.getD i default).raw (a.cell i) (b.cell i)
        else (orders.getD i default).raw (a.cell i) (b.cell i) < 0 := by
  induction orders generalizing a b with
  | nil =>
    cases a <;> cases b <;> simp [compareKeys]
  | cons o orders ih =>
    cases a with
    | nil => simp at ha
    | cons k a =>
      cases b with
      | nil => simp at hb
      | cons v b =>
        have hrest := ih (by simpa using ha) (by simpa using hb)
        have hneg : o.cells k v < 0 ↔ if o.descending then 0 < o.raw k v else o.raw k v < 0 := by
          show (if o.descending then -(o.raw k v).sign else (o.raw k v).sign) < 0 ↔ _
          split
          · rw [Int.neg_neg_iff_pos, Int.sign_pos_iff]
          · exact Int.sign_neg_iff
        rw [compareKeys]
        by_cases hcell : o.cells k v = 0
        · rw [if_neg (by simp [hcell]), hrest]
          have hraw := KeyOrder.cells_eq_zero.mp hcell
          constructor
          · rintro ⟨i, hi, hequal, hdiffer⟩
            refine ⟨i + 1, by simpa using hi, fun j hj => ?_, hdiffer⟩
            cases j with
            | zero => exact hraw
            | succ j => exact hequal j (by omega)
          · rintro ⟨i, hi, hequal, hdiffer⟩
            cases i with
            | zero =>
              have := hneg.mpr hdiffer
              omega
            | succ i =>
              exact ⟨i, by simpa using hi, fun j hj => hequal (j + 1) (by omega), hdiffer⟩
        · rw [if_pos hcell, hneg]
          constructor
          · exact fun h => ⟨0, by simp, by simp, h⟩
          · rintro ⟨i, hi, hequal, hdiffer⟩
            cases i with
            | zero => exact hdiffer
            | succ i => exact absurd (KeyOrder.cells_eq_zero.mpr (hequal 0 (by omega))) hcell

namespace OrderedIndex

variable {x₀ x x' : OrderedIndex} {row : Row} {l : RowLocation}

/-- One entry comes before another: by the first column in which they differ, where NULL is lowest
and a descending column is reversed, and by location if they differ in none. -/
def Precedes (x : OrderedIndex) (a b : OrderedEntry) : Prop :=
  (∃ i < x.order.length, (∀ j < i, (x.orderAt j).raw (a.1.cell j) (b.1.cell j) = 0) ∧
    if (x.orderAt i).descending then 0 < (x.orderAt i).raw (a.1.cell i) (b.1.cell i)
    else (x.orderAt i).raw (a.1.cell i) (b.1.cell i) < 0) ∨
  (∀ j < x.order.length, (x.orderAt j).raw (a.1.cell j) (b.1.cell j) = 0) ∧ a.2 < b.2

theorem Fits.precedes_iff (h : x.Fits registry schema) {a b : OrderedEntry}
    (ha : List.Forall₂ registry.Cell (typesAt schema x.columns) a.1)
    (hb : List.Forall₂ registry.Cell (typesAt schema x.columns) b.1) :
    x.compareEntries a b < 0 ↔ x.Precedes a b := by
  have hla : a.1.length = x.order.length := ha.length_eq.symm.trans h.orders.length_eq
  have hlb : b.1.length = x.order.length := hb.length_eq.symm.trans h.orders.length_eq
  have hneg : x.compare a.1 b.1 < 0 ↔ _ := compareKeys_neg hla hlb
  have hzero : x.compare a.1 b.1 = 0 ↔ _ :=
    compareKeys_eq_zero (hla.trans hlb.symm).ge (by rw [hlb])
  rw [hlb] at hzero
  rw [Precedes, OrderedIndex.compareEntries, ThreeWay.both]
  split
  · next h0 =>
      rw [compareLocations_neg]
      constructor
      · exact fun hlt => .inr ⟨hzero.mp h0, hlt⟩
      · rintro (hdiffer | hlt)
        · have := hneg.mpr hdiffer
          omega
        · exact hlt.2
  · next hne =>
      rw [hneg]
      exact ⟨.inl, fun hor => hor.resolve_right fun hlt => hne (hzero.mpr hlt.1)⟩

/-! ## Operations and their reference -/

inductive Operation where
  | insert (row : Row) (location : RowLocation)
  | erase (row : Row) (location : RowLocation)

def act (x : OrderedIndex) : Operation → Except Error OrderedIndex
  | .insert row l => x.insert row l
  | .erase row l => x.erase row l

instance (m : Multiset OrderedEntry) (p : OrderedEntry → Prop) [DecidablePred p] :
    Decidable (∃ e ∈ m, p e) :=
  Multiset.decidableExistsMultiset

/-- The reference: a unique index refuses a key without NULL that is there; only what is there can
be taken out. -/
def reference (x : OrderedIndex) (m : Multiset OrderedEntry) :
    Operation → Except Unit (Multiset OrderedEntry)
  | .insert row l =>
    if x.definition.unique = true ∧ (x.key row).any Value.isNull = false ∧
        ∃ e ∈ m, x.compare (x.key row) e.1 = 0 then .error ()
    else .ok ((x.key row, l) ::ₘ m)
  | .erase row l =>
    if ∃ e ∈ m, x.compare (x.key row) e.1 = 0 ∧ e.2 = l then
      .ok (m.filter fun e => ¬(x.compare (x.key row) e.1 = 0 ∧ e.2 = l))
    else .error ()

/-- Rows are rows of the table, and what is inserted has a location of its own. -/
def Permits (registry : Registry) (schema : List Column) (m : Multiset OrderedEntry) :
    Operation → Prop
  | .insert row l => RowOk registry schema row ∧ ∀ e ∈ m, e.2 ≠ l
  | .erase row _ => RowOk registry schema row

structure Represents (x₀ x : OrderedIndex) (m : Multiset OrderedEntry) : Prop where
  same : x = { x₀ with root := x.root }
  ordered : x.root.entries.Pairwise x₀.Precedes
  measured : x.root.Measured
  level : x.root.Level
  contents : (x.root.entries : Multiset OrderedEntry) = m

/-- What carries `Represents` from one operation to the next. -/
structure Invariant (registry : Registry) (schema : List Column) (x₀ x : OrderedIndex)
    (m : Multiset OrderedEntry) : Prop where
  same : x = { x₀ with root := x.root }
  wellFormed : x.WellFormed registry schema
  contents : (x.root.entries : Multiset OrderedEntry) = m

theorem Invariant.represents {m : Multiset OrderedEntry} (h : Invariant registry schema x₀ x m) :
    Represents x₀ x m where
  same := h.same
  ordered := by
    have ho := h.wellFormed.ordered
    have hprecedes : ∀ {a b}, x.Precedes a b ↔ x₀.Precedes a b := by
      rw [h.same]
      exact Iff.rfl
    exact ho.sorted.imp_of_mem fun ha hb hlt =>
      hprecedes.mp ((ho.fits.precedes_iff (ho.keys _ ha) (ho.keys _ hb)).mp hlt)
  measured := h.wellFormed.ordered.balanced.measured
  level := h.wellFormed.ordered.balanced.level
  contents := h.contents

theorem create_invariant {definition : IndexDefinition}
    (h : create definition schema registry = .ok x₀) : Invariant registry schema x₀ x₀ 0 := by
  obtain ⟨-, hholds⟩ := create_holds h
  have hnil : x₀.root.entries = [] := List.perm_nil.mp hholds.entries
  exact ⟨rfl, ⟨hholds.ordered, by rw [hnil]; exact List.nodup_nil⟩, by rw [hnil]; rfl⟩

section Step

variable {m : Multiset OrderedEntry}

theorem Invariant.mem_iff (h : Invariant registry schema x₀ x m) {e : OrderedEntry} :
    e ∈ x.root.entries ↔ e ∈ m := by
  rw [← h.contents, Multiset.mem_coe]

theorem Invariant.insert (hlawful : registry.Lawful) (h : Invariant registry schema x₀ x m)
    (hrow : RowOk registry schema row) (hl : ∀ e ∈ m, e.2 ≠ l) (hins : x.insert row l = .ok x') :
    Invariant registry schema x₀ x' ((x.key row, l) ::ₘ m) := by
  have hentries := insert_entries hins
  refine ⟨?_, ⟨h.wellFormed.ordered.insert hlawful hrow hins, ?_⟩, ?_⟩
  · rw [insert_eq hins, h.same]
  · refine ((hentries.map Prod.snd).nodup_iff).mpr
      (List.nodup_cons.mpr ⟨?_, h.wellFormed.locations⟩)
    intro hmem
    obtain ⟨e, he, hloc⟩ := List.mem_map.mp hmem
    exact hl e (h.mem_iff.mp he) hloc
  · rw [Multiset.coe_eq_coe.mpr hentries, ← h.contents]
    rfl

theorem Invariant.erase (h : Invariant registry schema x₀ x m) (hdel : x.erase row l = .ok x') :
    Invariant registry schema x₀ x'
      (m.filter fun e => ¬(x.compare (x.key row) e.1 = 0 ∧ e.2 = l)) := by
  obtain ⟨hordered, before, e, after, hentries, hentries', hzero⟩ := h.wellFormed.ordered.erase hdel
  obtain ⟨hequal, hloc⟩ : x.compare (x.key row) e.1 = 0 ∧ l = e.2 :=
    location_eq_of_compareEntries hzero
  have hnodup := h.wellFormed.locations
  have hperm : x.root.entries.Perm (e :: (before ++ after)) := hentries ▸ List.perm_middle
  have hcons := ((hperm.map Prod.snd).nodup_iff).mp hnodup
  rw [List.map_cons, List.nodup_cons] at hcons
  refine ⟨?_, ⟨hordered, by rw [hentries']; exact hcons.2⟩, ?_⟩
  · rw [erase_eq hdel, h.same]
  · rw [hentries', ← h.contents, Multiset.coe_eq_coe.mpr hperm, Multiset.filter_coe, hloc]
    refine congrArg _ (Eq.symm ?_)
    rw [List.filter_cons_of_neg (by simpa using hequal), List.filter_eq_self]
    intro d hd
    have hne : d.2 ≠ e.2 := fun heq => hcons.1 (List.mem_map.mpr ⟨d, hd, heq⟩)
    simp [hne]

/-- The reference refuses what the index refuses, and does what it does. -/
theorem simulates (hlawful : registry.Lawful) (x₀ : OrderedIndex) :
    Copies.Simulates (Invariant registry schema x₀) (Permits registry schema) act x₀.reference where
  succeeds := by
    intro x m op m' h hpermits href
    have hkey : x.key = x₀.key := by rw [h.same]; rfl
    have hcompare : x.compare = x₀.compare := by rw [h.same]; rfl
    have hunique : x.definition = x₀.definition := by rw [h.same]
    cases op with
    | insert row l =>
      rw [reference] at href
      split at href
      · cases href
      next hfree =>
        cases href
        obtain ⟨x', hins⟩ : ∃ x', x.insert row l = .ok x' := by
          refine insert_exists fun e he => ⟨?_, hpermits.2 e (h.mem_iff.mp he)⟩
          rintro ⟨h₁, h₂, h₃⟩
          exact hfree ⟨hunique ▸ h₁, hkey ▸ h₂, e, h.mem_iff.mp he, by rwa [← hkey, ← hcompare]⟩
        exact ⟨x', hins, hkey ▸ h.insert hlawful hpermits.1 hpermits.2 hins⟩
    | erase row l =>
      rw [reference] at href
      split at href
      next hthere =>
        cases href
        obtain ⟨e, he, hzero, hloc⟩ := hthere
        have hentry : x.compareEntries (x.key row, l) e = 0 := by
          rw [OrderedIndex.compareEntries, ThreeWay.both,
            if_pos (by rw [hkey, hcompare]; exact hzero)]
          exact compareLocations_eq_zero.mpr hloc.symm
        obtain ⟨x', hdel⟩ :=
          h.wellFormed.ordered.erase_exists hlawful hpermits (h.mem_iff.mpr he) hentry
        exact ⟨x', hdel, hkey ▸ hcompare ▸ h.erase hdel⟩
      · cases href
  fails := by
    intro x m op u h hpermits href
    have hkey : x.key = x₀.key := by rw [h.same]; rfl
    have hcompare : x.compare = x₀.compare := by rw [h.same]; rfl
    have hunique : x.definition = x₀.definition := by rw [h.same]
    cases hact : act x op with
    | error e => exact ⟨e, rfl⟩
    | ok x' =>
      exfalso
      cases op with
      | insert row l =>
        rw [reference] at href
        split at href
        · next hclash =>
            obtain ⟨h₁, h₂, e, he, h₃⟩ := hclash
            exact h.wellFormed.ordered.insert_free hlawful hpermits.1 hact e (h.mem_iff.mpr he)
              ⟨hunique ▸ h₁, hkey ▸ h₂, by rwa [hkey, hcompare]⟩
        · cases href
      | erase row l =>
        rw [reference] at href
        split at href
        · cases href
        · next hmissing =>
            obtain ⟨-, before, e, after, hentries, -, hzero⟩ := h.wellFormed.ordered.erase hact
            obtain ⟨h₁, h₂⟩ := location_eq_of_compareEntries hzero
            refine hmissing ⟨e, h.mem_iff.mp (by simp [hentries]), ?_, h₂.symm⟩
            rwa [← hkey, ← hcompare]

end Step

/-- Copies of an index, after any operations on them: each is a search tree of what its reference
holds, and refused what its reference refused. -/
theorem ordered_copies_exact (registry : Registry) (schema : List Column)
    (definition : IndexDefinition) (x₀ : OrderedIndex) (hlawful : registry.Lawful)
    (hcreate : create definition schema registry = .ok x₀)
    (commands : List (Copies.Command Operation))
    (hallowed : Copies.Allowed x₀.reference (Permits registry schema) [0] commands) :
    (Copies.run act [x₀] commands).1 = (Copies.run x₀.reference [0] commands).1 ∧
      List.Forall₂ (Represents x₀) (Copies.run act [x₀] commands).2
        (Copies.run x₀.reference [0] commands).2 ∧
      ∀ command, let copies := (Copies.run act [x₀] commands).2
        ((Copies.step act copies command).1 = false → (Copies.step act copies command).2 = copies) ∧
          ∀ j < copies.length, j ≠ command.target →
            (Copies.step act copies command).2[j]? = copies[j]? := by
  have hstart : List.Forall₂ (Invariant registry schema x₀) [x₀] [0] :=
    .cons (create_invariant hcreate) .nil
  obtain ⟨houtcomes, hfinal⟩ := (simulates hlawful x₀).run hstart hallowed
  exact ⟨houtcomes, hfinal.imp fun _ _ h => h.represents,
    fun command => ⟨Copies.step_failed, fun j hj hne => Copies.step_other hj hne⟩⟩

def uniqueIndex : OrderedIndex :=
  { sampleIndex with definition := { sampleIndex.definition with unique := true }, root := .nil }

theorem ordered_copies_exact_refused :
    (Copies.run act [uniqueIndex] [.apply 0 (.insert [.integer 1] ⟨0, 0⟩), .copy 0,
      .apply 0 (.erase [.integer 1] ⟨0, 0⟩), .apply 1 (.insert [.integer 1] ⟨0, 1⟩)]).1 =
      [true, true, true, false] := by
  have hcreate : create uniqueIndex.definition sampleColumns scalarRegistry = .ok uniqueIndex := by
    have haddon : scalarRegistry.addon integerType = .ok integerAddon := by
      simp [Registry.addon, scalarRegistry, integerType]
    have hname : lit "i" ≠ [] := by decide +kernel
    have htype : scalarRegistry.validateType integerType = .ok () := by
      rw [Registry.validateType, haddon]
      rfl
    simp only [create, resolveColumns, uniqueIndex, sampleIndex, sampleColumns, hname]
    simp [haddon, htype]
    rfl
  have hrow : RowOk scalarRegistry sampleColumns [.integer 1] := .cons (integer_cell 1) .nil
  refine (ordered_copies_exact _ _ _ _ scalarRegistry_lawful hcreate _ ?_).1.trans (by decide)
  refine ⟨?_, ?_, ?_, ?_, trivial⟩ <;> rintro i op ⟨⟩ c ⟨⟩
  · exact ⟨hrow, by decide⟩
  · exact hrow
  · exact ⟨hrow, by decide⟩

end OrderedIndex

end CoreSql
