import CoreSql.Proofs.Lawful

/-!
# What an ordered index holds

`Holds` relates an ordered index to the rows it should index: its entries
are exactly the (key, location) pairs of those rows, bit for bit, in the
order of the key columns and locations, in a balanced tree. The rows come as
a list of located rows in any order, so that a table can be rearranged
without touching its indexes.

Insertion adds a row, removal takes one out, and from `Holds` alone follows
which locations `equal` returns.
-/

namespace CoreSql

variable {registry : Registry} {c : Column} {columns : List Column} {row : Row}

/-- A row that may be stored under a schema: cell by cell what
`validate_stored` accepts. -/
def RowOk (registry : Registry) (columns : List Column) (row : Row) : Prop :=
  List.Forall₂ (fun v c => validateStored v c registry = .ok ()) row columns

def typesAt (columns : List Column) (positions : List Nat) : List SqlType :=
  positions.map fun i => (columns[i]?.map Column.type).getD integerType

def columnAt (columns : List Column) (name : Bytes) : Option Nat :=
  columns.findIdx? fun c => c.name == name

theorem validateStored_cell {v : Value}
    (h : validateStored v c registry = .ok ()) : registry.Cell c.type v := by
  rw [validateStored] at h
  split at h
  · cases h
  · exact h

section

variable (h : RowOk registry columns row)
include h

theorem RowOk.cell {i : Nat} (hc : columns[i]? = some c) :
    validateStored (row.cell i) c registry = .ok () := by
  induction h generalizing i with
  | nil => simp at hc
  | cons hv _ ih =>
    cases i with
    | zero =>
      cases hc
      exact hv
    | succ i => exact ih hc

theorem RowOk.length_eq : row.length = columns.length :=
  List.Forall₂.length_eq h

theorem RowOk.key {positions : List Nat} (hp : ∀ i ∈ positions, i < columns.length) :
    List.Forall₂ registry.Cell (typesAt columns positions) (positions.map row.cell) := by
  induction positions with
  | nil => exact .nil
  | cons i rest ih =>
    have hi : i < columns.length := hp i List.mem_cons_self
    refine .cons ?_ (ih fun j hj => hp j (List.mem_cons_of_mem _ hj))
    simp only [List.getElem?_eq_getElem hi]
    exact validateStored_cell (h.cell (List.getElem?_eq_getElem hi))

end

namespace OrderedIndex

variable {a b n e : OrderedEntry} {schema : List Column}

structure Fits (registry : Registry) (columns : List Column) (x : OrderedIndex) : Prop where
  names : x.definition.columns.map (columnAt columns) = x.columns.map some
  inRange : ∀ i ∈ x.columns, i < columns.length
  orders : List.Forall₂ (fun type o => o.Of registry type) (typesAt columns x.columns) x.order

/-- The tree is balanced and in order, and its keys are cells of the columns. -/
structure Ordered (registry : Registry) (columns : List Column) (x : OrderedIndex) : Prop where
  fits : x.Fits registry columns
  balanced : x.root.Balanced
  sorted : x.root.entries.Pairwise fun a b => x.compareEntries a b < 0
  keys : ∀ e ∈ x.root.entries, List.Forall₂ registry.Cell (typesAt columns x.columns) e.1

structure Holds (registry : Registry) (columns : List Column) (x : OrderedIndex)
    (rows : List (RowLocation × Row)) : Prop where
  fits : x.Fits registry columns
  balanced : x.root.Balanced
  sorted : x.root.entries.Pairwise fun a b => x.compareEntries a b < 0
  keys : ∀ e ∈ x.root.entries, List.Forall₂ registry.Cell (typesAt columns x.columns) e.1
  entries : x.root.entries.Perm (rows.map fun e => (x.key e.2, e.1))

variable {registry : Registry} {columns : List Column} {x x' : OrderedIndex}
  {rows rows' : List (RowLocation × Row)} {row : Row} {l : RowLocation}

theorem Holds.ordered (h : x.Holds registry columns rows) : x.Ordered registry columns :=
  ⟨h.fits, h.balanced, h.sorted, h.keys⟩

theorem Fits.key (h : x.Fits registry columns) (hrow : RowOk registry columns row) :
    List.Forall₂ registry.Cell (typesAt columns x.columns) (x.key row) :=
  hrow.key h.inRange

theorem Fits.compare (hlawful : registry.Lawful) (h : x.Fits registry columns) :
    ThreeWay (List.Forall₂ registry.Cell (typesAt columns x.columns)) x.compare :=
  compareKeys_threeWay hlawful h.orders

theorem Fits.compareEntries (hlawful : registry.Lawful) (h : x.Fits registry columns) :
    ThreeWay (fun e : OrderedEntry =>
      List.Forall₂ registry.Cell (typesAt columns x.columns) e.1 ∧ True) x.compareEntries :=
  (h.compare hlawful).both_lawful compareLocations_threeWay

theorem location_eq_of_compareEntries (h : x.compareEntries a b = 0) :
    x.compare a.1 b.1 = 0 ∧ a.2 = b.2 := by
  rw [OrderedIndex.compareEntries, ThreeWay.both] at h
  split at h
  · next h0 => exact ⟨h0, compareLocations_eq_zero.mp h⟩
  · next hne => exact absurd h hne

theorem Holds.perm (h : x.Holds registry columns rows) (hp : rows.Perm rows') :
    x.Holds registry columns rows' :=
  { h with entries := h.entries.trans (hp.map _) }

theorem Ordered.insert (hlawful : registry.Lawful) (h : x.Ordered registry columns)
    (hrow : RowOk registry columns row) (hins : x.insert row l = .ok x') :
    x'.Ordered registry columns := by
  obtain ⟨root, hroot, hins⟩ := Fallible.bind_eq_ok.mp hins
  cases hins
  have hlaw := h.fits.compareEntries hlawful
  have hkey := h.fits.key hrow
  refine ⟨⟨h.fits.names, h.fits.inRange, h.fits.orders⟩,
    (Avl.insertWith_balanced h.balanced hroot).1, ?_,
    fun e he => ?_⟩
  · refine Avl.insertWith_sorted (r := fun a b => x.compareEntries a b < 0)
      (fun a b c => hlaw.lt_trans) ⟨hkey, trivial⟩ (fun b d hb hd => ?_)
      (fun e he => ⟨h.keys e he, trivial⟩) h.sorted hroot
    -- A turn that was not refused leads towards the smaller side.
    rw [turn] at hd
    split at hd
    · cases hd
    · split at hd
      · cases hd
      · next hne =>
          cases hd
          have hswap := hlaw.swap (a := (x.key row, l)) ⟨hkey, trivial⟩ hb
          split
          · next hlt => simpa using hlt
          · next hge =>
              have hge : ¬x.compareEntries (x.key row, l) b < 0 := by simpa using hge
              omega
  · rcases List.mem_cons.mp ((Avl.insertWith_perm hroot).mem_iff.mp he) with rfl | he
    · exact hkey
    · exact h.keys e he

theorem insert_entries (hins : x.insert row l = .ok x') :
    x'.root.entries.Perm ((x.key row, l) :: x.root.entries) := by
  obtain ⟨root, hroot, hins⟩ := Fallible.bind_eq_ok.mp hins
  cases hins
  exact Avl.insertWith_perm hroot

theorem insert_eq (hins : x.insert row l = .ok x') : x' = { x with root := x'.root } := by
  obtain ⟨root, -, hins⟩ := Fallible.bind_eq_ok.mp hins
  cases hins
  rfl

theorem erase_eq (hdel : x.erase row l = .ok x') : x' = { x with root := x'.root } := by
  obtain ⟨root, -, hdel⟩ := Fallible.bind_eq_ok.mp hdel
  cases hdel
  rfl

theorem Holds.insert (hlawful : registry.Lawful) (h : x.Holds registry columns rows)
    (hrow : RowOk registry columns row) (hins : x.insert row l = .ok x') :
    x'.Holds registry columns ((l, row) :: rows) := by
  have hordered := h.ordered.insert hlawful hrow hins
  have hentries := insert_entries hins
  rw [insert_eq hins] at hordered ⊢
  exact ⟨hordered.fits, hordered.balanced, hordered.sorted, hordered.keys,
    hentries.trans (h.entries.cons _)⟩

/-- Removal takes one entry out, and the comparison calls it equal. -/
theorem Ordered.erase (h : x.Ordered registry columns) (hdel : x.erase row l = .ok x') :
    x'.Ordered registry columns ∧ ∃ before e after, x.root.entries = before ++ e :: after ∧
      x'.root.entries = before ++ after ∧ x.compareEntries (x.key row, l) e = 0 := by
  obtain ⟨root, hroot, hdel⟩ := Fallible.bind_eq_ok.mp hdel
  cases hdel
  obtain ⟨before, e, after, hentries, hentries', h0⟩ := Avl.eraseWith_entries h.sorted hroot
  have hsub : (before ++ after).Sublist x.root.entries := by
    rw [hentries]
    exact List.Sublist.append_left (List.sublist_cons_self _ _) _
  refine ⟨⟨⟨h.fits.names, h.fits.inRange, h.fits.orders⟩,
    (Avl.eraseWith_balanced h.balanced hroot).1, ?_,
    fun e' he' => ?_⟩, before, e, after, hentries, hentries', h0⟩
  · rw [hentries']
    exact h.sorted.sublist hsub
  · rw [hentries'] at he'
    exact h.keys e' (hsub.subset he')

/-! ### What is refused -/

theorem turn_eq_ok_iff : (∃ d, x.turn n e = .ok d) ↔
    ¬(x.definition.unique = true ∧ n.1.any Value.isNull = false ∧ x.compare n.1 e.1 = 0) ∧
      x.compareEntries n e ≠ 0 := by
  rw [turn]
  by_cases hclash : (x.compare n.1 e.1 = 0 && x.definition.unique && !n.1.any Value.isNull) = true
  · rw [if_pos hclash]
    simp only [Bool.and_eq_true, decide_eq_true_eq, Bool.not_eq_true'] at hclash
    constructor
    · rintro ⟨d, hd⟩
      cases hd
    · rintro ⟨hnot, -⟩
      exact absurd ⟨hclash.1.2, hclash.2, hclash.1.1⟩ hnot
  · rw [if_neg hclash]
    have hnot : ¬(x.definition.unique = true ∧ n.1.any Value.isNull = false ∧
        x.compare n.1 e.1 = 0) := by
      rintro ⟨hunique, hnull, hzero⟩
      exact hclash (by simp [hunique, hnull, hzero])
    by_cases hzero : x.compareEntries n e = 0
    · rw [if_pos hzero]
      constructor
      · rintro ⟨d, hd⟩
        cases hd
      · exact fun h => absurd hzero h.2
    · rw [if_neg hzero]
      exact ⟨fun _ => ⟨hnot, hzero⟩, fun _ => ⟨_, rfl⟩⟩

/-- A row can be entered when no key clashes with its own and its place is free. -/
theorem insert_exists (hfree : ∀ e ∈ x.root.entries,
    ¬(x.definition.unique = true ∧ (x.key row).any Value.isNull = false ∧
      x.compare (x.key row) e.1 = 0) ∧ e.2 ≠ l) : ∃ x', x.insert row l = .ok x' := by
  have hturns : ∀ e ∈ x.root.entries, ∃ d, x.turn (x.key row, l) e = .ok d := fun e he =>
    turn_eq_ok_iff.mpr ⟨(hfree e he).1, fun hzero =>
      (hfree e he).2 (location_eq_of_compareEntries hzero).2.symm⟩
  obtain ⟨root, hroot⟩ := Avl.insertWith_exists (a := (x.key row, l)) hturns
  exact ⟨{ x with root }, by rw [OrderedIndex.insert, hroot]; rfl⟩

/-- A turn that was not refused is towards the place of the new entry. -/
theorem turn_spec {d : Bool} (h : x.turn n e = .ok d) :
    d = decide (x.compareEntries n e < 0) ∧ x.compareEntries n e ≠ 0 := by
  refine ⟨?_, (turn_eq_ok_iff.mp ⟨d, h⟩).2⟩
  rw [turn] at h
  split at h
  · cases h
  split at h
  · cases h
  · exact (Except.ok.inj h).symm

theorem compare_le_of_entries (h : x.compareEntries a b < 0) : x.compare a.1 b.1 ≤ 0 := by
  rw [OrderedIndex.compareEntries, ThreeWay.both] at h
  split at h <;> omega

/-- A row that was entered clashed with no entry: one it clashes with is next to its place, and so
on the way there. -/
theorem Ordered.insert_free (hlawful : registry.Lawful) (h : x.Ordered registry columns)
    (hrow : RowOk registry columns row) (hins : x.insert row l = .ok x') :
    ∀ e ∈ x.root.entries, ¬(x.definition.unique = true ∧ (x.key row).any Value.isNull = false ∧
      x.compare (x.key row) e.1 = 0) := by
  have hlaw := h.fits.compare hlawful
  have hkey := h.fits.key hrow
  have hentries := h.fits.compareEntries hlawful
  obtain ⟨root, hroot, -⟩ := Fallible.bind_eq_ok.mp hins
  have haccepted := Avl.insertWith_accepted h.sorted ?_ ?_ hroot
  · exact fun e he => (turn_eq_ok_iff.mp (haccepted e he)).1
  -- what lies beyond an entry the new one is below is not nearer to it
  · intro d hd e he hde hleft
    obtain ⟨hbelow, -⟩ := turn_spec hleft
    have hlt : x.compareEntries (x.key row, l) d < 0 := by simpa using hbelow.symm
    refine turn_eq_ok_iff.mpr ⟨fun ⟨hunique, hnull, hzero⟩ => ?_, ?_⟩
    · refine (turn_eq_ok_iff.mp ⟨true, hleft⟩).1 ⟨hunique, hnull, ?_⟩
      have h₁ := compare_le_of_entries hlt
      have h₂ := compare_le_of_entries hde
      have hback := hlaw.trans (h.keys d hd) (h.keys e he) hkey h₂
        (by rw [hlaw.symm hkey (h.keys e he) hzero])
      have hswap := hlaw.swap hkey (h.keys d hd)
      have hswap' := hlaw.swap (h.keys d hd) hkey
      simp only at h₁ hback hswap hswap' ⊢
      omega
    · have := hentries.lt_trans ⟨hkey, trivial⟩ ⟨h.keys d hd, trivial⟩ ⟨h.keys e he,
        trivial⟩ hlt hde
      omega
  · intro d hd e he hde hright
    obtain ⟨habove, hne⟩ := turn_spec hright
    have hge : ¬x.compareEntries (x.key row, l) e < 0 := by simpa using habove.symm
    have hgt : x.compareEntries e (x.key row, l) < 0 :=
      (hentries.swap ⟨hkey, trivial⟩ ⟨h.keys e he, trivial⟩).mp (by omega)
    refine turn_eq_ok_iff.mpr ⟨fun ⟨hunique, hnull, hzero⟩ => ?_, ?_⟩
    · refine (turn_eq_ok_iff.mp ⟨false, hright⟩).1 ⟨hunique, hnull, ?_⟩
      have h₁ := compare_le_of_entries hgt
      have h₂ := compare_le_of_entries hde
      have hback := hlaw.trans hkey (h.keys d hd) (h.keys e he) (by rw [hzero]) h₂
      have hswap := hlaw.swap hkey (h.keys e he)
      have hswap' := hlaw.swap (h.keys e he) hkey
      simp only at h₁ hback hswap hswap' ⊢
      omega
    · have hlt := hentries.lt_trans ⟨h.keys d hd, trivial⟩ ⟨h.keys e he, trivial⟩ ⟨hkey, trivial⟩
        hde hgt
      have hswap := hentries.swap (a := (x.key row, l)) (b := d) ⟨hkey, trivial⟩
        ⟨h.keys d hd, trivial⟩
      omega

theorem Ordered.erase_exists (hlawful : registry.Lawful) (h : x.Ordered registry columns)
    (hrow : RowOk registry columns row) (he : e ∈ x.root.entries)
    (hzero : x.compareEntries (x.key row, l) e = 0) : ∃ x', x.erase row l = .ok x' := by
  obtain ⟨root, hroot⟩ :
      ∃ root, Avl.eraseWith x.compareEntries missingError (x.key row, l) x.root = .ok root :=
    Avl.eraseWith_exists (h.fits.compareEntries hlawful) ⟨h.fits.key hrow, trivial⟩
      (fun e he => ⟨h.keys e he, trivial⟩) h.sorted he hzero
  exact ⟨{ x with root }, by rw [OrderedIndex.erase, hroot]; rfl⟩

/-! ## What it answers -/

theorem equalAt_eq (x : OrderedIndex) (key : Row) (t : Avl OrderedEntry) :
    x.equalAt key t = (t.between (fun e => 0 < x.compare key e.1)
      fun e => x.compare key e.1 < 0).map Prod.snd := by
  induction t with
  | nil => rfl
  | node e left right h ihl ihr =>
    rw [equalAt, Avl.between, ihl, ihr]
    rcases lt_trichotomy (x.compare key e.1) 0 with hc | hc | hc
    · simp [hc, hc.not_gt, hc.le, hc.ne]
    · simp [hc]
    · simp [hc, hc.not_gt, hc.le, hc.ne']

/-- The walk of `equal` finds every entry with an equal key, in index order. -/
theorem Ordered.equalAt_root (hlawful : registry.Lawful)
    (h : x.Ordered registry columns) {key : Row}
    (hkey : List.Forall₂ registry.Cell (typesAt columns x.columns) key) :
    x.equalAt key x.root = (x.root.entries.filter fun e => x.compare key e.1 == 0).map
      Prod.snd := by
  have hlaw := h.fits.compare hlawful
  rw [equalAt_eq, Avl.between_eq_filter h.sorted]
  · refine congrArg _ (List.filter_congr fun e _ => ?_)
    rw [Bool.eq_iff_iff]
    simp only [Bool.not_or, Bool.and_eq_true, Bool.not_eq_true',
      decide_eq_false_iff_not, beq_iff_eq]
    omega
  · -- before an entry that is smaller than the key everything is
    intro a ha b hb hab hbelow
    simp only [decide_eq_true_eq] at hbelow ⊢
    have hba := compare_le_of_entries hab
    have hlt := (hlaw.swap hkey (h.keys b hb)).mp hbelow
    exact (hlaw.swap hkey (h.keys a ha)).mpr
      (hlaw.lt_of_le_of_lt (h.keys a ha) (h.keys b hb) hkey hba hlt)
  · intro a ha b hb hab habove
    simp only [decide_eq_true_eq] at habove ⊢
    exact hlaw.lt_of_lt_of_le hkey (h.keys a ha) (h.keys b hb) habove (compare_le_of_entries hab)

/-! ## A new index -/

theorem resolveColumns_ok {descends : Nat → Bool} {names : List Bytes}
    {resolved : List (Nat × KeyOrder)} {i : Nat} {seen : List Bytes}
    (h : resolveColumns schema registry descends i seen names = .ok resolved) :
    names.map (columnAt schema) = resolved.map (fun p => some p.1) ∧
      (∀ p ∈ resolved, p.1 < schema.length) ∧
      List.Forall₂ (fun type o => o.Of registry type) (typesAt schema (resolved.map Prod.fst))
        (resolved.map Prod.snd) := by
  induction names generalizing i seen resolved with
  | nil =>
    cases h
    exact ⟨rfl, by simp, .nil⟩
  | cons name rest ih =>
    rw [resolveColumns] at h
    split at h
    · cases h
    · next position hposition =>
        have hlt : position < schema.length := (List.findIdx?_eq_some_iff_getElem.mp hposition).1
        have hcolumn : (schema[position]?.map Column.type).getD integerType =
            schema[position].type := by
          rw [List.getElem?_eq_getElem hlt]
          rfl
        simp only [hcolumn] at h
        split at h
        · cases h
        obtain ⟨⟨⟩, htype, h⟩ := Fallible.bind_eq_ok.mp h
        obtain ⟨addon, haddon, h⟩ := Fallible.bind_eq_ok.mp h
        split at h
        · cases h
        · next compare hcompare =>
            obtain ⟨others, hothers, h⟩ := Fallible.bind_eq_ok.mp h
            cases h
            obtain ⟨hnames, hrange, horders⟩ := ih hothers
            obtain ⟨addon', haddon', htype⟩ := Fallible.bind_eq_ok.mp htype
            rw [haddon] at haddon'
            cases haddon'
            refine ⟨?_, fun p hp => ?_, .cons ?_ horders⟩
            · rw [List.map_cons, List.map_cons, hnames, columnAt, hposition]
            · rcases List.mem_cons.mp hp with rfl | hp
              · exact hlt
              · exact hrange p hp
            · simp only [hcolumn]
              exact ⟨addon, compare, addon_eq_ok.mp haddon, htype, hcompare, rfl⟩

/-- A new index is for the columns it was created over, and holds nothing. -/
theorem create_holds {definition : IndexDefinition}
    (h : create definition schema registry = .ok x) :
    x.definition = definition ∧ x.Holds registry schema [] := by
  rw [create] at h
  split at h
  · cases h
  split at h
  · cases h
  obtain ⟨resolved, hresolved, h⟩ := Fallible.bind_eq_ok.mp h
  split at h
  · cases h
  cases h
  obtain ⟨hnames, hrange, horders⟩ := resolveColumns_ok hresolved
  refine ⟨rfl, ⟨?_, ?_, horders⟩, trivial, List.Pairwise.nil, by simp, List.Perm.refl _⟩
  · rw [List.map_map]
    exact hnames
  · simpa using hrange

theorem insert_definition (h : x.insert row l = .ok x') : x'.definition = x.definition := by
  rw [insert_eq h]

end OrderedIndex

end CoreSql
