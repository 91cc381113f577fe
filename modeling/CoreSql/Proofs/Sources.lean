import CoreSql.Proofs.Candidates
import CoreSql.Query.Source

/-!
# Reading sources

A source shows the rows of its table, or those of its selection, in table
order, and every reader is a visit of that list. `Source.Ok` collects what a
reader relies on. A stored table has it, and so has every view made from a
source that has it. A temporary table does not quite: its columns are not
declared nullable and may hold NULL all the same. `Source.Listed` and
`Source.Readable` ask less, and are what a scan and a join need.
-/

namespace CoreSql

variable {registry : Registry} {columns : List Column}

/-- A row of valid values of its columns, where any of them may be NULL. -/
def RowTyped (registry : Registry) (columns : List Column) (row : Row) : Prop :=
  List.Forall₂ (fun v (c : Column) => registry.Cell c.type v) row columns

theorem RowTyped.cell {row : Row} (h : RowTyped registry columns row)
    {i : Nat} {c : Column} (hc : columns[i]? = some c) : registry.Cell c.type (row.cell i) := by
  induction h generalizing i with
  | nil => simp at hc
  | cons hv _ ih =>
    cases i with
    | zero =>
      cases hc
      exact hv
    | succ i => exact ih hc

theorem RowOk.typed {row : Row} (h : RowOk registry columns row) : RowTyped registry columns row :=
  h.imp fun _ _ => validateStored_cell

namespace Source

variable {s : Source} {e : RowLocation × RowView}

def views (s : Source) : List (RowLocation × RowView) := s.toTable.offered s.selection

/-- A source that can be read: its table is consistent, its selection lists
rows of the table in order, a view has no indexes, and the rows are counted. -/
structure Ok (registry : Registry) (s : Source) : Prop where
  consistent : s.toTable.Consistent registry
  selected : ∀ rows ∈ s.selection,
    rows.Pairwise (· < ·) ∧ ∀ l ∈ rows, ∃ e ∈ s.toTable.views, e.1 = l
  unindexed : s.selection.isSome → s.primary = none ∧ s.ordered = []
  counted : s.rowCount = s.views.length

theorem mem_views : e ∈ s.views ↔ e ∈ s.toTable.views ∧ ∀ rows ∈ s.selection, e.1 ∈ rows :=
  Table.mem_offered

theorem views_of_none (h : s.selection = none) : s.views = s.toTable.views := by
  rw [views, h]
  rfl

theorem normalize_of_sorted {rows : List RowLocation} (h : rows.Pairwise (· < ·)) :
    normalize rows = rows :=
  List.Pairwise.eq_of_mem_iff (normalize_sorted rows) h fun _ => mem_normalize

/-- A source that shows its rows in order: a selection lists rows of the
table in order, and the rows are counted. -/
structure Listed (s : Source) : Prop where
  inOrder : s.toTable.InOrder
  selected : ∀ rows ∈ s.selection,
    rows.Pairwise (· < ·) ∧ ∀ l ∈ rows, ∃ e ∈ s.toTable.views, e.1 = l
  counted : s.rowCount = s.views.length

/-- A source that can be joined: its cells are valid, and it has either no
index to look rows up in or the indexes of a stored table. -/
structure Readable (registry : Registry) (s : Source) : Prop extends s.Listed where
  typed : ∀ e ∈ s.views, RowTyped registry s.columns e.2.row
  indexed : (s.selection = none ∧ s.toTable.Consistent registry) ∨
    (s.primary = none ∧ s.ordered = [])

theorem Ok.row (h : s.Ok registry) (he : e ∈ s.views) : RowOk registry s.columns e.2.row := by
  refine h.consistent.rows (e.1, e.2.row) ?_
  rw [s.toTable.located_eq_views]
  exact List.mem_map.mpr ⟨e, (mem_views.mp he).1, rfl⟩

theorem Ok.readable (h : s.Ok registry) : s.Readable registry where
  inOrder := h.consistent.inOrder
  selected := h.selected
  typed _ he := (h.row he).typed
  indexed := by
    cases hsel : s.selection with
    | none => exact .inl ⟨rfl, h.consistent⟩
    | some rows => exact .inr (h.unindexed (by rw [hsel]; rfl))
  counted := h.counted

section

variable {m : Type → Type} [Monad m] [LawfulMonad m] [MonadLiftT (Except Error) m]
  [LawfulMonadLiftT (Except Error) m] (visit : RowLocation × RowView → m Bool)

theorem visitGroup_of_open {g : Group} {c : Chunk} {positions : List Nat}
    (h : s.toTable.openGroup g = .ok (c, positions)) : s.visitGroup visit g =
      Visit.visit visit (positions.map fun i => (⟨g.chunk, c.slot i⟩, c.view i)) := by
  rw [visitGroup, h, Visit.visit_map]
  exact Fallible.lift_ok_bind _ _

theorem Listed.visitTableRows_eq (h : s.Listed) :
    s.visitTableRows visit = Visit.visit visit s.views := by
  have hordered := h.inOrder
  rw [visitTableRows, groups, views]
  cases hsel : s.selection with
  | none =>
    rw [Visit.visit_map]
    refine Eq.trans (Visit.visit_congr fun e he => ?_) (Visit.visit_flatMap visit _ _).symm
    have hopen : s.toTable.openGroup ⟨e.1, none⟩ = .ok (e.2, List.range e.2.rows.length) := by
      rw [Table.openGroup, hordered.sorted.find_of_mem he]
    exact visitGroup_of_open visit hopen
  | some rows =>
    obtain ⟨hsorted, hreal⟩ := h.selected rows hsel
    obtain ⟨hflat, hspec⟩ := groupRows_spec rows
    have hviews : s.toTable.offered (some rows) =
        (groupRows rows).flatMap fun g => (g.rows.getD []).map s.toTable.viewAt := by
      rw [← List.map_flatMap, hflat, Table.offered, ← hordered.normalize_eq hreal,
        normalize_of_sorted hsorted]
    rw [hviews, Visit.visit_flatMap]
    refine Visit.visit_congr fun g hg => ?_
    obtain ⟨ls, hls, hne, hchunk⟩ := hspec g hg
    have hmem : ∀ l ∈ ls, l ∈ rows := fun l hl => by
      rw [← hflat]
      exact List.mem_flatMap.mpr ⟨g, hg, by simpa [hls] using hl⟩
    obtain ⟨c, hopen, -, hpositions⟩ :=
      hordered.openGroup_eq hls hne hchunk fun l hl => hreal l (hmem l hl)
    rw [visitGroup_of_open visit hopen, hpositions, hls, Option.getD_some]

end

theorem Listed.views_sorted (h : s.Listed) : s.views.Pairwise fun a b => a.1 < b.1 := by
  rw [views]
  cases s.selection with
  | none => exact h.inOrder.views_sorted
  | some rows => exact h.inOrder.views_sorted.filter _

theorem Listed.indexedRow_eq (h : s.Listed)
    (he : e ∈ s.toTable.views) : s.indexedRow e.1 = .ok e.2.row := by
  obtain ⟨c, hfind, hlt, -, hview⟩ := h.inOrder.mem_views he
  have hrow : e.2 = c.view (c.position e.1.slot) := by
    rw [hview, Table.viewAt, hfind]
  rw [indexedRow, Table.indexedRow, hfind, hrow]
  simp only [if_neg (Nat.ne_of_lt hlt)]
  rfl

theorem Readable.stored (h : s.Readable registry) (hindex : s.primary ≠ none ∨ s.ordered ≠ []) :
    s.toTable.Consistent registry ∧ s.views = s.toTable.views := by
  rcases h.indexed with ⟨hnone, hconsistent⟩ | ⟨hprimary, hordered⟩
  · exact ⟨hconsistent, views_of_none hnone⟩
  · exact absurd hindex (by simp [hprimary, hordered])

end Source

/-! ## Where sources come from -/

theorem Table.Consistent.source {t : Table} (h : t.Consistent registry)
    (hcount : t.rowCount = t.views.length) : t.source.Ok registry where
  consistent := h
  selected _ hrows := nomatch hrows
  unindexed hsome := nomatch hsome
  counted := hcount

end CoreSql
