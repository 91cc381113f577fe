import CoreSql.Proofs.Ranges
import CoreSql.Query.Candidates

/-!
# Visiting rows

A scan goes through the chunks of a table, whole or only the locations an
index offered, grouped by chunk. Either way it sees the rows of the table in
table order, each once, and what it keeps is what its test accepts: visiting
offered locations is visiting all rows and skipping the others.

For this the chunks have to be in order and the slots of each chunk
increasing, so that a location determines a position.
-/

namespace CoreSql

variable {registry : Registry} {t : Table} {selected : Option (List RowLocation)}
  {a b : RowLocation}

/-! ## Rows with their locations -/

theorem RowLocation.lt_iff : a < b ↔ a.chunk < b.chunk ∨ (a.chunk = b.chunk ∧ a.slot < b.slot) := by
  show a.key < b.key ↔ _
  rw [key, key, Prod.Lex.toLex_lt_toLex]

namespace Chunk

variable {id : Nat}

/-- Slots are implicit, or explicit and increasing. -/
def Placed (c : Chunk) : Prop :=
  c.slots = [] ∨ (c.slots.length = c.rows.length ∧ c.slots.Pairwise (· < ·))

variable {c : Chunk} {i j : Nat}

theorem Placed.slot_lt (h : c.Placed) (hij : i < j) (hj : j < c.rows.length) :
    c.slot i < c.slot j := by
  rw [slot, slot]
  rcases h with hempty | ⟨hlen, hinc⟩
  · simpa [hempty] using hij
  · have hne : c.slots.isEmpty = false := by
      rw [List.isEmpty_eq_false_iff]
      intro hnil
      simp [hnil] at hlen
      omega
    rw [hne]
    simp only [Bool.false_eq_true, if_false]
    rw [List.getD_eq_getElem?_getD, List.getD_eq_getElem?_getD,
      List.getElem?_eq_getElem (by omega), List.getElem?_eq_getElem (by omega)]
    exact List.pairwise_iff_getElem.mp hinc i j (by omega) (by omega) hij

theorem Placed.position_slot (h : c.Placed) (hi : i < c.rows.length) :
    c.position (c.slot i) = i := by
  rw [position, slot]
  rcases h with hempty | ⟨hlen, hinc⟩
  · simp [hempty, hi]
  · have hne : c.slots.isEmpty = false := by
      rw [List.isEmpty_eq_false_iff]
      intro hnil
      simp [hnil] at hlen
      omega
    rw [hne]
    simp only [Bool.false_eq_true, if_false]
    have hslot : c.slots.getD i 0 = c.slots[i] := by
      rw [List.getD_eq_getElem?_getD, List.getElem?_eq_getElem (by omega)]
      rfl
    have hfind : c.slots.findIdx? (· == c.slots[i]) = some i := by
      rw [List.findIdx?_eq_some_iff_getElem]
      refine ⟨by omega, by simp, fun k hk => ?_⟩
      have := List.pairwise_iff_getElem.mp hinc k i (by omega) (by omega) hk
      simpa using ne_of_lt this
    rw [hslot, hfind]
    rfl

def views (c : Chunk) (id : Nat) : List (RowLocation × RowView) :=
  (List.range c.rows.length).map fun i => (⟨id, c.slot i⟩, c.view i)

theorem located_eq_views (c : Chunk) (id : Nat) :
    c.located id = (c.views id).map fun e => (e.1, e.2.row) := by
  rw [located, views, List.map_map, List.zipIdx_eq_zip_range', List.range_eq_range']
  refine List.ext_getElem (by simp) fun i h₁ h₂ => ?_
  have hi : i < c.rows.length := by simpa using h₂
  simp [view, List.getD_eq_getElem?_getD, hi]

theorem mem_views {e : RowLocation × RowView} :
    e ∈ c.views id ↔ ∃ i, i < c.rows.length ∧ e = (⟨id, c.slot i⟩, c.view i) := by
  simp only [views, List.mem_map, List.mem_range]
  exact exists_congr fun i => and_congr_right fun _ => eq_comm

end Chunk

namespace Table

def views (t : Table) : List (RowLocation × RowView) :=
  t.chunks.flatMap fun e => e.2.views e.1

theorem located_eq_views (t : Table) : t.located = t.views.map fun e => (e.1, e.2.row) := by
  rw [located, views, List.map_flatMap]
  exact List.flatMap_congr fun e _ => e.2.located_eq_views e.1

/-- Chunks in order, each with its slots in order. -/
structure InOrder (t : Table) : Prop where
  sorted : SortedMap.Sorted t.chunks
  placed : ∀ e ∈ t.chunks, e.2.Placed

variable {t : Table}

theorem InOrder.views_sorted (h : t.InOrder) : t.views.Pairwise fun a b => a.1 < b.1 := by
  rw [views, List.pairwise_flatMap]
  refine ⟨fun e he => ?_, h.sorted.imp fun hab a ha b hb => ?_⟩
  · rw [Chunk.views, List.pairwise_map]
    refine List.Pairwise.imp_of_mem (fun {i j} _ hj hij => ?_) List.pairwise_lt_range
    exact RowLocation.lt_iff.mpr (.inr ⟨rfl, (h.placed e he).slot_lt hij (List.mem_range.mp hj)⟩)
  · obtain ⟨i, -, rfl⟩ := Chunk.mem_views.mp ha
    obtain ⟨j, -, rfl⟩ := Chunk.mem_views.mp hb
    exact RowLocation.lt_iff.mpr (.inl hab)

def viewAt (t : Table) (l : RowLocation) : RowLocation × RowView :=
  (l, match SortedMap.find l.chunk t.chunks with
    | some c => c.view (c.position l.slot)
    | none => ⟨[], none⟩)

theorem InOrder.mem_views (h : t.InOrder) {e : RowLocation × RowView} (he : e ∈ t.views) :
    ∃ c, SortedMap.find e.1.chunk t.chunks = some c ∧ c.position e.1.slot < c.rows.length ∧
      c.slot (c.position e.1.slot) = e.1.slot ∧ e = t.viewAt e.1 := by
  obtain ⟨p, hp, he⟩ := List.mem_flatMap.mp he
  obtain ⟨i, hi, rfl⟩ := Chunk.mem_views.mp he
  have hfind := h.sorted.find_of_mem hp
  have hposition := (h.placed p hp).position_slot hi
  refine ⟨p.2, hfind, ?_, ?_, ?_⟩
  · rw [hposition]
    exact hi
  · rw [hposition]
  · simp only [viewAt, hfind, hposition]

end Table

/-! ## Normalised locations -/

section

variable {rows : List RowLocation}

theorem normalize_sorted (rows : List RowLocation) : (normalize rows).Pairwise (· < ·) := by
  have hfold : ∀ (rows : List RowLocation) (m : List (RowLocation × Unit)), SortedMap.Sorted m →
      SortedMap.Sorted (rows.foldl (fun m l => SortedMap.insert l () m) m) := by
    intro rows
    induction rows with
    | nil => exact fun m hm => hm
    | cons l rows ih => exact fun m hm => ih _ hm.insert
  exact List.pairwise_map.mpr (hfold rows [] SortedMap.sorted_nil)

theorem mem_normalize {l : RowLocation} : l ∈ normalize rows ↔ l ∈ rows := by
  have hfold : ∀ (rows : List RowLocation) (m : List (RowLocation × Unit)),
      (SortedMap.find l (rows.foldl (fun m l => SortedMap.insert l () m) m)).isSome ↔
        l ∈ rows ∨ (SortedMap.find l m).isSome := by
    intro rows
    induction rows with
    | nil => simp
    | cons a rows ih =>
      intro m
      rw [List.foldl_cons, ih, SortedMap.find_insert, List.mem_cons]
      by_cases h : l = a <;> simp [h]
  have hmem : ∀ m : List (RowLocation × Unit), l ∈ m.map Prod.fst ↔
    (SortedMap.find l m).isSome := by
    intro m
    rw [Option.isSome_iff_ne_none, ne_eq, SortedMap.find_eq_none_iff]
    simp [eq_comm]
  rw [normalize, hmem, hfold]
  simp

theorem groupRows_spec (rows : List RowLocation) :
    (groupRows rows).flatMap (fun g => g.rows.getD []) = rows ∧
      ∀ g ∈ groupRows rows, ∃ ls, g.rows = some ls ∧ ls ≠ [] ∧ ∀ l ∈ ls, l.chunk = g.chunk := by
  induction rows with
  | nil => simp [groupRows]
  | cons l rest ih =>
    obtain ⟨hflat, hgroups⟩ := ih
    rw [groupRows]
    cases hrest : groupRows rest with
    | nil =>
      rw [hrest] at hflat
      have : rest = [] := by simpa using hflat.symm
      subst this
      simp
    | cons g gs =>
      rw [hrest] at hflat hgroups
      obtain ⟨ls, hls, -, hchunk⟩ := hgroups g List.mem_cons_self
      simp only
      split
      · next heq =>
          refine ⟨by simpa [hls] using hflat, fun g' hg' => ?_⟩
          rcases List.mem_cons.mp hg' with rfl | hg'
          · refine ⟨l :: ls, by simp [hls], by simp, fun m hm => ?_⟩
            rcases List.mem_cons.mp hm with rfl | hm
            · rfl
            · exact (hchunk m hm).trans heq
          · exact hgroups g' (List.mem_cons_of_mem _ hg')
      · refine ⟨by simpa using hflat, fun g' hg' => ?_⟩
        rcases List.mem_cons.mp hg' with rfl | hg'
        · exact ⟨[l], rfl, by simp, by simp⟩
        · exact hgroups g' hg'

end

/-! ## Scans -/

namespace Table.InOrder

variable {t : Table} (h : t.InOrder) {rows ls : List RowLocation}

include h

/-- The locations of a table that are among some rows are those rows,
normalised. -/
theorem normalize_eq (hrows : ∀ l ∈ rows, ∃ e ∈ t.views, e.1 = l) :
    (normalize rows).map t.viewAt = t.views.filter fun e => e.1 ∈ rows := by
  have hlocations : normalize rows = (t.views.filter fun e => e.1 ∈ rows).map Prod.fst := by
    refine List.Pairwise.eq_of_mem_iff (normalize_sorted rows)
      (List.pairwise_map.mpr (h.views_sorted.filter _)) fun l => ?_
    rw [mem_normalize]
    simp only [List.mem_map, List.mem_filter, decide_eq_true_eq]
    constructor
    · intro hl
      obtain ⟨e, he, rfl⟩ := hrows l hl
      exact ⟨e, ⟨he, hl⟩, rfl⟩
    · rintro ⟨e, ⟨-, hl⟩, rfl⟩
      exact hl
  rw [hlocations, List.map_map]
  refine (List.map_congr_left fun e he => ?_).trans (List.map_id _)
  obtain ⟨c, -, -, -, heq⟩ := h.mem_views (List.mem_filter.mp he).1
  exact heq.symm

/-- A group of locations of the table opens, and its positions are theirs. -/
theorem openGroup_eq {g : Group} (hg : g.rows = some ls) (hne : ls ≠ [])
    (hchunk : ∀ l ∈ ls, l.chunk = g.chunk) (hls : ∀ l ∈ ls, ∃ e ∈ t.views, e.1 = l) :
    ∃ c, t.openGroup g = .ok (c, ls.map fun l => c.position l.slot) ∧
      SortedMap.find g.chunk t.chunks = some c ∧
      (ls.map fun l => c.position l.slot).map (fun i => ((⟨g.chunk, c.slot i⟩ : RowLocation),
        c.view i)) = ls.map t.viewAt := by
  have hfound : ∀ l ∈ ls, ∃ c, SortedMap.find g.chunk t.chunks = some c ∧
      c.position l.slot < c.rows.length ∧ c.slot (c.position l.slot) = l.slot := by
    intro l hl
    obtain ⟨e, he, rfl⟩ := hls l hl
    obtain ⟨c, hfind, hlt, hslot, -⟩ := h.mem_views he
    rw [hchunk _ hl] at hfind
    exact ⟨c, hfind, hlt, hslot⟩
  obtain ⟨l₀, hl₀⟩ := List.exists_mem_of_ne_nil ls hne
  obtain ⟨c, hfind, -⟩ := hfound l₀ hl₀
  have hpositions : ∀ l ∈ ls, c.position l.slot < c.rows.length ∧
      c.slot (c.position l.slot) = l.slot := by
    intro l hl
    obtain ⟨c', hfind', hlt⟩ := hfound l hl
    rw [hfind] at hfind'
    cases hfind'
    exact hlt
  refine ⟨c, ?_, hfind, ?_⟩
  · have hall : (ls.any fun l => c.position l.slot == c.rows.length) = false := by
      rw [List.any_eq_false]
      intro l hl
      have := (hpositions l hl).1
      simp only [beq_iff_eq]
      omega
    rw [openGroup, hfind]
    simp only [hg, hall, Bool.false_eq_true, if_false]
  · rw [List.map_map]
    refine List.map_congr_left fun l hl => ?_
    have hslot := (hpositions l hl).2
    simp only [Function.comp, viewAt, hchunk l hl, hfind, hslot]
    rw [← hchunk l hl]

variable {ε : Type} (raise : Error → ε) (test : RowView → Except ε Bool)

theorem scanGroup_all {e : Nat × Chunk} (he : e ∈ t.chunks) :
    scanGroup raise t test ⟨e.1, none⟩ = Fallible.filter (fun v => test v.2) (e.2.views e.1) := by
  simp only [scanGroup, openGroup, h.sorted.find_of_mem he]
  rfl

theorem scanGroups_all :
    scanGroups raise t test (t.groups none) = Fallible.filter (fun v => test v.2) t.views := by
  have hgroups : ∀ chunks : List (Nat × Chunk), (∀ e ∈ chunks, e ∈ t.chunks) →
      scanGroups raise t test (chunks.map fun e => ⟨e.1, none⟩) =
        Fallible.filter (fun v => test v.2) (chunks.flatMap fun e => e.2.views e.1) := by
    intro chunks
    induction chunks with
    | nil => exact fun _ => rfl
    | cons e chunks ih =>
      intro hmem
      rw [List.map_cons, scanGroups, h.scanGroup_all raise test (hmem e List.mem_cons_self),
        ih fun e' he' => hmem e' (List.mem_cons_of_mem _ he'), List.flatMap_cons,
        Fallible.filter_append]
  exact hgroups t.chunks fun _ he => he

/-- An offer of rows of the table is a scan that skips the others. -/
theorem scanGroups_rows (hrows : ∀ l ∈ rows, ∃ e ∈ t.views, e.1 = l) :
    scanGroups raise t test (t.groups (some rows)) =
      Fallible.filter (fun v => test v.2) (t.views.filter fun e => e.1 ∈ rows) := by
  have hgroups : ∀ gs : List Group, (∀ g ∈ gs, ∃ ls, g.rows = some ls ∧ ls ≠ [] ∧
      (∀ l ∈ ls, l.chunk = g.chunk) ∧ ∀ l ∈ ls, ∃ e ∈ t.views, e.1 = l) →
      scanGroups raise t test gs = Fallible.filter (fun v => test v.2)
        ((gs.flatMap fun g => g.rows.getD []).map t.viewAt) := by
    intro gs
    induction gs with
    | nil => exact fun _ => rfl
    | cons g gs ih =>
      intro hgs
      obtain ⟨ls, hg, hne, hchunk, hls⟩ := hgs g List.mem_cons_self
      obtain ⟨c, hopen, -, hviews⟩ := h.openGroup_eq hg hne hchunk hls
      have hone : scanGroup raise t test g =
        Fallible.filter (fun v => test v.2) (ls.map t.viewAt) := by
        rw [scanGroup, hopen, ← hviews]
        rfl
      rw [scanGroups, hone, ih fun g' hg' => hgs g' (List.mem_cons_of_mem _ hg'),
        List.flatMap_cons, hg, Option.getD_some, List.map_append, Fallible.filter_append]
  obtain ⟨hflat, hspec⟩ := groupRows_spec (normalize rows)
  rw [← h.normalize_eq hrows, groups, hgroups, hflat]
  intro g hg
  obtain ⟨ls, hrows', hne, hchunk⟩ := hspec g hg
  refine ⟨ls, hrows', hne, hchunk, fun l hl => hrows l (mem_normalize.mp ?_)⟩
  rw [← hflat]
  exact List.mem_flatMap.mpr ⟨g, hg, by simpa [hrows'] using hl⟩

end Table.InOrder

/-- The rows a scan sees, given what an index offers. -/
def Table.offered (t : Table) : Option (List RowLocation) → List (RowLocation × RowView)
  | none => t.views
  | some rows => t.views.filter fun e => e.1 ∈ rows

theorem Table.mem_offered {e : RowLocation × RowView} :
    e ∈ t.offered selected ↔ e ∈ t.views ∧ ∀ rows ∈ selected, e.1 ∈ rows := by
  cases selected with
  | none => simp [offered]
  | some rows => simp [offered]

theorem Table.InOrder.scanGroups_offered (h : t.InOrder)
    (hrows : ∀ rows ∈ selected, ∀ l ∈ rows, ∃ e ∈ t.views, e.1 = l) {ε : Type}
    (raise : Error → ε) (test : RowView → Except ε Bool) :
    scanGroups raise t test (t.groups selected) =
      Fallible.filter (fun e => test e.2) (t.offered selected) := by
  cases selected with
  | none => exact h.scanGroups_all raise test
  | some rows => exact h.scanGroups_rows raise test (hrows rows rfl)

end CoreSql
