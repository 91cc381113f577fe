import CoreSql.Proofs.Scans

/-!
# Well-formed tables

What a stored table looks like between statements, whatever its indexes and
constraints are: chunks in order with between 1 and 128 rows each, every row
as its columns want it, identities issued once and below the next one, and
the sums the table carries equal to what they are sums of.
-/

namespace CoreSql

/-- A chunk as a table with these columns stores it. -/
structure Chunk.WellFormed (registry : Registry) (columns : List Column) (nextRowid : Nat)
    (c : Chunk) : Prop where
  nonempty : 1 ≤ c.rows.length
  bounded : c.rows.length ≤ chunkRows
  valid : ∀ row ∈ c.rows, RowOk registry columns row
  identified : c.rowids.length = c.rows.length
  identities : ∀ r ∈ c.rowids, 0 < r ∧ r < nextRowid
  placed : c.Placed
  slots : ∀ s ∈ c.slots, s ≤ uint32Max
  payload : c.payloadBytes = c.refresh.payloadBytes
  encoded : c.encodedBytes = c.refresh.encodedBytes

structure Table.WellFormed (registry : Registry) (t : Table) : Prop where
  named : ∀ c ∈ t.columns, c.name ≠ []
  distinct : (t.columns.map Column.name).Nodup
  sorted : SortedMap.Sorted t.chunks
  numbered : ∀ e ∈ t.chunks, e.1 < t.nextChunk
  chunks : ∀ e ∈ t.chunks, e.2.WellFormed registry t.columns t.nextRowid
  identities : t.rowids.Nodup
  chunkSequence : t.nextChunk ≤ uint64Max
  rowSequence : 0 < t.nextRowid ∧ t.nextRowid ≤ int64Max
  counted : t.rowCount = t.refresh.rowCount
  measured : t.payloadBytes = t.refresh.payloadBytes

/-- Tables in the order of their names, all well formed. -/
structure Tables.WellFormed (registry : Registry) (tables : Tables) : Prop where
  sorted : SortedMap.Sorted tables
  tables : ∀ e ∈ tables, e.2.WellFormed registry

namespace Table.WellFormed

variable {registry : Registry} {t t' : Table} {e : RowLocation × Row} {n i : Nat}

theorem inOrder (h : t.WellFormed registry) : t.InOrder where
  sorted := h.sorted
  placed e he := (h.chunks e he).placed

theorem congr (h : t.WellFormed registry) (hshell : t'.toShell = t.toShell)
    (hchunks : t'.chunks = t.chunks) : t'.WellFormed registry := by
  obtain ⟨shell, chunks, primary, indexes, ordered⟩ := t
  obtain ⟨shell', chunks', primary', indexes', ordered'⟩ := t'
  cases hshell
  cases hchunks
  exact ⟨h.named, h.distinct, h.sorted, h.numbered, h.chunks, h.identities, h.chunkSequence,
    h.rowSequence, h.counted, h.measured⟩

theorem mem_located : e ∈ t.located ↔ ∃ p ∈ t.chunks, ∃ i, i < p.2.rows.length ∧
      e = (⟨p.1, p.2.slot i⟩, p.2.rows.getD i []) := by
  rw [t.located_eq_views, Table.views]
  simp only [List.mem_map, List.mem_flatMap, Chunk.mem_views]
  constructor
  · rintro ⟨v, ⟨p, hp, i, hi, rfl⟩, rfl⟩
    exact ⟨p, hp, i, hi, rfl⟩
  · rintro ⟨p, hp, i, hi, rfl⟩
    exact ⟨_, ⟨p, hp, i, hi, rfl⟩, rfl⟩

theorem locations_nodup (h : t.WellFormed registry) : (t.located.map Prod.fst).Nodup := by
  rw [t.located_eq_views, List.map_map]
  exact (List.pairwise_map.mpr h.inOrder.views_sorted).imp ne_of_lt

theorem length_located (t : Table) : t.located.length = t.refresh.rowCount := by
  rw [Table.located, List.length_flatMap]
  simp [Chunk.located, Table.refresh]

theorem slot_le {columns : List Column} {c : Chunk}
    (h : c.WellFormed registry columns n) (hi : i < c.rows.length) : c.slot i ≤ uint32Max := by
  rw [Chunk.slot]
  split
  · have := h.bounded
    simp only [chunkRows, uint32Max] at this ⊢
    omega
  · next hne =>
      rcases h.placed with hnil | ⟨hlen, -⟩
      · simp [hnil] at hne
      · rw [List.getD_eq_getElem?_getD, List.getElem?_eq_getElem (hlen.symm ▸ hi)]
        exact h.slots _ (List.getElem_mem _)

theorem location_fits (h : t.WellFormed registry) (he : e ∈ t.located) :
    e.1.chunk < 2 ^ 64 ∧ e.1.slot ≤ uint32Max := by
  obtain ⟨p, hp, i, hi, rfl⟩ := mem_located.mp he
  have hchunk := h.numbered p hp
  have hnext := h.chunkSequence
  refine ⟨show p.1 < 2 ^ 64 from ?_, slot_le (h.chunks p hp) hi⟩
  simp only [uint64Max] at hnext
  omega

end Table.WellFormed

end CoreSql
