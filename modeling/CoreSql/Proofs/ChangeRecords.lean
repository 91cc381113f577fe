import CoreSql.Storage.Records
import CoreSql.Proofs.Structure

/-!
# What a change record may do to a state

`apply_changes` is the last line of defence of a log that is only protected
by a checksum, so nothing is assumed about the bytes here. Each structural
fact about the state it returns comes from another check:

* names of columns from `read_schema`;
* widths and cells of restored rows from `validate_stored`, and of retained
  rows from the comparison of the schema with the old one together with the
  final width check;
* identities from the final pass over all chunks;
* sequences from the two comparisons with the old table.

One member of the chain is missing. A record of the formats before
`CORECHG5` stores no identities; its rows take theirs from `next_rowid++`,
and nothing asks whether that is still a positive number. `LegacyFits` is
the condition under which it is.
-/

namespace CoreSql

variable {registry : Registry} {w : WireLayout} {l rest : Bytes} {seen : List Bytes}
  {n start k n' nextChunk width : Nat} {columns new : List Column} {row : Row} {r r' : ChunkReading}
  {base : Tables} {name bytes : Bytes} {c : ChangedTable} {changed : List ChangedTable}
  {record : WireLayout × List ChangedTable} {next : State} {old chunks : List (Nat × Chunk)}
  {a b : Column}

/-! ## Columns -/

theorem readColumn_ok {c : Column}
    (h : readColumn registry w seen l = .ok (c, rest)) : c.name ≠ [] ∧ c.name ∉ seen := by
  obtain ⟨name, _, -, h⟩ := Decoder.bind_eq_ok.mp h
  obtain ⟨id, _, -, h⟩ := Decoder.bind_eq_ok.mp h
  obtain ⟨version, _, -, h⟩ := Decoder.bind_eq_ok.mp h
  obtain ⟨parameters, _, -, h⟩ := Decoder.bind_eq_ok.mp h
  obtain ⟨hname, h⟩ := Decoder.check_bind.mp h
  obtain ⟨version', _, -, h⟩ := Decoder.bind_eq_ok.mp h
  obtain ⟨_, -, h⟩ := Decoder.lift_bind.mp h
  obtain ⟨primaryKey, _, -, h⟩ := Decoder.bind_eq_ok.mp h
  obtain ⟨nullable, _, -, h⟩ := Decoder.bind_eq_ok.mp h
  obtain ⟨index, _, -, h⟩ := Decoder.bind_eq_ok.mp h
  obtain ⟨defaultValue, _, -, h⟩ := Decoder.bind_eq_ok.mp h
  cases h
  exact hname

theorem readColumns_ok (h : readColumns registry w n seen l = .ok (columns, rest)) :
    (∀ c ∈ columns, c.name ≠ [] ∧ c.name ∉ seen) ∧ (columns.map Column.name).Nodup := by
  induction n generalizing seen l columns with
  | zero =>
    cases h
    simp
  | succ n ih =>
    obtain ⟨c, _, hc, h⟩ := Decoder.bind_eq_ok.mp h
    obtain ⟨others, _, hothers, h⟩ := Decoder.bind_eq_ok.mp h
    cases h
    have hname := readColumn_ok hc
    obtain ⟨hnames, hnodup⟩ := ih hothers
    have hfresh : ∀ d ∈ others, d.name ≠ c.name := fun d hd heq =>
      (hnames d hd).2 (heq ▸ List.mem_cons_self)
    refine ⟨fun d hd => ?_, ?_⟩
    · rcases List.mem_cons.mp hd with rfl | hd
      · exact hname
      · exact ⟨(hnames d hd).1, fun hmem => (hnames d hd).2 (List.mem_cons_of_mem _ hmem)⟩
    · rw [List.map_cons, List.nodup_cons]
      refine ⟨fun hmem => ?_, hnodup⟩
      obtain ⟨d, hd, heq⟩ := List.mem_map.mp hmem
      exact hfresh d hd heq

theorem readSchema_ok {declarations : Shell}
    (h : readSchema registry w l = .ok (declarations, rest)) :
    (∀ c ∈ declarations.columns, c.name ≠ []) ∧ (declarations.columns.map Column.name).Nodup := by
  obtain ⟨n, _, -, h⟩ := Decoder.bind_eq_ok.mp h
  obtain ⟨-, h⟩ := Decoder.check_bind.mp h
  obtain ⟨columns, _, hcolumns, h⟩ := Decoder.bind_eq_ok.mp h
  obtain ⟨indexDefinitions, _, -, h⟩ := Decoder.bind_eq_ok.mp h
  obtain ⟨constraints, _, -, h⟩ := Decoder.bind_eq_ok.mp h
  obtain ⟨_, -, h⟩ := Decoder.lift_bind.mp h
  cases h
  obtain ⟨hnames, hnodup⟩ := readColumns_ok hcolumns
  exact ⟨fun c hc => (hnames c hc).1, hnodup⟩

/-! ## Rows and chunks -/

theorem readCells_ok {tagged : Bool}
    (h : readCells registry tagged (fun v c => validateStored v c registry) columns l =
      .ok (row, rest)) : RowOk registry columns row := by
  induction columns generalizing l row with
  | nil =>
    cases h
    exact .nil
  | cons c columns ih =>
    obtain ⟨v, _, -, h⟩ := Decoder.bind_eq_ok.mp h
    obtain ⟨⟨⟩, hv, h⟩ := Decoder.lift_bind.mp h
    obtain ⟨others, _, hothers, h⟩ := Decoder.bind_eq_ok.mp h
    cases h
    exact .cons hv (ih hothers)

/-- A chunk after `k` rows, when the sequence of its table started at
`start`. -/
structure ChunkReading.Ok (registry : Registry) (w : WireLayout) (columns : List Column)
    (start k : Nat) (r : ChunkReading) : Prop where
  counted : r.rows.length = k
  valid : ∀ row ∈ r.rows, RowOk registry columns row
  identified : r.rowids.length = r.rows.length
  identities : ∀ i ∈ r.rowids, 0 < i ∧ i < r.nextRowid
  sequence : r.nextRowid = if w.extended then start else start + k

theorem readRowid_ok {identity : Nat × Nat} (h : readRowid w n l = .ok (identity, rest)) :
    identity.2 = if w.extended then n else n + 1 := by
  rw [readRowid] at h
  split at h
  · next hextended =>
      obtain ⟨rowid, _, -, h⟩ := Decoder.bind_eq_ok.mp h
      cases h
      rw [if_pos hextended]
  · next hlegacy =>
      cases h
      rw [if_neg hlegacy]

theorem readChangedRow_ok (hr : r.Ok registry w columns start k)
    (h : readChangedRow registry w columns r l = .ok (r', rest)) :
    r'.Ok registry w columns start (k + 1) := by
  obtain ⟨identity, _, hidentity, h⟩ := Decoder.bind_eq_ok.mp h
  obtain ⟨⟨hpos, hlt⟩, h⟩ := Decoder.check_bind.mp h
  obtain ⟨row, _, hrow, h⟩ := Decoder.bind_eq_ok.mp h
  cases h
  have hnext := readRowid_ok hidentity
  have hsequence := hr.sequence
  have hmono : r.nextRowid ≤ identity.2 := by
    rw [hnext]
    split <;> omega
  refine ⟨?_, ?_, ?_, ?_, ?_⟩
  · rw [List.length_append, hr.counted, List.length_singleton]
  · intro row' hrow'
    rcases List.mem_append.mp hrow' with hrow' | hrow'
    · exact hr.valid row' hrow'
    · rw [List.mem_singleton.mp hrow']
      exact readCells_ok hrow
  · rw [List.length_append, List.length_append, hr.identified]
    rfl
  · intro i hi
    rcases List.mem_append.mp hi with hi | hi
    · have := hr.identities i hi
      exact ⟨this.1, lt_of_lt_of_le this.2 hmono⟩
    · rw [List.mem_singleton.mp hi]
      exact ⟨Nat.pos_of_ne_zero hpos, hlt⟩
  · show identity.2 = _
    rw [hnext, hsequence]
    split <;> omega

theorem ChunkReading.Ok.wellFormed
    (h : r.Ok registry w columns start k) (hpos : k ≠ 0) (hle : k ≤ chunkRows) :
    (Chunk.refresh { rows := r.rows, rowids := r.rowids }).WellFormed registry columns
      r.nextRowid where
  nonempty := Nat.one_le_iff_ne_zero.mpr (h.counted.symm ▸ hpos)
  bounded := h.counted.symm ▸ hle
  valid := h.valid
  identified := h.identified
  identities := h.identities
  placed := .inl rfl
  slots := by simp [Chunk.refresh]
  payload := rfl
  encoded := rfl

theorem Chunk.WellFormed.mono {c : Chunk}
    (h : c.WellFormed registry columns n) (hle : n ≤ n') : c.WellFormed registry columns n' :=
  { h with
    identities := fun r hr =>
      ⟨(h.identities r hr).1, lt_of_lt_of_le (h.identities r hr).2 hle⟩ }

/-! ## Tables -/

/-- A table while its chunks are read: each of them is an old one or as the
new columns want it. -/
structure TableReading.Ok (registry : Registry) (w : WireLayout) (columns : List Column)
    (old : List (Nat × Chunk)) (start nextChunk : Nat) (r : TableReading) : Prop where
  sorted : SortedMap.Sorted r.chunks
  chunks : ∀ e ∈ r.chunks,
    e ∈ old ∨ e.1 < nextChunk ∧ e.2.WellFormed registry columns r.nextRowid
  sequence : r.nextRowid = if w.extended then start else start + r.restored

theorem readChangedChunk_ok {r r' : TableReading} (hr : r.Ok registry w columns old start nextChunk)
    (h : readChangedChunk registry w columns nextChunk r l = .ok (r', rest)) :
    r'.Ok registry w columns old start nextChunk := by
  obtain ⟨id, _, -, h⟩ := Decoder.bind_eq_ok.mp h
  obtain ⟨rows, _, -, h⟩ := Decoder.bind_eq_ok.mp h
  obtain ⟨⟨hid, -, hrows, -⟩, h⟩ := Decoder.check_bind.mp (Decoder.remaining_bind.mp h)
  split at h
  · next hzero =>
      obtain ⟨-, h⟩ := Decoder.check_bind.mp h
      cases h
      exact ⟨hr.sorted.erase, fun e he => hr.chunks e (SortedMap.mem_erase.mp he).1, hr.sequence⟩
  · next hpos =>
      obtain ⟨c, _, hloop, h⟩ := Decoder.bind_eq_ok.mp h
      cases h
      have hc : c.Ok registry w columns r.nextRowid (0 + rows) :=
        Decoder.loop_rounds (fun _ _ _ _ _ => readChangedRow_ok)
          ⟨rfl, by simp, rfl, by simp, by simp⟩ hloop
      rw [Nat.zero_add] at hc
      have hnext := hc.sequence
      have hmono : r.nextRowid ≤ c.nextRowid := by
        rw [hnext]
        split <;> omega
      refine ⟨hr.sorted.insert, fun e he => ?_, ?_⟩
      · rcases SortedMap.mem_insert he with rfl | he
        · exact .inr ⟨hid, hc.wellFormed hpos hrows⟩
        · exact (hr.chunks e he).imp_right fun hold => ⟨hold.1, hold.2.mono hmono⟩
      · show c.nextRowid = if w.extended then start else start + (r.restored + rows)
        rw [hnext, hr.sequence]
        split <;> omega

theorem checkIdentities_ok {seen out : List Nat}
    (hseen : seen.Nodup) (h : chunks.foldlM (checkIdentities width) seen = .ok out) :
    (∀ e ∈ chunks, ∀ row ∈ e.2.rows, row.length = width) ∧
      (seen ++ chunks.flatMap fun e => e.2.rowids).Nodup := by
  induction chunks generalizing seen with
  | nil => simpa using hseen
  | cons e chunks ih =>
    rw [List.foldlM_cons] at h
    obtain ⟨seen', hstep, h⟩ := Fallible.bind_eq_ok.mp h
    rw [checkIdentities] at hstep
    split at hstep
    · cases hstep
    · next hfresh =>
        split at hstep
        · cases hstep
        · next hwidth =>
            cases hstep
            simp only [Bool.not_eq_true', Bool.not_eq_false, decide_eq_true_eq] at hfresh
            have hnodup : (seen ++ e.2.rowids).Nodup :=
              List.nodup_append.mpr ⟨hseen, hfresh.1, fun a ha b hb heq =>
                hfresh.2 b hb (heq ▸ ha)⟩
            obtain ⟨hrows, hall⟩ := ih hnodup h
            refine ⟨fun d hd => ?_, ?_⟩
            · rcases List.mem_cons.mp hd with rfl | hd
              · simpa using hwidth
              · exact hrows d hd
            · rwa [List.flatMap_cons, ← List.append_assoc]

theorem Column.same_stored (h : a.same b = true) : a.type = b.type ∧ a.nullable = b.nullable := by
  simp only [Column.same, Bool.and_eq_true, beq_iff_eq] at h
  exact ⟨h.1.1.1.1.2, h.2⟩

theorem RowOk.of_same {old : List Column} (hlen : old.length = new.length)
    (hsame : ((old.zip new).all fun e => e.1.same e.2) = true) (h : RowOk registry old row) :
    RowOk registry new row := by
  induction h generalizing new with
  | nil =>
    cases new with
    | nil => exact .nil
    | cons => cases hlen
  | @cons v c row old hv _ ih =>
    cases new with
    | nil => cases hlen
    | cons d new =>
      rw [List.zip_cons_cons, List.all_cons, Bool.and_eq_true] at hsame
      obtain ⟨htype, hnullable⟩ := Column.same_stored hsame.1
      refine .cons ?_ (ih (by simpa using hlen) hsame.2)
      rw [validateStored, htype, hnullable] at hv
      rw [validateStored]
      split at hv
      · cases hv
      · next hnull =>
          rw [if_neg hnull]
          exact hv

/-- The table a record starts from, when it is `name` that is changed. -/
def startTable (base : Tables) (name : Bytes) : Table := (SortedMap.find name base).getD {}

section

variable (hbase : base.WellFormed registry)
include hbase

theorem startTable_cases (name : Bytes) :
    (∃ t, SortedMap.find name base = some t ∧ startTable base name = t ∧ t.WellFormed registry) ∨
      SortedMap.find name base = none ∧ startTable base name = {} := by
  rw [startTable]
  cases hfind : SortedMap.find name base with
  | none => exact .inr ⟨rfl, rfl⟩
  | some t =>
    exact .inl ⟨t, rfl, rfl, hbase.tables _ (SortedMap.mem_of_find hfind)⟩

theorem startTable_sorted (name : Bytes) :
    SortedMap.Sorted (startTable base name).chunks ∧ 0 < (startTable base name).nextRowid := by
  rcases startTable_cases hbase name with ⟨t, -, hstart, ht⟩ | ⟨-, hstart⟩
  · rw [hstart]
    exact ⟨ht.sorted, ht.rowSequence.1⟩
  · rw [hstart]
    exact ⟨.nil, Nat.one_pos⟩

theorem retained_wellFormed {e : Nat × Chunk} {u : Unit}
    (hknown : (if (SortedMap.find name base).isSome then
      checkKnownColumns w (startTable base name).columns columns else .ok ()) = .ok u)
    (he : e ∈ (startTable base name).chunks)
    (hwidth : ∀ row ∈ e.2.rows, row.length = columns.length) :
    e.1 < (startTable base name).nextChunk ∧
      e.2.WellFormed registry columns (startTable base name).nextRowid := by
  rcases startTable_cases hbase name with ⟨t, hfind, hstart, ht⟩ | ⟨-, hstart⟩
  · rw [hstart] at he hknown ⊢
    rw [hfind, Option.isSome_some, if_pos rfl, checkKnownColumns] at hknown
    have hold := ht.chunks e he
    refine ⟨ht.numbered e he, { hold with valid := fun row hrow => ?_ }⟩
    have hlen : t.columns.length = columns.length :=
      (hold.valid row hrow).length_eq.symm.trans (hwidth row hrow)
    split at hknown
    · cases hknown
    · next hsame =>
        simp only [not_or, Bool.not_eq_true', Bool.not_eq_false] at hsame
        exact (hold.valid row hrow).of_same hlen hsame.2
  · rw [hstart] at he
    cases he

end

/-- What is known of a table of a record, whatever the record says. -/
structure ChangedTable.Ok (registry : Registry) (w : WireLayout) (base : Tables)
    (c : ChangedTable) : Prop where
  wellFormed : c.table.nextRowid ≤ int64Max → c.table.WellFormed registry
  chunkSequence : (startTable base c.name).nextChunk ≤ c.table.nextChunk
  rowSequence : (startTable base c.name).nextRowid ≤ c.table.nextRowid
  extended : w.extended = true → c.table.nextRowid ≤ int64Max
  legacy : w.extended = false →
    c.table.nextRowid = (startTable base c.name).nextRowid + c.restored

theorem readRowSequence_ok
    (h : Reader.onlyIf w.extended start (readRowSequence start) l = .ok (n, rest)) :
    start ≤ n ∧ (w.extended = true → n ≤ int64Max) ∧ (w.extended = false → n = start) := by
  rw [Reader.onlyIf] at h
  split at h
  · next hextended =>
      obtain ⟨next, _, -, h⟩ := Decoder.bind_eq_ok.mp h
      obtain ⟨⟨hle, hmax⟩, h⟩ := Decoder.check_bind.mp h
      cases h
      exact ⟨hle, fun _ => hmax, fun hlegacy => by simp [hlegacy] at hextended⟩
  · next hlegacy =>
      cases h
      exact ⟨le_refl _, fun hextended => absurd hextended hlegacy, fun _ => rfl⟩

section

variable (hbase : base.WellFormed registry)
include hbase

theorem readChangedTable_ok (h : readChangedTable registry w base seen l = .ok (c, rest)) :
    c.Ok registry w base ∧ c.name ∉ seen := by
  obtain ⟨name, _, -, h⟩ := Decoder.bind_eq_ok.mp h
  obtain ⟨⟨-, hname⟩, h⟩ := Decoder.check_bind.mp h
  obtain ⟨declarations, _, hschema, h⟩ := Decoder.bind_eq_ok.mp h
  obtain ⟨u, hknown, h⟩ := Decoder.lift_bind.mp h
  obtain ⟨nextChunk, _, hword, h⟩ := Decoder.bind_eq_ok.mp h
  obtain ⟨hchunk, h⟩ := Decoder.check_bind.mp h
  obtain ⟨start, _, hstart, h⟩ := Decoder.bind_eq_ok.mp h
  obtain ⟨n, _, -, h⟩ := Decoder.bind_eq_ok.mp h
  obtain ⟨r, _, hloop, h⟩ := Decoder.bind_eq_ok.mp h
  obtain ⟨out, hcheck, h⟩ := Decoder.lift_bind.mp h
  cases h
  obtain ⟨hnamed, hdistinct⟩ := readSchema_ok hschema
  obtain ⟨hrow, hextended, hlegacy⟩ := readRowSequence_ok hstart
  obtain ⟨hwidths, hnodup⟩ := checkIdentities_ok List.nodup_nil hcheck
  obtain ⟨hsorted, hpos⟩ := startTable_sorted hbase name
  have hr : r.Ok registry w declarations.columns (startTable base name).chunks start nextChunk :=
    Decoder.loop_invariant (fun _ _ _ _ => readChangedChunk_ok)
      ⟨hsorted, fun e he => .inl he, by simp⟩ hloop
  have hsequence := hr.sequence
  have hmono : start ≤ r.nextRowid := by
    rw [hsequence]
    split <;> omega
  -- an old chunk passed the width check, a new one was read under the new columns
  have hchunks : ∀ e ∈ r.chunks, e.1 < nextChunk ∧
      e.2.WellFormed registry declarations.columns r.nextRowid := fun e he => by
    rcases hr.chunks e he with hold | hnew
    · obtain ⟨hlt, hwf⟩ := retained_wellFormed hbase hknown hold (hwidths e he)
      exact ⟨lt_of_lt_of_le hlt hchunk, hwf.mono (le_trans hrow hmono)⟩
    · exact hnew
  obtain ⟨-, -, -, -, hlt⟩ := u64_eq_ok hword
  refine ⟨⟨fun hmax => ?_, hchunk, le_trans hrow hmono, fun h => ?_, fun h => ?_⟩, hname⟩
  · exact {
      named := hnamed
      distinct := hdistinct
      sorted := hr.sorted
      numbered := fun e he => (hchunks e he).1
      chunks := fun e he => (hchunks e he).2
      identities := hnodup
      chunkSequence := Nat.le_sub_one_of_lt hlt
      rowSequence := ⟨lt_of_lt_of_le hpos (le_trans hrow hmono), hmax⟩
      counted := rfl
      measured := rfl }
  · show r.nextRowid ≤ int64Max
    rw [hsequence, if_pos h]
    exact hextended h
  · show r.nextRowid = (startTable base name).nextRowid + r.restored
    rw [hsequence, if_neg (by simp [h]), hlegacy h]
    rfl

theorem readChangedTables_ok
    (h : readChangedTables registry w base n seen l = .ok (changed, rest)) :
    (∀ c ∈ changed, c.Ok registry w base ∧ c.name ∉ seen) ∧
      (changed.map ChangedTable.name).Nodup := by
  induction n generalizing seen l changed with
  | zero =>
    cases h
    simp
  | succ n ih =>
    obtain ⟨c, _, hc, h⟩ := Decoder.bind_eq_ok.mp h
    obtain ⟨others, _, hothers, h⟩ := Decoder.bind_eq_ok.mp h
    cases h
    obtain ⟨hall, hnodup⟩ := ih hothers
    refine ⟨fun d hd => ?_, ?_⟩
    · rcases List.mem_cons.mp hd with rfl | hd
      · exact readChangedTable_ok hbase hc
      · exact ⟨(hall d hd).1, fun hmem => (hall d hd).2 (List.mem_cons_of_mem _ hmem)⟩
    · rw [List.map_cons, List.nodup_cons]
      refine ⟨fun hmem => ?_, hnodup⟩
      obtain ⟨d, hd, heq⟩ := List.mem_map.mp hmem
      exact (hall d hd).2 (heq ▸ List.mem_cons_self)

theorem decodeChanges_ok (h : decodeChanges registry base bytes = .ok record) :
    (∀ c ∈ record.2, c.Ok registry record.1 base) ∧ (record.2.map ChangedTable.name).Nodup := by
  obtain ⟨body, -, h⟩ := Fallible.bind_eq_ok.mp h
  obtain ⟨rest, h⟩ := Decoder.run_eq_ok.mp h
  obtain ⟨format, _, -, h⟩ := Decoder.bind_eq_ok.mp h
  obtain ⟨w, -, h⟩ := Decoder.lift_bind.mp h
  obtain ⟨n, _, -, h⟩ := Decoder.bind_eq_ok.mp h
  obtain ⟨changed, _, hchanged, h⟩ := Decoder.bind_eq_ok.mp h
  obtain ⟨_, _, -, h⟩ := Decoder.bind_eq_ok.mp h
  cases h
  obtain ⟨hall, hnodup⟩ := readChangedTables_ok hbase hchanged
  exact ⟨fun c hc => (hall c hc).1, hnodup⟩

end

/-! ## States -/

/-- The tables of a state after some were replaced. -/
def replaced (base : Tables) (changed : List ChangedTable) : Tables :=
  changed.foldl (fun tables c => SortedMap.insert c.name c.table tables) base

theorem sorted_replaced (hbase : SortedMap.Sorted base)
    (changed : List ChangedTable) : SortedMap.Sorted (replaced base changed) := by
  induction changed generalizing base with
  | nil => exact hbase
  | cons c changed ih => exact ih hbase.insert

theorem mem_replaced {e : Bytes × Table}
    (h : e ∈ replaced base changed) : e ∈ base ∨ ∃ c ∈ changed, e = (c.name, c.table) := by
  induction changed generalizing base with
  | nil => exact .inl h
  | cons c changed ih =>
    rcases ih h with h | ⟨d, hd, heq⟩
    · rcases SortedMap.mem_insert h with heq | h
      · exact .inr ⟨c, List.mem_cons_self, heq⟩
      · exact .inl h
    · exact .inr ⟨d, List.mem_cons_of_mem _ hd, heq⟩

theorem find_replaced_of_notMem (h : name ∉ changed.map ChangedTable.name) :
    SortedMap.find name (replaced base changed) = SortedMap.find name base := by
  induction changed generalizing base with
  | nil => rfl
  | cons c changed ih =>
    rw [List.map_cons, List.mem_cons, not_or] at h
    exact (ih h.2).trans (SortedMap.find_insert_of_ne h.1)

theorem find_replaced_of_mem (hnodup : (changed.map ChangedTable.name).Nodup) (hc : c ∈ changed) :
    SortedMap.find c.name (replaced base changed) = some c.table := by
  induction changed generalizing base with
  | nil => cases hc
  | cons d changed ih =>
    rw [List.map_cons, List.nodup_cons] at hnodup
    rcases List.mem_cons.mp hc with rfl | hc
    · exact (find_replaced_of_notMem hnodup.1).trans SortedMap.find_insert_self
    · exact ih hnodup.2 hc

theorem applyChanges_eq_ok {base : State} (h : applyChanges registry base bytes = .ok next) :
    ∃ record, decodeChanges registry base.tables bytes = .ok record ∧
      next.tables = replaced base.tables record.2 ∧
      next.stats = measure { next with stats := base.stats } := by
  obtain ⟨record, hrecord, h⟩ := Fallible.bind_eq_ok.mp h
  obtain ⟨size, -, h⟩ := Fallible.bind_eq_ok.mp h
  cases h
  exact ⟨record, hrecord, rfl, rfl⟩

/-- What a record that names these tables may make of a state. -/
structure State.Follows (registry : Registry) (named : List Bytes) (base next : State) :
    Prop where
  wellFormed : next.tables.WellFormed registry
  sequences : ∀ name t, SortedMap.find name base.tables = some t →
    ∃ t', SortedMap.find name next.tables = some t' ∧
      t.nextChunk ≤ t'.nextChunk ∧ t.nextRowid ≤ t'.nextRowid
  unnamed : ∀ name, name ∉ named →
    SortedMap.find name next.tables = SortedMap.find name base.tables
  totals : next.stats = measure { next with stats := base.stats }

/-- The rows of a record without identities still get positive ones: in every
table they are restored into, the sequence has room for them. -/
def LegacyFits (registry : Registry) (base : State) (payload : Bytes) : Prop :=
  ∀ record, decodeChanges registry base.tables payload = .ok record →
    record.1.extended = false → ∀ c ∈ record.2,
      (startTable base.tables c.name).nextRowid + c.restored ≤ int64Max

theorem follows_of_bounded {base : State} (hbase : base.tables.WellFormed registry)
    (hall : ∀ c ∈ record.2, c.Ok registry record.1 base.tables)
    (hnodup : (record.2.map ChangedTable.name).Nodup)
    (htables : next.tables = replaced base.tables record.2)
    (hstats : next.stats = measure { next with stats := base.stats })
    (hbounded : ∀ c ∈ record.2, c.table.nextRowid ≤ int64Max) :
    base.Follows registry (record.2.map ChangedTable.name) next where
  wellFormed := by
    rw [htables]
    refine ⟨sorted_replaced hbase.sorted _, fun e he => ?_⟩
    rcases mem_replaced he with he | ⟨c, hc, rfl⟩
    · exact hbase.tables e he
    · exact (hall c hc).wellFormed (hbounded c hc)
  sequences := by
    intro name t hfind
    rw [htables]
    by_cases hname : name ∈ record.2.map ChangedTable.name
    · obtain ⟨c, hc, rfl⟩ := List.mem_map.mp hname
      have hstart : startTable base.tables c.name = t := by rw [startTable, hfind, Option.getD_some]
      refine ⟨c.table, find_replaced_of_mem hnodup hc, ?_, ?_⟩
      · exact hstart ▸ (hall c hc).chunkSequence
      · exact hstart ▸ (hall c hc).rowSequence
    · exact ⟨t, (find_replaced_of_notMem hname).trans hfind, le_refl _, le_refl _⟩
  unnamed := fun name hname => by
    rw [htables]
    exact find_replaced_of_notMem hname
  totals := hstats

/-- Whatever the bytes are, a record that is accepted leaves a well-formed
state that continues the old one, exactly when a record without identities
leaves the row sequences in range. -/
theorem accepted_record_follows_iff {base : State} (hbase : base.tables.WellFormed registry)
    (payload : Bytes) :
    (∀ next, applyChanges registry base payload = .ok next →
      ∃ record, decodeChanges registry base.tables payload = .ok record ∧
        base.Follows registry (record.2.map ChangedTable.name) next) ↔
    (∀ next, applyChanges registry base payload = .ok next →
      LegacyFits registry base payload) := by
  constructor
  · intro h next hnext record hrecord hlegacy c hc
    obtain ⟨record', hrecord', hfollows⟩ := h next hnext
    obtain ⟨_, happlied, htables, -⟩ := applyChanges_eq_ok hnext
    rw [hrecord] at hrecord' happlied
    cases hrecord'
    cases happlied
    obtain ⟨hall, hnodup⟩ := decodeChanges_ok hbase hrecord
    have hfind : SortedMap.find c.name next.tables = some c.table := by
      rw [htables]
      exact find_replaced_of_mem hnodup hc
    have hwf := hfollows.wellFormed.tables _ (SortedMap.mem_of_find hfind)
    rw [← (hall c hc).legacy hlegacy]
    exact hwf.rowSequence.2
  · intro h next hnext
    obtain ⟨record, hrecord, htables, hstats⟩ := applyChanges_eq_ok hnext
    obtain ⟨hall, hnodup⟩ := decodeChanges_ok hbase hrecord
    refine ⟨record, hrecord, follows_of_bounded hbase hall hnodup htables hstats fun c hc => ?_⟩
    cases hextended : record.1.extended with
    | true => exact (hall c hc).extended hextended
    | false =>
        rw [(hall c hc).legacy hextended]
        exact h next hnext record hrecord hextended c hc

/-! A table with one integer column and nothing in it, and a record of the
oldest format that restores one row into it. -/

/-- An empty table whose next row will be `n`. -/
def emptyAt (n : Nat) : State :=
  { tables :=
    [(lit "t", { columns := [{ name := lit "a", type := integerType }], nextRowid := n })] }

/-- One chunk with one row, as `CORECHG2` wrote it. -/
def oldRecord : Bytes :=
  sealed (piecesBytes (.field (lit "CORECHG2") :: .number 1 :: .field (lit "t") :: .number 1 ::
    .field (lit "a") :: typePieces integerType ++
      [.number 1, .number 1, .number 0, .number 1, .number 7]))

theorem emptyAt_wellFormed (hpos : 0 < n) (hle : n ≤ int64Max) :
    (emptyAt n).tables.WellFormed scalarRegistry := by
  refine ⟨List.pairwise_singleton _ _, fun e he => ?_⟩
  rw [List.mem_singleton.mp he]
  refine ⟨?_, by simp, .nil, by simp, by simp, .nil, Nat.zero_le _, ⟨hpos, hle⟩, rfl, rfl⟩
  intro c hc
  rw [List.mem_singleton.mp hc]
  decide +kernel

def sequenceAfter (n : Nat) : Except Error (Option Nat) :=
  (fun s : State => (SortedMap.find (lit "t") s.tables).map fun t => t.nextRowid) <$>
    applyChanges scalarRegistry (emptyAt n) oldRecord

theorem oldRecord_fits : LegacyFits scalarRegistry (emptyAt 5) oldRecord := by
  intro record hrecord _ c hc
  have hroom : (fun r : WireLayout × List ChangedTable => r.2.all fun c =>
      decide ((startTable (emptyAt 5).tables c.name).nextRowid + c.restored ≤ int64Max)) <$>
        decodeChanges scalarRegistry (emptyAt 5).tables oldRecord = .ok true := by
    decide +kernel
  rw [hrecord] at hroom
  have hall : (record.2.all fun c =>
      decide ((startTable (emptyAt 5).tables c.name).nextRowid + c.restored ≤ int64Max)) = true :=
    Except.ok.inj hroom
  simpa using List.all_eq_true.mp hall c hc

/-- With room in the sequence the old record is restored. -/
theorem accepted_record_follows_room :
    ∃ next, applyChanges scalarRegistry (emptyAt 5) oldRecord = .ok next ∧
      next.tables.WellFormed scalarRegistry := by
  have hbase : (emptyAt 5).tables.WellFormed scalarRegistry :=
    emptyAt_wellFormed (by decide) (by decide)
  have haccepted : sequenceAfter 5 = .ok (some 6) := by decide +kernel
  obtain ⟨next, hnext, -⟩ := Fallible.map_eq_ok.mp haccepted
  obtain ⟨record, -, hfollows⟩ :=
    (accepted_record_follows_iff hbase oldRecord).mpr (fun _ _ => oldRecord_fits) next hnext
  exact ⟨next, hnext, hfollows.wellFormed⟩

/-- At the end of the sequence the same record is accepted too. Its row is
given the largest identity there is, and the sequence that should be above
it, read as the signed number it is, starts again at the least. -/
theorem accepted_record_wraps :
    (emptyAt int64Max).tables.WellFormed scalarRegistry ∧
      ∃ next t, applyChanges scalarRegistry (emptyAt int64Max) oldRecord = .ok next ∧
        SortedMap.find (lit "t") next.tables = some t ∧
        ofWord t.nextRowid = -2 ^ 63 ∧ ¬next.tables.WellFormed scalarRegistry := by
  refine ⟨emptyAt_wellFormed (by decide) (le_refl _), ?_⟩
  have haccepted : sequenceAfter int64Max = .ok (some (2 ^ 63)) := by decide +kernel
  obtain ⟨next, hnext, hsequence⟩ := Fallible.map_eq_ok.mp haccepted
  obtain ⟨t, hfind, ht⟩ := Option.map_eq_some_iff.mp hsequence
  refine ⟨next, t, hnext, hfind, ?_, fun hwf => ?_⟩
  · rw [ht]
    decide
  · have := (hwf.tables _ (SortedMap.mem_of_find hfind)).rowSequence.2
    rw [ht] at this
    exact absurd this (by decide)

end CoreSql
