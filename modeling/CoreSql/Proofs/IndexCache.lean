import CoreSql.Proofs.Images

/-!
# The index cache changes no answer

An image that passes the checks of `load_cache` has as many records as the
table has rows, its keys strictly increase, and it finds every stored row at
that row's own location. No two rows share a location, so the rows give as
many different records of the image as there are records: the image consists
of the table's keys and nothing else. It is what `build` would have made, and
in particular no key occurs twice.

So a rebuild that uses images from the file does, table by table, what a
rebuild from the rows does, error for error.
-/

namespace CoreSql

variable {registry : Registry} {tables made : Tables} {t : Table} {x : Image}
  {images images' : Images} {last : Option Int} {name l rest : Bytes} {r r' : Rebuilding}
  {e : Bytes × Table} {t' : Table} {n column count left fingerprint : Nat}

/-- The image is of the primary key of a table: its bytes are the records
that building it from the rows gives. -/
def Image.Reflects (x : Image) (t : Table) : Prop :=
  ∃ records, x.Holds records ∧
    PagedIndex.build (t.entries t.primaryColumn) = .ok { base := records }

theorem Image.Reflects.build (h : x.Reflects t) :
    PagedIndex.build (t.entries t.primaryColumn) = .ok x.index := by
  obtain ⟨records, hholds, hbuild⟩ := h
  rw [hbuild, hholds.index]

/-! ## Accepted images -/

theorem checkCachedEntries_ok (h : (List.range n).foldlM (checkCachedEntry t x) none = .ok last) :
    ∃ records : List (Int × RowLocation), records.length = n ∧
      (∀ i (h : i < records.length), x.get i = .ok records[i]) ∧ SortedMap.Sorted records ∧
      ∀ e ∈ records, ∃ key ∈ last, e.1 ≤ key := by
  induction n generalizing last with
  | zero => exact ⟨[], rfl, by simp, SortedMap.sorted_nil, by simp⟩
  | succ n ih =>
    rw [List.range_succ, List.foldlM_append] at h
    obtain ⟨previous, hprevious, h⟩ := Fallible.bind_eq_ok.mp h
    obtain ⟨records, hlen, hget, hsorted, hbound⟩ := ih hprevious
    rw [List.foldlM_cons] at h
    obtain ⟨key, hone, h⟩ := Fallible.bind_eq_ok.mp h
    cases h
    obtain ⟨e, he, hone⟩ := Fallible.bind_eq_ok.mp hone
    split at hone
    · cases hone
    · next hpass =>
        cases hone
        simp only [Bool.or_eq_true, not_or] at hpass
        have hlt : ∀ e' ∈ records, e'.1 < e.1 := by
          intro e' he'
          obtain ⟨key, hkey, hle⟩ := hbound e' he'
          have : key < e.1 := by
            rw [Option.mem_def] at hkey
            simpa [hkey] using hpass.1
          omega
        refine ⟨records ++ [e], by simp [hlen], fun i hi => ?_, ?_, fun e' he' => ?_⟩
        · rcases Nat.lt_or_ge i records.length with hi' | hi'
          · rw [List.getElem_append_left hi']
            exact hget i hi'
          · have : i = n := by
              rw [List.length_append, List.length_singleton] at hi
              omega
            subst this
            rw [List.getElem_append_right hi']
            simpa [hlen] using he
        · exact List.pairwise_append.mpr
            ⟨hsorted, List.pairwise_singleton _ _, fun a ha b hb => by
              rw [List.mem_singleton.mp hb]
              exact hlt a ha⟩
        · rcases List.mem_append.mp he' with he' | he'
          · exact ⟨e.1, rfl, le_of_lt (hlt e' he')⟩
          · exact ⟨e.1, rfl, by rw [List.mem_singleton.mp he']⟩

/-- The counting argument: as many records as rows, and every row among them. -/
theorem reflects_of_checked (ht : t.WellFormed registry) (hcount : x.count = t.rowCount)
    (hentries : (List.range x.count).foldlM (checkCachedEntry t x) none = .ok last)
    (hrows : (t.entries t.primaryColumn).forM (checkCachedRow x) = .ok ()) : x.Reflects t := by
  obtain ⟨records, hlen, hget, hsorted, -⟩ := checkCachedEntries_ok hentries
  have hholds : x.Holds records := ⟨hlen.symm, hget⟩
  refine ⟨records, hholds, PagedIndex.build_eq_ok_iff.mpr ⟨hsorted, ?_, rfl⟩⟩
  have hsubset : keysOf (t.entries t.primaryColumn) ⊆ records := by
    intro e he
    obtain ⟨entry, hentry, rfl⟩ := List.mem_map.mp he
    obtain ⟨found, hfound, hcheck⟩ := Fallible.bind_eq_ok.mp
      (Fallible.forM_eq_ok.mp hrows entry hentry)
    rw [hholds.lookup hsorted] at hfound
    cases hfound
    split at hcheck
    · next heq => exact SortedMap.mem_of_find heq
    · cases hcheck
  have hnodup : (keysOf (t.entries t.primaryColumn)).Nodup := by
    have hlocations : (keysOf (t.entries t.primaryColumn)).map Prod.snd =
        t.located.map Prod.fst := by
      simp [keysOf, Table.entries, Function.comp_def]
    exact List.Nodup.of_map Prod.snd (hlocations ▸ ht.locations_nodup)
  have hsize : records.length = (keysOf (t.entries t.primaryColumn)).length := by
    rw [hlen, hcount, ht.counted, ← Table.WellFormed.length_located]
    simp [keysOf, Table.entries]
  exact ((List.subperm_of_subset hnodup hsubset).perm_of_length_le hsize.le).symm

/-- Every image so far is of a table of the state. -/
def Images.Reflect (images : Images) (tables : Tables) : Prop :=
  ∀ name x, SortedMap.find name images = some x →
    ∃ t, SortedMap.find name tables = some t ∧ x.Reflects t

theorem cachedTable_ok (h : cachedTable registry tables name column count left = .ok t) :
    SortedMap.find name tables = some t ∧ t.primaryColumn = column ∧ t.rowCount = count := by
  rw [cachedTable] at h
  split at h
  · cases h
  · next t' hfind =>
      split at h
      · cases h
      · next hpass =>
          cases h
          simp only [Bool.or_eq_true, not_or, bne_iff_ne, ne_eq, not_not] at hpass
          exact ⟨hfind, hpass.1.1.2, hpass.1.2⟩

theorem readCachedImage_reflect (htables : ∀ e ∈ tables, e.2.WellFormed registry)
    (himages : images.Reflect tables)
    (h : readCachedImage registry tables images l = .ok (images', rest)) :
    images'.Reflect tables := by
  obtain ⟨length, l₁, -, h⟩ := Decoder.bind_eq_ok.mp h
  obtain ⟨left, l₂, -, h⟩ := Decoder.bind_eq_ok.mp h
  obtain ⟨-, l₃, -, h⟩ := Decoder.bind_eq_ok.mp h
  obtain ⟨name, l₄, -, h⟩ := Decoder.bind_eq_ok.mp h
  obtain ⟨column, l₅, -, h⟩ := Decoder.bind_eq_ok.mp h
  obtain ⟨count, l₆, -, h⟩ := Decoder.bind_eq_ok.mp h
  obtain ⟨left', l₇, -, h⟩ := Decoder.bind_eq_ok.mp h
  obtain ⟨t, l₈, htable, h⟩ := Decoder.bind_eq_ok.mp h
  obtain ⟨bytes, l₉, -, h⟩ := Decoder.bind_eq_ok.mp h
  obtain ⟨last, l₁₀, hentries, h⟩ := Decoder.bind_eq_ok.mp h
  obtain ⟨u, l₁₁, hrows, h⟩ := Decoder.bind_eq_ok.mp h
  obtain ⟨-, l₁₂, -, h⟩ := Decoder.bind_eq_ok.mp h
  cases h
  obtain ⟨hfind, rfl, rfl⟩ := cachedTable_ok (Decoder.lift_eq_ok.mp htable).1
  have hreflects : Image.Reflects ⟨bytes, t.rowCount⟩ t :=
    reflects_of_checked (htables _ (SortedMap.mem_of_find hfind)) rfl
      (Decoder.lift_eq_ok.mp hentries).1 (Decoder.lift_eq_ok.mp hrows).1
  intro name' x' hx'
  rw [SortedMap.find_insert] at hx'
  split at hx'
  · next heq =>
      cases hx'
      exact ⟨t, heq ▸ hfind, hreflects⟩
  · exact himages name' x' hx'

/-- Whatever the file holds, the images that come out of it are right. -/
theorem loadCache_reflect (htables : ∀ e ∈ tables, e.2.WellFormed registry)
    {file : Except Error Bytes} (h : loadCache registry tables fingerprint file = .ok images) :
    images.Reflect tables := by
  obtain ⟨bytes, -, h⟩ := Fallible.bind_eq_ok.mp h
  simp only at h
  split at h
  · cases h
  · obtain ⟨stored, -, h⟩ := Fallible.bind_eq_ok.mp h
    split at h
    · cases h
    · obtain ⟨rest, h⟩ := Decoder.run_eq_ok.mp h
      obtain ⟨magic, l₁, -, h⟩ := Decoder.bind_eq_ok.mp h
      obtain ⟨-, l₂, -, h⟩ := Decoder.bind_eq_ok.mp h
      obtain ⟨recorded, l₃, -, h⟩ := Decoder.bind_eq_ok.mp h
      obtain ⟨-, l₄, -, h⟩ := Decoder.bind_eq_ok.mp h
      obtain ⟨count, l₅, -, h⟩ := Decoder.bind_eq_ok.mp h
      obtain ⟨-, l₆, -, h⟩ := Decoder.bind_eq_ok.mp h
      obtain ⟨images', l₇, hloop, h⟩ := Decoder.bind_eq_ok.mp h
      obtain ⟨-, l₈, -, h⟩ := Decoder.bind_eq_ok.mp h
      cases h
      refine Decoder.loop_invariant (P := fun images => Images.Reflect images tables)
        (fun a b l rest ha hone => readCachedImage_reflect htables ha hone) ?_ hloop
      intro name x hx
      cases hx

/-! ## Rebuilding -/

/-- What a rebuild makes of one table when it has only its rows. -/
def rebuiltTable (registry : Registry) (t : Table) : Except Error Table :=
  if t.eligible registry then do
    let index ← PagedIndex.build (t.entries t.primaryColumn)
    enterRows true { t with primary := some ⟨t.primaryColumn, .paged index⟩ }
  else enterRows false t

def rebuiltTables (registry : Registry) (tables : Tables) : Except Error Tables :=
  tables.mapM fun (e : Bytes × Table) => do return (e.1, ← rebuiltTable registry e.2)

theorem keys_fit (ht : t.WellFormed registry) (column : Nat) :
    ∀ e ∈ keysOf (t.entries column), RecordFits e := by
  intro e he
  obtain ⟨entry, hentry, rfl⟩ := List.mem_map.mp he
  obtain ⟨row, hrow, rfl⟩ := List.mem_map.mp hentry
  obtain ⟨hlo, hhi⟩ := payload_bounds (row.2.cell column)
  obtain ⟨hchunk, hslot⟩ := ht.location_fits hrow
  exact ⟨hlo, Int.lt_of_le_sub_one hhi, hchunk, hslot⟩

/-- Either way the image is of the table, or the table has no image. -/
theorem imageFor_cases (ht : t.WellFormed registry)
    (himage : ∀ x, SortedMap.find name images = some x → x.Reflects t) :
    (∃ x, imageFor images name t = .ok x ∧ x.Reflects t) ∨ ∃ e, imageFor images name t = .error e ∧
        PagedIndex.build (t.entries t.primaryColumn) = .error e := by
  rw [imageFor]
  cases hfind : SortedMap.find name images with
  | some x => exact .inl ⟨x, rfl, himage x hfind⟩
  | none =>
    simp only
    rw [buildImage_eq]
    cases hbuild : PagedIndex.build (t.entries t.primaryColumn) with
    | error e => exact .inr ⟨e, rfl, rfl⟩
    | ok index =>
      obtain ⟨-, hperm, hchanges⟩ := PagedIndex.build_eq_ok_iff.mp hbuild
      refine .inl ⟨imageOf index.base, rfl, index.base, imageOf_holds fun e he => ?_, ?_⟩
      · exact keys_fit ht _ e (hperm.mem_iff.mp he)
      · rw [hbuild]
        obtain ⟨base, changes⟩ := index
        cases hchanges
        rfl

theorem rebuildPagedTable_tables (ht : e.2.WellFormed registry)
    (himage : ∀ x, SortedMap.find e.1 r.images = some x → x.Reflects e.2) :
    (rebuildPagedTable registry r e).map Rebuilding.tables =
      (rebuiltTable registry e.2).map fun t => r.tables ++ [(e.1, t)] := by
  rw [rebuildPagedTable, rebuiltTable]
  split
  · rcases imageFor_cases ht himage with ⟨x, hx, hreflects⟩ | ⟨err, hx, hbuild⟩
    · rw [hx, hreflects.build]
      show (enterRows true { e.2 with primary := some ⟨_, .paged x.index⟩ } >>= _).map _ =
        (enterRows true { e.2 with primary := some ⟨_, .paged x.index⟩ }).map _
      cases enterRows true { e.2 with primary := some ⟨e.2.primaryColumn, .paged x.index⟩ } <;> rfl
    · rw [hx, hbuild]
      rfl
  · cases enterRows false e.2 <;> rfl

theorem rebuildPagedTable_images (ht : e.2.WellFormed registry)
    (himage : ∀ x, SortedMap.find e.1 r.images = some x → x.Reflects e.2)
    (h : rebuildPagedTable registry r e = .ok r') : (e.2.eligible registry = true →
      ∃ x, SortedMap.find e.1 r'.images = some x ∧ x.Reflects e.2) ∧
      ∀ name, name ≠ e.1 → SortedMap.find name r'.images = SortedMap.find name r.images := by
  rw [rebuildPagedTable] at h
  split at h
  · rcases imageFor_cases ht himage with ⟨x, hx, hreflects⟩ | ⟨err, hx, -⟩
    · rw [hx] at h
      obtain ⟨x', hx', h⟩ := Fallible.bind_eq_ok.mp h
      cases hx'
      obtain ⟨t, -, h⟩ := Fallible.bind_eq_ok.mp h
      cases h
      exact ⟨fun _ => ⟨x, SortedMap.find_insert_self, hreflects⟩,
        fun name hname => SortedMap.find_insert_of_ne hname⟩
    · rw [hx] at h
      cases h
  · next hnot =>
      obtain ⟨t, -, h⟩ := Fallible.bind_eq_ok.mp h
      cases h
      exact ⟨fun heligible => absurd heligible hnot, fun _ _ => rfl⟩

/-- What the loop makes of the tables depends on their rows only. -/
theorem rebuildPagedTables_tables (hsorted : SortedMap.Sorted tables)
    (htables : ∀ e ∈ tables, e.2.WellFormed registry)
    (himages : ∀ e ∈ tables, ∀ x, SortedMap.find e.1 r.images = some x → x.Reflects e.2) :
    (tables.foldlM (rebuildPagedTable registry) r).map Rebuilding.tables =
      (rebuiltTables registry tables).map (r.tables ++ ·) := by
  induction tables generalizing r with
  | nil => simp [rebuiltTables, Except.map, pure, Except.pure]
  | cons e rest ih =>
    have ht := htables e List.mem_cons_self
    have hone := rebuildPagedTable_tables ht (himages e List.mem_cons_self)
    rw [List.foldlM_cons, rebuiltTables, List.mapM_cons]
    cases hstep : rebuildPagedTable registry r e with
    | error err =>
      cases htable : rebuiltTable registry e.2 with
      | error err' =>
        rw [hstep, htable] at hone
        cases hone
        rfl
      | ok t =>
        rw [hstep, htable] at hone
        cases hone
    | ok r' =>
      cases htable : rebuiltTable registry e.2 with
      | error err' =>
        rw [hstep, htable] at hone
        cases hone
      | ok t =>
        rw [hstep, htable] at hone
        have hr' : r'.tables = r.tables ++ [(e.1, t)] := Except.ok.inj hone
        obtain ⟨-, hothers⟩ := rebuildPagedTable_images ht (himages e List.mem_cons_self) hstep
        have hrest := ih (r := r') hsorted.tail
          (fun e' he' => htables e' (List.mem_cons_of_mem _ he')) fun e' he' x hx => by
            rw [hothers _ (ne_of_gt (hsorted.head_lt he'))] at hx
            exact himages e' (List.mem_cons_of_mem _ he') x hx
        show (rest.foldlM (rebuildPagedTable registry) r').map _ =
          Except.map _ (rebuiltTables registry rest >>= fun others => .ok ((e.1, t) :: others))
        rw [hrest, hr']
        cases rebuiltTables registry rest with
        | error err => rfl
        | ok others =>
          show Except.ok (r.tables ++ [(e.1, t)] ++ others) = _
          rw [List.append_assoc]
          rfl

theorem rebuildPagedTables_images (hsorted : SortedMap.Sorted tables)
    (htables : ∀ e ∈ tables, e.2.WellFormed registry)
    (himages : ∀ e ∈ tables, ∀ x, SortedMap.find e.1 r.images = some x → x.Reflects e.2)
    (h : tables.foldlM (rebuildPagedTable registry) r = .ok r') :
    (∀ e ∈ tables, e.2.eligible registry = true →
      ∃ x, SortedMap.find e.1 r'.images = some x ∧ x.Reflects e.2) ∧
      ∀ name, name ∉ tables.map Prod.fst →
        SortedMap.find name r'.images = SortedMap.find name r.images := by
  induction tables generalizing r with
  | nil =>
    cases h
    simp
  | cons e rest ih =>
    rw [List.foldlM_cons] at h
    obtain ⟨r₁, hone, h⟩ := Fallible.bind_eq_ok.mp h
    obtain ⟨hself, hothers⟩ := rebuildPagedTable_images (htables e List.mem_cons_self)
      (himages e List.mem_cons_self) hone
    obtain ⟨hrest, hkept⟩ := ih hsorted.tail
      (fun e' he' => htables e' (List.mem_cons_of_mem _ he')) (fun e' he' x hx => by
        rw [hothers _ (ne_of_gt (hsorted.head_lt he'))] at hx
        exact himages e' (List.mem_cons_of_mem _ he') x hx) h
    have hfresh : e.1 ∉ rest.map Prod.fst := by
      intro hmem
      obtain ⟨e', he', heq⟩ := List.mem_map.mp hmem
      exact absurd heq (ne_of_gt (hsorted.head_lt he'))
    refine ⟨fun e' he' heligible => ?_, fun name hname => ?_⟩
    · rcases List.mem_cons.mp he' with rfl | he'
      · rw [hkept _ hfresh]
        exact hself heligible
      · exact hrest e' he' heligible
    · simp only [List.map_cons, List.mem_cons, not_or] at hname
      rw [hkept name hname.2, hothers name hname.1]

theorem makeAllIndexes_wellFormed (h : Tables.WellFormed registry tables)
    (hmade : makeAllIndexes registry tables = .ok made) : Tables.WellFormed registry made := by
  have hrel := Fallible.mapM_eq_ok.mp hmade
  have hone : ∀ {e e' : Bytes × Table},
      (do return (e.1, ← makeIndexes e.2 registry) : Except Error (Bytes × Table)) = .ok e' →
        e'.1 = e.1 ∧ e'.2.toShell = e.2.toShell ∧ e'.2.chunks = e.2.chunks := by
    intro e e' he
    obtain ⟨t, ht, he⟩ := Fallible.bind_eq_ok.mp he
    cases he
    obtain ⟨hshell, hchunks, -⟩ := makeIndexes_ok ht
    exact ⟨rfl, hshell, hchunks⟩
  refine ⟨?_, fun e' he' => ?_⟩
  · have hnames : made.map Prod.fst = tables.map Prod.fst := by
      clear h hmade
      induction hrel with
      | nil => rfl
      | cons he _ ih => rw [List.map_cons, List.map_cons, (hone he).1, ih]
    have hsorted := List.pairwise_map.mpr h.sorted
    rw [← hnames] at hsorted
    exact List.pairwise_map.mp hsorted
  · obtain ⟨e, he, hrel⟩ := Lists.forall₂_mem_right hrel he'
    obtain ⟨-, hshell, hchunks⟩ := hone hrel
    exact (h.tables e he).congr hshell hchunks

theorem enterRows_ok {native : Bool} (h : enterRows native t = .ok t') :
    t'.toShell = t.toShell ∧ t'.chunks = t.chunks ∧
      t'.primary.map IndexBinding.column = t.primary.map IndexBinding.column ∧
      (native = true → t'.primary = t.primary) := by
  rw [enterRows] at h
  split at h
  · cases h
    exact ⟨rfl, rfl, rfl, fun _ => rfl⟩
  · refine Fallible.foldlM_invariant (P := fun t' : Table =>
      t'.toShell = t.toShell ∧ t'.chunks = t.chunks ∧
        t'.primary.map IndexBinding.column = t.primary.map IndexBinding.column ∧
        (native = true → t'.primary = t.primary)) ?_ ⟨rfl, rfl, rfl, fun _ => rfl⟩ h
    intro t₁ t₂ e _ ⟨hshell, hchunks, hcolumn, hprimary⟩ hone
    obtain ⟨ordered, -, hone⟩ := Fallible.bind_eq_ok.mp hone
    obtain ⟨primary, hp, hone⟩ := Fallible.bind_eq_ok.mp hone
    obtain ⟨indexes, -, hone⟩ := Fallible.bind_eq_ok.mp hone
    cases hone
    have hentered : primary.map IndexBinding.column = t₁.primary.map IndexBinding.column ∧
        (native = true → primary = t₁.primary) := by
      cases hcases : t₁.primary with
      | none =>
        rw [hcases] at hp
        cases hp
        exact ⟨rfl, fun _ => rfl⟩
      | some b =>
        rw [hcases, enterPrimary] at hp
        cases native with
        | true =>
          cases hp
          exact ⟨rfl, fun _ => rfl⟩
        | false =>
          obtain ⟨b', hb', hp⟩ := Fallible.bind_eq_ok.mp hp
          cases hp
          exact ⟨congrArg some (IndexBinding.enter_edited hb').1, fun h => by cases h⟩
    exact ⟨hshell, hchunks, hentered.1.trans hcolumn,
      fun hnative => (hentered.2 hnative).trans (hprimary hnative)⟩

theorem eligible_congr (hshell : t'.toShell = t.toShell)
    (hcolumn : t'.primary.map IndexBinding.column = t.primary.map IndexBinding.column) :
    t'.eligible registry = t.eligible registry := by
  rw [Table.eligible, Table.eligible, hshell]
  cases hp : t.primary with
  | none =>
    cases hp' : t'.primary with
    | none => rfl
    | some b' => simp [hp, hp'] at hcolumn
  | some b =>
    cases hp' : t'.primary with
    | none => simp [hp, hp'] at hcolumn
    | some b' =>
      have hb : b'.column = b.column := by simpa [hp, hp'] using hcolumn
      simp only [hb]

/-- A table without rows to enter is passed over, which entering them would not change. -/
theorem enterRows_false (t : Table) :
    enterRows false t = t.located.foldlM (Table.enterRow true) t := by
  rw [enterRows]
  split
  · next hempty =>
      simp only [Bool.and_eq_true, List.isEmpty_iff, Bool.false_or, Option.isNone_iff_eq_none]
        at hempty
      obtain ⟨⟨hordered, hindexes⟩, hprimary⟩ := hempty
      have hrow : ∀ e, Table.enterRow true t e = .ok t := by
        intro e
        rw [Table.enterRow, hordered, hindexes, hprimary, enterPrimary, List.mapM_nil,
          List.mapM_nil]
        cases t
        cases hordered
        cases hindexes
        cases hprimary
        rfl
      symm
      induction t.located with
      | nil => rfl
      | cons e rest ih => rw [List.foldlM_cons, hrow]; exact ih
  · rfl

/-- A rebuild from the rows keeps everything but the indexes. A table that has an image has the one
of its rows; any other table ends as `rebuild_indexes` leaves it. -/
theorem rebuiltTable_ok (h : rebuiltTable registry t = .ok t') :
    t'.toShell = t.toShell ∧ t'.chunks = t.chunks ∧
      t'.eligible registry = t.eligible registry ∧ t'.primaryColumn = t.primaryColumn ∧
      (t.eligible registry = false → t.located.foldlM (Table.enterRow true) t = .ok t') ∧
      (t.eligible registry = true → ∃ index,
        PagedIndex.build (t.entries t.primaryColumn) = .ok index ∧
          t'.primary = some ⟨t.primaryColumn, .paged index⟩) := by
  rw [rebuiltTable] at h
  split at h
  · next ht =>
      obtain ⟨index, hbuild, h⟩ := Fallible.bind_eq_ok.mp h
      obtain ⟨hshell, hchunks, hcolumn, hprimary⟩ := enterRows_ok h
      have hbound : t.primary.map IndexBinding.column = some t.primaryColumn := by
        rw [Table.eligible] at ht
        cases hp : t.primary with
        | none => simp [hp] at ht
        | some b => simp [Table.primaryColumn, hp]
      refine ⟨hshell, hchunks, eligible_congr hshell (hcolumn.trans hbound.symm), ?_,
        fun hnot => by simp [ht] at hnot, fun _ => ⟨index, hbuild, hprimary rfl⟩⟩
      rw [Table.primaryColumn, hprimary rfl]
      rfl
  · next ht =>
      obtain ⟨hshell, hchunks, hcolumn, -⟩ := enterRows_ok h
      refine ⟨hshell, hchunks, eligible_congr hshell hcolumn, ?_, fun _ => ?_,
        fun heligible => absurd heligible ht⟩
      · rw [Table.primaryColumn, Table.primaryColumn, hcolumn]
      · rw [← enterRows_false, h]

def startImages (registry : Registry) (tables : Tables) (fingerprint : Nat)
    (file : Except Error Bytes) : Images :=
  match loadCache registry tables fingerprint file with
  | .ok images => images
  | .error _ => []

theorem startImages_reflect (h : Tables.WellFormed registry tables) (fingerprint : Nat)
    (file : Except Error Bytes) : ∀ e ∈ tables, ∀ x,
      SortedMap.find e.1 (startImages registry tables fingerprint file) = some x →
        x.Reflects e.2 := by
  intro e he x hx
  rw [startImages] at hx
  split at hx
  · next images hload =>
      obtain ⟨t, ht, hreflects⟩ := loadCache_reflect h.tables hload e.1 x hx
      rw [h.sorted.find_of_mem he] at ht
      cases ht
      exact hreflects
  · cases hx

theorem rebuildPagedIndexes_eq (tables : Tables) (fingerprint : Nat) (file : Except Error Bytes) :
    rebuildPagedIndexes registry tables fingerprint file =
      makeAllIndexes registry tables >>= fun made => made.foldlM (rebuildPagedTable registry)
          { images := startImages registry made fingerprint file } := rfl

/-- The primary index of a rebuilt table answers like the one built from the rows of the table. An
index that reads an image was built from the rows, and the image answers every lookup and every
range as it does; any other is the one `rebuild_indexes` makes. -/
def RebuiltFrom (registry : Registry) (images : Images) (e e' : Bytes × Table) : Prop :=
  e'.1 = e.1 ∧ e'.2.toShell = e.2.toShell ∧ e'.2.chunks = e.2.chunks ∧
    (e'.2.eligible registry = false → e.2.rebuildIndexes registry = .ok e'.2) ∧
    (e'.2.eligible registry = true →
      ∃ x image, e'.2.primary = some ⟨e'.2.primaryColumn, .paged x⟩ ∧
        PagedIndex.build (e.2.entries e'.2.primaryColumn) = .ok x ∧
        SortedMap.find e.1 images = some image ∧
        (∀ v, image.lookup (payload v) = .ok (x.lookup v)) ∧
        ∀ lo hi : Option Value,
          image.range ((lo.map payload).getD minKey) ((hi.map payload).getD maxKey) =
            .ok (x.range lo hi).rows)

theorem rebuiltFrom_of_rebuilt {m : Table} (hmade : makeIndexes t registry = .ok m)
    (h : rebuiltTable registry m = .ok t')
    (himage : m.eligible registry = true →
      ∃ x, SortedMap.find name images = some x ∧ x.Reflects m) :
    RebuiltFrom registry images (name, t) (name, t') := by
  obtain ⟨hmadeShell, hmadeChunks, -⟩ := makeIndexes_ok hmade
  obtain ⟨hshell, hchunks, heligible, hcolumn, hplain, hpaged⟩ := rebuiltTable_ok h
  have hentries : m.entries m.primaryColumn = t.entries t'.primaryColumn := by
    rw [hcolumn, Table.entries, Table.entries, Table.located, Table.located, hmadeChunks]
  refine ⟨rfl, hshell.trans hmadeShell, hchunks.trans hmadeChunks, fun hnot => ?_, fun hyes => ?_⟩
  · show makeIndexes t registry >>= _ = _
    rw [hmade]
    exact hplain (heligible.symm.trans hnot)
  · obtain ⟨index, hbuild, hprimary⟩ := hpaged (heligible.symm.trans hyes)
    obtain ⟨image, hfind, records, hholds, hrecords⟩ := himage (heligible.symm.trans hyes)
    rw [hbuild] at hrecords
    cases hrecords
    obtain ⟨hsorted, -⟩ := PagedIndex.build_eq_ok_iff.mp hbuild
    exact ⟨{ base := records }, image, hprimary.trans (by rw [hcolumn]), hentries ▸ hbuild, hfind,
      fun v => hholds.lookup hsorted _, fun lo hi => hholds.range hsorted _ _⟩

/-- Whatever the cache file holds, a rebuild ends as it would without one:
with the same error, or with the same tables. It keeps every table with its
rows, and the primary index of each answers like the one built from them. -/
theorem cache_changes_no_answer (registry : Registry) (tables : Tables)
    (h : Tables.WellFormed registry tables) (fingerprint : Nat) (file : Except Error Bytes)
    (missing : Error) :
    (rebuildPagedIndexes registry tables fingerprint file).map Rebuilding.tables =
        (rebuildPagedIndexes registry tables fingerprint (.error missing)).map Rebuilding.tables ∧
      (rebuildPagedIndexes registry tables fingerprint file).map Rebuilding.tables =
        makeAllIndexes registry tables >>= rebuiltTables registry ∧
      ∀ r, rebuildPagedIndexes registry tables fingerprint file = .ok r →
        List.Forall₂ (RebuiltFrom registry r.images) tables r.tables := by
  rw [rebuildPagedIndexes_eq, rebuildPagedIndexes_eq]
  cases hmake : makeAllIndexes registry tables with
  | error e => exact ⟨rfl, rfl, fun r hr => by cases hr⟩
  | ok made =>
      have hmade := makeAllIndexes_wellFormed h hmake
      have htables : ∀ file, (made.foldlM (rebuildPagedTable registry)
          { images := startImages registry made fingerprint file }).map Rebuilding.tables =
          rebuiltTables registry made := by
        intro file
        rw [rebuildPagedTables_tables hmade.sorted hmade.tables
          (startImages_reflect hmade fingerprint file)]
        cases rebuiltTables registry made <;> rfl
      refine ⟨(htables file).trans (htables (.error missing)).symm, htables file, fun r hr => ?_⟩
      have hr' := htables file
      rw [show made.foldlM _ _ = Except.ok r from hr] at hr'
      obtain ⟨himages, -⟩ := rebuildPagedTables_images hmade.sorted hmade.tables
        (startImages_reflect hmade fingerprint file) hr
      -- Table by table: the indexes are made, and then filled or loaded.
      refine Lists.forall₂_through (Fallible.mapM_eq_ok.mp hmake)
        (Fallible.mapM_eq_ok.mp hr'.symm) fun e m e' hm hone htwo => ?_
      obtain ⟨t, ht, hone⟩ := Fallible.bind_eq_ok.mp hone
      obtain ⟨t', ht', htwo⟩ := Fallible.bind_eq_ok.mp htwo
      cases hone
      cases htwo
      exact rebuiltFrom_of_rebuilt ht ht' (himages _ hm)

def twoKeys : Tables :=
  [(lit "t",
    { columns := [{ name := lit "k", type := integerType, primaryKey := true }]
      nextChunk := 1
      nextRowid := 3
      rowCount := 2
      payloadBytes := 16
      chunks := [(0, Chunk.refresh { rows := [[.integer 7], [.integer 5]], rowids := [1, 2] })] })]

theorem twoKeys_wellFormed : Tables.WellFormed scalarRegistry twoKeys := by
  refine ⟨List.pairwise_singleton _ _, fun e he => ?_⟩
  rw [List.mem_singleton.mp he]
  have hrow : ∀ i, RowOk scalarRegistry
      [{ name := lit "k", type := integerType, primaryKey := true }] [.integer i] := fun i =>
    .cons (integer_cell i) .nil
  have hchunk : Chunk.WellFormed scalarRegistry
      [{ name := lit "k", type := integerType, primaryKey := true }] 3
      (Chunk.refresh { rows := [[.integer 7], [.integer 5]], rowids := [1, 2] }) := by
    refine ⟨by decide, by decide, fun row hr => ?_, rfl, by decide, .inl rfl, by decide, rfl, rfl⟩
    rcases List.mem_cons.mp hr with rfl | hr
    · exact hrow 7
    · rw [List.mem_singleton.mp hr]
      exact hrow 5
  refine ⟨?_, List.nodup_singleton _, List.pairwise_singleton _ _, by decide, fun c hc => ?_,
    by decide, by decide, by decide, rfl, rfl⟩
  · intro c hc
    rw [List.mem_singleton.mp hc]
    decide +kernel
  · rw [List.mem_singleton.mp hc]
    exact hchunk

/-- A forged file whose checksum and fingerprint are right but whose two
locations are exchanged: the rebuild has the tables it has without the file. -/
theorem forged_cache_changes_no_answer :
    let forged := cacheBytes twoKeys [(lit "t", imageOf [(5, ⟨0, 0⟩), (7, ⟨0, 1⟩)])] 9
    (rebuildPagedIndexes scalarRegistry twoKeys 9 (.ok forged)).map Rebuilding.tables =
        (rebuildPagedIndexes scalarRegistry twoKeys 9
          (fail .io "Open index cache")).map Rebuilding.tables ∧
      ∀ r, rebuildPagedIndexes scalarRegistry twoKeys 9 (.ok forged) = .ok r →
        List.Forall₂ (RebuiltFrom scalarRegistry r.images) twoKeys r.tables := by
  intro forged
  have h := cache_changes_no_answer scalarRegistry twoKeys twoKeys_wellFormed 9 (.ok forged)
    ⟨.io, lit "Open index cache"⟩
  exact ⟨h.1, h.2.2⟩

end CoreSql
