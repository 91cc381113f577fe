import CoreSql.Proofs.KeyIndex

/-!
# What the indexes of a table hold

The three kinds of inline index under one `Holds`, the bindings of a table
to its columns, and all indexes of a table together. A mutation edits the
indexes of a table one by one; once all of them have had a row entered or
removed, they hold the rows with one more or one less.

Everything is relative to a list of located rows, not to the table's own
chunks: while a mutation is under way the two differ.
-/

namespace CoreSql

variable {registry : Registry} {columns : List Column} {i : Nat}

/-! ## One inline index -/

namespace Index

variable {name : Bytes} {requireUnique : Bool}

/-- The index holds these entries of a column of the type. -/
def Holds (registry : Registry) (type : SqlType) (entries : List (Value × RowLocation)) :
    Index → Prop
  | hash h => h.Fits registry type ∧ UniqueMap registry type h.lookup h.size entries
  | paged x => x.Fits registry type ∧ UniqueMap registry type x.lookup x.size entries
  | key x => x.Holds registry entries

/-- Whether the index maps a key to one location. -/
def unique : Index → Bool
  | key _ => false
  | _ => true

variable {type : SqlType} {entries entries' : List (Value × RowLocation)} {d d' : Index}
  {v : Value} {l : RowLocation}

theorem Holds.perm (h : d.Holds registry type entries) (hp : entries.Perm entries') :
    d.Holds registry type entries' := by
  cases d with
  | hash x => exact ⟨h.1, h.2.perm hp⟩
  | paged x => exact ⟨h.1, h.2.perm hp⟩
  | key x => exact KeyIndex.Holds.perm h hp

theorem Holds.insert (hlawful : registry.Lawful) (h : d.Holds registry type entries)
    (hv : registry.Key type v) (hins : d.insert v l = .ok d') :
    d'.Holds registry type ((v, l) :: entries) ∧ d'.unique = d.unique := by
  cases d with
  | hash x =>
    obtain ⟨x', hx, hins⟩ := Fallible.bind_eq_ok.mp hins
    cases hins
    obtain ⟨hf, hnone, hu, hsize⟩ := h.1.insert hlawful hv hx
    exact ⟨⟨hf, h.2.insert hlawful hv hnone hu (by omega)⟩, rfl⟩
  | paged x =>
    obtain ⟨x', hx, hins⟩ := Fallible.bind_eq_ok.mp hins
    cases hins
    obtain ⟨hf, hnone, hu, hsize⟩ := h.1.insert hlawful hv hx
    exact ⟨⟨hf, h.2.insert hlawful hv hnone hu hsize⟩, rfl⟩
  | key x =>
    obtain ⟨x', hx, hins⟩ := Fallible.bind_eq_ok.mp hins
    cases hins
    exact ⟨KeyIndex.Holds.insert hlawful h hx, rfl⟩

/-- A unique index looks a key up to the location of the equal one. -/
theorem Holds.lookup (h : d.Holds registry type entries) (hunique : d.unique = true)
    (hv : registry.Key type v) : ∃ r, d.lookup v = .ok r ∧
      ∀ l, r = some l ↔ ∃ k, (k, l) ∈ entries ∧ registry.sameKey type k v = true := by
  cases d with
  | hash x => exact ⟨x.lookup v, rfl, h.2.exact v hv⟩
  | paged x => exact ⟨x.lookup v, rfl, h.2.exact v hv⟩
  | key x => cases hunique

theorem Holds.registered (h : d.Holds registry type entries) (hunique : d.unique = true) :
    ∃ addon, registry.types type.id type.version = some addon ∧
      addon.validateType type.parameters = .ok () := by
  cases d with
  | hash x =>
    obtain ⟨addon, equal, hkeyed⟩ := h.2.keyed
    exact ⟨addon, hkeyed.registered, hkeyed.allowed⟩
  | paged x =>
    obtain ⟨addon, equal, hkeyed⟩ := h.2.keyed
    exact ⟨addon, hkeyed.registered, hkeyed.allowed⟩
  | key x => cases hunique

theorem create_holds (h : registry.index name type requireUnique = .ok d) :
    d.Holds registry type [] ∧ (requireUnique = true → d.unique = true) := by
  obtain ⟨⟨⟩, htype, h⟩ := Fallible.bind_eq_ok.mp h
  obtain ⟨addon, haddon, hallowed⟩ := Fallible.bind_eq_ok.mp htype
  split at h
  · cases h
  · next index hindex =>
      split at h
      · cases h
      · next hunique =>
          cases index with
          | hash =>
            obtain ⟨addon', haddon', h⟩ := Fallible.bind_eq_ok.mp h
            rw [haddon] at haddon'
            cases haddon'
            obtain ⟨x, hx, h⟩ := Fallible.bind_eq_ok.mp h
            cases h
            obtain ⟨hf, hnone, hsize⟩ :=
              HashIndex.makeHashIndex_fits (addon_eq_ok.mp haddon) hallowed hx
            obtain ⟨addon, equal, -, hkeyed, -⟩ := hf.of_addon
            exact ⟨⟨hf, UniqueMap.empty hkeyed hnone (by simp [hsize])⟩, fun _ => rfl⟩
          | key extractor keyAddon =>
            simp only at h
            split at h
            · cases h
            · cases h
              obtain ⟨hkey, hallowed, hequal, hhash⟩ :=
                registry.extractor_checked name extractor keyAddon hindex
              obtain ⟨equal, hequal⟩ := Option.isSome_iff_exists.mp hequal
              obtain ⟨hash, hhash⟩ := Option.isSome_iff_exists.mp hhash
              refine ⟨KeyIndex.Holds.empty ⟨equal, hash, ⟨hkey, hallowed, hequal⟩, hhash⟩
                fun _ => rfl, fun hr => ?_⟩
              simp [hr, IndexAddon.unique] at hunique

/-- The index is of the implementation the registry has under a name. -/
def Of (registry : Registry) (name : Bytes) : Index → Prop
  | key x => registry.indexes name = some (.key x.extractor x.addon)
  | _ => registry.indexes name = some .hash

theorem create_of (h : registry.index name type requireUnique = .ok d) : d.Of registry name := by
  obtain ⟨⟨⟩, -, h⟩ := Fallible.bind_eq_ok.mp h
  split at h
  · cases h
  · next index hindex =>
      split at h
      · cases h
      · cases index with
        | hash =>
          obtain ⟨addon, -, h⟩ := Fallible.bind_eq_ok.mp h
          obtain ⟨x, -, h⟩ := Fallible.bind_eq_ok.mp h
          cases h
          exact hindex
        | key extractor addon =>
          simp only at h
          split at h
          · cases h
          · cases h
            exact hindex

theorem Of.insert (h : d.Of registry name) (hins : d.insert v l = .ok d') :
    d'.Of registry name := by
  cases d with
  | hash x =>
    obtain ⟨x', -, hins⟩ := Fallible.bind_eq_ok.mp hins
    cases hins
    exact h
  | paged x =>
    obtain ⟨x', -, hins⟩ := Fallible.bind_eq_ok.mp hins
    cases hins
    exact h
  | key x =>
    obtain ⟨x', hx, hins⟩ := Fallible.bind_eq_ok.mp hins
    cases hins
    obtain ⟨ks, -, hx⟩ := Fallible.bind_eq_ok.mp hx
    cases hx
    have hsame : ∀ (ks : List Value) (y : KeyIndex),
        (ks.foldl (KeyIndex.changeKey true l) y).extractor = y.extractor ∧
          (ks.foldl (KeyIndex.changeKey true l) y).addon = y.addon := by
      intro ks
      induction ks with
      | nil => exact fun y => ⟨rfl, rfl⟩
      | cons k ks ih => exact fun y => ih (KeyIndex.changeKey true l y k)
    simp only [Of, (hsame ks x).1, (hsame ks x).2]
    exact h

end Index

/-! ## Bindings -/

/-- What an index on a column should contain. -/
def entriesOf (column : Nat) (rows : List (RowLocation × Row)) : List (Value × RowLocation) :=
  rows.map fun e => (e.2.cell column, e.1)

theorem RowOk.isKey {row : Row} (hrow : RowOk registry columns row) {c : Column}
    (hc : columns[i]? = some c) (hnull : c.nullable = false) :
    registry.Key c.type (row.cell i) := by
  have hstored := hrow.cell hc
  refine ⟨validateStored_cell hstored, ?_⟩
  rw [validateStored] at hstored
  split at hstored
  · cases hstored
  · next hne =>
      rw [hnull] at hne
      simpa using hne

namespace IndexBinding

/-- The binding is to a column without NULL, and its index holds the rows. -/
def Holds (registry : Registry) (columns : List Column) (b : IndexBinding)
    (rows : List (RowLocation × Row)) : Prop :=
  ∃ c, columns[b.column]? = some c ∧ c.nullable = false ∧
    b.data.Holds registry c.type (entriesOf b.column rows)

def Edited (f : Nat → Index → Except Error Index) (b b' : IndexBinding) : Prop :=
  b'.column = b.column ∧ f b.column b.data = .ok b'.data

variable {columns : List Column} {b b' : IndexBinding} {rows rows' : List (RowLocation × Row)}
  {row : Row} {l : RowLocation}

theorem Holds.perm (h : b.Holds registry columns rows) (hp : rows.Perm rows') :
    b.Holds registry columns rows' := by
  obtain ⟨c, hc, hnull, hd⟩ := h
  exact ⟨c, hc, hnull, hd.perm (hp.map _)⟩

theorem Holds.insert (hlawful : registry.Lawful) (h : b.Holds registry columns rows)
    (hrow : RowOk registry columns row) (he : b.Edited (fun c d => d.insert (row.cell c) l) b') :
    b'.Holds registry columns ((l, row) :: rows) ∧ b'.data.unique = b.data.unique := by
  obtain ⟨c, hc, hnull, hd⟩ := h
  obtain ⟨column', data'⟩ := b'
  obtain ⟨rfl, hins⟩ := he
  obtain ⟨hd', hunique⟩ := hd.insert hlawful (hrow.isKey hc hnull) hins
  exact ⟨⟨c, hc, hnull, hd'⟩, hunique⟩

end IndexBinding

/-! ## All indexes of a table -/

namespace Table

/-- Every index of the table holds these rows, the primary one under unique
keys. -/
structure Indexed (registry : Registry) (columns : List Column) (t : Table)
    (rows : List (RowLocation × Row)) : Prop where
  primary : ∀ b ∈ t.primary, b.Holds registry columns rows ∧ b.data.unique = true
  secondary : ∀ b ∈ t.indexes, b.Holds registry columns rows
  ordered : ∀ x ∈ t.ordered, x.Holds registry columns rows

/-- Every inline index is of the implementation its column names. -/
def Named (registry : Registry) (columns : List Column) (t : Table) : Prop :=
  ∀ b ∈ t.indexes, ∃ c, columns[b.column]? = some c ∧ b.data.Of registry c.index

/-- Every index of a table was edited, and nothing else. -/
structure EditedIndexes (f : OrderedIndex → Except Error OrderedIndex)
    (g : Nat → Index → Except Error Index) (t t' : Table) : Prop where
  ordered : List.Forall₂ (fun x x' => f x = .ok x') t.ordered t'.ordered
  primary : List.Forall₂ (IndexBinding.Edited g) t.primary.toList t'.primary.toList
  secondary : List.Forall₂ (IndexBinding.Edited g) t.indexes t'.indexes

/-- What is indexed by what, whatever the contents. -/
structure Declared (t : Table) : Prop where
  definitions : t.ordered.map OrderedIndex.definition = t.indexDefinitions
  primary : t.primary.map IndexBinding.column = t.columns.findIdx? Column.primaryKey

variable {columns : List Column} {t t' : Table} {rows rows' : List (RowLocation × Row)}
  {row : Row} {l : RowLocation}

theorem Indexed.perm (h : t.Indexed registry columns rows) (hp : rows.Perm rows') :
    t.Indexed registry columns rows' where
  primary b hb := ⟨(h.primary b hb).1.perm hp, (h.primary b hb).2⟩
  secondary b hb := (h.secondary b hb).perm hp
  ordered x hx := (h.ordered x hx).perm hp

theorem Indexed.insert (hlawful : registry.Lawful) (h : t.Indexed registry columns rows)
    (hrow : RowOk registry columns row)
    (he : EditedIndexes (fun x => x.insert row l) (fun c d => d.insert (row.cell c) l) t t') :
    t'.Indexed registry columns ((l, row) :: rows) where
  primary b' hb' := by
    obtain ⟨b, hb, hedited⟩ := Lists.forall₂_mem_right he.primary (Option.mem_toList.mpr hb')
    obtain ⟨hholds, hunique⟩ := h.primary b (Option.mem_toList.mp hb)
    obtain ⟨hholds', hunique'⟩ := hholds.insert hlawful hrow hedited
    exact ⟨hholds', hunique'.trans hunique⟩
  secondary b' hb' := by
    obtain ⟨b, hb, hedited⟩ := Lists.forall₂_mem_right he.secondary hb'
    exact ((h.secondary b hb).insert hlawful hrow hedited).1
  ordered x' hx' := by
    obtain ⟨x, hx, hedited⟩ := Lists.forall₂_mem_right he.ordered hx'
    exact (h.ordered x hx).insert hlawful hrow hedited

/-- Edits that keep the definitions keep what is indexed by what. -/
theorem EditedIndexes.declared {f : OrderedIndex → Except Error OrderedIndex}
    {g : Nat → Index → Except Error Index} (he : EditedIndexes f g t t')
    (hf : ∀ x x', f x = .ok x' → x'.definition = x.definition) (hs : t'.toShell = t.toShell)
    (h : t.Declared) : t'.Declared := by
  have hdefinitions : t'.ordered.map OrderedIndex.definition =
      t.ordered.map OrderedIndex.definition := by
    have := he.ordered
    revert this
    generalize t.ordered = o
    generalize t'.ordered = o'
    intro hrel
    induction hrel with
    | nil => rfl
    | cons hx _ ih => rw [List.map_cons, List.map_cons, hf _ _ hx, ih]
  have hprimary : t'.primary.map IndexBinding.column = t.primary.map IndexBinding.column := by
    have := he.primary
    revert this
    cases t.primary with
    | none =>
      cases t'.primary with
      | none => intro _; rfl
      | some b' => intro hrel; cases hrel
    | some b =>
      cases t'.primary with
      | none => intro hrel; cases hrel
      | some b' =>
        intro hrel
        cases hrel with
        | cons hb _ => exact congrArg some hb.1
  refine ⟨?_, ?_⟩
  · rw [hdefinitions, h.definitions, hs]
  · rw [hprimary, h.primary, hs]

end Table

/-! ## New indexes -/

theorem checkNullable_ok (h : checkNullable columns = .ok ()) :
    ∀ c ∈ columns, c.primaryKey = true ∨ c.index ≠ [] → c.nullable = false := by
  induction columns with
  | nil => simp
  | cons c rest ih =>
    rw [checkNullable] at h
    split at h
    · cases h
    · next hprimary =>
        split at h
        · cases h
        · next hindex =>
            intro d hd hkind
            rcases List.mem_cons.mp hd with rfl | hd
            · rcases hkind with hkind | hkind
              · simpa [hkind] using hprimary
              · simpa [hkind] using hindex
            · exact ih h d hd hkind

theorem makeIndex_ok {result r : Option IndexBinding}
    (h : makeIndex registry i result columns = .ok r) :
    (r = result ∧ columns.findIdx? Column.primaryKey = none) ∨
      ∃ k c data, result = none ∧ r = some ⟨i + k, data⟩ ∧
        columns.findIdx? Column.primaryKey = some k ∧ columns[k]? = some c ∧
        c.primaryKey = true ∧ data.Holds registry c.type [] ∧ data.unique = true := by
  induction columns generalizing i result with
  | nil =>
    cases h
    exact .inl ⟨rfl, rfl⟩
  | cons c rest ih =>
    rw [makeIndex] at h
    split at h
    · next hkey =>
        split at h
        · cases h
        · next hnone =>
            have hresult : result = none := by simpa using hnone
            obtain ⟨data, hdata, h⟩ := Fallible.bind_eq_ok.mp h
            obtain ⟨hholds, hunique⟩ := Index.create_holds hdata
            rcases ih h with ⟨rfl, -⟩ | ⟨k, c', data', hnone, -⟩
            · exact .inr ⟨0, c, data, hresult, rfl, by simp [List.findIdx?_cons, hkey], rfl, hkey,
                hholds, hunique rfl⟩
            · cases hnone
    · next hkey =>
        rcases ih h with ⟨rfl, hrest⟩ | ⟨k, c', data, hnone, rfl, hfind, hc, hkey', hrest⟩
        · exact .inl ⟨rfl, by simp [List.findIdx?_cons, hkey, hrest]⟩
        · exact .inr ⟨k + 1, c', data, hnone, by rw [Nat.add_right_comm, Nat.add_assoc],
            by simp [List.findIdx?_cons, hkey, hfind], hc, hkey', hrest⟩

theorem makeSecondary_ok {bindings : List IndexBinding}
    (h : makeSecondary registry i columns = .ok bindings) :
    ∀ b ∈ bindings, ∃ k c, b.column = i + k ∧ columns[k]? = some c ∧ c.index ≠ [] ∧
      b.data.Holds registry c.type [] ∧ b.data.Of registry c.index := by
  induction columns generalizing i bindings with
  | nil =>
    cases h
    simp
  | cons c rest ih =>
    have hlater : ∀ others, makeSecondary registry (i + 1) rest = .ok others →
        ∀ b ∈ others, ∃ k c', b.column = i + k ∧ (c :: rest)[k]? = some c' ∧ c'.index ≠ [] ∧
          b.data.Holds registry c'.type [] ∧ b.data.Of registry c'.index := by
      intro others hothers b hb
      obtain ⟨k, c', hcolumn, hc', hindex, hholds⟩ := ih hothers b hb
      exact ⟨k + 1, c', by omega, hc', hindex, hholds⟩
    rw [makeSecondary] at h
    split at h
    · next hcond =>
        obtain ⟨data, hdata, h⟩ := Fallible.bind_eq_ok.mp h
        obtain ⟨others, hothers, h⟩ := Fallible.bind_eq_ok.mp h
        cases h
        intro b hb
        rcases List.mem_cons.mp hb with rfl | hb
        · simp only [Bool.and_eq_true, decide_eq_true_eq] at hcond
          exact ⟨0, c, rfl, rfl, hcond.2, (Index.create_holds hdata).1, Index.create_of hdata⟩
        · exact hlater others hothers b hb
    · exact hlater bindings h

theorem makeOrdered_ok {seen : List Bytes}
    {definitions : List IndexDefinition} {ordered : List OrderedIndex}
    (h : makeOrdered columns registry seen definitions = .ok ordered) :
    ordered.map OrderedIndex.definition = definitions ∧
      ∀ x ∈ ordered, x.Holds registry columns [] := by
  induction definitions generalizing seen ordered with
  | nil =>
    cases h
    exact ⟨rfl, by simp⟩
  | cons d rest ih =>
    rw [makeOrdered] at h
    split at h
    · cases h
    · obtain ⟨x, hx, h⟩ := Fallible.bind_eq_ok.mp h
      obtain ⟨others, hothers, h⟩ := Fallible.bind_eq_ok.mp h
      cases h
      obtain ⟨hdefinition, hholds⟩ := OrderedIndex.create_holds hx
      obtain ⟨hothers, hall⟩ := ih hothers
      refine ⟨by rw [List.map_cons, hdefinition, hothers], fun y hy => ?_⟩
      rcases List.mem_cons.mp hy with rfl | hy
      · exact hholds
      · exact hall y hy

/-- `make_indexes` declares every index of the table and leaves it empty. -/
theorem makeIndexes_ok {t t' : Table} (h : makeIndexes t registry = .ok t') :
    t'.toShell = t.toShell ∧ t'.chunks = t.chunks ∧ t'.Declared ∧
      t'.Indexed registry t.columns [] ∧ t'.Named registry t.columns := by
  obtain ⟨⟨⟩, hnullable, h⟩ := Fallible.bind_eq_ok.mp h
  obtain ⟨ordered, hordered, h⟩ := Fallible.bind_eq_ok.mp h
  obtain ⟨primary, hprimary, h⟩ := Fallible.bind_eq_ok.mp h
  obtain ⟨indexes, hindexes, h⟩ := Fallible.bind_eq_ok.mp h
  cases h
  have hnullable := checkNullable_ok hnullable
  obtain ⟨hdefinitions, hempty⟩ := makeOrdered_ok hordered
  have hcolumn : ∀ {k : Nat} {c : Column}, t.columns[k]? = some c → c ∈ t.columns :=
    fun hc => List.mem_of_getElem? hc
  have hsecondary : ∀ b ∈ indexes, ∃ c, t.columns[b.column]? = some c ∧ c.index ≠ [] ∧
      b.data.Holds registry c.type [] ∧ b.data.Of registry c.index := by
    intro b hb
    obtain ⟨k, c, hk, hc, hindex, hholds, hof⟩ := makeSecondary_ok hindexes b hb
    exact ⟨c, by rw [hk, Nat.zero_add]; exact hc, hindex, hholds, hof⟩
  refine ⟨rfl, rfl, ⟨hdefinitions, ?_⟩, ⟨?_, fun b hb => ?_, hempty⟩, fun b hb => ?_⟩
  · rcases makeIndex_ok hprimary with ⟨rfl, hnone⟩ | ⟨k, c, data, -, rfl, hfind, -⟩
    · exact hnone.symm
    · rw [hfind, Option.map_some, Nat.zero_add]
  · intro b hb
    rcases makeIndex_ok hprimary with ⟨rfl, -⟩ | ⟨k, c, data, -, rfl, -, hc, hkey, hholds, hunique⟩
    · cases hb
    · cases hb
      have hk : t.columns[0 + k]? = some c := by rw [Nat.zero_add]; exact hc
      exact ⟨⟨c, hk, hnullable c (hcolumn hc) (.inl hkey), hholds⟩, hunique⟩
  · obtain ⟨c, hc, hindex, hholds, -⟩ := hsecondary b hb
    exact ⟨c, hc, hnullable c (hcolumn hc) (.inr hindex), hholds⟩
  · obtain ⟨c, hc, -, -, hof⟩ := hsecondary b hb
    exact ⟨c, hc, hof⟩

/-! ## Rebuilt indexes -/

section

variable {t t' : Table} {b b' : IndexBinding} {row : Row} {l : RowLocation} {columns : List Column}

theorem IndexBinding.enter_edited (h : b.enter row l = .ok b') :
    b.Edited (fun c d => d.insert (row.cell c) l) b' := by
  obtain ⟨data, hdata, h⟩ := Fallible.bind_eq_ok.mp h
  cases h
  exact ⟨rfl, hdata⟩

theorem Table.enterRow_edited (h : t.enterRow true (l, row) = .ok t') :
    t'.toShell = t.toShell ∧ t'.chunks = t.chunks ∧
      EditedIndexes (fun x => x.insert row l) (fun c d => d.insert (row.cell c) l) t t' := by
  obtain ⟨ordered, hordered, h⟩ := Fallible.bind_eq_ok.mp h
  obtain ⟨primary, hprimary, h⟩ := Fallible.bind_eq_ok.mp h
  obtain ⟨indexes, hindexes, h⟩ := Fallible.bind_eq_ok.mp h
  cases h
  refine ⟨rfl, rfl, Fallible.mapM_eq_ok.mp hordered, ?_, ?_⟩
  · cases hb : t.primary with
    | none =>
      rw [hb] at hprimary
      cases hprimary
      exact .nil
    | some b =>
      rw [hb, enterPrimary, if_pos rfl] at hprimary
      obtain ⟨b', hb', hprimary⟩ := Fallible.bind_eq_ok.mp hprimary
      cases hprimary
      exact .cons (IndexBinding.enter_edited hb') .nil
  · exact (Fallible.mapM_eq_ok.mp hindexes).imp fun _ _ h => IndexBinding.enter_edited h

theorem Table.Named.insert (h : t.Named registry columns)
    (he : EditedIndexes (fun x => x.insert row l) (fun c d => d.insert (row.cell c) l) t t') :
    t'.Named registry columns := by
  intro b' hb'
  obtain ⟨b, hb, hcolumn, hdata⟩ := Lists.forall₂_mem_right he.secondary hb'
  obtain ⟨c, hc, hof⟩ := h b hb
  exact ⟨c, by rw [hcolumn]; exact hc, hof.insert hdata⟩

theorem Table.foldlM_enterRow (hlawful : registry.Lawful)
    {rows : List (RowLocation × Row)} (hrows : ∀ e ∈ rows, RowOk registry columns e.2) :
    ∀ {before : List (RowLocation × Row)} {t : Table}, t.Indexed registry columns before →
      t.Named registry columns → t.Declared → rows.foldlM (Table.enterRow true) t = .ok t' →
      t'.toShell = t.toShell ∧ t'.chunks = t.chunks ∧ t'.Declared ∧ t'.Named registry columns ∧
        t'.Indexed registry columns (rows.reverse ++ before) := by
  induction rows with
  | nil =>
    intro before t hi hn hd h
    cases h
    exact ⟨rfl, rfl, hd, hn, hi⟩
  | cons e rows ih =>
    intro before t hi hn hd h
    rw [List.foldlM_cons] at h
    obtain ⟨t₁, ht₁, h⟩ := Fallible.bind_eq_ok.mp h
    obtain ⟨hshell, hchunks, hedited⟩ := enterRow_edited ht₁
    obtain ⟨hshell', hchunks', hd', hn', hi'⟩ := ih
      (fun e' he' => hrows e' (List.mem_cons_of_mem _ he'))
      (hi.insert hlawful (hrows e List.mem_cons_self) hedited) (hn.insert hedited)
      (hedited.declared (fun _ _ => OrderedIndex.insert_definition) hshell hd) h
    refine ⟨hshell'.trans hshell, hchunks'.trans hchunks, hd', hn', ?_⟩
    rw [List.reverse_cons, List.append_assoc]
    exact hi'

theorem Table.rebuildIndexes_ok (hlawful : registry.Lawful)
    (hrows : ∀ e ∈ t.located, RowOk registry t.columns e.2)
    (h : t.rebuildIndexes registry = .ok t') :
    t'.toShell = t.toShell ∧ t'.chunks = t.chunks ∧ t'.Declared ∧ t'.Named registry t.columns ∧
      t'.Indexed registry t.columns t.located := by
  obtain ⟨t₀, ht₀, h⟩ := Fallible.bind_eq_ok.mp h
  obtain ⟨hshell, hchunks, hdeclared, hindexed, hnamed⟩ := makeIndexes_ok ht₀
  have hlocated : t₀.located = t.located := by rw [located, located, hchunks]
  rw [hlocated] at h
  obtain ⟨hshell', hchunks', hdeclared', hnamed', hindexed'⟩ :=
    foldlM_enterRow hlawful hrows hindexed hnamed hdeclared h
  refine ⟨hshell'.trans hshell, hchunks'.trans hchunks, hdeclared', hnamed', hindexed'.perm ?_⟩
  rw [List.append_nil]
  exact List.reverse_perm _

end

end CoreSql
