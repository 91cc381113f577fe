import CoreSql.Proofs.Selection
import CoreSql.Proofs.Sources
import CoreSql.Query.EqualityJoin

/-!
# All equality joins agree

Whichever way `run_scan` finds the right rows of a key, they are the right
rows with an equal key that is not NULL, in scan order. Each strategy has a
lemma that says so: an ordered index offers them in its own order and the
loop sorts their locations; a primary index has at most one of them; a hash
table built in scan order keeps the order of the rows under one key; and
testing every row is the definition. What differs is only what the loop
carries along, the hash table that may or may not have been built yet, and
`Ready` says that it is the one of the right side.

Nothing here depends on what the acceptance step does with a pair, and it may
end the scan at any of them.
-/

namespace CoreSql

variable {registry : Registry} {left right : Source} {j : EqualityJoin} {key lo hi : Value}
  {leftAlias rightAlias qualifier name : Bytes} {l r : QueryExpr} {κ σ : Type}

namespace EqualityJoin

/-- The right rows that join with a key: an equal key that is not NULL, in
scan order. -/
def partners (j : EqualityJoin) (right : Source) (key : Value) : List (RowLocation × RowView) :=
  right.views.filter fun r =>
    !(r.2.row.cell j.right).isNull && j.comparison.equal key (r.2.row.cell j.right)

/-- The reference: every left row with a key in scan order, each with its
partners. -/
def reference (j : EqualityJoin) (left right : Source) : List (RowView × Row) :=
  (left.views.filter fun l => !(l.2.row.cell j.left).isNull).flatMap fun l =>
    (j.partners right (l.2.row.cell j.left)).map fun r => (l.2, r.2.row)

/-- What binding an equality join establishes. -/
structure Bound (registry : Registry) (left right : Source) (j : EqualityJoin) : Prop where
  leftColumn : ∃ c, left.columns[j.left]? = some c ∧ c.type = j.type
  rightColumn : ∃ c, right.columns[j.right]? = some c ∧ c.type = j.type
  supported : Comparison.create registry j.type true = .ok j.comparison
  indexed : j.indexed = right.primary.any fun b => b.column == j.right
  ordered : j.ordered = right.ordered.find? fun i => i.columns.head? == some j.right

end EqualityJoin

/-! ## Binding -/

/-- A column of two tables is one of the left, or one of the right after
them. -/
theorem Scope.pair_resolve {a : Nat × SqlType}
    (h : (Scope.pair left right leftAlias rightAlias).resolve qualifier name = .ok a) :
    (qualifier = leftAlias ∧ ∃ c, left.columns[a.1]? = some c ∧ c.name = name ∧ c.type = a.2) ∨
      (qualifier = rightAlias ∧ left.columns.length ≤ a.1 ∧
        ∃ c, right.columns[a.1 - left.columns.length]? = some c ∧ c.name = name ∧
          c.type = a.2) := by
  obtain ⟨⟨found, offset⟩, hside, h⟩ := Fallible.bind_eq_ok.mp h
  simp only at h
  split at h
  · cases h
  next k hk =>
  obtain ⟨hlt, hname, -⟩ := List.findIdx?_eq_some_iff_getElem.mp hk
  cases h
  have hplace : (qualifier = leftAlias ∧ found = left.columns ∧ offset = 0) ∨
      (qualifier = rightAlias ∧ found = right.columns ∧ offset = left.columns.length) := by
    rw [Scope.side, Scope.pair] at hside
    simp only [Option.isSome_some, Bool.true_or, Bool.true_and, Option.filter_none] at hside
    split at hside
    · cases hside
    split at hside
    · next t ht =>
        obtain ⟨heq, halias⟩ := Option.filter_eq_some_iff.mp ht
        cases heq
        cases hside
        exact .inr ⟨(beq_iff_eq.mp halias).symm, rfl, rfl⟩
    · split at hside
      · cases hside
      · next halias =>
          cases hside
          exact .inl ⟨not_not.mp halias, rfl, rfl⟩
  rw [List.getElem?_eq_getElem hlt, Option.map_some, Option.getD_some]
  rcases hplace with ⟨hq, rfl, rfl⟩ | ⟨hq, rfl, rfl⟩
  · left
    exact ⟨hq, _, by rw [Nat.zero_add, List.getElem?_eq_getElem hlt], beq_iff_eq.mp hname, rfl⟩
  · right
    refine ⟨hq, Nat.le_add_right _ _, _, ?_, beq_iff_eq.mp hname, rfl⟩
    rw [Nat.add_sub_cancel_left, List.getElem?_eq_getElem hlt]

theorem bindEqualityJoin_bound
    (h : bindEqualityJoin registry left right leftAlias rightAlias l r = .ok j) :
    j.Bound registry left right := by
  obtain ⟨⟨⟩, -, h⟩ := Fallible.bind_eq_ok.mp h
  simp only at h
  split at h
  · next lq ln rq rn _ =>
      obtain ⟨a, ha, h⟩ := Fallible.bind_eq_ok.mp h
      obtain ⟨b, hb, h⟩ := Fallible.bind_eq_ok.mp h
      -- whichever operand was written first, `x` is the left one
      obtain ⟨x, hx⟩ : ∃ x, x = if left.columns.length ≤ a.1 then b else a := ⟨_, rfl⟩
      obtain ⟨y, hy⟩ : ∃ y, y = if left.columns.length ≤ a.1 then a else b := ⟨_, rfl⟩
      rw [← hx, ← hy] at h
      have hxr : ∃ q n, (Scope.pair left right leftAlias rightAlias).resolve q n = .ok x := by
        rw [hx]
        split
        · exact ⟨rq, rn, hb⟩
        · exact ⟨lq, ln, ha⟩
      have hyr : ∃ q n, (Scope.pair left right leftAlias rightAlias).resolve q n = .ok y := by
        rw [hy]
        split
        · exact ⟨lq, ln, ha⟩
        · exact ⟨rq, rn, hb⟩
      by_cases hsides : left.columns.length ≤ x.1 ∨ y.1 < left.columns.length
      · rw [if_pos hsides] at h
        cases h
      rw [if_neg hsides] at h
      by_cases htypes : x.2 = y.2
      · rw [if_neg (not_not_intro htypes)] at h
        obtain ⟨comparison, hcomparison, h⟩ := Fallible.bind_eq_ok.mp h
        cases h
        obtain ⟨q, n, hxr⟩ := hxr
        obtain ⟨q', n', hyr⟩ := hyr
        refine ⟨?_, ?_, hcomparison, rfl, rfl⟩
        · rcases Scope.pair_resolve hxr with ⟨-, c, hc, -, htype⟩ | ⟨-, hle, -⟩
          · exact ⟨c, hc, htype⟩
          · exact absurd (.inl hle) hsides
        · rcases Scope.pair_resolve hyr with ⟨-, c, hc, -⟩ | ⟨-, -, c, hc, -, htype⟩
          · exact absurd (List.getElem?_eq_some_iff.mp hc).1 (by omega)
          · exact ⟨c, hc, htype.trans htypes.symm⟩
      · rw [if_pos htypes] at h
        cases h
  · cases h

/-! ## Keys -/

namespace EqualityJoin.Bound

variable (h : j.Bound registry left right) {row : Row}

include h

theorem leftKey (hrow : RowTyped registry left.columns row)
    (hnull : (row.cell j.left).isNull = false) : registry.Key j.type (row.cell j.left) := by
  obtain ⟨c, hc, htype⟩ := h.leftColumn
  exact ⟨htype ▸ hrow.cell hc, hnull⟩

theorem rightKey (hrow : RowTyped registry right.columns row)
    (hnull : (row.cell j.right).isNull = false) : registry.Key j.type (row.cell j.right) := by
  obtain ⟨c, hc, htype⟩ := h.rightColumn
  exact ⟨htype ▸ hrow.cell hc, hnull⟩

theorem keyed : ∃ addon equal, registry.Keyed j.type addon equal ∧
    j.comparison = ⟨j.type.parameters, addon⟩ := by
  obtain ⟨addon, haddon, htype, hc, hsome, -⟩ := Comparison.create_ok h.supported
  obtain ⟨equal, hequal⟩ := Option.isSome_iff_exists.mp (hsome rfl)
  exact ⟨addon, equal, ⟨haddon, htype, hequal⟩, hc⟩

/-- A test of the right column by the key of a left row. -/
theorem test (hkey : registry.Key j.type key) :
    (ColumnTest.mk j.right j.type .equal key j.comparison).Ok registry right.columns :=
  ⟨h.rightColumn, hkey.1, h.supported⟩

end EqualityJoin.Bound

/-- Locations in order that are those of the partners, as `indexed_row` finds
them in a table. -/
theorem eq_partners (hright : right.Readable registry) {ls : List RowLocation}
    (hsorted : ls.Pairwise (· < ·))
    (hviews : right.views = right.toTable.views) (hreal : ∀ l ∈ ls, ∃ row, (l, row) ∈ right.located)
    (hmem : ∀ l row, (l, row) ∈ right.located → (l ∈ ls ↔
      (!(row.cell j.right).isNull && j.comparison.equal key (row.cell j.right)) = true)) :
    ls = (j.partners right key).map Prod.fst := by
  have hlocated : ∀ e ∈ right.toTable.views, (e.1, e.2.row) ∈ right.located := by
    intro e he
    rw [right.toTable.located_eq_views]
    exact List.mem_map.mpr ⟨e, he, rfl⟩
  refine List.Pairwise.eq_of_mem_iff hsorted
    (List.pairwise_map.mpr (hright.views_sorted.filter _)) fun l => ?_
  simp only [List.mem_map, EqualityJoin.partners, List.mem_filter, hviews]
  constructor
  · intro hl
    obtain ⟨row, hrow⟩ := hreal l hl
    rw [right.toTable.located_eq_views] at hrow
    obtain ⟨e, he, heq⟩ := List.mem_map.mp hrow
    cases heq
    exact ⟨e, ⟨he, (hmem _ _ (hlocated e he)).mp hl⟩, rfl⟩
  · rintro ⟨e, ⟨he, hmatch⟩, rfl⟩
    exact (hmem _ _ (hlocated e he)).mpr hmatch

/-! ## The ordered index -/

theorem OrderedIndex.Holds.range_nodup (hlawful : registry.Lawful) {columns : List Column}
    {x : OrderedIndex} {rows : List (RowLocation × Row)} (h : x.Holds registry columns rows)
    (hrows : (rows.map Prod.fst).Nodup) {type : SqlType}
    (htype : (typesAt columns x.columns)[0]? = some type) (hlo : registry.Cell type lo)
    (hhi : registry.Cell type hi) : (x.range lo hi).Nodup := by
  have hbounds : BoundsOk registry (typesAt columns x.columns) [] (some lo) (some hi) :=
    ⟨.nil, fun v hv => ⟨type, htype, by cases hv; exact hlo⟩,
      fun v hv => ⟨type, htype, by cases hv; exact hhi⟩⟩
  have hlocations : (x.root.entries.map Prod.snd).Nodup := by
    rw [(h.entries.map Prod.snd).nodup_iff, List.map_map]
    exact hrows
  rw [range, rangeAt_eq, h.ordered.prefixRangeAt_root hlawful hbounds]
  exact hlocations.sublist (List.Sublist.map _ List.filter_sublist)

theorem mergeSort_sorted {rows : List RowLocation} (h : rows.Nodup) :
    (rows.mergeSort fun a b => a ≤ b).Pairwise (· < ·) := by
  have hle := @List.pairwise_mergeSort RowLocation (fun a b => decide (a ≤ b))
    (fun a b c hab hbc => by simp only [decide_eq_true_eq] at *; exact le_trans hab hbc)
    (fun a b => by simpa using le_total a b) rows
  have hne : (rows.mergeSort fun a b => a ≤ b).Nodup :=
    (List.mergeSort_perm rows _).nodup_iff.mpr h
  refine (hle.and hne).imp fun {a b} hab => ?_
  exact lt_of_le_of_ne (by simpa using hab.1) hab.2

section

variable (hlawful : registry.Lawful) (hj : j.Bound registry left right)
  (hkey : registry.Key j.type key)
include hlawful hj hkey

theorem keyBetween_self {compare : Bytes → Value → Value → Int} {addon : TypeAddon}
    (haddon : registry.types j.type.id j.type.version = some addon)
    (hcompare : addon.compare = some compare) {row : Row}
    (hrow : RowTyped registry right.columns row) :
    KeyBetween j.comparison.compare (some key) (some key) (row.cell j.right) ↔
      (!(row.cell j.right).isNull && j.comparison.equal key (row.cell j.right)) = true := by
  obtain ⟨addon', equal, hkeyed, hc⟩ := hj.keyed
  obtain rfl : addon' = addon := Option.some.inj (hkeyed.registered.symm.trans haddon)
  have hlaw := hlawful j.type addon' haddon hkeyed.allowed
  cases hnull : (row.cell j.right).isNull with
  | true =>
    simp [KeyBetween, hc, Comparison.compare, hnull, hkey.2, compareNulls]
  | false =>
    have hcell := hj.rightKey hrow hnull
    have ha := hkeyed.accepts hcell
    have hb := hkeyed.accepts hkey
    have hzero := hlaw.compare_equal hcompare hkeyed.comparable ha hb
    have hsymm : equal j.type.parameters key (row.cell j.right) = true ↔
        equal j.type.parameters (row.cell j.right) key = true :=
      ⟨hlaw.equal_symm hkeyed.comparable hb ha, hlaw.equal_symm hkeyed.comparable ha hb⟩
    simp only [KeyBetween, Option.mem_some, forall_eq', hc, Comparison.compare,
      Comparison.equal, hnull, hkey.2, Bool.or_self, Bool.false_eq_true, if_false, hcompare,
      hkeyed.comparable, Bool.not_false, Bool.true_and, hsymm, ← hzero]
    omega

variable (hright : right.Readable registry)
include hright

theorem orderedRows_eq {x : OrderedIndex} (hx : j.ordered = some x) :
    ((x.range key key).mergeSort fun a b => a ≤ b) = (j.partners right key).map Prod.fst ∧
      right.views = right.toTable.views := by
  rw [hj.ordered] at hx
  have hmem := List.mem_of_find?_eq_some hx
  have hhead : x.columns.head? = some j.right := by simpa using List.find?_some hx
  obtain ⟨hconsistent, hviews⟩ := hright.stored (.inr (List.ne_nil_of_mem hmem))
  have hholds := hconsistent.indexed.ordered x hmem
  have htest := hj.test hkey
  have htype := leading_type htest hhead
  obtain ⟨addon, compare, haddon, -, hcompare, -⟩ := hholds.fits.order_at htype
  have hdistinct : (right.located.map Prod.fst).Nodup := by
    rw [right.toTable.located_eq_views, List.map_map]
    exact (List.pairwise_map.mpr hright.inOrder.views_sorted).imp fun {a b} hab => ne_of_lt hab
  have hnodup := hholds.range_nodup hlawful hdistinct htype hkey.1 hkey.1
  obtain ⟨hreal, hrange⟩ := hconsistent.mem_range hlawful htest hmem hhead hkey.1 hkey.1
  refine ⟨eq_partners hright (mergeSort_sorted hnodup) hviews (fun l hl => hreal l ?_)
    fun l row hrow => ?_, hviews⟩
  · exact List.mem_mergeSort.mp hl
  · rw [List.mem_mergeSort]
    exact (hrange hrow).trans
      (keyBetween_self hlawful hj hkey haddon hcompare (hconsistent.rows _ hrow).typed)

/-! ## The primary index -/

theorem primaryRow_eq (hindexed : j.indexed = true) :
    ∃ r, right.toTable.lookup key = .ok r ∧ r.toList = (j.partners right key).map Prod.fst ∧
      right.views = right.toTable.views := by
  rw [hj.indexed, Option.any_eq_true] at hindexed
  obtain ⟨b, hb, hcolumn⟩ := hindexed
  have hcolumn : b.column = j.right := by simpa using hcolumn
  obtain ⟨hconsistent, hviews⟩ := hright.stored (.inl (by rw [hb]; simp))
  obtain ⟨⟨c, hc, hcnull, hholds⟩, hunique⟩ := hconsistent.indexed.primary b hb
  rw [hcolumn] at hc hholds
  have htest := hj.test hkey
  have htype : j.type = c.type := htest.type_eq hc
  obtain ⟨r, hr, hiff⟩ := hholds.lookup hunique (htype ▸ hkey)
  refine ⟨r, by simp only [Table.lookup, hb, hr], ?_, hviews⟩
  refine eq_partners hright ?_ hviews (fun l hl => ?_) fun l row hrow => ?_
  · cases r <;> simp
  · obtain ⟨k, hk, -⟩ := (hiff l).mp (Option.mem_toList.mp hl)
    obtain ⟨row, hrow, -⟩ := mem_entriesOf.mp hk
    exact ⟨row, hrow⟩
  · have hcell := (hconsistent.rows _ hrow).isKey hc hcnull
    rw [← htype] at hcell
    rw [Option.mem_toList, hiff, hright.inOrder.exists_entry hrow, ← htype,
      ← htest.equal_eq rfl hcell.2 hkey.2, hcell.2,
      Comparison.equal_comm hlawful hj.supported hkey hcell]
    simp

end

/-! ## The hash tables -/

section

variable (hright : right.Readable registry) (column : Nat)
include hright

/-- The rows a hash table is built from, with their keys. -/
def keyedRows {κ : Type} (key : Value → κ) (column : Nat) (right : Source) : List (κ × Row) :=
  (right.views.filter fun e => !(e.2.row.cell column).isNull).map fun e =>
    (key (e.2.row.cell column), e.2.row)

omit hright in
theorem presenceOf_getLsbD {keys : List Int} {k : Int} (hk : k ∈ keys) :
    (IntegerJoinLookup.presenceOf keys).getLsbD (IntegerJoinLookup.bit k) = true := by
  have hbit : ∀ k, IntegerJoinLookup.bit k < 256 := fun k =>
    Nat.lt_of_le_of_lt Nat.and_le_right (by decide)
  have hfold : ∀ (keys : List Int) (p : BitVec 256),
      (p.getLsbD (IntegerJoinLookup.bit k) = true ∨ k ∈ keys) →
      (keys.foldl (fun p key => p ||| BitVec.twoPow 256 (IntegerJoinLookup.bit key)) p).getLsbD
        (IntegerJoinLookup.bit k) = true := by
    intro keys
    induction keys with
    | nil => simp
    | cons key keys ih =>
      intro p hp
      refine ih _ ?_
      rw [BitVec.getLsbD_or, BitVec.getLsbD_twoPow]
      rcases hp with hp | hp
      · exact .inl (by simp [hp])
      · rcases List.mem_cons.mp hp with rfl | hp
        · exact .inl (by simp [hbit])
        · exact .inr hp
  exact hfold keys 0 (.inr hk)

theorem IntegerJoinLookup.build_eq : ∃ x, IntegerJoinLookup.build right column = .ok x ∧
      x.buckets = some (Buckets.build (· == ·) (keyedRows payload column right)) ∧
      (x.selective = true → ∀ k, x.presence.getLsbD (bit k) = false →
        ∀ e ∈ x.buckets.getD [], (e.1 == k) = false) := by
  have hrows : (right.visitTableRows fun e => do
      modify (enter column e)
      return true : StateT (List (Int × List Row)) (Except Error) Bool).run [] =
      .ok (true, Buckets.build (· == ·) (keyedRows payload column right)) := by
    rw [hright.visitTableRows_eq]
    simp only [bind_pure_comp]
    rw [Visit.run_visit_modify]
    exact congrArg (fun m => Except.ok (true, m)) (Buckets.foldl_push
      (fun e : RowLocation × RowView => (e.2.row.cell column).isNull)
      (fun e => payload (e.2.row.cell column)) (fun e => e.2.row) right.views)
  refine ⟨_, by rw [build, hrows]; rfl, rfl, fun hselective k hbit e he => ?_⟩
  simp only [decide_eq_true_eq] at hselective
  simp only [hselective, decide_true, if_true] at hbit
  rw [beq_eq_false_iff_ne]
  rintro rfl
  have hkey : e.1 ∈ (Buckets.build (· == ·) (keyedRows payload column right)).map Prod.fst :=
    List.mem_map_of_mem he
  rw [presenceOf_getLsbD hkey] at hbit
  cases hbit

/-- Once it is built, the lookup is the one of the right side. -/
def IntegerJoinLookup.Ready (right : Source) (column : Nat) (x : IntegerJoinLookup) : Prop :=
  x.buckets.isSome = true → IntegerJoinLookup.build right column = .ok x

theorem IntegerJoinLookup.find_eq {x : IntegerJoinLookup} (hx : x.Ready right column) (k : Int) :
    ∃ x', x.find right column k = .ok (((keyedRows payload column right).filter fun e =>
      e.1 == k).map Prod.snd, x') ∧ x'.Ready right column := by
  obtain ⟨built, hbuild, hbuckets, hfilter⟩ := IntegerJoinLookup.build_eq hright column
  have hready : built.Ready right column := fun _ => hbuild
  have hfirst : x.prepared right column = .ok built := by
    rw [prepared]
    split
    · next hsome => exact (hx hsome).symm.trans hbuild
    · exact hbuild
  have hfound : Buckets.find (· == ·) k (built.buckets.getD []) =
      ((keyedRows payload column right).filter fun e => e.1 == k).map Prod.snd := by
    rw [hbuckets]
    exact Buckets.find_build (P := fun _ => True)
      ⟨fun _ => by simp, fun _ _ h => by simp only [beq_iff_eq] at *; exact h.symm,
        fun _ _ _ h h' => by simp only [beq_iff_eq] at *; exact h.trans h'⟩
      (fun _ _ => trivial) trivial
  refine ⟨built, ?_, hready⟩
  rw [IntegerJoinLookup.find, hfirst]
  show (if built.selective && !built.presence.getLsbD (bit k) then Except.ok ([], built)
    else .ok (Buckets.find (· == ·) k (built.buckets.getD []), built)) = _
  split
  · next hskip =>
      rw [Bool.and_eq_true, Bool.not_eq_true'] at hskip
      rw [← hfound, Buckets.find_eq_nil (hfilter hskip.1 k hskip.2)]
  · rw [hfound]

/-- Once they are built, the lookups are those of the right side. -/
structure NativeJoinLookup.Ready (addon : TypeAddon) (type : SqlType) (right : Source)
    (column : Nat) (x : NativeJoinLookup) : Prop where
  integers : x.integers.Ready right column
  keys : ∀ keys ∈ x.keys, NativeJoinLookup.build addon type right column = .ok keys

theorem NativeJoinLookup.build_eq (addon : TypeAddon) (type : SqlType) :
    NativeJoinLookup.build addon type right column =
      .ok (Buckets.build (addon.sameHashed type.parameters) (keyedRows id column right)) := by
  have hrows : (right.visitTableRows fun e => do
      modify (enter addon type column e)
      return true : StateT (List (Value × List Row)) (Except Error) Bool).run [] =
      .ok (true, Buckets.build (addon.sameHashed type.parameters) (keyedRows id column right)) := by
    rw [hright.visitTableRows_eq]
    simp only [bind_pure_comp]
    rw [Visit.run_visit_modify]
    exact congrArg (fun m => Except.ok (true, m)) (Buckets.foldl_push
      (fun e : RowLocation × RowView => (e.2.row.cell column).isNull)
      (fun e => e.2.row.cell column) (fun e => e.2.row) right.views)
  rw [build, hrows]
  rfl

end

/-! ## Hashed keys -/

section

variable {type : SqlType} {addon : TypeAddon} {equal : Bytes → Value → Value → Bool}
  (hlawful : registry.Lawful) (hkeyed : registry.Keyed type addon equal)
  (hnative : addon.nativeJoinKey = true) (hi64 : addon.nativeI64 = false) {a b : Value}

include hlawful hkeyed hnative hi64

/-- A hash table of native keys tells them apart by their equality. -/
theorem sameHashed_eq (ha : addon.Accepts type a) (hb : addon.Accepts type b) :
    addon.sameHashed type.parameters a b = equal type.parameters a b := by
  have hlaw := hlawful type addon hkeyed.registered hkeyed.allowed
  obtain ⟨hash, hhash⟩ : ∃ hash, addon.hash = some hash := by
    rw [TypeAddon.nativeJoinKey, hi64, Bool.false_or] at hnative
    simp only [Bool.and_eq_true] at hnative
    exact Option.isSome_iff_exists.mp hnative.1.1.2
  rw [TypeAddon.sameHashed, hhash, hkeyed.comparable, Bool.eq_iff_iff]
  simp only [Bool.and_eq_true, beq_iff_eq]
  exact ⟨fun h => h.2, fun h => ⟨hlaw.hash_equal hhash hkeyed.comparable ha hb h, h⟩⟩

theorem sameHashed_equivalence :
    Buckets.Equivalence (addon.sameHashed type.parameters) (addon.Accepts type) := by
  have hlaw := hlawful type addon hkeyed.registered hkeyed.allowed
  have hsame := fun {a b : Value} (ha : addon.Accepts type a) (hb : addon.Accepts type b) =>
    sameHashed_eq hlawful hkeyed hnative hi64 ha hb
  refine ⟨fun ha => ?_, fun ha hb h => ?_, fun ha hb hc h h' => ?_⟩
  · rw [hsame ha ha]
    exact hlaw.equal_refl hkeyed.comparable ha
  · rw [hsame ha hb] at h
    rw [hsame hb ha]
    exact hlaw.equal_symm hkeyed.comparable ha hb h
  · rw [hsame ha hb] at h
    rw [hsame hb hc] at h'
    rw [hsame ha hc]
    exact hlaw.equal_trans hkeyed.comparable ha hb hc h h'

end

/-- The rows under a key, when the table's test is equality with the join's
key. -/
theorem keyedRows_eq_partners (f : Value → κ) (test : κ → Bool)
    (h : ∀ e ∈ right.views, (e.2.row.cell j.right).isNull = false →
      test (f (e.2.row.cell j.right)) = j.comparison.equal key (e.2.row.cell j.right)) :
    ((keyedRows f j.right right).filter fun e => test e.1).map Prod.snd =
      (j.partners right key).map fun e => e.2.row := by
  rw [keyedRows, List.filter_map, List.map_map, List.filter_filter, EqualityJoin.partners]
  congr 1
  refine List.filter_congr fun e he => ?_
  cases hnull : (e.2.row.cell j.right).isNull with
  | true => simp
  | false => simp [h e he hnull]

section

variable (hlawful : registry.Lawful) (hj : j.Bound registry left right)
  (hkey : registry.Key j.type key) (hright : right.Readable registry)
include hlawful hj hkey hright

theorem NativeJoinLookup.find_eq {addon : TypeAddon}
    (haddon : registry.types j.type.id j.type.version = some addon)
    (hnative : addon.nativeJoinKey = true) {x : NativeJoinLookup}
    (hx : x.Ready addon j.type right j.right) : ∃ x', x.find addon j.type right j.right key =
      .ok ((j.partners right key).map fun e => e.2.row, x') ∧
        x'.Ready addon j.type right j.right := by
  obtain ⟨addon', equal, hkeyed, hc⟩ := hj.keyed
  obtain rfl : addon' = addon := Option.some.inj (hkeyed.registered.symm.trans haddon)
  have hlaw := hlawful j.type addon' haddon hkeyed.allowed
  have hvalue := hkeyed.accepts hkey
  have hequal : ∀ v, v.isNull = false → j.comparison.equal key v =
    equal j.type.parameters key v := by
    intro v hv
    simp [hc, Comparison.equal, hv, hkey.2, hkeyed.comparable]
  have hcell : ∀ e ∈ right.views, (e.2.row.cell j.right).isNull = false →
      addon'.Accepts j.type (e.2.row.cell j.right) := fun e he hnull =>
    hkeyed.accepts (hj.rightKey (hright.typed e he) hnull)
  rw [NativeJoinLookup.find]
  cases hi64 : addon'.nativeI64 with
  | true =>
    obtain ⟨integers, hfind, hready⟩ :=
      IntegerJoinLookup.find_eq hright j.right hx.integers (payload key)
    refine ⟨{ x with integers }, ?_, hready, hx.keys⟩
    rw [if_pos rfl, hfind, keyedRows_eq_partners payload (fun k => k == payload key)]
    · rfl
    · intro e he hnull
      rw [hequal _ hnull, Bool.eq_iff_iff, beq_iff_eq,
        hlaw.native_equal hi64 hkeyed.comparable hvalue (hcell e he hnull), eq_comm]
  | false =>
    have hequivalence := sameHashed_equivalence hlawful hkeyed hnative hi64
    have hbuild := NativeJoinLookup.build_eq hright j.right addon' j.type
    have hkeys : x.prepared addon' j.type right j.right =
        .ok (Buckets.build (addon'.sameHashed j.type.parameters)
          (keyedRows id j.right right)) := by
      rw [prepared]
      cases hsome : x.keys with
      | none => exact hbuild
      | some keys => exact (hx.keys keys hsome).symm.trans hbuild
    refine ⟨{ x with keys := some (Buckets.build (addon'.sameHashed j.type.parameters)
      (keyedRows id j.right right)) }, ?_, hx.integers, fun keys hk => ?_⟩
    · rw [if_neg (by simp), hkeys]
      show Except.ok (Buckets.find _ key _, _) = _
      rw [Buckets.find_build hequivalence _ hvalue,
        keyedRows_eq_partners id (fun k => addon'.sameHashed j.type.parameters k key)]
      · intro e he hnull
        have hc := hcell e he hnull
        rw [hequal _ hnull, id_eq, sameHashed_eq hlawful hkeyed hnative hi64 hc hvalue,
          Bool.eq_iff_iff]
        exact ⟨hlaw.equal_symm hkeyed.comparable hc hvalue,
          hlaw.equal_symm hkeyed.comparable hvalue hc⟩
      · intro e he
        obtain ⟨r, hr, rfl⟩ := List.mem_map.mp he
        obtain ⟨hr, hnull⟩ := List.mem_filter.mp hr
        exact hcell r hr (by simpa using hnull)
    · cases hk
      exact hbuild

end

/-! ## The loop -/

section

variable (hlawful : registry.Lawful) (hj : j.Bound registry left right)
  (hright : right.Readable registry) {σ : Type}
  (accept : RowView → Row → StateT σ (Except Error) Bool)
include hlawful hj hright

omit hlawful hj in
theorem visit_indexedRow (l : RowView) (hviews : right.views = right.toTable.views) :
    Visit.visit (fun location => do
      let other ← (right.indexedRow location : Except Error _)
      accept l other : RowLocation → StateT NativeJoinLookup (StateT σ (Except Error)) Bool)
      ((j.partners right key).map Prod.fst) =
    Visit.visit (fun r =>
      (accept l r.2.row : StateT NativeJoinLookup (StateT σ (Except Error)) Bool))
      (j.partners right key) := by
  rw [Visit.visit_map]
  refine Visit.visit_congr fun e he => ?_
  have he := (List.mem_filter.mp he).1
  rw [hviews] at he
  rw [hright.indexedRow_eq he]
  rfl

/-- One left row: nothing when its key is NULL, and otherwise its partners,
whatever was built before. -/
theorem joinRow_run {addon : TypeAddon}
    (haddon : registry.types j.type.id j.type.version = some addon) {l : RowView}
    (hl : RowTyped registry left.columns l.row) {x : NativeJoinLookup}
    (hx : x.Ready addon j.type right j.right) :
    ∃ x', x'.Ready addon j.type right j.right ∧ (joinRow registry right accept j l).run x =
      (fun more => (more, x')) <$> Visit.visit (fun r => accept l r.2.row)
        (if (l.row.cell j.left).isNull then [] else j.partners right (l.row.cell j.left)) := by
  rw [joinRow]
  cases hnull : (l.row.cell j.left).isNull with
  | true => exact ⟨x, hx, by simp⟩
  | false =>
    have hkey := hj.leftKey hl hnull
    simp only [Bool.false_eq_true, if_false]
    cases hordered : j.ordered with
    | some i =>
      obtain ⟨hrows, hviews⟩ := orderedRows_eq hlawful hj hkey hright hordered
      refine ⟨x, hx, ?_⟩
      simp only [hrows]
      rw [visit_indexedRow hright accept l hviews]
      exact Visit.run_visit_lift _ _ _
    | none =>
      cases hindexed : j.indexed with
      | true =>
        obtain ⟨r, hr, hrows, hviews⟩ := primaryRow_eq hlawful hj hkey hright hindexed
        refine ⟨x, hx, ?_⟩
        simp only [if_true, hr]
        cases r with
        | none =>
          have hnil : j.partners right (l.row.cell j.left) = [] := by simpa using hrows.symm
          rw [hnil]
          rfl
        | some location =>
          rw [← Visit.run_visit_lift, ← visit_indexedRow hright accept l hviews, ← hrows,
            Option.toList_some, Visit.visit_singleton]
          rfl
      | false =>
        simp only [Bool.false_eq_true, if_false, addon_eq_ok.mpr haddon]
        cases hnative : addon.nativeJoinKey with
        | true =>
          obtain ⟨x', hfind, hx'⟩ :=
            NativeJoinLookup.find_eq hlawful hj hkey hright haddon hnative hx
          refine ⟨x', hx', ?_⟩
          have hvisit := Visit.run_visit_lift (fun row => accept l row)
            ((j.partners right (l.row.cell j.left)).map fun r => r.2.row) x'
          rw [Visit.visit_map (fun row => accept l row)] at hvisit
          rw [← hvisit, liftM, Fallible.lift_ok_bind, if_pos hnative]
          simp only [StateT.run_bind, StateT.run_get, pure_bind, hfind]
          rfl
        | false =>
          refine ⟨x, hx, ?_⟩
          rw [← Visit.run_visit_lift, liftM, Fallible.lift_ok_bind, if_neg (by simp [hnative]),
            hright.visitTableRows_eq, EqualityJoin.partners, Visit.visit_filter]
          congr 1
          refine Visit.visit_congr fun e he => ?_
          cases hother : (e.2.row.cell j.right).isNull with
          | true => simp [Comparison.equal, hother, hnull]
          | false => simp

end

/-- The join loop over sources that can be read: the acceptance step gets the
reference pairs. -/
theorem joinScan_eq_reference (hlawful : registry.Lawful) (hj : j.Bound registry left right)
    (hleft : left.Readable registry) (hright : right.Readable registry)
    (accept : RowView → Row → StateT σ (Except Error) Bool) :
    Prod.fst <$> (joinScan registry right accept left (some j)).run {} =
      Visit.visit (fun pair => accept pair.1 pair.2) (j.reference left right) := by
  obtain ⟨addon, equal, hkeyed, -⟩ := hj.keyed
  have hfresh : NativeJoinLookup.Ready addon j.type right j.right {} :=
    ⟨fun h => (nomatch h), fun _ h => (nomatch h)⟩
  rw [EqualityJoin.reference, Visit.visit_flatMap, Visit.visit_filter, joinScan]
  split
  · next hempty =>
      -- an empty right side has no partners for anyone
      have hnone : right.views = [] := by
        rw [hright.counted] at hempty
        exact List.length_eq_zero_iff.mp hempty
      have hskip : ∀ e ∈ left.views, (if !(e.2.row.cell j.left).isNull then
          Visit.visit (fun pair => accept pair.1 pair.2)
            ((j.partners right (e.2.row.cell j.left)).map fun r => (e.2, r.2.row))
          else pure true) = (pure true : StateT σ (Except Error) Bool) := by
        intro e _
        rw [EqualityJoin.partners, hnone]
        simp
      rw [Visit.visit_idle hskip]
      simp
  · rw [hleft.visitTableRows_eq]
    refine Visit.run_visit (NativeJoinLookup.Ready addon j.type right j.right) ?_ hfresh
    intro e he x hx
    obtain ⟨x', hx', hrun⟩ :=
      joinRow_run hlawful hj hright accept hkeyed.registered (hleft.typed e he) hx
    refine ⟨x', hx', hrun.trans ?_⟩
    rw [Visit.visit_map]
    cases (e.2.row.cell j.left).isNull <;> rfl

/-- **All equality-join strategies agree.** For every pair of sources, stored
tables with any indexes or views of them, every join of two columns of one
type that binds and every acceptance step, the join loop gives the acceptance
step the pairs of the reference list, in order, until the step ends the scan:
for each left row in scan order whose key is not NULL, every right row with
an equal key that is not NULL, in scan order. -/
theorem equality_join_visits_reference (registry : Registry) (left right : Source)
    (leftAlias rightAlias : Bytes) (l r : QueryExpr) (j : EqualityJoin) (σ : Type)
    (accept : RowView → Row → StateT σ (Except Error) Bool) (hlawful : registry.Lawful)
    (hleft : left.Ok registry) (hright : right.Ok registry)
    (hbind : bindEqualityJoin registry left right leftAlias rightAlias l r = .ok j) :
    Prod.fst <$> (joinScan registry right accept left (some j)).run {} =
      Visit.visit (fun pair => accept pair.1 pair.2) (j.reference left right) :=
  joinScan_eq_reference hlawful (bindEqualityJoin_bound hbind) hleft.readable hright.readable accept

/-- Join two tables of integers on their column, and ask something of it. -/
def askJoin (left right : List Int64) (definitions : List IndexDefinition)
    (ask : Source → Source → EqualityJoin → Bool) : Bool :=
  let column : Column := { name := lit "a", type := integerType }
  match (integersTable column [] left).rebuildIndexes failingRegistry,
      (integersTable column definitions right).rebuildIndexes failingRegistry with
  | .ok l, .ok r =>
    match bindEqualityJoin failingRegistry l.source r.source (lit "l") (lit "r")
        (.column (lit "r") (lit "a")) (.column (lit "l") (lit "a")) with
    | .ok j => l.rowCount == l.views.length && r.rowCount == r.views.length &&
        ask l.source r.source j
    | .error _ => false
  | _, _ => false

theorem of_askJoin (left right : List Int64) (definitions : List IndexDefinition)
    (ask : Source → Source → EqualityJoin → Bool) (h : askJoin left right definitions ask = true) :
    ∃ l r j, Source.Ok failingRegistry l ∧ Source.Ok failingRegistry r ∧
      bindEqualityJoin failingRegistry l r (lit "l") (lit "r") (.column (lit "r") (lit "a"))
        (.column (lit "l") (lit "a")) = .ok j ∧ ask l r j = true := by
  rw [askJoin] at h
  split at h
  · next l r hl hr =>
      split at h
      · next j hj =>
          simp only [Bool.and_eq_true, beq_iff_eq] at h
          exact ⟨l.source, r.source, j, (integersTable_consistent rfl hl).source h.1.1,
            (integersTable_consistent rfl hr).source h.1.2, hj, h.2⟩
      · cases h
  · cases h

/-- Duplicate keys on both sides, found through an ordered index. -/
theorem equality_join_visits_reference_ordered :
    ∃ l r j, j.ordered.isSome = true ∧
      (∀ (σ : Type) (accept : RowView → Row → StateT σ (Except Error) Bool),
        Prod.fst <$> (joinScan failingRegistry r accept l (some j)).run {} =
          Visit.visit (fun pair => accept pair.1 pair.2) (j.reference l r)) ∧
      (j.reference l r).map (fun pair => (pair.1.id, pair.2)) =
        [(some 1, [.integer 2]), (some 1, [.integer 2]), (some 3, [.integer 2]),
          (some 3, [.integer 2])] := by
  obtain ⟨l, r, j, hl, hr, hj, hask⟩ := of_askJoin [2, 1, 2] [2, 3, 2]
    [{ name := lit "i", columns := [lit "a"] }]
    (fun l r j => j.ordered.isSome && (j.reference l r).map (fun pair => (pair.1.id, pair.2)) =
      [(some 1, [.integer 2]), (some 1, [.integer 2]), (some 3, [.integer 2]),
        (some 3, [.integer 2])])
    (by decide +kernel)
  rw [Bool.and_eq_true, decide_eq_true_eq] at hask
  exact ⟨l, r, j, hask.1, fun σ accept => equality_join_visits_reference failingRegistry l r _ _ _ _
    j σ accept failingRegistry_lawful hl hr hj, hask.2⟩

end CoreSql
