import CoreSql.Lib.Triple
import CoreSql.Proofs.PredicateReuse
import CoreSql.Proofs.Selection
import CoreSql.Query.Paging
import Mathlib.Data.List.ReduceOption

/-!
# When the memos of a cross join are right

A memo is keyed by the address of a row. While the row is in memory that is
as good as the row itself, but a memo outlives the chunk it refers to: it is
replaced only when its conjunct is reached again, and the rows of later
chunks may all be turned away by a conjunct before it. By then the chunk can
be gone and another one can be where it was.

The scan is sound as long as no chunk is read to an address that a memo still
names. That is what the invariant says: the memos name no row of a chunk that
is still to come, and what a memo says of a row of the current chunk is true
of that row. A row that is in memory keeps its address to itself, so calling
`truth` on it cannot break the first half; reading a page can, and does.
-/

namespace CoreSql

variable {storage : Storage} {b c : Block}

/-! ## What a run writes down -/

namespace Event

/-- A page is read to where nothing is that is still in memory. -/
def Admissible (fixed : List Block) : Event → Prop
  | loaded block live _ => ∀ b ∈ live ++ fixed, block.Apart b
  | called .. => True

/-- A page is not read to an address that a memo names. -/
def Fresh : Event → Prop
  | loaded block _ predicate =>
    ∀ e ∈ predicate.memos, ∀ address ∈ e.1.left, ¬block.Contains address
  | called .. => True

/-- Every call of `truth` on the pair, whichever node it is on, answers as
`truth_uncached` does. -/
def Sound : Event → Prop
  | loaded .. => True
  | called address v predicate =>
    ∀ n ∈ predicate.nodes, Prod.fst <$> n.truth address v = n.truthUncached v

instance (fixed : List Block) (e : Event) : Decidable (e.Admissible fixed) :=
  match e with
  | loaded block live _ => inferInstanceAs (Decidable (∀ b ∈ live ++ fixed, block.Apart b))
  | called .. => inferInstanceAs (Decidable True)

instance (e : Event) : Decidable e.Fresh :=
  match e with
  | loaded block _ predicate => inferInstanceAs (Decidable
      (∀ m ∈ predicate.memos, ∀ address ∈ m.1.left, ¬block.Contains address))
  | called .. => inferInstanceAs (Decidable True)

end Event

/-! ## The pager -/

section

variable {σ : Type} {storage : Storage} {retention : Retention σ} {s s' : ScanState σ}
  {page base p : Nat}

theorem evict_subset (pinned : Nat → Bool) (cache : List Nat) (resident : Nat) :
    (evict storage pinned cache resident).1 ⊆ cache := by
  induction cache generalizing resident with
  | nil => exact List.Subset.refl _
  | cons p rest ih =>
    rw [evict]
    split
    · exact List.Subset.refl _
    · split
      · exact List.cons_subset_cons p (ih resident)
      · exact List.subset_cons_of_subset p (ih _)

theorem mem_evict {pinned : Nat → Bool} {cache : List Nat} (hp : pinned p = true)
    (hmem : p ∈ cache) (resident : Nat) : p ∈ (evict storage pinned cache resident).1 := by
  induction cache generalizing resident with
  | nil => cases hmem
  | cons q rest ih =>
    rw [evict]
    split
    · exact hmem
    · split
      · rcases List.mem_cons.mp hmem with rfl | hmem
        · exact List.mem_cons_self
        · exact List.mem_cons_of_mem _ (ih hmem _)
      · next hq =>
          rcases List.mem_cons.mp hmem with rfl | hmem
          · exact absurd hp hq
          · exact ih hmem _

namespace ScanState

theorem mem_alive {e : Nat × Nat} :
    e ∈ s.alive retention ↔ e ∈ s.loaded ∧ s.live retention e.1 = true := List.mem_filter

theorem mem_pins : page ∈ s.pins retention ↔ s.leftChunk = some page ∨
    s.rightChunk = some page ∨ s.leftPin = some page ∨ s.rightPin = some page ∨
      page ∈ retention.held s.out := by
  simp [pins, List.reduceOption_mem_iff, eq_comm, or_assoc]

theorem live_of_cache (h : page ∈ s.cache) : s.live retention page = true := by
  simp [live, h]

theorem live_of_pin (h : page ∈ s.pins retention) : s.live retention page = true := by
  simp [live, h]

/-- What pinning a page does: the page is in memory now, what was in memory
and stays there stays where it is, and nothing else comes back. If the page
had to be read, that was written down. -/
structure Pinned (storage : Storage) (retention : Retention σ) (page : Nat) (s : ScanState σ)
    (base : Nat) (s' : ScanState σ) : Prop where
  same : s' = { s with cache := s'.cache, resident := s'.resident, loaded := s'.loaded,
                       loads := s'.loads, events := s'.events }
  cached : page ∈ s'.cache
  placed : (page, base) ∈ s'.loaded
  distinct : (s.loaded.map Prod.fst).Nodup → (s'.loaded.map Prod.fst).Nodup
  alive : ∀ e ∈ s'.alive retention, e ∈ s.alive retention ∨ e = (page, base)
  kept : ∀ e ∈ s.alive retention, e ∈ s'.loaded
  event : s'.events = s.events ∧ (page, base) ∈ s.alive retention ∨
    s'.events = s.events ++ [.loaded ⟨base, storage.rows page⟩
      ((s.alive retention).map fun e => ⟨e.2, storage.rows e.1⟩) s.predicate]

theorem retain_cache (page : Nat) (s : ScanState σ) :
    page ∈ (s.retain storage retention page).cache ∧
      ∀ p ∈ (s.retain storage retention page).cache, p ∈ s.cache ∨ p = page := by
  have hbefore : ∀ cache resident, (if s.cache.contains page then
      (s.cache.erase page ++ [page], s.resident)
      else (s.cache ++ [page], s.resident + storage.footprint page)) = (cache, resident) →
      page ∈ cache ∧ ∀ p ∈ cache, p ∈ s.cache ∨ p = page := by
    intro cache resident h
    split at h
    · cases h
      refine ⟨by simp, fun p hp => ?_⟩
      rcases List.mem_append.mp hp with hp | hp
      · exact .inl (List.mem_of_mem_erase hp)
      · exact .inr (List.mem_singleton.mp hp)
    · cases h
      refine ⟨by simp, fun p hp => ?_⟩
      rcases List.mem_append.mp hp with hp | hp
      · exact .inl hp
      · exact .inr (List.mem_singleton.mp hp)
  rw [retain]
  generalize hgrown : (if s.cache.contains page then
      (s.cache.erase page ++ [page], s.resident)
      else (s.cache ++ [page], s.resident + storage.footprint page)) = grown
  obtain ⟨cache, resident⟩ := grown
  obtain ⟨hmem, hsub⟩ := hbefore cache resident hgrown
  exact ⟨mem_evict (by simp) hmem resident,
    fun p hp => hsub p (evict_subset _ cache resident hp)⟩

theorem live_retain (h : (s.retain storage retention page).live retention p = true) :
    s.live retention p = true ∨ p = page := by
  rw [live, Bool.or_eq_true] at h
  rcases h with h | h
  · rcases (retain_cache page s).2 p (by simpa using h) with h | h
    · exact .inl (live_of_cache h)
    · exact .inr h
  · exact .inl (live_of_pin (List.contains_iff_mem.mp h))

theorem pin_pinned (storage : Storage) (retention : Retention σ) (page : Nat) (s : ScanState σ) :
    Pinned storage retention page s (s.pin storage retention page).1
      (s.pin storage retention page).2 := by
  rw [pin]
  split
  · next base hlock =>
      rw [lock] at hlock
      split at hlock
      · next hlive =>
          have hplaced : (page, base) ∈ s.loaded := by
            rw [List.lookup_eq_some_iff] at hlock
            obtain ⟨l₁, l₂, heq, -⟩ := hlock
            simp [heq]
          exact {
            same := rfl
            cached := (retain_cache page s).1
            placed := hplaced
            distinct := id
            alive := fun e he => by
              obtain ⟨hmem, hl⟩ := mem_alive.mp he
              rcases live_retain hl with hl | hl
              · exact .inl (mem_alive.mpr ⟨hmem, hl⟩)
              · exact .inl (mem_alive.mpr ⟨hmem, by rw [hl]; exact hlive⟩)
            kept := fun e he => (mem_alive.mp he).1
            event := .inl ⟨rfl, mem_alive.mpr ⟨hplaced, hlive⟩⟩ }
      · cases hlock
  · next hlock =>
      -- whatever is in memory belongs to another page
      have hother : ∀ e ∈ s.alive retention, e.1 ≠ page := by
        rintro e he rfl
        obtain ⟨hmem, hlive⟩ := mem_alive.mp he
        rw [lock, if_pos hlive, List.lookup_eq_none_iff] at hlock
        simpa using hlock e hmem
      let base := storage.place s.loads
      have hloaded : (((s.load storage retention page).retain storage retention page).loaded) =
          (page, base) :: s.loaded.filter (·.1 != page) := rfl
      exact {
        same := rfl
        cached := (retain_cache page _).1
        placed := by rw [hloaded]; exact List.mem_cons_self
        distinct := fun hnodup => by
          rw [hloaded, List.map_cons, List.nodup_cons]
          refine ⟨fun hmem => ?_, hnodup.sublist (List.filter_sublist.map _)⟩
          obtain ⟨e, he, hpage⟩ := List.mem_map.mp hmem
          simp [hpage] at he
        alive := fun e he => by
          obtain ⟨hmem, hl⟩ := mem_alive.mp he
          rw [hloaded, List.mem_cons] at hmem
          rcases hmem with rfl | hmem
          · exact .inr rfl
          · obtain ⟨hmem, hne⟩ := List.mem_filter.mp hmem
            rcases live_retain hl with hl | hl
            · exact .inl (mem_alive.mpr ⟨hmem, hl⟩)
            · simp [hl] at hne
        kept := fun e he => by
          rw [hloaded]
          exact List.mem_cons_of_mem _ (List.mem_filter.mpr
            ⟨(mem_alive.mp he).1, by simpa using hother e he⟩)
        event := .inr rfl }

end ScanState

end

/-! ## The scan -/

namespace PagedSource

/-- A left table: its rows are where the selection says and as wide as the
table, its resident chunks are in different places and its paged chunks on
pages of their own. -/
structure Ok (storage : Storage) (s : PagedSource) : Prop where
  inOrder : s.toTable.InOrder
  selected : ∀ rows ∈ s.selection,
    rows.Pairwise (· < ·) ∧ ∀ l ∈ rows, ∃ e ∈ s.toTable.views, e.1 = l
  width : ∀ e ∈ s.toTable.views, e.2.row.length = s.columns.length
  apart : ∀ e ∈ s.chunks, ∀ e' ∈ s.chunks, e.1 ≠ e'.1 → ∀ b b',
    s.reference e.1 = .resident b → s.reference e'.1 = .resident b' →
      Block.Apart ⟨b, e.2.rows.length⟩ ⟨b', e'.2.rows.length⟩
  pages : ∀ e ∈ s.chunks, ∀ e' ∈ s.chunks, e.1 ≠ e'.1 → ∀ p,
    s.reference e.1 = .paged p → s.reference e'.1 ≠ .paged p
  sized : ∀ e ∈ s.chunks, ∀ p, s.reference e.1 = .paged p → storage.rows p = e.2.rows.length

/-- The chunks that are in memory whatever the pager does. -/
def residents (s : PagedSource) : List Block :=
  s.chunks.filterMap fun e =>
    match s.reference e.1 with
    | .resident base => some ⟨base, e.2.rows.length⟩
    | .paged _ => none

theorem mem_residents {s : PagedSource} {e : Nat × Chunk} {base : Nat} (he : e ∈ s.chunks)
    (href : s.reference e.1 = .resident base) : ⟨base, e.2.rows.length⟩ ∈ s.residents :=
  List.mem_filterMap.mpr ⟨e, he, by rw [href]⟩

end PagedSource

theorem PagedSource.Ok.openGroup {s : PagedSource} (h : s.Ok storage)
    {g : Group} (hg : g ∈ s.groups) :
    ∃ c positions, s.toTable.openGroup g = .ok (c, positions) ∧ (g.chunk, c) ∈ s.chunks ∧
      ∀ i ∈ positions, i < c.rows.length := by
  rw [Source.groups] at hg
  split at hg
  · obtain ⟨e, he, rfl⟩ := List.mem_map.mp hg
    refine ⟨e.2, List.range e.2.rows.length, ?_, he, fun i hi => List.mem_range.mp hi⟩
    rw [Table.openGroup, h.inOrder.sorted.find_of_mem he]
  · next rows hselection =>
      obtain ⟨-, hreal⟩ := h.selected rows hselection
      obtain ⟨hflat, hspec⟩ := groupRows_spec rows
      obtain ⟨ls, hls, hne, hchunk⟩ := hspec g hg
      have hmem : ∀ l ∈ ls, l ∈ rows := fun l hl => by
        rw [← hflat]
        exact List.mem_flatMap.mpr ⟨g, hg, by simpa [hls] using hl⟩
      obtain ⟨c, hopen, hfind, -⟩ :=
        h.inOrder.openGroup_eq hls hne hchunk fun l hl => hreal l (hmem l hl)
      refine ⟨c, _, hopen, SortedMap.mem_of_find hfind, fun i hi => ?_⟩
      obtain ⟨l, hl, rfl⟩ := List.mem_map.mp hi
      obtain ⟨e, he, rfl⟩ := hreal l (hmem l hl)
      obtain ⟨c', hfind', hlt, -⟩ := h.inOrder.mem_views he
      rw [hchunk _ hl, hfind] at hfind'
      cases hfind'
      exact hlt

theorem groupRows_sorted {rows : List RowLocation} (h : rows.Pairwise (· < ·)) :
    (groupRows rows).Pairwise fun g g' => g.chunk < g'.chunk := by
  induction rows with
  | nil => exact List.Pairwise.nil
  | cons l rest ih =>
    obtain ⟨hl, hrest⟩ := List.pairwise_cons.mp h
    obtain ⟨hflat, hspec⟩ := groupRows_spec rest
    have ih := ih hrest
    have hle : ∀ g ∈ groupRows rest, l.chunk ≤ g.chunk := by
      intro g hg
      obtain ⟨ls, hls, hne, hchunk⟩ := hspec g hg
      obtain ⟨l', hl'⟩ := List.exists_mem_of_ne_nil ls hne
      have hmem : l' ∈ rest := by
        rw [← hflat]
        exact List.mem_flatMap.mpr ⟨g, hg, by simpa [hls] using hl'⟩
      rw [← hchunk l' hl']
      rcases RowLocation.lt_iff.mp (hl l' hmem) with hlt | ⟨heq, -⟩
      · exact Nat.le_of_lt hlt
      · exact Nat.le_of_eq heq
    rw [groupRows]
    cases hgroups : groupRows rest with
    | nil => exact List.pairwise_singleton _ _
    | cons g gs =>
      rw [hgroups] at ih hle
      obtain ⟨hg, hgs⟩ := List.pairwise_cons.mp ih
      simp only
      split
      · next heq => exact List.pairwise_cons.mpr ⟨fun g' hg' => heq ▸ hg g' hg', hgs⟩
      · next hne =>
          have hlt : l.chunk < g.chunk :=
            lt_of_le_of_ne (hle g List.mem_cons_self) (Ne.symm hne)
          refine List.pairwise_cons.mpr ⟨fun g' hg' => ?_, ih⟩
          rcases List.mem_cons.mp hg' with rfl | hg'
          · exact hlt
          · exact hlt.trans (hg g' hg')

theorem PagedSource.Ok.groups_sorted {s : PagedSource} (h : s.Ok storage) :
    s.groups.Pairwise fun g g' => g.chunk < g'.chunk := by
  rw [Source.groups]
  split
  · exact List.pairwise_map.mpr h.inOrder.sorted
  · next rows hselection => exact groupRows_sorted (h.selected rows hselection).1

theorem Block.Apart.symm (h : b.Apart c) : c.Apart b := by
  unfold Block.Apart at h ⊢
  omega

theorem Block.Apart.not_contains (h : b.Apart c) {address : Nat}
    (hb : b.Contains address) : ¬c.Contains address := by
  unfold Block.Apart at h
  unfold Block.Contains at hb ⊢
  omega

namespace CrossScan

variable {σ : Type} (scan : CrossScan σ) {todo' : List Nat} {page base' id : Nat} {e' : Nat × Chunk}
  {chunk chunk' : Option Nat}

/-- The chunks of both tables that are in memory whatever the pager does. -/
def residents : List Block := scan.left.residents ++ scan.right.residents

/-- Nothing was read to where it must not be. -/
def Fine (events : List Event) : Prop := ∀ e ∈ events, e.Admissible scan.residents ∧ e.Fresh

/-- Where the rows of a left chunk are, when they are anywhere. -/
def Placed (id base : Nat) (s : ScanState σ) : Prop :=
  match scan.left.reference id with
  | .resident b => base = b
  | .paged p => (p, base) ∈ s.alive scan.retention

/-- The invariant between two left chunks, `todo` being those to come. -/
structure Good (todo : List Nat) (s : ScanState σ) : Prop where
  distinct : (s.loaded.map Prod.fst).Nodup
  apart : ∀ e ∈ s.alive scan.retention, ∀ e' ∈ s.alive scan.retention, e.1 ≠ e'.1 →
    Block.Apart ⟨e.2, scan.storage.rows e.1⟩ ⟨e'.2, scan.storage.rows e'.1⟩
  fixed : ∀ e ∈ s.alive scan.retention, ∀ b ∈ scan.residents,
    Block.Apart ⟨e.2, scan.storage.rows e.1⟩ b
  leftOnly : ∀ e ∈ s.predicate.memos, LeftOnly scan.left.columns.length e.2
  ahead : ∀ e ∈ scan.left.chunks, e.1 ∈ todo → ∀ base, scan.Placed e.1 base s →
    ∀ m ∈ s.predicate.memos, ∀ address ∈ m.1.left,
      ¬Block.Contains ⟨base, e.2.rows.length⟩ address

/-- The invariant while the rows of a left chunk are visited: what the memos
say of its rows is so. -/
structure Here (e : Nat × Chunk) (base : Nat) (s : ScanState σ) : Prop where
  pinned : s.leftPin = (scan.left.reference e.1).page
  placed : scan.Placed e.1 base s
  agrees : ∀ m ∈ s.predicate.memos, ∀ i < e.2.rows.length, m.1.left = some (base + i) →
    m.2.truth (e.2.view i) = .ok m.1.truth

variable {scan} {todo : List Nat} {e : Nat × Chunk} {base : Nat} {s s' : ScanState σ}

theorem Good.mono (h : scan.Good todo s) (hnodup : (s'.loaded.map Prod.fst).Nodup)
    (halive : s'.alive scan.retention ⊆ s.alive scan.retention)
    (hpredicate : s'.predicate = s.predicate) : scan.Good todo s' where
  distinct := hnodup
  apart e he e' he' := h.apart e (halive he) e' (halive he')
  fixed e he := h.fixed e (halive he)
  leftOnly := by rw [hpredicate]; exact h.leftOnly
  ahead e he htodo base hplaced := by
    rw [hpredicate]
    refine h.ahead e he htodo base ?_
    unfold Placed at hplaced ⊢
    split at hplaced
    · exact hplaced
    · exact halive hplaced

theorem Good.weaken (h : scan.Good todo s) (hsub : todo' ⊆ todo) : scan.Good todo' s :=
  { h with ahead := fun e he htodo => h.ahead e he (hsub htodo) }

theorem Here.mono (h : scan.Here e base s) (hpin : s'.leftPin = s.leftPin)
    (hkept : ∀ e ∈ s.alive scan.retention, e ∈ s'.loaded)
    (hpredicate : s'.predicate = s.predicate) : scan.Here e base s' where
  pinned := hpin.trans h.pinned
  placed := by
    have hplaced := h.placed
    have hpinned := hpin.trans h.pinned
    unfold Placed at hplaced ⊢
    split
    · next b href => rwa [href] at hplaced
    · next p href =>
        rw [href] at hplaced hpinned
        refine ScanState.mem_alive.mpr ⟨hkept _ hplaced, ScanState.live_of_pin ?_⟩
        exact ScanState.mem_pins.mpr (.inr (.inr (.inl hpinned)))
  agrees := by rw [hpredicate]; exact h.agrees

theorem Good.pin (hleft : scan.left.Ok scan.storage) (h : scan.Good todo s)
    (hpin : s.Pinned scan.storage scan.retention page base s') (hfine : scan.Fine s'.events) :
    scan.Good todo s' := by
  have hpredicate : s'.predicate = s.predicate := by rw [hpin.same]
  rcases hpin.event with ⟨-, hmem⟩ | hevent
  · refine h.mono (hpin.distinct h.distinct) (fun e he => ?_) hpredicate
    rcases hpin.alive e he with he | rfl
    · exact he
    · exact hmem
  obtain ⟨hadmissible, hfresh⟩ :=
    hfine _ (by rw [hevent]; exact List.mem_append_right _ List.mem_cons_self)
  have hnew : ∀ e ∈ s.alive scan.retention,
      Block.Apart ⟨base, scan.storage.rows page⟩ ⟨e.2, scan.storage.rows e.1⟩ := fun e he =>
    hadmissible _ (List.mem_append_left _ (List.mem_map.mpr ⟨e, he, rfl⟩))
  refine ⟨hpin.distinct h.distinct, fun e he e' he' hne => ?_, fun e he b hb => ?_,
    by rw [hpredicate]; exact h.leftOnly, fun e he htodo b hplaced m hm address hleft' => ?_⟩
  · rcases hpin.alive e he with he | rfl <;> rcases hpin.alive e' he' with he' | rfl
    · exact h.apart e he e' he' hne
    · exact (hnew e he).symm
    · exact hnew e' he'
    · exact absurd rfl hne
  · rcases hpin.alive e he with he | rfl
    · exact h.fixed e he b hb
    · exact hadmissible b (List.mem_append_right _ hb)
  · rw [hpredicate] at hm
    cases href : scan.left.reference e.1 with
    | resident b' =>
      refine h.ahead e he htodo b ?_ m hm address hleft'
      simpa only [Placed, href] using hplaced
    | paged p =>
      simp only [Placed, href] at hplaced
      rcases hpin.alive _ hplaced with hplaced | heq
      · refine h.ahead e he htodo b ?_ m hm address hleft'
        simpa only [Placed, href] using hplaced
      · cases heq
        rw [← hleft.sized e he _ href]
        exact hfresh m hm address hleft'

theorem Good.placed_apart (hleft : scan.left.Ok scan.storage) (h : scan.Good todo s)
    (he : e ∈ scan.left.chunks) (he' : e' ∈ scan.left.chunks)
    (hne : e.1 ≠ e'.1) (hplaced : scan.Placed e.1 base s) (hplaced' : scan.Placed e'.1 base' s) :
    Block.Apart ⟨base, e.2.rows.length⟩ ⟨base', e'.2.rows.length⟩ := by
  cases href : scan.left.reference e.1 with
  | resident b =>
    obtain rfl : base = b := by simpa only [Placed, href] using hplaced
    have hresident := List.mem_append_left scan.right.residents
      (PagedSource.mem_residents he href)
    cases href' : scan.left.reference e'.1 with
    | resident b' =>
      obtain rfl : base' = b' := by simpa only [Placed, href'] using hplaced'
      exact hleft.apart e he e' he' hne base base' href href'
    | paged p' =>
      simp only [Placed, href'] at hplaced'
      rw [← hleft.sized e' he' p' href']
      exact (h.fixed _ hplaced' _ hresident).symm
  | paged p =>
    simp only [Placed, href] at hplaced
    rw [← hleft.sized e he p href]
    cases href' : scan.left.reference e'.1 with
    | resident b' =>
      obtain rfl : base' = b' := by simpa only [Placed, href'] using hplaced'
      exact h.fixed _ hplaced _ (List.mem_append_left _ (PagedSource.mem_residents he' href'))
    | paged p' =>
      simp only [Placed, href'] at hplaced'
      rw [← hleft.sized e' he' p' href']
      refine h.apart _ hplaced _ hplaced' ?_
      rintro rfl
      exact hleft.pages e he e' he' hne p href href'

section

variable {i : Nat} {v : RowView} (hleft : scan.left.Ok scan.storage)
  (he : e ∈ scan.left.chunks) (hi : i < e.2.rows.length)
  (hrow : v.row.take scan.left.columns.length = (e.2.view i).row.take scan.left.columns.length)
  (hid : v.id = (e.2.view i).id)
include hi hrow hid

theorem Here.sound (hgood : scan.Good todo s) (hhere : scan.Here e base s) :
    (Event.called (base + i) v s.predicate).Sound := by
  intro n hn
  refine n.truth_eq fun m hm haddress => ?_
  have hmemo := s.predicate.nodes_memos n hn hm
  rw [hgood.leftOnly m hmemo v (e.2.view i) hrow hid]
  exact hhere.agrees m hmemo i hi haddress

include hleft he

/-- Calling `truth` leaves memos that are right: those it replaced are about
the row it was called on. -/
theorem Good.call (hfresh : e.1 ∉ todo) (hgood : scan.Good todo s) (hhere : scan.Here e base s)
    {t : Truth} {r : Reused} (hcall : s.predicate.truth (base + i) v = .ok (t, r)) :
    scan.Good todo { s with predicate := r } ∧ scan.Here e base { s with predicate := r } := by
  have hsteps := s.predicate.truth_memos hcall
  have hstep : ∀ m' ∈ r.memos, ∃ m ∈ s.predicate.memos, Memo.Step (base + i) v m m' :=
    fun m' hm' => Lists.forall₂_mem_right hsteps hm'
  have hleftOnly : ∀ m' ∈ r.memos, LeftOnly scan.left.columns.length m'.2 := by
    intro m' hm'
    obtain ⟨m, hm, hsame, -⟩ := hstep m' hm'
    rw [hsame]
    exact hgood.leftOnly m hm
  refine ⟨{ hgood with leftOnly := hleftOnly, ahead := ?_ }, { hhere with agrees := ?_ }⟩
  · intro e' he' htodo base' hplaced m' hm' address haddress
    obtain ⟨m, hm, -, rfl | ⟨hnow, -⟩⟩ := hstep m' hm'
    · exact hgood.ahead e' he' htodo base' hplaced m' hm address haddress
    · have hne : e.1 ≠ e'.1 := fun h => hfresh (h ▸ htodo)
      rw [hnow] at haddress
      cases haddress
      refine (hgood.placed_apart hleft he he' hne hhere.placed hplaced).not_contains ?_
      exact ⟨Nat.le_add_right _ _, Nat.add_lt_add_left hi _⟩
  · intro m' hm' j hj haddress
    obtain ⟨m, hm, hsame, rfl | ⟨hnow, htruth⟩⟩ := hstep m' hm'
    · exact hhere.agrees m' hm j hj haddress
    · obtain rfl : i = j := by
        rw [hnow] at haddress
        have := Option.some.inj haddress
        omega
      rw [hleftOnly m' hm' _ v hrow.symm hid.symm, hsame]
      exact htruth

end

/-! ### Runs

Everything below holds of a run as long as nothing was read to where it must
not be; `Sure` says so once. What a run was told or what it stopped with does
not matter, only what it wrote down. -/

/-- While nothing was read to where it must not be, the state is as it should
be and the calls written down were sound. -/
def Sure (scan : CrossScan σ) (G : ScanState σ → Prop) (s : ScanState σ) : Prop :=
  scan.Fine s.events → G s ∧ ∀ e ∈ s.events, e.Sound

/-- All that is left to know of a run that is over. -/
abbrev Over (scan : CrossScan σ) : ScanState σ → Prop := scan.Sure fun _ => True

variable {G G' : ScanState σ → Prop}

theorem Sure.over (h : scan.Sure G s) : scan.Over s := fun hfine => ⟨trivial, (h hfine).2⟩

theorem Sure.mono (h : scan.Sure G s) (hevents : s'.events = s.events) (hG : G s → G' s') :
    scan.Sure G' s' := by
  intro hfine
  rw [hevents] at hfine ⊢
  obtain ⟨hg, hsound⟩ := h hfine
  exact ⟨hG hg, hsound⟩

/-- The invariant of the loop over the left chunks. -/
structure Between (scan : CrossScan σ) (todo : List Nat) (s : ScanState σ) : Prop where
  good : scan.Good todo s
  loop : s.rightChunk = none

/-- The invariant inside the loop over the right rows. -/
structure Inside (scan : CrossScan σ) (todo : List Nat) (e : Nat × Chunk) (base : Nat)
    (chunk : Option Nat) (s : ScanState σ) : Prop where
  good : scan.Good todo s
  here : scan.Here e base s
  loop : s.rightChunk = chunk

/-- Holding other pages changes nothing, as long as they are in memory. -/
theorem Good.release (h : scan.Good todo s) (hloaded : s'.loaded = s.loaded)
    (hcache : s'.cache = s.cache) (hpredicate : s'.predicate = s.predicate)
    (hpins : ∀ p ∈ s'.pins scan.retention, s.live scan.retention p = true) : scan.Good todo s' := by
  refine h.mono (by rw [hloaded]; exact h.distinct) (fun e he => ?_) hpredicate
  obtain ⟨hmem, hlive⟩ := ScanState.mem_alive.mp he
  rw [hloaded] at hmem
  refine ScanState.mem_alive.mpr ⟨hmem, ?_⟩
  rw [ScanState.live, Bool.or_eq_true, hcache] at hlive
  rcases hlive with hlive | hlive
  · exact ScanState.live_of_cache (List.contains_iff_mem.mp hlive)
  · exact hpins _ (List.contains_iff_mem.mp hlive)

theorem Inside.release (h : scan.Inside todo e base chunk s)
    (hloaded : s'.loaded = s.loaded) (hcache : s'.cache = s.cache)
    (hpredicate : s'.predicate = s.predicate) (hleftPin : s'.leftPin = s.leftPin)
    (hchunk : s'.rightChunk = chunk')
    (hpins : ∀ p ∈ s'.pins scan.retention, s.live scan.retention p = true) :
    scan.Inside todo e base chunk' s' where
  good := h.good.release hloaded hcache hpredicate hpins
  here := h.here.mono hleftPin
    (fun _ he => by rw [hloaded]; exact (ScanState.mem_alive.mp he).1) hpredicate
  loop := hchunk

section

variable {i : Nat} {v : RowView} {chunk : Option Nat} (hleft : scan.left.Ok scan.storage)
  (he : e ∈ scan.left.chunks) (hfresh : e.1 ∉ todo) (hi : i < e.2.rows.length)
  (hrow : v.row.take scan.left.columns.length = (e.2.view i).row.take scan.left.columns.length)
  (hid : v.id = (e.2.view i).id)
include hleft he hfresh hi hrow hid

theorem test_triple : Triple (scan.Sure (scan.Inside todo e base chunk))
    (scan.test (base + i) v) (fun _ => scan.Sure (scan.Inside todo e base chunk)) scan.Over := by
  rw [test]
  split
  · exact Triple.pure fun s hs => hs
  · refine Triple.get fun s hs => ?_
    refine Triple.bind (Q := fun _ s' => s' = s.call (base + i) v) (Triple.modify ?_) fun _ => ?_
    · rintro s' rfl
      rfl
    have hcalled : scan.Sure (scan.Inside todo e base chunk) (s.call (base + i) v) := by
      intro hfine
      obtain ⟨hin, hsound⟩ := hs fun e he => hfine e (List.mem_append_left _ he)
      refine ⟨⟨{ hin.good with }, { hin.here with }, hin.loop⟩, fun e' he' => ?_⟩
      rcases List.mem_append.mp he' with he' | he'
      · exact hsound e' he'
      · obtain rfl := List.mem_singleton.mp he'
        exact hin.here.sound hi hrow hid hin.good
    refine Triple.bind (Q := fun a s' => s' = s.call (base + i) v ∧
        s.predicate.truth (base + i) v = .ok a)
      (Triple.lift (fun a ha s' hs' => ⟨hs', ha⟩) fun s' hs' => hs' ▸ hcalled.over) fun a => ?_
    obtain ⟨t, r⟩ := a
    refine Triple.bind (Q := fun _ => scan.Sure (scan.Inside todo e base chunk))
      (Triple.modify ?_) fun _ => Triple.pure fun s hs => hs
    rintro s' ⟨rfl, htruth⟩
    refine hcalled.mono rfl fun hin => ?_
    obtain ⟨hgood, hhere⟩ := hin.good.call hleft he hi hrow hid hfresh hin.here htruth
    exact ⟨hgood, hhere, hin.loop⟩

theorem accept_triple : Triple (scan.Sure (scan.Inside todo e base chunk))
    (scan.accept (base + i) v) (fun _ => scan.Sure (scan.Inside todo e base chunk)) scan.Over := by
  rw [accept]
  refine Triple.bind (Q := fun _ => scan.Sure (scan.Inside todo e base chunk))
    (Triple.lift (fun _ _ s hs => hs) fun s hs => hs.over) fun rejected => ?_
  split
  · exact Triple.pure fun s hs => hs
  · refine Triple.bind (test_triple hleft he hfresh hi hrow hid) fun accepted => ?_
    split
    · refine Triple.get fun s hs => ?_
      refine Triple.bind (Q := fun a s' => s' = s ∧
          scan.retention.keep s.leftPin s.rightPin v s.out = .ok a)
        (Triple.lift (fun a ha s' hs' => ⟨hs', ha⟩) fun s' hs' => hs' ▸ hs.over) fun a => ?_
      obtain ⟨out, more⟩ := a
      refine Triple.bind (Q := fun _ => scan.Sure (scan.Inside todo e base chunk))
        (Triple.modify ?_) fun _ => Triple.pure fun s hs => hs
      rintro s' ⟨rfl, hkeep⟩
      refine hs.mono rfl fun hin => hin.release rfl rfl rfl rfl hin.loop fun p hp => ?_
      -- what a match holds, the scan was holding
      refine ScanState.live_of_pin (ScanState.mem_pins.mpr ?_)
      have hheld := scan.retention.held_keep hkeep p
      have hpins := ScanState.mem_pins.mp hp
      tauto
    · exact Triple.pure fun s hs => hs

end

theorem pin_triple (href : ∀ {page base : Nat} {s s' : ScanState σ}, G s →
      s.Pinned scan.storage scan.retention page base s' → scan.Fine s'.events → G s')
    (reference : ChunkRef) :
    Triple (scan.Sure G) (reference.pin scan.storage scan.retention)
      (fun base => scan.Sure fun s => G s ∧
        match reference with
        | .resident b => base = b
        | .paged p => p ∈ s.cache ∧ (p, base) ∈ s.loaded) scan.Over := by
  cases reference with
  | resident b => exact Triple.pure fun s hs => hs.mono rfl fun hg => ⟨hg, rfl⟩
  | paged page =>
    intro s hs hfine
    have hpin := s.pin_pinned scan.storage scan.retention page
    have hevents : ∀ e ∈ s.events, e ∈ (s.pin scan.storage scan.retention page).2.events := by
      intro e he
      rcases hpin.event with ⟨hsame, -⟩ | hmore
      · rwa [hsame]
      · rw [hmore]
        exact List.mem_append_left _ he
    obtain ⟨hg, hsound⟩ := hs fun e he => hfine e (hevents e he)
    refine ⟨⟨href hg hpin hfine, hpin.cached, hpin.placed⟩, fun e he => ?_⟩
    change e ∈ (s.pin scan.storage scan.retention page).2.events at he
    rcases hpin.event with ⟨hsame, -⟩ | hmore
    · rw [hsame] at he
      exact hsound e he
    · rw [hmore] at he
      rcases List.mem_append.mp he with he | he
      · exact hsound e he
      · obtain rfl := List.mem_singleton.mp he
        trivial

theorem rightGroup_triple {i : Nat} {l : RowView} (hleft : scan.left.Ok scan.storage)
    (he : e ∈ scan.left.chunks) (hfresh : e.1 ∉ todo) (hi : i < e.2.rows.length)
    (hl : l = e.2.view i) (g : Group) :
    Triple (scan.Sure (scan.Inside todo e base none)) (scan.rightGroup (base + i) l g)
      (fun more s => if more then scan.Sure (scan.Inside todo e base none) s else scan.Over s)
      scan.Over := by
  have hwidth : (e.2.view i).row.length = scan.left.columns.length := by
    refine hleft.width (⟨e.1, e.2.slot i⟩, e.2.view i) (List.mem_flatMap.mpr ⟨e, he, ?_⟩)
    exact Chunk.mem_views.mpr ⟨i, hi, rfl⟩
  have hpinned : ∀ {page base' : Nat} {s s' : ScanState σ}, scan.Inside todo e base none s →
      s.Pinned scan.storage scan.retention page base' s' → scan.Fine s'.events →
        scan.Inside todo e base none s' := by
    intro page base' s s' hin hpin hfine
    exact ⟨hin.good.pin hleft hpin hfine,
      hin.here.mono (by rw [hpin.same]) hpin.kept (by rw [hpin.same]),
      by rw [hpin.same]; exact hin.loop⟩
  rw [rightGroup]
  refine Triple.bind (Q := fun _ => scan.Sure (scan.Inside todo e base none))
    (Triple.lift (fun _ _ s hs => hs) fun s hs => hs.over) fun _ => ?_
  refine Triple.bind (pin_triple hpinned (scan.right.reference g.chunk)) fun base' => ?_
  let page := (scan.right.reference g.chunk).page
  refine Triple.bind (Q := fun _ => scan.Sure fun s => scan.Inside todo e base none s ∧
      ∀ p ∈ page, p ∈ s.cache)
    (Triple.lift (fun _ _ s hs => hs.mono rfl fun h => ⟨h.1, ?_⟩) fun s hs => hs.over) fun opened =>
      ?_
  · intro p hp
    have hcase := h.2
    cases href : scan.right.reference g.chunk with
    | resident b => simp [page, href, ChunkRef.page] at hp
    | paged p' =>
      simp only [page, href, ChunkRef.page, Option.mem_def, Option.some.injEq] at hp
      rw [href] at hcase
      exact hp ▸ hcase.1
  obtain ⟨c, positions⟩ := opened
  refine Triple.bind (Q := fun _ => scan.Sure (scan.Inside todo e base page)) (Triple.modify ?_)
    fun _ => ?_
  · intro s hs
    refine hs.mono rfl fun h => h.1.release rfl rfl rfl rfl rfl fun p hp => ?_
    rcases ScanState.mem_pins.mp hp with hp | hp | hp
    · exact ScanState.live_of_pin (ScanState.mem_pins.mpr (.inl hp))
    · exact ScanState.live_of_cache (h.2 p hp)
    · exact ScanState.live_of_pin (ScanState.mem_pins.mpr (.inr (.inr hp)))
  refine Triple.bind (Q := fun more s => if more then scan.Sure (scan.Inside todo e base page) s
    else scan.Over s) (Triple.visit (I := fun _ => scan.Sure (scan.Inside todo e base page))
      fun j rest _ => ?_) fun more => ?_
  · refine Triple.bind (Q := fun _ => scan.Sure (scan.Inside todo e base page)) (Triple.modify ?_)
      fun _ => ?_
    · intro s hs
      refine hs.mono rfl fun h => h.release rfl rfl rfl rfl h.loop fun p hp => ?_
      refine ScanState.live_of_pin (ScanState.mem_pins.mpr ?_)
      have hloop := h.loop
      rcases ScanState.mem_pins.mp hp with hp | hp | hp | hp | hp
      · exact .inl hp
      · exact .inr (.inl hp)
      · exact .inr (.inr (.inl hp))
      · exact .inr (.inl (hloop.trans hp))
      · exact .inr (.inr (.inr (.inr hp)))
    · refine (accept_triple hleft he hfresh hi ?_ (by rw [hl])).consequence (fun s hs => hs)
        fun more s hs => ?_
      · rw [hl, List.take_append_of_le_length (Nat.le_of_eq hwidth.symm)]
      · split
        · exact hs
        · exact hs.over
  · refine Triple.bind (Q := fun _ s => if more then scan.Sure (scan.Inside todo e base none) s
      else scan.Over s) (Triple.modify fun s hs => ?_) fun _ => Triple.pure fun s hs => hs
    split
    · next hmore =>
        rw [if_pos hmore] at hs
        refine hs.mono rfl fun h => h.release rfl rfl rfl rfl rfl fun p hp => ?_
        refine ScanState.live_of_pin (ScanState.mem_pins.mpr ?_)
        rcases ScanState.mem_pins.mp hp with hp | hp | hp
        · exact .inl hp
        · cases hp
        · exact .inr (.inr hp)
    · next hmore =>
        rw [if_neg hmore] at hs
        exact hs.mono rfl id

theorem Good.enter {c : Chunk} (h : scan.Good (id :: todo) s)
    (hchunk : (id, c) ∈ scan.left.chunks) (hplaced : scan.Placed id base s) :
    ∀ m ∈ s.predicate.memos, ∀ i < c.rows.length, m.1.left = some (base + i) →
      m.2.truth (c.view i) = .ok m.1.truth := by
  intro m hm i hi haddress
  refine absurd ?_ (h.ahead (id, c) hchunk List.mem_cons_self base hplaced m hm _ haddress)
  exact ⟨Nat.le_add_right _ _, Nat.add_lt_add_left hi _⟩

/-- The loop over one left chunk: before it no memo names a row of the chunk,
inside it the memos are right about them. -/
theorem leftGroup_triple (hleft : scan.left.Ok scan.storage) {g : Group}
    (hg : g ∈ scan.left.groups) (hfresh : g.chunk ∉ todo) :
    Triple (scan.Sure (scan.Between (g.chunk :: todo))) (scan.leftGroup g)
      (fun more s => if more then scan.Sure (scan.Between todo) s else scan.Over s) scan.Over := by
  obtain ⟨c, positions, hopen, hchunk, hpositions⟩ := hleft.openGroup hg
  have hpinned : ∀ {page base : Nat} {s s' : ScanState σ}, scan.Between (g.chunk :: todo) s →
      s.Pinned scan.storage scan.retention page base s' → scan.Fine s'.events →
        scan.Between (g.chunk :: todo) s' := by
    intro page base s s' hbetween hpin hfine
    exact ⟨hbetween.good.pin hleft hpin hfine, by rw [hpin.same]; exact hbetween.loop⟩
  rw [leftGroup]
  refine Triple.bind (Q := fun _ => scan.Sure (scan.Between (g.chunk :: todo)))
    (Triple.lift (fun _ _ s hs => hs) fun s hs => hs.over) fun _ => ?_
  refine Triple.bind (pin_triple hpinned (scan.left.reference g.chunk)) fun base => ?_
  rw [hopen]
  refine Triple.bind (Q := fun opened s => opened = (c, positions) ∧ scan.Sure (fun s =>
      scan.Between (g.chunk :: todo) s ∧ match scan.left.reference g.chunk with
        | .resident b => base = b
        | .paged p => p ∈ s.cache ∧ (p, base) ∈ s.loaded) s)
    (Triple.lift (fun a ha s hs => ⟨(Except.ok.inj ha).symm, hs⟩) fun s hs => hs.over)
    fun opened => ?_
  -- the chunk is held from here on, and no memo names a row of it
  refine Triple.bind (Q := fun _ s => opened = (c, positions) ∧
      scan.Sure (scan.Inside todo (g.chunk, c) base none) s) (Triple.modify ?_) fun _ => ?_
  · rintro s ⟨rfl, hs⟩
    refine ⟨rfl, hs.mono rfl fun ⟨hbetween, hplace⟩ => ?_⟩
    have hpage : ∀ p ∈ (scan.left.reference g.chunk).page, p ∈ s.cache := by
      intro p hp
      cases href : scan.left.reference g.chunk with
      | resident b => simp [href, ChunkRef.page] at hp
      | paged p' =>
        simp only [href, ChunkRef.page, Option.mem_def, Option.some.injEq] at hp
        rw [href] at hplace
        exact hp ▸ hplace.1
    let s' : ScanState σ := { s with
      leftChunk := (scan.left.reference g.chunk).page
      leftPin := (scan.left.reference g.chunk).page }
    have hgood : scan.Good (g.chunk :: todo) s' := by
      refine hbetween.good.release rfl rfl rfl fun p hp => ?_
      rcases ScanState.mem_pins.mp hp with hp | hp | hp | hp
      · exact ScanState.live_of_cache (hpage p hp)
      · exact ScanState.live_of_pin (ScanState.mem_pins.mpr (.inr (.inl hp)))
      · exact ScanState.live_of_cache (hpage p hp)
      · exact ScanState.live_of_pin (ScanState.mem_pins.mpr (.inr (.inr (.inr hp))))
    have hplaced : scan.Placed g.chunk base s' := by
      unfold Placed
      split
      · next b href => rwa [href] at hplace
      · next p href =>
          rw [href] at hplace
          exact ScanState.mem_alive.mpr ⟨hplace.2, ScanState.live_of_cache hplace.1⟩
    exact ⟨hgood.weaken (List.subset_cons_self _ _),
      ⟨rfl, hplaced, hgood.enter hchunk hplaced⟩, hbetween.loop⟩
  intro s hs
  obtain ⟨rfl, hs⟩ := hs
  refine Triple.bind (P := scan.Sure (scan.Inside todo (g.chunk, c) base none))
    (Q := fun more s => if more then scan.Sure (scan.Inside todo (g.chunk, c) base none) s
      else scan.Over s) ?_ (fun more => ?_) s hs
  · refine Triple.visit (I := fun _ => scan.Sure (scan.Inside todo (g.chunk, c) base none))
      fun i rest hsuffix => ?_
    exact Triple.visit (I := fun _ => scan.Sure (scan.Inside todo (g.chunk, c) base none))
      fun g' _ _ => rightGroup_triple hleft hchunk hfresh
        (hpositions i (hsuffix.subset List.mem_cons_self)) rfl g'
  · refine Triple.bind (Q := fun _ s => if more then scan.Sure (scan.Between todo) s
      else scan.Over s) (Triple.modify fun s hs => ?_) fun _ => Triple.pure fun s hs => hs
    split
    · next hmore =>
        rw [if_pos hmore] at hs
        refine hs.mono rfl fun hin => ⟨hin.good.release rfl rfl rfl fun p hp => ?_, hin.loop⟩
        refine ScanState.live_of_pin (ScanState.mem_pins.mpr ?_)
        rcases ScanState.mem_pins.mp hp with hp | hp
        · cases hp
        · exact .inr hp
    · next hmore =>
        rw [if_neg hmore] at hs
        exact hs.mono rfl id

theorem run_triple (hleft : scan.left.Ok scan.storage) :
    Triple (scan.Sure (scan.Between (scan.left.groups.map Group.chunk))) scan.run
      (fun _ => scan.Over) scan.Over := by
  refine (Triple.visit (I := fun rest => scan.Sure (scan.Between (rest.map Group.chunk)))
    fun g rest hsuffix => ?_).consequence (fun s hs => hs) fun more s hs => ?_
  · have hsorted := hleft.groups_sorted.sublist hsuffix.sublist
    refine leftGroup_triple hleft (hsuffix.subset List.mem_cons_self) fun hmem => ?_
    obtain ⟨g', hg', heq⟩ := List.mem_map.mp hmem
    have hlt := (List.pairwise_cons.mp hsorted).1 g' hg'
    omega
  · split at hs
    · exact hs.over
    · exact hs

/-- What earlier queries left in memory is where nothing else is. -/
structure Ready (scan : CrossScan σ) (s : ScanState σ) : Prop where
  distinct : (s.loaded.map Prod.fst).Nodup
  apart : ∀ e ∈ s.alive scan.retention, ∀ e' ∈ s.alive scan.retention, e.1 ≠ e'.1 →
    Block.Apart ⟨e.2, scan.storage.rows e.1⟩ ⟨e'.2, scan.storage.rows e'.1⟩
  fixed : ∀ e ∈ s.alive scan.retention, ∀ b ∈ scan.residents,
    Block.Apart ⟨e.2, scan.storage.rows e.1⟩ b

end CrossScan

/-- **The memos do not show while no page is read to an address they name.**
For every cross join, every cache and every allocator that gives a page no
address of a row in memory: if it gives it none that a memo names either, each
call of `truth`, on the clause or on a conjunct of it, answers as
`truth_uncached` does. -/
theorem left_memo_sound_while_fresh {σ : Type} (scan : CrossScan σ) (cache : List Nat)
    (resident : Nat) (loaded : List (Nat × Nat)) (out : σ) (hleft : scan.left.Ok scan.storage)
    (hready : scan.Ready (scan.start cache resident loaded out))
    (hadmissible : ∀ e ∈ scan.events (scan.start cache resident loaded out),
      e.Admissible scan.residents)
    (hfresh : ∀ e ∈ scan.events (scan.start cache resident loaded out), e.Fresh) :
    ∀ e ∈ scan.events (scan.start cache resident loaded out), e.Sound := by
  have hmemos := scan.condition.reuse_memos scan.left.columns.length
  have hstart : scan.Sure (scan.Between (scan.left.groups.map Group.chunk))
      (scan.start cache resident loaded out) := by
    refine fun _ => ⟨⟨⟨hready.distinct, hready.apart, hready.fixed, fun e he => (hmemos e he).2,
      fun e he _ base _ m hm address haddress => ?_⟩, rfl⟩, fun e he => (nomatch he)⟩
    rw [(hmemos m hm).1] at haddress
    cases haddress
  have hover : scan.Over (scan.run.run.run (scan.start cache resident loaded out)).2 := by
    have hrun := CrossScan.run_triple hleft _ hstart
    split at hrun
    · next hresult => rw [hresult]; exact hrun
    · next hresult => rw [hresult]; exact hrun
  exact (hover fun e he => ⟨hadmissible e he, hfresh e he⟩).2

/-! ### A cache that holds nothing

Four left chunks of one row each and a cache that keeps nothing it need not
keep. When the last chunk is read the first one is gone. -/

/-- A condition on the left row: both of its columns are 1. -/
def bothOnes : Condition :=
  .all ([0, 1].map fun column => .comparison (.column integerType column)
    (.literal integerType (.integer 1)) .equal ⟨[], integerAddon⟩)

def rowPerChunk (reference : Nat → ChunkRef) (width : Nat) (rows : List (List Int64)) :
    PagedSource where
  columns := List.replicate width { name := lit "a", type := integerType }
  chunks := rows.zipIdx.map fun e =>
    (e.2, { rows := [e.1.map Value.integer], rowids := [e.2 + 1] })
  reference := reference

def fourChunks : PagedSource := rowPerChunk .paged 2 [[1, 0], [0, 0], [0, 0], [1, 1]]

def thrashingScan (place : Nat → Nat) : CrossScan Unit where
  storage := { target := 0, rows := fun _ => 1, footprint := fun _ => 1, place }
  retention := {
    keep := fun _ _ _ s => .ok (s, true)
    held := fun _ => []
    held_keep := fun _ _ hpage => nomatch hpage }
  left := fourChunks
  right := rowPerChunk (fun _ => .resident 100) 1 [[7]]
  early := none
  condition := bothOnes

theorem thrashingScan_ok (place : Nat → Nat) :
    (thrashingScan place).left.Ok (thrashingScan place).storage where
  inOrder := ⟨by simp [thrashingScan, fourChunks, rowPerChunk, SortedMap.Sorted], fun e he => by
    obtain ⟨p, -, rfl⟩ := List.mem_map.mp he
    exact .inl rfl⟩
  selected _ hrows := nomatch hrows
  width := by
    have hwidth : ∀ e ∈ fourChunks.toTable.views, e.2.row.length = fourChunks.columns.length := by
      decide +kernel
    exact hwidth
  apart _ _ _ _ _ _ _ href := nomatch href
  pages e _ e' _ hne p href href' := hne ((ChunkRef.paged.inj href).trans
    (ChunkRef.paged.inj href').symm)
  sized e he _ _ := by
    obtain ⟨p, -, rfl⟩ := List.mem_map.mp he
    rfl

theorem thrashingScan_ready (place : Nat → Nat) :
    (thrashingScan place).Ready ((thrashingScan place).start [] 0 [] ()) where
  distinct := List.nodup_nil
  apart _ he := nomatch he
  fixed _ he := nomatch he

/-- Chunks that are all read to different places. -/
theorem left_memo_sound_thrashing :
    (thrashingScan fun n => 10 * n).events
        ((thrashingScan fun n => 10 * n).start [] 0 [] ()) ≠ [] ∧
      ∀ e ∈ (thrashingScan fun n => 10 * n).events
        ((thrashingScan fun n => 10 * n).start [] 0 [] ()), e.Sound :=
  ⟨fun h => absurd (congrArg List.length h) (by decide +kernel),
    left_memo_sound_while_fresh _ _ _ _ _ (thrashingScan_ok _) (thrashingScan_ready _)
      (by decide +kernel) (by decide +kernel)⟩

/-- Whether a call on the clause answered something else. -/
def Event.disagrees : Event → Bool
  | loaded .. => false
  | called address v predicate =>
    match predicate.truth address v, predicate.truthUncached v with
    | .ok (t, _), .ok t' => t ≠ t'
    | _, _ => false

theorem Event.not_sound {e : Event} (h : e.disagrees = true) : ¬e.Sound := by
  intro hsound
  cases e with
  | loaded => cases h
  | called address v predicate =>
    have hroot := hsound predicate (by cases predicate <;> simp [Reused.nodes])
    rw [Event.disagrees, ← hroot] at h
    cases hcall : predicate.truth address v with
    | error error => simp [hcall] at h
    | ok answer => simp [hcall] at h

/-- The last chunk may go where the first one was, and its row then gets the
answer that was stored for the row before it: FALSE, although the row meets
the condition. -/
theorem left_memo_stale :
    ∃ scan : CrossScan Unit, scan.left.Ok scan.storage ∧
      scan.Ready (scan.start [] 0 [] ()) ∧
      (∀ e ∈ scan.events (scan.start [] 0 [] ()), e.Admissible scan.residents) ∧
      ∃ e ∈ scan.events (scan.start [] 0 [] ()), ¬e.Sound := by
  let place : Nat → Nat := fun n => if n = 3 then 0 else 10 * n
  refine ⟨thrashingScan place, thrashingScan_ok _, thrashingScan_ready _, by decide +kernel, ?_⟩
  have hany : ((thrashingScan place).events ((thrashingScan place).start [] 0 [] ())).any
      Event.disagrees = true := by decide +kernel
  obtain ⟨e, he, hdisagrees⟩ := List.any_eq_true.mp hany
  exact ⟨e, he, Event.not_sound hdisagrees⟩

end CoreSql
