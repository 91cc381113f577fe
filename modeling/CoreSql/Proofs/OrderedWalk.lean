import CoreSql.Lib.Runs
import CoreSql.Proofs.Candidates
import CoreSql.Query.OrderedScan

/-!
# What an ordered scan walks over

Two facts about the iterators behind an ordered scan, whatever the query. The
walk of an index between bounds returns the entries that begin with the fixed
values and have the next column between the bounds, in index order or against
it. The scan on top of it returns the same entries with every run of
`sameOrder` sorted by location.
-/

namespace CoreSql

variable {registry : Registry} {columns : List Column} {rows : List (RowLocation × Row)}
  {orders : List KeyOrder} {a : Row}

/-! ## Positions -/

/-- Against values that are not NULL, the leading columns compare as keys do. -/
theorem leadingPosition_eq (orders : List KeyOrder) (key equal : Row)
    (hequal : ∀ v ∈ equal, v.isNull = false) :
    leadingPosition orders key equal = compareKeys orders key equal := by
  induction orders generalizing key equal with
  | nil => cases key <;> rfl
  | cons o orders ih =>
    cases key with
    | nil => rfl
    | cons k key =>
      cases equal with
      | nil => rfl
      | cons v equal =>
        have hraw : (if k.isNull then -1 else o.compare k v) = o.raw k v := by
          cases hk : k.isNull <;>
            simp [KeyOrder.raw, compareNulls, hk, hequal v List.mem_cons_self]
        have hcells : o.cells k v = if o.descending then -(o.raw k v).sign
            else (o.raw k v).sign := rfl
        rw [leadingPosition, compareKeys, hraw,
          ih key equal fun w hw => hequal w (List.mem_cons_of_mem _ hw)]
        by_cases h0 : o.raw k v = 0
        · simp [h0, KeyOrder.cells_eq_zero.mpr h0]
        · have hne : o.cells k v ≠ 0 := fun h => h0 (KeyOrder.cells_eq_zero.mp h)
          simp only [ne_eq, h0, hne, not_false_eq_true, if_true]
          exact hcells.symm

theorem sign_compareKeys (orders : List KeyOrder) (a b : Row) :
    (compareKeys orders a b).sign = compareKeys orders a b := by
  fun_induction compareKeys orders a b with
  | case1 o os x a y b hne =>
    show (if o.descending then -(o.raw x y).sign else (o.raw x y).sign).sign =
      if o.descending then -(o.raw x y).sign else (o.raw x y).sign
    split <;> simp
  | case2 o os x a y b heq ih => exact ih
  | case3 => rfl

theorem compareKeys_drop (n : Nat) {b : Row}
    (h : ∀ i < n, (orders.getD i default).cells (a.cell i) (b.cell i) = 0) :
    compareKeys orders a b = compareKeys (orders.drop n) (a.drop n) (b.drop n) := by
  induction n generalizing orders a b with
  | zero => rfl
  | succ n ih =>
    cases orders with
    | nil => cases a <;> cases b <;> simp [compareKeys]
    | cons o orders =>
      cases a with
      | nil => simp [compareKeys]
      | cons k a =>
        cases b with
        | nil => simp [compareKeys]
        | cons l b =>
          have hzero : o.cells k l = 0 := h 0 (by omega)
          rw [compareKeys, if_neg (by simp [hzero])]
          exact ih fun i hi => h (i + 1) (by omega)

theorem leading_eq (hlawful : registry.Lawful) {types : List SqlType}
    (h : List.Forall₂ (fun type o => o.Of registry type) types orders) {b e : Row}
    (ha : List.Forall₂ registry.Cell types a) (hb : List.Forall₂ registry.Cell types b)
    (he : List.Forall₂ registry.Cell (types.take e.length) e) (hae : compareKeys orders a e = 0)
    (hbe : compareKeys orders b e = 0) :
    ∀ i < e.length, (orders.getD i default).cells (a.cell i) (b.cell i) = 0 := by
  induction h generalizing a b e with
  | nil =>
    cases e with
    | nil => simp
    | cons z e => cases he
  | @cons type o types orders ho _ ih =>
    cases ha with
    | @cons _ k _ a hk ha =>
    cases hb with
    | @cons _ l _ b hl hb =>
    cases e with
    | nil => simp
    | cons z e =>
      cases he with
      | cons hz he =>
      have hlaw := ho.threeWay hlawful
      have hkz : o.cells k z = 0 := by
        by_contra hne
        rw [compareKeys, if_pos hne] at hae
        exact hne hae
      have hlz : o.cells l z = 0 := by
        by_contra hne
        rw [compareKeys, if_pos hne] at hbe
        exact hne hbe
      rw [compareKeys, if_neg (by simp [hkz])] at hae
      rw [compareKeys, if_neg (by simp [hlz])] at hbe
      intro i hi
      cases i with
      | zero => exact hlaw.zero_trans hk hz hl hkz (hlaw.symm hl hz hlz)
      | succ i => exact ih ha hb he hae hbe i (by simpa using hi)

namespace OrderedIndex

variable {x : OrderedIndex} {b : Bounds} {e f : OrderedEntry}

/-- What the bounds of an ordered scan are: cells of the columns they bound,
none of them NULL. -/
structure ScanBounds (registry : Registry) (columns : List Column) (x : OrderedIndex)
    (b : Bounds) : Prop where
  cells : BoundsOk registry (typesAt columns x.columns) b.equal b.lower b.upper
  equal : ∀ v ∈ b.equal, v.isNull = false
  lower : ∀ v ∈ b.lower, v.isNull = false
  upper : ∀ v ∈ b.upper, v.isNull = false

/-- A position says whether an entry is before or after the range. Where the
bounds contradict each other an entry may be both; then the lower bound
decides. -/
theorem ScanBounds.position_eq (h : ScanBounds registry columns x b) (e : OrderedEntry) :
    x.position b e.1 = if (x.orderAt b.equal.length).descending then
        if x.afterRange b.equal b.lower b.upper e then 1
        else if x.beforeRange b.equal b.lower b.upper e then -1 else 0 else
        if x.beforeRange b.equal b.lower b.upper e then -1
        else if x.afterRange b.equal b.lower b.upper e then 1 else 0 := by
  have hcompare : ∀ v : Value, v.isNull = false → (if (e.1.cell b.equal.length).isNull then -1
        else (x.orderAt b.equal.length).compare (e.1.cell b.equal.length) v) =
      (x.orderAt b.equal.length).raw (e.1.cell b.equal.length) v := by
    intro v hv
    cases hk : (e.1.cell b.equal.length).isNull <;> simp [KeyOrder.raw, compareNulls, hk, hv]
  have hlower : (b.lower.any fun v => decide ((if (e.1.cell b.equal.length).isNull then -1
        else (x.orderAt b.equal.length).compare (e.1.cell b.equal.length) v) < 0)) =
      b.lower.any fun v =>
        decide ((x.orderAt b.equal.length).raw (e.1.cell b.equal.length) v < 0) := by
    cases hb : b.lower with
    | none => rfl
    | some v => rw [Option.any_some, Option.any_some, hcompare v (h.lower v (by simp [hb]))]
  have hupper : (b.upper.any fun v => decide (0 < if (e.1.cell b.equal.length).isNull then -1
        else (x.orderAt b.equal.length).compare (e.1.cell b.equal.length) v)) =
      b.upper.any fun v =>
        decide (0 < (x.orderAt b.equal.length).raw (e.1.cell b.equal.length) v) := by
    cases hb : b.upper with
    | none => rfl
    | some v => rw [Option.any_some, Option.any_some, hcompare v (h.upper v (by simp [hb]))]
  have hunbounded : b.equal.length = x.columns.length → b.lower = none ∧ b.upper = none :=
    fun heq => h.cells.unbounded (List.getElem?_eq_none (by simp [typesAt, heq]))
  have hsign := sign_compareKeys x.order e.1 b.equal
  rw [position, leadingPosition_eq _ _ _ h.equal, beforeRange, afterRange]
  simp only [hlower, hupper, KeyOrder.below, KeyOrder.above]
  rcases lt_trichotomy (compareKeys x.order e.1 b.equal) 0 with hc | hc | hc
  · rw [Int.sign_eq_neg_one_of_neg hc] at hsign
    simp [← hsign]
  · by_cases hlast : b.equal.length = x.columns.length
    · obtain ⟨hlo, hhi⟩ := hunbounded hlast
      simp [hc, hlast, hlo, hhi]
    · simp only [hc, hlast]
      cases (x.orderAt b.equal.length).descending <;> simp
  · rw [Int.sign_eq_one_of_pos hc] at hsign
    simp [← hsign]

theorem ScanBounds.position_le (hlawful : registry.Lawful) (hfits : x.Fits registry columns)
    (h : ScanBounds registry columns x b)
    (he : List.Forall₂ registry.Cell (typesAt columns x.columns) e.1)
    (hf : List.Forall₂ registry.Cell (typesAt columns x.columns) f.1)
    (hle : compareKeys x.order e.1 f.1 ≤ 0) : x.position b e.1 ≤ x.position b f.1 := by
  have hbefore := hfits.beforeRange_of_le hlawful h.cells he hf hle
  have hafter := hfits.afterRange_of_le hlawful h.cells he hf hle
  rw [h.position_eq, h.position_eq]
  cases (x.orderAt b.equal.length).descending <;>
    cases hbe : x.beforeRange b.equal b.lower b.upper e <;>
    cases hbf : x.beforeRange b.equal b.lower b.upper f <;>
    cases hae : x.afterRange b.equal b.lower b.upper e <;>
    cases haf : x.afterRange b.equal b.lower b.upper f <;>
    simp [hbe, hbf, hae, haf] at hbefore hafter ⊢

theorem ScanBounds.position_eq_zero (h : ScanBounds registry columns x b) :
    x.position b e.1 = 0 ↔ compareKeys x.order e.1 b.equal = 0 ∧
      KeyBetween (x.orderAt b.equal.length).raw b.lower b.upper (e.1.cell b.equal.length) := by
  rw [h.position_eq, ← inRange_iff]
  cases (x.orderAt b.equal.length).descending <;>
    cases x.beforeRange b.equal b.lower b.upper e <;>
    cases x.afterRange b.equal b.lower b.upper e <;> simp

/-! ## The walk -/

theorem Ordered.walk_sorted (h : x.Ordered registry columns) (reverse : Bool) :
    (x.root.walk reverse).Pairwise fun e f =>
      if reverse then compareKeys x.order f.1 e.1 ≤ 0 else compareKeys x.order e.1 f.1 ≤ 0 := by
  have hforward : x.root.entries.Pairwise fun e f => compareKeys x.order e.1 f.1 ≤ 0 :=
    h.sorted.imp fun hlt => compare_le_of_entries hlt
  rw [Avl.walk]
  cases reverse with
  | false => exact hforward
  | true => exact List.pairwise_reverse.mpr hforward

/-- A walk returns the entries between the bounds, in its direction. -/
theorem Ordered.remaining_seek (hlawful : registry.Lawful) (h : x.Ordered registry columns)
    (hbounds : x.ScanBounds registry columns b) (reverse : Bool) :
    Avl.remaining reverse (fun e => x.position b e.1)
        (Avl.seek reverse (fun e => x.position b e.1) x.root []) =
      (x.root.walk reverse).filter fun e => x.position b e.1 == 0 := by
  refine Avl.remaining_seek (List.Pairwise.imp_of_mem (fun {e f} he hf hle => ?_)
    (h.walk_sorted reverse))
  have hkeys := fun e (he : e ∈ x.root.walk reverse) => h.keys e (Avl.mem_walk.mp he)
  split
  · next hrev =>
      rw [if_pos hrev] at hle
      exact hbounds.position_le hlawful h.fits (hkeys f hf) (hkeys e he) hle
  · next hrev =>
      rw [if_neg hrev] at hle
      exact hbounds.position_le hlawful h.fits (hkeys e he) (hkeys f hf) hle

end OrderedIndex

namespace OrderedScanPlan

variable {plan : OrderedScanPlan} {s : OrderedScan}

/-- The entries between the bounds of a plan, in the direction of its walk. -/
def walked (plan : OrderedScanPlan) : List OrderedEntry :=
  (plan.index.root.walk plan.reverse).filter fun e => plan.position e == 0

def remaining (plan : OrderedScanPlan) (stack : List (OrderedEntry × Avl OrderedEntry)) :
    List OrderedEntry :=
  Avl.remaining plan.reverse plan.position stack

theorem remaining_start (hlawful : registry.Lawful) (h : plan.index.Holds registry columns rows)
    (hbounds : plan.index.ScanBounds registry columns plan.bounds) :
    plan.remaining plan.start.stack = plan.walked :=
  h.ordered.remaining_seek hlawful hbounds plan.reverse

/-! ## The scan -/

def yield (plan : OrderedScanPlan) (s : OrderedScan) : List OrderedEntry :=
  s.group ++ Runs.sortRuns (fun e f => plan.sameOrder e.1 f.1) Prod.snd
    (s.pending.toList ++ plan.remaining s.stack)

section

variable {stack stack' : List (OrderedEntry × Avl OrderedEntry)} {e : OrderedEntry}

theorem read_none (h : plan.read stack = (none, stack')) :
    plan.remaining stack = [] ∧ plan.remaining stack' = [] := by
  cases hleft : plan.remaining stack with
  | nil =>
    rw [read_eq, Avl.next_nil hleft] at h
    cases h
    exact ⟨rfl, rfl⟩
  | cons f l =>
    obtain ⟨stack'', hnext, -⟩ := Avl.next_cons hleft
    rw [read_eq, hnext] at h
    cases h

theorem read_some (h : plan.read stack = (some e, stack')) :
    plan.remaining stack = e :: plan.remaining stack' := by
  cases hleft : plan.remaining stack with
  | nil =>
    rw [read_eq, Avl.next_nil hleft] at h
    cases h
  | cons f l =>
    obtain ⟨stack'', hnext, hrest⟩ := Avl.next_cons hleft
    rw [read_eq, hnext] at h
    cases h
    rw [remaining, hrest]

end

theorem gather_spec (plan : OrderedScanPlan) (key : Row)
    (stack : List (OrderedEntry × Avl OrderedEntry)) :
    (plan.gather key stack).1 = (plan.remaining stack).takeWhile (fun e => plan.sameOrder key e.1) ∧
      (plan.gather key stack).2.1.toList ++ plan.remaining (plan.gather key stack).2.2 =
        (plan.remaining stack).dropWhile fun e => plan.sameOrder key e.1 := by
  fun_induction plan.gather key stack with
  | case1 stack stack' h => simp [read_none h]
  | case2 stack e rest h hsame group pending rest' heq ih =>
    rw [heq] at ih
    obtain ⟨htake, hdrop⟩ := ih
    simp only at htake hdrop
    simp [read_some h, hsame, ← htake, ← hdrop]
  | case3 stack e rest h hsame => simp [read_some h, hsame]

theorem opening_spec (s : OrderedScan) :
    (plan.opening s).1.toList ++ plan.remaining (plan.opening s).2 =
      s.pending.toList ++ plan.remaining s.stack := by
  rw [opening]
  split
  · next e hpending => rw [hpending]
  · next hpending =>
      rw [hpending]
      cases hread : plan.read s.stack with
      | mk found stack =>
        cases found with
        | none => simp [read_none hread]
        | some e => simp [read_some hread]

theorem next_nil (h : plan.yield s = []) : (plan.next s).1 = none := by
  obtain ⟨hgroup, hruns⟩ := List.append_eq_nil_iff.mp h
  have hempty : s.pending.toList ++ plan.remaining s.stack = [] := by
    have hperm := Runs.sortRuns_perm (fun e f : OrderedEntry => plan.sameOrder e.1 f.1) Prod.snd
      (s.pending.toList ++ plan.remaining s.stack)
    rw [hruns] at hperm
    exact hperm.symm.eq_nil
  rw [← opening_spec] at hempty
  rw [next, hgroup]
  cases hopening : plan.opening s with
  | mk found stack =>
    cases found with
    | none => rfl
    | some e => simp [hopening] at hempty

theorem next_cons {e : OrderedEntry} {l : List OrderedEntry}
    (h : plan.yield s = e :: l) : ∃ s', plan.next s = (some e, s') ∧ plan.yield s' = l := by
  rw [yield] at h
  cases hgroup : s.group with
  | cons f group =>
    rw [hgroup, List.cons_append] at h
    obtain ⟨rfl, hl⟩ := List.cons.inj h
    exact ⟨{ s with group }, by rw [next, hgroup], hl⟩
  | nil =>
    rw [hgroup, List.nil_append, ← opening_spec] at h
    cases hopening : plan.opening s with
    | mk found stack =>
      cases found with
      | none =>
        have hstack : plan.remaining stack = [] := by
          rw [opening] at hopening
          split at hopening
          · cases hopening
          · exact (read_none hopening).2
        simp [hopening, hstack, Runs.sortRuns] at h
      | some first =>
        obtain ⟨htake, hdrop⟩ := plan.gather_spec first.1 stack
        rw [hopening, Option.toList_some, List.singleton_append, Runs.sortRuns_cons,
          ← htake, ← hdrop] at h
        rw [next, hgroup, hopening]
        simp only [nextGroup]
        cases hsort : (first :: (plan.gather first.1 stack).1).insertionSort
            fun a b => a.2 ≤ b.2 with
        | nil =>
          have hlength := (List.perm_insertionSort (fun a b : OrderedEntry => a.2 ≤ b.2)
            (first :: (plan.gather first.1 stack).1)).length_eq
          simp [hsort] at hlength
        | cons f group =>
          rw [hsort, List.cons_append] at h
          obtain ⟨rfl, hl⟩ := List.cons.inj h
          exact ⟨_, rfl, hl⟩

end OrderedScanPlan

end CoreSql
