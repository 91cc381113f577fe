import CoreSql.Lib.Fallible
import CoreSql.Mutation.Session
import CoreSql.Proofs.Programs

/-!
# What holds of every state there is

A transaction machine copies states between the published slots, the staged
slots and the savepoints, and only three things ever make a new one: a
mutation, the measuring of a commit and its paging. So a property of states
that these three keep holds of every state a run ever stores anywhere. The
machine is gone through once here; every later invariant is a property of
one state and what the calls do to it.

The first such property is that the map of tables is sorted, which needs to
know nothing about what a call does.
-/

namespace CoreSql.Txn

variable {S : Type} {P : S → Prop}

/-- Every state a world stores has the property. -/
structure World.Holds (P : S → Prop) (w : World S) : Prop where
  published : ∀ a s, w.db.published a = some s → P s
  staged : ∀ t s, (w.txs t).staged = some s → P s
  snapshot : ∀ n s, (w.nodes n).snapshot = some s → P s

/-- Mutations that keep the property; the other events copy states. -/
def Event.Keeps (P : S → Prop) : Event S → Prop
  | .mutate _ f => ∀ s d, P s → P (f s d).2.1
  | _ => True

structure Engine.Keeps (E : Engine S) (P : S → Prop) : Prop where
  measure : ∀ s, P s → P (E.measure s)
  page : ∀ s base s', P s → P base → E.page s base = .ok s' → P s'

namespace World.Holds

variable {w w' : World S} {t : Nat} {E : Engine S} {s empty : S}

section

variable (h : w.Holds P)
include h

theorem setTx (t : Nat) (tx : Transaction S)
    (htx : ∀ s, tx.staged = some s → P s) : (w.setTx t tx).Holds P where
  published := h.published
  staged t' s hs := by
    by_cases ht : t' = t
    · subst ht
      exact htx s (by simpa [World.setTx] using hs)
    · exact h.staged t' s (by simpa [World.setTx, ht] using hs)
  snapshot := h.snapshot

theorem setNode (n : Nat) (node : SavepointState S)
    (hn : ∀ s, node.snapshot = some s → P s) : (w.setNode n node).Holds P where
  published := h.published
  staged := h.staged
  snapshot n' s hs := by
    by_cases he : n' = n
    · subst he
      exact hn s (by simpa [World.setNode] using hs)
    · exact h.snapshot n' s (by simpa [World.setNode, he] using hs)

theorem of_eq
    (hp : w'.db.published = w.db.published) (ht : w'.txs = w.txs) (hn : w'.nodes = w.nodes) :
    w'.Holds P where
  published := hp ▸ h.published
  staged := ht ▸ h.staged
  snapshot := hn ▸ h.snapshot

theorem publish (a : Nat) (hs : P s) : World.Holds P { w with db := w.db.publish a s } where
  published a' s' hs' := by
    by_cases ha : a' = a
    · subst ha
      have : s = s' := by simpa [Database.publish] using hs'
      exact this ▸ hs
    · exact h.published a' s' (by simpa [Database.publish, ha] using hs')
  staged := h.staged
  snapshot := h.snapshot

end

theorem popUntil {target : Option Nat} (fuel : Nat) :
    ∀ {w : World S}, w.Holds P → (World.popUntil target t fuel w).Holds P := by
  induction fuel with
  | zero => intro w h; exact h
  | succ fuel ih =>
    intro w h
    rw [World.popUntil]
    cases (w.txs t).savepoint with
    | none => exact h
    | some point =>
      have hpopped := (h.setTx t { w.txs t with savepoint := (w.nodes point).parent }
        (h.staged t)).setNode point
          { w.nodes point with owner := none, snapshot := none, parent := none }
        (fun s hs => by cases hs)
      simp only
      split
      · exact hpopped
      · exact ih hpopped

theorem finishSavepoint (h : w.Holds P) (t : Nat) (target : Option Nat)
    (restore : Bool) : (w.finishSavepoint t target restore).Holds P := by
  cases target with
  | none => exact popUntil _ h
  | some n =>
    cases restore with
    | false => exact popUntil _ h
    | true =>
      have hrestored := (h.setTx t
          { w.txs t with staged := (w.nodes n).snapshot, dirty := (w.nodes n).dirty }
          (h.snapshot n)).setNode n { w.nodes n with snapshot := none }
        (fun s hs => by cases hs)
      exact popUntil _ hrestored

theorem retarget (fuel : Nat) :
    ∀ {n : Option Nat} {w : World S}, w.Holds P → (World.retarget t fuel n w).Holds P := by
  induction fuel with
  | zero => intro n w h; exact h
  | succ fuel ih =>
    intro n w h
    cases n with
    | none => exact h
    | some n =>
      have hnode := h.setNode n { w.nodes n with owner := some t } (h.snapshot n)
      exact ih hnode

section

variable (h : w.Holds P)
include h

theorem rollbackTx (t : Nat) : (w.rollbackTx t).Holds P := by
  have hempty : ∀ s, ({} : Transaction S).staged = some s → P s := fun s hs => by cases hs
  rw [World.rollbackTx]
  split
  · exact (h.finishSavepoint t none false).setTx t _ hempty
  · exact h.setTx t _ hempty

/-- A move empties the source, fills the target and walks the chain. -/
theorem handOver (dst src : Nat) (fuel : Nat) : (World.retarget dst fuel (w.txs src).savepoint
      ((w.setTx src { dirty := (w.txs src).dirty }).setTx dst (w.txs src))).Holds P := by
  have hempty : ∀ s, ({ dirty := (w.txs src).dirty } : Transaction S).staged = some s → P s :=
    fun s hs => by cases hs
  exact retarget fuel ((h.setTx src _ hempty).setTx dst _ (h.staged src))

theorem moveTx (src : Nat) : (w.moveTx src).Holds P :=
  handOver (w := { w with nextTx := w.nextTx + 1 }) (h.of_eq rfl rfl rfl) w.nextTx src w.nextNode

theorem assignTx (dst src : Nat) : (w.assignTx dst src).Holds P := by
  rw [World.assignTx]
  split
  · exact h
  · exact (h.rollbackTx dst).handOver dst src _

theorem rollback (g : Nat) : (w.rollback g).Holds P := by
  rw [World.rollback]
  split
  · exact h.finishSavepoint _ _ true
  · exact h

theorem release (g : Nat) : (w.release g).Holds P := by
  rw [World.release]
  split
  · exact h.finishSavepoint _ _ false
  · exact h

theorem rollbackTo (g : Nat) : (w.rollbackTo g).2.Holds P := by
  rw [World.rollbackTo]
  split
  · next n t _ _ =>
      split
      · exact h
      · have hcopy := h.setNode w.nextNode (w.nodes n) (h.snapshot n)
        have hnext : World.Holds P
            { w.setNode w.nextNode (w.nodes n) with nextNode := w.nextNode + 1 } :=
          hcopy.of_eq rfl rfl rfl
        have hfinished := hnext.finishSavepoint t (some n) true
        exact (hfinished.setTx t { World.txs _ t with savepoint := some w.nextNode }
          (hfinished.staged t)).of_eq rfl rfl rfl
  · exact h

theorem savepoint (t : Nat) : (w.savepoint t).2.Holds P := by
  rw [World.savepoint]
  split
  · exact h
  · have hnode := h.setNode w.nextNode
      { owner := some t, snapshot := (w.txs t).staged, dirty := (w.txs t).dirty,
                 parent := (w.txs t).savepoint } (h.staged t)
    exact (hnode.setTx t { w.txs t with savepoint := some w.nextNode }
      (h.staged t)).of_eq rfl rfl rfl

theorem beginTx : w.beginTx.2.Holds P := by
  rw [World.beginTx]
  split
  · exact h
  · exact (h.setTx w.nextTx _ (h.published w.db.current)).of_eq rfl rfl rfl

theorem mutate (t : Nat)
    {f : S → Bool → Option Error × S × Bool} (hf : ∀ s d, P s → P (f s d).2.1) :
    (w.mutate t f).2.Holds P := by
  rw [World.mutate]
  split
  · next s _ hs =>
      refine h.setTx t _ (fun s' hs' => ?_)
      obtain rfl : (f s (w.txs t).dirty).2.1 = s' := by simpa using hs'
      exact hf _ _ (h.staged t s hs)
  · exact h
  · exact h

end

theorem commit (hE : E.Keeps P) (h : w.Holds P) (t a : Nat)
    (stored : Stored) : (w.commit E t a stored).2.Holds P := by
  rw [World.commit]
  split
  · next s base _ hs hb =>
      split
      · exact h
      split
      · exact h
      split
      · exact h.rollbackTx t
      have hm : P (E.measure s) := hE.measure s (h.staged t s hs)
      have hmeasured := h.setTx t { w.txs t with staged := some (E.measure s) }
        (fun s' hs' => by cases hs'; exact hm)
      simp only
      split
      · exact hmeasured
      · next next hpage =>
          cases stored with
          | refused e => exact hmeasured
          | broken e => exact hmeasured.of_eq rfl rfl rfl
          | done =>
            have hbase : P ((w.db.published base).getD (E.measure s)) := by
              cases hp : w.db.published base with
              | none => exact hm
              | some s' => exact h.published base s' hp
            exact (hmeasured.publish _ (hE.page _ _ _ hm hbase hpage)).rollbackTx t
  · exact h
  · exact h

theorem step (hE : E.Keeps P) (h : w.Holds P) {e : Event S}
    (he : e.Keeps P) : (w.step E e).2.Holds P := by
  cases e with
  | beginTx => exact h.beginTx
  | mutate t f => exact h.mutate t he
  | savepoint t => exact h.savepoint t
  | release g => exact h.release g
  | rollback g => exact h.rollback g
  | rollbackTo g => exact h.rollbackTo g
  | destroyGuard g => exact (h.rollback g).of_eq rfl rfl rfl
  | moveGuard src => exact h.of_eq rfl rfl rfl
  | assignGuard dst src =>
    simp only [World.step, World.assignGuard]
    split
    · exact h
    · exact (h.rollback dst).of_eq rfl rfl rfl
  | commit t a stored => exact h.commit hE t a stored
  | rollbackTx t => exact h.rollbackTx t
  | moveTx src => exact h.moveTx src
  | assignTx dst src => exact h.assignTx dst src
  | retain => exact h.of_eq rfl rfl rfl
  | drop a => exact h.of_eq rfl rfl rfl
  | close => exact h.of_eq rfl rfl rfl

theorem initial (h : P empty) : (World.initial empty).Holds P where
  published a s hs := by
    by_cases ha : a = 0
    · have : empty = s := by simpa [World.initial, ha] using hs
      exact this ▸ h
    · simp [World.initial, ha] at hs
  staged t s hs := by cases hs
  snapshot n s hs := by cases hs

theorem run (hE : E.Keeps P) (events : List (Event S)) :
    (∀ e ∈ events, e.Keeps P) → ∀ {w : World S}, w.Holds P →
      (Machine.run (World.step E) events w).2.Holds P := by
  induction events with
  | nil => intro _ w h; exact h
  | cons e events ih =>
    intro he w h
    exact ih (fun e' h' => he e' (List.mem_cons_of_mem _ h'))
      (h.step hE (he e List.mem_cons_self))

end World.Holds

end CoreSql.Txn

namespace CoreSql

open Txn

variable {registry : Registry} {paging : State → State → Except Error (Bytes → Bool)}
  {w : World State} {resident : Bytes → Bool} {tables tables' : Tables}

/-- A property of states that the calls and the commit keep holds of every
state of every reachable world. -/
theorem Reachable.holds {P : State → Prop} (hreach : Reachable registry paging w) (hempty : P {})
    (hcall : ∀ (c : Call) s d, P s → P (c.effect registry s d).2.1)
    (hE : (engine registry paging).Keeps P) : w.Holds P := by
  obtain ⟨events, hby, rfl⟩ := hreach
  refine World.Holds.run hE events (fun e he => ?_) (World.Holds.initial hempty)
  have hcalls := hby e he
  cases e with
  | mutate t f =>
    obtain ⟨c, rfl⟩ := hcalls
    exact fun s d => hcall c s d
  | _ => trivial

/-! ## Calls, run by run

`replace` and `insert_from` are several runs; what every run keeps, a call
keeps. -/

/-- A property of transactions that every mutation keeps. -/
structure KeptByPrograms (registry : Registry) (P : Staged → Prop) : Prop where
  insert : ∀ name row s, P s → P ((insertImpl registry name row none).execute s).2
  update : ∀ name assignments filter condition s, P s →
    P ((updateImpl registry name assignments filter condition).execute s).2
  erase : ∀ name filter forced returning s, P s →
    P ((eraseImpl registry name filter forced returning).execute s).2
  conflicts : ∀ name row s, P s → P ((findConflicts registry name row).execute s).2
  projected : ∀ name query s, P s → P ((projectedRows name query).execute s).2
  createTable : ∀ name columns s, P s → P ((createTable registry name columns).execute s).2
  createIndex : ∀ name definition s, P s →
    P ((createIndex registry name definition).execute s).2
  addColumn : ∀ name column s, P s → P ((addColumn registry name column).execute s).2
  setConstraints : ∀ name constraints s, P s →
    P ((setConstraints registry name constraints).execute s).2
  dropTable : ∀ name s, P s → P ((dropTable name).execute s).2
  dropIndex : ∀ name index s, P s → P ((dropIndex registry name index).execute s).2
  renameTable : ∀ name replacement s, P s →
    P ((renameTable registry name replacement).execute s).2
  renameColumn : ∀ name column replacement s, P s →
    P ((renameColumn registry name column replacement).execute s).2
  vacuum : ∀ s, P s → P ((vacuum registry).execute s).2

namespace KeptByPrograms

variable {P : Staged → Prop} {α : Type} {s : Staged}
  {first second body : Staged → Except Error Unit × Staged}

theorem quietly {p : Prog α} (hp : ∀ s, P s → P (p.execute s).2) (hs : P s) :
    P (Calls.quietly p s).2 := by
  have h := hp s hs
  rw [Calls.quietly]
  cases hrun : p.execute s with
  | mk r s' =>
    rw [hrun] at h
    cases r <;> exact h

theorem andThen (hfirst : ∀ s, P s → P (first s).2) (hsecond : ∀ s, P s → P (second s).2)
    (hs : P s) : P (Calls.andThen first second s).2 := by
  have h := hfirst s hs
  rw [Calls.andThen]
  cases hrun : first s with
  | mk r s' =>
    rw [hrun] at h
    cases r with
    | error e => exact h
    | ok _ => exact hsecond s' h

theorem guarded (hbody : ∀ s, P s → P (body s).2) (hs : P s) : P (Calls.guarded body s).2 := by
  have h := hbody s hs
  rw [Calls.guarded]
  cases hrun : body s with
  | mk r s' =>
    rw [hrun] at h
    cases r with
    | error e => exact hs
    | ok _ => exact h

variable (K : KeptByPrograms registry P)
include K

theorem replace (name : Bytes) (row : Row) (hs : P s) :
    P (Calls.replace registry name row s).2 := by
  have hfound := K.conflicts name row s hs
  rw [Calls.replace]
  split
  · next hrun =>
      rw [hrun] at hfound
      exact hfound
  · next hrun =>
      rw [hrun] at hfound
      exact quietly (K.insert name _) hfound
  · next hrun =>
      rw [hrun] at hfound
      refine guarded (fun s hs => andThen (fun s hs => ?_) (fun s hs => ?_) hs) hfound
      · exact quietly (K.erase name none _ false) hs
      · exact quietly (K.insert name _) hs

theorem insertRows (name : Bytes) (replacing : Bool) (rows : List Row) :
    ∀ s, P s → P (Calls.insertRows registry name replacing rows s).2 := by
  induction rows with
  | nil => intro s hs; exact hs
  | cons row rest ih =>
    intro s hs
    refine andThen (fun s hs => ?_) ih hs
    split
    · exact K.replace name row hs
    · exact quietly (K.insert name row) hs

theorem insertFrom (name : Bytes) (query : Tables → Except Error Result) (replacing : Bool)
    (hs : P s) : P (Calls.insertFrom registry name query replacing s).2 := by
  have hrows := K.projected name query s hs
  rw [Calls.insertFrom]
  split
  · next hrun =>
      rw [hrun] at hrows
      exact hrows
  · next hrun =>
      rw [hrun] at hrows
      exact guarded (K.insertRows name replacing _) hrows

/-- What every mutation keeps, every call keeps. -/
theorem call (c : Call) (hs : P s) : P (c.run registry s).2 := by
  cases c with
  | insert name row => exact K.insert name row s hs
  | update name assignments filter condition =>
    exact K.update name assignments filter condition s hs
  | erase name filter returning => exact K.erase name filter none returning s hs
  | replace name row => exact K.replace name row hs
  | insertFrom name query replacing => exact K.insertFrom name query replacing hs
  | createTable name columns => exact K.createTable name columns s hs
  | createIndex name definition => exact K.createIndex name definition s hs
  | addColumn name column => exact K.addColumn name column s hs
  | setConstraints name constraints => exact K.setConstraints name constraints s hs
  | dropTable name => exact K.dropTable name s hs
  | dropIndex name index => exact K.dropIndex name index s hs
  | renameTable name replacement => exact K.renameTable name replacement s hs
  | renameColumn name column replacement => exact K.renameColumn name column replacement s hs
  | vacuum => exact K.vacuum s hs

omit K in
/-- The same, as the transaction layer sees a call. -/
theorem effect {P : State → Prop} (K : KeptByPrograms registry fun s => P s.state) (c : Call)
    (s : State) (d : Bool) (hs : P s) : P (c.effect registry s d).2.1 := by
  have h := K.call c (s := ⟨s, d⟩) hs
  rw [Call.effect]
  cases hrun : c.run registry ⟨s, d⟩ with
  | mk r s' =>
    rw [hrun] at h
    cases r <;> exact h

end KeptByPrograms

/-! ## Sorted maps -/

theorem sorted_keptByPrograms (registry : Registry) :
    KeptByPrograms registry fun s => SortedMap.Sorted s.state.tables where
  insert _ _ _ h := Prog.execute_sorted _ h
  update _ _ _ _ _ h := Prog.execute_sorted _ h
  erase _ _ _ _ _ h := Prog.execute_sorted _ h
  conflicts _ _ _ h := Prog.execute_sorted _ h
  projected _ _ _ h := Prog.execute_sorted _ h
  createTable _ _ _ h := Prog.execute_sorted _ h
  createIndex _ _ _ h := Prog.execute_sorted _ h
  addColumn _ _ _ h := Prog.execute_sorted _ h
  setConstraints _ _ _ h := Prog.execute_sorted _ h
  dropTable _ _ h := Prog.execute_sorted _ h
  dropIndex _ _ _ h := Prog.execute_sorted _ h
  renameTable _ _ _ h := Prog.execute_sorted _ h
  renameColumn _ _ _ _ h := Prog.execute_sorted _ h
  vacuum _ h := Prog.execute_sorted _ h

/-- Paging a map of tables keeps the names and pages some of the tables. -/
theorem pageTables_ok (h : pageTables registry resident tables = .ok tables') :
    List.Forall₂ (fun e e' => e'.1 = e.1 ∧
      (e'.2 = e.2 ∨ pagePrimaryIndex registry e.2 = .ok e'.2)) tables tables' := by
  refine (Fallible.mapM_eq_ok.mp h).imp fun e e' he => ?_
  split at he
  · obtain ⟨t, ht, he⟩ := Fallible.bind_eq_ok.mp he
    cases he
    exact ⟨rfl, .inr ht⟩
  · cases he
    exact ⟨rfl, .inl rfl⟩

theorem pageTables_sorted
    (hs : SortedMap.Sorted tables) (h : pageTables registry resident tables = .ok tables') :
    SortedMap.Sorted tables' := by
  have hkeys : tables'.map Prod.fst = tables.map Prod.fst := by
    have hpaged := pageTables_ok h
    clear h hs
    induction hpaged with
    | nil => rfl
    | cons he _ ih => rw [List.map_cons, List.map_cons, he.1, ih]
  have hpairs : (tables.map Prod.fst).Pairwise (· < ·) := List.pairwise_map.mpr hs
  rw [← hkeys] at hpairs
  exact List.pairwise_map.mp hpairs

theorem engine_keeps_sorted :
    (engine registry paging).Keeps fun s => SortedMap.Sorted s.tables where
  measure _ h := h
  page s base s' hs _ h := by
    obtain ⟨resident, -, h⟩ := Fallible.bind_eq_ok.mp h
    obtain ⟨tables, htables, h⟩ := Fallible.bind_eq_ok.mp h
    cases h
    exact pageTables_sorted hs htables

/-- Every state of a reachable world has its tables sorted by name. -/
theorem Reachable.sorted (h : Reachable registry paging w) :
    w.Holds fun s => SortedMap.Sorted s.tables :=
  h.holds (P := fun s => SortedMap.Sorted s.tables) SortedMap.sorted_nil
    (fun c s d hs => KeptByPrograms.effect (P := fun s => SortedMap.Sorted s.tables)
      (sorted_keptByPrograms registry) c s d hs)
    engine_keeps_sorted

end CoreSql
