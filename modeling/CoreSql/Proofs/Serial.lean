import CoreSql.Data.Scalars
import CoreSql.Proofs.Images
import CoreSql.Proofs.Indexes
import CoreSql.Proofs.Reach
import CoreSql.Txn.History
import Mathlib.Tactic.Common

/-!
# Optimistic commits form a serial history

`commit` compares the address of the current state with the address the
transaction began from. Addresses are reused, so what has to be shown is
that equal addresses mean the same publication: while an object holds its
base, no publication is allocated there.

* `Frame`: what the savepoint operations do not touch.
* `Serial`: the invariant. Every held base is the address of the chain entry
  its object began from, and the current address is that of the last entry.
* `serial_step`: every event keeps it; the commit case is the argument above.

A failed commit is a different matter. It has already refreshed the
statistics of the staged state, in place, and they stay refreshed: a peak
that was only ever staged is published by a later commit. Everything else
about the staged state is as it was.
-/

namespace CoreSql.Txn

variable {S : Type} {h : History S} {w w' : World S} {version : Nat → Nat} {t dst src a : Nat}

/-! ## What stays -/

/-- The published states and the bases are untouched. -/
structure Frame (w w' : World S) : Prop where
  published : w'.db.published = w.db.published
  current : w'.db.current = w.db.current
  base : ∀ t, (w'.txs t).base = (w.txs t).base
  nextTx : w'.nextTx = w.nextTx

namespace Frame

theorem refl (w : World S) : Frame w w := ⟨rfl, rfl, fun _ => rfl, rfl⟩

theorem trans {w₁ w₂ w₃ : World S} (h : Frame w₁ w₂) (h' : Frame w₂ w₃) : Frame w₁ w₃ where
  published := h'.published.trans h.published
  current := h'.current.trans h.current
  base t := (h'.base t).trans (h.base t)
  nextTx := h'.nextTx.trans h.nextTx

theorem setTx (w : World S) (t : Nat) (tx : Transaction S) (hb : tx.base = (w.txs t).base) :
    Frame w (w.setTx t tx) where
  published := rfl
  current := rfl
  base t' := by
    by_cases ht : t' = t
    · subst ht
      simpa [World.setTx] using hb
    · simp [World.setTx, ht]
  nextTx := rfl

theorem setNode (w : World S) (n : Nat) (node : SavepointState S) : Frame w (w.setNode n node) :=
  ⟨rfl, rfl, fun _ => rfl, rfl⟩

theorem setGuard (w : World S) (g : Nat) (n : Option Nat) : Frame w (w.setGuard g n) :=
  ⟨rfl, rfl, fun _ => rfl, rfl⟩

theorem popUntil (target : Option Nat) (t fuel : Nat) :
    ∀ w : World S, Frame w (World.popUntil target t fuel w) := by
  induction fuel with
  | zero => intro w; exact refl w
  | succ fuel ih =>
    intro w
    rw [World.popUntil]
    cases (w.txs t).savepoint with
    | none => exact refl w
    | some point =>
      have hpop := (setTx w t { w.txs t with savepoint := (w.nodes point).parent } rfl).trans
        (setNode _ point
          { w.nodes point with owner := none, snapshot := none, parent := none })
      simp only
      split
      · exact hpop
      · exact hpop.trans (ih _)

theorem finishSavepoint (w : World S) (t : Nat) (target : Option Nat) (restore : Bool) :
    Frame w (w.finishSavepoint t target restore) := by
  cases target with
  | none => exact popUntil none t _ w
  | some n =>
    cases restore with
    | false => exact popUntil (some n) t _ w
    | true =>
      have hrestore := (setTx w t { w.txs t with
          staged := (w.nodes n).snapshot, dirty := (w.nodes n).dirty } rfl).trans
        (setNode _ n { w.nodes n with snapshot := none })
      exact hrestore.trans (popUntil (some n) t _ _)

theorem retarget (t fuel : Nat) :
    ∀ (n : Option Nat) (w : World S), Frame w (World.retarget t fuel n w) := by
  induction fuel with
  | zero => intro n w; exact refl w
  | succ fuel ih =>
    intro n w
    cases n with
    | none => exact refl w
    | some n => exact (setNode w n { w.nodes n with owner := some t }).trans (ih _ _)

theorem rollback (w : World S) (g : Nat) : Frame w (w.rollback g) := by
  rw [World.rollback]
  split
  · exact finishSavepoint w _ _ true
  · exact refl w

theorem release (w : World S) (g : Nat) : Frame w (w.release g) := by
  rw [World.release]
  split
  · exact finishSavepoint w _ _ false
  · exact refl w

theorem rollbackTo (w : World S) (g : Nat) : Frame w (w.rollbackTo g).2 := by
  rw [World.rollbackTo]
  split
  · next n t _ _ =>
      split
      · exact refl w
      · have hcopy : Frame w { w.setNode w.nextNode (w.nodes n) with nextNode := w.nextNode + 1 } :=
          ⟨rfl, rfl, fun _ => rfl, rfl⟩
        have hfinished := hcopy.trans (finishSavepoint _ t (some n) true)
        exact (hfinished.trans
          (setTx _ t { World.txs _ t with savepoint := some w.nextNode } rfl)).trans
          (setGuard _ g (some w.nextNode))
  · exact refl w

theorem savepoint (w : World S) (t : Nat) : Frame w (w.savepoint t).2 := by
  rw [World.savepoint]
  split
  · exact refl w
  · exact (setTx w t { w.txs t with savepoint := some w.nextNode } rfl).trans
      ⟨rfl, rfl, fun _ => rfl, rfl⟩

theorem mutate (w : World S) (t : Nat) (f : S → Bool → Option Error × S × Bool) :
    Frame w (w.mutate t f).2 := by
  rw [World.mutate]
  split
  · exact setTx w t _ rfl
  · exact refl w
  · exact refl w

end Frame

/-- Closing an object drops its base and nobody else's. -/
structure Closed (t : Nat) (w w' : World S) : Prop where
  published : w'.db.published = w.db.published
  current : w'.db.current = w.db.current
  base : ∀ t', (w'.txs t').base = if t' = t then none else (w.txs t').base
  nextTx : w'.nextTx = w.nextTx

theorem rollbackTx_closed (w : World S) (t : Nat) : Closed t w (w.rollbackTx t) := by
  have hframe : Frame w
      (if (w.txs t).savepoint.isSome then w.finishSavepoint t none false else w) := by
    split
    · exact Frame.finishSavepoint w t none false
    · exact Frame.refl w
  refine ⟨hframe.published, hframe.current, fun t' => ?_, hframe.nextTx⟩
  by_cases ht : t' = t
  · subst ht
    simp [World.rollbackTx, World.setTx]
  · rw [if_neg ht, ← hframe.base t']
    simp [World.rollbackTx, World.setTx, ht]

structure Moved (dst src : Nat) (w w' : World S) : Prop where
  published : w'.db.published = w.db.published
  current : w'.db.current = w.db.current
  base : ∀ t, (w'.txs t).base =
    if t = dst then (w.txs src).base else if t = src then none else (w.txs t).base
  nextTx : w'.nextTx = w.nextTx

theorem handOver_moved (w : World S) (dst src fuel : Nat) :
    Moved dst src w (World.retarget dst fuel (w.txs src).savepoint
      ((w.setTx src { dirty := (w.txs src).dirty }).setTx dst (w.txs src))) := by
  have hframe := Frame.retarget dst fuel (w.txs src).savepoint
    ((w.setTx src { dirty := (w.txs src).dirty }).setTx dst (w.txs src))
  refine ⟨hframe.published, hframe.current, fun t => ?_, hframe.nextTx⟩
  rw [hframe.base t]
  by_cases hd : t = dst
  · subst hd
    simp [World.setTx]
  · by_cases hs : t = src
    · subst hs
      simp [World.setTx, hd]
    · simp [World.setTx, hd, hs]

/-! ## Allocation -/

theorem le_foldl_max (l : List Nat) : ∀ (m x : Nat), x ∈ l ∨ x ≤ m → x ≤ l.foldl max m := by
  induction l with
  | nil => intro m x h; simpa using h
  | cons a l ih =>
    intro m x h
    refine ih _ x ?_
    rcases h with h | h
    · rcases List.mem_cons.mp h with rfl | h
      · exact .inr (le_max_right _ _)
      · exact .inl h
    · exact .inr (le_trans h (le_max_left _ _))

theorem allocate_notMem (held : List Nat) (a : Nat) : allocate held a ∉ held := by
  rw [allocate]
  split
  · intro h
    have := le_foldl_max held 0 _ (.inl h)
    omega
  · next h => exact h

/-! ## The invariant -/

/-- `version` says which chain entry an address that is current or held
stands for. -/
structure Serial (h : History S) (w : World S) (version : Nat → Nat) : Prop where
  chain_ne_nil : h.chain ≠ []
  current_version : version w.db.current = h.chain.length - 1
  current_state : w.db.published w.db.current = h.chain.getLast?
  held : ∀ t a, (w.txs t).base = some a →
    h.read t = some (version a) ∧ version a < h.chain.length ∧
      w.db.published a = h.chain[version a]?
  unborn : ∀ t, w.nextTx ≤ t → (w.txs t).base = none

theorem Serial.initial (empty : S) :
    Serial (History.start empty) (World.initial empty) fun _ => 0 where
  chain_ne_nil := by simp [History.start]
  current_version := rfl
  current_state := by simp [History.start, World.initial]
  held t a h := by simp [World.initial] at h
  unborn t _ := rfl

section

variable (hs : Serial h w version)
include hs

theorem Serial.frame (hf : Frame w w') : Serial h w' version where
  chain_ne_nil := hs.chain_ne_nil
  current_version := hf.current ▸ hs.current_version
  current_state := by rw [hf.published, hf.current]; exact hs.current_state
  held t a ha := by
    rw [hf.published]
    exact hs.held t a (hf.base t ▸ ha)
  unborn t ht := by
    rw [hf.base t]
    exact hs.unborn t (hf.nextTx ▸ ht)

theorem Serial.close (hc : Closed t w w') : Serial (h.forget t) w' version where
  chain_ne_nil := hs.chain_ne_nil
  current_version := hc.current ▸ hs.current_version
  current_state := by rw [hc.published, hc.current]; exact hs.current_state
  held t' a ha := by
    rw [hc.base t'] at ha
    split at ha
    · cases ha
    · next ht =>
        rw [hc.published]
        obtain ⟨hread, hstate⟩ := hs.held t' a ha
        exact ⟨by simpa [History.forget, ht] using hread, hstate⟩
  unborn t' ht := by
    rw [hc.base t', hs.unborn t' (hc.nextTx ▸ ht)]
    split <;> rfl

theorem Serial.move (hm : Moved dst src w w') (hdst : dst < w.nextTx) :
    Serial (h.follow dst src) w' version where
  chain_ne_nil := hs.chain_ne_nil
  current_version := hm.current ▸ hs.current_version
  current_state := by rw [hm.published, hm.current]; exact hs.current_state
  held t a ha := by
    rw [hm.base t] at ha
    rw [hm.published]
    split at ha
    · next hd =>
        subst hd
        obtain ⟨hread, hstate⟩ := hs.held src a ha
        exact ⟨by simpa [History.follow] using hread, hstate⟩
    · next hd =>
        split at ha
        · cases ha
        · next hsrc =>
            obtain ⟨hread, hstate⟩ := hs.held t a ha
            exact ⟨by simpa [History.follow, hd, hsrc] using hread, hstate⟩
  unborn t ht := by
    have hle : w.nextTx ≤ t := hm.nextTx ▸ ht
    have hd : t ≠ dst := by omega
    rw [hm.base t, if_neg hd, hs.unborn t hle]
    split <;> rfl

theorem Serial.beginTx : Serial (h.next w .beginTx w.beginTx) w.beginTx.2 version := by
  rw [World.beginTx]
  cases w.db.healthy with
  | some e => exact hs
  | none =>
    refine ⟨hs.chain_ne_nil, hs.current_version, hs.current_state, fun t a ha => ?_,
      fun t ht => ?_⟩
    · by_cases ht : t = w.nextTx
      · subst ht
        obtain rfl : w.db.current = a := by simpa [World.setTx] using ha
        have hpos : 0 < h.chain.length := List.length_pos_iff.mpr hs.chain_ne_nil
        refine ⟨by simp [History.next, hs.current_version], ?_, ?_⟩
        · rw [hs.current_version]
          show h.chain.length - 1 < h.chain.length
          omega
        · show w.db.published w.db.current = h.chain[version w.db.current]?
          rw [hs.current_state, hs.current_version, List.getLast?_eq_getElem?]
      · have ha' : (w.txs t).base = some a := by simpa [World.setTx, ht] using ha
        obtain ⟨hread, hstate⟩ := hs.held t a ha'
        exact ⟨by simpa [History.next, ht] using hread, hstate⟩
    · have hne : t ≠ w.nextTx := by
        have : w.nextTx + 1 ≤ t := ht
        omega
      have hle : w.nextTx ≤ t := Nat.le_of_succ_le ht
      simpa [World.setTx, hne] using hs.unborn t hle

end

/-- The entry an assignment overwrites need not be struck out first. -/
theorem History.forget_follow (h : History S) (hne : dst ≠ src) :
    (h.forget dst).follow dst src = h.follow dst src := by
  simp only [History.forget, History.follow, Function.update_of_ne hne.symm]
  rw [Function.update_comm hne, Function.update_idem]

theorem History.next_commit {stored : Stored} (hdirty : (w.txs t).dirty = true) :
    h.next w (.commit t a stored) (.done, w') =
      { h.forget t with chain := h.chain ++ (w'.db.published w'.db.current).toList } := by
  simp [History.next, hdirty]

/-! ## What a commit can do -/

/-- The world in which a commit has measured the staged state. -/
def World.measured (E : Engine S) (w : World S) (t : Nat) (s : S) : World S :=
  w.setTx t { w.txs t with staged := some (E.measure s) }

inductive Committed (E : Engine S) (w : World S) (t a : Nat) : Response × World S → Prop where
  /-- It was refused at the door. -/
  | refused (e : Error) : Committed E w t a (.error e, w)
  /-- There was nothing to publish. -/
  | clean (hdirty : (w.txs t).dirty = false) : Committed E w t a (.done, w.rollbackTx t)
  /-- Paging or the log said no; `failed` is whether the store is poisoned. -/
  | failed (e : Error) (s : S) (failed : Bool) (hs : (w.txs t).staged = some s) :
      Committed E w t a (.error e,
        { w.measured E t s with db := { (w.measured E t s).db with failed } })
  /-- The paged state was published. -/
  | published (s next base : S) (hdirty : (w.txs t).dirty = true)
      (hs : (w.txs t).staged = some s) (hb : (w.txs t).base = some w.db.current)
      (hpage : E.page (E.measure s) base = .ok next) :
      Committed E w t a (.done,
        ({ w.measured E t s with
          db := w.db.publish (allocate (heldBy w.db (w.measured E t s).bases) a) next }).rollbackTx
            t)

theorem commit_committed (E : Engine S) (w : World S) (t a : Nat) (stored : Stored) :
    Committed E w t a (w.commit E t a stored) := by
  rw [World.commit]
  split
  · next s base hactive hs hb =>
      split
      · exact .refused _
      split
      · exact .refused _
      next hbase =>
      obtain rfl : w.db.current = base := by simpa using hbase
      split
      · next hdirty => exact .clean (by simpa using hdirty)
      · next hdirty =>
          simp only
          split
          · exact .failed _ s w.db.failed hs
          · next next hpage =>
              cases stored with
              | refused e => exact .failed e s w.db.failed hs
              | broken e => exact .failed e s true hs
              | done => exact .published s next _ (by simpa using hdirty) hs hb hpage
  · exact .refused _
  · exact .refused _

theorem measured_frame (E : Engine S) (w : World S) (t : Nat) (s : S) :
    Frame w (w.measured E t s) :=
  Frame.setTx w t _ rfl

theorem Serial.allocate_ne (hs : Serial h w version) {t' b : Nat} (hb : (w.txs t').base = some b) :
    b ≠ allocate (heldBy w.db w.bases) a := by
  rintro rfl
  refine allocate_notMem (heldBy w.db w.bases) a ?_
  have hlt : t' < w.nextTx := by
    by_contra hge
    rw [hs.unborn t' (by omega)] at hb
    cases hb
  have hmem : allocate (heldBy w.db w.bases) a ∈ w.bases :=
    List.mem_filterMap.mpr ⟨t', List.mem_range.mpr hlt, hb⟩
  exact List.mem_cons_of_mem _ (List.mem_append_left _ hmem)

/-- A publication: the new entry gets the new address, and no held address
changes its meaning. -/
theorem Serial.publish (hs : Serial h w version) (a : Nat) (next : S) :
    Serial { h with chain := h.chain ++ [next] }
      { w with db := w.db.publish (allocate (heldBy w.db w.bases) a) next }
      (Function.update version (allocate (heldBy w.db w.bases) a) h.chain.length) where
  chain_ne_nil := by simp
  current_version := by simp [Database.publish]
  current_state := by simp [Database.publish]
  held t b hb := by
    have hne := hs.allocate_ne (a := a) hb
    obtain ⟨hread, hlt, hstate⟩ := hs.held t b hb
    simp only [Function.update_of_ne hne, Database.publish, List.length_append]
    refine ⟨hread, by omega, hstate.trans ?_⟩
    rw [List.getElem?_append_left hlt]
  unborn := hs.unborn

theorem Serial.commit (E : Engine S) (hs : Serial h w version) (t a : Nat) (stored : Stored) :
    ∃ version', Serial (h.next w (.commit t a stored) (w.commit E t a stored))
      (w.commit E t a stored).2 version' := by
  have hcases := commit_committed E w t a stored
  generalize w.commit E t a stored = x at hcases ⊢
  cases hcases with
  | refused e => exact ⟨version, hs⟩
  | clean hdirty =>
    refine ⟨version, ?_⟩
    simpa [History.next, hdirty] using hs.close (rollbackTx_closed w t)
  | failed e s failed hstaged =>
    exact ⟨version, hs.frame ((measured_frame E w t s).trans ⟨rfl, rfl, fun _ => rfl, rfl⟩)⟩
  | published s next base hdirty hstaged hb hpage =>
    have hmeasured := hs.frame (measured_frame E w t s)
    have hpublished := hmeasured.publish a next
    have hclosed := rollbackTx_closed
      { w.measured E t s with
        db := w.db.publish (allocate (heldBy w.db (w.measured E t s).bases) a) next } t
    have hstate : ∀ a', (w.db.publish a' next).published (w.db.publish a' next).current =
        some next := fun a' => by simp [Database.publish]
    refine ⟨Function.update version (allocate (heldBy w.db (w.measured E t s).bases) a)
      h.chain.length, ?_⟩
    rw [History.next_commit hdirty, hclosed.published, hclosed.current, hstate]
    exact hpublished.close hclosed

theorem serial_step (E : Engine S) (hs : Serial h w version) (e : Event S) :
    ∃ version', Serial (h.next w e (w.step E e)) (w.step E e).2 version' := by
  cases e with
  | beginTx => exact ⟨version, hs.beginTx⟩
  | mutate t f => exact ⟨version, hs.frame (Frame.mutate w t f)⟩
  | savepoint t => exact ⟨version, hs.frame (Frame.savepoint w t)⟩
  | release g => exact ⟨version, hs.frame (Frame.release w g)⟩
  | rollback g => exact ⟨version, hs.frame (Frame.rollback w g)⟩
  | rollbackTo g => exact ⟨version, hs.frame (Frame.rollbackTo w g)⟩
  | destroyGuard g =>
    exact ⟨version, hs.frame ((Frame.rollback w g).trans (Frame.setGuard _ g none))⟩
  | moveGuard src => exact ⟨version, hs.frame ⟨rfl, rfl, fun _ => rfl, rfl⟩⟩
  | assignGuard dst src =>
    refine ⟨version, hs.frame ?_⟩
    simp only [World.step, World.assignGuard]
    split
    · exact Frame.refl w
    · exact (Frame.rollback w dst).trans ⟨rfl, rfl, fun _ => rfl, rfl⟩
  | commit t a stored => exact hs.commit E t a stored
  | rollbackTx t => exact ⟨version, hs.close (rollbackTx_closed w t)⟩
  | moveTx src =>
    have hroom : Serial h { w with nextTx := w.nextTx + 1 } version :=
      { hs with unborn := fun t ht => hs.unborn t (Nat.le_of_succ_le ht) }
    exact ⟨version, hroom.move (handOver_moved _ w.nextTx src w.nextNode) (Nat.lt_succ_self _)⟩
  | assignTx dst src =>
    simp only [World.step, World.assignTx, History.next]
    split
    · exact ⟨version, hs⟩
    · next hne =>
        push Not at hne
        have hclosed := rollbackTx_closed w dst
        have hmoved := (hs.close hclosed).move
          (handOver_moved (w.rollbackTx dst) dst src (w.rollbackTx dst).nextNode)
          (by rw [hclosed.nextTx]; exact hne.2)
        rw [History.forget_follow h hne.1] at hmoved
        exact ⟨version, hmoved⟩
  | retain => exact ⟨version, hs.frame ⟨rfl, rfl, fun _ => rfl, rfl⟩⟩
  | drop a => exact ⟨version, hs.frame ⟨rfl, rfl, fun _ => rfl, rfl⟩⟩
  | close => exact ⟨version, hs.frame ⟨rfl, rfl, fun _ => rfl, rfl⟩⟩

theorem serial_run (E : Engine S) (empty : S) (events : List (Event S)) : ∃ version, Serial
      (Machine.run (World.watched E) events (History.start empty, World.initial empty)).2.1
      (Machine.run (World.watched E) events (History.start empty, World.initial empty)).2.2
      version := by
  refine Machine.run_invariant (P := fun x : History S × World S => ∃ version,
    Serial x.1 x.2 version)
    (fun x e hx => ?_) events _ ⟨_, Serial.initial empty⟩
  obtain ⟨version, hs⟩ := hx
  exact serial_step E hs e

theorem watched_run (E : Engine S) (events : List (Event S)) :
    ∀ x : History S × World S, (Machine.run (World.watched E) events x).2.2 =
      (Machine.run (World.step E) events x.2).2 := by
  induction events with
  | nil => intro x; rfl
  | cons e events ih => intro x; exact ih _

end CoreSql.Txn

namespace CoreSql

open Txn

variable {registry : Registry}

/-- What paging makes of a table: the table itself, or the table with its hash index exchanged for a
paged one. The paged index finds the rows of the table and nothing else, each under its key, and
where the hash index held the rows the two answer every key alike. -/
def Table.PagedAs (registry : Registry) (t t' : Table) : Prop :=
  t' = t ∨ ∃ column hash paged, t.primary = some ⟨column, .hash hash⟩ ∧
    t' = { t with primary := some ⟨column, .paged paged⟩ } ∧
    paged.size = (t.entries column).length ∧
    (∀ v l, paged.lookup v = some l ↔
      ∃ e ∈ t.entries column, payload e.1 = payload v ∧ e.2 = l) ∧
    (registry.Lawful → hash.native = true →
      (Index.hash hash).Holds registry integerType (t.entries column) →
      ∀ v, registry.Key integerType v → paged.lookup v = hash.lookup v)

/-- The same tables under the same names, some of them with a paged index. -/
def State.PagedAs (registry : Registry) (s s' : State) : Prop :=
  s.epoch = s'.epoch ∧
    List.Forall₂ (fun e e' => e.1 = e'.1 ∧ e.2.PagedAs registry e'.2) s.tables s'.tables

def State.unmeasured (s : State) : State := { s with stats := {} }

section

variable {source : List (Value × RowLocation)} {paged : PagedIndex}
  (hbuild : PagedIndex.build source = .ok paged)
include hbuild

theorem PagedIndex.build_size : paged.size = source.length := by
  obtain ⟨-, hperm, hchanges⟩ := build_eq_ok_iff.mp hbuild
  rw [size, hchanges, List.foldl_nil, hperm.length_eq, keysOf, List.length_map]

theorem PagedIndex.build_lookup (v : Value) (l : RowLocation) :
    paged.lookup v = some l ↔ ∃ e ∈ source, payload e.1 = payload v ∧ e.2 = l := by
  obtain ⟨hsorted, hperm, hchanges⟩ := build_eq_ok_iff.mp hbuild
  have hfind : paged.lookup v = SortedMap.find (payload v) paged.base := by
    rw [lookup, hchanges]
    rfl
  rw [hfind, hsorted.find_eq_some_iff, hperm.mem_iff, keysOf, List.mem_map]
  simp only [Prod.mk.injEq]

/-- Built from the entries a native hash index holds, the paged index answers as it does. -/
theorem PagedIndex.build_lookup_eq (hlawful : registry.Lawful) {type : SqlType} {hash : HashIndex}
    (hnative : hash.native = true) (hholds : (Index.hash hash).Holds registry type source)
      {v : Value}
    (hv : registry.Key type v) : paged.lookup v = hash.lookup v := by
  obtain ⟨hfits, hmap⟩ := hholds
  obtain ⟨addon, equal, -, hkeyed, -, -, hi64, -⟩ := hfits.of_addon
  have hsame : ∀ e ∈ source, (registry.sameKey type e.1 v = true ↔ payload e.1 = payload v) := by
    intro e he
    rw [hkeyed.sameKey_eq]
    exact (hlawful type addon hkeyed.registered hkeyed.allowed).native_equal (hi64 ▸ hnative)
      hkeyed.comparable (hkeyed.accepts (hmap.keys e he)) (hkeyed.accepts hv)
  refine Option.ext fun l => ?_
  rw [build_lookup hbuild, hmap.exact v hv]
  constructor
  · rintro ⟨e, he, hpayload, rfl⟩
    exact ⟨e.1, he, (hsame e he).mpr hpayload⟩
  · rintro ⟨k, hk, hkv⟩
    exact ⟨_, hk, (hsame _ hk).mp hkv, rfl⟩

end

theorem pagePrimaryIndex_pagedAs {t t' : Table}
    (h : pagePrimaryIndex registry t = .ok t') : t.PagedAs registry t' := by
  rw [pagePrimaryIndex] at h
  split at h
  · next column hash _ hprimary =>
      obtain ⟨paged, hbuild, h⟩ := Fallible.bind_eq_ok.mp h
      cases h
      exact .inr ⟨column, hash, paged, hprimary, rfl, PagedIndex.build_size hbuild,
        PagedIndex.build_lookup hbuild,
        fun hlawful hnative hholds _ => PagedIndex.build_lookup_eq hbuild hlawful hnative hholds⟩
  · cases h
    exact .inl rfl

theorem engine_page_pagedAs
    {paging : State → State → Except Error (Bytes → Bool)} {s base next : State}
    (h : (engine registry paging).page ((engine registry paging).measure s) base = .ok next) :
    s.PagedAs registry next := by
  obtain ⟨resident, -, h⟩ := Fallible.bind_eq_ok.mp h
  obtain ⟨tables, htables, h⟩ := Fallible.bind_eq_ok.mp h
  cases h
  refine ⟨rfl, (pageTables_ok htables).imp fun e e' he => ⟨he.1.symm, ?_⟩⟩
  rcases he.2 with heq | hpaged
  · exact .inl heq
  · exact pagePrimaryIndex_pagedAs hpaged

/-- Every dirty commit that succeeds began from the last published state and
publishes its staged state after it, with hash indexes exchanged for paged ones
that answer alike; a clean one publishes nothing; a failed one leaves the
published state alone, and the staged one but for its statistics. -/
theorem optimistic_commits_are_serial (registry : Registry)
    (paging : State → State → Except Error (Bytes → Bool)) (events : List (Txn.Event State)) :
    let E := engine registry paging
    let x := (Machine.run (World.watched E) events (History.start {}, World.initial {})).2
    x.2 = (Machine.run (World.step E) events (World.initial {})).2 ∧
    x.2.db.published x.2.db.current = x.1.chain.getLast? ∧
    ∀ t a stored,
      let r := x.2.commit E t a stored
      let h := x.1.next x.2 (.commit t a stored) r
      (r.1 = .done → (x.2.txs t).dirty = true →
        ∃ staged next, (x.2.txs t).staged = some staged ∧ staged.PagedAs registry next ∧
          x.1.read t = some (x.1.chain.length - 1) ∧ h.chain = x.1.chain ++ [next] ∧
          r.2.db.published r.2.db.current = some next) ∧
      (r.1 = .done → (x.2.txs t).dirty = false →
        h.chain = x.1.chain ∧
          r.2.db.published r.2.db.current = x.2.db.published x.2.db.current) ∧
      (∀ e, r.1 = .error e →
        h.chain = x.1.chain ∧ r.2.db.published = x.2.db.published ∧
          r.2.db.current = x.2.db.current ∧
          (r.2.txs t).staged.map State.unmeasured = (x.2.txs t).staged.map State.unmeasured ∧
          (r.2.txs t).dirty = (x.2.txs t).dirty) := by
  intro E x
  obtain ⟨version, hs⟩ := serial_run E ({} : State) events
  refine ⟨watched_run E events _, hs.current_state, fun t a stored => ?_⟩
  have hcases := commit_committed E x.2 t a stored
  simp only
  generalize x.2.commit E t a stored = r at hcases ⊢
  cases hcases with
  | refused e => exact ⟨by simp, by simp, fun _ _ => ⟨rfl, rfl, rfl, rfl, rfl⟩⟩
  | clean hdirty =>
      have hclosed := rollbackTx_closed x.2 t
      refine ⟨fun _ hd => by simp [hdirty] at hd, fun _ _ => ⟨?_, ?_⟩, fun e he => by cases he⟩
      · simp [History.next, hdirty, History.forget]
      · rw [hclosed.published, hclosed.current]
  | failed e s failed hstaged =>
      refine ⟨by simp, by simp, fun _ _ => ⟨rfl, rfl, rfl, ?_, ?_⟩⟩
      · simp [World.measured, World.setTx, hstaged, E, engine, State.unmeasured]
      · simp [World.measured, World.setTx]
  | published s next base hdirty hstaged hb hpage =>
      have hclosed := rollbackTx_closed
        { x.2.measured E t s with
          db := x.2.db.publish (allocate (heldBy x.2.db (x.2.measured E t s).bases) a) next } t
      have hstate : ∀ a', (x.2.db.publish a' next).published (x.2.db.publish a' next).current =
          some next := fun a' => by simp [Database.publish]
      -- Equal addresses: the entry it read is the last one.
      have hread : x.1.read t = some (x.1.chain.length - 1) := by
        rw [(hs.held t _ hb).1, hs.current_version]
      refine ⟨fun _ _ => ⟨s, next, hstaged, engine_page_pagedAs hpage, hread, ?_, ?_⟩,
        fun _ hd => by simp [hdirty] at hd, fun e he => by cases he⟩
      · rw [History.next_commit hdirty, hclosed.published, hclosed.current, hstate]
        rfl
      · rw [hclosed.published, hclosed.current, hstate]

/-- A transaction that inserts a row, perhaps tries to commit it and is
refused by the log, erases the row again and commits. -/
def peakEvents (attempt : List (Txn.Event State)) : List (Txn.Event State) :=
  [.beginTx,
    .mutate 0 (Call.effect scalarRegistry
      (.createTable (lit "t") [{ name := lit "k", type := integerType }])),
    .mutate 0 (Call.effect scalarRegistry (.insert (lit "t") [.integer 1]))] ++ attempt ++
  [.mutate 0 (Call.effect scalarRegistry (.erase (lit "t") none false)),
    .commit 0 1 .done]

def peakWorld (attempt : List (Txn.Event State)) : World State :=
  (Machine.run (World.step (engine scalarRegistry fun _ _ => .ok fun _ => false))
    (peakEvents attempt) (World.initial {})).2

def peak (w : World State) : Option Nat :=
  (w.db.published w.db.current).map fun s => s.stats.peakStoredPayloadBytes

/-- A refused commit is not without effect on the staged state: its
statistics were refreshed, and the peak they reached is published later. -/
theorem refused_commit_leaves_a_peak :
    peak (peakWorld []) = some 0 ∧
      peak (peakWorld [.commit 0 1 (.refused
        ⟨.format, lit "Change record exceeds configured encoded-size limit"⟩)]) = some 8 := by
  decide +kernel

end CoreSql
