import CoreSql.Lib.Machine
import CoreSql.Proofs.Chain

/-!
# Savepoint guards behave as a stack

The refinement of `transaction.cpp` to the stack machine of `Reference.lean`.
`Sim` relates a world of nodes and owner pointers to a world of stacks:

* an open transaction's chain has one node per stack entry, held by the
  entry's guard, with the entry's pair saved in it (`TxOpen`);
* a guard whose node still has an owner is on that owner's stack (`live`), so
  asking a node for its owner and looking a guard up in the stacks are the
  same question (`Sim.find_eq`);
* no two guards hold one node (`inj`).

The operations are built from a handful of moves on worlds — allocate a
node, push it, pop down to a guard, hand a node to another guard, retarget a
chain — and `Sim` is proved once for each. `step_simulation` puts the
sixteen events together out of them, and the run theorem is the induction of
`Machine.Simulation`.
-/

namespace CoreSql.Txn

variable {S : Type} {r : Ref S} {w : World S} {rt : RefTx S} {t dst b' : Nat} {t' g k src n b : Nat}
  {x : Option (RefTx S)} {w' : World S} {nodes nodes' : Nat → SavepointState S}
  {guards guards' : Nat → Option Nat} {p p' : Option Nat} {gs closed : List Nat}
  {above below : List (Entry S)} {e : Entry S}

/-! ## The relation -/

structure TxOpen (w : World S) (t : Nat) (rt : RefTx S) : Prop where
  owner : (w.txs t).owner = true
  base : (w.txs t).base = some rt.base
  staged : (w.txs t).staged = some rt.state
  dirty : (w.txs t).dirty = rt.dirty
  linked : Linked w.nodes w.guards t w.nextNode (w.txs t).savepoint
    (rt.stack.map Entry.guard)
  saved : ∀ e ∈ rt.stack, ∀ n, w.guards e.guard = some n →
    (w.nodes n).snapshot = some e.state ∧ (w.nodes n).dirty = e.dirty

/-- A transaction object that was never begun, was rolled back, committed or
moved from. Moving leaves the dirty flag behind, so nothing is said of it. -/
structure TxClosed (tx : Transaction S) : Prop where
  owner : tx.owner = false
  base : tx.base = none
  staged : tx.staged = none
  savepoint : tx.savepoint = none

def TxSim (w : World S) (t : Nat) : Option (RefTx S) → Prop
  | none => TxClosed (w.txs t)
  | some rt => TxOpen w t rt

structure Sim (w : World S) (r : Ref S) : Prop where
  db : r.db = w.db
  nextTx : r.nextTx = w.nextTx
  nextGuard : r.nextGuard = w.nextGuard
  published : (w.db.published w.db.current).isSome
  tx : ∀ t, TxSim w t (r.txs t)
  unborn : ∀ t, w.nextTx ≤ t → r.txs t = none
  bounds : ∀ g n, w.guards g = some n → g < w.nextGuard ∧ n < w.nextNode
  inj : ∀ g g' n, w.guards g = some n → w.guards g' = some n → g = g'
  live : ∀ g n t, w.guards g = some n → (w.nodes n).owner = some t →
    g ∈ (r.stackOf t).map Entry.guard

theorem Sim.initial (empty : S) : Sim (World.initial empty) (Ref.initial empty) where
  db := rfl
  nextTx := rfl
  nextGuard := rfl
  published := rfl
  tx := fun _ => ⟨rfl, rfl, rfl, rfl⟩
  unborn := fun _ _ => rfl
  bounds := by intro g n h; cases h
  inj := by intro g g' n h; cases h
  live := by intro g n t h; cases h

/-! ## Reading the relation -/

theorem Sim.txOpen (h : Sim w r) (ht : r.txs t = some rt) : TxOpen w t rt := by
  have := h.tx t
  rwa [ht] at this

theorem Sim.txClosed (h : Sim w r) (ht : r.txs t = none) : TxClosed (w.txs t) := by
  have := h.tx t
  rwa [ht] at this

theorem Ref.stackOf_some (h : r.txs t = some rt) : r.stackOf t = rt.stack := by
  simp [Ref.stackOf, h]

@[simp] theorem Ref.setTx_self (r : Ref S) (t : Nat) (x : Option (RefTx S)) :
    (r.setTx t x).txs t = x := by
  simp [Ref.setTx]

@[simp] theorem Ref.setTx_db (r : Ref S) (t : Nat) (x : Option (RefTx S)) :
    (r.setTx t x).db = r.db := rfl

theorem Ref.setTx_of_ne (h : t' ≠ t) : (r.setTx t x).txs t' = r.txs t' := by
  simp [Ref.setTx, h]

theorem Ref.stackOf_setTx_of_ne (h : t' ≠ t) : (r.setTx t x).stackOf t' = r.stackOf t' := by
  simp [Ref.stackOf, Ref.setTx_of_ne h]

theorem Ref.exists_of_mem_stackOf (h : g ∈ (r.stackOf t).map Entry.guard) :
    ∃ rt, r.txs t = some rt ∧ g ∈ rt.stack.map Entry.guard := by
  cases ht : r.txs t with
  | none => simp [Ref.stackOf, ht] at h
  | some rt => exact ⟨rt, rfl, by rwa [Ref.stackOf_some ht] at h⟩

/-- A guard's node has an owner exactly when the guard is on its stack. -/
theorem Sim.guardOwner_iff (h : Sim w r) :
    w.guardOwner g = some t ↔ g ∈ (r.stackOf t).map Entry.guard := by
  constructor
  · intro ho
    obtain ⟨n, hn, ho⟩ := Option.bind_eq_some_iff.mp ho
    exact h.live g n t hn ho
  · intro hg
    obtain ⟨rt, ht, hmem⟩ := Ref.exists_of_mem_stackOf hg
    obtain ⟨n, hn, -, ho⟩ := (h.txOpen ht).linked.node_of_mem hmem
    simp [World.guardOwner, hn, ho]

theorem Sim.lt_of_some (h : Sim w r) (ht : r.txs t = some rt) : t < w.nextTx := by
  by_contra hle
  rw [h.unborn t (by omega)] at ht
  cases ht

theorem Sim.unborn_setTx (h : Sim w r) (ht : r.txs t = some rt) (x : Option (RefTx S)) :
    ∀ t', w.nextTx ≤ t' → (r.setTx t x).txs t' = none := by
  intro t' hle
  have hlt := h.lt_of_some ht
  rw [Ref.setTx_of_ne (show t' ≠ t by omega)]
  exact h.unborn t' hle

theorem Ref.any_guard_iff (r : Ref S) (t g : Nat) :
    ((r.stackOf t).any fun e => e.guard == g) = true ↔ g ∈ (r.stackOf t).map Entry.guard := by
  simp [List.any_eq_true]

theorem Ref.find_eq_some (hlt : t < r.nextTx) (hg : g ∈ (r.stackOf t).map Entry.guard)
    (hother : ∀ t', g ∈ (r.stackOf t').map Entry.guard → t' = t) : r.find g = some t := by
  cases hf : r.find g with
  | none =>
    rw [Ref.find, List.find?_eq_none] at hf
    exact absurd ((r.any_guard_iff t g).mpr hg) (hf t (by simpa using hlt))
  | some t' =>
    rw [Ref.find] at hf
    have hany := List.find?_some hf
    rw [hother t' ((r.any_guard_iff t' g).mp hany)]

theorem Ref.find_eq_none (h : ∀ t, g ∉ (r.stackOf t).map Entry.guard) : r.find g = none := by
  rw [Ref.find, List.find?_eq_none]
  intro t _ hany
  exact h t ((r.any_guard_iff t g).mp hany)

theorem Sim.find_eq (h : Sim w r) (g : Nat) : r.find g = w.guardOwner g := by
  cases ho : w.guardOwner g with
  | none =>
    refine Ref.find_eq_none fun t hg => ?_
    rw [h.guardOwner_iff.mpr hg] at ho
    cases ho
  | some t =>
    have hg := h.guardOwner_iff.mp ho
    obtain ⟨rt, ht, -⟩ := Ref.exists_of_mem_stackOf hg
    refine Ref.find_eq_some (by rw [h.nextTx]; exact h.lt_of_some ht) hg fun t' hg' => ?_
    rw [h.guardOwner_iff.mpr hg'] at ho
    exact Option.some.inj ho

theorem Sim.not_mem_of_find_none (h : Sim w r) (hg : r.find g = none) (ht : r.txs t = some rt) :
    g ∉ rt.stack.map Entry.guard := by
  intro hmem
  rw [← Ref.stackOf_some ht] at hmem
  rw [h.find_eq, h.guardOwner_iff.mpr hmem] at hg
  cases hg

theorem Sim.find_some (h : Sim w r) (hg : r.find g = some t) :
    ∃ rt n, r.txs t = some rt ∧ w.guards g = some n ∧
      (w.nodes n).owner = some t ∧ g ∈ rt.stack.map Entry.guard := by
  have ho : w.guardOwner g = some t := by rw [← h.find_eq]; exact hg
  obtain ⟨rt, ht, hmem⟩ := Ref.exists_of_mem_stackOf (h.guardOwner_iff.mp ho)
  obtain ⟨n, hn, hno⟩ := Option.bind_eq_some_iff.mp ho
  exact ⟨rt, n, ht, hn, hno, hmem⟩

theorem fromGuard_split : ∀ {stack : List (Entry S)}, g ∈ stack.map Entry.guard →
      ∃ above e below, stack = above ++ e :: below ∧ e.guard = g ∧
        fromGuard g stack = e :: below := by
  intro stack
  induction stack with
  | nil => intro h; simp at h
  | cons e rest ih =>
    intro h
    by_cases he : e.guard = g
    · exact ⟨[], e, rest, rfl, he, by simp [fromGuard, he]⟩
    · have hmem : g ∈ rest.map Entry.guard := by
        simp only [List.map_cons, List.mem_cons] at h
        exact h.resolve_left (Ne.symm he)
      obtain ⟨above, e', below, rfl, he', hfrom⟩ := ih hmem
      refine ⟨e :: above, e', below, rfl, he', ?_⟩
      rw [fromGuard, List.dropWhile_cons_of_pos (by simpa using he)]
      exact hfrom

theorem Sim.active_eq (h : Sim w r) (t : Nat) : r.active t = w.active t := by
  unfold Ref.active World.active
  cases ht : r.txs t with
  | none => simp [(h.txClosed ht).owner]
  | some rt => simp [(h.txOpen ht).owner, (h.txOpen ht).staged, h.db]

theorem Sim.bases_eq (h : Sim w r) : r.bases = w.bases := by
  unfold Ref.bases World.bases
  rw [h.nextTx]
  congr 1
  funext t
  cases ht : r.txs t with
  | none => simp [(h.txClosed ht).base]
  | some rt => simp [(h.txOpen ht).base]

/-! ## Moves that leave most of the world alone -/

/-- A transaction whose record, nodes and guards are as they were is still
in step with its stack. -/
theorem TxOpen.congr (h : TxOpen w t rt)
    (htx : w'.txs t = w.txs t) (hnext : w.nextNode ≤ w'.nextNode)
    (hnodes : ∀ n, n < w.nextNode → (w.nodes n).owner = some t → w'.nodes n = w.nodes n)
    (hguards : ∀ g ∈ rt.stack.map Entry.guard, w'.guards g = w.guards g) : TxOpen w' t rt := by
  refine ⟨by rw [htx]; exact h.owner, by rw [htx]; exact h.base,
    by rw [htx]; exact h.staged, by rw [htx]; exact h.dirty, ?_, ?_⟩
  · rw [htx]
    refine (h.linked.congr (fun n hn ho => ?_) hguards).mono hnext
    rw [hnodes n hn ho]
    exact ⟨rfl, rfl⟩
  · intro e he n hn
    have hmem : e.guard ∈ rt.stack.map Entry.guard := List.mem_map_of_mem he
    rw [hguards _ hmem] at hn
    obtain ⟨m, hm, hlt, ho⟩ := h.linked.node_of_mem hmem
    obtain rfl : m = n := by simpa [hm] using hn
    rw [hnodes m hlt ho]
    exact h.saved e he m hn

theorem TxSim.congr (h : TxSim w t x) (htx : w'.txs t = w.txs t) (hnext : w.nextNode ≤ w'.nextNode)
    (hnodes : ∀ n, n < w.nextNode → (w.nodes n).owner = some t → w'.nodes n = w.nodes n)
    (hguards : ∀ rt, x = some rt → ∀ g ∈ rt.stack.map Entry.guard, w'.guards g = w.guards g) :
    TxSim w' t x := by
  cases x with
  | none => show TxClosed (w'.txs t); rw [htx]; exact h
  | some rt => exact TxOpen.congr h htx hnext hnodes (hguards rt rfl)

section

variable (h : Sim w r)
include h

/-- A change of the database alone, as long as something stays published. -/
theorem Sim.setDb (db : Database S) (hpub : (db.published db.current).isSome) :
    Sim { w with db := db } { r with db := db } where
  db := rfl
  nextTx := h.nextTx
  nextGuard := h.nextGuard
  published := hpub
  tx := fun t => (h.tx t).congr rfl (Nat.le_refl _) (fun _ _ _ => rfl) (fun _ _ _ _ => rfl)
  unborn := h.unborn
  bounds := h.bounds
  inj := h.inj
  live := h.live

/-- A new staged state or dirty flag; the chain and the stack stay. -/
theorem Sim.setStaged (ht : r.txs t = some rt) (s : S) (d : Bool) :
    Sim (w.setTx t { w.txs t with staged := some s, dirty := d })
      (r.setTx t (some { rt with state := s, dirty := d })) := by
  have hopen := h.txOpen ht
  refine ⟨h.db, h.nextTx, h.nextGuard, h.published, ?_, ?_, h.bounds, h.inj, ?_⟩
  · intro t'
    by_cases htt : t' = t
    · subst htt
      rw [Ref.setTx_self]
      refine ⟨?_, ?_, ?_, ?_, ?_, hopen.saved⟩ <;>
        simp only [World.setTx, Function.update_self]
      · exact hopen.owner
      · exact hopen.base
      · exact hopen.linked
    · rw [Ref.setTx_of_ne htt]
      exact (h.tx t').congr (by simp [World.setTx, htt]) (Nat.le_refl _)
        (fun _ _ _ => rfl) (fun _ _ _ _ => rfl)
  · exact h.unborn_setTx ht _
  · intro g n t' hg ho
    have hmem := h.live g n t' hg ho
    by_cases htt : t' = t
    · subst htt
      rw [Ref.stackOf_some ht] at hmem
      rwa [Ref.stackOf_some (Ref.setTx_self _ _ _)]
    · rwa [Ref.stackOf_setTx_of_ne htt]

theorem Sim.addNode (node : SavepointState S) :
    Sim { w.setNode w.nextNode node with nextNode := w.nextNode + 1 } r := by
  have hnode : ∀ n, n < w.nextNode → (w.setNode w.nextNode node).nodes n = w.nodes n := by
    intro n hn
    simp [World.setNode, Nat.ne_of_lt hn]
  refine ⟨h.db, h.nextTx, h.nextGuard, h.published, ?_, h.unborn, ?_, h.inj, ?_⟩
  · intro t
    exact (h.tx t).congr rfl (Nat.le_succ _) (fun n hn _ => hnode n hn)
      (fun _ _ _ _ => rfl)
  · intro g n hg
    obtain ⟨hlt, hn⟩ := h.bounds g n hg
    exact ⟨hlt, Nat.lt_succ_of_lt hn⟩
  · intro g n t hg ho
    refine h.live g n t hg ?_
    rw [← hnode n (h.bounds g n hg).2]
    exact ho

theorem Sim.addGuard : Sim { w with nextGuard := w.nextGuard + 1 }
      { r with nextGuard := r.nextGuard + 1 } where
  db := h.db
  nextTx := h.nextTx
  nextGuard := by simp only [h.nextGuard]
  published := h.published
  tx := fun t => (h.tx t).congr rfl (Nat.le_refl _) (fun _ _ _ => rfl) (fun _ _ _ _ => rfl)
  unborn := h.unborn
  bounds := fun g n hg => ⟨Nat.lt_succ_of_lt (h.bounds g n hg).1, (h.bounds g n hg).2⟩
  inj := h.inj
  live := h.live

end

/-! ## Pushing and popping -/

theorem Linked.tighten
    (h : Linked nodes guards t (k + 1) p gs) (hk : ∀ g, guards g ≠ some k) :
    Linked nodes guards t k p gs := by
  cases gs with
  | nil => exact h
  | cons g rest =>
    obtain ⟨n, hp, hn, hg, hrest⟩ := h
    have hnk : n ≠ k := fun hnk => hk g (hnk ▸ hg)
    exact ⟨n, hp, by omega, hg, hrest⟩

/-- Put the newest node on a transaction's chain and give it to a guard no
stack mentions. -/
theorem Sim.push (h : Sim w r)
    (ht : r.txs t = some rt) (hg : g < w.nextGuard) (hfind : r.find g = none)
    (hk : w.nextNode = k + 1) (hfree : ∀ g', w.guards g' ≠ some k) {s : S} {d : Bool}
    (hnode : w.nodes k = ⟨some t, some s, d, (w.txs t).savepoint⟩) :
    Sim ((w.setTx t { w.txs t with savepoint := some k }).setGuard g (some k))
      (r.setTx t (some { rt with stack := ⟨g, s, d⟩ :: rt.stack })) := by
  have hopen := h.txOpen ht
  set w' := (w.setTx t { w.txs t with savepoint := some k }).setGuard g (some k) with hw'
  have hguard : ∀ g', g' ≠ g → w'.guards g' = w.guards g' := by
    intro g' hne
    simp [hw', World.setTx, World.setGuard, hne]
  have hself : w'.guards g = some k := by simp [hw', World.setTx, World.setGuard]
  have hkept : ∀ t' rt', r.txs t' = some rt' →
      ∀ g' ∈ rt'.stack.map Entry.guard, w'.guards g' = w.guards g' := by
    intro t' rt' ht' g' hg'
    exact hguard g' fun heq => h.not_mem_of_find_none hfind ht' (heq ▸ hg')
  refine ⟨h.db, h.nextTx, h.nextGuard, h.published, ?_, ?_, ?_, ?_, ?_⟩
  · intro t'
    by_cases htt : t' = t
    · subst htt
      rw [Ref.setTx_self]
      have htx : w'.txs t' = { w.txs t' with savepoint := some k } := by
        simp [hw', World.setTx, World.setGuard]
      refine ⟨by rw [htx]; exact hopen.owner, by rw [htx]; exact hopen.base,
        by rw [htx]; exact hopen.staged, by rw [htx]; exact hopen.dirty, ?_, ?_⟩
      · rw [htx]
        refine ⟨k, rfl, ?_, hself, congrArg SavepointState.owner hnode, ?_⟩
        · show k < w.nextNode
          omega
        · have hlink : Linked w.nodes w.guards t' k (w.txs t').savepoint
              (rt.stack.map Entry.guard) := by
            refine Linked.tighten ?_ hfree
            rw [← hk]
            exact hopen.linked
          have hparent : (w'.nodes k).parent = (w.txs t').savepoint :=
            congrArg SavepointState.parent hnode
          rw [hparent]
          exact hlink.congr (fun _ _ _ => ⟨rfl, rfl⟩) (hkept t' rt ht)
      · intro e he n hn
        rcases List.mem_cons.mp he with rfl | hmem
        · obtain rfl : k = n := by simpa [hself] using hn
          exact ⟨congrArg SavepointState.snapshot hnode, congrArg SavepointState.dirty hnode⟩
        · rw [hkept t' rt ht _ (List.mem_map_of_mem hmem)] at hn
          exact hopen.saved e hmem n hn
    · rw [Ref.setTx_of_ne htt]
      exact (h.tx t').congr (by simp [hw', World.setTx, World.setGuard, htt])
        (Nat.le_refl _) (fun _ _ _ => rfl) (fun rt' ht' => hkept t' rt' ht')
  · exact h.unborn_setTx ht _
  · intro g' n hn
    by_cases hgg : g' = g
    · subst hgg
      obtain rfl : k = n := by simpa [hself] using hn
      exact ⟨hg, show k < w.nextNode by omega⟩
    · rw [hguard g' hgg] at hn
      exact h.bounds g' n hn
  · intro g₁ g₂ n h₁ h₂
    by_cases hg₁ : g₁ = g <;> by_cases hg₂ : g₂ = g
    · rw [hg₁, hg₂]
    · rw [hg₁, hself] at h₁
      rw [hguard g₂ hg₂, ← h₁] at h₂
      exact absurd h₂ (hfree g₂)
    · rw [hg₂, hself] at h₂
      rw [hguard g₁ hg₁, ← h₂] at h₁
      exact absurd h₁ (hfree g₁)
    · rw [hguard g₁ hg₁] at h₁
      rw [hguard g₂ hg₂] at h₂
      exact h.inj g₁ g₂ n h₁ h₂
  · intro g' n t' hn ho
    have ho' : (w.nodes n).owner = some t' := ho
    by_cases hgg : g' = g
    · subst hgg
      obtain rfl : k = n := by simpa [hself] using hn
      obtain rfl : t = t' := by simpa [hnode] using ho'
      simp [Ref.stackOf, Ref.setTx]
    · rw [hguard g' hgg] at hn
      have hmem := h.live g' n t' hn ho'
      by_cases htt : t' = t
      · subst htt
        rw [Ref.stackOf_some ht] at hmem
        rw [Ref.stackOf_some (Ref.setTx_self _ _ _)]
        exact List.mem_cons_of_mem _ hmem
      · rwa [Ref.stackOf_setTx_of_ne htt]

/-- Pop the guards of `closed` off a transaction, whose record becomes `tx`
up to its chain. -/
theorem Sim.popped (h : Sim w r) (rt' : RefTx S) (ht : r.txs t = some rt) {tx : Transaction S}
    (hp : Popped t tx closed (rt'.stack.map Entry.guard) w w')
    (howner : tx.owner = true) (hbase : tx.base = some rt'.base)
    (hstaged : tx.staged = some rt'.state) (hdirty : tx.dirty = rt'.dirty)
    (hsub : ∀ e ∈ rt'.stack, e ∈ rt.stack)
    (hsplit : rt.stack.map Entry.guard = closed ++ rt'.stack.map Entry.guard) :
    Sim w' (r.setTx t (some rt')) := by
  have hopen := h.txOpen ht
  have hlink := hopen.linked
  rw [hsplit] at hlink
  obtain ⟨p, htx, hchain⟩ := hp.chain
  refine ⟨by rw [hp.db]; exact h.db, by rw [hp.nextTx]; exact h.nextTx,
    by rw [hp.nextGuard]; exact h.nextGuard, by rw [hp.db]; exact h.published, ?_, ?_, ?_, ?_, ?_⟩
  · intro t'
    by_cases htt : t' = t
    · subst htt
      rw [Ref.setTx_self]
      refine ⟨by rw [htx]; exact howner, by rw [htx]; exact hbase,
        by rw [htx]; exact hstaged, by rw [htx]; exact hdirty, by rw [htx]; exact hchain, ?_⟩
      intro e he n hn
      rw [hp.guards] at hn
      have hnode : w'.nodes n = w.nodes n := by
        refine hp.kept n fun g hg => ?_
        rw [← hn]
        exact hlink.ne_of_split (List.mem_map_of_mem he) hg
      rw [hnode]
      exact hopen.saved e (hsub e he) n hn
    · rw [Ref.setTx_of_ne htt]
      refine (h.tx t').congr (hp.other t' htt) (Nat.le_of_eq hp.nextNode.symm) ?_ ?_
      · intro n _ ho
        refine hp.kept n fun g hg hn => ?_
        obtain ⟨m, hm, -, hmo⟩ := hlink.node_of_mem (g := g) (by simp [hg])
        obtain rfl : m = n := by simpa [hm] using hn
        rw [hmo] at ho
        exact htt (Option.some.inj ho).symm
      · intro _ _ g _
        rw [hp.guards]
  · rw [hp.nextTx]
    exact h.unborn_setTx ht _
  · intro g n hn
    rw [hp.guards] at hn
    rw [hp.nextGuard, hp.nextNode]
    exact h.bounds g n hn
  · intro g₁ g₂ n h₁ h₂
    rw [hp.guards] at h₁ h₂
    exact h.inj g₁ g₂ n h₁ h₂
  · intro g n t' hn ho
    rw [hp.guards] at hn
    have hmem := h.live g n t' hn (by rw [← hp.node_of_open ho]; exact ho)
    by_cases htt : t' = t
    · subst htt
      rw [Ref.stackOf_some ht, hsplit, List.mem_append] at hmem
      rw [Ref.stackOf_some (Ref.setTx_self _ _ _)]
      refine hmem.resolve_left fun hclosed => ?_
      rw [hp.gone g hclosed n hn] at ho
      cases ho
    · rwa [Ref.stackOf_setTx_of_ne htt]

/-! ## Closing a transaction -/

theorem Sim.close (h : Sim w r)
    (hstack : r.stackOf t = []) : Sim (w.setTx t {}) (r.setTx t none) := by
  refine ⟨h.db, h.nextTx, h.nextGuard, h.published, ?_, ?_, h.bounds, h.inj, ?_⟩
  · intro t'
    by_cases htt : t' = t
    · subst htt
      rw [Ref.setTx_self]
      show TxClosed ((w.setTx t' {}).txs t')
      simp only [World.setTx, Function.update_self]
      exact ⟨rfl, rfl, rfl, rfl⟩
    · rw [Ref.setTx_of_ne htt]
      exact (h.tx t').congr (by simp [World.setTx, htt]) (Nat.le_refl _)
        (fun _ _ _ => rfl) (fun _ _ _ _ => rfl)
  · intro t' hle
    by_cases htt : t' = t
    · rw [htt, Ref.setTx_self]
    · rw [Ref.setTx_of_ne htt]
      exact h.unborn t' hle
  · intro g n t' hg ho
    have hmem := h.live g n t' hg ho
    by_cases htt : t' = t
    · rw [htt, hstack] at hmem
      cases hmem
    · rwa [Ref.stackOf_setTx_of_ne htt]

theorem Sim.rollbackTx (h : Sim w r) (t : Nat) : Sim (w.rollbackTx t) (r.setTx t none) := by
  cases ht : r.txs t with
  | none =>
    have hnone := (h.txClosed ht).savepoint
    simp only [World.rollbackTx, hnone]
    exact h.close (by simp [Ref.stackOf, ht])
  | some rt =>
    have hopen := h.txOpen ht
    cases hsp : (w.txs t).savepoint with
    | none =>
      have hstack : rt.stack = [] := by
        have hlink := hopen.linked
        rw [hsp] at hlink
        cases hs : rt.stack with
        | nil => rfl
        | cons e rest =>
          rw [hs] at hlink
          obtain ⟨n, hn, -⟩ := hlink
          cases hn
      simp only [World.rollbackTx, hsp]
      exact h.close (by rw [Ref.stackOf_some ht, hstack])
    | some n =>
      have hp : Popped t (w.txs t) (rt.stack.map Entry.guard)
          ([] : List Nat) w (w.finishSavepoint t none false) :=
        popUntil_none_popped hopen.linked hopen.linked.length_le
      have hsim := h.popped { rt with stack := [] } ht hp
        hopen.owner hopen.base hopen.staged hopen.dirty (by simp) (by simp)
      have hclose := hsim.close (t := t) (Ref.stackOf_some (Ref.setTx_self _ _ _))
      simp only [World.rollbackTx, hsp]
      simpa [Ref.setTx] using hclose

/-! ## Guards changing hands -/

theorem Sim.forgetGuard (h : Sim w r) (hfind : r.find g = none) : Sim (w.setGuard g none) r := by
  have hguard : ∀ g', g' ≠ g → (w.setGuard g none).guards g' = w.guards g' := by
    intro g' hne
    simp [World.setGuard, hne]
  have hof : ∀ {g' n}, (w.setGuard g none).guards g' = some n → w.guards g' = some n := by
    intro g' n hn
    by_cases hgg : g' = g
    · simp [World.setGuard, hgg] at hn
    · rwa [hguard g' hgg] at hn
  refine ⟨h.db, h.nextTx, h.nextGuard, h.published, ?_, h.unborn,
    fun g' n hn => h.bounds g' n (hof hn), fun g₁ g₂ n h₁ h₂ => h.inj g₁ g₂ n (hof h₁) (hof h₂),
    fun g' n t hn ho => h.live g' n t (hof hn) ho⟩
  intro t
  refine (h.tx t).congr rfl (Nat.le_refl _) (fun _ _ _ => rfl) fun rt ht g' hg' => ?_
  exact hguard g' fun heq => h.not_mem_of_find_none hfind ht (heq ▸ hg')

@[simp] theorem Entry.rename_state (dst src : Nat) (e : Entry S) :
    (e.rename dst src).state = e.state := by
  unfold Entry.rename
  split <;> rfl

@[simp] theorem Entry.rename_dirty (dst src : Nat) (e : Entry S) :
    (e.rename dst src).dirty = e.dirty := by
  unfold Entry.rename
  split <;> rfl

theorem Ref.rename_txs (h : r.txs t = some rt) : (r.rename dst src).txs t =
      some { rt with stack := rt.stack.map (Entry.rename dst src) } := by
  simp [Ref.rename, h]

theorem Ref.stackOf_rename (r : Ref S) (dst src t : Nat) :
    (r.rename dst src).stackOf t = (r.stackOf t).map (Entry.rename dst src) := by
  cases ht : r.txs t with
  | none => simp [Ref.stackOf, Ref.rename, ht]
  | some rt => rw [Ref.stackOf_some ht, Ref.stackOf_some (Ref.rename_txs ht)]

theorem Linked.rename {f : Nat → Nat} : ∀ {gs : List Nat} {bound : Nat} {p : Option Nat},
      Linked nodes guards t bound p gs → (∀ g ∈ gs, guards' (f g) = guards g) →
      Linked nodes guards' t bound p (gs.map f) := by
  intro gs
  induction gs with
  | nil => intro bound p h _; exact h
  | cons g rest ih =>
    intro bound p h hf
    obtain ⟨n, hp, hn, hg, ho, hrest⟩ := h
    refine ⟨n, hp, hn, ?_, ho, ih hrest fun g' hg' => hf g' (by simp [hg'])⟩
    rw [hf g (by simp)]
    exact hg

theorem Sim.rename (h : Sim w r) (dst : Nat)
    (hne : dst ≠ src) (hdst : dst < w.nextGuard) (hfind : r.find dst = none) :
    Sim ((w.setGuard src none).setGuard dst (w.guards src)) (r.rename dst src) := by
  set w' := (w.setGuard src none).setGuard dst (w.guards src) with hw'
  set f : Nat → Nat := fun g => if g = src then dst else g with hf
  have hlabel : ∀ e : Entry S, (Entry.rename dst src e).guard = f e.guard := by
    intro e
    by_cases he : e.guard = src <;> simp [Entry.rename, hf, he]
  have hlabels : ∀ stack : List (Entry S),
      (stack.map (Entry.rename dst src)).map Entry.guard = (stack.map Entry.guard).map f := by
    intro stack
    simp [List.map_map, Function.comp_def, hlabel]
  -- What a guard other than the old `dst` held is now held under its new name.
  have hmove : ∀ g, g ≠ dst → w'.guards (f g) = w.guards g := by
    intro g hg
    by_cases hgs : g = src
    · simp [hw', hf, hgs, World.setGuard]
    · simp [hw', hf, hgs, World.setGuard, hg]
  have hback : ∀ g n, w'.guards g = some n → ∃ g₀, g₀ ≠ dst ∧ f g₀ = g ∧ w.guards g₀ = some n := by
    intro g n hn
    by_cases hgd : g = dst
    · exact ⟨src, Ne.symm hne, by simp [hf, hgd], by simpa [hw', World.setGuard, hgd] using hn⟩
    · by_cases hgs : g = src
      · simp [hw', World.setGuard, hgs, Ne.symm hne] at hn
      · exact ⟨g, hgd, by simp [hf, hgs], by simpa [hw', World.setGuard, hgd, hgs] using hn⟩
  have hnot : ∀ {t rt}, r.txs t = some rt → ∀ g ∈ rt.stack.map Entry.guard, g ≠ dst := by
    intro t rt ht g hg heq
    exact h.not_mem_of_find_none hfind ht (heq ▸ hg)
  refine ⟨h.db, h.nextTx, h.nextGuard, h.published, ?_, ?_, ?_, ?_, ?_⟩
  · intro t
    cases ht : r.txs t with
    | none =>
      have hnone : (r.rename dst src).txs t = none := by simp [Ref.rename, ht]
      rw [hnone]
      exact h.txClosed ht
    | some rt =>
      have hopen := h.txOpen ht
      rw [Ref.rename_txs ht]
      refine ⟨hopen.owner, hopen.base, hopen.staged, hopen.dirty, ?_, ?_⟩
      · rw [hlabels]
        exact hopen.linked.rename fun g hg => hmove g (hnot ht g hg)
      · intro e he n hn
        obtain ⟨e₀, he₀, rfl⟩ := List.mem_map.mp he
        rw [hlabel, hmove _ (hnot ht _ (List.mem_map_of_mem he₀))] at hn
        rw [Entry.rename_state, Entry.rename_dirty]
        exact hopen.saved e₀ he₀ n hn
  · intro t hle
    simp [Ref.rename, h.unborn t hle]
  · intro g n hn
    obtain ⟨g₀, -, rfl, hn₀⟩ := hback g n hn
    obtain ⟨hlt, hnode⟩ := h.bounds g₀ n hn₀
    refine ⟨show f g₀ < w.nextGuard from ?_, hnode⟩
    by_cases hgs : g₀ = src
    · simpa [hf, hgs] using hdst
    · simpa [hf, hgs] using hlt
  · intro g₁ g₂ n h₁ h₂
    obtain ⟨a, -, rfl, ha⟩ := hback g₁ n h₁
    obtain ⟨b, -, rfl, hb⟩ := hback g₂ n h₂
    rw [h.inj a b n ha hb]
  · intro g n t hn ho
    obtain ⟨g₀, -, rfl, hn₀⟩ := hback g n hn
    rw [Ref.stackOf_rename, hlabels]
    exact List.mem_map_of_mem (h.live g₀ n t hn₀ ho)

/-! ## Transactions changing hands -/

theorem Sim.takeOver (h : Sim w r) (dst : Nat)
    (hne : dst ≠ src) (hdst : dst < w.nextTx) (hclosed : r.txs dst = none) :
    Sim (World.retarget dst w.nextNode (w.txs src).savepoint
        ((w.setTx src { dirty := (w.txs src).dirty }).setTx dst (w.txs src)))
      ((r.setTx src none).setTx dst (r.txs src)) := by
  set w₁ := (w.setTx src { dirty := (w.txs src).dirty }).setTx dst (w.txs src) with hw₁
  have htxDst : w₁.txs dst = w.txs src := by simp [hw₁, World.setTx]
  have htxSrc : w₁.txs src = { dirty := (w.txs src).dirty } := by
    simp [hw₁, World.setTx, Ne.symm hne]
  have htx : ∀ t, t ≠ dst → t ≠ src → w₁.txs t = w.txs t := by
    intro t h₁ h₂
    simp [hw₁, World.setTx, h₁, h₂]
  have hother : ∀ t, t ≠ dst → t ≠ src →
      ((r.setTx src none).setTx dst (r.txs src)).txs t = r.txs t := by
    intro t h₁ h₂
    rw [Ref.setTx_of_ne h₁, Ref.setTx_of_ne h₂]
  have hsrcNone : ((r.setTx src none).setTx dst (r.txs src)).txs src = none := by
    rw [Ref.setTx_of_ne (Ne.symm hne), Ref.setTx_self]
  have hlink : Linked w₁.nodes w₁.guards src w.nextNode (w.txs src).savepoint
      ((r.stackOf src).map Entry.guard) := by
    cases hs : r.txs src with
    | none =>
      simp only [Ref.stackOf, hs, List.map_nil]
      exact (h.txClosed hs).savepoint
    | some rt => rw [Ref.stackOf_some hs]; exact (h.txOpen hs).linked
  obtain ⟨hr, hchain⟩ := retarget_retargeted dst hlink hlink.length_le
  set w' := World.retarget dst w.nextNode (w.txs src).savepoint w₁ with hw'
  -- The retargeted nodes are those of `src`, so no other chain notices.
  have hnode : ∀ n t, (w.nodes n).owner = some t → t ≠ src → w'.nodes n = w.nodes n := by
    intro n t ho hts
    refine hr.kept n fun g hg hn => ?_
    obtain ⟨m, hm, -, hmo⟩ := hlink.node_of_mem hg
    obtain rfl : m = n := by simpa [hm] using hn
    have hmo' : (w.nodes m).owner = some src := hmo
    rw [hmo'] at ho
    exact hts (Option.some.inj ho).symm
  refine ⟨h.db.trans hr.db.symm, h.nextTx.trans hr.nextTx.symm,
    h.nextGuard.trans hr.nextGuard.symm, by rw [hr.db]; exact h.published, ?_, ?_, ?_, ?_, ?_⟩
  · intro t
    by_cases htd : t = dst
    · subst htd
      rw [Ref.setTx_self]
      cases hs : r.txs src with
      | none =>
        show TxClosed (w'.txs t)
        rw [hr.txs, htxDst]
        exact h.txClosed hs
      | some rt =>
        have hopen := h.txOpen hs
        rw [Ref.stackOf_some hs] at hchain hr
        have htx' : w'.txs t = w.txs src := by rw [hr.txs, htxDst]
        refine ⟨by rw [htx']; exact hopen.owner, by rw [htx']; exact hopen.base,
          by rw [htx']; exact hopen.staged, by rw [htx']; exact hopen.dirty, ?_, ?_⟩
        · rw [htx', hr.guards, hr.nextNode]
          exact hchain
        · intro e he n hn
          rw [hr.guards] at hn
          rw [hr.moved _ (List.mem_map_of_mem he) n hn]
          exact hopen.saved e he n hn
    · by_cases hts : t = src
      · subst hts
        rw [hsrcNone]
        show TxClosed (w'.txs t)
        rw [hr.txs, htxSrc]
        exact ⟨rfl, rfl, rfl, rfl⟩
      · rw [hother t htd hts]
        refine (h.tx t).congr (by rw [hr.txs, htx t htd hts])
          (Nat.le_of_eq hr.nextNode.symm) (fun n _ ho => hnode n t ho hts) ?_
        intro _ _ g _
        rw [hr.guards]
        rfl
  · intro t hle
    rw [hr.nextTx] at hle
    have hle' : w.nextTx ≤ t := hle
    by_cases hts : t = src
    · rw [hts]; exact hsrcNone
    · rw [hother t (by omega) hts]
      exact h.unborn t hle'
  · intro g n hn
    rw [hr.guards] at hn
    rw [hr.nextGuard, hr.nextNode]
    exact h.bounds g n hn
  · intro g₁ g₂ n h₁ h₂
    rw [hr.guards] at h₁ h₂
    exact h.inj g₁ g₂ n h₁ h₂
  · intro g n t hn ho
    rw [hr.guards] at hn
    have hdstStack : ((r.setTx src none).setTx dst (r.txs src)).stackOf dst = r.stackOf src := by
      simp [Ref.stackOf]
    by_cases hg : g ∈ (r.stackOf src).map Entry.guard
    · rw [hr.moved g hg n hn] at ho
      obtain rfl : dst = t := by simpa using ho
      rwa [hdstStack]
    · -- A node off the chain kept its owner, which is neither party.
      have hsame : w'.nodes n = w.nodes n := by
        refine hr.kept n fun g' hg' hn' => ?_
        rw [h.inj g' g n hn' hn] at hg'
        exact hg hg'
      rw [hsame] at ho
      have hmem := h.live g n t hn ho
      have hts : t ≠ src := fun hts => hg (hts ▸ hmem)
      have htd : t ≠ dst := by
        intro htd
        simp [htd, Ref.stackOf, hclosed] at hmem
      rw [Ref.stackOf_setTx_of_ne htd, Ref.stackOf_setTx_of_ne hts]
      exact hmem

theorem Sim.addTx (h : Sim w r) :
    Sim { w with nextTx := w.nextTx + 1 } { r with nextTx := r.nextTx + 1 } where
  db := h.db
  nextTx := by simp only [h.nextTx]
  nextGuard := h.nextGuard
  published := h.published
  tx := fun t => (h.tx t).congr rfl (Nat.le_refl _) (fun _ _ _ => rfl) (fun _ _ _ _ => rfl)
  unborn := fun t hle => h.unborn t (Nat.le_of_succ_le hle)
  bounds := h.bounds
  inj := h.inj
  live := h.live

/-! ## The events -/

/-- A guard on a stack, on both sides: its node, and where it splits the
stack and the chain. -/
structure Located (w : World S) (r : Ref S) (g t : Nat) (rt : RefTx S) (n : Nat)
    (above : List (Entry S)) (e : Entry S) (below : List (Entry S)) : Prop where
  tx : r.txs t = some rt
  guard : w.guards g = some n
  owner : (w.nodes n).owner = some t
  stack : rt.stack = above ++ e :: below
  from_eq : fromGuard g rt.stack = e :: below
  labels : rt.stack.map Entry.guard = above.map Entry.guard ++ g :: below.map Entry.guard
  linked : Linked w.nodes w.guards t w.nextNode (w.txs t).savepoint
    (above.map Entry.guard ++ g :: below.map Entry.guard)
  snapshot : (w.nodes n).snapshot = some e.state
  dirty : (w.nodes n).dirty = e.dirty
  label : e.guard = g

theorem Sim.locate (h : Sim w r) (hfind : r.find g = some t) :
    ∃ rt n above e below, Located w r g t rt n above e below := by
  obtain ⟨rt, n, ht, hn, hno, hmem⟩ := h.find_some hfind
  obtain ⟨above, e, below, hstack, heg, hfrom⟩ := fromGuard_split hmem
  have hopen := h.txOpen ht
  have hlabels : rt.stack.map Entry.guard =
      above.map Entry.guard ++ g :: below.map Entry.guard := by
    simp [hstack, heg]
  obtain ⟨hsnap, hdirty⟩ := hopen.saved e (by simp [hstack]) n (by rw [heg]; exact hn)
  exact ⟨rt, n, above, e, below, ht, hn, hno, hstack, hfrom, hlabels,
    hlabels ▸ hopen.linked, hsnap, hdirty, heg⟩

theorem Located.below_mem
    (h : Located w r g t rt n above e below) : ∀ e' ∈ below, e' ∈ rt.stack := by
  intro e' he'
  simp [h.stack, he']

theorem Located.rollback_eq
    (h : Located w r g t rt n above e below) (hfind : r.find g = some t) :
    r.rollback g =
      r.setTx t (some { rt with state := e.state, dirty := e.dirty, stack := below }) := by
  simp [Ref.rollback, Ref.restore, hfind, h.tx, h.from_eq]

theorem Sim.finish_restore (h : Sim w r)
    (hl : Located w r g t rt n above e below) :
    Sim (w.finishSavepoint t (some n) true)
      (r.setTx t (some { rt with state := e.state, dirty := e.dirty, stack := below })) := by
  have hopen := h.txOpen hl.tx
  exact h.popped { rt with state := e.state, dirty := e.dirty, stack := below }
    hl.tx (finishSavepoint_restore hl.linked hl.guard) hopen.owner hopen.base
    hl.snapshot hl.dirty hl.below_mem (by simp [hl.labels])

theorem Sim.rollback (h : Sim w r) (g : Nat) : Sim (w.rollback g) (r.rollback g) := by
  unfold World.rollback
  rw [← h.find_eq]
  cases hfind : r.find g with
  | none =>
    have hr : r.rollback g = r := by simp [Ref.rollback, Ref.restore, hfind]
    rw [hr]
    exact h
  | some t =>
    obtain ⟨rt, n, above, e, below, hl⟩ := h.locate hfind
    simp only [hl.rollback_eq hfind, hl.guard]
    exact h.finish_restore hl

theorem Ref.rollback_nextGuard (r : Ref S) (g : Nat) : (r.rollback g).nextGuard = r.nextGuard := by
  unfold Ref.rollback Ref.restore
  split
  · rfl
  · split
    · rfl
    · split <;> rfl

theorem Sim.release (h : Sim w r) (g : Nat) : Sim (w.release g) (r.release g) := by
  unfold World.release Ref.release
  rw [← h.find_eq]
  cases hfind : r.find g with
  | none => exact h
  | some t =>
    obtain ⟨rt, n, above, e, below, hl⟩ := h.locate hfind
    have hopen := h.txOpen hl.tx
    simp only [hl.tx, hl.from_eq, hl.guard, List.tail_cons]
    exact h.popped { rt with stack := below } hl.tx
      (finishSavepoint_release hl.linked hl.guard) hopen.owner hopen.base hopen.staged
      hopen.dirty hl.below_mem (by simp [hl.labels])

theorem Sim.find_rollback (h : Sim w r) (g : Nat) : (r.rollback g).find g = none := by
  rw [(h.rollback g).find_eq]
  unfold World.rollback
  cases ho : w.guardOwner g with
  | none => exact ho
  | some t =>
    obtain ⟨rt, n, above, e, below, hl⟩ := h.locate (by rw [h.find_eq]; exact ho)
    have hp := finishSavepoint_restore hl.linked hl.guard
    simp only [hl.guard, World.guardOwner, hp.guards, Option.bind_some]
    exact hp.gone g (by simp) n hl.guard

theorem Linked.head_unique
    (h : Linked nodes guards t b p gs) (h' : Linked nodes' guards t' b' p' gs) : p = p' := by
  cases gs with
  | nil => exact h.trans h'.symm
  | cons g rest =>
    obtain ⟨n, rfl, -, hg, -⟩ := h
    obtain ⟨n', rfl, -, hg', -⟩ := h'
    rw [← hg, ← hg']

theorem Linked.parent {below : List Nat} (hg : guards g = some n) :
    ∀ {above : List Nat} {b : Nat} {p : Option Nat},
      Linked nodes guards t b p (above ++ g :: below) →
      Linked nodes guards t n (nodes n).parent below := by
  intro above
  induction above with
  | nil =>
    intro b p h
    obtain ⟨m, -, -, hm, -, hrest⟩ := h
    obtain rfl : n = m := by simpa [hg] using hm
    exact hrest
  | cons a above ih =>
    intro b p h
    obtain ⟨m, -, -, -, -, hrest⟩ := h
    exact ih hrest

section

variable (h : Sim w r)
include h

theorem Sim.rollbackTo (g : Nat) : (w.rollbackTo g).1 = (r.rollbackTo g).1 ∧
      Sim (w.rollbackTo g).2 (r.rollbackTo g).2 := by
  unfold World.rollbackTo Ref.rollbackTo
  rw [← h.find_eq]
  cases hfind : r.find g with
  | none => cases w.guards g <;> exact ⟨rfl, h⟩
  | some t =>
    obtain ⟨rt, n, above, e, below, hl⟩ := h.locate hfind
    simp only [hl.guard, ← h.active_eq]
    cases hact : r.active t with
    | some e => exact ⟨rfl, h⟩
    | none =>
      refine ⟨rfl, ?_⟩
      -- Allocate the replacement, finish the old node, push the replacement.
      set w₀ : World S :=
        { w.setNode w.nextNode (w.nodes n) with nextNode := w.nextNode + 1 } with hw₀
      have h₀ : Sim w₀ r := h.addNode _
      obtain ⟨rt₀, n₀, above₀, e₀, below₀, hl₀⟩ := h₀.locate hfind
      obtain rfl : n = n₀ := Option.some.inj (hl.guard.symm.trans hl₀.guard)
      have hnode₀ : w₀.nodes n = w.nodes n := by
        simp [hw₀, World.setNode, Nat.ne_of_lt (h.bounds g n hl.guard).2]
      have hp := finishSavepoint_restore hl₀.linked hl₀.guard
      have h₁ := h₀.finish_restore hl₀
      have hnone := h₀.find_rollback g
      rw [hl₀.rollback_eq hfind] at hnone
      set w₁ := w₀.finishSavepoint t (some n) true with hw₁
      have hfree : ∀ g', w.guards g' ≠ some w.nextNode := by
        intro g' hg'
        exact Nat.lt_irrefl _ (h.bounds g' _ hg').2
      have hparent : (w₀.nodes n).parent = (w₁.txs t).savepoint := by
        obtain ⟨p, hp', hchain⟩ := hp.chain
        rw [hp.guards] at hchain
        rw [hp']
        exact (hl₀.linked.parent hl₀.guard).head_unique hchain
      have hnode₁ : w₁.nodes w.nextNode =
          ⟨some t, some e₀.state, e₀.dirty, (w₁.txs t).savepoint⟩ := by
        rw [hp.kept _ fun g' _ => hfree g', ← hparent, ← hl₀.owner, ← hl₀.snapshot,
          ← hl₀.dirty, hnode₀]
        simp [hw₀, World.setNode]
      have hpush := h₁.push (g := g) (Ref.setTx_self _ _ _)
        (by rw [hp.nextGuard]; exact (h.bounds g n hl.guard).1) hnone
        (by rw [hp.nextNode]) (by rw [hp.guards]; exact hfree) hnode₁
      have hr : r.restore g true = (r.setTx t (some { rt₀ with
          state := e₀.state, dirty := e₀.dirty, stack := below₀ })).setTx t
            (some { rt₀ with state := e₀.state, dirty := e₀.dirty,
                             stack := ⟨g, e₀.state, e₀.dirty⟩ :: below₀ }) := by
        have he : e₀ = ⟨g, e₀.state, e₀.dirty⟩ := by rw [← hl₀.label]
        simp only [Ref.restore, hfind, hl₀.tx, hl₀.from_eq, Ref.setTx, if_true,
          Function.update_idem]
        rw [← he]
      rw [hr]
      exact hpush

theorem Sim.open_of_active
    (hact : r.active t = none) : ∃ rt, r.txs t = some rt ∧ TxOpen w t rt := by
  cases ht : r.txs t with
  | none => simp [Ref.active, ht] at hact
  | some rt => exact ⟨rt, rfl, h.txOpen ht⟩

theorem Sim.find_of_le (hg : w.nextGuard ≤ g) : r.find g = none := by
  rw [h.find_eq]
  cases hn : w.guards g with
  | none => simp [World.guardOwner, hn]
  | some n => exact absurd (h.bounds g n hn).1 (by omega)

theorem Sim.savepoint (t : Nat) :
    (w.savepoint t).1 = (r.savepoint t).1 ∧ Sim (w.savepoint t).2 (r.savepoint t).2 := by
  unfold World.savepoint Ref.savepoint
  rw [← h.active_eq]
  cases hact : r.active t with
  | some e => exact ⟨rfl, h⟩
  | none =>
    obtain ⟨rt, ht, hopen⟩ := h.open_of_active hact
    simp only [ht]
    refine ⟨by rw [h.nextGuard], ?_⟩
    have h₁ := (h.addNode ⟨some t, (w.txs t).staged, (w.txs t).dirty, (w.txs t).savepoint⟩).addGuard
    have hfind : ({ r with nextGuard := r.nextGuard + 1 } : Ref S).find w.nextGuard = none :=
      h.find_of_le (Nat.le_refl _)
    have hpush := h₁.push (g := w.nextGuard) (s := rt.state) (d := rt.dirty) ht
      (Nat.lt_succ_self _) hfind rfl
      (fun g' hg' => Nat.lt_irrefl _ (h.bounds g' _ hg').2)
      (by rw [← hopen.staged, ← hopen.dirty]; simp [World.setNode])
    rw [h.nextGuard] at hpush ⊢
    exact hpush

theorem Sim.mutate (t : Nat) (f : S → Bool → Option Error × S × Bool) :
    (w.mutate t f).1 = (r.mutate t f).1 ∧ Sim (w.mutate t f).2 (r.mutate t f).2 := by
  unfold World.mutate Ref.mutate
  rw [← h.active_eq]
  cases hact : r.active t with
  | some e => exact ⟨rfl, h⟩
  | none =>
    obtain ⟨rt, ht, hopen⟩ := h.open_of_active hact
    simp only [ht, hopen.staged, hopen.dirty, true_and]
    exact h.setStaged ht _ _

theorem Sim.beginTx : w.beginTx.1 = r.beginTx.1 ∧ Sim w.beginTx.2 r.beginTx.2 := by
  unfold World.beginTx Ref.beginTx
  rw [h.db]
  cases hhealthy : w.db.healthy with
  | some e => exact ⟨rfl, h⟩
  | none =>
    obtain ⟨s, hs⟩ := Option.isSome_iff_exists.mp h.published
    simp only [hs]
    refine ⟨by rw [h.nextTx], ?_⟩
    have hnone : r.txs w.nextTx = none := h.unborn _ (Nat.le_refl _)
    refine ⟨h.db, by simp only [h.nextTx], h.nextGuard, h.published, ?_, ?_, h.bounds, h.inj, ?_⟩
    · intro t
      by_cases htt : t = w.nextTx
      · subst htt
        simp only [Ref.setTx, h.nextTx, Function.update_self]
        refine ⟨?_, ?_, ?_, ?_, ?_, (by intro e he; cases he)⟩ <;>
          simp only [World.setTx, Function.update_self, List.map_nil]
        rfl
      · simp only [Ref.setTx, h.nextTx, Function.update_of_ne htt]
        exact (h.tx t).congr (by simp [World.setTx, htt]) (Nat.le_refl _)
          (fun _ _ _ => rfl) (fun _ _ _ _ => rfl)
    · intro t hle
      have hle' : w.nextTx + 1 ≤ t := hle
      have htt : t ≠ w.nextTx := by omega
      simp only [Ref.setTx, h.nextTx, Function.update_of_ne htt]
      exact h.unborn t (by omega)
    · intro g n t hg ho
      have hmem := h.live g n t hg ho
      have htt : t ≠ w.nextTx := by
        intro htt
        simp [htt, Ref.stackOf, hnone] at hmem
      simpa [Ref.stackOf, Ref.setTx, h.nextTx, htt] using hmem

theorem Sim.moveGuard (src : Nat) : Sim (w.moveGuard src) (r.moveGuard src) := by
  by_cases hsrc : src = w.nextGuard
  · -- A guard that was never built holds nothing, and hands over nothing.
    have hnone : w.guards w.nextGuard = none := by
      cases hn : w.guards w.nextGuard with
      | none => rfl
      | some n => exact absurd (h.bounds _ n hn).1 (Nat.lt_irrefl _)
    have hid : ∀ e : Entry S, e.rename src src = e := by
      intro e
      unfold Entry.rename
      split
      · next he => rw [← he]
      · rfl
    have hw : w.moveGuard src = { w with nextGuard := w.nextGuard + 1 } := by
      simp [World.moveGuard, World.setGuard, hsrc, hnone]
    have hr : r.moveGuard src = { r with nextGuard := r.nextGuard + 1 } := by
      have hmap : (Entry.rename src src : Entry S → Entry S) = id := funext hid
      simp [Ref.moveGuard, Ref.rename, h.nextGuard, ← hsrc, hmap]
    rw [hw, hr]
    exact h.addGuard
  · have hren := h.addGuard.rename w.nextGuard (Ne.symm hsrc) (Nat.lt_succ_self _)
      (h.find_of_le (Nat.le_refl _))
    unfold World.moveGuard Ref.moveGuard
    rw [h.nextGuard] at hren ⊢
    exact hren

theorem Sim.assignGuard (dst src : Nat) : Sim (w.assignGuard dst src) (r.assignGuard dst src) := by
  unfold World.assignGuard Ref.assignGuard
  rw [h.nextGuard]
  by_cases hc : dst = src ∨ w.nextGuard ≤ dst
  · rw [if_pos hc, if_pos hc]
    exact h
  · rw [if_neg hc, if_neg hc]
    push Not at hc
    have h₁ := h.rollback dst
    refine h₁.rename dst hc.1 ?_ (h.find_rollback dst)
    rw [← h₁.nextGuard, Ref.rollback_nextGuard, h.nextGuard]
    omega

theorem Sim.moveTx (src : Nat) : Sim (w.moveTx src) (r.moveTx src) := by
  have hnone : r.txs w.nextTx = none := h.unborn _ (Nat.le_refl _)
  by_cases hsrc : src = w.nextTx
  · have hw : w.moveTx src = { w with nextTx := w.nextTx + 1 } := by
      have hsp := (h.txClosed hnone).savepoint
      rw [← hsrc] at hsp
      have hret : ∀ w₁ : World S, World.retarget src w.nextNode none w₁ = w₁ := by
        intro w₁
        cases w.nextNode <;> rfl
      simp [World.moveTx, ← hsrc, hsp, World.setTx, hret]
    have hr : r.moveTx src = { r with nextTx := r.nextTx + 1 } := by
      simp [Ref.moveTx, Ref.setTx, h.nextTx, ← hsrc]
    rw [hw, hr]
    exact h.addTx
  · have hmove := h.addTx.takeOver w.nextTx (Ne.symm hsrc) (Nat.lt_succ_self _) hnone
    unfold World.moveTx Ref.moveTx
    rw [h.nextTx] at hmove ⊢
    exact hmove

theorem Sim.assignTx (dst src : Nat) : Sim (w.assignTx dst src) (r.assignTx dst src) := by
  unfold World.assignTx Ref.assignTx
  rw [h.nextTx]
  by_cases hc : dst = src ∨ w.nextTx ≤ dst
  · rw [if_pos hc, if_pos hc]
    exact h
  · rw [if_neg hc, if_neg hc]
    push Not at hc
    have h₁ := h.rollbackTx dst
    have hlt : dst < (w.rollbackTx dst).nextTx := by
      rw [← h₁.nextTx]
      show dst < r.nextTx
      rw [h.nextTx]
      omega
    have hmove := h₁.takeOver dst hc.1 hlt (Ref.setTx_self _ _ _)
    rw [Ref.setTx_of_ne (Ne.symm hc.1)] at hmove
    have hr : ((r.setTx dst none).setTx src none).setTx dst (r.txs src) =
        (r.setTx src none).setTx dst (r.txs src) := by
      simp only [Ref.setTx]
      rw [Function.update_comm hc.1, Function.update_idem]
    rw [hr] at hmove
    exact hmove

end

theorem Linked.isSome_eq (h : Linked nodes guards t b p gs) : p.isSome = !gs.isEmpty := by
  cases gs with
  | nil => rw [show p = none from h]; rfl
  | cons g rest =>
    obtain ⟨n, rfl, -⟩ := h
    rfl

theorem Sim.commit (h : Sim w r) (E : Engine S) (t a : Nat) (stored : Stored) :
    (w.commit E t a stored).1 = (r.commit E t a stored).1 ∧
      Sim (w.commit E t a stored).2 (r.commit E t a stored).2 := by
  unfold World.commit Ref.commit
  rw [← h.active_eq]
  cases hact : r.active t with
  | some e => exact ⟨rfl, h⟩
  | none =>
    obtain ⟨rt, ht, hopen⟩ := h.open_of_active hact
    simp only [ht, hopen.staged, hopen.base]
    -- The chain has a head exactly when the stack has a top.
    have hchain : (w.txs t).savepoint.isSome = !rt.stack.isEmpty := by
      rw [hopen.linked.isSome_eq]
      cases rt.stack <;> rfl
    rw [hchain, h.db, hopen.dirty]
    by_cases hstack : (!rt.stack.isEmpty) = true
    · rw [if_pos hstack, if_pos hstack]
      exact ⟨rfl, h⟩
    rw [if_neg hstack, if_neg hstack]
    by_cases hcur : w.db.current ≠ rt.base
    · rw [if_pos hcur, if_pos hcur]
      exact ⟨rfl, h⟩
    rw [if_neg hcur, if_neg hcur]
    by_cases hclean : (!rt.dirty) = true
    · rw [if_pos hclean, if_pos hclean]
      exact ⟨rfl, h.rollbackTx t⟩
    rw [if_neg hclean, if_neg hclean]
    have h₁ := h.setStaged ht (E.measure rt.state) rt.dirty
    simp only [hopen.base] at h₁
    set w₁ := w.setTx t ⟨(w.txs t).owner, some rt.base, some (E.measure rt.state), rt.dirty,
      (w.txs t).savepoint⟩
    set r₁ := r.setTx t (some { rt with state := E.measure rt.state })
    have hdb : r₁.db = w₁.db := h₁.db
    rw [hdb, h₁.bases_eq]
    cases E.page (E.measure rt.state) ((w₁.db.published rt.base).getD (E.measure rt.state)) with
    | error e => exact ⟨rfl, h₁⟩
    | ok next =>
      cases stored with
      | refused e => exact ⟨rfl, h₁⟩
      | broken e => exact ⟨rfl, h₁.setDb { w₁.db with failed := true } h.published⟩
      | done =>
        have h₂ := h₁.setDb
          (w₁.db.publish (allocate (heldBy w₁.db w₁.bases) a) next)
          (by simp [Database.publish])
        exact ⟨rfl, h₂.rollbackTx t⟩

theorem step_simulation (E : Engine S) :
    Machine.Simulation (World.step E) (Ref.step E) (Sim (S := S)) := by
  intro w r e h
  cases e with
  | beginTx => exact h.beginTx
  | mutate t f => exact h.mutate t f
  | savepoint t => exact h.savepoint t
  | release g => exact ⟨rfl, h.release g⟩
  | rollback g => exact ⟨rfl, h.rollback g⟩
  | rollbackTo g => exact h.rollbackTo g
  | destroyGuard g => exact ⟨rfl, (h.rollback g).forgetGuard (h.find_rollback g)⟩
  | moveGuard src => exact ⟨by simp [World.step, Ref.step, h.nextGuard], h.moveGuard src⟩
  | assignGuard dst src => exact ⟨rfl, h.assignGuard dst src⟩
  | commit t a stored => exact h.commit E t a stored
  | rollbackTx t => exact ⟨rfl, h.rollbackTx t⟩
  | moveTx src => exact ⟨by simp [World.step, Ref.step, h.nextTx], h.moveTx src⟩
  | assignTx dst src => exact ⟨rfl, h.assignTx dst src⟩
  | retain =>
    refine ⟨rfl, ?_⟩
    simp only [World.step, Ref.step, h.db]
    exact h.setDb _ h.published
  | drop a =>
    refine ⟨rfl, ?_⟩
    simp only [World.step, Ref.step, h.db]
    exact h.setDb _ h.published
  | close =>
    refine ⟨rfl, ?_⟩
    simp only [World.step, Ref.step, h.db]
    exact h.setDb _ h.published

/-! ## Whole runs -/

/-- What a program sees of a transaction: its staged state and dirty flag
while it is open. -/
def World.observe (w : World S) (t : Nat) : Option (S × Bool) :=
  (w.txs t).staged.map fun s => (s, (w.txs t).dirty)

def Ref.observe (r : Ref S) (t : Nat) : Option (S × Bool) :=
  (r.txs t).map fun tx => (tx.state, tx.dirty)

theorem Sim.observe_eq (h : Sim w r) (t : Nat) : w.observe t = r.observe t := by
  unfold World.observe Ref.observe
  cases ht : r.txs t with
  | none => simp [(h.txClosed ht).staged]
  | some rt => simp [(h.txOpen ht).staged, (h.txOpen ht).dirty]

/-- A non-empty stack refuses every commit, and refusing it changes nothing. -/
theorem Sim.commit_refused (h : Sim w r) (E : Engine S)
    (t a : Nat) (stored : Stored) (hact : w.active t = none) (hstack : r.stackOf t ≠ []) :
    w.commit E t a stored = (.error savepointsError, w) := by
  rw [← h.active_eq] at hact
  obtain ⟨rt, ht, hopen⟩ := h.open_of_active hact
  rw [h.active_eq] at hact
  have hsome : (w.txs t).savepoint.isSome = true := by
    rw [hopen.linked.isSome_eq]
    rw [Ref.stackOf_some ht] at hstack
    simpa using hstack
  simp [World.commit, hact, hopen.staged, hopen.base, hsome]

/-- An empty stack refuses none: with paging and the log willing, the answer
is success or a conflict. -/
theorem Sim.commit_not_refused (h : Sim w r) (E : Engine S)
    (t a : Nat) (hact : w.active t = none) (hstack : r.stackOf t = [])
    (hpage : ∀ s base, ∃ next, E.page s base = .ok next) :
    (w.commit E t a .done).1 ≠ .error savepointsError := by
  rw [← h.active_eq] at hact
  obtain ⟨rt, ht, hopen⟩ := h.open_of_active hact
  rw [h.active_eq] at hact
  have hnone : (w.txs t).savepoint.isSome = false := by
    rw [hopen.linked.isSome_eq]
    rw [Ref.stackOf_some ht] at hstack
    simp [hstack]
  have hconflict : conflictError ≠ savepointsError := by
    intro heq
    cases congrArg Error.code heq
  simp only [World.commit, hact, hopen.staged, hopen.base, hnone]
  split
  · contradiction
  · split
    · simpa using hconflict
    · split
      · simp
      · obtain ⟨next, hnext⟩ := hpage (E.measure rt.state)
          ((w.db.published rt.base).getD (E.measure rt.state))
        simp [World.setTx, hnext]

/-- Savepoint guards are a stack of snapshots: after any events whatever,
on guards in any order and condition and on transactions moved, committed
or rolled back, the machine of nodes and owner pointers has given the
answers of the stack machine and shows the same staged states and dirty
flags; and a transaction that may proceed is refused its commit for its
savepoints exactly while its stack is not empty. -/
theorem savepoints_are_a_stack (E : Engine S) (empty : S) (es : List (Event S)) :
    let w := Machine.run (World.step E) es (World.initial empty)
    let r := Machine.run (Ref.step E) es (Ref.initial empty)
    w.1 = r.1 ∧ (∀ t, w.2.observe t = r.2.observe t) ∧
      ∀ t, w.2.active t = none →
        (r.2.stackOf t ≠ [] → ∀ a stored,
          w.2.commit E t a stored = (.error savepointsError, w.2)) ∧
        (∀ E' : Engine S, (∀ s base, ∃ next, E'.page s base = .ok next) → ∀ a,
          ((w.2.commit E' t a .done).1 = .error savepointsError ↔ r.2.stackOf t ≠ [])) := by
  obtain ⟨hresp, hsim⟩ := (step_simulation E).run es _ _ (Sim.initial empty)
  refine ⟨hresp, hsim.observe_eq, fun t hact => ⟨?_, ?_⟩⟩
  · intro hstack a stored
    exact hsim.commit_refused E t a stored hact hstack
  · intro E' hpage a
    constructor
    · intro hrefused hstack
      exact hsim.commit_not_refused E' t a hact hstack hpage hrefused
    · intro hstack
      rw [hsim.commit_refused E' t a .done hact hstack]

/-- Two savepoints, the outer one rolled back to: the state is the one saved
there, its guard is still open, and the commit is refused. -/
theorem savepoints_are_a_stack_nested :
    let E : Engine Nat := ⟨id, fun s _ => .ok s⟩
    let write (n : Nat) : Event Nat := .mutate 0 fun _ _ => (none, n, true)
    let w := (Machine.run (World.step E)
      [.beginTx, write 5, .savepoint 0, write 6, .savepoint 0, write 7, .rollbackTo 0]
      (World.initial 0)).2
    w.observe 0 = some (5, true) ∧
      ∀ a stored, w.commit E 0 a stored = (.error savepointsError, w) :=
  ⟨rfl, (((savepoints_are_a_stack (S := Nat) _ _ _).2.2 0 rfl).1 (by decide))⟩

end CoreSql.Txn
