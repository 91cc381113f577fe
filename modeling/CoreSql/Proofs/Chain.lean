import CoreSql.Txn.Reference
import Mathlib.Tactic.Common

/-!
# The chain a transaction heads

The savepoints of a transaction are a linked list of nodes, the youngest
first, and each open one is held by a guard. Two operations walk the list:
closing a guard pops every node above it, and moving a transaction gives every
node a new owner. For both, what they leave of the list and of everything
else is said once (`Popped`, `Retargeted`), and what a savepoint's release and
restore do follows.
-/

namespace CoreSql.Txn

variable {S : Type} {nodes nodes' : Nat → SavepointState S} {guards guards' : Nat → Option Nat}
  {t g n m bound bound' g' t' k src : Nat}
  {below above gs closed rest c₁ c₂ below₁ below₂ : List Nat} {tx : Transaction S}
  {w w' w₁ w₂ w₃ : World S}

/-! ## Chains

The shape of a chain and what its nodes hold are kept apart: closing a node
moves its snapshot out before the node is unlinked, so in the middle of
`finish_savepoint` the shape is intact and the contents are not. -/

/-- `Linked nodes guards t bound p gs`: the chain that starts at `p` has one
open node of `t` per guard of `gs`, held by that guard, with node numbers
falling from below `bound`. -/
def Linked (nodes : Nat → SavepointState S) (guards : Nat → Option Nat)
    (t : Nat) : Nat → Option Nat → List Nat → Prop
  | _, p, [] => p = none
  | bound, p, g :: rest => ∃ n, p = some n ∧ n < bound ∧ guards g = some n ∧
      (nodes n).owner = some t ∧ Linked nodes guards t n (nodes n).parent rest

theorem Linked.length_le : ∀ {gs : List Nat} {bound : Nat} {p : Option Nat},
      Linked nodes guards t bound p gs → gs.length ≤ bound := by
  intro gs
  induction gs with
  | nil => intro bound p _; exact Nat.zero_le _
  | cons g rest ih =>
    intro bound p h
    obtain ⟨n, -, hn, -, -, hrest⟩ := h
    have := ih hrest
    simp only [List.length_cons]
    omega

/-- A chain only reads the nodes below its bound that belong to its
transaction, so nothing done elsewhere disturbs it. -/
theorem Linked.congr :
    ∀ {gs : List Nat} {bound : Nat} {p : Option Nat}, Linked nodes guards t bound p gs →
      (∀ n, n < bound → (nodes n).owner = some t →
        (nodes' n).owner = (nodes n).owner ∧ (nodes' n).parent = (nodes n).parent) →
      (∀ g ∈ gs, guards' g = guards g) → Linked nodes' guards' t bound p gs := by
  intro gs
  induction gs with
  | nil => intro bound p h _ _; exact h
  | cons g rest ih =>
    intro bound p h hnodes hguards
    obtain ⟨n, hp, hn, hg, ho, hrest⟩ := h
    obtain ⟨howner, hparent⟩ := hnodes n hn ho
    refine ⟨n, hp, hn, ?_, ?_, ?_⟩
    · rw [hguards g (by simp)]; exact hg
    · rw [howner]; exact ho
    · rw [hparent]
      exact ih hrest (fun m hm => hnodes m (by omega))
        (fun g' hg' => hguards g' (by simp [hg']))

theorem Linked.mono {p : Option Nat} (h : Linked nodes guards t bound p gs) (hle : bound ≤ bound') :
    Linked nodes guards t bound' p gs := by
  cases gs with
  | nil => exact h
  | cons g rest =>
    obtain ⟨n, hp, hn, hrest⟩ := h
    exact ⟨n, hp, Nat.lt_of_lt_of_le hn hle, hrest⟩

theorem Linked.node_of_mem : ∀ {gs : List Nat} {bound : Nat} {p : Option Nat},
      Linked nodes guards t bound p gs → g ∈ gs →
      ∃ n, guards g = some n ∧ n < bound ∧ (nodes n).owner = some t := by
  intro gs
  induction gs with
  | nil => intro bound p _ he; cases he
  | cons a rest ih =>
    intro bound p h he
    obtain ⟨n, -, hn, hg, ho, hrest⟩ := h
    rcases List.mem_cons.mp he with rfl | hmem
    · exact ⟨n, hg, hn, ho⟩
    · obtain ⟨m, hm, hlt, hrest⟩ := ih hrest hmem
      exact ⟨m, hm, by omega, hrest⟩

/-- Guards further down a chain sit on other nodes than those above. -/
theorem Linked.ne_of_split (hg' : g' ∈ below) : ∀ {above : List Nat} {bound : Nat} {p : Option Nat},
      Linked nodes guards t bound p (above ++ below) → g ∈ above → guards g ≠ guards g' := by
  intro above
  induction above with
  | nil => intro bound p _ hg; cases hg
  | cons a above ih =>
    intro bound p h hg
    obtain ⟨n, -, -, hn, -, hrest⟩ := h
    rcases List.mem_cons.mp hg with rfl | hmem
    · obtain ⟨m, hm, hlt, -⟩ := hrest.node_of_mem (g := g') (by simp [hg'])
      rw [hn, hm]
      simp only [ne_eq, Option.some.injEq]
      omega
    · exact ih hrest hmem

/-! ## Popping the chain

`popUntil` closes the nodes of the guards it pops and leaves the chain of
the guards below. `Popped` says what that does to the world, in the terms
the rest of the argument runs in; `tx` is the transaction's record up to
its chain head. -/

structure Popped (t : Nat) (tx : Transaction S) (closed below : List Nat)
    (w w' : World S) : Prop where
  db : w'.db = w.db
  nextTx : w'.nextTx = w.nextTx
  nextNode : w'.nextNode = w.nextNode
  nextGuard : w'.nextGuard = w.nextGuard
  guards : w'.guards = w.guards
  other : ∀ t', t' ≠ t → w'.txs t' = w.txs t'
  chain : ∃ p, w'.txs t = { tx with savepoint := p } ∧
    Linked w'.nodes w'.guards t w'.nextNode p below
  kept : ∀ n, (∀ g ∈ closed, w.guards g ≠ some n) → w'.nodes n = w.nodes n
  gone : ∀ g ∈ closed, ∀ n, w.guards g = some n → (w'.nodes n).owner = none

theorem Popped.node_of_open (h : Popped t tx closed below w w')
    (ho : (w'.nodes n).owner = some t') : w'.nodes n = w.nodes n := by
  refine h.kept n fun g hg hn => ?_
  rw [h.gone g hg n hn] at ho
  cases ho

/-- One turn of the loop: unlink a node and close it. -/
def World.popOne (w : World S) (t n : Nat) : World S :=
  (w.setTx t { w.txs t with savepoint := (w.nodes n).parent }).setNode n
    { w.nodes n with owner := none, snapshot := none, parent := none }

theorem popUntil_succ (target : Option Nat) (t fuel n : Nat) (w : World S)
    (h : (w.txs t).savepoint = some n) : World.popUntil target t (fuel + 1) w =
      if target = some n then w.popOne t n else World.popUntil target t fuel (w.popOne t n) := by
  rw [World.popUntil, h]
  rfl

theorem popOne_node (h : k ≠ n) : (w.popOne t n).nodes k = w.nodes k := by
  simp [World.popOne, World.setTx, World.setNode, h]

theorem popOne_popped (h : Linked w.nodes w.guards t w.nextNode (some n) (g :: rest)) :
    Popped t (w.txs t) [g] rest w (w.popOne t n) := by
  obtain ⟨m, hm, hlt, hg, ho, hrest⟩ := h
  obtain rfl : n = m := by simpa using hm
  refine ⟨rfl, rfl, rfl, rfl, rfl, ?_, ⟨(w.nodes n).parent, ?_, ?_⟩, ?_, ?_⟩
  · intro t' ht'
    simp [World.popOne, World.setTx, World.setNode, ht']
  · simp [World.popOne, World.setTx, World.setNode]
  · refine (hrest.congr (fun k hk _ => ?_) (fun _ _ => rfl)).mono
      (show n ≤ w.nextNode by omega)
    rw [popOne_node (by omega)]
    exact ⟨rfl, rfl⟩
  · intro k hk
    have hkn : k ≠ n := fun hkn => hk g (by simp) (hkn ▸ hg)
    exact popOne_node hkn
  · intro a ha k hk
    obtain rfl : a = g := by simpa using ha
    obtain rfl : n = k := by simpa [hg] using hk
    simp [World.popOne, World.setTx, World.setNode]

theorem Popped.trans (h₁ : Popped t tx c₁ below₁ w₁ w₂) (h₂ : Popped t (w₂.txs t) c₂ below₂ w₂ w₃) :
    Popped t tx (c₁ ++ c₂) below₂ w₁ w₃ := by
  have hkept : ∀ n, (∀ g ∈ c₁ ++ c₂, w₁.guards g ≠ some n) → w₃.nodes n = w₁.nodes n := by
    intro n hn
    rw [h₂.kept n (fun g hg => by rw [h₁.guards]; exact hn g (by simp [hg])),
      h₁.kept n (fun g hg => hn g (by simp [hg]))]
  refine ⟨h₂.db.trans h₁.db, h₂.nextTx.trans h₁.nextTx,
    h₂.nextNode.trans h₁.nextNode, h₂.nextGuard.trans h₁.nextGuard,
    h₂.guards.trans h₁.guards, ?_, ?_, hkept, ?_⟩
  · intro t' ht'
    rw [h₂.other t' ht', h₁.other t' ht']
  · obtain ⟨p₁, hp₁, -⟩ := h₁.chain
    obtain ⟨p₂, hp₂, hl₂⟩ := h₂.chain
    exact ⟨p₂, by rw [hp₂, hp₁], hl₂⟩
  · intro g hg n hn
    by_cases hc : ∃ g' ∈ c₂, w₁.guards g' = some n
    · obtain ⟨g', hg', hn'⟩ := hc
      exact h₂.gone g' hg' n (by rw [h₁.guards]; exact hn')
    · rcases List.mem_append.mp hg with hg | hg
      · rw [h₂.kept n (fun g' hg' hn' => hc ⟨g', hg', by rwa [h₁.guards] at hn'⟩)]
        exact h₁.gone g hg n hn
      · exact absurd ⟨g, hg, hn⟩ hc

/-- Popping to a guard on the chain closes it and everything above it. -/
theorem popUntil_popped : ∀ {above : List Nat} {fuel : Nat} {w : World S},
      Linked w.nodes w.guards t w.nextNode (w.txs t).savepoint (above ++ g :: below) →
      w.guards g = some m → above.length < fuel →
      Popped t (w.txs t) (above ++ [g]) below w (World.popUntil (some m) t fuel w) := by
  intro above
  induction above with
  | nil =>
    intro fuel w h hm hf
    obtain ⟨fuel, rfl⟩ : ∃ k, fuel = k + 1 := ⟨fuel - 1, by simp at hf; omega⟩
    obtain ⟨n, hp, -, hg, -⟩ := id h
    obtain rfl : m = n := by simpa [hm] using hg
    rw [popUntil_succ _ _ _ _ _ hp, if_pos rfl]
    exact popOne_popped (hp ▸ h)
  | cons a above ih =>
    intro fuel w h hm hf
    obtain ⟨fuel, rfl⟩ : ∃ k, fuel = k + 1 := ⟨fuel - 1, by simp at hf; omega⟩
    obtain ⟨n, hp, hlt, -, -, hrest⟩ := id h
    -- Node numbers fall along the chain, so the target is further down.
    have hmn : m < n := by
      obtain ⟨k, hk, hkn, -⟩ := hrest.node_of_mem (g := g) (by simp)
      rw [hm] at hk
      cases hk
      exact hkn
    rw [popUntil_succ _ _ _ _ _ hp, if_neg (by simp; omega)]
    have hone := popOne_popped (hp ▸ h)
    obtain ⟨p, hp', hl'⟩ := hone.chain
    refine hone.trans (ih ?_ ?_ (by simp at hf; omega))
    · rw [hp']; exact hl'
    · rw [hone.guards]; exact hm

theorem popUntil_none_popped : ∀ {gs : List Nat} {fuel : Nat} {w : World S},
      Linked w.nodes w.guards t w.nextNode (w.txs t).savepoint gs → gs.length ≤ fuel →
      Popped t (w.txs t) gs [] w (World.popUntil none t fuel w) := by
  intro gs
  induction gs with
  | nil =>
    intro fuel w h _
    have hnone : (w.txs t).savepoint = none := h
    have hw : World.popUntil none t fuel w = w := by
      cases fuel with
      | zero => rfl
      | succ fuel => rw [World.popUntil, hnone]
    rw [hw]
    refine ⟨rfl, rfl, rfl, rfl, rfl, fun _ _ => rfl, ⟨none, ?_, rfl⟩,
      fun _ _ => rfl, (fun _ hg => absurd hg List.not_mem_nil)⟩
    rw [← hnone]
  | cons a rest ih =>
    intro fuel w h hf
    obtain ⟨fuel, rfl⟩ : ∃ k, fuel = k + 1 := ⟨fuel - 1, by simp at hf; omega⟩
    obtain ⟨n, hp, -⟩ := id h
    rw [popUntil_succ _ _ _ _ _ hp, if_neg (by simp)]
    have hone := popOne_popped (hp ▸ h)
    obtain ⟨p, hp', hl'⟩ := hone.chain
    refine hone.trans (ih ?_ (by simp at hf; omega))
    rw [hp']; exact hl'

/-- `finish_savepoint(target, false)`: close and keep the staged state. -/
theorem finishSavepoint_release
    (h : Linked w.nodes w.guards t w.nextNode (w.txs t).savepoint (above ++ g :: below))
    (hm : w.guards g = some m) :
    Popped t (w.txs t) (above ++ [g]) below w (w.finishSavepoint t (some m) false) := by
  have hlen := h.length_le
  simp only [List.length_append, List.length_cons] at hlen
  have hfuel : above.length < w.nextNode := by omega
  exact popUntil_popped h hm hfuel

/-- `finish_savepoint(target, true)`: the snapshot is moved out of the
target's node, which the loop then closes anyway. -/
theorem finishSavepoint_restore
    (h : Linked w.nodes w.guards t w.nextNode (w.txs t).savepoint (above ++ g :: below))
    (hm : w.guards g = some m) :
    Popped t { w.txs t with staged := (w.nodes m).snapshot, dirty := (w.nodes m).dirty }
      (above ++ [g]) below w (w.finishSavepoint t (some m) true) := by
  set w₁ : World S := (w.setTx t { w.txs t with
    staged := (w.nodes m).snapshot, dirty := (w.nodes m).dirty }).setNode m
      { w.nodes m with snapshot := none } with hw₁
  have hnode : ∀ n, n ≠ m → w₁.nodes n = w.nodes n := by
    intro n hn
    simp [hw₁, World.setTx, World.setNode, hn]
  have hshape : ∀ n, (w₁.nodes n).owner = (w.nodes n).owner ∧
      (w₁.nodes n).parent = (w.nodes n).parent := by
    intro n
    by_cases hn : n = m
    · simp [hw₁, World.setTx, World.setNode, hn]
    · rw [hnode n hn]; exact ⟨rfl, rfl⟩
  have hlink : Linked w₁.nodes w₁.guards t w₁.nextNode (w₁.txs t).savepoint
      (above ++ g :: below) := by
    have hsp : (w₁.txs t).savepoint = (w.txs t).savepoint := by
      simp [hw₁, World.setTx, World.setNode]
    rw [hsp]
    exact h.congr (fun n _ _ => hshape n) (fun _ _ => rfl)
  have hlen := hlink.length_le
  simp only [List.length_append, List.length_cons] at hlen
  have hfuel : above.length < w₁.nextNode := by omega
  have hp := popUntil_popped hlink hm hfuel
  have htx : w₁.txs t = { w.txs t with
      staged := (w.nodes m).snapshot, dirty := (w.nodes m).dirty } := by
    simp [hw₁, World.setTx, World.setNode]
  have hfin : w.finishSavepoint t (some m) true = World.popUntil (some m) t w₁.nextNode w₁ := rfl
  rw [hfin]
  refine ⟨hp.db, hp.nextTx, hp.nextNode, hp.nextGuard, hp.guards, ?_, ?_, ?_, hp.gone⟩
  · intro t' ht'
    rw [hp.other t' ht']
    simp [hw₁, World.setTx, World.setNode, ht']
  · rw [← htx]; exact hp.chain
  · intro n hn
    have hnm : n ≠ m := fun hnm => hn g (by simp) (hnm ▸ hm)
    rw [hp.kept n hn, hnode n hnm]

/-! ## Retargeting the chain

A moved transaction takes its chain along: every node on it learns its new
owner, and no other node is written. -/

structure Retargeted (dst : Nat) (gs : List Nat) (w w' : World S) : Prop where
  db : w'.db = w.db
  txs : w'.txs = w.txs
  nextTx : w'.nextTx = w.nextTx
  nextNode : w'.nextNode = w.nextNode
  nextGuard : w'.nextGuard = w.nextGuard
  guards : w'.guards = w.guards
  moved : ∀ g ∈ gs, ∀ n, w.guards g = some n →
    w'.nodes n = { w.nodes n with owner := some dst }
  kept : ∀ n, (∀ g ∈ gs, w.guards g ≠ some n) → w'.nodes n = w.nodes n

theorem retarget_retargeted (dst : Nat) :
    ∀ {gs : List Nat} {fuel bound : Nat} {p : Option Nat} {w : World S},
      Linked w.nodes w.guards src bound p gs → gs.length ≤ fuel →
      Retargeted dst gs w (World.retarget dst fuel p w) ∧
        Linked (World.retarget dst fuel p w).nodes w.guards dst bound p gs := by
  intro gs
  induction gs with
  | nil =>
    intro fuel bound p w h _
    obtain rfl : p = none := h
    have hw : World.retarget dst fuel none w = w := by cases fuel <;> rfl
    rw [hw]
    exact ⟨⟨rfl, rfl, rfl, rfl, rfl, rfl, (fun _ hg => absurd hg List.not_mem_nil), fun _ _ => rfl⟩,
      rfl⟩
  | cons g rest ih =>
    intro fuel bound p w h hf
    obtain ⟨fuel, rfl⟩ : ∃ k, fuel = k + 1 := ⟨fuel - 1, by simp at hf; omega⟩
    obtain ⟨n, rfl, hlt, hg, ho, hrest⟩ := id h
    set w₁ := w.setNode n { w.nodes n with owner := some dst } with hw₁
    have hnode : ∀ k, k ≠ n → w₁.nodes k = w.nodes k := by
      intro k hk
      simp [hw₁, World.setNode, hk]
    have hrest₁ : Linked w₁.nodes w₁.guards src n (w.nodes n).parent rest :=
      hrest.congr (fun k hk _ => by rw [hnode k (by omega)]; exact ⟨rfl, rfl⟩)
        (fun _ _ => rfl)
    obtain ⟨hr, hl⟩ := ih (w := w₁) hrest₁ (by simp at hf; omega)
    have hstep : World.retarget dst (fuel + 1) (some n) w =
        World.retarget dst fuel (w.nodes n).parent w₁ := rfl
    rw [hstep]
    have hfar : ∀ g' ∈ rest, w.guards g' ≠ some n := by
      intro g' hg' hn
      obtain ⟨k, hk, hkn, -⟩ := hrest.node_of_mem hg'
      rw [hn] at hk
      cases hk
      omega
    have hself : (World.retarget dst fuel (w.nodes n).parent w₁).nodes n =
        { w.nodes n with owner := some dst } := by
      rw [hr.kept n hfar]
      simp [hw₁, World.setNode]
    refine ⟨⟨hr.db, hr.txs, hr.nextTx, hr.nextNode, hr.nextGuard, hr.guards, ?_, ?_⟩, ?_⟩
    · intro g' hg' k hk
      rcases List.mem_cons.mp hg' with rfl | hmem
      · obtain rfl : n = k := by simpa [hg] using hk
        exact hself
      · have hkn : k ≠ n := fun hkn => hfar g' hmem (hkn ▸ hk)
        rw [hr.moved g' hmem k hk, hnode k hkn]
    · intro k hk
      have hkn : k ≠ n := fun hkn => hk g (by simp) (hkn ▸ hg)
      rw [hr.kept k (fun g' hg' => hk g' (by simp [hg'])), hnode k hkn]
    · refine ⟨n, rfl, hlt, hg, by rw [hself], ?_⟩
      rw [hself]
      exact hl

end CoreSql.Txn
