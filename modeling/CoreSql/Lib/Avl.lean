import CoreSql.Lib.Fallible
import CoreSql.Lib.ThreeWay
import Mathlib.Tactic.Common

/-!
# AVL trees with stored heights

A persistent AVL tree whose nodes carry their height. Insertion asks a
callback at every node which way to turn, and the callback may refuse, so
that a client can reject duplicates on the way down. Removal follows a
three-way comparison and puts the next larger entry in the place of a node
with two children.

What a client learns is about the list of entries and nothing else:

* `insertWith_sorted`: the new entry stands between smaller and larger ones;
* `insertWith_accepted`: it came in only if no entry was refused;
* `eraseWith_entries`: one entry the comparison calls equal is gone;
* `eraseWith_exists`: removal finds an entry that is there;
* `Balanced`: stored heights are right and siblings differ by at most one.

Sortedness is `Pairwise` over the entries. Insertion needs transitivity, on
the entries it meets and no others, because a client's order may only be
lawful there; removal needs no law at all.
-/

/-- A tree with an entry and a stored height at every node. -/
inductive Avl (α : Type) where
  | nil
  | node (value : α) (left right : Avl α) (height : Nat)
  deriving Inhabited

namespace Avl

variable {α ε : Type} {t left right t' : Avl α} {a b : α} {turn : α → Except ε Bool}
  {r : α → α → Prop} {P : α → Prop} {compare : α → α → Int} {missing : ε} {below above : α → Bool}

def height : Avl α → Nat
  | nil => 0
  | node _ _ _ h => h

@[simp] theorem height_nil : (nil : Avl α).height = 0 := rfl

@[simp] theorem height_node (a : α) (left right : Avl α) (h : Nat) :
    (node a left right h).height = h := rfl

def make (a : α) (left right : Avl α) : Avl α :=
  node a left right (1 + max left.height right.height)

/-- The rotations of a node that is too high on the left. -/
def rotateRight (a : α) (left right : Avl α) : Avl α :=
  match left with
  | nil => make a left right
  | node b bl br _ =>
    if bl.height < br.height then
      match br with
      | nil => make a left right
      | node m ml mr _ => make m (make b bl ml) (make a mr right)
    else make b bl (make a br right)

/-- The rotations of a node that is too high on the right. -/
def rotateLeft (a : α) (left right : Avl α) : Avl α :=
  match right with
  | nil => make a left right
  | node b bl br _ =>
    if br.height < bl.height then
      match bl with
      | nil => make a left right
      | node m ml mr _ => make m (make a left ml) (make b mr br)
    else make b (make a left bl) br

/-- A node, rotated when its sides differ by more than one. -/
def balance (a : α) (left right : Avl α) : Avl α :=
  if right.height + 1 < left.height then rotateRight a left right
  else if left.height + 1 < right.height then rotateLeft a left right
  else make a left right

def entries : Avl α → List α
  | nil => []
  | node a left right _ => left.entries ++ a :: right.entries

/-- The first entry of a node with this value and left side. -/
def first (a : α) : Avl α → α
  | nil => a
  | node b left _ _ => first b left

/-- Insertion; `turn` says whether to go left at an entry, or refuses. -/
def insertWith (turn : α → Except ε Bool) (a : α) : Avl α → Except ε (Avl α)
  | nil => .ok (make a nil nil)
  | node b left right _ =>
    match turn b with
    | .error e => .error e
    | .ok true => do
        let left ← insertWith turn a left
        return balance b left right
    | .ok false => do
        let right ← insertWith turn a right
        return balance b left right

/-- Removal of the entry the comparison calls equal. -/
def eraseWith (compare : α → α → Int) (missing : ε) (a : α) : Avl α → Except ε (Avl α)
  | nil => .error missing
  | node b left right _ =>
    if compare a b < 0 then do
      let left ← eraseWith compare missing a left
      return balance b left right
    else if 0 < compare a b then do
      let right ← eraseWith compare missing a right
      return balance b left right
    else
      match left, right with
      | nil, right => .ok right
      | left, nil => .ok left
      | left, node c cl cr h => do
          let right ← eraseWith compare missing (first c cl) (node c cl cr h)
          return balance (first c cl) left right

/-! ## Entries -/

@[simp] theorem entries_nil : (nil : Avl α).entries = [] := rfl

@[simp] theorem entries_node (a : α) (left right : Avl α) (h : Nat) :
    (node a left right h).entries = left.entries ++ a :: right.entries := rfl

@[simp] theorem entries_make (a : α) (left right : Avl α) :
    (make a left right).entries = left.entries ++ a :: right.entries := rfl

theorem entries_rotateRight (a : α) (left right : Avl α) :
    (rotateRight a left right).entries = left.entries ++ a :: right.entries := by
  unfold rotateRight
  split
  · rfl
  · split
    · split <;> simp
    · simp

theorem entries_rotateLeft (a : α) (left right : Avl α) :
    (rotateLeft a left right).entries = left.entries ++ a :: right.entries := by
  unfold rotateLeft
  split
  · rfl
  · split
    · split <;> simp
    · simp

@[simp] theorem entries_balance (a : α) (left right : Avl α) :
    (balance a left right).entries = left.entries ++ a :: right.entries := by
  rw [balance]
  split
  · exact entries_rotateRight a left right
  · split
    · exact entries_rotateLeft a left right
    · rfl

theorem entries_eq_first_cons (c : α) (left right : Avl α) (h : Nat) :
    ∃ rest, (node c left right h).entries = first c left :: rest := by
  induction left generalizing c right h with
  | nil => exact ⟨right.entries, rfl⟩
  | node b bl br bh ihl _ =>
    obtain ⟨rest, hrest⟩ := ihl b br bh
    refine ⟨rest ++ c :: right.entries, ?_⟩
    rw [entries_node, hrest]
    rfl

/-! ## Balance -/

/-- Heights are stored right and siblings differ by at most one. -/
def Balanced : Avl α → Prop
  | nil => True
  | node _ left right h => left.Balanced ∧ right.Balanced ∧
      h = 1 + max left.height right.height ∧
      left.height ≤ right.height + 1 ∧ right.height ≤ left.height + 1

def depth : Avl α → Nat
  | nil => 0
  | node _ left right _ => 1 + max left.depth right.depth

/-- Every node has its depth stored as its height. -/
def Measured : Avl α → Prop
  | nil => True
  | node a left right h => h = (node a left right h).depth ∧ left.Measured ∧ right.Measured

/-- No two siblings differ by more than one in depth. -/
def Level : Avl α → Prop
  | nil => True
  | node _ left right _ => left.depth ≤ right.depth + 1 ∧ right.depth ≤ left.depth + 1 ∧
      left.Level ∧ right.Level

theorem Balanced.height_eq_depth (h : t.Balanced) : t.height = t.depth := by
  induction t with
  | nil => rfl
  | node a left right k ihl ihr =>
    obtain ⟨hl, hr, hk, -, -⟩ := h
    rw [height_node, depth, ← ihl hl, ← ihr hr, hk]

theorem Balanced.measured (h : t.Balanced) : t.Measured := by
  induction t with
  | nil => trivial
  | node a left right k ihl ihr => exact ⟨h.height_eq_depth, ihl h.1, ihr h.2.1⟩

theorem Balanced.level (h : t.Balanced) : t.Level := by
  induction t with
  | nil => trivial
  | node a left right k ihl ihr =>
    obtain ⟨hl, hr, -, hleft, hright⟩ := h
    rw [hl.height_eq_depth, hr.height_eq_depth] at hleft hright
    exact ⟨hleft, hright, ihl hl, ihr hr⟩

theorem height_make (a : α) (left right : Avl α) :
    (make a left right).height = 1 + max left.height right.height := rfl

section

variable (hl : left.Balanced) (hr : right.Balanced)
include hl hr

theorem Balanced.make (h : left.height ≤ right.height + 1) (h' : right.height ≤ left.height + 1) :
    (Avl.make a left right).Balanced :=
  ⟨hl, hr, rfl, h, h'⟩

theorem Balanced.rotateRight (h : left.height = right.height + 2) :
    (Avl.rotateRight a left right).Balanced ∧ left.height ≤ (Avl.rotateRight a left right).height ∧
      (Avl.rotateRight a left right).height ≤ left.height + 1 := by
  cases left with
  | nil => simp at h
  | node b bl br bh =>
    obtain ⟨hbl, hbr, hbh, hle, hge⟩ := hl
    simp only [height_node] at h
    simp only [Avl.rotateRight]
    split
    · next hlt =>
        cases br with
        | nil => simp at hlt
        | node m ml mr mh =>
          obtain ⟨hml, hmr, hmh, hmle, hmge⟩ := hbr
          simp only [height_node] at hlt hbh hle hge
          refine ⟨⟨⟨hbl, hml, rfl, ?_, ?_⟩, ⟨hmr, hr, rfl, ?_, ?_⟩, rfl, ?_, ?_⟩, ?_, ?_⟩
          all_goals (try simp only [height_make, height_node]); omega
    · next hge' =>
        refine ⟨⟨hbl, ⟨hbr, hr, rfl, ?_, ?_⟩, rfl, ?_, ?_⟩, ?_, ?_⟩
        all_goals (try simp only [height_make, height_node]); omega

theorem Balanced.rotateLeft (h : right.height = left.height + 2) :
    (Avl.rotateLeft a left right).Balanced ∧ right.height ≤ (Avl.rotateLeft a left right).height ∧
      (Avl.rotateLeft a left right).height ≤ right.height + 1 := by
  cases right with
  | nil => simp at h
  | node b bl br bh =>
    obtain ⟨hbl, hbr, hbh, hle, hge⟩ := hr
    simp only [height_node] at h
    simp only [Avl.rotateLeft]
    split
    · next hlt =>
        cases bl with
        | nil => simp at hlt
        | node m ml mr mh =>
          obtain ⟨hml, hmr, hmh, hmle, hmge⟩ := hbl
          simp only [height_node] at hlt hbh hle hge
          refine ⟨⟨⟨hl, hml, rfl, ?_, ?_⟩, ⟨hmr, hbr, rfl, ?_, ?_⟩, rfl, ?_, ?_⟩, ?_, ?_⟩
          all_goals (try simp only [height_make, height_node]); omega
    · next hge' =>
        refine ⟨⟨⟨hl, hbl, rfl, ?_, ?_⟩, hbr, rfl, ?_, ?_⟩, ?_, ?_⟩
        all_goals (try simp only [height_make, height_node]); omega

/-- What `balance` is called with and what it gives back: sides that differ
by at most two become a balanced tree as high as the higher side, or one
higher, and exactly that when nothing had to be rotated. -/
theorem Balanced.balance
    (h : left.height ≤ right.height + 2) (h' : right.height ≤ left.height + 2) :
    (Avl.balance a left right).Balanced ∧
      max left.height right.height ≤ (Avl.balance a left right).height ∧
      (Avl.balance a left right).height ≤ 1 + max left.height right.height ∧
      (left.height ≤ right.height + 1 → right.height ≤ left.height + 1 →
        (Avl.balance a left right).height = 1 + max left.height right.height) := by
  rw [Avl.balance]
  split
  · next hlt =>
      obtain ⟨hb, hlo, hhi⟩ := hl.rotateRight (a := a) hr (by omega)
      exact ⟨hb, by omega, by omega, by omega⟩
  · next hge =>
      split
      · next hlt =>
          obtain ⟨hb, hlo, hhi⟩ := hl.rotateLeft (a := a) hr (by omega)
          exact ⟨hb, by omega, by omega, by omega⟩
      · next hge' =>
          have hheight := height_make a left right
          exact ⟨hl.make hr (by omega) (by omega), by omega, by omega, by omega⟩

end

/-! ## Insertion -/

theorem insertWith_balanced (ht : t.Balanced) (h : insertWith turn a t = .ok t') :
    t'.Balanced ∧ t.height ≤ t'.height ∧ t'.height ≤ t.height + 1 := by
  induction t generalizing t' with
  | nil =>
    cases h
    simp [make, Balanced]
  | node b left right bh ihl ihr =>
    obtain ⟨hl, hr, hbh, hle, hge⟩ := ht
    rw [insertWith] at h
    rw [height_node]
    split at h
    · cases h
    · obtain ⟨left', hleft, h⟩ := Fallible.bind_eq_ok.mp h
      cases h
      obtain ⟨hl', hlo, hhi⟩ := ihl hl hleft
      obtain ⟨hb, hblo, hbhi, hbeq⟩ := hl'.balance (a := b) hr (by omega) (by omega)
      exact ⟨hb, by omega, by omega⟩
    · obtain ⟨right', hright, h⟩ := Fallible.bind_eq_ok.mp h
      cases h
      obtain ⟨hr', hlo, hhi⟩ := ihr hr hright
      obtain ⟨hb, hblo, hbhi, hbeq⟩ := hl.balance (a := b) hr' (by omega) (by omega)
      exact ⟨hb, by omega, by omega⟩

theorem insertWith_perm (h : insertWith turn a t = .ok t') : t'.entries.Perm (a :: t.entries) := by
  induction t generalizing t' with
  | nil =>
    cases h
    exact List.Perm.refl _
  | node b left right bh ihl ihr =>
    rw [insertWith] at h
    split at h
    · cases h
    · obtain ⟨left', hleft, h⟩ := Fallible.bind_eq_ok.mp h
      cases h
      rw [entries_balance]
      exact (ihl hleft).append_right _
    · obtain ⟨right', hright, h⟩ := Fallible.bind_eq_ok.mp h
      cases h
      rw [entries_balance]
      exact (((ihr hright).cons b).append_left left.entries).trans
        ((List.Perm.swap a b _).append_left left.entries |>.trans List.perm_middle)

/-- The new entry stands where the turns lead: if a turn to the left means
smaller and one to the right larger, the entries stay sorted. -/
theorem insertWith_sorted (htrans : ∀ x y z, P x → P y → P z → r x y → r y z → r x z) (ha : P a)
    (hturn : ∀ b d, P b → turn b = .ok d → if d then r a b else r b a)
    (hP : ∀ x ∈ t.entries, P x) (ht : t.entries.Pairwise r) (h : insertWith turn a t = .ok t') :
    t'.entries.Pairwise r := by
  induction t generalizing t' with
  | nil =>
    cases h
    simp
  | node b left right bh ihl ihr =>
    rw [entries_node, List.pairwise_append, List.pairwise_cons] at ht
    obtain ⟨hleft, ⟨hb, hright⟩, hcross⟩ := ht
    have hPl : ∀ x ∈ left.entries, P x := fun x hx => hP x (by simp [hx])
    have hPr : ∀ x ∈ right.entries, P x := fun x hx => hP x (by simp [hx])
    have hPb : P b := hP b (by simp)
    rw [insertWith] at h
    split at h
    · cases h
    · next hd =>
        have hab : r a b := hturn b true hPb hd
        obtain ⟨left', hins, h⟩ := Fallible.bind_eq_ok.mp h
        cases h
        rw [entries_balance, List.pairwise_append, List.pairwise_cons]
        refine ⟨ihl hPl hleft hins, ⟨hb, hright⟩, fun x hx y hy => ?_⟩
        rcases List.mem_cons.mp ((insertWith_perm hins).mem_iff.mp hx) with rfl | hx
        · rcases List.mem_cons.mp hy with rfl | hy
          · exact hab
          · exact htrans x b y ha hPb (hPr y hy) hab (hb y hy)
        · exact hcross x hx y hy
    · next hd =>
        have hba : r b a := hturn b false hPb hd
        obtain ⟨right', hins, h⟩ := Fallible.bind_eq_ok.mp h
        cases h
        rw [entries_balance, List.pairwise_append, List.pairwise_cons]
        refine ⟨hleft, ⟨fun y hy => ?_, ihr hPr hright hins⟩, fun x hx y hy => ?_⟩
        · rcases List.mem_cons.mp ((insertWith_perm hins).mem_iff.mp hy) with rfl | hy
          · exact hba
          · exact hb y hy
        · rcases List.mem_cons.mp hy with rfl | hy
          · exact hcross x hx y List.mem_cons_self
          · rcases List.mem_cons.mp ((insertWith_perm hins).mem_iff.mp hy) with rfl | hy
            · exact htrans x b y (hPl x hx) hPb ha (hcross x hx b List.mem_cons_self) hba
            · exact hcross x hx y (List.mem_cons_of_mem _ hy)

theorem insertWith_exists
    (h : ∀ b ∈ t.entries, ∃ d, turn b = .ok d) : ∃ t', insertWith turn a t = .ok t' := by
  induction t with
  | nil => exact ⟨_, rfl⟩
  | node b left right bh ihl ihr =>
    obtain ⟨left', hleft⟩ := ihl fun x hx => h x (by simp [hx])
    obtain ⟨right', hright⟩ := ihr fun x hx => h x (by simp [hx])
    obtain ⟨d, hd⟩ := h b (by simp)
    rw [insertWith, hd]
    cases d with
    | true => exact ⟨balance b left' right, by simp [hleft]⟩
    | false => exact ⟨balance b left right', by simp [hright]⟩

/-- The way down meets a refusal if there is one: what is refused lies next to
the place of the new entry. -/
theorem insertWith_accepted (ht : t.entries.Pairwise r)
    (hafter : ∀ b ∈ t.entries, ∀ c ∈ t.entries, r b c → turn b = .ok true → ∃ d, turn c = .ok d)
    (hbefore : ∀ b ∈ t.entries, ∀ c ∈ t.entries, r b c → turn c = .ok false → ∃ d, turn b = .ok d)
    (h : insertWith turn a t = .ok t') : ∀ b ∈ t.entries, ∃ d, turn b = .ok d := by
  induction t generalizing t' with
  | nil => simp
  | node b left right bh ihl ihr =>
    have hml : ∀ x ∈ left.entries, x ∈ (node b left right bh).entries := fun x hx => by simp [hx]
    have hmr : ∀ x ∈ right.entries, x ∈ (node b left right bh).entries := fun x hx => by simp [hx]
    have hmb : b ∈ (node b left right bh).entries := by simp
    rw [entries_node, List.pairwise_append, List.pairwise_cons] at ht
    obtain ⟨hleft, ⟨hb, hright⟩, hcross⟩ := ht
    rw [insertWith] at h
    split at h
    · cases h
    · next hd =>
        obtain ⟨left', hins, -⟩ := Fallible.bind_eq_ok.mp h
        have hl := ihl hleft (fun x hx y hy => hafter x (hml x hx) y (hml y hy))
          (fun x hx y hy => hbefore x (hml x hx) y (hml y hy)) hins
        intro x hx
        rcases List.mem_append.mp hx with hx | hx
        · exact hl x hx
        rcases List.mem_cons.mp hx with rfl | hx
        · exact ⟨true, hd⟩
        · exact hafter b hmb x (hmr x hx) (hb x hx) hd
    · next hd =>
        obtain ⟨right', hins, -⟩ := Fallible.bind_eq_ok.mp h
        have hr := ihr hright (fun x hx y hy => hafter x (hmr x hx) y (hmr y hy))
          (fun x hx y hy => hbefore x (hmr x hx) y (hmr y hy)) hins
        intro x hx
        rcases List.mem_append.mp hx with hx | hx
        · exact hbefore x (hml x hx) b hmb (hcross x hx b List.mem_cons_self) hd
        rcases List.mem_cons.mp hx with rfl | hx
        · exact ⟨false, hd⟩
        · exact hr x hx

/-! ## Removal -/

theorem eraseWith_balanced (ht : t.Balanced) (h : eraseWith compare missing a t = .ok t') :
    t'.Balanced ∧ t'.height ≤ t.height ∧ t.height ≤ t'.height + 1 := by
  induction t generalizing a t' with
  | nil => cases h
  | node b left right bh ihl ihr =>
    obtain ⟨hl, hr, hbh, hle, hge⟩ := ht
    rw [eraseWith.eq_def] at h
    simp only at h
    rw [height_node]
    split at h
    · obtain ⟨left', hleft, h⟩ := Fallible.bind_eq_ok.mp h
      cases h
      obtain ⟨hl', hlo, hhi⟩ := ihl hl hleft
      obtain ⟨hb, hblo, hbhi, hbeq⟩ := hl'.balance (a := b) hr (by omega) (by omega)
      exact ⟨hb, by omega, by omega⟩
    · split at h
      · obtain ⟨right', hright, h⟩ := Fallible.bind_eq_ok.mp h
        cases h
        obtain ⟨hr', hlo, hhi⟩ := ihr hr hright
        obtain ⟨hb, hblo, hbhi, hbeq⟩ := hl.balance (a := b) hr' (by omega) (by omega)
        exact ⟨hb, by omega, by omega⟩
      · split at h
        · cases h
          rw [height_nil] at hbh hge
          exact ⟨hr, by omega, by omega⟩
        · cases h
          rw [height_nil] at hbh hle
          exact ⟨hl, by omega, by omega⟩
        · next c cl cr ch _ =>
            obtain ⟨right', hright, h⟩ := Fallible.bind_eq_ok.mp h
            cases h
            obtain ⟨hr', hlo, hhi⟩ := ihr hr hright
            obtain ⟨hb, hblo, hbhi, hbeq⟩ := hl.balance (a := first c cl) hr' (by omega) (by omega)
            exact ⟨hb, by omega, by omega⟩

/-- One entry the comparison calls equal is gone, and the others are left
in their order. -/
theorem eraseWith_entries (ht : t.entries.Pairwise fun x y => compare x y < 0)
    (h : eraseWith compare missing a t = .ok t') :
    ∃ before b after, t.entries = before ++ b :: after ∧ t'.entries = before ++ after ∧
      compare a b = 0 := by
  induction t generalizing a t' with
  | nil => cases h
  | node b left right bh ihl ihr =>
    rw [entries_node, List.pairwise_append, List.pairwise_cons] at ht
    obtain ⟨hleft, ⟨hb, hright⟩, -⟩ := ht
    rw [eraseWith.eq_def] at h
    simp only at h
    split at h
    · obtain ⟨left', hdel, h⟩ := Fallible.bind_eq_ok.mp h
      cases h
      obtain ⟨before, x, after, hx, hx', hcmp⟩ := ihl hleft hdel
      refine ⟨before, x, after ++ b :: right.entries, ?_, ?_, hcmp⟩
      · rw [entries_node, hx]
        simp
      · rw [entries_balance, hx']
        simp
    · split at h
      · obtain ⟨right', hdel, h⟩ := Fallible.bind_eq_ok.mp h
        cases h
        obtain ⟨before, x, after, hx, hx', hcmp⟩ := ihr hright hdel
        refine ⟨left.entries ++ b :: before, x, after, ?_, ?_, hcmp⟩
        · rw [entries_node, hx]
          simp
        · rw [entries_balance, hx']
          simp
      · have hcmp : compare a b = 0 := by omega
        split at h
        · cases h
          exact ⟨[], b, _, rfl, rfl, hcmp⟩
        · cases h
          exact ⟨left.entries, b, [], rfl, by simp, hcmp⟩
        · next c cl cr ch _ =>
            obtain ⟨right', hdel, h⟩ := Fallible.bind_eq_ok.mp h
            cases h
            obtain ⟨before, x, after, hx, hx', hx0⟩ := ihr hright hdel
            obtain ⟨rest, hfirst⟩ := entries_eq_first_cons c cl cr ch
            -- The entry that was removed is the first one: every later one is larger.
            have hbefore : before = [] := by
              cases before with
              | nil => rfl
              | cons y before =>
                rw [hfirst] at hx hright
                obtain ⟨-, hrest⟩ := List.cons.inj hx
                have hlt := (List.pairwise_cons.mp hright).1 x (by rw [hrest]; simp)
                omega
            subst hbefore
            rw [hfirst] at hx
            obtain ⟨hxfirst, hrest⟩ := List.cons.inj hx
            refine ⟨left.entries, b, first c cl :: after, ?_, ?_, hcmp⟩
            · rw [entries_node, hfirst, hrest]
            · rw [entries_balance, hx']
              rfl

theorem eraseWith_exists (hlaw : ThreeWay P compare) (ha : P a) (hP : ∀ x ∈ t.entries, P x)
    (ht : t.entries.Pairwise fun x y => compare x y < 0) (hb : b ∈ t.entries)
    (hab : compare a b = 0) : ∃ t', eraseWith compare missing a t = .ok t' := by
  induction t generalizing a b with
  | nil => cases hb
  | node c left right ch ihl ihr =>
    rw [entries_node, List.pairwise_append, List.pairwise_cons] at ht
    obtain ⟨hleft, ⟨hc, hright⟩, hcross⟩ := ht
    have hPl : ∀ x ∈ left.entries, P x := fun x hx => hP x (by simp [hx])
    have hPr : ∀ x ∈ right.entries, P x := fun x hx => hP x (by simp [hx])
    have hPc : P c := hP c (by simp)
    have hPb : P b := hP b hb
    have hba := hlaw.symm ha hPb hab
    have hswap := hlaw.swap ha hPc
    have hswap' := hlaw.swap hPc ha
    rw [eraseWith.eq_def]
    simp only
    split
    · next hlt =>
        -- the entry is on the left: the others are above
        have hmem : b ∈ left.entries := by
          rcases List.mem_append.mp hb with hb | hb
          · exact hb
          rcases List.mem_cons.mp hb with rfl | hb
          · omega
          · have := hlaw.lt_of_lt_of_le hPc hPb ha (hc b hb) (by omega)
            omega
        obtain ⟨left', hleft'⟩ := ihl ha hPl hleft hmem hab
        exact ⟨balance c left' right, by simp [hleft']⟩
    · split
      · next hge hgt =>
          have hmem : b ∈ right.entries := by
            rcases List.mem_append.mp hb with hb | hb
            · have := hlaw.lt_of_le_of_lt ha hPb hPc (by omega)
                (hcross b hb c List.mem_cons_self)
              omega
            rcases List.mem_cons.mp hb with rfl | hb
            · omega
            · exact hb
          obtain ⟨right', hright'⟩ := ihr ha hPr hright hmem hab
          exact ⟨balance c left right', by simp [hright']⟩
      · split
        · exact ⟨_, rfl⟩
        · exact ⟨_, rfl⟩
        · next d dl dr dh _ =>
            obtain ⟨rest, hfirst⟩ := entries_eq_first_cons d dl dr dh
            have hmem : first d dl ∈ (node d dl dr dh).entries := by simp [hfirst]
            obtain ⟨right', hright'⟩ := ihr (hPr _ hmem) hPr hright hmem
              (hlaw.refl (hPr _ hmem))
            exact ⟨balance (first d dl) left right', by simp [hright']⟩

/-! ## Ranges -/

/-- The entries that are neither below nor above a range; a subtree that
cannot hold any is not entered. -/
def between (below above : α → Bool) : Avl α → List α
  | nil => []
  | node a left right _ =>
    (if below a then [] else between below above left) ++
      (if below a || above a then [] else [a]) ++
        (if above a then [] else between below above right)

/-- The walk misses nothing when what lies before an entry below the range
is below it too, and likewise above. -/
theorem between_eq_filter (ht : t.entries.Pairwise r)
    (hbelow : ∀ a ∈ t.entries, ∀ b ∈ t.entries, r a b → below b = true → below a = true)
    (habove : ∀ a ∈ t.entries, ∀ b ∈ t.entries, r a b → above a = true → above b = true) :
    t.between below above = t.entries.filter fun a => !(below a || above a) := by
  induction t with
  | nil => rfl
  | node a left right h ihl ihr =>
    rw [entries_node, List.pairwise_append, List.pairwise_cons] at ht
    obtain ⟨hleft, ⟨ha, hright⟩, hcross⟩ := ht
    have hml : ∀ x ∈ left.entries, x ∈ (node a left right h).entries := fun x hx => by simp [hx]
    have hmr : ∀ x ∈ right.entries, x ∈ (node a left right h).entries := fun x hx => by simp [hx]
    have hma : a ∈ (node a left right h).entries := by simp
    have ihl := ihl hleft (fun x hx y hy => hbelow x (hml x hx) y (hml y hy))
      (fun x hx y hy => habove x (hml x hx) y (hml y hy))
    have ihr := ihr hright (fun x hx y hy => hbelow x (hmr x hx) y (hmr y hy))
      (fun x hx y hy => habove x (hmr x hx) y (hmr y hy))
    have hskipl : below a = true → left.entries.filter (fun x => !(below x || above x)) = [] := by
      intro hb
      refine List.filter_eq_nil_iff.mpr fun x hx => ?_
      simp [hbelow x (hml x hx) a hma (hcross x hx a List.mem_cons_self) hb]
    have hskipr : above a = true → right.entries.filter (fun x => !(below x || above x)) = [] := by
      intro hb
      refine List.filter_eq_nil_iff.mpr fun x hx => ?_
      simp [habove a hma x (hmr x hx) (ha x hx) hb]
    rw [between, entries_node, List.filter_append, List.filter_cons, ihl, ihr]
    cases hb : below a <;> cases hc : above a <;> simp_all

end Avl
