import Mathlib.Data.List.Forall2

/-!
# Copies of a value

A program holds several copies of one value, makes more of them, and changes
each by operations that may fail. `step` says what that means when a copy is a
value of its own: an operation replaces one copy or, if it fails, none.

Two such programs run in step when every operation of one is matched by the
other: `Simulates` is about one copy and one operation, `Simulates.run` about
all copies after any number of commands. What is allowed to be asked is said
over the second program, the reference.

A program whose copies share what they are made of has a state for all of
them, and shows each copy as a value. `Does` and `Clones` are what an
operation and a new copy have to do to what is shown; then the program is one
whose copies are values (`run_views`).
-/

namespace Copies

variable {C A S Op ε δ : Type*} {copies l : List C} {m refs : List A}

/-- Copy the copy at `i`, or operate on it. -/
inductive Command (Op : Type*) where
  | copy (i : Nat)
  | apply (i : Nat) (op : Op)

variable {command : Command Op}

def Command.target : Command Op → Nat
  | .copy i => i
  | .apply i _ => i

/-- One command: whether it succeeded, and the copies after it. A new copy comes last. -/
def step (act : C → Op → Except ε C) (copies : List C) : Command Op → Bool × List C
  | .copy i => (true, copies ++ copies[i]?.toList)
  | .apply i op =>
    match copies[i]? with
    | none => (true, copies)
    | some c =>
      match act c op with
      | .ok c' => (true, copies.set i c')
      | .error _ => (false, copies)

def runBy (step : S → Command Op → Bool × S) (s : S) : List (Command Op) → List Bool × S
  | [] => ([], s)
  | command :: rest =>
    let (done, s) := step s command
    let (outcomes, s) := runBy step s rest
    (done :: outcomes, s)

def run (act : C → Op → Except ε C) (copies : List C) (commands : List (Command Op)) :
    List Bool × List C :=
  runBy (step act) copies commands

/-- Each operation is one the copy it is for permits at that time. -/
def Allowed (act : C → Op → Except ε C) (permits : C → Op → Prop) (copies : List C) :
    List (Command Op) → Prop
  | [] => True
  | command :: rest =>
    (∀ i op, command = .apply i op → ∀ c ∈ copies[i]?, permits c op) ∧
      Allowed act permits (step act copies command).2 rest

/-! ## What a command leaves alone -/

theorem step_failed
    (h : (step act copies command).1 = false) : (step act copies command).2 = copies := by
  cases command with
  | copy i => cases h
  | apply i op =>
    rw [step] at h ⊢
    cases hc : copies[i]? with
    | none => rfl
    | some c =>
      simp only [hc] at h ⊢
      cases hact : act c op with
      | ok c' => simp [hact] at h
      | error e => rfl

theorem step_other {j : Nat} (hj : j < copies.length) (hne : j ≠ command.target) :
    (step act copies command).2[j]? = copies[j]? := by
  cases command with
  | copy i => exact List.getElem?_append_left hj
  | apply i op =>
    rw [step]
    cases copies[i]? with
    | none => rfl
    | some c =>
      dsimp only
      cases act c op with
      | ok c' => exact List.getElem?_set_ne (Ne.symm hne)
      | error e => rfl

/-! ## Simulation -/

/-- Related copies stay related under an operation that is permitted, or refuse it both. -/
structure Simulates (related : C → A → Prop) (permits : A → Op → Prop) (act : C → Op → Except ε C)
    (reference : A → Op → Except δ A) : Prop where
  succeeds : ∀ {c a op a'}, related c a → permits a op → reference a op = .ok a' →
    ∃ c', act c op = .ok c' ∧ related c' a'
  fails : ∀ {c a op e}, related c a → permits a op → reference a op = .error e →
    ∃ e', act c op = .error e'

variable {related : C → A → Prop} {permits : A → Op → Prop} {act : C → Op → Except ε C}
  {reference : A → Op → Except δ A}

theorem forall₂_get? {r : C → A → Prop} (h : List.Forall₂ r l m) (i : Nat) :
    (l[i]? = none ∧ m[i]? = none) ∨ ∃ c a, l[i]? = some c ∧ m[i]? = some a ∧ r c a := by
  induction h generalizing i with
  | nil => exact .inl ⟨rfl, rfl⟩
  | @cons c a _ _ hr _ ih =>
    cases i with
    | zero => exact .inr ⟨c, a, rfl, rfl, hr⟩
    | succ i => exact ih i

theorem forall₂_set {r : C → A → Prop} (h : List.Forall₂ r l m) (i : Nat)
    {c : C} {a : A} (hca : r c a) : List.Forall₂ r (l.set i c) (m.set i a) := by
  induction h generalizing i with
  | nil => exact .nil
  | cons hr h ih =>
    cases i with
    | zero => exact .cons hca h
    | succ i => exact .cons hr (ih i)

theorem Simulates.step (h : Simulates related permits act reference)
    (hrel : List.Forall₂ related copies refs)
    (hpermits : ∀ i op, command = .apply i op → ∀ a ∈ refs[i]?, permits a op) :
    (Copies.step act copies command).1 = (Copies.step reference refs command).1 ∧
      List.Forall₂ related (Copies.step act copies command).2
        (Copies.step reference refs command).2 := by
  cases command with
  | copy i =>
    refine ⟨rfl, List.rel_append hrel ?_⟩
    rcases forall₂_get? hrel i with ⟨hc, ha⟩ | ⟨c, a, hc, ha, hca⟩
    · rw [hc, ha]
      exact .nil
    · rw [hc, ha]
      exact .cons hca .nil
  | apply i op =>
    rw [Copies.step, Copies.step]
    rcases forall₂_get? hrel i with ⟨hc, ha⟩ | ⟨c, a, hc, ha, hca⟩
    · rw [hc, ha]
      exact ⟨rfl, hrel⟩
    have hop := hpermits i op rfl a ha
    rw [hc, ha]
    dsimp only
    cases hact : reference a op with
    | ok a' =>
      obtain ⟨c', hc', hca'⟩ := h.succeeds hca hop hact
      rw [hc']
      exact ⟨rfl, forall₂_set hrel i hca'⟩
    | error e =>
      obtain ⟨e', he'⟩ := h.fails hca hop hact
      rw [he']
      exact ⟨rfl, hrel⟩

theorem Simulates.run (h : Simulates related permits act reference) {commands : List (Command Op)}
    (hrel : List.Forall₂ related copies refs) (hallowed : Allowed reference permits refs commands) :
    (Copies.run act copies commands).1 = (Copies.run reference refs commands).1 ∧
      List.Forall₂ related (Copies.run act copies commands).2
        (Copies.run reference refs commands).2 := by
  induction commands generalizing copies refs with
  | nil => exact ⟨rfl, hrel⟩
  | cons command rest ih =>
    obtain ⟨hdone, hstep⟩ := h.step hrel hallowed.1
    obtain ⟨houtcomes, hfinal⟩ := ih hstep hallowed.2
    exact ⟨congrArg₂ List.cons hdone houtcomes, hfinal⟩

/-! ## Copies that share -/

/-- One command of a program with a state for all copies. -/
def stepShared (count : S → Nat) (clone : S → Nat → S)
    (operate : S → Nat → Op → Option ε × S) (s : S) :
    Command Op → Bool × S
  | .copy i => (true, if i < count s then clone s i else s)
  | .apply i op => if i < count s then ((operate s i op).1.isNone, (operate s i op).2)
    else (true, s)

/-- A state, how many copies it has, and what it shows of each. -/
structure System (S C : Type*) where
  valid : S → Prop
  count : S → Nat
  view : S → Nat → C

namespace System

variable {system : System S C} {s s' : S} {i : Nat} {r : Except ε C} {out : Option δ × S}

def views (system : System S C) (s : S) : List C :=
  (List.range (system.count s)).map (system.view s)

/-- An operation on copy `i` came out as on the value that is shown, and shows there only. -/
structure Does (system : System S C) (s : S) (i : Nat) (r : Except ε C) (out : Option δ × S) :
    Prop where
  valid : system.valid out.2
  count : system.count out.2 = system.count s
  outcome : out.1.isNone = r.isOk
  shows : ∀ j, system.view out.2 j = if j = i then r.toOption.getD (system.view s i)
    else system.view s j

/-- A new copy shows what the one it was made of does. -/
structure Clones (system : System S C) (s : S) (i : Nat) (s' : S) : Prop where
  valid : system.valid s'
  count : system.count s' = system.count s + 1
  shows : ∀ j, system.view s' j = if j = system.count s then system.view s i else system.view s j

theorem getElem?_views (system : System S C) (s : S) (i : Nat) :
    (system.views s)[i]? = if i < system.count s then some (system.view s i) else none := by
  rw [views, List.getElem?_map]
  split
  · next hi =>
      rw [List.getElem?_range hi]
      rfl
  · next hi =>
      rw [List.getElem?_eq_none (by simpa using hi)]
      rfl

theorem Does.views_eq (h : system.Does s i r out) :
    system.views out.2 = (r.toOption.map ((system.views s).set i)).getD (system.views s) := by
  apply List.ext_getElem?
  intro j
  rw [getElem?_views, h.count, h.shows]
  cases r with
  | error e =>
    show _ = (system.views s)[j]?
    rw [getElem?_views]
    by_cases hj : j = i
    · subst hj
      rw [if_pos rfl]
      rfl
    · rw [if_neg hj]
  | ok c =>
    show _ = ((system.views s).set i c)[j]?
    rw [List.getElem?_set, getElem?_views]
    have hlen : (system.views s).length = system.count s := by simp [views]
    by_cases hj : j = i
    · subst hj
      rw [if_pos rfl, if_pos rfl, hlen]
      rfl
    · rw [if_neg hj, if_neg (Ne.symm hj)]

theorem Clones.views_eq (h : system.Clones s i s') :
    system.views s' = system.views s ++ [system.view s i] := by
  rw [views, h.count, List.range_succ, List.map_append, views]
  congr 1
  · refine List.map_congr_left fun j hj => ?_
    rw [h.shows, if_neg (Nat.ne_of_lt (List.mem_range.mp hj))]
  · simp [h.shows]

section Run

variable (system) {clone : S → Nat → S} {operate : S → Nat → Op → Option δ × S}
  (hclone : ∀ s i, system.valid s → i < system.count s → system.Clones s i (clone s i))
  (hoperate : ∀ s i op, system.valid s → i < system.count s →
    system.Does s i (act (system.view s i) op) (operate s i op))
include hclone hoperate

theorem step_views (hs : system.valid s) (command : Command Op) :
    system.valid (stepShared system.count clone operate s command).2 ∧
      (stepShared system.count clone operate s command).1 =
        (Copies.step act (system.views s) command).1 ∧
      system.views (stepShared system.count clone operate s command).2 =
        (Copies.step act (system.views s) command).2 := by
  cases command with
  | copy i =>
    rw [stepShared, Copies.step, getElem?_views]
    by_cases hi : i < system.count s
    · rw [if_pos hi, if_pos hi]
      exact ⟨(hclone s i hs hi).valid, rfl, (hclone s i hs hi).views_eq⟩
    · rw [if_neg hi, if_neg hi]
      exact ⟨hs, rfl, (List.append_nil _).symm⟩
  | apply i op =>
    rw [stepShared, Copies.step, getElem?_views]
    by_cases hi : i < system.count s
    swap
    · rw [if_neg hi, if_neg hi]
      exact ⟨hs, rfl, rfl⟩
    rw [if_pos hi, if_pos hi]
    have hdoes := hoperate s i op hs hi
    refine ⟨hdoes.valid, hdoes.outcome.trans ?_, hdoes.views_eq.trans ?_⟩
    · dsimp only
      cases act (system.view s i) op <;> rfl
    · dsimp only
      cases act (system.view s i) op <;> rfl

/-- The copies that are shown are values of their own, after any commands. -/
theorem run_views (hs : system.valid s) (commands : List (Command Op)) :
    (runBy (stepShared system.count clone operate) s commands).1 =
        (Copies.run act (system.views s) commands).1 ∧
      system.views (runBy (stepShared system.count clone operate) s commands).2 =
        (Copies.run act (system.views s) commands).2 := by
  induction commands generalizing s with
  | nil => exact ⟨rfl, rfl⟩
  | cons command rest ih =>
    obtain ⟨hvalid, hdone, hviews⟩ := step_views system hclone hoperate hs command
    obtain ⟨houtcomes, hfinal⟩ := ih hvalid
    rw [hviews] at houtcomes hfinal
    exact ⟨congrArg₂ List.cons hdone houtcomes, hfinal⟩

end Run

end System

end Copies
