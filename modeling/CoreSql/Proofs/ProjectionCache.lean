import CoreSql.Lib.Traced
import CoreSql.Query.ProjectionCache
import CoreSql.Query.Scan
import CoreSql.Data.Scalars

/-!
# What sharing in the projection can show

A slot holds a value that one call left for others. That nobody can tell
comes down to one property of the calls that evaluation from scratch comes to
on a row: those that `same` takes for one have the same value there. To find
these calls, evaluation is run once more in a monad that notes them
(`reached`). `Holds` says that every slot has the value of such a call;
evaluation with slots then agrees with evaluation from scratch, expression by
expression.

The property is needed as well as sufficient. Two calls that are the same are
a projection of two expressions, and the second of them is never evaluated.
To see that the first one is evaluated as it would be from scratch, the calls
in its operands must already be known to be shared rightly; the proof is by
induction on the size of the calls.

To `same`, calls are one if they differ at most in the signs of zeros among
their literals (`same_iff`), so that the property fails for a function that
tells 0.0 from -0.0.
-/

namespace CoreSql

open Fallible

/-! ## The same calls -/

theorem ieeeEqual_comm (a b : UInt64) : ieeeEqual a b = ieeeEqual b a := by
  rw [ieeeEqual, ieeeEqual, Bool.and_comm (!isNaN a), Bool.beq_comm (a := a),
    Bool.and_comm (a &&& _ == 0)]

theorem Value.variantEqual_comm (a b : Value) : a.variantEqual b = b.variantEqual a := by
  cases a <;> cases b <;> first | exact ieeeEqual_comm _ _ | exact Bool.beq_comm

/-- A value with a zero made positive. -/
def Value.unsigned : Value → Value
  | .real bits => if bits &&& 0x7FFFFFFFFFFFFFFF == 0 then .real 0 else .real bits
  | value => value

def Value.isNaNReal : Value → Bool
  | .real bits => isNaN bits
  | _ => false

theorem isNaN_of_zero {a : UInt64} (h : a &&& 0x7FFFFFFFFFFFFFFF = 0) : isNaN a = false := by
  rw [isNaN, h]
  decide

theorem ieeeEqual_iff (x y : UInt64) : ieeeEqual x y = true ↔
    (Value.real x).unsigned = (Value.real y).unsigned ∧ isNaN x = false := by
  simp only [ieeeEqual, Value.unsigned, Bool.and_eq_true, Bool.or_eq_true, Bool.not_eq_true',
    beq_iff_eq]
  by_cases hx : x &&& 0x7FFFFFFFFFFFFFFF = 0 <;> by_cases hy : y &&& 0x7FFFFFFFFFFFFFFF = 0
  · simp [hx, hy, isNaN_of_zero hx, isNaN_of_zero hy]
  · rw [if_pos hx, if_neg hy, Value.real.injEq]
    constructor
    · rintro ⟨-, rfl | ⟨-, h⟩⟩
      · exact absurd hx hy
      · exact absurd h hy
    · rintro ⟨rfl, -⟩
      exact absurd rfl hy
  · rw [if_neg hx, if_pos hy, Value.real.injEq]
    constructor
    · rintro ⟨-, rfl | ⟨h, -⟩⟩
      · exact absurd hy hx
      · exact absurd h hx
    · rintro ⟨rfl, -⟩
      exact absurd rfl hx
  · rw [if_neg hx, if_neg hy, Value.real.injEq]
    constructor
    · rintro ⟨⟨hnan, -⟩, rfl | ⟨h, -⟩⟩
      · exact ⟨rfl, hnan⟩
      · exact absurd h hx
    · rintro ⟨rfl, hnan⟩
      exact ⟨⟨hnan, hnan⟩, .inl rfl⟩

theorem Value.variantEqual_iff (a b : Value) :
    a.variantEqual b = true ↔ a.unsigned = b.unsigned ∧ a.isNaNReal = false := by
  cases a with
  | real x =>
    cases b with
    | real y => exact ieeeEqual_iff x y
    | _ =>
      simp only [variantEqual, unsigned]
      split <;> simp
  | _ =>
    cases b with
    | real y =>
      simp only [variantEqual, unsigned]
      split <;> simp
    | _ => simp [variantEqual, unsigned, isNaNReal]

namespace ProjectionExpr

mutual

def size : ProjectionExpr → Nat
  | call _ _ _ arguments | conditional _ _ arguments | coalesce _ arguments
  | subquery _ _ arguments => sizes arguments + 1
  | _ => 1

def sizes : List ProjectionExpr → Nat
  | [] => 0
  | e :: rest => e.size + sizes rest

end

mutual

/-- An expression with every literal zero positive, and without places. -/
def unsigned : ProjectionExpr → ProjectionExpr
  | literal type value => literal type value.unsigned
  | call _ type function arguments => call none type function (unsignedAll arguments)
  | e => e

def unsignedAll : List ProjectionExpr → List ProjectionExpr
  | [] => []
  | e :: rest => e.unsigned :: unsignedAll rest

end

mutual

def literals : ProjectionExpr → List Value
  | literal _ value => [value]
  | call _ _ _ arguments => literalsOf arguments
  | _ => []

def literalsOf : List ProjectionExpr → List Value
  | [] => []
  | e :: rest => e.literals ++ literalsOf rest

end

/-- The expressions differ at most in the signs of literal zeros, and no literal is a NaN. -/
def Alike (e e' : ProjectionExpr) : Prop :=
  e.unsigned = e'.unsigned ∧ ∀ value ∈ e.literals, value.isNaNReal = false

mutual

theorem same_iff : ∀ {e e' : ProjectionExpr}, e.scalar = true → e'.scalar = true →
    (e.same e' = true ↔ e.Alike e')
  | column type index, e', _, he' => by
      cases e' <;> simp_all [same, Alike, unsigned, literals, scalar]
  | literal type value, e', _, he' => by
      cases e' <;>
        simp_all [same, Alike, unsigned, literals, scalar, Value.variantEqual_iff, and_assoc]
  | rowId, e', _, he' => by
      cases e' <;> simp_all [same, Alike, unsigned, literals, scalar]
  | call place type function arguments, e', he, he' => by
      cases e' with
      | call place' type' function' arguments' =>
        rw [scalar] at he he'
        simp only [same, Alike, unsigned, literals, Bool.and_eq_true, beq_iff_eq,
          allSame_iff he he', call.injEq, true_and, and_assoc]
      | _ => simp_all [same, Alike, unsigned, scalar]
  | conditional .., _, he, _ => by cases he
  | coalesce .., _, he, _ => by cases he
  | subquery .., _, he, _ => by cases he

theorem allSame_iff : ∀ {es es' : List ProjectionExpr}, allScalar es = true →
    allScalar es' = true → (allSame es es' = true ↔
      unsignedAll es = unsignedAll es' ∧ ∀ value ∈ literalsOf es, value.isNaNReal = false)
  | [], [], _, _ => by simp [allSame, literalsOf]
  | [], _ :: _, _, _ => by simp [allSame, unsignedAll]
  | _ :: _, [], _, _ => by simp [allSame, unsignedAll]
  | e :: rest, e' :: rest', h, h' => by
      rw [allScalar, Bool.and_eq_true] at h h'
      rw [allSame, Bool.and_eq_true, same_iff h.1 h'.1, allSame_iff h.2 h'.2, Alike, unsignedAll,
        unsignedAll, literalsOf, List.forall_mem_append, List.cons.injEq]
      tauto

end

mutual

theorem same_comm : ∀ e e' : ProjectionExpr, e.same e' = e'.same e
  | column .., e' => by
      cases e' <;> simp [same, Bool.beq_comm]
  | literal .., e' => by
      cases e' <;> simp [same, Bool.beq_comm, Value.variantEqual_comm]
  | rowId, e' => by cases e' <;> rfl
  | call _ _ _ arguments, e' => by
      cases e' <;> simp [same, Bool.beq_comm, allSame_comm arguments]
  | conditional .., e' => by cases e' <;> rfl
  | coalesce .., e' => by cases e' <;> rfl
  | subquery .., e' => by cases e' <;> rfl

theorem allSame_comm : ∀ es es' : List ProjectionExpr, allSame es es' = allSame es' es
  | [], [] => rfl
  | [], _ :: _ => rfl
  | _ :: _, [] => rfl
  | e :: rest, e' :: rest' => by rw [allSame, allSame, same_comm e e', allSame_comm rest rest']

end

mutual

theorem same_size : ∀ {e e' : ProjectionExpr}, e.same e' = true → e.size = e'.size
  | column .., e', h => by cases e' <;> first | rfl | cases h
  | literal .., e', h => by cases e' <;> first | rfl | cases h
  | rowId, e', h => by cases e' <;> first | rfl | cases h
  | call _ _ _ arguments, e', h => by
      cases e' with
      | call _ _ _ arguments' =>
        simp only [same, Bool.and_eq_true] at h
        rw [size, size, allSame_sizes h.2]
      | _ => cases h
  | conditional .., _, h => by cases h
  | coalesce .., _, h => by cases h
  | subquery .., _, h => by cases h

theorem allSame_sizes : ∀ {es es' : List ProjectionExpr}, allSame es es' = true →
    sizes es = sizes es'
  | [], [], _ => rfl
  | [], _ :: _, h => by cases h
  | _ :: _, [], h => by cases h
  | e :: rest, e' :: rest', h => by
      rw [allSame, Bool.and_eq_true] at h
      rw [sizes, sizes, same_size h.1, allSame_sizes h.2]

end

end ProjectionExpr

/-! ## What a visit adds -/

/-- The calls of the second that are not in the first. -/
def Sharing.Grows (P : ProjectionExpr → Prop) (s s' : Sharing) : Prop :=
  ∃ more, s'.seen = s.seen ++ more ∧ ∀ c ∈ more, P c

namespace Sharing

variable {P Q : ProjectionExpr → Prop} {s s' s'' : Sharing} {e first : ProjectionExpr} {k : Nat}

theorem Grows.refl (s : Sharing) : Grows P s s := ⟨[], by simp, by simp⟩

section

variable (h : Grows P s s')
include h

theorem Grows.trans (h' : Grows P s' s'') : Grows P s s'' := by
  obtain ⟨more, hseen, hmore⟩ := h
  obtain ⟨more', hseen', hmore'⟩ := h'
  refine ⟨more ++ more', by rw [hseen', hseen, List.append_assoc], fun c hc => ?_⟩
  exact (List.mem_append.mp hc).elim (hmore c) (hmore' c)

theorem Grows.mono (himp : ∀ c, P c → Q c) : Grows Q s s' := by
  obtain ⟨more, hseen, hmore⟩ := h
  exact ⟨more, hseen, fun c hc => himp c (hmore c hc)⟩

theorem Grows.get (hk : s.seen[k]? = some e) : s'.seen[k]? = some e := by
  obtain ⟨more, hseen, -⟩ := h
  obtain ⟨hlt, -⟩ := List.getElem?_eq_some_iff.mp hk
  rw [hseen, List.getElem?_append_left hlt, hk]

theorem Grows.all (hs : ∀ c ∈ s.seen, P c) : ∀ c ∈ s'.seen, P c := by
  obtain ⟨more, hseen, hmore⟩ := h
  intro c hc
  rw [hseen] at hc
  exact (List.mem_append.mp hc).elim (hs c) (hmore c)

end

theorem place_grows (s : Sharing) (he : P e) : Grows P s (s.place e).2 := by
  rw [place]
  split
  · split <;> exact .refl _
  · exact ⟨[e], rfl, by simpa using he⟩

theorem place_get (s : Sharing) (e : ProjectionExpr) :
    ∃ first, (s.place e).2.seen[(s.place e).1]? = some first ∧
      (first = e ∨ first ∈ s.seen ∧ e.same first = true) := by
  rw [place]
  split
  next k hk =>
      obtain ⟨hlt, hsame, -⟩ := List.findIdx?_eq_some_iff_getElem.mp hk
      refine ⟨s.seen[k], ?_, .inr ⟨List.getElem_mem hlt, hsame⟩⟩
      split <;> exact List.getElem?_eq_getElem hlt
  · exact ⟨e, by simp, .inl rfl⟩

theorem place_new (h : ∀ c ∈ s.seen, e.same c = false) :
    s.place e = (s.seen.length, { s with seen := s.seen ++ [e] }) := by
  have hnone : s.seen.findIdx? (fun previous => e.same previous) = none := by
    simpa [List.findIdx?_eq_none_iff] using h
  rw [place, hnone]

/-- A second call gets the place of the first one, and both have a slot. -/
theorem place_again (hfirst : s.seen[k]? = some first)
    (hsame : e.same first = true) (h : ∀ c ∈ s.seen.take k, e.same c = false) :
    (s.place e).1 = k ∧ k ∈ (s.place e).2.slots := by
  obtain ⟨hlt, rfl⟩ := List.getElem?_eq_some_iff.mp hfirst
  have hfound : s.seen.findIdx? (fun previous => e.same previous) = some k := by
    refine List.findIdx?_eq_some_iff_getElem.mpr ⟨hlt, hsame, fun j hj => ?_⟩
    have hmem : s.seen[j] ∈ s.seen.take k :=
      List.mem_take_iff_getElem.mpr ⟨j, by omega, rfl⟩
    simp [h _ hmem]
  rw [place, hfound]
  refine ⟨rfl, ?_⟩
  by_cases hk : k ∈ s.slots <;> simp [hk]

end Sharing

namespace ProjectionExpr

variable {place : Option Nat} {type : SqlType} {function : Bytes} {arguments : List ProjectionExpr}

theorem visit_shareable (h : (call place type function arguments).shareable = true) (s : Sharing) :
    (call place type function arguments).visit s =
      (call (some ((visitAll arguments s).2.place (call place type function arguments)).1) type
        function (visitAll arguments s).1,
        ((visitAll arguments s).2.place (call place type function arguments)).2) :=
  if_pos h

theorem visit_unshared (h : ¬(call place type function arguments).shareable = true) (s : Sharing) :
    (call place type function arguments).visit s =
      (call none type function (visitAll arguments s).1, (visitAll arguments s).2) :=
  if_neg h

end ProjectionExpr

section

variable {registry : Registry} {n n' : Nat} {c e first c' : ProjectionExpr}
  {known arguments placed projection : List ProjectionExpr} {v : RowView} {t s : Sharing}
  {a b value : Value}

/-- A call that takes part in sharing. -/
structure Registry.Candidate (registry : Registry) (c : ProjectionExpr) : Prop where
  shareable : c.shareable = true
  binds : registry.Binds c

/-- What is true of the calls that visiting expressions of some size adds. -/
structure Registry.Seen (registry : Registry) (n : Nat) (c : ProjectionExpr) : Prop
    extends registry.Candidate c where
  size : c.size ≤ n

theorem Registry.Seen.mono (h : n ≤ n') (hc : registry.Seen n c) : registry.Seen n' c :=
  ⟨hc.toCandidate, hc.size.trans h⟩

theorem Registry.binds_arguments {place : Option Nat} {type : SqlType} {function : Bytes}
    (h : registry.Binds (.call place type function arguments)) : registry.BindsAll arguments := by
  simp only [Registry.Binds] at h
  exact h.2.2.2

namespace ProjectionExpr

mutual

theorem visit_grows : ∀ (e : ProjectionExpr) (s : Sharing), registry.Binds e →
    Sharing.Grows (registry.Seen e.size) s (e.visit s).2
  | column .., s, _ => .refl s
  | literal .., s, _ => .refl s
  | rowId, s, _ => .refl s
  | call place type function arguments, s, h => by
      have harguments := (visitAll_grows arguments s (Registry.binds_arguments h)).mono
        fun c hc => hc.mono (Nat.le_succ _)
      by_cases hshareable : (call place type function arguments).shareable = true
      · rw [visit_shareable hshareable]
        exact harguments.trans (Sharing.place_grows _ ⟨⟨hshareable, h⟩, Nat.le_refl _⟩)
      · rw [visit_unshared hshareable]
        exact harguments
  | conditional _ _ arguments, s, h =>
    (visitAll_grows arguments s (by simpa only [Registry.Binds] using h)).mono
      fun c hc => hc.mono (Nat.le_succ _)
  | coalesce _ arguments, s, h =>
    (visitAll_grows arguments s (by simpa only [Registry.Binds] using h)).mono
      fun c hc => hc.mono (Nat.le_succ _)
  | subquery _ _ arguments, s, h =>
    (visitAll_grows arguments s (by simpa only [Registry.Binds] using h)).mono
      fun c hc => hc.mono (Nat.le_succ _)

theorem visitAll_grows : ∀ (es : List ProjectionExpr) (s : Sharing), registry.BindsAll es →
    Sharing.Grows (registry.Seen (sizes es)) s (visitAll es s).2
  | [], s, _ => .refl s
  | e :: rest, s, h => by
      simp only [Registry.BindsAll] at h
      refine .trans ((visit_grows e s h.1).mono fun c hc => hc.mono ?_)
        ((visitAll_grows rest _ h.2).mono fun c hc => hc.mono ?_)
      · rw [sizes]
        omega
      · rw [sizes]
        omega

end

mutual

theorem visit_type : ∀ (e : ProjectionExpr) (s : Sharing), (e.visit s).1.type = e.type
  | column .., _ => rfl
  | literal .., _ => rfl
  | rowId, _ => rfl
  | call place type function arguments, s => by
      by_cases h : (call place type function arguments).shareable = true
      · rw [visit_shareable h]
        rfl
      · rw [visit_unshared h]
        rfl
  | conditional .., _ => rfl
  | coalesce .., _ => rfl
  | subquery .., _ => rfl

theorem visitAll_types : ∀ (es : List ProjectionExpr) (s : Sharing),
    (visitAll es s).1.map type = es.map type
  | [], _ => rfl
  | e :: rest, s => by
      rw [visitAll, List.map_cons, List.map_cons, visit_type e s, visitAll_types rest]

end

end ProjectionExpr

/-! ## Evaluation in two monads -/

section

variable {m m' : Type → Type} [Monad m] [Monad m'] [MonadLiftT (Except Error) m]
  [MonadLiftT (Except Error) m'] (R : MonadRel Error m m')

theorem fallback_rel (type : SqlType) : ∀ {xs : List (m Value)} {ys : List (m' Value)},
    List.Forall₂ R.rel xs ys → R.rel (fallback type xs) (fallback type ys)
  | _, _, .nil => R.pure _
  | _, _, .cons hx .nil => hx
  | _, _, .cons _ (.cons _ hrest) => by
      have hrest' := fallback_rel type hrest
      exact hrest'

theorem searched_rel (type : SqlType) : ∀ {xs : List (m Value)} {ys : List (m' Value)},
    List.Forall₂ R.rel xs ys → R.rel (searched type xs) (searched type ys)
  | _, _, .nil => R.pure _
  | _, _, .cons hx .nil => hx
  | _, _, .cons hx (.cons hx' hrest) =>
    R.bind hx fun _ => R.ite hx' (searched_rel type hrest)

theorem matched_rel (type : SqlType) (equality : Bytes) (base : Value) :
    ∀ {xs : List (m Value)} {ys : List (m' Value)}, List.Forall₂ R.rel xs ys →
      R.rel (matched registry type equality base xs) (matched registry type equality base ys)
  | _, _, .nil => R.pure _
  | _, _, .cons hx .nil => hx
  | _, _, .cons hx (.cons hx' hrest) => by
      have hrest' := matched_rel type equality base hrest
      refine R.bind hx fun value => R.ite hrest' ?_
      exact R.bind (R.lift _) fun taken => R.ite hx' hrest'

section

variable {xs : List (m Value)} {ys : List (m' Value)} (h : List.Forall₂ R.rel xs ys)
include h

theorem inOrder_rel : R.rel (inOrder xs) (inOrder ys) := by
  induction h with
  | nil => exact R.pure _
  | cons hx _ ih => exact R.bind hx fun value => R.bind ih fun values => R.pure _

theorem firstPresent_rel (type : SqlType) :
    R.rel (firstPresent type xs) (firstPresent type ys) := by
  induction h with
  | nil => exact R.pure _
  | cons hx _ ih => exact R.bind hx fun value => R.ite ih (R.pure _)

theorem conditionally_rel (type : SqlType) (equality : Option Bytes) :
    R.rel (conditionally registry type equality xs) (conditionally registry type equality ys) := by
  cases equality with
  | none => exact searched_rel R type h
  | some equality =>
    cases h with
    | nil => exact R.pure _
    | cons hx hrest =>
      exact R.bind hx fun value =>
        R.ite (fallback_rel R type hrest) (matched_rel R type equality value hrest)

end

/-- What a call does when its value is not at hand. -/
def callBody (registry : Registry) (reuse : ProjectionExpr → m Value → m Value) (v : RowView)
    (type : SqlType) (function : Bytes) (arguments : List ProjectionExpr) : m Value := do
  let values ← inOrder (evaluateEach registry reuse v arguments)
  (registry.call function (arguments.map ProjectionExpr.type) type values : Except Error Value)

theorem evaluateWith_call (reuse : ProjectionExpr → m Value → m Value) (place : Option Nat)
    (type : SqlType) (function : Bytes) :
    (ProjectionExpr.call place type function arguments).evaluateWith registry reuse v =
      reuse (.call place type function arguments)
        (callBody registry reuse v type function arguments) := by
  rw [ProjectionExpr.evaluateWith]
  rfl

theorem callBody_rel {reuse : ProjectionExpr → m Value → m Value}
    {reuse' : ProjectionExpr → m' Value → m' Value} (type : SqlType) (function : Bytes)
    (htypes : placed.map ProjectionExpr.type = arguments.map ProjectionExpr.type)
    (h : List.Forall₂ R.rel (evaluateEach registry reuse v placed)
      (evaluateEach registry reuse' v arguments)) :
    R.rel (callBody registry reuse v type function placed)
      (callBody registry reuse' v type function arguments) := by
  rw [callBody, callBody, htypes]
  exact R.bind (inOrder_rel R h) fun values => R.lift _

/-- What is done about bound calls keeps them related. -/
def ReuseRel (registry : Registry) (v : RowView) (reuse : ProjectionExpr → m Value → m Value)
    (reuse' : ProjectionExpr → m' Value → m' Value) : Prop :=
  ∀ place type function arguments, registry.Binds (.call place type function arguments) →
    R.rel (callBody registry reuse v type function arguments)
      (callBody registry reuse' v type function arguments) →
    R.rel (reuse (.call place type function arguments)
        (callBody registry reuse v type function arguments))
      (reuse' (.call place type function arguments)
        (callBody registry reuse' v type function arguments))

section

variable {reuse : ProjectionExpr → m Value → m Value} {reuse' : ProjectionExpr →
  m' Value → m' Value}

mutual

theorem evaluateWith_rel (hreuse : ReuseRel R registry v reuse reuse') :
    ∀ e : ProjectionExpr, registry.Binds e →
      R.rel (e.evaluateWith registry reuse v) (e.evaluateWith registry reuse' v)
  | .column .., _ => by
      rw [ProjectionExpr.evaluateWith, ProjectionExpr.evaluateWith]
      exact R.pure _
  | .literal .., _ => by
      rw [ProjectionExpr.evaluateWith, ProjectionExpr.evaluateWith]
      exact R.pure _
  | .rowId, _ => by
      rw [ProjectionExpr.evaluateWith, ProjectionExpr.evaluateWith]
      cases v.id with
      | some id => exact R.pure _
      | none => exact R.lift _
  | .call place type function arguments, h => by
      rw [evaluateWith_call, evaluateWith_call]
      exact hreuse place type function arguments h (callBody_rel R type function rfl
        (evaluateEach_rel hreuse arguments (Registry.binds_arguments h)))
  | .conditional type equality arguments, h => by
      rw [ProjectionExpr.evaluateWith, ProjectionExpr.evaluateWith]
      exact conditionally_rel R
        (evaluateEach_rel hreuse arguments (by simpa only [Registry.Binds] using h))
        type equality
  | .coalesce type arguments, h => by
      rw [ProjectionExpr.evaluateWith, ProjectionExpr.evaluateWith]
      exact firstPresent_rel R
        (evaluateEach_rel hreuse arguments (by simpa only [Registry.Binds] using h))
        type
  | .subquery _ run arguments, h => by
      rw [ProjectionExpr.evaluateWith, ProjectionExpr.evaluateWith]
      exact R.bind (inOrder_rel R (evaluateEach_rel hreuse arguments
        (by simpa only [Registry.Binds] using h))) fun values => R.lift _

theorem evaluateEach_rel (hreuse : ReuseRel R registry v reuse reuse') :
    ∀ es : List ProjectionExpr, registry.BindsAll es →
      List.Forall₂ R.rel (evaluateEach registry reuse v es) (evaluateEach registry reuse' v es)
  | [], _ => .nil
  | e :: rest, h => by
      simp only [Registry.BindsAll] at h
      exact .cons (evaluateWith_rel hreuse e h.1) (evaluateEach_rel hreuse rest h.2)

end

end

end

/-! ## The calls a row comes to -/

/-- Note a call that takes part in sharing. -/
def noting (c : ProjectionExpr) (x : Traced Error ProjectionExpr Value) :
    Traced Error ProjectionExpr Value :=
  if c.shareable then x.note c else x

/-- The calls of a projection that evaluation from scratch comes to on a row. -/
def reached (registry : Registry) (projection : List ProjectionExpr) (v : RowView) :
    List ProjectionExpr :=
  (inOrder (evaluateEach registry noting v projection)).trace

def ProjectionExpr.reached (registry : Registry) (v : RowView) (e : ProjectionExpr) :
    List ProjectionExpr :=
  (e.evaluateWith registry noting v).trace

theorem noting_outcome (c : ProjectionExpr) (x : Traced Error ProjectionExpr Value) :
    (noting c x).outcome = x.outcome := by
  rw [noting]
  split <;> rfl

theorem noting_shareable (h : c.shareable = true) (x : Traced Error ProjectionExpr Value) :
    (noting c x).trace = c :: x.trace := by
  rw [noting, if_pos h]
  rfl

theorem noting_outcomes : ReuseRel (MonadRel.outcomes Error ProjectionExpr) registry v noting
    fun _ x => x :=
  fun _ _ _ _ _ hbody => (noting_outcome _ _).trans hbody

theorem evaluate_eq_outcome (h : registry.Binds e) :
    (e.evaluateWith registry noting v).outcome = e.evaluate registry v :=
  evaluateWith_rel (MonadRel.outcomes Error ProjectionExpr) noting_outcomes e h

theorem callBody_outcome {place : Option Nat} {type : SqlType} {function : Bytes}
    (h : registry.Binds (.call place type function arguments)) :
    (callBody registry noting v type function arguments).outcome =
      (ProjectionExpr.call place type function arguments).evaluate registry v := by
  rw [← evaluate_eq_outcome h, evaluateWith_call, noting_outcome]

theorem freshRow_eq_outcome (h : registry.BindsAll projection) :
    (inOrder (evaluateEach registry noting v projection)).outcome =
      freshRow registry projection v :=
  inOrder_rel (MonadRel.outcomes Error ProjectionExpr)
    (evaluateEach_rel (MonadRel.outcomes Error ProjectionExpr) noting_outcomes projection h)

/-- A call that is noted takes part in sharing, and with it the calls are noted that it comes to
itself. -/
theorem noting_closed : ReuseRel (MonadRel.closed Error registry.Candidate
    fun c => c.reached registry v) registry v noting noting := by
  intro place type function arguments hbinds hbody c hc
  by_cases hshareable : (ProjectionExpr.call place type function arguments).shareable = true
  · rw [noting_shareable hshareable] at hc ⊢
    rcases List.mem_cons.mp hc with rfl | hc
    · refine ⟨⟨hshareable, hbinds⟩, ?_⟩
      show (ProjectionExpr.call place type function arguments).reached registry v ⊆ _
      rw [ProjectionExpr.reached, evaluateWith_call, noting_shareable hshareable]
      exact List.Subset.refl _
    · exact ⟨(hbody c hc).1, List.subset_cons_of_subset _ (hbody c hc).2⟩
  · rw [noting, if_neg hshareable] at hc ⊢
    exact hbody c hc

theorem reached_closed (h : registry.BindsAll projection) :
    ∀ c ∈ reached registry projection v,
      registry.Candidate c ∧ c.reached registry v ⊆ reached registry projection v :=
  inOrder_rel _ (evaluateEach_rel _ noting_closed projection h)

theorem reached_pair (hc : c.reached registry v ⊆ known) (hc' : c'.reached registry v ⊆ known) :
    reached registry [c, c'] v ⊆ known := by
  have hwithin : ∀ e : ProjectionExpr, e.reached registry v ⊆ known →
      (MonadRel.closed Error (· ∈ known) fun _ => []).rel (e.evaluateWith registry noting v)
        (e.evaluateWith registry noting v) :=
    fun e he d hd => ⟨he hd, List.nil_subset _⟩
  intro d hd
  have hrow := inOrder_rel (MonadRel.closed Error (· ∈ known) fun _ => [])
    (.cons (hwithin c hc) (.cons (hwithin c' hc') .nil))
  exact (hrow d hd).1

theorem reached_cons (h : registry.Binds e) (hvalue : e.evaluate registry v = .ok value) :
    reached registry (e :: projection) v =
      e.reached registry v ++ reached registry projection v := by
  rw [reached, evaluateEach, inOrder, Traced.bind_of_ok ((evaluate_eq_outcome h).trans hvalue)]
  cases hrest : (inOrder (evaluateEach registry noting v projection)).outcome with
  | ok values =>
    rw [Traced.bind_of_ok hrest]
    exact congrArg _ (List.append_nil _)
  | error error =>
    rw [Traced.bind_of_error hrest]
    rfl

/-! ## Sharing is invisible where the same calls have the same values -/

/-- Each slot has the value of a call the row came to, the same as the call that was seen first in
its place. -/
def Sharing.Holds (registry : Registry) (known : List ProjectionExpr) (v : RowView) (t : Sharing)
    (slots : Slots) : Prop :=
  ∀ k value, slots k = some value → ∃ first c, t.seen[k]? = some first ∧ c ∈ known ∧
    (first = c ∨ c.same first = true) ∧ c.evaluate registry v = .ok value

/-- Known calls of some size that are the same have the same value on a row. -/
def Registry.Shares (registry : Registry) (known : List ProjectionExpr) (v : RowView) (n : Nat) :
    Prop :=
  ∀ c ∈ known, ∀ c' ∈ known, c.same c' = true → c.size ≤ n →
    ∀ value, c.evaluate registry v = .ok value → c'.evaluate registry v = .ok value

theorem scalar_of_shareable (h : c.shareable = true) : c.scalar = true := by
  cases c with
  | call _ _ _ arguments =>
    rw [ProjectionExpr.shareable, Bool.and_eq_true] at h
    exact h.2
  | _ => cases h

theorem same_through (hc : c.shareable = true) (hfirst : first.shareable = true)
    (he : e.shareable = true) (h : c.same first = true) (h' : e.same first = true) :
    c.same e = true := by
  have hc := scalar_of_shareable hc
  have hfirst := scalar_of_shareable hfirst
  have he := scalar_of_shareable he
  obtain ⟨hunsigned, hnan⟩ := (ProjectionExpr.same_iff hc hfirst).mp h
  obtain ⟨hunsigned', -⟩ := (ProjectionExpr.same_iff he hfirst).mp h'
  exact (ProjectionExpr.same_iff hc he).mpr ⟨hunsigned.trans hunsigned'.symm, hnan⟩

section

variable {t : Sharing} {k : Nat} {slots slots' : Slots} {x : StateT Slots (Except Error) Value}
  {value : Value} {first e : ProjectionExpr} {type : SqlType} {function : Bytes}

section

variable (hk : k ∈ t.slots)
include hk

theorem Sharing.reuse_hit (hslot : slots k = some value) :
    (t.reuse (.call (some k) type function placed) x).run slots = .ok (value, slots) := by
  simp [reuse, hk, hslot]
  rfl

theorem Sharing.reuse_miss (hslot : slots k = none) :
    (t.reuse (.call (some k) type function placed) x).run slots = do
      let (value, slots) ← x.run slots
      return (value, Function.update slots k (some value)) := by
  simp [reuse, hk, hslot]

theorem Sharing.reuse_fill (hslot : slots k = none) (hrun : x.run slots = .ok (value, slots')) :
    (t.reuse (.call (some k) type function placed) x).run slots =
      .ok (value, Function.update slots' k (some value)) := by
  rw [reuse_miss hk hslot, hrun]
  rfl

end

theorem Sharing.reuse_agrees (hfirst : t.seen[k]? = some first) (he : e ∈ known)
    (hplace : first = e ∨ e.same first = true)
    (hsame : ∀ c ∈ known, first = c ∨ c.same first = true → ∀ value,
      c.evaluate registry v = .ok value → e.evaluate registry v = .ok value)
    (hx : Agrees (t.Holds registry known v) x (e.evaluate registry v)) :
    Agrees (t.Holds registry known v) (t.reuse (.call (some k) type function placed) x)
      (e.evaluate registry v) := by
  by_cases hk : k ∈ t.slots
  swap
  · rw [reuse, if_neg hk]
    exact hx
  intro slots hslots
  cases hslot : slots k with
  | some value =>
    -- another call of the row left its value here, which is the value of this one
    obtain ⟨first', c, hfirst', hc, hcfirst, hvalue⟩ := hslots k value hslot
    cases hfirst.symm.trans hfirst'
    rw [hsame c hc hcfirst value hvalue]
    exact ⟨slots, reuse_hit hk hslot, hslots⟩
  | none =>
    have hrun := hx slots hslots
    cases hvalue : e.evaluate registry v with
    | error error =>
      rw [hvalue] at hrun
      show (t.reuse (.call (some k) type function placed) x).run slots = _
      rw [reuse_miss hk hslot, hrun]
      rfl
    | ok value =>
      rw [hvalue] at hrun
      obtain ⟨slots', hrun, hslots'⟩ := hrun
      refine ⟨_, reuse_fill hk hslot hrun, fun k' value' hk' => ?_⟩
      by_cases hkk : k' = k
      · subst hkk
        rw [Function.update_self] at hk'
        cases hk'
        exact ⟨first, e, hfirst, he, hplace, hvalue⟩
      · rw [Function.update_of_ne hkk] at hk'
        exact hslots' k' value' hk'

end

/-- Among the known calls, all that are the same as the first one in a place have its value. -/
theorem Registry.Shares.place (hshares : registry.Shares known v n)
    (hknown : ∀ c ∈ known, registry.Candidate c) (he : e ∈ known) (hsize : e.size ≤ n)
    (hfirst : first = e ∨ registry.Candidate first ∧ e.same first = true) :
    ∀ c ∈ known, first = c ∨ c.same first = true → ∀ value,
      c.evaluate registry v = .ok value → e.evaluate registry v = .ok value := by
  intro c hc hcfirst value hvalue
  rcases hfirst with rfl | ⟨hcandidate, hsame⟩
  · rcases hcfirst with rfl | hsame
    · exact hvalue
    · exact hshares c hc first he hsame (ProjectionExpr.same_size hsame ▸ hsize) value hvalue
  · have hce : c.same e = true := by
      rcases hcfirst with rfl | hcfirst
      · rw [ProjectionExpr.same_comm, hsame]
      · exact same_through (hknown c hc).shareable hcandidate.shareable (hknown e he).shareable
          hcfirst hsame
    exact hshares c hc e he hce (ProjectionExpr.same_size hce ▸ hsize) value hvalue

/-- Evaluation with slots agrees with evaluation from scratch where that comes to known calls. -/
abbrev Following (registry : Registry) (known : List ProjectionExpr) (v : RowView) (t : Sharing) :
    MonadRel Error (StateT Slots (Except Error)) (Traced Error ProjectionExpr) :=
  MonadRel.follows Error (t.Holds registry known v) known

/-- A call with a slot follows the call it was placed for. -/
theorem Sharing.reuse_follows {k : Nat} {place : Option Nat} {type : SqlType} {function : Bytes}
    (hshares : registry.Shares known v n) (hknown : ∀ c ∈ known, registry.Candidate c)
    (hcall : registry.Seen n (.call place type function arguments))
    (hfirst : t.seen[k]? = some first)
    (hplace : first = .call place type function arguments ∨ registry.Candidate first ∧
      (ProjectionExpr.call place type function arguments).same first = true)
    (hbody : (Following registry known v t).rel (callBody registry t.reuse v type function placed)
      (callBody registry noting v type function arguments)) :
    (Following registry known v t).rel
      ((ProjectionExpr.call (some k) type function placed).evaluateWith registry t.reuse v)
      ((ProjectionExpr.call place type function arguments).evaluateWith registry noting v) := by
  intro htrace
  rw [evaluate_eq_outcome hcall.binds]
  rw [evaluateWith_call, noting_shareable hcall.shareable] at htrace
  -- the call is noted before its operands are evaluated, so it is known
  obtain ⟨hmem, htrace⟩ := List.cons_subset.mp htrace
  have hagree := hbody htrace
  rw [callBody_outcome hcall.binds] at hagree
  rw [evaluateWith_call]
  exact reuse_agrees hfirst hmem (hplace.imp id And.right)
    (hshares.place hknown hmem hcall.size hplace) hagree

namespace ProjectionExpr

variable {v : RowView} {n : Nat} {t : Sharing}

mutual

/-- `t` is what the constructor collected in the end, `s` what it had when it came to `e`. -/
theorem visit_follows (hshares : registry.Shares known v n)
    (hknown : ∀ c ∈ known, registry.Candidate c) : ∀ (e : ProjectionExpr) (s : Sharing),
    registry.Binds e → e.size ≤ n → (∀ c ∈ s.seen, registry.Candidate c) →
    Sharing.Grows (fun _ => True) (e.visit s).2 t →
    (Following registry known v t).rel ((e.visit s).1.evaluateWith registry t.reuse v)
      (e.evaluateWith registry noting v)
  | column .., _, _, _, _, _ => (Following registry known v t).pure _
  | literal .., _, _, _, _, _ => (Following registry known v t).pure _
  | rowId, _, _, _, _, _ => by
      show (Following registry known v t).rel (rowId.evaluateWith registry t.reuse v) _
      rw [evaluateWith, evaluateWith]
      cases v.id with
      | some id => exact (Following registry known v t).pure _
      | none => exact (Following registry known v t).lift _
  | call place type function arguments, s, h, hsize, hs, ht => by
      have hbinds := Registry.binds_arguments h
      rw [size] at hsize
      have hfollow := visitAll_follows hshares hknown arguments s hbinds (by omega) hs
      by_cases hshareable : (call place type function arguments).shareable = true
      · rw [visit_shareable hshareable] at ht ⊢
        have hgrows := Sharing.place_grows (P := fun _ => True) (visitAll arguments s).2
          (e := call place type function arguments) trivial
        obtain ⟨first, hfirst, hplace⟩ := Sharing.place_get (visitAll arguments s).2
          (call place type function arguments)
        have hseen := ((visitAll_grows arguments s hbinds).mono
          fun c hc => hc.toCandidate).all hs
        exact Sharing.reuse_follows hshares hknown ⟨⟨hshareable, h⟩, by rw [size]; omega⟩
          (ht.get hfirst) (hplace.imp id fun hfirst => ⟨hseen first hfirst.1, hfirst.2⟩)
          (callBody_rel (Following registry known v t) type function (visitAll_types arguments s)
            (hfollow (hgrows.trans ht)))
      · rw [visit_unshared hshareable] at ht ⊢
        rw [evaluateWith_call, evaluateWith_call, noting, if_neg hshareable]
        exact callBody_rel (Following registry known v t) type function
          (visitAll_types arguments s) (hfollow ht)
  | conditional type equality arguments, s, h, hsize, hs, ht => by
      simp only [Registry.Binds] at h
      rw [size] at hsize
      show (Following registry known v t).rel ((conditional type equality
        (visitAll arguments s).1).evaluateWith registry t.reuse v) _
      rw [evaluateWith, evaluateWith]
      exact conditionally_rel (Following registry known v t)
        (visitAll_follows hshares hknown arguments s h (by omega) hs ht) type equality
  | coalesce type arguments, s, h, hsize, hs, ht => by
      simp only [Registry.Binds] at h
      rw [size] at hsize
      show (Following registry known v t).rel ((coalesce type
        (visitAll arguments s).1).evaluateWith registry t.reuse v) _
      rw [evaluateWith, evaluateWith]
      exact firstPresent_rel (Following registry known v t)
        (visitAll_follows hshares hknown arguments s h (by omega) hs ht) type
  | subquery _ run arguments, s, h, hsize, hs, ht => by
      simp only [Registry.Binds] at h
      rw [size] at hsize
      show (Following registry known v t).rel ((subquery _ run
        (visitAll arguments s).1).evaluateWith registry t.reuse v) _
      rw [evaluateWith, evaluateWith]
      exact (Following registry known v t).bind (inOrder_rel (Following registry known v t)
        (visitAll_follows hshares hknown arguments s h (by omega) hs ht))
        fun values => (Following registry known v t).lift _

theorem visitAll_follows (hshares : registry.Shares known v n)
    (hknown : ∀ c ∈ known, registry.Candidate c) : ∀ (es : List ProjectionExpr) (s : Sharing),
    registry.BindsAll es → sizes es ≤ n → (∀ c ∈ s.seen, registry.Candidate c) →
    Sharing.Grows (fun _ => True) (visitAll es s).2 t →
    List.Forall₂ (Following registry known v t).rel
      (evaluateEach registry t.reuse v (visitAll es s).1) (evaluateEach registry noting v es)
  | [], _, _, _, _, _ => .nil
  | e :: rest, s, h, hsize, hs, ht => by
      simp only [Registry.BindsAll] at h
      rw [sizes] at hsize
      have hseen := ((visit_grows e s h.1).mono fun c hc => hc.toCandidate).all hs
      have hrest := (visitAll_grows rest (e.visit s).2 h.2).mono fun c _ => trivial
      exact .cons (visit_follows hshares hknown e s h.1 (by omega) hs (hrest.trans ht))
        (visitAll_follows hshares hknown rest _ h.2 (by omega) hseen ht)

end

end ProjectionExpr

def repeatableRow (registry : Registry) (projection : List ProjectionExpr) (v : RowView) :
    Except Error Row :=
  sharedRow registry (ProjectionExpr.visitAll projection {}).2
    (ProjectionExpr.visitAll projection {}).1 v

theorem projectShared_eq (projection : List ProjectionExpr) (rows : List RowView) :
    projectShared registry true projection rows = rows.mapM (repeatableRow registry projection) :=
      rfl

theorem Registry.Shares.repeatableRow (hshares : ∀ n, registry.Shares known v n)
    (hcandidates : ∀ c ∈ known, registry.Candidate c) (h : registry.BindsAll projection)
    (hknown : reached registry projection v ⊆ known) :
    repeatableRow registry projection v = freshRow registry projection v := by
  have hfollow := ProjectionExpr.visitAll_follows (t := (ProjectionExpr.visitAll projection {}).2)
    (hshares _) hcandidates projection {} h (Nat.le_refl _) (by simp) (.refl _)
  have hrow := inOrder_rel (Following registry known v _) hfollow hknown
  rw [freshRow_eq_outcome h] at hrow
  exact hrow.run'_eq fun k value hslot => by cases hslot

section

variable {place : Option Nat} {type : SqlType} {function : Bytes} {arguments : List ProjectionExpr}
  {e first : ProjectionExpr}

theorem visitAll_same (hbinds : registry.BindsAll arguments)
    (he : e.size = ProjectionExpr.sizes arguments + 1) :
    ∀ c ∈ (ProjectionExpr.visitAll arguments {}).2.seen, e.same c = false := by
  intro c hmem
  have hseen := (ProjectionExpr.visitAll_grows arguments {} hbinds).all (by simp) c hmem
  have hsize := hseen.size
  rw [Bool.eq_false_iff]
  intro hsame
  have := ProjectionExpr.same_size hsame
  omega

theorem visit_first (hc : registry.Candidate (.call place type function arguments)) :
    (ProjectionExpr.call place type function arguments).visit {} =
      (.call (some (ProjectionExpr.visitAll arguments {}).2.seen.length) type function
        (ProjectionExpr.visitAll arguments {}).1,
        { (ProjectionExpr.visitAll arguments {}).2 with
          seen := (ProjectionExpr.visitAll arguments {}).2.seen ++
            [.call place type function arguments] }) := by
  have hnew := visitAll_same (Registry.binds_arguments hc.binds)
    (e := .call place type function arguments) (by rw [ProjectionExpr.size])
  rw [ProjectionExpr.visit_shareable hc.shareable, Sharing.place_new hnew]

theorem visit_second (hc : registry.Candidate (.call place type function arguments))
    {k : Nat} (hfirst : s.seen[k]? = some first)
    (hsame : (ProjectionExpr.call place type function arguments).same first = true)
    (hbefore : ∀ c ∈ s.seen.take k,
      (ProjectionExpr.call place type function arguments).same c = false) :
    ∃ placed t, (ProjectionExpr.call place type function arguments).visit s =
        (.call (some k) type function placed, t) ∧
      k ∈ t.slots ∧ Sharing.Grows (fun _ => True) s t := by
  have hgrows := (ProjectionExpr.visitAll_grows arguments s
    (Registry.binds_arguments hc.binds)).mono (Q := fun _ => True) fun _ _ => trivial
  have htake : (ProjectionExpr.visitAll arguments s).2.seen.take k = s.seen.take k := by
    obtain ⟨more, hmore, -⟩ := hgrows
    obtain ⟨hlt, -⟩ := List.getElem?_eq_some_iff.mp hfirst
    rw [hmore, List.take_append_of_le_length (Nat.le_of_lt hlt)]
  obtain ⟨hplace, hslot⟩ := Sharing.place_again (hgrows.get hfirst) hsame (htake ▸ hbefore)
  refine ⟨(ProjectionExpr.visitAll arguments s).1, _, ?_, hslot,
    hgrows.trans (Sharing.place_grows _ trivial)⟩
  rw [ProjectionExpr.visit_shareable hc.shareable, hplace]

end

theorem repeatableRow_pair (c c' : ProjectionExpr) (v : RowView) :
    repeatableRow registry [c, c'] v = sharedRow registry (c'.visit (c.visit {}).2).2
        [(c.visit {}).1, (c'.visit (c.visit {}).2).1] v := rfl

theorem inOrder_pair {σ : Type} {x y : StateT σ (Except Error) Value} {s s' s'' : σ}
    (hx : x.run s = .ok (a, s')) (hy : y.run s' = .ok (b, s'')) :
    (inOrder [x, y]).run' s = .ok [a, b] := by
  have hrest : (inOrder [y]).run s' = .ok ([b], s'') := by
    rw [inOrder, StateT.run_bind, hy]
    rfl
  rw [inOrder, StateT.run'_eq, StateT.run_bind, hx]
  show Prod.fst <$> ((inOrder [y]).run s' >>= _) = _
  rw [hrest]
  rfl

/-- Two calls that are the same, as a projection: the second one takes the
value of the first. -/
theorem repeatableRow_twice (hcandidates : ∀ c ∈ known, registry.Candidate c)
    (hshares : registry.Shares known v n) (hc : registry.Seen (n + 1) c)
    (hreached : c.reached registry v ⊆ known) (hc' : registry.Candidate c')
    (hsame : c.same c' = true) (hvalue : c.evaluate registry v = .ok value) :
    repeatableRow registry [c, c'] v = .ok [value, value] := by
  obtain ⟨hcandidate, hsize⟩ := hc
  cases c with
  | call place type function arguments =>
    cases c' with
    | call place' type' function' arguments' =>
      rw [ProjectionExpr.size] at hsize
      have hbinds := Registry.binds_arguments hcandidate.binds
      have hsizes := ProjectionExpr.same_size hsame
      rw [ProjectionExpr.same_comm] at hsame
      have hfirst := visit_first hcandidate
      obtain ⟨placed', t, hsecond, hslot, hgrows⟩ := visit_second hc'
        (s := ((ProjectionExpr.call place type function arguments).visit {}).2)
        (k := (ProjectionExpr.visitAll arguments {}).2.seen.length) (by simp [hfirst]) hsame (by
          rw [hfirst, List.take_left]
          exact visitAll_same hbinds (by rw [← hsizes, ProjectionExpr.size]))
      have hbefore : Sharing.Grows (fun _ => True) (ProjectionExpr.visitAll arguments {}).2
          ((ProjectionExpr.call place type function arguments).visit {}).2 := by
        rw [hfirst]
        exact ⟨[_], rfl, by simp⟩
      rw [ProjectionExpr.reached, evaluateWith_call,
        noting_shareable hcandidate.shareable] at hreached
      have harguments := ProjectionExpr.visitAll_follows hshares hcandidates arguments {} hbinds
        (by omega) (by simp) (hbefore.trans hgrows)
      have hcall := callBody_rel (Following registry known v t) type function
        (ProjectionExpr.visitAll_types arguments {}) harguments (List.cons_subset.mp hreached).2
      rw [callBody_outcome hcandidate.binds, hvalue] at hcall
      have hrow : repeatableRow registry [.call place type function arguments,
          .call place' type' function' arguments'] v =
          sharedRow registry t
            [.call (some (ProjectionExpr.visitAll arguments {}).2.seen.length) type function
              (ProjectionExpr.visitAll arguments {}).1,
            .call (some (ProjectionExpr.visitAll arguments {}).2.seen.length) type' function'
              placed'] v := by
        rw [repeatableRow_pair, hsecond, hfirst]
      have hempty : t.Holds registry known v fun _ => none := fun k value hslot => by cases hslot
      -- the first call is evaluated and fills the slot, the second finds it filled
      obtain ⟨slots, hrun, -⟩ := hcall _ hempty
      rw [hrow, sharedRow, evaluateEach, evaluateEach, evaluateEach, evaluateWith_call,
        evaluateWith_call]
      exact inOrder_pair (Sharing.reuse_fill hslot rfl hrun)
        (Sharing.reuse_hit hslot (Function.update_self ..))
    | _ => cases hc'.shareable
  | _ => cases hcandidate.shareable

/-- Where sharing is invisible on a row, the same calls have the same values
on it. -/
theorem shares_of_repeatableRow
    (hclosed : ∀ c ∈ known, registry.Candidate c ∧ c.reached registry v ⊆ known)
    (h : ∀ projection, registry.BindsAll projection → reached registry projection v ⊆ known →
      repeatableRow registry projection v = freshRow registry projection v) (n : Nat) :
    registry.Shares known v n := by
  -- the calls in the operands are smaller, and shared rightly
  induction n with
  | zero =>
    intro c hc c' _ _ hsize
    cases c with
    | call _ _ _ arguments =>
      rw [ProjectionExpr.size] at hsize
      omega
    | _ => cases (hclosed _ hc).1.shareable
  | succ n ih =>
    intro c hc c' hc' hsame hsize value hvalue
    obtain ⟨hcandidate, hreached⟩ := hclosed c hc
    obtain ⟨hcandidate', hreached'⟩ := hclosed c' hc'
    have hbinds : registry.BindsAll [c, c'] := by
      simp only [Registry.BindsAll]
      exact ⟨hcandidate.binds, hcandidate'.binds, trivial⟩
    have hrow := h [c, c'] hbinds (reached_pair hreached hreached')
    rw [repeatableRow_twice (fun c hc => (hclosed c hc).1) ih ⟨hcandidate, hsize⟩ hreached
      hcandidate' hsame hvalue] at hrow
    obtain ⟨_, _, hrow⟩ := bind_eq_ok.mp hrow.symm
    obtain ⟨_, hrest, hrow⟩ := bind_eq_ok.mp hrow
    obtain ⟨value', hvalue', hrest⟩ := bind_eq_ok.mp hrest
    obtain ⟨_, hnil, hrest⟩ := bind_eq_ok.mp hrest
    cases hnil
    cases hrest
    cases hrow
    exact hvalue'

end

/-- Of the calls that evaluation from scratch comes to on the row, those that differ at most in the
signs of literal zeros have the same value. -/
def SignsIgnored (registry : Registry) (projection : List ProjectionExpr) (v : RowView) : Prop :=
  ∀ c ∈ reached registry projection v, ∀ c' ∈ reached registry projection v, c.Alike c' →
    ∀ value, c.evaluate registry v = .ok value → c'.evaluate registry v = .ok value

theorem shares_iff_signsIgnored {registry : Registry} {projection : List ProjectionExpr}
    {v : RowView} (h : registry.BindsAll projection) :
    (∀ n, registry.Shares (reached registry projection v) v n) ↔
      SignsIgnored registry projection v := by
  have hscalar : ∀ c ∈ reached registry projection v, c.scalar = true := fun c hc =>
    scalar_of_shareable (reached_closed h c hc).1.shareable
  constructor
  · intro hshares c hc c' hc' halike
    exact hshares c.size c hc c' hc'
      ((ProjectionExpr.same_iff (hscalar c hc) (hscalar c' hc')).mpr halike) (Nat.le_refl _)
  · intro hsigns n c hc c' hc' hsame _
    exact hsigns c hc c' hc' ((ProjectionExpr.same_iff (hscalar c hc) (hscalar c' hc')).mp hsame)

theorem projectShared_single {registry : Registry} {projection : List ProjectionExpr} {v : RowView} :
    projectShared registry true projection [v] = [v].mapM (freshRow registry projection) ↔
      repeatableRow registry projection v = freshRow registry projection v := by
  rw [projectShared_eq, List.mapM_cons, List.mapM_cons]
  constructor
  · intro h
    cases hshared : repeatableRow registry projection v <;>
      cases hfresh : freshRow registry projection v <;>
      simp_all [Bind.bind, Except.bind, Pure.pure, Except.pure]
  · intro h
    rw [h]
    rfl

/-- **What sharing in the projection asks of its calls.** A repeatable
projection gives the rows that evaluation from scratch gives, and fails where
it fails, if on each row the calls that evaluation comes to have the same value
whenever they differ at most in the signs of literal zeros. Nothing less will
do: on a row where two such calls differ, some projection that comes to no
other calls goes wrong. -/
theorem projection_sharing_invisible_iff (registry : Registry) (projection : List ProjectionExpr)
    (rows : List RowView) (h : registry.BindsAll projection) :
    ((∀ v ∈ rows, SignsIgnored registry projection v) →
      projectShared registry true projection rows = rows.mapM (freshRow registry projection)) ∧
    ∀ v, SignsIgnored registry projection v ↔
      ∀ projection', registry.BindsAll projection' →
        reached registry projection' v ⊆ reached registry projection v →
        projectShared registry true projection' [v] =
          [v].mapM (freshRow registry projection') := by
  have hsufficient : ∀ v, SignsIgnored registry projection v → ∀ projection',
      registry.BindsAll projection' →
      reached registry projection' v ⊆ reached registry projection v →
      repeatableRow registry projection' v = freshRow registry projection' v := by
    intro v hsigns projection' hbinds hreached
    exact Registry.Shares.repeatableRow ((shares_iff_signsIgnored h).mpr hsigns)
      (fun c hc => (reached_closed h c hc).1) hbinds hreached
  refine ⟨fun hsigns => ?_, fun v => ⟨fun hsigns projection' hbinds hreached => ?_, fun hall => ?_⟩⟩
  · rw [projectShared_eq]
    exact mapM_congr fun v hv => hsufficient v (hsigns v hv) projection h (List.Subset.refl _)
  · exact projectShared_single.mpr (hsufficient v hsigns projection' hbinds hreached)
  · refine (shares_iff_signsIgnored h).mp fun n => shares_of_repeatableRow
      (reached_closed h) (fun projection' hbinds hreached => ?_) n
    exact projectShared_single.mp (hall projection' hbinds hreached)

/-- A function that looks at the sign of a double. -/
def signFunction : Function where
  infer types := if types = [realType] then .ok integerType else fail .type "sign expects a real"
  invoke
    | [.real bits] => .ok (.integer (if bits < 0x8000000000000000 then 0 else 1))
    | _ => fail .type "sign expects a real"

def signRegistry : Registry :=
  { scalarRegistry with
    functions := fun name => if name = lit "sign" then some signFunction else none }

def signOf (bits : UInt64) : ProjectionExpr :=
  .call none integerType (lit "sign") [.literal realType (.real bits)]

theorem signOf_binds {bits : UInt64} (h : signRegistry.validate (.real bits) realType = .ok ()) :
    signRegistry.Binds (signOf bits) := by
  have hfunction : signRegistry.function (lit "sign") = .ok signFunction := by
    simp [signRegistry, Registry.function]
  have htype : signRegistry.validateType integerType = .ok () := by decide +kernel
  simp only [signOf, Registry.Binds, Registry.BindsAll]
  refine ⟨trivial, ⟨signFunction, hfunction, ?_, ?_⟩, htype, h, trivial⟩
  · simp [signFunction, ProjectionExpr.type]
  · intro prepare hprepare
    cases hprepare

theorem signOf_reached (bits : UInt64) (v : RowView) :
    (signOf bits).reached signRegistry v = [signOf bits] := by
  have hshareable : (signOf bits).shareable = true := by
    have htype : (integerType != textType) = true := by decide +kernel
    simp [signOf, ProjectionExpr.shareable, ProjectionExpr.allScalar, ProjectionExpr.scalar, htype]
  rw [signOf] at hshareable ⊢
  rw [ProjectionExpr.reached, evaluateWith_call, noting_shareable hshareable, callBody,
    evaluateEach, evaluateEach, ProjectionExpr.evaluateWith]
  rfl

/-- `CASE WHEN 0 THEN sign(-0.0) END`. -/
def untaken : ProjectionExpr :=
  .conditional integerType none [.literal integerType (.integer 0), signOf 0x8000000000000000]

theorem untaken_reached (v : RowView) : untaken.reached signRegistry v = [] := by
  rw [untaken, ProjectionExpr.reached, ProjectionExpr.evaluateWith, conditionally, evaluateEach,
    evaluateEach, evaluateEach, ProjectionExpr.evaluateWith]
  rfl

/-- Of the two zeros among the literals the row comes to one. -/
def otherSigns : List ProjectionExpr := [untaken, signOf 0, signOf 0xBFF0000000000000]

theorem untaken_binds : signRegistry.Binds untaken := by
  simp only [untaken, Registry.BindsAll, Registry.Binds]
  exact ⟨by decide +kernel, signOf_binds (by decide +kernel), trivial⟩

theorem otherSigns_binds : signRegistry.BindsAll otherSigns := by
  simp only [otherSigns, Registry.BindsAll]
  exact ⟨untaken_binds, signOf_binds (by decide +kernel), signOf_binds (by decide +kernel), trivial⟩

theorem otherSigns_reached :
    reached signRegistry otherSigns ⟨[], none⟩ = [signOf 0, signOf 0xBFF0000000000000] := by
  have huntaken : untaken.evaluate signRegistry ⟨[], none⟩ = .ok (.null integerType) := by
    decide +kernel
  have hzero : (signOf 0).evaluate signRegistry ⟨[], none⟩ = .ok (.integer 0) := by
    decide +kernel
  have hone : (signOf 0xBFF0000000000000).evaluate signRegistry ⟨[], none⟩ = .ok (.integer 1) := by
    decide +kernel
  rw [otherSigns, reached_cons untaken_binds huntaken,
    reached_cons (signOf_binds (by decide +kernel)) hzero,
    reached_cons (signOf_binds (by decide +kernel)) hone, untaken_reached, signOf_reached,
    signOf_reached]
  rfl

theorem otherSigns_ignored : SignsIgnored signRegistry otherSigns ⟨[], none⟩ := by
  intro c hc c' hc' halike value hvalue
  rw [otherSigns_reached] at hc hc'
  have hsame : c = c' := by
    rcases List.mem_cons.mp hc with rfl | hc
    · rcases List.mem_cons.mp hc' with rfl | hc'
      · rfl
      · rw [List.mem_singleton.mp hc'] at halike
        cases halike.1
    · rw [List.mem_singleton.mp hc] at halike ⊢
      rcases List.mem_cons.mp hc' with rfl | hc'
      · cases halike.1
      · rw [List.mem_singleton.mp hc']
  exact hsame ▸ hvalue

/-- Where a row comes to no two calls that differ in the sign of a zero, the function may look at
signs. -/
theorem sharing_keeps_other_signs :
    projectShared signRegistry true otherSigns [⟨[], none⟩] =
        [(⟨[], none⟩ : RowView)].mapM (freshRow signRegistry otherSigns) ∧
      [(⟨[], none⟩ : RowView)].mapM (freshRow signRegistry otherSigns) =
        .ok [[.null integerType, .integer 0, .integer 1]] :=
  ⟨(projection_sharing_invisible_iff signRegistry otherSigns _ otherSigns_binds).1
    fun v hv => List.mem_singleton.mp hv ▸ otherSigns_ignored, by decide +kernel⟩

/-- `sign(0.0)` and `sign(-0.0)`. -/
def bothSigns : List ProjectionExpr := [signOf 0, signOf 0x8000000000000000]

/-- The two zeros share a slot, and the second call is answered with the sign
of the first. -/
theorem sharing_confuses_zeros :
    signRegistry.BindsAll bothSigns ∧
      projectShared signRegistry true bothSigns [⟨[], none⟩] =
        .ok [[.integer 0, .integer 0]] ∧
      [(⟨[], none⟩ : RowView)].mapM (freshRow signRegistry bothSigns) =
        .ok [[.integer 0, .integer 1]] :=
  ⟨by
    simp only [bothSigns, Registry.BindsAll]
    exact ⟨signOf_binds (by decide +kernel), signOf_binds (by decide +kernel), trivial⟩,
    by decide +kernel, by decide +kernel⟩

end CoreSql
