import CoreSql.Lib.Stateful
import CoreSql.Proofs.Lawful
import CoreSql.Query.Membership
import CoreSql.Sql.Values

/-!
# Fast membership is three-valued membership

Every way in which a bound membership comes to an answer is compared with one
definition, `memberOf`. The loop over the candidates is an induction in which
`unknown` says that a NULL was met before. The lookup rests on its test: for
the equality functions of SQL on values of one native type the test holds for
exactly the values that the function calls equal to some candidate, through a
list or through a hash set.

Across calls the state only remembers: the rows of a nested query that is one
computation, and a lookup made from these or from the literals.
-/

namespace CoreSql

open Fallible

/-! ## The loop -/

/-- What the answers of an equality function come to. -/
def Function.equates (f : Function) (a b : Value) : Bool :=
  match f.invoke [a, b] with
  | .ok answer => truthy answer
  | .error _ => false

section

variable {equal : Function} {truth : TypeAddon} {needle a b c : Value}
  {candidates rest values : List Value}

/-- Whether some candidate is equal to the needle. -/
def found (equal : Function) (needle : Value) (candidates : List Value) : Prop :=
  needle.isNull = false ∧ ∃ c ∈ candidates, c.isNull = false ∧ equal.equates needle c = true

instance : Decidable (found equal needle candidates) :=
  inferInstanceAs (Decidable (_ ∧ _))

/-- The equality function answers 0 or 1 on the operands of a membership. -/
def Decides (equal : Function) (needle : Value) (candidates : List Value) : Prop :=
  ∀ c ∈ candidates, needle.isNull = false → c.isNull = false →
    ∃ b, equal.invoke [needle, c] = .ok (Sql.ofBool b)

theorem truthy_ofBool (b : Bool) : truthy (Sql.ofBool b) = b := by cases b <;> rfl

theorem equates_ofBool {answer : Bool}
    (h : equal.invoke [a, b] = .ok (Sql.ofBool answer)) : equal.equates a b = answer := by
  rw [Function.equates, h]
  exact truthy_ofBool answer

theorem found_cons : found equal needle (c :: rest) ↔
      (needle.isNull = false ∧ c.isNull = false ∧ equal.equates needle c = true) ∨
        found equal needle rest := by
  simp only [found, List.exists_mem_cons_iff]
  tauto

/-- The loop over the candidates; `unknown` says that NULL was met before. -/
theorem matchCandidates_eq (htruth : ∀ b, checkValue truth integerType (Sql.ofBool b) = .ok ())
    (h : Decides equal needle candidates) (unknown : Bool) :
    matchCandidates equal truth needle unknown candidates =
      .ok (if found equal needle candidates then .integer 1
        else if unknown = true ∨ ∃ c ∈ candidates, needle.isNull = true ∨ c.isNull = true then
          .null integerType else .integer 0) := by
  induction candidates generalizing unknown with
  | nil => simp [matchCandidates, found]
  | cons c rest ih =>
    obtain ⟨hc, hrest⟩ := List.forall_mem_cons.mp h
    have ih := ih hrest
    rw [matchCandidates]
    by_cases hnull : needle.isNull = true ∨ c.isNull = true
    · rw [if_pos (by simpa using hnull), ih]
      have hsame : found equal needle (c :: rest) ↔ found equal needle rest := by
        rw [found_cons]
        refine or_iff_right fun ⟨hneedle, hc, _⟩ => ?_
        simp [hneedle, hc] at hnull
      simp [hsame, hnull]
    · obtain ⟨hneedle, hcand⟩ : needle.isNull = false ∧ c.isNull = false := by simpa using hnull
      obtain ⟨b, hinvoke⟩ := hc hneedle hcand
      rw [if_neg (by simp [hneedle, hcand]), hinvoke]
      show (do checkValue truth integerType (Sql.ofBool b); _) = _
      rw [htruth b]
      have hequates := equates_ofBool hinvoke
      cases b with
      | true =>
        have hfound : found equal needle (c :: rest) :=
          found_cons.mpr (.inl ⟨hneedle, hcand, hequates⟩)
        rw [if_pos hfound]
        rfl
      | false =>
        have hsame : found equal needle (c :: rest) ↔ found equal needle rest := by
          rw [found_cons]
          refine or_iff_right fun ⟨_, _, htrue⟩ => ?_
          rw [hequates] at htrue
          cases htrue
        show matchCandidates equal truth needle unknown rest = _
        rw [ih]
        simp [hsame, hneedle, hcand]

theorem memberOf_eq : memberOf equal.equates needle candidates = if candidates = [] then .integer 0
      else if found equal needle candidates then .integer 1
      else if needle.isNull = true ∨ ∃ c ∈ candidates, c.isNull = true then .null integerType
      else .integer 0 := rfl

theorem compareEach_eq {m : Membership}
    (htruth : ∀ b, checkValue m.truth integerType (Sql.ofBool b) = .ok ())
    (h : Decides m.equal (Membership.needle values) candidates) : m.compareEach values candidates =
      .ok (memberOf m.equal.equates (Membership.needle values) candidates) := by
  rw [Membership.compareEach, matchCandidates_eq htruth h, memberOf_eq]
  cases candidates with
  | nil => simp [found]
  | cons c rest =>
    have hunknown : (false = true ∨ ∃ c' ∈ c :: rest,
        (Membership.needle values).isNull = true ∨ c'.isNull = true) ↔
        (Membership.needle values).isNull = true ∨ ∃ c' ∈ c :: rest, c'.isNull = true := by
      simp only [Bool.false_eq_true, false_or, List.exists_mem_cons_iff]
      constructor
      · rintro ((h | h) | ⟨c', hc', h | h⟩)
        · exact .inl h
        · exact .inr (.inl h)
        · exact .inl h
        · exact .inr (.inr ⟨c', hc', h⟩)
      · rintro (h | h | ⟨c', hc', h⟩)
        · exact .inl (.inl h)
        · exact .inl (.inr h)
        · exact .inr ⟨c', hc', .inr h⟩
    rw [if_neg (List.cons_ne_nil c rest)]
    congr 3
    exact propext hunknown

/-! ## The lookup -/

/-- A lookup that was made from the candidates, and whose test is right on the
needle. -/
theorem find_eq {type : SqlType} {contains : Value → Bool}
    (hcontains : (MembershipLookup.prepare equal type candidates {}).contains = some contains)
    (htest : needle.isNull = false → contains needle =
      (candidates.filter fun v => !v.isNull).any (equal.equates needle)) :
    (MembershipLookup.prepare equal type candidates {}).find needle =
      some (memberOf equal.equates needle candidates) := by
  rw [MembershipLookup.find, hcontains, memberOf_eq]
  rw [MembershipLookup.prepare] at hcontains ⊢
  cases hfactory : equal.prepareMembership with
  | none =>
    rw [hfactory] at hcontains
    cases hcontains
  | some factory =>
    by_cases hempty : candidates = []
    · simp [hempty]
    · cases hnull : needle.isNull with
      | true => simp [hempty, found, hnull]
      | false =>
        have hfound : found equal needle candidates ↔ contains needle = true := by
          rw [htest hnull, found]
          simp [hnull]
        by_cases hin : contains needle = true
        · simp [hempty, hfound, hin]
        · simp [hempty, hfound, hin]

end

/-! ## The equality functions on one type -/

namespace Sql

/-- Affinity leaves values of its own type alone, as the documentation of
adapters asks. -/
def Preserves (adapters : TypeAdapters) : Prop :=
  ∀ type apply value, adapters type = some apply → value.typeOf = type → apply value = .ok value

section

variable {registry : Registry} {type : SqlType} {addon : TypeAddon}
  {hash : Bytes → Value → Nat} {equal : Bytes → Value → Value → Bool}
  {compare : Bytes → Value → Value → Int} {a b : Value} {affinity : Option SqlType}
  {adapters : TypeAdapters} {candidates : List Value} {contains : Value → Bool}

theorem membershipFactory_eq_some
    (h : membershipFactory registry affinity type candidates = some contains) :
    ∃ addon hash equal compare, registry.types type.id type.version = some addon ∧
      addon.hash = some hash ∧ addon.equal = some equal ∧ addon.compare = some compare ∧
      (∀ t ∈ affinity, type = t) ∧ contains = if candidates.length ≤ 8 then
          fun value => candidates.any fun key => equal type.parameters value key
        else Buckets.hasKey (sameKey (hash type.parameters) (equal type.parameters))
          (candidates.foldl
            (Buckets.addKey (sameKey (hash type.parameters) (equal type.parameters))) []) := by
  simp only [membershipFactory, Option.bind_eq_bind, Option.bind_eq_some_iff] at h
  obtain ⟨addon, haddon, integers, -, h⟩ := h
  split at h
  · cases h
  next hlayout =>
  split at h
  · cases h
  obtain ⟨hash, hhash, equal, hequal, compare, hcompare, h⟩ := by
    simpa only [Option.bind_eq_some_iff] using h
  refine ⟨addon, hash, equal, compare, haddon, hhash, hequal, hcompare, ?_, ?_⟩
  · intro t ht
    by_contra hne
    exact hlayout (.inr ⟨t, ht, hne⟩)
  · split at h
    next hfew =>
      rw [if_pos hfew]
      exact (Option.some.inj h).symm
    next hmany =>
      rw [if_neg hmany]
      exact (Option.some.inj h).symm

/-- A value of a type: accepted by its add-on. -/
structure Holds (type : SqlType) (addon : TypeAddon) (v : Value) : Prop where
  typeOf : v.typeOf = type
  accepts : addon.Accepts type v

theorem unpack_eq (hany : type ≠ anyType) (ha : Holds type addon a) : unpack a = .ok a := by
  cases a with
  | blob t bytes =>
    have htype : t = type := ha.typeOf
    rw [unpack, if_neg (htype ▸ hany)]
  | _ => rfl

theorem affinity_eq (hadapters : Preserves adapters) (hany : type ≠ anyType)
    (ha : Holds type addon a) : Sql.affinity adapters type a = .ok a := by
  rw [Sql.affinity, unpack_eq hany ha]
  show (if a.isNull = true then _ else _) = _
  rw [if_neg (by simp [ha.accepts.1])]
  cases happly : adapters type with
  | none => rfl
  | some apply => exact hadapters type apply a happly ha.typeOf

section

variable (haddon : registry.types type.id type.version = some addon)
  (hvalid : addon.validateType type.parameters = .ok ())
include haddon hvalid

theorem checkOperands_eq (ha : Holds type addon a) (hb : Holds type addon b) :
    registry.checkOperands a b = .ok addon := by
  rw [Registry.checkOperands, ha.typeOf, addon_eq_ok.mpr haddon]
  show (do addon.validateType type.parameters; _) = _
  rw [hvalid]
  show (do checkValue addon type a; _) = _
  rw [checkValue_eq_ok.mpr (.inr ha.accepts)]
  show (do checkValue addon type b; _) = _
  rw [checkValue_eq_ok.mpr (.inr hb.accepts)]
  rfl

theorem registry_equal (hequal : addon.equal = some equal) (ha : Holds type addon a)
    (hb : Holds type addon b) : registry.equal a b = .ok (equal type.parameters a b) := by
  rw [Registry.equal, checkOperands_eq haddon hvalid ha hb, ok_bind, hequal, ha.typeOf,
    ha.accepts.1, hb.accepts.1]
  rfl

theorem registry_compare (hcompare : addon.compare = some compare) (ha : Holds type addon a)
    (hb : Holds type addon b) : registry.compare a b = .ok (compare type.parameters a b) := by
  rw [Registry.compare, checkOperands_eq haddon hvalid ha hb, ok_bind, hcompare, ha.typeOf,
    ha.accepts.1, hb.accepts.1]
  rfl

theorem valueCompare_eq (hany : type ≠ anyType) (hcompare : addon.compare = some compare)
    (ha : Holds type addon a) (hb : Holds type addon b) :
    valueCompare registry a b = .ok (compare type.parameters a b) := by
  rw [valueCompare, unpack_eq hany ha, unpack_eq hany hb]
  show (if a.typeOf = b.typeOf then registry.compare a b else _) = _
  rw [if_pos (ha.typeOf.trans hb.typeOf.symm), registry_compare haddon hvalid hcompare ha hb]

/-- Both equality functions ask the add-on, for a type whose affinity is its
own. -/
theorem equality_invoke (hlawful : registry.Lawful) (hadapters : Preserves adapters)
    (hequal : addon.equal = some equal) (hcompare : addon.compare = some compare)
    (haffinity : ∀ t ∈ affinity, type = t ∧ t ≠ anyType)
    (ha : Holds type addon a) (hb : Holds type addon b) :
    (equality registry adapters affinity).invoke [a, b] =
      .ok (ofBool (equal type.parameters a b)) := by
  cases affinity with
  | none =>
    show (if a.typeOf = b.typeOf then _ else _) = _
    rw [if_pos (ha.typeOf.trans hb.typeOf.symm), registry_equal haddon hvalid hequal ha hb]
    rfl
  | some t =>
    obtain ⟨rfl, hany⟩ := haffinity t rfl
    have hzero := (hlawful type addon haddon hvalid).compare_equal hcompare hequal ha.accepts
      hb.accepts
    show (do
      let a ← Sql.affinity adapters type a
      let b ← Sql.affinity adapters type b
      let c ← valueCompare registry a b
      return ofBool (c == 0) : Except Error Value) = _
    rw [affinity_eq hadapters hany ha, affinity_eq hadapters hany hb]
    show (do
      let c ← valueCompare registry a b
      return ofBool (c == 0) : Except Error Value) = _
    rw [valueCompare_eq haddon hvalid hany hcompare ha hb]
    show Except.ok (ofBool (compare type.parameters a b == 0)) = _
    rw [Bool.eq_iff_iff.mpr (beq_iff_eq.trans hzero)]

theorem membershipFactory_contains (hlawful : registry.Lawful) (hequal : addon.equal = some equal)
    (h : membershipFactory registry affinity type candidates = some contains)
    (hcandidates : ∀ c ∈ candidates, addon.Accepts type c) (ha : addon.Accepts type a) :
    contains a = candidates.any fun c => equal type.parameters a c := by
  obtain ⟨addon', hash, equal', compare, haddon', hhash, hequal', -, -, rfl⟩ :=
    membershipFactory_eq_some h
  cases haddon.symm.trans haddon'
  cases hequal.symm.trans hequal'
  have hlaw := hlawful type addon haddon hvalid
  split
  · rfl
  have hsame : ∀ {x y}, addon.Accepts type x → addon.Accepts type y →
      (sameKey (hash type.parameters) (equal type.parameters) x y = true ↔
        equal type.parameters y x = true) := by
    intro x y hx hy
    rw [sameKey, Bool.and_eq_true, beq_iff_eq]
    exact and_iff_right_of_imp fun hxy => (hlaw.hash_equal hhash hequal hy hx hxy).symm
  have hequivalence : Buckets.Equivalence
      (sameKey (hash type.parameters) (equal type.parameters)) (addon.Accepts type) := by
    constructor
    · intro x hx
      exact (hsame hx hx).mpr (hlaw.equal_refl hequal hx)
    · intro x y hx hy hxy
      exact (hsame hy hx).mpr (hlaw.equal_symm hequal hy hx ((hsame hx hy).mp hxy))
    · intro x y z hx hy hz hxy hyz
      exact (hsame hx hz).mpr (hlaw.equal_trans hequal hz hy hx ((hsame hy hz).mp hyz)
        ((hsame hx hy).mp hxy))
  rw [Buckets.hasKey_foldl hequivalence hcandidates (by simp) ha, Buckets.hasKey, List.any_nil,
    Bool.false_or, Bool.eq_iff_iff, List.any_eq_true, List.any_eq_true]
  refine exists_congr fun c => and_congr_right fun hc => ?_
  exact hsame (hcandidates c hc) ha

end

end

end Sql

/-! ## Across calls -/

namespace Membership

variable {m : Membership}

/-- The state was made from the one list of candidates there is. -/
structure Remembers (m : Membership) (s : MembershipState) : Prop where
  cache : ∀ rows, s.cache = some rows → m.source = .cacheable (.ok rows)
  lookup : s.lookup = {} ∨ ∃ candidates, (∀ values, m.candidates values = .ok candidates) ∧
    s.lookup = MembershipLookup.prepare m.equal m.needleType candidates {}

theorem remembers_empty : m.Remembers {} := ⟨fun rows h => (by cases h), .inl rfl⟩

theorem prepare_twice (equal : Function) (type : SqlType) (candidates candidates' : List Value) :
    MembershipLookup.prepare equal type candidates'
        (MembershipLookup.prepare equal type candidates {}) =
      if equal.prepareMembership.isSome then MembershipLookup.prepare equal type candidates {}
      else {} := by
  cases h : equal.prepareMembership with
  | none => simp [MembershipLookup.prepare, h]
  | some factory => simp [MembershipLookup.prepare, h]

/-- Whatever the state was, the lookup is then made from the candidates. -/
theorem Remembers.prepare {s : MembershipState} (h : m.Remembers s) {candidates : List Value}
    (hcandidates : ∀ values, m.candidates values = .ok candidates) :
    s.lookup.prepare m.equal m.needleType candidates =
      MembershipLookup.prepare m.equal m.needleType candidates {} := by
  rcases h.lookup with hnew | ⟨candidates', hcandidates', hmade⟩
  · rw [hnew]
  · cases (hcandidates []).symm.trans (hcandidates' [])
    rw [hmade, prepare_twice]
    split
    · rfl
    next hnone =>
      have hnone : m.equal.prepareMembership = none := by simpa using hnone
      simp [MembershipLookup.prepare, hnone]

variable {values candidates : List Value}

/-- What the candidates of a call have to be for the lookup to be right. -/
def TestRight (m : Membership) (values candidates : List Value) : Prop :=
  ∀ contains, (MembershipLookup.prepare m.equal m.needleType candidates {}).contains =
      some contains → (needle values).isNull = false →
    contains (needle values) =
      (candidates.filter fun v => !v.isNull).any (m.equal.equates (needle values))

theorem lookUp_run (s : MembershipState) :
    (m.lookUp values candidates).run s =
      match (s.lookup.prepare m.equal m.needleType candidates).find (needle values) with
      | some answer =>
        .ok (answer, { s with lookup := s.lookup.prepare m.equal m.needleType candidates })
      | none => do
          let answer ← m.compareEach values candidates
          return (answer,
            { s with lookup := s.lookup.prepare m.equal m.needleType candidates }) := by
  show StateT.run
    (match (s.lookup.prepare m.equal m.needleType candidates).find (needle values) with
    | some answer => _
    | none => _) _ = _
  cases (s.lookup.prepare m.equal m.needleType candidates).find (needle values) with
  | some answer => rfl
  | none =>
    show StateT.run (liftM (m.compareEach values candidates)) _ = _
    cases m.compareEach values candidates <;> rfl

theorem lookUp_agrees (htruth : ∀ b, checkValue m.truth integerType (Sql.ofBool b) = .ok ())
    (hcandidates : ∀ values, m.candidates values = .ok candidates)
    (hdecides : Decides m.equal (needle values) candidates)
      (htest : m.TestRight values candidates) :
    Agrees m.Remembers (m.lookUp values candidates)
      (.ok (memberOf m.equal.equates (needle values) candidates)) := by
  intro s hs
  refine ⟨{ s with lookup := MembershipLookup.prepare m.equal m.needleType candidates {} }, ?_,
    ⟨hs.cache, .inr ⟨candidates, hcandidates, rfl⟩⟩⟩
  rw [lookUp_run, hs.prepare hcandidates]
  cases hcontains : (MembershipLookup.prepare m.equal m.needleType candidates {}).contains with
  | none =>
    have hfind : (MembershipLookup.prepare m.equal m.needleType candidates {}).find
        (needle values) = none := by
      rw [MembershipLookup.find, hcontains]
    rw [hfind, compareEach_eq htruth hdecides]
    rfl
  | some contains => rw [find_eq hcontains (htest contains hcontains)]

theorem compareEach_agrees (htruth : ∀ b, checkValue m.truth integerType (Sql.ofBool b) = .ok ())
    (hdecides : Decides m.equal (needle values) candidates) : Agrees m.Remembers
      (liftM (m.compareEach values candidates) : StateT MembershipState (Except Error) Value)
      (.ok (memberOf m.equal.equates (needle values) candidates)) := by
  rw [← compareEach_eq htruth hdecides]
  exact .lift _

/-- A query that is one computation has run when its rows are remembered. -/
theorem fetch_agrees {run : Except Error (List Row)} (hsource : m.source = .cacheable run) :
    Agrees m.Remembers (fetch run) run := by
  intro s hs
  cases hcache : s.cache with
  | some rows =>
    obtain rfl : run = .ok rows := by
      have h := hs.cache rows hcache
      rw [hsource] at h
      exact MembershipSource.cacheable.inj h
    refine ⟨s, ?_, hs⟩
    simp [fetch, hcache]
    rfl
  | none =>
    have hrun : (fetch run).run s = do
        let rows ← run
        return (rows, { s with cache := some rows }) := by
      cases run <;> simp [fetch, hcache]
    cases run with
    | error e => exact hrun
    | ok rows =>
      refine ⟨{ s with cache := some rows }, hrun, ⟨fun rows' h => ?_, hs.lookup⟩⟩
      cases h
      exact hsource

/-- One call answers as `memberOf` does, whatever calls were made before. -/
theorem evaluate_agrees (htruth : ∀ b, checkValue m.truth integerType (Sql.ofBool b) = .ok ())
    (hdecides : ∀ cs, m.candidates values = .ok cs → Decides m.equal (needle values) cs)
    (htest : ∀ cs, m.sameType = true → m.candidates values = .ok cs → m.TestRight values cs) :
    Agrees m.Remembers (m.evaluate values) (do
      let candidates ← m.candidates values
      return memberOf m.equal.equates (needle values) candidates) := by
  rw [evaluate]
  cases hsource : m.source with
  | arguments =>
    have hcandidates : m.candidates values = .ok values.tail := by rw [candidates, hsource]
    rw [hcandidates]
    exact compareEach_agrees htruth (hdecides _ hcandidates)
  | literals cs =>
    have hcandidates : ∀ values, m.candidates values = .ok cs := fun _ => by
      rw [candidates, hsource]
    have hsame := m.literals_sameType cs hsource
    rw [hcandidates]
    exact lookUp_agrees htruth hcandidates (hdecides _ (hcandidates _))
      (htest _ hsame (hcandidates _))
  | query run =>
    have hcandidates : m.candidates values = cells <$> run values := by rw [candidates, hsource]
    rw [hcandidates]
    cases hrun : run values with
    | error e =>
      simp only [hrun]
      exact .lift (.error e)
    | ok rows =>
      rw [hrun] at hcandidates
      simp only [hrun]
      exact compareEach_agrees htruth (hdecides _ hcandidates)
  | cacheable run =>
    have hcandidates : ∀ values, m.candidates values = cells <$> run := fun _ => by
      rw [candidates, hsource]
    have hspec : (do
        let candidates ← m.candidates values
        return memberOf m.equal.equates (needle values) candidates) = do
        let rows ← run
        return memberOf m.equal.equates (needle values) (cells rows) := by
      rw [hcandidates]
      cases run <;> rfl
    rw [hspec]
    refine (fetch_agrees hsource).bind_of_ok fun rows hrun => ?_
    have hcells : ∀ values, m.candidates values = .ok (cells rows) := fun values => by
      rw [hcandidates, hrun]
      rfl
    cases hsame : m.sameType with
    | true =>
      exact lookUp_agrees htruth hcells (hdecides _ (hcells _)) (htest _ hsame (hcells _))
    | false => exact compareEach_agrees htruth (hdecides _ (hcells _))

/-- The operands of a call are values of the type of the needle, or NULL. -/
def Typed (registry : Registry) (m : Membership) (values : List Value) : Prop :=
  ∀ cs, m.candidates values = .ok cs → ∀ v ∈ needle values :: cs,
    v.typeOf = m.needleType ∧ registry.Cell m.needleType v

end Membership

section

variable {registry : Registry} {adapters : Sql.TypeAdapters} {affinity : Option SqlType}
  {a b answer v : Value}

theorem equality_answers
    (h : (Sql.equality registry adapters affinity).invoke [a, b] = .ok answer) :
    ∃ truth, answer = Sql.ofBool truth := by
  cases affinity with
  | none =>
    replace h : (if a.typeOf = b.typeOf then do return Sql.ofBool (← registry.equal a b)
      else do return Sql.ofBool ((← Sql.valueCompare registry a b) == 0)) = .ok answer := h
    split at h
    · obtain ⟨truth, -, h⟩ := bind_eq_ok.mp h
      cases h
      exact ⟨_, rfl⟩
    · obtain ⟨c, -, h⟩ := bind_eq_ok.mp h
      cases h
      exact ⟨_, rfl⟩
  | some t =>
    obtain ⟨a', -, h⟩ := bind_eq_ok.mp h
    obtain ⟨b', -, h⟩ := bind_eq_ok.mp h
    obtain ⟨c, -, h⟩ := bind_eq_ok.mp h
    cases h
    exact ⟨_, rfl⟩

/-- The needle and the candidates are of one type that has equality and order,
and the equality function applies no affinity but that of the type. -/
structure Membership.OneType (registry : Registry) (affinity : Option SqlType) (m : Membership) :
    Prop where
  sameType : m.sameType = true
  affinity : ∀ t ∈ affinity, m.needleType = t
  comparable : ∃ addon, registry.types m.needleType.id m.needleType.version = some addon ∧
    addon.equal.isSome ∧ addon.compare.isSome

variable {m : Membership} {values cs : List Value} {addon : TypeAddon}

theorem Membership.Typed.holds (h : m.Typed registry values) (hcs : m.candidates values = .ok cs)
    (haddon : registry.types m.needleType.id m.needleType.version = some addon)
    (hv : v ∈ needle values :: cs) (hnull : v.isNull = false) : Sql.Holds m.needleType addon v :=
  ⟨(h cs hcs v hv).1, (h cs hcs v hv).2.accepts hnull haddon⟩

theorem Membership.Typed.validType (h : m.Typed registry values)
    (hcs : m.candidates values = .ok cs)
    (haddon : registry.types m.needleType.id m.needleType.version = some addon) :
    addon.validateType m.needleType.parameters = .ok () := by
  obtain ⟨addon', haddon', hvalid, -⟩ := cell_iff.mp (h cs hcs _ List.mem_cons_self).2
  cases haddon.symm.trans haddon'
  exact hvalid

theorem scalar_ne_any {t : SqlType} (h : t = integerType ∨ t = realType ∨ t = textType) :
    t ≠ Sql.anyType := by
  rcases h with rfl | rfl | rfl <;> decide +kernel

section

variable (hlawful : registry.Lawful) (hadapters : Sql.Preserves adapters)
  (haffinity : ∀ t ∈ affinity, t = integerType ∨ t = realType ∨ t = textType)
  (hm : m.equal = Sql.equality registry adapters affinity) (htyped : m.Typed registry values)
  (hcs : m.candidates values = .ok cs)
include hlawful hadapters haffinity hm htyped hcs

/-- On values of one type the equality functions answer as the add-on does. -/
theorem Membership.OneType.invoke (haffinity' : ∀ t ∈ affinity, m.needleType = t)
    {equal : Bytes → Value → Value → Bool} {compare : Bytes → Value → Value → Int}
    (haddon : registry.types m.needleType.id m.needleType.version = some addon)
    (hequal : addon.equal = some equal) (hcompare : addon.compare = some compare)
    (hneedle : (needle values).isNull = false) {c : Value} (hc : c ∈ cs)
      (hnull : c.isNull = false) :
    m.equal.invoke [needle values, c] =
      .ok (Sql.ofBool (equal m.needleType.parameters (needle values) c)) := by
  rw [hm]
  exact Sql.equality_invoke haddon (htyped.validType hcs haddon) hlawful hadapters hequal hcompare
    (fun t ht => ⟨haffinity' t ht, scalar_ne_any (haffinity t ht)⟩)
    (htyped.holds hcs haddon List.mem_cons_self hneedle)
    (htyped.holds hcs haddon (List.mem_cons_of_mem _ hc) hnull)

theorem Membership.OneType.decides (h : m.OneType registry affinity) :
    Decides m.equal (needle values) cs := by
  obtain ⟨addon, haddon, hequal, hcompare⟩ := h.comparable
  obtain ⟨equal, hequal⟩ := Option.isSome_iff_exists.mp hequal
  obtain ⟨compare, hcompare⟩ := Option.isSome_iff_exists.mp hcompare
  intro c hc hneedle hnull
  exact ⟨_, Membership.OneType.invoke hlawful hadapters haffinity hm htyped hcs h.affinity haddon
    hequal hcompare hneedle hc hnull⟩

theorem Membership.testRight : m.TestRight values cs := by
  intro contains hcontains hneedle
  have hfactory : m.equal.prepareMembership = some (Sql.membershipFactory registry affinity) := by
    rw [hm]
    cases affinity <;> rfl
  rw [MembershipLookup.prepare, hfactory] at hcontains
  obtain ⟨addon, hash, equal, compare, haddon, hhash, hequal, hcompare, haffinity', -⟩ :=
    Sql.membershipFactory_eq_some hcontains
  have hmem : ∀ {c}, c ∈ cs.filter (fun v => !v.isNull) ↔ c ∈ cs ∧ c.isNull = false := by
    simp [List.mem_filter]
  rw [Sql.membershipFactory_contains haddon (htyped.validType hcs haddon) hlawful hequal hcontains
    (fun c hc => (htyped.holds hcs haddon (List.mem_cons_of_mem _ (hmem.mp hc).1)
      (hmem.mp hc).2).accepts)
    (htyped.holds hcs haddon List.mem_cons_self hneedle).accepts, Bool.eq_iff_iff,
    List.any_eq_true, List.any_eq_true]
  refine exists_congr fun c => and_congr_right fun hc => ?_
  rw [equates_ofBool (Membership.OneType.invoke hlawful hadapters haffinity hm htyped hcs haffinity'
    haddon hequal hcompare hneedle (hmem.mp hc).1 (hmem.mp hc).2)]

end

end

/-- `x IN (1, …, 9, NULL)` with the affinity of integers: nine keys are a hash
set. -/
def amongNine : Membership where
  equal := Sql.equality scalarRegistry (fun _ => none) (some integerType)
  truth := integerAddon
  needleType := integerType
  sameType := true
  source := .literals [.integer 1, .integer 2, .integer 3, .integer 4, .integer 5, .integer 6,
    .integer 7, .integer 8, .integer 9, .null integerType]
  literals_sameType _ _ := rfl

end CoreSql
