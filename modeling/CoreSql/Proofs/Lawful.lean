import CoreSql.Data.Scalars

/-!
# Lawful add-ons

The engine trusts what an add-on says about equality, order and hash. The
contract is the one the extension documentation states: equality is an
equivalence, comparison a total order whose zero is equality, equal values
hash alike, and an add-on that claims native integer operations means the
payload. All of it only on values the add-on itself accepts.

From the add-ons' comparisons come the orders the indexes sort by: one
column with NULL first and a direction, several columns, and locations to
break ties. Each is a `ThreeWay` comparison on the cells that belong there.

The bundled scalar types keep the contract.
-/

namespace CoreSql

variable {κ : Type} {x y : κ}

/-- The non-NULL cells an add-on accepts for a type. -/
def TypeAddon.Accepts (addon : TypeAddon) (type : SqlType) (v : Value) : Prop :=
  v.isNull = false ∧ holdsLayout addon type v = true ∧
    addon.validateValue type.parameters v = .ok ()

/-- The contract of an add-on, at one type it is registered for. -/
structure TypeAddon.Lawful (addon : TypeAddon) (type : SqlType) : Prop where
  equal_refl : ∀ {equal a}, addon.equal = some equal → addon.Accepts type a →
    equal type.parameters a a = true
  equal_symm : ∀ {equal a b}, addon.equal = some equal → addon.Accepts type a →
    addon.Accepts type b → equal type.parameters a b = true → equal type.parameters b a = true
  equal_trans : ∀ {equal a b c}, addon.equal = some equal → addon.Accepts type a →
    addon.Accepts type b → addon.Accepts type c → equal type.parameters a b = true →
    equal type.parameters b c = true → equal type.parameters a c = true
  compare : ∀ {compare}, addon.compare = some compare →
    ThreeWay (addon.Accepts type) (compare type.parameters)
  compare_equal : ∀ {compare equal a b}, addon.compare = some compare →
    addon.equal = some equal → addon.Accepts type a → addon.Accepts type b →
    (compare type.parameters a b = 0 ↔ equal type.parameters a b = true)
  hash_equal : ∀ {hash equal a b}, addon.hash = some hash → addon.equal = some equal →
    addon.Accepts type a → addon.Accepts type b → equal type.parameters a b = true →
    hash type.parameters a = hash type.parameters b
  native_equal : ∀ {equal a b}, addon.nativeI64 = true → addon.equal = some equal →
    addon.Accepts type a → addon.Accepts type b →
    (equal type.parameters a b = true ↔ payload a = payload b)
  native_compare : ∀ {compare a b}, addon.nativeI64 = true → addon.compare = some compare →
    addon.Accepts type a → addon.Accepts type b →
    (compare type.parameters a b ≤ 0 ↔ payload a ≤ payload b)

/-- Every registered add-on keeps the contract at every type it allows. -/
def Registry.Lawful (registry : Registry) : Prop :=
  ∀ type addon, registry.types type.id type.version = some addon →
    addon.validateType type.parameters = .ok () → addon.Lawful type

/-- A cell that may stand in a column of the type: accepted, or its NULL. -/
def Registry.Cell (registry : Registry) (type : SqlType) (v : Value) : Prop :=
  registry.validate v type = .ok ()

section

variable {registry : Registry} {type : SqlType} {addon : TypeAddon} {v : Value}

theorem addon_eq_ok :
    registry.addon type = .ok addon ↔ registry.types type.id type.version = some addon := by
  rw [Registry.addon]
  cases registry.types type.id type.version with
  | none => simp
  | some a => simp

theorem checkValue_eq_ok : checkValue addon type v = .ok () ↔
    (v.isNull = true ∧ v.typeOf = type) ∨ addon.Accepts type v := by
  rw [checkValue, TypeAddon.Accepts]
  cases hnull : v.isNull with
  | true =>
    by_cases htype : v.typeOf = type <;> simp [htype, fail]
  | false =>
    by_cases hlayout : holdsLayout addon type v = true <;> simp [hlayout]

theorem cell_iff : registry.Cell type v ↔ ∃ addon,
    registry.types type.id type.version = some addon ∧ addon.validateType type.parameters = .ok () ∧
      ((v.isNull = true ∧ v.typeOf = type) ∨ addon.Accepts type v) := by
  rw [Registry.Cell, Registry.validate]
  simp only [Fallible.bind_eq_ok, addon_eq_ok, checkValue_eq_ok]
  constructor
  · rintro ⟨addon, haddon, ⟨⟩, htype, hv⟩
    exact ⟨addon, haddon, htype, hv⟩
  · rintro ⟨addon, haddon, htype, hv⟩
    exact ⟨addon, haddon, (), htype, hv⟩

theorem Registry.Cell.accepts (h : registry.Cell type v) (hnull : v.isNull = false)
    (haddon : registry.types type.id type.version = some addon) : addon.Accepts type v := by
  obtain ⟨addon', haddon', -, hv⟩ := cell_iff.mp h
  rw [haddon] at haddon'
  cases haddon'
  rcases hv with ⟨hn, -⟩ | hv
  · rw [hnull] at hn
    cases hn
  · exact hv

end

/-! ## The orders of an ordered index -/

section

variable {registry : Registry} {type : SqlType} {o : KeyOrder} {p q : RowLocation}

/-- A key column's order is the one of a type's add-on. -/
def KeyOrder.Of (registry : Registry) (type : SqlType) (o : KeyOrder) : Prop :=
  ∃ addon compare, registry.types type.id type.version = some addon ∧
    addon.validateType type.parameters = .ok () ∧ addon.compare = some compare ∧
    o.compare = compare type.parameters

theorem KeyOrder.Of.nullsFirst (hlawful : registry.Lawful)
    (h : o.Of registry type) : ThreeWay (registry.Cell type)
      (fun a b => if a.isNull || b.isNull then compareNulls a b else o.compare a b) := by
  obtain ⟨addon, compare, haddon, htype, hcompare, ho⟩ := h
  have hlaw : ThreeWay (addon.Accepts type) o.compare :=
    ho ▸ (hlawful type addon haddon htype).compare hcompare
  constructor
  · intro a b ha hb
    cases hna : a.isNull <;> cases hnb : b.isNull <;>
      simp only [compareNulls, hna, hnb, Bool.or_false, Bool.or_true, Bool.false_eq_true,
        if_true, if_false]
    · exact hlaw.swap (ha.accepts hna haddon) (hb.accepts hnb haddon)
    all_goals decide
  · intro a b c ha hb hc
    cases hna : a.isNull <;> cases hnb : b.isNull <;> cases hnc : c.isNull <;>
      simp only [compareNulls, hna, hnb, hnc, Bool.or_false, Bool.or_true, Bool.false_eq_true,
        if_true, if_false]
    · exact hlaw.trans (ha.accepts hna haddon) (hb.accepts hnb haddon) (hc.accepts hnc haddon)
    all_goals (try decide)
    all_goals omega

theorem KeyOrder.Of.threeWay (hlawful : registry.Lawful)
    (h : o.Of registry type) : ThreeWay (registry.Cell type) o.cells := by
  have hbase := h.nullsFirst hlawful
  cases hd : o.descending with
  | false =>
    have heq : o.cells = fun a b => Int.sign
        (if a.isNull || b.isNull then compareNulls a b else o.compare a b) := by
      funext a b
      simp [KeyOrder.cells, hd]
    rw [heq]
    exact hbase.sign
  | true =>
    have heq : o.cells = fun a b => -Int.sign
        (if a.isNull || b.isNull then compareNulls a b else o.compare a b) := by
      funext a b
      simp [KeyOrder.cells, hd]
    rw [heq]
    exact hbase.sign.reverse

theorem compareKeys_cons (o : KeyOrder) (os : List KeyOrder) (x y : Value) (a b : Row) :
    compareKeys (o :: os) (x :: a) (y :: b) =
      ThreeWay.both o.cells (compareKeys os) (x, a) (y, b) := by
  simp only [compareKeys, ThreeWay.both]
  by_cases h : o.cells x y = 0 <;> simp [h]

theorem compareKeys_threeWay (hlawful : registry.Lawful) {types : List SqlType}
    {orders : List KeyOrder} (h : List.Forall₂ (fun type o => o.Of registry type) types orders) :
    ThreeWay (List.Forall₂ registry.Cell types) (compareKeys orders) := by
  induction h with
  | nil =>
    have hzero : ∀ a b, compareKeys [] a b = 0 := fun a b => by cases a <;> cases b <;> rfl
    constructor
    · intro a b _ _
      simp [hzero]
    · intro a b c _ _ _ _ _
      simp [hzero]
  | cons ho _ ih =>
    have hboth := (ho.threeWay hlawful).both_lawful ih
    constructor
    · intro a b ha hb
      cases ha with
      | cons hx hxs =>
        cases hb with
        | cons hy hys =>
          rw [compareKeys_cons, compareKeys_cons]
          exact hboth.swap ⟨hx, hxs⟩ ⟨hy, hys⟩
    · intro a b c ha hb hc
      cases ha with
      | cons hx hxs =>
        cases hb with
        | cons hy hys =>
          cases hc with
          | cons hz hzs =>
            rw [compareKeys_cons, compareKeys_cons, compareKeys_cons]
            exact hboth.trans ⟨hx, hxs⟩ ⟨hy, hys⟩ ⟨hz, hzs⟩

theorem compareLocations_eq_zero : compareLocations p q = 0 ↔ p = q := by
  rw [compareLocations]
  rcases lt_trichotomy p q with h | h | h
  · simp [h, not_lt_of_gt h, ne_of_lt h]
  · simp [h]
  · simp [h, (ne_of_lt h).symm]

theorem compareLocations_neg : compareLocations p q < 0 ↔ p < q := by
  rw [compareLocations]
  rcases lt_trichotomy p q with h | h | h
  · simp [h, not_lt_of_gt h]
  · simp [h]
  · simp [h, not_lt_of_gt h]

theorem compareLocations_threeWay : ThreeWay (fun _ => True) compareLocations where
  swap {a b} _ _ := by
    rw [compareLocations_neg, compareLocations]
    rcases lt_trichotomy a b with h | h | h
    · simp [h, not_lt_of_gt h]
    · simp [h]
    · simp [h]
  trans {a b c} _ _ _ hab hbc := by
    have hle : ∀ {p q : RowLocation}, compareLocations p q ≤ 0 ↔ p ≤ q := by
      intro p q
      rw [compareLocations]
      rcases lt_trichotomy p q with h | h | h
      · simp [not_lt_of_gt h, h, le_of_lt h]
      · simp [h]
      · simp [h]
    exact hle.mpr (le_trans (hle.mp hab) (hle.mp hbc))

end

/-! ## The bundled scalars -/

theorem threeWay_le_zero [LinearOrder κ] : threeWay x y ≤ 0 ↔ x ≤ y := by
  rw [threeWay]
  rcases lt_trichotomy x y with h | h | h
  · simp [h, not_lt_of_gt h, le_of_lt h]
  · simp [h]
  · simp [h, not_lt_of_gt h]

theorem threeWay_lawful [LinearOrder κ] {P : Value → Prop} (get : Value → κ) :
    ThreeWay P fun a b => threeWay (get a) (get b) where
  swap {a b} _ _ := by
    rw [threeWay, threeWay]
    rcases lt_trichotomy (get a) (get b) with h | h | h
    · simp [h, not_lt_of_gt h]
    · simp [h]
    · simp [h, not_lt_of_gt h]
  trans {a b c} _ _ _ hab hbc :=
    threeWay_le_zero.mpr (le_trans (threeWay_le_zero.mp hab) (threeWay_le_zero.mp hbc))

theorem threeWay_eq_zero [LinearOrder κ] : threeWay x y = 0 ↔ x = y := by
  rw [threeWay]
  rcases lt_trichotomy x y with h | h | h
  · simp [h, not_lt_of_gt h, ne_of_lt h]
  · simp [h]
  · simp [h, not_lt_of_gt h, (ne_of_lt h).symm]

theorem threeWay_comm [LinearOrder κ] (x y : κ) : threeWay x y = -threeWay y x := by
  rw [threeWay, threeWay]
  omega

theorem threeWay_of_lt [LinearOrder κ] (h : x < y) : threeWay x y = -1 := by
  rw [threeWay, if_neg h.not_gt, if_pos h]
  rfl

theorem threeWay_of_gt [LinearOrder κ] (h : y < x) : threeWay x y = 1 := by
  rw [threeWay, if_pos h, if_neg h.not_gt]
  rfl

theorem threeWay_self [LinearOrder κ] (x : κ) : threeWay x x = 0 := by
  rw [threeWay, if_neg (lt_irrefl x)]
  rfl

/-- A scalar add-on is lawful when its native payload, if it has one, is
what its operators compare. -/
theorem scalar_lawful [LinearOrder κ] (layout : Layout) (get : Value → κ)
    (validate : Value → Except Error Unit) (hash : κ → Nat) (type : SqlType)
    (hnative : layout = .i64 → ∀ a b, (scalar layout get validate hash).Accepts type a →
      (scalar layout get validate hash).Accepts type b → (get a ≤ get b ↔ payload a ≤ payload b)) :
    (scalar layout get validate hash).Lawful type where
  equal_refl h _ := by cases h; simp
  equal_symm h _ _ hab := by cases h; simpa using (of_decide_eq_true hab).symm
  equal_trans h _ _ _ hab hbc := by
    cases h
    simpa using (of_decide_eq_true hab).trans (of_decide_eq_true hbc)
  compare h := by
    cases h
    exact threeWay_lawful get
  compare_equal h h' _ _ := by
    cases h
    cases h'
    simp [threeWay_eq_zero]
  hash_equal h h' _ _ hab := by
    cases h
    cases h'
    exact congrArg hash (of_decide_eq_true hab)
  native_equal h h' ha hb := by
    cases h'
    have hlayout : layout = .i64 := by
      simpa [TypeAddon.nativeI64, scalar] using h
    rw [decide_eq_true_eq, le_antisymm_iff, le_antisymm_iff, hnative hlayout _ _ ha hb,
      hnative hlayout _ _ hb ha]
  native_compare h h' ha hb := by
    cases h'
    have hlayout : layout = .i64 := by
      simpa [TypeAddon.nativeI64, scalar] using h
    rw [threeWay_le_zero]
    exact hnative hlayout _ _ ha hb

theorem scalarRegistry_lawful : scalarRegistry.Lawful := by
  intro type addon haddon htype
  simp only [scalarRegistry] at haddon
  split at haddon
  · cases haddon
  split at haddon
  · next hversion hid =>
      cases haddon
      have hparameters : type.parameters = [] := by
        by_contra hne
        simp [integerAddon, scalar, hne, fail] at htype
      obtain rfl : type = integerType := by
        obtain ⟨id, version, parameters⟩ := type
        simp only [ne_eq, Decidable.not_not] at hversion
        simp_all [integerType]
      refine scalar_lawful _ _ _ _ _ fun _ a b ha hb => ?_
      have hinteger : ∀ v, integerAddon.Accepts integerType v → getInteger v = payload v := by
        rintro v ⟨-, hlayout, -⟩
        cases v <;> simp_all [holdsLayout, integerAddon, scalar, getInteger, payload,
          Value.i64Payload]
      rw [hinteger a ha, hinteger b hb]
  · split at haddon
    · cases haddon
      exact scalar_lawful _ _ _ _ _ fun h => by cases h
    · split at haddon
      · cases haddon
        exact scalar_lawful _ _ _ _ _ fun h => by cases h
      · cases haddon

theorem integer_cell (i : Int64) : scalarRegistry.Cell integerType (.integer i) := by
  refine cell_iff.mpr ⟨integerAddon, ?_, ?_, .inr ⟨rfl, ?_, rfl⟩⟩
  · simp [scalarRegistry, integerType]
  · rfl
  · simp [holdsLayout, integerAddon, scalar]

end CoreSql
