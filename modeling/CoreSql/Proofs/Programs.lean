import CoreSql.Mutation.Calls

/-!
# Running programs, one operation at a time

The equations a proof about a mutation steps through: how a run of a
sequence is the run of its parts, and how errors end it.

The staged map stays sorted whatever a program does to it; this is the one
invariant that needs to know nothing about the program.
-/

namespace CoreSql

open Prog

variable {α β : Type} {w : Work}

namespace Prog

variable {p : Prog α} {f : α → Prog β} {w w' : Work}

@[simp] theorem run_ret (a : α) (w : Work) : (ret a).run w = (.ok a, w) := rfl

@[simp] theorem run_pure (a : α) (w : Work) : (pure a : Prog α).run w = (.ok a, w) := rfl

@[simp] theorem run_throw (e : Error) (w : Work) : (throw e : Prog α).run w = (.error e, w) := rfl

@[simp] theorem run_fail (c : ErrorCode) (m : String) (w : Work) :
    (fail c m : Prog α).run w = (.error ⟨c, lit m⟩, w) := rfl

theorem run_bind' (p : Prog α) (f : α → Prog β) (w : Work) :
    (p.bind f).run w =
      match p.run w with
      | (.ok a, w) => (f a).run w
      | (.error e, w) => (.error e, w) := by
  induction p generalizing w with
  | ret a => rfl
  | throw e => rfl
  | op o k ih =>
    simp only [Prog.bind, run]
    cases hp : o.perform w with
    | mk r w' =>
      cases r with
      | error e => rfl
      | ok r => exact ih r w'

theorem run_bind (p : Prog α) (f : α → Prog β) (w : Work) :
    (p >>= f).run w =
      match p.run w with
      | (.ok a, w) => (f a).run w
      | (.error e, w) => (.error e, w) :=
  run_bind' p f w

theorem run_bind_ok {a : α} (h : p.run w = (.ok a, w')) : (p >>= f).run w = (f a).run w' := by
  rw [run_bind, h]

theorem of_run_bind_ok {b : β} (h : (p >>= f).run w = (.ok b, w')) :
    ∃ a w₁, p.run w = (.ok a, w₁) ∧ (f a).run w₁ = (.ok b, w') := by
  rw [run_bind] at h
  cases hp : p.run w with
  | mk r w₁ =>
    cases r with
    | error e => simp [hp] at h
    | ok a => exact ⟨a, w₁, rfl, by simpa [hp] using h⟩

@[simp] theorem run_lift_ok (a : α) (w : Work) : (lift (.ok a)).run w = (.ok a, w) := rfl

@[simp] theorem run_lift_error (e : Error) (w : Work) :
    (lift (.error e) : Prog α).run w = (.error e, w) := rfl

theorem run_lift (x : Except Error α) (w : Work) : (lift x).run w = (x, w) := by
  cases x <;> rfl

theorem of_run_failIf_ok {b : Bool} {c : ErrorCode} {m : String}
    (h : (failIf b c m).run w = (.ok (), w')) : b = false ∧ w' = w := by
  cases b with
  | true => simp [failIf] at h
  | false => exact ⟨rfl, (congrArg Prod.snd h).symm⟩

end Prog

@[simp] theorem run_readTables (w : Work) : readTables.run w = (.ok w.tables, w) := rfl

/-! ## The map stays sorted -/

theorem Work.sorted_set (h : SortedMap.Sorted w.tables) (t : Table) (p : Place) :
    SortedMap.Sorted (w.set t p).tables := by
  cases p with
  | stored name => exact h.insert
  | held i => exact h

theorem Op.perform_sorted (o : Op) (h : SortedMap.Sorted w.tables) :
    SortedMap.Sorted (o.perform w).2.tables := by
  cases o with
  | tables => exact h
  | table p => exact h
  | detach name => exact h
  | copy p => exact h
  | make s => exact h
  | stage p => exact h
  | setDirty => exact h
  | newEpoch => exact h
  | uninstall name => exact h.erase
  | on p o =>
    simp only [Op.perform]
    split
    · exact h
    · split
      · exact Work.sorted_set h _ p
      · exact h
  | publish p i =>
    simp only [Op.perform]
    split
    · exact Work.sorted_set h _ p
    · exact h
  | install name i =>
    simp only [Op.perform]
    split
    · exact h.insert
    · exact h
  | rename name replacement =>
    simp only [Op.perform]
    split
    · exact h.erase.insert
    · exact h

theorem Prog.run_sorted (p : Prog α) (h : SortedMap.Sorted w.tables) :
    SortedMap.Sorted (p.run w).2.tables := by
  induction p generalizing w with
  | ret a => exact h
  | throw e => exact h
  | op o k ih =>
    have hstep := o.perform_sorted h
    simp only [Prog.run]
    cases hp : o.perform w with
    | mk r w' =>
      rw [hp] at hstep
      cases r with
      | error e => exact hstep
      | ok r => exact ih r hstep

theorem Prog.execute_sorted (p : Prog α) {s : Staged} (h : SortedMap.Sorted s.state.tables) :
    SortedMap.Sorted (p.execute s).2.state.tables :=
  p.run_sorted (w := { staged := s }) h

end CoreSql
