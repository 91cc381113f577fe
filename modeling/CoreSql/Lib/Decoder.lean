import CoreSql.Lib.Fallible

/-!
# Decoders

A decoder reads something off the front of a list of symbols, or refuses.
Two kinds of fact are proved about one. That it accepted something is taken
apart by `bind_eq_ok`, step by step. That it accepts what an encoder wrote is
`Reads`: whatever follows the encoding, the decoder returns the value and
leaves the rest; encodings that are written one after the other are read one
after the other.
-/

def Decoder (ε τ α : Type) : Type := List τ → Except ε (α × List τ)

namespace Decoder

variable {ε τ α β : Type}

def andThen (p : Decoder ε τ α) (f : α → Decoder ε τ β) : Decoder ε τ β := fun l =>
  match p l with
  | .ok (a, rest) => f a rest
  | .error e => .error e

instance : Monad (Decoder ε τ) where
  pure a := fun l => .ok (a, l)
  bind := andThen

def lift (x : Except ε α) : Decoder ε τ α := fun l =>
  match x with
  | .ok a => .ok (a, l)
  | .error e => .error e

def check (c : Prop) [Decidable c] (e : ε) : Decoder ε τ Unit := fun l =>
  if c then .ok ((), l) else .error e

def remaining : Decoder ε τ Nat := fun l => .ok (l.length, l)

/-- The next `n` symbols. -/
def take (e : ε) (n : Nat) : Decoder ε τ (List τ) := fun l =>
  if l.length < n then .error e else .ok (l.take n, l.drop n)

def finish (e : ε) : Decoder ε τ Unit := fun l => if l = [] then .ok ((), l) else .error e

/-- The same thing `n` times. -/
def times (p : Decoder ε τ α) : Nat → Decoder ε τ (List α)
  | 0 => pure []
  | n + 1 => do
      let a ← p
      let others ← times p n
      return a :: others

/-- An accumulating loop of `n` rounds. -/
def loop (f : α → Decoder ε τ α) : Nat → α → Decoder ε τ α
  | 0, a => pure a
  | n + 1, a => do
      let a ← f a
      loop f n a

def run (p : Decoder ε τ α) (l : List τ) : Except ε α := Prod.fst <$> p l

section

variable {p : Decoder ε τ α} {f : α → Decoder ε τ β} {l rest mid front : List τ} {a : α} {b : β}
  {e : ε} {x : Except ε α} {c : Prop} {u : Unit} {n k : Nat} {r : β × List τ}

@[simp] theorem pure_apply (a : α) (l : List τ) : (pure a : Decoder ε τ α) l = .ok (a, l) := rfl

theorem bind_eq_ok :
    (p >>= f) l = .ok (b, rest) ↔ ∃ a mid, p l = .ok (a, mid) ∧ f a mid = .ok (b, rest) := by
  show andThen p f l = _ ↔ _
  rw [andThen]
  cases hp : p l with
  | error e => simp
  | ok x =>
    obtain ⟨a, mid⟩ := x
    simp

theorem bind_of_ok (h : p l = .ok (a, mid)) : (p >>= f) l = f a mid := by
  show andThen p f l = _
  rw [andThen, h]

@[simp] theorem lift_eq_ok : (lift x : Decoder ε τ α) l = .ok (a, rest) ↔ x = .ok a ∧ l = rest := by
  cases x <;> simp [lift]

@[simp] theorem check_eq_ok [Decidable c] :
    (check c e : Decoder ε τ Unit) l = .ok (u, rest) ↔ c ∧ l = rest := by
  by_cases h : c <;> simp [check, h]

@[simp] theorem remaining_eq_ok :
    (remaining : Decoder ε τ Nat) l = .ok (n, rest) ↔ n = l.length ∧ l = rest := by
  simp [remaining, eq_comm]

theorem take_eq_ok : (take e n : Decoder ε τ (List τ)) l = .ok (front, rest) ↔
      front.length = n ∧ l = front ++ rest := by
  rw [take]
  split
  · next hlt =>
      refine ⟨fun h => by simp at h, ?_⟩
      rintro ⟨rfl, rfl⟩
      rw [List.length_append] at hlt
      omega
  · next hge =>
      simp only [Except.ok.injEq, Prod.mk.injEq]
      constructor
      · rintro ⟨rfl, rfl⟩
        exact ⟨by rw [List.length_take]; omega, (List.take_append_drop n l).symm⟩
      · rintro ⟨rfl, rfl⟩
        simp

@[simp] theorem finish_eq_ok :
    (finish e : Decoder ε τ Unit) l = .ok (u, rest) ↔ l = [] ∧ l = rest := by
  by_cases h : l = [] <;> simp [finish, h]

theorem run_eq_ok : p.run l = .ok a ↔ ∃ rest, p l = .ok (a, rest) := by
  rw [run, Fallible.map_eq_ok]
  constructor
  · rintro ⟨⟨a', rest⟩, h, rfl⟩
    exact ⟨rest, h⟩
  · rintro ⟨rest, h⟩
    exact ⟨_, h, rfl⟩

/-! A sequence that starts with a step that reads nothing. -/

theorem lift_bind :
    ((lift x : Decoder ε τ α) >>= f) l = .ok r ↔ ∃ a, x = .ok a ∧ f a l = .ok r := by
  obtain ⟨b, rest⟩ := r
  simp [bind_eq_ok]

theorem check_bind [Decidable c] {f : Unit → Decoder ε τ β} :
    ((check c e : Decoder ε τ Unit) >>= f) l = .ok r ↔ c ∧ f () l = .ok r := by
  obtain ⟨b, rest⟩ := r
  rw [bind_eq_ok]
  constructor
  · rintro ⟨u, mid, hcheck, h⟩
    obtain ⟨hc, rfl⟩ := check_eq_ok.mp hcheck
    exact ⟨hc, h⟩
  · rintro ⟨hc, h⟩
    exact ⟨(), l, check_eq_ok.mpr ⟨hc, rfl⟩, h⟩

theorem remaining_bind {f : Nat → Decoder ε τ β} :
    ((remaining : Decoder ε τ Nat) >>= f) l = .ok r ↔ f l.length l = .ok r := by
  obtain ⟨b, rest⟩ := r
  simp [bind_eq_ok]

theorem loop_invariant {f : α → Decoder ε τ α} {P : α → Prop} {b : α}
    (hstep : ∀ a b l rest, P a → f a l = .ok (b, rest) → P b) (ha : P a)
    (h : loop f n a l = .ok (b, rest)) : P b := by
  induction n generalizing a l with
  | zero =>
    cases h
    exact ha
  | succ n ih =>
    obtain ⟨a', mid, hone, h⟩ := bind_eq_ok.mp h
    exact ih (hstep a a' l mid ha hone) h

theorem loop_rounds {f : α → Decoder ε τ α} {P : Nat → α → Prop} {b : α}
    (hstep : ∀ k a b l rest, P k a → f a l = .ok (b, rest) → P (k + 1) b) (ha : P k a)
    (h : loop f n a l = .ok (b, rest)) : P (k + n) b := by
  induction n generalizing k a l with
  | zero =>
    cases h
    exact ha
  | succ n ih =>
    obtain ⟨a', mid, hone, h⟩ := bind_eq_ok.mp h
    have := ih (hstep k a a' l mid ha hone) h
    rwa [Nat.add_right_comm] at this

end

/-! ## Reading what was written -/

/-- The decoder reads the value off these symbols, whatever follows. -/
def Reads (p : Decoder ε τ α) (written : List τ) (a : α) : Prop :=
  ∀ rest, p (written ++ rest) = .ok (a, rest)

section

variable {p : Decoder ε τ α} {f : α → Decoder ε τ β} {written written' : List τ} {a : α} {b : β}
  {e : ε}

theorem reads_take : Reads (take e written.length : Decoder ε τ (List τ)) written written :=
  fun _ => take_eq_ok.mpr ⟨rfl, rfl⟩

theorem Reads.run (h : Reads p written a) : p.run written = .ok a :=
  run_eq_ok.mpr ⟨[], by simpa using h []⟩

end

end Decoder
