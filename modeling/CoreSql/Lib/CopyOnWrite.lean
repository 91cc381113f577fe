import Mathlib.Data.List.Basic
import Mathlib.Logic.Function.Basic

/-!
# Copy on write

Cells that are shared through counted pointers. An owner that wants to change
a cell first asks for one of its own, `writable`: a cell that nobody else
points to is taken as it is, any other is copied, and where there is no
pointer yet an empty cell is made. Then the cell is changed in place.

`Store` has the cells and knows nothing of pointers; how many there are to a
cell is for the caller to say. `Arrays` is a store with several arrays of
pointers into it, whose counts are those of the pointers there are. What a
change through one array does to what is seen through all of them is
`view_write`: it is seen at one place, and nowhere else.
-/

namespace CopyOnWrite

variable {β α : Type}

/-! ## Cells -/

/-- Cells by address. Addresses from `next` on are not in use. -/
structure Store (β : Type) where
  cells : Nat → β
  next : Nat := 0

namespace Store

variable {empty b : β} {s : Store β} {pointer : Option Nat} {uses a : Nat}

def alloc (s : Store β) (b : β) : Store β × Nat :=
  ({ cells := Function.update s.cells s.next b, next := s.next + 1 }, s.next)

def set (s : Store β) (a : Nat) (b : β) : Store β := { s with cells := Function.update s.cells a b }

/-- What a pointer shows; a null pointer shows an empty cell. -/
def read (empty : β) (s : Store β) : Option Nat → β
  | none => empty
  | some a => s.cells a

/-- A cell to write to, for the owner of a pointer to a cell with that many uses. -/
def writable (empty : β) (s : Store β) (pointer : Option Nat) (uses : Nat) : Store β × Nat :=
  match pointer with
  | none => s.alloc empty
  | some a => if uses = 1 then (s, a) else s.alloc (s.cells a)

theorem writable_address (empty : β) (uses : Nat) (h : ∀ a, pointer = some a → a < s.next) :
    (s.writable empty pointer uses).2 < (s.writable empty pointer uses).1.next ∧
      s.next ≤ (s.writable empty pointer uses).1.next ∧
      ((s.writable empty pointer uses).2 = s.next ∨
        pointer = some (s.writable empty pointer uses).2 ∧ uses = 1) := by
  cases pointer with
  | none => exact ⟨Nat.lt_succ_self _, Nat.le_succ _, .inl rfl⟩
  | some a =>
    rw [writable]
    split
    · next huses => exact ⟨h a rfl, Nat.le_refl _, .inr ⟨rfl, huses⟩⟩
    · exact ⟨Nat.lt_succ_self _, Nat.le_succ _, .inl rfl⟩

theorem writable_content :
    (s.writable empty pointer uses).1.cells (s.writable empty pointer uses).2 =
      s.read empty pointer := by
  cases pointer with
  | none => exact Function.update_self _ _ _
  | some a =>
    rw [writable]
    split
    · rfl
    · exact Function.update_self _ _ _

theorem writable_frame (ha : a < s.next) :
    (s.writable empty pointer uses).1.cells a = s.cells a := by
  have halloc : ∀ b, (s.alloc b).1.cells a = s.cells a := fun b =>
    Function.update_of_ne (Nat.ne_of_lt ha) _ _
  cases pointer with
  | none => exact halloc _
  | some c =>
    rw [writable]
    split
    · rfl
    · exact halloc _

end Store

/-! ## Counting -/

/-- Where one member of a list has a property, any two that have it are the same. -/
theorem eq_of_countP_one {p : α → Bool} {l : List α} (h : l.countP p = 1) {x y : α}
    (hx : x ∈ l) (hy : y ∈ l) (hpx : p x = true) (hpy : p y = true) : x = y := by
  rw [List.countP_eq_length_filter] at h
  obtain ⟨z, hz⟩ := List.length_eq_one_iff.mp h
  have hmem : ∀ {w}, w ∈ l → p w = true → w = z := fun hw hpw =>
    List.mem_singleton.mp (hz ▸ List.mem_filter.mpr ⟨hw, hpw⟩)
  rw [hmem hx hpx, hmem hy hpy]

/-! ## Arrays of pointers -/

/-- Some arrays of pointers to the cells of a store. -/
structure Arrays (β : Type) where
  store : Store β
  arrays : List (Nat → Option Nat)

namespace Arrays

variable {empty b : β} {width : Nat} {c : Arrays β} {i n j m a : Nat}

def pointer (c : Arrays β) (i n : Nat) : Option Nat := c.arrays[i]?.bind fun array => array n

/-- The places of the arrays, which are `width` wide. -/
def places (width : Nat) (c : Arrays β) : List (Nat × Nat) :=
  (List.range c.arrays.length).flatMap fun i => (List.range width).map fun n => (i, n)

/-- `use_count`: how many pointers there are to the cell. -/
def uses (width : Nat) (c : Arrays β) (a : Nat) : Nat :=
  (c.places width).countP fun p => c.pointer p.1 p.2 == some a

def view (empty : β) (c : Arrays β) (i n : Nat) : β := c.store.read empty (c.pointer i n)

/-- A cell of its own for a place, which points to it then. -/
def writable (empty : β) (width : Nat) (c : Arrays β) (i n : Nat) : Arrays β × Nat :=
  let p := c.pointer i n
  let (store, a) := c.store.writable empty p (c.uses width (p.getD 0))
  ({ store, arrays := c.arrays.modify i fun array => Function.update array n (some a) }, a)

def set (c : Arrays β) (a : Nat) (b : β) : Arrays β := { c with store := c.store.set a b }

/-- Another array, with the pointers of one there is. -/
def clone (c : Arrays β) (i : Nat) : Arrays β :=
  { c with arrays := c.arrays ++ c.arrays[i]?.toList }

/-- Pointers are to cells in use, and within the width of the arrays. -/
def Valid (width : Nat) (c : Arrays β) : Prop :=
  ∀ i n a, c.pointer i n = some a → a < c.store.next ∧ n < width

theorem pointer_lt_length (h : c.pointer i n = some a) : i < c.arrays.length := by
  by_contra hi
  rw [pointer, List.getElem?_eq_none (by omega)] at h
  cases h

theorem mem_places : (i, n) ∈ c.places width ↔ i < c.arrays.length ∧ n < width := by
  simp [places]

theorem Valid.place_unique (h : c.Valid width) (huses : c.uses width a = 1)
    (hi : c.pointer i n = some a) (hj : c.pointer j m = some a) : (j, m) = (i, n) :=
  eq_of_countP_one huses (mem_places.mpr ⟨pointer_lt_length hj, (h j m a hj).2⟩)
    (mem_places.mpr ⟨pointer_lt_length hi, (h i n a hi).2⟩) (by simp [hj]) (by simp [hi])

section Writable

variable (empty)

theorem length_writable (width : Nat) (c : Arrays β) (i n : Nat) :
    (c.writable empty width i n).1.arrays.length = c.arrays.length :=
  List.length_modify ..

theorem pointer_writable (width : Nat) (hi : i < c.arrays.length) (n j m : Nat) :
    (c.writable empty width i n).1.pointer j m =
      if (j, m) = (i, n) then some (c.writable empty width i n).2 else c.pointer j m := by
  generalize ha : (c.writable empty width i n).2 = a
  have harrays : (c.writable empty width i n).1.arrays =
      c.arrays.modify i fun array => Function.update array n (some a) := by
    rw [← ha]
    rfl
  rw [pointer, harrays, List.getElem?_modify, pointer]
  by_cases hj : i = j
  · subst hj
    rw [List.getElem?_eq_getElem hi]
    by_cases hm : m = n
    · subst hm
      simp
    · simp [hm]
  · rw [if_neg (by simp [Ne.symm hj])]
    cases c.arrays[j]? <;> simp [hj]

theorem content_writable (width : Nat) (c : Arrays β) (i n : Nat) :
    (c.writable empty width i n).1.store.cells (c.writable empty width i n).2 = c.view empty i n :=
  Store.writable_content

variable (hvalid : c.Valid width) (hi : i < c.arrays.length)
include hvalid hi

theorem Valid.writable (hn : n < width) : (c.writable empty width i n).1.Valid width := by
  have haddress := Store.writable_address empty (c.uses width ((c.pointer i n).getD 0))
    fun a ha => (hvalid i n a ha).1
  intro j m a ha
  rw [pointer_writable empty width hi] at ha
  split at ha
  · next hjm =>
      cases ha
      cases hjm
      exact ⟨haddress.1, hn⟩
  · obtain ⟨hlt, hm⟩ := hvalid j m a ha
    exact ⟨Nat.lt_of_lt_of_le hlt haddress.2.1, hm⟩

theorem Valid.writable_alone
    (hj : (c.writable empty width i n).1.pointer j m = some (c.writable empty width i n).2) :
    (j, m) = (i, n) := by
  have haddress := Store.writable_address empty (c.uses width ((c.pointer i n).getD 0))
    fun a ha => (hvalid i n a ha).1
  rw [pointer_writable empty width hi] at hj
  split at hj
  · next hjm => exact hjm
  · obtain ⟨-, -, hnew | ⟨hold, huses⟩⟩ := haddress
    · have hlt := (hvalid j m _ hj).1
      exact absurd hnew (Nat.ne_of_lt hlt)
    · rw [hold, Option.getD_some] at huses
      exact hvalid.place_unique huses hold hj

theorem Valid.view_writable (j m : Nat) :
    (c.writable empty width i n).1.view empty j m = c.view empty j m := by
  rw [view, view, pointer_writable empty width hi]
  split
  · next hjm =>
      cases hjm
      exact Store.writable_content
  · cases hp : c.pointer j m with
    | none => rfl
    | some a => exact Store.writable_frame (hvalid j m a hp).1

/-- What is written to the cell is seen at the place, and nowhere else. -/
theorem Valid.view_write (b : β) (j m : Nat) :
    ((c.writable empty width i n).1.set (c.writable empty width i n).2 b).view empty j m =
      if (j, m) = (i, n) then b else c.view empty j m := by
  have hpointer := pointer_writable empty width hi n
  rw [← hvalid.view_writable empty hi]
  show ((c.writable empty width i n).1.store.set _ b).read empty _ = _
  by_cases hjm : (j, m) = (i, n)
  · rw [if_pos hjm]
    have hself : ((c.writable empty width i n).1.set (c.writable empty width i n).2 b).pointer j m =
        some (c.writable empty width i n).2 := (hpointer j m).trans (if_pos hjm)
    rw [hself]
    exact Function.update_self _ _ _
  · rw [if_neg hjm]
    have hsame : ((c.writable empty width i n).1.set (c.writable empty width i n).2 b).pointer j m =
        (c.writable empty width i n).1.pointer j m := rfl
    rw [hsame, view]
    cases hp : (c.writable empty width i n).1.pointer j m with
    | none => rfl
    | some a =>
      refine Function.update_of_ne (fun ha => hjm ?_) _ _
      exact hvalid.writable_alone empty hi (hp.trans (congrArg some ha))

end Writable

theorem Valid.set (h : c.Valid width) (a : Nat) (b : β) : (c.set a b).Valid width := h

/-! Cloning -/

theorem length_clone (hi : i < c.arrays.length) :
    (c.clone i).arrays.length = c.arrays.length + 1 := by
  simp [clone, List.getElem?_eq_getElem hi]

/-- A new array has the pointers it was copied from; the others are as they were. -/
theorem pointer_clone (hi : i < c.arrays.length) :
    (c.clone i).pointer j n = if j = c.arrays.length then c.pointer i n else c.pointer j n := by
  rw [pointer, clone, List.getElem?_eq_getElem hi]
  show ((c.arrays ++ [c.arrays[i]])[j]?.bind _) = _
  split
  · next hj =>
      subst hj
      rw [List.getElem?_concat_length, pointer, List.getElem?_eq_getElem hi]
  · next hj =>
      rw [pointer]
      by_cases hlt : j < c.arrays.length
      · rw [List.getElem?_append_left hlt]
      · rw [List.getElem?_eq_none (by simp; omega), List.getElem?_eq_none (by omega)]

theorem view_clone (empty : β) (hi : i < c.arrays.length) (j n : Nat) : (c.clone i).view empty j n =
      if j = c.arrays.length then c.view empty i n else c.view empty j n := by
  rw [view, pointer_clone hi]
  split <;> rfl

theorem Valid.clone (h : c.Valid width) (hi : i < c.arrays.length) : (c.clone i).Valid width := by
  intro j n a ha
  rw [pointer_clone hi] at ha
  split at ha
  · exact h i n a ha
  · exact h j n a ha

end Arrays

end CopyOnWrite
