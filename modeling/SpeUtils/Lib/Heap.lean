import Mathlib.Data.List.Basic

namespace heap

/-- A pointer; `none` is the null pointer. -/
abbrev Ptr := Option Nat

/-- Memory for objects of one type. An address is a position, and a freed cell is
empty. -/
abbrev Heap (A : Type) := List (Option A)

variable {A : Type}

/-- Following a pointer fails at the null pointer, at a freed cell and at an address
that was never allocated. -/
def read (cells : Heap A) (p : Ptr) : Option A :=
  p.bind fun address => (cells[address]?).join

def write (cells : Heap A) (p : Ptr) (value : A) : Heap A :=
  match p with
  | none => cells
  | some address => cells.set address (some value)

/-- A new object gets an address that was never used before. -/
def alloc (cells : Heap A) (value : A) : Heap A × Ptr :=
  (cells ++ [some value], some cells.length)

/-- The address stays used up. Freeing the null pointer does nothing. -/
def free (cells : Heap A) (p : Ptr) : Heap A :=
  match p with
  | none => cells
  | some address => cells.set address none

/-- Freeing a pointer of unknown origin. It is defined for the null pointer and for an
object that has not been freed. -/
def release (cells : Heap A) (p : Ptr) : Option (Heap A) :=
  if p = none ∨ (read cells p).isSome then some (free cells p) else none

/-- Following one link of each object from `p` meets objects at exactly these
addresses and then the null pointer. -/
def Follows (cells : Heap A) (link : A → Ptr) : Ptr → List Nat → Prop
  | p, [] => p = none
  | p, address :: path =>
    p = some address ∧ ∃ value, read cells p = some value ∧ Follows cells link (link value) path

section Access

variable {cells : Heap A} {p q : Ptr} {value other : A}

@[simp] theorem read_null (cells : Heap A) : read cells none = none := rfl

theorem lt_length_of_read {address : Nat} (hread : read cells (some address) = some value) :
    address < cells.length := by
  simp only [read, Option.bind_some, Option.join_eq_some_iff] at hread
  exact (List.getElem?_eq_some_iff.mp hread).1

theorem read_write_self (hread : read cells p = some other) : read (write cells p value) p = some value := by
  cases p with
  | none => cases hread
  | some address => simp [read, write, lt_length_of_read hread]

theorem read_write_ne (hne : p ≠ q) : read (write cells q value) p = read cells p := by
  cases q with
  | none => rfl
  | some address =>
    cases p with
    | none => rfl
    | some address' =>
      have haddress : address ≠ address' := fun h => hne (by rw [h])
      simp [read, write, List.getElem?_set_ne haddress]

@[simp] theorem length_write (cells : Heap A) (p : Ptr) (value : A) :
    (write cells p value).length = cells.length := by
  cases p <;> simp [write]

theorem write_write (cells : Heap A) (p : Ptr) (value other : A) :
    write (write cells p value) p other = write cells p other := by
  cases p <;> simp [write]

theorem write_self (hread : read cells p = some value) : write cells p value = cells := by
  cases p with
  | none => rfl
  | some address =>
    simp only [read, Option.bind_some, Option.join_eq_some_iff] at hread
    obtain ⟨hlt, hcell⟩ := List.getElem?_eq_some_iff.mp hread
    rw [write, ← hcell, List.set_getElem_self]

theorem read_append (hread : read cells p = some value) (more : Heap A) : read (cells ++ more) p = some value := by
  cases p with
  | none => cases hread
  | some address =>
    have hlt := lt_length_of_read hread
    simpa [read, List.getElem?_append_left hlt] using hread

@[simp] theorem read_free_self (cells : Heap A) (address : Nat) :
    read (free cells (some address)) (some address) = none := by
  simp only [read, free, Option.bind_some, List.getElem?_set, if_true]
  split <;> rfl

@[simp] theorem length_free (cells : Heap A) (p : Ptr) : (free cells p).length = cells.length := by
  cases p <;> simp [free]

theorem read_free_ne (hne : p ≠ q) : read (free cells q) p = read cells p := by
  cases q with
  | none => rfl
  | some address =>
    cases p with
    | none => rfl
    | some address' =>
      have haddress : address ≠ address' := fun h => hne (by rw [h])
      simp [read, free, List.getElem?_set_ne haddress]

@[simp] theorem read_alloc_self (cells : Heap A) (value : A) :
    read (alloc cells value).1 (some cells.length) = some value := by
  simp [read, alloc]

@[simp] theorem length_alloc (cells : Heap A) (value : A) :
    (alloc cells value).1.length = cells.length + 1 := by
  simp [alloc]

theorem read_alloc_ne (hne : p ≠ some cells.length) : read (alloc cells value).1 p = read cells p := by
  cases p with
  | none => rfl
  | some address =>
    have haddress : address ≠ cells.length := fun h => hne (by rw [h])
    obtain hlt | hge := Nat.lt_or_ge address cells.length
    · simp [read, alloc, List.getElem?_append_left hlt]
    · have hout : (cells ++ [some value]).length ≤ address := by
        rw [List.length_append, List.length_singleton]
        omega
      simp [read, alloc, List.getElem?_eq_none hge, List.getElem?_eq_none hout]

theorem release_eq_some {cells' : Heap A} :
    release cells p = some cells' ↔ (p = none ∨ (read cells p).isSome) ∧ free cells p = cells' := by
  simp only [release, Option.ite_none_right_eq_some, Option.some.injEq]

/-- A pointer and then the newest object can be freed exactly when the pointer could be
before the object was there: the object itself would be freed twice. -/
theorem release_alloc_iff :
    (∃ before after, release (alloc cells value).1 p = some before ∧
      release before (alloc cells value).2 = some after) ↔ p = none ∨ (read cells p).isSome := by
  simp only [release_eq_some]
  constructor
  · rintro ⟨_, _, ⟨hp, rfl⟩, hnew, _⟩
    by_cases hsame : p = some cells.length
    · subst hsame
      simp [alloc] at hnew
    · exact hp.imp_right (read_alloc_ne hsame ▸ ·)
  · intro hp
    have hold : p ≠ some cells.length := by
      rintro rfl
      simp [read] at hp
    refine ⟨_, _, ⟨hp.imp_right (read_alloc_ne hold ▸ ·), rfl⟩, ?_, rfl⟩
    right
    change (read (free (alloc cells value).1 p) (some cells.length)).isSome
    rw [read_free_ne hold.symm, read_alloc_self, Option.isSome_some]

end Access

end heap
