/-
  RichText/Registry.lean
  ======================
  **Tables of numbered entries.**

  Markup names fonts, colors and images by small numbers.  A registry answers
  which entry, if any, stands under a number; the laws below are all that the
  rest of the library uses of it.
-/

namespace RichText

/-- A table of entries by number. -/
structure Registry (α : Type) where
  /-- The entry under a number, if there is one. -/
  get? : Nat → Option α

namespace Registry

variable {α : Type}

def empty : Registry α := ⟨fun _ => none⟩

/-- Puts an entry under a number, in place of what stood there. -/
def insert (t : Registry α) (id : Nat) (entry : α) : Registry α :=
  ⟨fun i => if i = id then some entry else t.get? i⟩

/-- Leaves a number without an entry. -/
def erase (t : Registry α) (id : Nat) : Registry α :=
  ⟨fun i => if i = id then none else t.get? i⟩

def contains (t : Registry α) (id : Nat) : Bool := (t.get? id).isSome

@[simp] theorem get?_empty (i : Nat) : (empty : Registry α).get? i = none := rfl

@[simp] theorem get?_insert (t : Registry α) (id i : Nat) (entry : α) :
    (t.insert id entry).get? i = if i = id then some entry else t.get? i := rfl

@[simp] theorem get?_erase (t : Registry α) (id i : Nat) :
    (t.erase id).get? i = if i = id then none else t.get? i := rfl

theorem contains_iff (t : Registry α) (id : Nat) :
    t.contains id = true ↔ ∃ entry, t.get? id = some entry := by
  simp [contains, Option.isSome_iff_exists]

end Registry

end RichText
