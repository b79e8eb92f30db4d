/-
  RichText/Font/Cascade.lean
  ==========================
  **Finding a font for a number under which none is registered.**

  Each role has siblings, tried in order, and at most one next role, from which
  the search starts afresh.  A number without a role, and a role without a next
  one, lead to the default font.
-/
import RichText.Font.Role

namespace RichText.Cascade

open FontRole

def headings : List FontRole := [h1, h2, h3, h4]

/-- The roles that may stand in for a role without their own replacements. -/
def siblings : FontRole → List FontRole
  | small => [info]
  | info => [small]
  | h1 | h2 | h3 | h4 => headings
  | boldItalic => [bold]
  | fixedWidthBold | fixedWidthItalic => [fixedWidth]
  | _ => []

/-- The role from which the search goes on when no sibling is there. -/
def next? : FontRole → Option FontRole
  | h1 | h2 => some larger
  | h3 | h4 => some bold
  | boldItalic => some italic
  | boldScript | smallScript => some script
  | script => some small
  | fixedWidthBold => some bold
  | fixedWidthItalic => some italic
  | _ => none

/-- A bound on the roles that the search can still pass through. -/
def rank : FontRole → Nat
  | boldScript | smallScript => 2
  | h1 | h2 | h3 | h4 | boldItalic | script | fixedWidthBold | fixedWidthItalic => 1
  | _ => 0

theorem rank_lt_of_next? {r s : FontRole} (h : next? r = some s) : rank s < rank r := by
  revert h
  cases r <;> intro h <;> cases h <;> decide

/-- The font for a role: its own, a sibling's, or that of the next role. -/
def resolveRole (registered : Nat → Bool) (fallback : Nat) (role : FontRole) : Nat :=
  if registered role.id then role.id
  else
    match (siblings role).find? (registered ·.id) with
    | some sibling => sibling.id
    | none =>
      match _h : next? role with
      | some next => resolveRole registered fallback next
      | none => fallback
termination_by rank role
decreasing_by exact rank_lt_of_next? _h

/-- The font for a number. -/
def resolve (registered : Nat → Bool) (fallback : Nat) (id : Nat) : Nat :=
  if registered id then id
  else
    match ofId? id with
    | some role => resolveRole registered fallback role
    | none => fallback

/-- The role that the font of a number takes in sub- and superscripts. -/
def scriptRole (id : Nat) : FontRole :=
  match ofId? id with
  | some info | some small | some script | some boldScript | some smallScript => smallScript
  | some bold | some boldItalic | some h3 | some h4 => boldScript
  | some larger => normal
  | some h1 | some h2 => bold
  | _ => script

/-- A registered number is its own font. -/
theorem resolve_of_registered {registered : Nat → Bool} {id : Nat} (h : registered id = true)
    (fallback : Nat) : resolve registered fallback id = id := by
  simp [resolve, h]

/-- The search over roles ends at a registered font or at the fallback. -/
theorem resolveRole_registered (registered : Nat → Bool) (fallback : Nat) (role : FontRole) :
    registered (resolveRole registered fallback role) = true ∨
      resolveRole registered fallback role = fallback := by
  fun_induction resolveRole registered fallback role with
  | case1 role h => exact Or.inl h
  | case2 role _ sibling h =>
    exact Or.inl (by simpa using List.find?_some h)
  | case3 role _ _ next h ih => exact ih
  | case4 role _ _ h => exact Or.inr rfl

/-- The search ends at a registered font or at the fallback. -/
theorem resolve_registered (registered : Nat → Bool) (fallback id : Nat) :
    registered (resolve registered fallback id) = true ∨
      resolve registered fallback id = fallback := by
  unfold resolve
  split
  · next h => exact Or.inl h
  · split
    · exact resolveRole_registered registered fallback _
    · exact Or.inr rfl

end RichText.Cascade
