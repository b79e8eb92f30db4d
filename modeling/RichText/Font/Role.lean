/-
  RichText/Font/Role.lean
  =======================
  **The roles a font can play.**

  Fonts are registered under numbers.  The first seventeen numbers have a role,
  which the instructions of the markup and the search for a replacement know by
  name; every other number is free for the host.
-/

namespace RichText

/-- What a font is for. -/
inductive FontRole where
  | normal | bold | h1 | h2 | h3 | h4 | italic | small | boldItalic | info | larger
  | script | boldScript | smallScript | fixedWidth | fixedWidthBold | fixedWidthItalic
deriving DecidableEq, Repr

namespace FontRole

/-- The roles by font number. -/
def all : List FontRole :=
  [normal, bold, h1, h2, h3, h4, italic, small, boldItalic, info, larger,
    script, boldScript, smallScript, fixedWidth, fixedWidthBold, fixedWidthItalic]

/-- The font number of a role. -/
def id : FontRole → Nat
  | normal => 0
  | bold => 1
  | h1 => 2
  | h2 => 3
  | h3 => 4
  | h4 => 5
  | italic => 6
  | small => 7
  | boldItalic => 8
  | info => 9
  | larger => 10
  | script => 11
  | boldScript => 12
  | smallScript => 13
  | fixedWidth => 14
  | fixedWidthBold => 15
  | fixedWidthItalic => 16

/-- The role of a font number, if it has one. -/
def ofId? (n : Nat) : Option FontRole := all[n]?

def name : FontRole → String
  | normal => "Normal"
  | bold => "Bold"
  | h1 => "H1"
  | h2 => "H2"
  | h3 => "H3"
  | h4 => "H4"
  | italic => "Italic"
  | small => "Small"
  | boldItalic => "BoldItalic"
  | info => "Info"
  | larger => "Larger"
  | script => "Script"
  | boldScript => "BoldScript"
  | smallScript => "SmallScript"
  | fixedWidth => "FixedWidth"
  | fixedWidthBold => "FixedWidthBold"
  | fixedWidthItalic => "FixedWidthItalic"

@[simp] theorem ofId?_id (role : FontRole) : ofId? role.id = some role := by
  cases role <;> rfl

end FontRole

/-! ### Headings -/

/-- The four levels of headings. -/
inductive Heading where
  | h1 | h2 | h3 | h4
deriving DecidableEq, Repr

namespace Heading

def level : Heading → Nat
  | h1 => 1
  | h2 => 2
  | h3 => 3
  | h4 => 4

def ofLevel? : Nat → Option Heading
  | 1 => some h1
  | 2 => some h2
  | 3 => some h3
  | 4 => some h4
  | _ => none

/-- The font of a heading. -/
def role : Heading → FontRole
  | h1 => .h1
  | h2 => .h2
  | h3 => .h3
  | h4 => .h4

@[simp] theorem ofLevel?_level (h : Heading) : ofLevel? h.level = some h := by
  cases h <;> rfl

end Heading

end RichText
