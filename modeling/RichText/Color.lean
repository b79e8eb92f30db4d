/-
  RichText/Color.lean
  ===================
  **Colors.**

  Three channels are bytes.  The alpha channel is counted in fifths of a byte
  step, so that a fifth of any byte alpha is held exactly: that is the strength
  at which a selection without a color of its own is drawn.
-/

namespace RichText

/-- A color as four bytes, the form in which markup carries it. -/
structure Rgba where
  r : UInt8
  g : UInt8
  b : UInt8
  a : UInt8
deriving DecidableEq, Repr

/-- A color with its alpha in fifths of a byte step. -/
structure Color where
  r : UInt8
  g : UInt8
  b : UInt8
  alpha : Nat
deriving DecidableEq, Repr

namespace Color

def ofRgba (c : Rgba) : Color := ⟨c.r, c.g, c.b, 5 * c.a.toNat⟩

/-- The nearest color of four bytes. -/
def toRgba (c : Color) : Rgba := ⟨c.r, c.g, c.b, UInt8.ofNat ((c.alpha + 2) / 5)⟩

def black : Color := ofRgba ⟨0, 0, 0, 255⟩

def white : Color := ofRgba ⟨255, 255, 255, 255⟩

def transparent : Color := ofRgba ⟨0, 0, 0, 0⟩

/-- The color with another alpha. -/
def withAlpha (c : Color) (a : UInt8) : Color := { c with alpha := 5 * a.toNat }

/-- The color at a fifth of its strength. -/
def faded (c : Color) : Color := { c with alpha := c.alpha / 5 }

/-- Whether drawing with the color leaves anything. -/
def isVisible (c : Color) : Bool := 0 < c.alpha

@[simp] theorem toRgba_ofRgba (c : Rgba) : (ofRgba c).toRgba = c := by
  obtain ⟨r, g, b, a⟩ := c
  have h : (5 * a.toNat + 2) / 5 = a.toNat := by omega
  simp [ofRgba, toRgba, h]

/-- Fading a color of four bytes loses nothing. -/
theorem alpha_faded_ofRgba (c : Rgba) : (ofRgba c).faded.alpha = c.a.toNat := by
  simp [ofRgba, faded]

end Color

/-- An entry of the color table. -/
structure ColorPair where
  /-- The side for all that is drawn over the page: glyphs, lines, frames. -/
  foreground : Color
  /-- The side for what lies behind the text. -/
  background : Color
deriving DecidableEq, Repr

/-! ### Colors with a role -/

/-- The roles that the first entries of the color table are meant for. -/
inductive ColorRole where
  | regular | title | emphasis | info | inverted | code | keyword | comment | selection
deriving DecidableEq, Repr

namespace ColorRole

/-- The roles by table index. -/
def all : List ColorRole :=
  [regular, title, emphasis, info, inverted, code, keyword, comment, selection]

/-- The color table index of a role. -/
def index : ColorRole → Nat
  | regular => 0
  | title => 1
  | emphasis => 2
  | info => 3
  | inverted => 4
  | code => 5
  | keyword => 6
  | comment => 7
  | selection => 8

def name : ColorRole → String
  | regular => "Regular"
  | title => "Title"
  | emphasis => "Emphasis"
  | info => "Info"
  | inverted => "Inverted"
  | code => "Code"
  | keyword => "Keyword"
  | comment => "Comment"
  | selection => "Selection"

def ofName? (s : String) : Option ColorRole := all.find? (·.name == s)

theorem all_getElem?_index (role : ColorRole) : all[role.index]? = some role := by
  cases role <;> rfl

end ColorRole

end RichText
