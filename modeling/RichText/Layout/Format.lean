/-
  RichText/Layout/Format.lean
  ===========================
  **The formatting in force.**

  What is not set comes from the font.  Lengths are kept as they were written
  wherever their references are known only when they are used.
-/
import RichText.Geometry
import RichText.Markup.Setting

namespace RichText

/-! ### Parts -/

/-- How one of the two decorations is drawn. -/
structure LineFormat where
  shown : Option Bool
  color : Option Color
  /-- How far down in the line, a share of its height. -/
  offset : Option Length
  /-- A share of the thickness of lines in the font. -/
  thickness : Option Length
  settings : LineSettings
deriving DecidableEq, Repr

def LineFormat.default : LineFormat := ⟨none, none, none, none, .default⟩

namespace Sides

/-- Four lengths that are not set. -/
def unset : Sides (Option Length) := ⟨none, none, none, none⟩

/-- Four lengths as a margin; those that are not set leave no room. -/
def margin (s : Sides (Option Length)) (reference : Int) : Margin :=
  ⟨Length.resolveOr s.left reference 0, Length.resolveOr s.top reference 0,
    Length.resolveOr s.right reference 0, Length.resolveOr s.bottom reference 0⟩

end Sides

/-- How selections are drawn. -/
structure SelectionFormat where
  text : Option Color
  background : Option Color
  image : Option Nat
  noBackground : Bool
  /-- Shares of the em size. -/
  padding : Sides (Option Length)
deriving DecidableEq, Repr

def SelectionFormat.default : SelectionFormat := ⟨none, none, none, false, .unset⟩

/-! ### Tab stops -/

/-- Tab stops by number. -/
abbrev TabStops := List (Nat × Length)

namespace TabStops

/-- Moves the stop of a number, or adds it. -/
def set (id : Nat) (position : Length) : TabStops → TabStops
  | [] => [(id, position)]
  | (i, p) :: rest => if i = id then (i, position) :: rest else (i, p) :: set id position rest

def remove (id : Nat) (stops : TabStops) : TabStops := stops.filter fun (i, _) => i != id

end TabStops

/-! ### The whole -/

/-- The formatting that instructions change. -/
structure Format where
  /-- The font that was asked for. -/
  font : Nat
  color : Option Color
  tint : Option Color
  background : Option Color
  borderColor : Option Color
  /-- A share of the thickness of lines in the font. -/
  borderThickness : Option Length
  showBackground : Bool
  showBorder : Bool
  /-- Shares of the em size. -/
  padding : Sides (Option Length)
  /-- A share of the em size. -/
  letterSpacing : Option Length
  /-- A share of the height of the line. -/
  lineSpacing : Option Length
  /-- A share of the height of the line. -/
  paragraphSpacing : Option Length
  indent : Int
  /-- Of the first line of a paragraph. -/
  hangingIndent : Int
  tabWidth : Option Int
  /-- With shares of the em size and of the wrap width. -/
  tabStops : TabStops
  /-- A share of the em size, like the vertical offset. -/
  letterOffsetX : Option Length
  letterOffsetY : Option Length
  align : Option TextAlign
  justify : Option Bool
  verticalAlign : VerticalAlign
  underline : LineFormat
  strike : LineFormat
  selection : SelectionFormat
  script : Option Script
deriving DecidableEq, Repr

namespace Format

/-- Nothing is set, and a font is asked for. -/
def initial (font : Nat) : Format where
  font := font
  color := none
  tint := none
  background := none
  borderColor := none
  borderThickness := none
  showBackground := false
  showBorder := false
  padding := .unset
  letterSpacing := none
  lineSpacing := none
  paragraphSpacing := none
  indent := 0
  hangingIndent := 0
  tabWidth := none
  tabStops := []
  letterOffsetX := none
  letterOffsetY := none
  align := none
  justify := none
  verticalAlign := .baseline
  underline := .default
  strike := .default
  selection := .default
  script := none

/-- The formatting after a reset: decorations, boxes, tints, tab stops and the
    display of selections stay as they are. -/
def reset (f : Format) (font : Nat) : Format :=
  { f with
    letterSpacing := none, hangingIndent := 0, indent := 0, paragraphSpacing := none,
    lineSpacing := none, justify := none, align := none, color := none, tabWidth := none,
    letterOffsetX := none, letterOffsetY := none, font := font, script := none }

def line (f : Format) : Decoration → LineFormat
  | .underline => f.underline
  | .strike => f.strike

def updateLine (f : Format) (d : Decoration) (change : LineFormat → LineFormat) : Format :=
  match d with
  | .underline => { f with underline := change f.underline }
  | .strike => { f with strike := change f.strike }

/-- The formatting with one color set, or left to its default. -/
def setColor (f : Format) (target : ColorTarget) (color : Option Color) : Format :=
  match target with
  | .text => { f with color := color }
  | .background => { f with background := color }
  | .border => { f with borderColor := color }
  | .tint => { f with tint := color }
  | .underline => f.updateLine .underline ({ · with color := color })
  | .strike => f.updateLine .strike ({ · with color := color })

end Format

/-! ### Changes of a decoration -/

def LineFormat.apply (l : LineFormat) : LineChange → LineFormat
  | .reset => { l with settings := .default, thickness := none }
  | .change settings thickness =>
    { l with settings := settings.getD l.settings, thickness := thickness.getD l.thickness }

end RichText
