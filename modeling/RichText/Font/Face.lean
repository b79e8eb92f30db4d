/-
  RichText/Font/Face.lean
  =======================
  **Fonts: the metrics of their glyphs, and the style they bring.**

  Every glyph stands in a box as high as the line, and vertical metrics count
  downwards within that box.  The place of a glyph is where its box begins, above
  and to the left; its ink is found from the baseline, by an offset of its own.
-/
import RichText.Binary32
import RichText.Markup.Style
import RichText.Surface

namespace RichText

/-- The metrics of a font and the drawing of its glyphs, which are named by code
    points. -/
structure Face where
  hasGlyph : Nat → Bool
  /-- How far a glyph moves the pen. -/
  advance : Nat → Int
  inkSize : Nat → Size
  /-- Where the ink begins, seen from the pen at baseline height. -/
  inkOffset : Nat → Point
  /-- The correction of the distance between two neighbours. -/
  kerning : Nat → Nat → Int
  /-- The step from one line to the next. -/
  lineGap : Int
  /-- How high a line of this font is. -/
  height : Int
  baseline : Int
  underlineOffset : Int
  lineThickness : Binary32
  em : Int
  /-- The largest advance of a glyph. -/
  maxWidth : Int
  /-- The largest advance of a digit. -/
  digitWidth : Int
  /-- Draws a glyph whose box begins at a point. -/
  render : Nat → Point → Color → List DrawOp

namespace Face

/-- Whether the ink of a glyph reaches below the baseline. -/
def descends (f : Face) (c : Nat) : Bool := 0 < (f.inkOffset c).y + (f.inkSize c).height

end Face

/-- What a font applies unless markup says otherwise. -/
structure FontStyle where
  color : Color
  underline : Bool
  strike : Bool
  /-- Whether wrapped lines are justified. -/
  justify : Bool
  align : TextAlign
  tabWidth : Int
  letterSpacing : Int
  /-- A multiple of the height of a line. -/
  lineSpacing : Binary32
  paragraphSpacing : Int
  /-- How far down in its box a glyph is struck through. -/
  strikePosition : Int
deriving DecidableEq, Repr

/-- The style that follows from the metrics of a face. -/
def Face.defaultStyle (f : Face) : FontStyle where
  color := Color.black
  underline := false
  strike := false
  justify := false
  align := .left
  tabWidth := 8 * max f.digitWidth 1
  letterSpacing := 0
  lineSpacing := Binary32.one
  paragraphSpacing := 0
  strikePosition := f.baseline - f.baseline.tdiv 3

/-- A face with its style. -/
structure Font where
  face : Face
  style : FontStyle

namespace Font

/-- A face with the style that follows from its metrics. -/
def ofFace (f : Face) : Font := ⟨f, f.defaultStyle⟩

/-- The thickness of decorations and borders, at least one pixel. -/
def lineThickness (f : Font) : Int := max f.face.lineThickness.round 1

end Font

end RichText
