/-
  RichText/Layout/Line.lean
  =========================
  **The result of a layout: lines of positioned items.**
-/
import RichText.Surface

namespace RichText

/-- A glyph in its place. -/
structure Glyph where
  /-- The code point to be drawn; none for what takes room without being drawn. -/
  code : Option Nat
  /-- The number of the font it is set in. -/
  font : Nat
  /-- Where its box begins, above and to the left. -/
  location : Point
  color : Color
  /-- How many code points of the markup come before it. -/
  index : Nat
  advance : Int
  lineTop : Int
  lineBottom : Int
  /-- Whether it is the newline or the end of the text that closes its line. -/
  lineEnd : Bool
  /-- Whether it is one of the spaces left over where a line was wrapped. -/
  wrapped : Bool
deriving DecidableEq, Repr

/-- An item of a line, in its place. -/
inductive Item where
  | glyph (glyph : Glyph)
  /-- A box that is filled and, if its border is thicker than zero, bordered. -/
  | box (bounds : Rect) (background : Color) (border : Int) (borderColor : Color)
  /-- A horizontal line from `left` to `right`. -/
  | rule (left right y thickness : Int) (color : Color)
  | image (index : Nat) (image : Image) (bounds : Rect) (tint : Color) (fit : ImageFit)
deriving DecidableEq, Repr

/-- The part of a region on one line. -/
structure Region where
  id : Nat
  bounds : Rect
deriving DecidableEq, Repr

/-- A line of the result. Its items are reported in the order boxes, glyphs, rules;
    its regions are known once its glyphs have been reported. -/
structure Line where
  boxes : List Item
  /-- The glyphs, each image before the glyph that stands for it. -/
  glyphs : List Item
  regions : List Region
  rules : List Item
deriving DecidableEq, Repr

namespace Line

def items (l : Line) : List Item := l.boxes ++ l.glyphs ++ l.rules

end Line

end RichText
