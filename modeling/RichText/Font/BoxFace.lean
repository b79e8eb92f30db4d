/-
  RichText/Font/BoxFace.lean
  ==========================
  **A face of boxes, with metrics that are easy to foretell.**

  Every glyph has one advance and is drawn as a filled rectangle over its ink.
  The letters `g`, `j`, `p`, `q` and `y` reach below the baseline.  Of the spaces
  only the two of ASCII and Latin-1 have a glyph.
-/
import RichText.Font.Face

namespace RichText

/-- The measures of a face of boxes. -/
structure BoxFace where
  advance : Int
  height : Int
  baseline : Int
  em : Int
  digitWidth : Int
  underlineOffset : Int
  lineThickness : Binary32
  /-- Pairs of code points with their corrections, of which the first counts. -/
  kerning : List (Nat × Nat × Int)
deriving DecidableEq, Repr

namespace BoxFace

/-- Advances of ten pixels on lines of twenty. -/
def standard : BoxFace where
  advance := 10
  height := 20
  baseline := 16
  em := 16
  digitWidth := 8
  underlineOffset := 18
  lineThickness := Binary32.one
  kerning := []

/-- Another advance, with the other measures in proportion. -/
def ofAdvance (advance : Int) : BoxFace :=
  { standard with
    advance := advance
    height := advance * 2
    baseline := (advance * 8).tdiv 5
    em := (advance * 8).tdiv 5
    digitWidth := (advance * 4).tdiv 5
    underlineOffset := (advance * 9).tdiv 5 }

/-- The letters with a descender. -/
def isDescender (c : Nat) : Bool :=
  c == 'g'.toNat || c == 'j'.toNat || c == 'p'.toNat || c == 'q'.toNat || c == 'y'.toNat

/-- The height of the ink above the baseline. -/
def ascent (b : BoxFace) : Int := (b.baseline * 3).tdiv 4

def inkSize (b : BoxFace) (c : Nat) : Size :=
  ⟨b.advance, b.ascent + if isDescender c then b.height - b.baseline else 0⟩

def inkOffset (b : BoxFace) : Point := ⟨0, -b.ascent⟩

def hasGlyph (c : Nat) : Bool :=
  !(c == 0x1680 || (0x2000 ≤ c && c ≤ 0x200B) || c == 0x202F || c == 0x205F || c == 0x3000)

def kern (b : BoxFace) (left right : Nat) : Int :=
  ((b.kerning.find? fun (l, r, _) => l == left && r == right).map fun (_, _, k) => k).getD 0

theorem kern_of_nil {b : BoxFace} (h : b.kerning = []) (left right : Nat) :
    b.kern left right = 0 := by
  simp [kern, h]

def render (b : BoxFace) (c : Nat) (location : Point) (color : Color) : List DrawOp :=
  [.fill (Rect.ofOriginSize (location + ⟨0, b.baseline⟩ + b.inkOffset) (b.inkSize c)) color]

def face (b : BoxFace) : Face where
  hasGlyph := hasGlyph
  advance := fun _ => b.advance
  inkSize := b.inkSize
  inkOffset := fun _ => b.inkOffset
  kerning := b.kern
  lineGap := b.height
  height := b.height
  baseline := b.baseline
  underlineOffset := b.underlineOffset
  lineThickness := b.lineThickness
  em := b.em
  maxWidth := b.advance
  digitWidth := b.digitWidth
  render := b.render

end BoxFace

/-! ### Faces that differ from another at a few places -/

namespace Face

/-- The face with other advances for some code points, of which the first entry
    counts. -/
def withAdvances (f : Face) (advances : List (Nat × Int)) : Face :=
  { f with advance := fun c =>
      ((advances.find? fun (d, _) => d == c).map fun (_, a) => a).getD (f.advance c) }

/-- The face without glyphs for `missing` and with glyphs for `present`, the
    former first. -/
def withGlyphs (f : Face) (missing present : List Nat) : Face :=
  { f with hasGlyph := fun c => !missing.contains c && (present.contains c || f.hasGlyph c) }

end Face

end RichText
