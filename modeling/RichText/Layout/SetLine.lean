/-
  RichText/Layout/SetLine.lean
  ============================
  **A line whose marks have their final places, and what is reported of it.**

  The marks of a line are its content and, where the line was wrapped, the blanks
  that are left over there: these belong to the line without adding to its width.
-/
import RichText.Layout.State

namespace RichText

/-- A line with its marks in place. -/
structure SetLine where
  marks : List Mark
  /-- How many of the marks are content. -/
  content : Nat
  left : Int
  /-- The right edge of the content. -/
  right : Int
  top : Int
  bottom : Int
  baseline : Int
  /-- The height of the box around its marks. -/
  height : Int
deriving DecidableEq, Repr

namespace SetLine

variable (l : SetLine) (s : LayoutState)

/-! ### Boxes -/

/-- The background and the border of the line. -/
def background : List Item :=
  if s.format.showBackground || s.format.showBorder then
    let padding := s.format.padding.margin s.font.face.em
    let thickness := s.font.lineThickness
    [.box ((Rect.mk l.left l.top l.right l.bottom).inflate padding)
      (if s.format.showBackground then s.format.background.getD .transparent else .transparent)
      (if s.format.showBorder then
        Length.resolveOr s.format.borderThickness thickness thickness
      else 0)
      (s.format.borderColor.getD s.font.style.color)]
  else []

/-- The borders of the cells of a table. -/
def cellBorders : List Item :=
  match s.table with
  | none => []
  | some t =>
    if t.border then
      t.cells.reverse.map fun c =>
        let (left, width) := t.extent c
        .box ⟨left, l.top, left + width, l.bottom⟩ .transparent s.font.lineThickness
          (s.format.borderColor.getD s.font.style.color)
    else []

/-- Where a selection begins on the line, if it has any part there. -/
def selectionLeft? (span : Span Selection) : Option Int :=
  match span.start with
  | .glyph i => if i < l.content then some (Mark.xAt l.marks i l.left) else none
  | .continued => some (if 0 < l.content then Mark.xAt l.marks 0 l.left else l.left)

/-- The right edge of a span: the glyph before which it stops, or the end of the
    content. -/
def spanRight {α : Type} (span : Span α) : Int :=
  (span.stopGlyph? l.content).elim l.right (Mark.xAt l.marks · l.right)

/-- A selection behind the line. -/
def selectionBox (images : Registry Image) (span : Span Selection) : List Item :=
  match l.selectionLeft? span with
  | none => []
  | some left =>
    let right := l.spanRight span
    let data := span.data
    if right < left ∨ data.noBackground then []
    else
      let bounds := (Rect.mk left l.top right l.bottom).inflate data.padding
      match data.image with
      | some index =>
        (images.get? index).elim [] fun image => [.image index image bounds .white .tile]
      | none => [.box bounds data.background 0 .transparent]

def boxes (images : Registry Image) : List Item :=
  l.background s ++ l.cellBorders s ++ s.selections.reverse.flatMap (l.selectionBox images)

/-! ### Glyphs -/

/-- The place of a mark: its baseline on that of the line. -/
def location (m : Mark) : Point :=
  ⟨m.x + m.offset.x, l.top + l.baseline - m.baseline + m.offset.y⟩

def glyph (wrapped : Bool) (m : Mark) : Glyph where
  code := match m.kind with
    | .glyph visible => if visible && !wrapped then some m.code else none
    | _ => none
  font := m.font
  location := l.location m
  color := m.color
  index := m.index
  advance := m.advance
  lineTop := l.top
  lineBottom := l.bottom
  lineEnd := m.kind == .lineEnd || m.kind == .textEnd
  wrapped := wrapped

/-- A mark as it is reported; an image comes before the glyph that stands for it. -/
def markItems (wrapped : Bool) (m : Mark) : List Item :=
  match m.kind with
  | .image i =>
    [.image i.index i.image
      (Rect.ofOriginSize (l.location m + i.bounds.origin) i.bounds.size) i.tint .stretch,
      .glyph (l.glyph wrapped m)]
  | _ => [.glyph (l.glyph wrapped m)]

def glyphs : List Item :=
  (l.marks.take l.content).flatMap (l.markItems false) ++
    (l.marks.drop l.content).flatMap (l.markItems true)

/-! ### Regions and rules -/

/-- The part of a region on the line, if it has begun there. -/
def region? (span : Span Nat) : Option Region :=
  let left? :=
    match span.start with
    | .glyph i =>
      if l.marks.length ≤ i then none
      else if i < l.content then some (Mark.xAt l.marks i l.right)
      else some l.right
    | .continued => some l.left
  left?.map fun left => ⟨span.data, ⟨left, l.top, max (l.spanRight span) left, l.bottom⟩⟩

def regions : List Region := s.regions.reverse.filterMap l.region?

/-- The right edge of a rule. Before a glyph on the line it ends with the last
    covered glyph, or goes on to that glyph if it covers gaps. -/
def ruleRight (span : Span Rule) : Int :=
  match span.stopGlyph? l.content with
  | none => l.right
  | some stop =>
    if span.data.gaps then Mark.xAt l.marks stop l.right
    else ((l.marks[max stop 1 - 1]?).elim l.right Mark.right)

/-- The part of a rule on the line, if there is any. -/
def rule? (span : Span Rule) : Option Item := do
  let first ← (span.firstGlyph? l.marks.length).filter (· < l.content)
  let mark ← l.marks[first]?
  let right := l.ruleRight span
  if mark.x < right then
    some (.rule mark.x right (l.top + l.baseline - mark.baseline + span.data.offset)
      span.data.thickness span.data.color)
  else none

def rules : List Item :=
  s.underline.spans.reverse.filterMap l.rule? ++ s.strike.spans.reverse.filterMap l.rule?

/-- All that is reported of the line. -/
def line (images : Registry Image) : Line :=
  ⟨l.boxes s images, l.glyphs, l.regions s, l.rules s⟩

end SetLine

end RichText
