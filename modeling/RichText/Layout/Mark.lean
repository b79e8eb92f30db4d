/-
  RichText/Layout/Mark.lean
  =========================
  **Glyphs that wait for their line.**

  A mark is a glyph, an image, a placeholder or a line end whose place on the line
  is not final yet.  This file holds what a list of marks determines by itself: the
  right edge, the box around them, and how justification and the columns of a table
  move them.
-/
import RichText.Font.Face
import RichText.Layout.Justification
import RichText.Layout.Table

namespace RichText

/-- An image on the line. -/
structure ImageMark where
  index : Nat
  image : Image
  /-- Seen from where the box of the mark begins. -/
  bounds : Rect
  advance : Int
  height : Int
  baseline : Int
  tint : Color
deriving DecidableEq, Repr

/-- What a mark stands for. -/
inductive MarkKind where
  | glyph (visible : Bool)
  | image (image : ImageMark)
  | placeholder
  | lineEnd
  | textEnd
deriving DecidableEq, Repr

structure Mark where
  /-- The number of its font. -/
  font : Nat
  /-- Its code point; a space of explicit width has code point zero. -/
  code : Nat
  kind : MarkKind
  x : Int
  /-- Added to its place when it is reported. -/
  offset : Point
  advance : Int
  /-- From the top of its box to its baseline. -/
  baseline : Int
  height : Int
  color : Color
  index : Nat
deriving DecidableEq, Repr

namespace Mark

def right (m : Mark) : Int := m.x + m.advance

def shift (dx : Int) (m : Mark) : Mark := { m with x := m.x + dx }

theorem right_shift (dx : Int) (m : Mark) : (m.shift dx).right = m.right + dx := by
  simp only [right, shift]
  omega

theorem map_shift_zero (ms : List Mark) : ms.map (shift 0) = ms := by
  have hzero : shift 0 = id := by
    funext m
    simp [shift]
  rw [hzero, List.map_id]

/-- Whether a mark may be left over at the end of a wrapped line. -/
def isBlank (m : Mark) : Bool := CodePoint.isSpace m.code || m.code == CodePoint.tab

/-- The right edge of the last mark, or `fallback` where there is none. -/
def lastRight (fallback : Int) (ms : List Mark) : Int := (ms.getLast?).elim fallback right

/-- The place of the mark at a position, or `fallback` where there is none. -/
def xAt (ms : List Mark) (i : Nat) (fallback : Int) : Int := (ms[i]?).elim fallback (·.x)

def codes (ms : List Mark) : List Nat := ms.map (·.code)

/-! ### The box around a line -/

/-- The lowest baseline of a line, and the height of a box that holds every mark
    on it. A line without marks has the box of the font. -/
def box (face : Face) (ms : List Mark) : Int × Int :=
  if ms.isEmpty then (face.baseline, face.height)
  else
    let baseline := ((ms.map (·.baseline)).max?).getD 0
    (baseline, ((ms.map fun m => baseline - m.baseline + m.height).max?).getD 0)

/-! ### Moving marks -/

/-- Moves the first `content` marks by the room that a justification puts before
    each of them. -/
def justify (plan : Justification) (content : Nat) (ms : List Mark) : List Mark :=
  (ms.take content).zipWith (fun m dx => m.shift dx) (plan.shifts (codes (ms.take content))) ++
    ms.drop content

/-- Aligns the marks of one cell in its columns. -/
def alignCell (t : Table) (c : Cell) (ms : List Mark) : List Mark :=
  match ms.getLast? with
  | none => ms
  | some last =>
    let (left, width) := t.extent c
    ms.map (shift (c.align.shift width (last.right - left)))

/-- Aligns the cells of a row, the first of which starts with the first mark. -/
def alignCells (t : Table) : List Cell → List Mark → List Mark
  | [], ms => ms
  | [c], ms => alignCell t c ms
  | c :: d :: rest, ms =>
    alignCell t c (ms.take (d.first - c.first)) ++
      alignCells t (d :: rest) (ms.drop (d.first - c.first))

@[simp] theorem length_justify (plan : Justification) (content : Nat) (ms : List Mark) :
    (justify plan content ms).length = ms.length := by
  simp [justify, codes]
  omega

@[simp] theorem length_alignCell (t : Table) (c : Cell) (ms : List Mark) :
    (alignCell t c ms).length = ms.length := by
  unfold alignCell
  split <;> simp

@[simp] theorem length_alignCells (t : Table) (cells : List Cell) (ms : List Mark) :
    (alignCells t cells ms).length = ms.length := by
  induction cells generalizing ms with
  | nil => rfl
  | cons c cells ih =>
    cases cells with
    | nil => simp [alignCells]
    | cons d rest =>
      simp only [alignCells, List.length_append, length_alignCell, ih, List.length_take,
        List.length_drop]
      omega

end Mark

end RichText
