/-
  RichText/Geometry.lean
  ======================
  **Integer geometry of the page.**

  All coordinates are whole pixels: the room left on a line is given out pixel by
  pixel, and nothing is lost to rounding.  `x` grows to the right and `y` downwards; a rectangle is
  held by its four edges, of which the right and the bottom one are exclusive.
-/

namespace RichText

/-! ### Points and sizes -/

/-- A position in pixels. -/
structure Point where
  x : Int
  y : Int
deriving DecidableEq, Repr

namespace Point

def zero : Point := ⟨0, 0⟩

instance : Add Point := ⟨fun p q => ⟨p.x + q.x, p.y + q.y⟩⟩
instance : Sub Point := ⟨fun p q => ⟨p.x - q.x, p.y - q.y⟩⟩

@[simp] theorem add_x (p q : Point) : (p + q).x = p.x + q.x := rfl
@[simp] theorem add_y (p q : Point) : (p + q).y = p.y + q.y := rfl
@[simp] theorem sub_x (p q : Point) : (p - q).x = p.x - q.x := rfl
@[simp] theorem sub_y (p q : Point) : (p - q).y = p.y - q.y := rfl

end Point

/-- A width and a height in pixels. -/
structure Size where
  width : Int
  height : Int
deriving DecidableEq, Repr

namespace Size

def zero : Size := ⟨0, 0⟩

/-- A size is empty when one of its extents is not positive. -/
def isEmpty (s : Size) : Bool := s.width ≤ 0 || s.height ≤ 0

end Size

/-! ### Margins and rectangles -/

/-- Distances from the four sides of a rectangle. -/
structure Margin where
  left : Int
  top : Int
  right : Int
  bottom : Int
deriving DecidableEq, Repr

namespace Margin

/-- The same distance on every side. -/
def all (d : Int) : Margin := ⟨d, d, d, d⟩

def horizontal (m : Margin) : Int := m.left + m.right

def vertical (m : Margin) : Int := m.top + m.bottom

/-- Whether the four sides have one distance. -/
def isUniform (m : Margin) : Bool :=
  m.left == m.top && m.top == m.right && m.right == m.bottom

end Margin

/-- A rectangle with upright sides, held by the coordinates of these. -/
structure Rect where
  left : Int
  top : Int
  right : Int
  bottom : Int
deriving DecidableEq, Repr

namespace Rect

/-- The rectangle of size `s` whose top-left corner is `p`. -/
def ofOriginSize (p : Point) (s : Size) : Rect :=
  ⟨p.x, p.y, p.x + s.width, p.y + s.height⟩

def origin (r : Rect) : Point := ⟨r.left, r.top⟩

def width (r : Rect) : Int := r.right - r.left

def height (r : Rect) : Int := r.bottom - r.top

def size (r : Rect) : Size := ⟨r.width, r.height⟩

/-- Membership is half open: the left and top edges belong to the rectangle, the
    right and bottom ones do not. -/
def contains (r : Rect) (p : Point) : Bool :=
  r.left ≤ p.x && p.x < r.right && r.top ≤ p.y && p.y < r.bottom

/-- The rectangle with every edge moved outwards by the margin of its side. -/
def inflate (r : Rect) (m : Margin) : Rect :=
  ⟨r.left - m.left, r.top - m.top, r.right + m.right, r.bottom + m.bottom⟩

theorem contains_iff (r : Rect) (p : Point) :
    r.contains p = true ↔ (r.left ≤ p.x ∧ p.x < r.right) ∧ (r.top ≤ p.y ∧ p.y < r.bottom) := by
  simp [contains, and_assoc]

@[simp] theorem origin_ofOriginSize (p : Point) (s : Size) : (ofOriginSize p s).origin = p := rfl

@[simp] theorem size_ofOriginSize (p : Point) (s : Size) : (ofOriginSize p s).size = s := by
  simp only [ofOriginSize, size, width, height]
  congr <;> omega

/-- Growing by a margin adds the margins of the two sides to each extent. -/
theorem size_inflate (r : Rect) (m : Margin) :
    (r.inflate m).size = ⟨r.width + m.horizontal, r.height + m.vertical⟩ := by
  simp only [inflate, size, width, height, Margin.horizontal, Margin.vertical]
  congr 1 <;> omega

end Rect

end RichText
