/-
  RichText/Surface.lean
  =====================
  **Drawing operations.**

  A drawing is the list of the operations that a page asks of a surface.  A
  surface that can only fill rectangles and place images gets the same picture
  from `DrawOp.fills`: a border becomes four strips along the inside of its
  bounds, a bar a rectangle.
-/
import RichText.Geometry
import RichText.Color

namespace RichText

/-- An image that the host knows by a number. -/
structure Image where
  id : Nat
  /-- The natural size of the image. -/
  size : Size
deriving DecidableEq, Repr

/-- Whether an image is scaled to its bounds or repeated at its natural size. -/
inductive ImageFit where
  | stretch
  | tile
deriving DecidableEq, Repr

/-- One operation on a surface. -/
inductive DrawOp where
  | fill (bounds : Rect) (color : Color)
  /-- A frame along the inner edges of its bounds. -/
  | border (bounds : Rect) (thickness : Int) (color : Color)
  /-- A horizontal bar, given by its top-left corner. -/
  | bar (origin : Point) (width thickness : Int) (color : Color)
  | image (image : Image) (bounds : Rect) (tint : Color) (fit : ImageFit)
deriving DecidableEq, Repr

namespace DrawOp

/-- The four strips of a border: the full top and bottom edges, and the two sides
    between them. -/
def borderStrips (r : Rect) (t : Int) : List Rect :=
  [⟨r.left, r.top, r.right, r.top + t⟩,
    ⟨r.left, r.bottom - t, r.right, r.bottom⟩,
    ⟨r.left, r.top + t, r.left + t, r.bottom - t⟩,
    ⟨r.right - t, r.top + t, r.right, r.bottom - t⟩]

/-- The same picture from fills and images alone. -/
def fills : DrawOp → List DrawOp
  | border bounds thickness color =>
    if thickness ≤ 0 then [] else (borderStrips bounds thickness).map (fill · color)
  | bar origin width thickness color =>
    [fill (Rect.ofOriginSize origin ⟨width, thickness⟩) color]
  | op => [op]

def isBar : DrawOp → Bool
  | bar .. => true
  | _ => false

def isImage : DrawOp → Bool
  | image .. => true
  | _ => false

/-- Neither borders nor bars are left among the fills. -/
theorem fills_of_mem_fills {op f : DrawOp} (h : f ∈ op.fills) : f.fills = [f] := by
  cases op with
  | fill => simp_all [fills]
  | image => simp_all [fills]
  | bar => simp_all [fills]
  | border bounds thickness color =>
    simp only [fills] at h
    split at h
    · simp at h
    · obtain ⟨r, _, rfl⟩ := List.mem_map.1 h
      rfl

end DrawOp

end RichText
