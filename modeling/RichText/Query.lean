/-
  RichText/Query.lean
  ===================
  **Questions about a layout.**

  Each query is a traversal of the items of a layout that may stop early.  The
  regions of a line are known once the traversal has passed its glyphs.
-/
import RichText.Layout

namespace RichText

/-! ### Traversals -/

/-- What a traversal has after an item, and whether it goes on. -/
inductive Flow (σ : Type) where
  | more (state : σ)
  | done (state : σ)
deriving DecidableEq, Repr

/-- A traversal with a state. -/
abbrev Traversal (σ : Type) := σ → Item → Flow σ

namespace Traversal

variable {σ : Type} (t : Traversal σ)

def items : σ → List Item → Flow σ
  | s, [] => .more s
  | s, i :: rest =>
    match t s i with
    | .more s => items s rest
    | .done s => .done s

/-- Traverses lines, and gives the regions known when it stops. -/
def lines : σ → List Line → σ × List Region
  | s, [] => (s, [])
  | s, l :: rest =>
    match t.items s (l.boxes ++ l.glyphs) with
    | .done s => (s, [])
    | .more s =>
      match t.items s l.rules with
      | .done s => (s, l.regions)
      | .more s =>
        let (s, regions) := lines s rest
        (s, l.regions ++ regions)

end Traversal

/-! ### The queries -/

namespace Query

/-- Records all items, the last one first, up to the `n`-th glyph if `n` is given. -/
def record (stopAfter : Option Nat) : Traversal (List Item × Nat) := fun (seen, n) item =>
  match item with
  | .glyph _ =>
    if stopAfter.any (· ≤ n + 1) then .done (item :: seen, n + 1) else .more (item :: seen, n + 1)
  | _ => .more (item :: seen, n)

/-- Counts the glyphs. -/
def count : Traversal Nat := fun n item =>
  match item with
  | .glyph _ => .more (n + 1)
  | _ => .more n

/-- The extent of all glyphs and images, from the origin of the page on. Blanks left
    over at the end of a wrapped line have no width. -/
def measure : Traversal Size := fun size item =>
  match item with
  | .glyph g =>
    .more ⟨if g.wrapped then size.width else max size.width (g.location.x + g.advance),
      max size.height g.lineBottom⟩
  | .image _ _ bounds _ _ => .more { size with width := max size.width bounds.right }
  | _ => .more size

/-- What is known of the place of a point: the position so far, and the top of the
    line that the point is on. -/
structure Hit where
  index : Nat
  lineTop : Option Int
deriving DecidableEq, Repr

/-- Looks for the position of a point: before the first glyph of its line whose
    middle is to the right of the point, or else at the end of the line. -/
def hit (p : Point) : Traversal Hit := fun h item =>
  match item with
  | .glyph g =>
    if g.lineBottom ≤ p.y then .more { h with index := if g.lineEnd then g.index else g.index + 1 }
    else if h.lineTop.any (· != g.lineTop) then .done h
    else if g.lineEnd || g.wrapped || p.x < g.location.x + g.advance.tdiv 2 then
      .done ⟨g.index, some g.lineTop⟩
    else .more ⟨g.index + 1, some g.lineTop⟩
  | _ => .more h

/-- The cell of the first glyph that is not before a position. -/
def locate (target : Nat) : Traversal (Option Rect) := fun r item =>
  match item with
  | .glyph g =>
    if g.index < target then .more r
    else
      .done (some ⟨g.location.x, g.lineTop, g.location.x + g.advance, g.lineBottom⟩)
  | _ => .more r

/-- The drawing of an item. -/
def drawOps (fonts : Registry Font) : Item → List DrawOp
  | .glyph g =>
    match g.code, fonts.get? g.font with
    | some c, some font => font.face.render c g.location g.color
    | _, _ => []
  | .box bounds background border borderColor =>
    (if background.isVisible then [.fill bounds background] else []) ++
      (if 0 < border then [.border bounds border borderColor] else [])
  | .rule left right y thickness color => [.bar ⟨left, y⟩ (right - left) thickness color]
  | .image _ image bounds tint fit => [.image image bounds tint fit]

/-- Draws the items, the last operation first, up to the first glyph of a line that
    starts below the visible part of the surface. -/
def draw (fonts : Registry Font) (visibleBottom : Option Int) : Traversal (List DrawOp) :=
  fun ops item =>
    let below :=
      match item with
      | .glyph g => visibleBottom.any (· < g.lineTop)
      | _ => false
    if below then .done ops else .more ((drawOps fonts item).reverse ++ ops)

end Query

namespace Printer

variable (p : Printer) (markup : List UInt8) (origin : Point) (width : Int)

/-- Runs a traversal over the layout of a markup. -/
def query {σ : Type} (t : Traversal σ) (initial : σ) : Except LayoutError (σ × List Region) :=
  (Job.mk p origin width).layout markup |>.map (t.lines initial)

/-- The items of a layout up to the `stopAfter`-th glyph, and the regions known then. -/
def layout (stopAfter : Option Nat) : Except LayoutError (List Item × List Region) :=
  (p.query markup origin width (Query.record stopAfter) ([], 0)).map
    fun ((items, _), regions) => (items.reverse, regions)

def countGlyphs : Except LayoutError (Nat × List Region) :=
  p.query markup origin width Query.count 0

/-- The drawing of a markup. -/
def draw (visibleBottom : Option Int) : Except LayoutError (List DrawOp × List Region) :=
  (p.query markup origin width (Query.draw p.fonts visibleBottom) []).map
    fun (ops, regions) => (ops.reverse, regions)

/-- The size of a markup, wrapped at a width. -/
def measureWrapped : Except LayoutError Size :=
  (p.query markup .zero width Query.measure .zero).map Prod.fst

def measure : Except LayoutError Size := p.measureWrapped markup 0

/-- The position in a markup that a point hits, where lines are wrapped at a width. -/
def hitTestWrapped (point : Point) : Except LayoutError Nat :=
  (p.query markup .zero width (Query.hit point) ⟨0, none⟩).map fun (h, _) => h.index

def hitTest (point : Point) : Except LayoutError Nat := p.hitTestWrapped markup 0 point

/-- Where a position of a markup stands, if lines are wrapped at a width. -/
def locateWrapped (index : Nat) : Except LayoutError (Option Rect) :=
  (p.query markup .zero width (Query.locate index) none).map Prod.fst

def locate (index : Nat) : Except LayoutError (Option Rect) := p.locateWrapped markup 0 index

end Printer

end RichText
