/-
  RichText/Layout/Table.lean
  ==========================
  **Tables.**

  Each row is one line, never wrapped.  A column has the width that is set for it;
  those without one share what is left of the table in equal parts.  Cells are
  aligned only when their row is complete.
-/
import RichText.Length
import RichText.Markup.Setting

namespace RichText

/-- A column with its place on the page. -/
structure Column where
  left : Int
  width : Int
  align : TextAlign
deriving DecidableEq, Repr

/-- A cell of the row being filled. -/
structure Cell where
  /-- The position of its first glyph in the row. -/
  first : Nat
  column : Nat
  /-- How many columns it covers, at least one. -/
  span : Nat
  align : TextAlign
deriving DecidableEq, Repr

structure Table where
  columns : List Column
  left : Int
  width : Int
  /-- Whether each cell has a border. -/
  border : Bool
  /-- The cells of the row, the last one first. -/
  cells : List Cell
deriving DecidableEq, Repr

/-! ### Columns -/

namespace Column

/-- The width that is set for a column, zero for an automatic one. -/
def setWidth (tableWidth : Int) (c : ColumnSetting) : Int :=
  max (Length.resolveOr c.width tableWidth 0) 0

/-- Columns side by side from `left`; `share` is the width of an automatic one. -/
def place (tableWidth share : Int) : Int → List ColumnSetting → List Column
  | _, [] => []
  | left, c :: cs =>
    let set := setWidth tableWidth c
    let width := if set = 0 then share else set
    ⟨left, width, c.align⟩ :: place tableWidth share (left + width) cs

/-- The width of columns side by side. -/
def total (widths : List Int) : Int := widths.foldr (· + ·) 0

/-- What an automatic column gets of the width that the others leave. -/
def share (tableWidth : Int) (cs : List ColumnSetting) : Int :=
  let widths := cs.map (setWidth tableWidth)
  let automatic := widths.countP (· == 0)
  if 0 < automatic then (max (tableWidth - total widths) 0).tdiv automatic else 0

/-- The columns of a table of a width, from its left edge on. -/
def layout (cs : List ColumnSetting) (left width : Int) : List Column :=
  place width (share width cs) left cs

@[simp] theorem length_place (tableWidth share left : Int) (cs : List ColumnSetting) :
    (place tableWidth share left cs).length = cs.length := by
  induction cs generalizing left with
  | nil => rfl
  | cons c cs ih => simp [place, ih]

/-- There is one column for each setting. -/
@[simp] theorem length_layout (cs : List ColumnSetting) (left width : Int) :
    (layout cs left width).length = cs.length := length_place width (share width cs) left cs

end Column

/-! ### Cells -/

namespace Table

def columnAlign (t : Table) (column : Nat) : TextAlign :=
  (t.columns[column]?).elim .left (·.align)

/-- The table at the start of a row. -/
def startRow (t : Table) : Table := { t with cells := [⟨0, 0, 1, t.columnAlign 0⟩] }

def ofColumns (cs : List ColumnSetting) (left width : Int) (border : Bool) : Table :=
  startRow ⟨Column.layout cs left width, left, width, border, []⟩

/-- Starts the next cell, before the glyph at position `first`. -/
def nextCell (t : Table) (first : Nat) : Table :=
  let column := (t.cells.head?).elim 0 fun c => c.column + c.span
  { t with cells := ⟨first, column, 1, t.columnAlign column⟩ :: t.cells }

/-- Lets the last cell cover a number of columns, with an alignment of its own. -/
def span (t : Table) (columns : Nat) (align : TextAlign) : Table :=
  match t.cells with
  | [] => t
  | c :: rest => { t with cells := { c with span := max columns 1, align := align } :: rest }

/-- Where a cell begins and how wide it is. One that no column is left for is empty
    and stands where the table ends. -/
def extent (t : Table) (c : Cell) : Int × Int :=
  match t.columns[c.column]? with
  | none => (t.left + max t.width 0, 0)
  | some first =>
    let last := (t.columns[min (c.column + c.span - 1) (t.columns.length - 1)]?).getD first
    (first.left, last.left + last.width - first.left)

/-- Where the last cell of the row begins. -/
def cellLeft (t : Table) : Int := (t.cells.head?).elim t.left fun c => (t.extent c).1

end Table

end RichText
