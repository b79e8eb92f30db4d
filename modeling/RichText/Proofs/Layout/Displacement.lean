/-
  RichText/Proofs/Layout/Displacement.lean
  ========================================
  **A layout moved to another place of the page and of the text.**

  A displacement moves all that a layout holds to the right and down, and lets its code
  points come later in the text.  No more is asked of the text than that each position has
  one in the other layout, whatever function `f` tells which (`LayoutState.transfer`): to come
  later is one way (`LayoutState.displace_eq`).  Where nothing moves on the page, the positions
  alone are others (`Lexeme.reindex`, `Item.reindex`).  Everything that a line is set from
  follows: the edges, the shifts that align and justify it, the columns of a table and what is
  reported of it (`setLine_transfer`, `SetLine.line_transfer`).
-/
import Mathlib.Data.List.Basic
import RichText.Layout

namespace RichText

/-- How far apart two layouts are on the page, and in the text. -/
structure Displacement where
  right : Int
  down : Int
  later : Nat

variable (v : Displacement) (f : Nat → Nat)

/-! ### Tokens and items -/

def Point.displace (p : Point) : Point := ⟨p.x + v.right, p.y + v.down⟩

def Rect.displace (r : Rect) : Rect :=
  ⟨r.left + v.right, r.top + v.down, r.right + v.right, r.bottom + v.down⟩

def Glyph.displace (g : Glyph) : Glyph :=
  { g with
    location := g.location.displace v
    index := g.index + v.later
    lineTop := g.lineTop + v.down
    lineBottom := g.lineBottom + v.down }

def Item.displace : Item → Item
  | .glyph g => .glyph (g.displace v)
  | .box bounds background border borderColor =>
    .box (bounds.displace v) background border borderColor
  | .rule left right y thickness color =>
    .rule (left + v.right) (right + v.right) (y + v.down) thickness color
  | .image index i bounds tint fit => .image index i (bounds.displace v) tint fit

def Region.displace (r : Region) : Region := { r with bounds := r.bounds.displace v }

def Line.displace (l : Line) : Line :=
  ⟨l.boxes.map (Item.displace v), l.glyphs.map (Item.displace v), l.regions.map (Region.displace v),
    l.rules.map (Item.displace v)⟩

/-- The item on the page moved by `v`, of the position that `f` gives. -/
def Item.transfer : Item → Item
  | .glyph g => .glyph { g.displace v with index := f g.index }
  | item => item.displace v

def Line.transfer (l : Line) : Line :=
  ⟨l.boxes.map (Item.transfer v f), l.glyphs.map (Item.transfer v f),
    l.regions.map (Region.displace v), l.rules.map (Item.transfer v f)⟩

/-- The token as it is in a text in which the positions are those that `f` gives. -/
def Lexeme.reindex (l : Lexeme) : Lexeme := { l with index := f l.index }

/-- The item as it is in a text in which the positions are those that `f` gives. -/
def Item.reindex : Item → Item
  | .glyph g => .glyph { g with index := f g.index }
  | item => item

theorem Item.displace_eq : Item.displace v = Item.transfer v (· + v.later) := by
  funext item
  cases item <;> rfl

theorem Line.displace_eq : Line.displace v = Line.transfer v (· + v.later) := by
  funext l
  rw [displace, Item.displace_eq]
  rfl

/-- Where nothing moves on the page, an item has another position and is else the same. -/
theorem Item.transfer_still (n : Nat) : Item.transfer ⟨0, 0, n⟩ f = Item.reindex f := by
  funext item
  cases item <;> simp only [transfer, reindex, displace, Glyph.displace, Point.displace,
    Rect.displace, Int.add_zero]

theorem Region.displace_still (n : Nat) (r : Region) : r.displace ⟨0, 0, n⟩ = r := by
  simp only [displace, Rect.displace, Int.add_zero]

theorem Line.items_displace (l : Line) :
    (l.displace v).items = l.items.map (Item.displace v) := by
  simp only [items, displace, List.map_append]

theorem Rect.inflate_displace (r : Rect) (m : Margin) :
    (r.displace v).inflate m = (r.inflate m).displace v := by
  simp only [inflate, displace, mk.injEq]
  omega

theorem Rect.ofOriginSize_displace (p : Point) (s : Size) :
    ofOriginSize (p.displace v) s = (ofOriginSize p s).displace v := by
  simp only [ofOriginSize, displace, Point.displace, mk.injEq, true_and]
  omega

/-! ### Tables -/

def Column.displace (c : Column) : Column := { c with left := c.left + v.right }

def Table.displace (t : Table) : Table :=
  { t with columns := t.columns.map (Column.displace v), left := t.left + v.right }

theorem Column.place_displace (tableWidth share left : Int) (cs : List ColumnSetting) :
    place tableWidth share (left + v.right) cs =
      (place tableWidth share left cs).map (Column.displace v) := by
  induction cs generalizing left with
  | nil => rfl
  | cons c cs ih =>
    simp only [place, List.map_cons]
    rw [← ih]
    congr 2
    omega

namespace Table

variable (t : Table)

theorem columnAlign_displace (column : Nat) :
    (t.displace v).columnAlign column = t.columnAlign column := by
  simp only [columnAlign, displace, List.getElem?_map]
  cases t.columns[column]? <;> rfl

theorem startRow_displace : (t.displace v).startRow = t.startRow.displace v := by
  simp only [startRow, columnAlign_displace]
  rfl

theorem ofColumns_displace (cs : List ColumnSetting) (left width : Int) (border : Bool) :
    ofColumns cs (left + v.right) width border = (ofColumns cs left width border).displace v := by
  simp only [ofColumns, Column.layout, Column.place_displace, ← startRow_displace]
  rfl

theorem nextCell_displace (first : Nat) :
    (t.displace v).nextCell first = (t.nextCell first).displace v := by
  simp only [nextCell, columnAlign_displace]
  rfl

theorem span_displace (columns : Nat) (align : TextAlign) :
    (t.displace v).span columns align = (t.span columns align).displace v := by
  obtain ⟨cs, left, width, border, cells⟩ := t
  cases cells <;> rfl

theorem extent_displace (c : Cell) :
    (t.displace v).extent c = ((t.extent c).1 + v.right, (t.extent c).2) := by
  simp only [extent, displace, List.getElem?_map, List.length_map]
  cases t.columns[c.column]? with
  | none =>
    simp only [Option.map_none, Prod.mk.injEq, and_true]
    omega
  | some first =>
    cases t.columns[min (c.column + c.span - 1) (t.columns.length - 1)]? with
    | none =>
      simp only [Option.map_some, Option.map_none, Option.getD_none, Column.displace, Prod.mk.injEq,
        true_and]
      omega
    | some last =>
      simp only [Option.map_some, Option.getD_some, Column.displace, Prod.mk.injEq, true_and]
      omega

theorem cellLeft_displace : (t.displace v).cellLeft = t.cellLeft + v.right := by
  simp only [cellLeft]
  change t.cells.head?.elim (t.left + v.right) _ = _
  cases t.cells.head? with
  | none => rfl
  | some c => simp only [Option.elim_some, extent_displace]

end Table

/-! ### Marks -/

namespace Mark

def displace (m : Mark) : Mark := { m with x := m.x + v.right, index := m.index + v.later }

def transfer (m : Mark) : Mark := { m with x := m.x + v.right, index := f m.index }

theorem right_transfer (m : Mark) : (m.transfer v f).right = m.right + v.right := by
  simp only [right, transfer]
  omega

theorem shift_transfer (dx : Int) (m : Mark) :
    (m.transfer v f).shift dx = (m.shift dx).transfer v f := by
  simp only [shift, transfer, mk.injEq, and_true, true_and]
  omega

theorem map_shift_transfer (dx : Int) (ms : List Mark) :
    (ms.map (transfer v f)).map (shift dx) = (ms.map (shift dx)).map (transfer v f) := by
  simp only [List.map_map]
  congr 1
  funext m
  exact shift_transfer v f dx m

theorem lastRight_transfer (fallback : Int) (ms : List Mark) :
    lastRight (fallback + v.right) (ms.map (transfer v f)) = lastRight fallback ms + v.right := by
  simp only [lastRight, List.getLast?_map]
  cases ms.getLast? with
  | none => rfl
  | some m => exact right_transfer v f m

theorem xAt_transfer (ms : List Mark) (i : Nat) (fallback : Int) :
    xAt (ms.map (transfer v f)) i (fallback + v.right) = xAt ms i fallback + v.right := by
  simp only [xAt, List.getElem?_map]
  cases ms[i]? <;> rfl

theorem codes_transfer (ms : List Mark) : codes (ms.map (transfer v f)) = codes ms := by
  simp only [codes, List.map_map]
  rfl

theorem box_transfer (face : Face) (ms : List Mark) :
    box face (ms.map (transfer v f)) = box face ms := by
  simp only [box, List.isEmpty_map, List.map_map]
  rfl

theorem justify_transfer (plan : Justification) (content : Nat) (ms : List Mark) :
    justify plan content (ms.map (transfer v f)) = (justify plan content ms).map (transfer v f) := by
  simp only [justify, ← List.map_take, ← List.map_drop, codes_transfer, List.map_append,
    List.zipWith_map_left, List.map_zipWith, shift_transfer]

theorem alignCell_transfer (t : Table) (c : Cell) (ms : List Mark) :
    alignCell (t.displace v) c (ms.map (transfer v f)) = (alignCell t c ms).map (transfer v f) := by
  simp only [alignCell, List.getLast?_map]
  cases ms.getLast? with
  | none => rfl
  | some last =>
    have hused : last.right + v.right - ((t.extent c).1 + v.right) =
        last.right - (t.extent c).1 := by omega
    simp only [Option.map_some, Table.extent_displace, right_transfer, map_shift_transfer, hused]

theorem alignCells_transfer (t : Table) (cells : List Cell) (ms : List Mark) :
    alignCells (t.displace v) cells (ms.map (transfer v f)) =
      (alignCells t cells ms).map (transfer v f) := by
  induction cells generalizing ms with
  | nil => rfl
  | cons c cells ih =>
    cases cells with
    | nil => exact alignCell_transfer v f t c ms
    | cons d rest =>
      simp only [alignCells, ← List.map_take, ← List.map_drop, alignCell_transfer, ih,
        List.map_append]

end Mark

/-! ### States and jobs -/

def WrappedLine.displace (w : WrappedLine) : WrappedLine :=
  ⟨w.right + v.right, w.top + v.down, w.bottom + v.down⟩

/-- The job at another place. How far down it begins is of no account for what comes after
    the first line has begun, so that `y` can be anything. -/
def Job.displace (y : Int) (job : Job) : Job :=
  { job with origin := ⟨job.origin.x + v.right, y⟩ }

/-- The state of a layout that has other lines above its own. -/
def LayoutState.displace (above : Array Line) (s : LayoutState) : LayoutState :=
  { s with
    marks := s.marks.map (Mark.displace v)
    lineLeft := s.lineLeft + v.right
    penX := s.penX + v.right
    top := s.top + v.down
    wrapped := s.wrapped.map (WrappedLine.displace v)
    table := s.table.map (Table.displace v)
    lines := above ++ s.lines.map (Line.displace v) }

/-- The state with other lines above its own, moved by `v`, with the positions that `f` gives. -/
def LayoutState.transfer (above : Array Line) (s : LayoutState) : LayoutState :=
  { s with
    marks := s.marks.map (Mark.transfer v f)
    lineLeft := s.lineLeft + v.right
    penX := s.penX + v.right
    top := s.top + v.down
    wrapped := s.wrapped.map (WrappedLine.displace v)
    table := s.table.map (Table.displace v)
    lines := above ++ s.lines.map (Line.transfer v f) }

theorem LayoutState.displace_eq :
    LayoutState.displace v = LayoutState.transfer v (· + v.later) := by
  funext above s
  rw [displace, Line.displace_eq]
  rfl

/-! ### Setting a line -/

def SetLine.transfer (l : SetLine) : SetLine :=
  { l with
    marks := l.marks.map (Mark.transfer v f)
    left := l.left + v.right
    right := l.right + v.right
    top := l.top + v.down
    bottom := l.bottom + v.down }

namespace LayoutState

variable (y : Int) (above : Array Line) (job : Job) (s : LayoutState)

theorem size_transfer : (s.transfer v f above).marks.size = s.marks.size := Array.size_map

theorem toList_transfer :
    (s.transfer v f above).marks.toList = s.marks.toList.map (Mark.transfer v f) := Array.toList_map

theorem cut_transfer (content : Nat) (reason : LineEnd) :
    (s.transfer v f above).cut content reason = s.cut content reason := by
  cases reason with
  | wrap =>
    simp only [cut, toList_transfer, ← List.map_drop, List.takeWhile_map, List.length_map]
    rfl
  | newline _ | row | text => exact size_transfer v f above s

theorem justification?_transfer (content : List Mark) (reason : LineEnd) :
    (s.transfer v f above).justification? (job.displace v y) (content.map (Mark.transfer v f)) reason =
      s.justification? job content reason := by
  have hroom : job.origin.x + v.right + s.wrapWidth - (Mark.lastRight s.lineLeft content + v.right) =
      job.origin.x + s.wrapWidth - Mark.lastRight s.lineLeft content := by omega
  simp only [justification?, Mark.codes_transfer, transfer, Job.displace, Mark.lastRight_transfer,
    hroom, Option.isNone_map]

theorem justified_transfer (content : Nat) (reason : LineEnd) (ms : List Mark) :
    (s.transfer v f above).justified (job.displace v y) content reason (ms.map (Mark.transfer v f)) =
      (s.justified job content reason ms).map (Mark.transfer v f) := by
  simp only [justified, ← List.map_take, justification?_transfer]
  cases s.justification? job (ms.take content) reason with
  | none => rfl
  | some plan => exact Mark.justify_transfer v f plan content ms

theorem alignShift_transfer (content : List Mark) :
    (s.transfer v f above).alignShift (job.displace v y) (content.map (Mark.transfer v f)) =
      s.alignShift job content := by
  have hused : Mark.lastRight s.lineLeft content + v.right - (job.origin.x + v.right) =
      Mark.lastRight s.lineLeft content - job.origin.x := by omega
  simp only [alignShift, transfer, Job.displace, Mark.lastRight_transfer, hused, Option.isSome_map]

theorem setLine_transfer (content cut : Nat) (reason : LineEnd) :
    (s.transfer v f above).setLine (job.displace v y) content cut reason =
      (s.setLine job content cut reason).transfer v f := by
  have hbox : Mark.box (s.transfer v f above).font.face = Mark.box s.font.face := rfl
  have hspacing : (s.transfer v f above).lineSpacing = s.lineSpacing := rfl
  have hleft : (s.transfer v f above).lineLeft = s.lineLeft + v.right := rfl
  have htop : (s.transfer v f above).top = s.top + v.down := rfl
  have htable : (s.transfer v f above).table = s.table.map (Table.displace v) := rfl
  simp only [setLine, toList_transfer, ← List.map_take, hbox, Mark.box_transfer, justified_transfer,
    alignShift_transfer, hspacing, hleft, htop, htable]
  generalize s.justified job content reason (s.marks.toList.take cut) = ms
  generalize s.alignShift job (ms.take content) = shift
  generalize Mark.box s.font.face (s.marks.toList.take cut) = box
  have hedge : s.lineLeft + v.right + shift = s.lineLeft + shift + v.right := by omega
  have hbottom : s.top + v.down + s.lineSpacing box.2 = s.top + s.lineSpacing box.2 + v.down := by
    omega
  cases s.table with
  | none =>
    simp only [Option.map_none, Mark.map_shift_transfer, hedge, hbottom, ← List.map_take,
      Mark.lastRight_transfer, SetLine.transfer]
  | some t =>
    have hcells : (t.displace v).cells = t.cells := rfl
    simp only [Option.map_some, hcells, Mark.alignCells_transfer, hedge, hbottom, ← List.map_take,
      Mark.lastRight_transfer, SetLine.transfer]

end LayoutState

/-! ### What is reported of a line -/

namespace SetLine

variable (above : Array Line) (l : SetLine) (s : LayoutState)

theorem background_transfer :
    (l.transfer v f).background (s.transfer v f above) =
      (l.background s).map (Item.transfer v f) := by
  have hformat : (s.transfer v f above).format = s.format := rfl
  have hfont : (s.transfer v f above).font = s.font := rfl
  have hbounds : Rect.mk (l.left + v.right) (l.top + v.down) (l.right + v.right)
      (l.bottom + v.down) = (Rect.mk l.left l.top l.right l.bottom).displace v := rfl
  simp only [background, hformat, hfont, transfer, hbounds, Rect.inflate_displace]
  split <;> rfl

theorem cellBorders_transfer :
    (l.transfer v f).cellBorders (s.transfer v f above) =
      (l.cellBorders s).map (Item.transfer v f) := by
  have htable : (s.transfer v f above).table = s.table.map (Table.displace v) := rfl
  simp only [cellBorders, htable]
  cases s.table with
  | none => rfl
  | some t =>
    have hborder : (t.displace v).border = t.border := rfl
    have hcells : (t.displace v).cells = t.cells := rfl
    simp only [Option.map_some, hborder, hcells]
    split
    · rw [List.map_map]
      refine List.map_congr_left fun c _ => ?_
      have hright : (t.extent c).1 + v.right + (t.extent c).2 =
          (t.extent c).1 + (t.extent c).2 + v.right := by omega
      simp only [Table.extent_displace, Function.comp_apply, hright]
      rfl
    · rfl

theorem selectionLeft?_transfer (span : Span Selection) :
    (l.transfer v f).selectionLeft? span = (l.selectionLeft? span).map (· + v.right) := by
  simp only [selectionLeft?, transfer, Mark.xAt_transfer]
  cases span.start with
  | glyph i =>
    simp only
    split <;> rfl
  | continued =>
    simp only [Option.map_some]
    split <;> rfl

theorem spanRight_transfer {α : Type} (span : Span α) :
    (l.transfer v f).spanRight span = l.spanRight span + v.right := by
  simp only [spanRight, transfer]
  cases span.stopGlyph? l.content with
  | none => rfl
  | some i => exact Mark.xAt_transfer v f l.marks i l.right

theorem selectionBox_transfer (images : Registry Image) (span : Span Selection) :
    (l.transfer v f).selectionBox images span =
      (l.selectionBox images span).map (Item.transfer v f) := by
  simp only [selectionBox, selectionLeft?_transfer, spanRight_transfer]
  cases l.selectionLeft? span with
  | none => rfl
  | some left =>
    have hlt : l.spanRight span + v.right < left + v.right ↔ l.spanRight span < left := by omega
    have hbounds : Rect.mk (left + v.right) (l.transfer v f).top (l.spanRight span + v.right)
        (l.transfer v f).bottom = (Rect.mk left l.top (l.spanRight span) l.bottom).displace v := rfl
    simp only [Option.map_some, hlt, hbounds, Rect.inflate_displace]
    split
    · rfl
    · cases span.data.image with
      | none => rfl
      | some index =>
        simp only
        cases images.get? index <;> rfl

theorem boxes_transfer (images : Registry Image) :
    (l.transfer v f).boxes (s.transfer v f above) images =
      (l.boxes s images).map (Item.transfer v f) := by
  have hselections : (s.transfer v f above).selections = s.selections := rfl
  have hbox := funext (selectionBox_transfer v f l images)
  simp only [boxes, background_transfer, cellBorders_transfer, hselections, hbox, List.map_append,
    List.map_flatMap]

theorem location_transfer (m : Mark) :
    (l.transfer v f).location (m.transfer v f) = (l.location m).displace v := by
  simp only [location, transfer, Mark.transfer, Point.displace, Point.mk.injEq]
  omega

theorem glyph_transfer (wrapped : Bool) (m : Mark) :
    (l.transfer v f).glyph wrapped (m.transfer v f) =
      { (l.glyph wrapped m).displace v with index := f (l.glyph wrapped m).index } := by
  simp only [glyph, location_transfer, Glyph.displace]
  rfl

theorem markItems_transfer (wrapped : Bool) (m : Mark) :
    (l.transfer v f).markItems wrapped (m.transfer v f) =
      (l.markItems wrapped m).map (Item.transfer v f) := by
  have hkind : (m.transfer v f).kind = m.kind := rfl
  have hglyph : Item.glyph ((l.transfer v f).glyph wrapped (m.transfer v f)) =
      (Item.glyph (l.glyph wrapped m)).transfer v f :=
    congrArg Item.glyph (glyph_transfer v f l wrapped m)
  simp only [markItems, hkind]
  cases m.kind with
  | image i =>
    have hsum : (l.transfer v f).location (m.transfer v f) + i.bounds.origin =
        (l.location m + i.bounds.origin).displace v := by
      rw [location_transfer]
      change Point.mk _ _ = Point.mk _ _
      simp only [Point.displace, Point.add_x, Point.add_y, Point.mk.injEq]
      omega
    simp only [hglyph, hsum, Rect.ofOriginSize_displace]
    rfl
  | glyph _ | placeholder | lineEnd | textEnd =>
    simp only [hglyph]
    rfl

theorem glyphs_transfer : (l.transfer v f).glyphs = l.glyphs.map (Item.transfer v f) := by
  have hmarks : (l.transfer v f).marks = l.marks.map (Mark.transfer v f) := rfl
  have hcontent : (l.transfer v f).content = l.content := rfl
  simp only [glyphs, hmarks, hcontent, ← List.map_take, ← List.map_drop, List.flatMap_map,
    List.map_append, List.map_flatMap, markItems_transfer]

theorem region?_transfer (span : Span Nat) :
    (l.transfer v f).region? span = (l.region? span).map (Region.displace v) := by
  have hmax : ∀ left, max (l.spanRight span + v.right) (left + v.right) =
      max (l.spanRight span) left + v.right := fun left => (Int.max_add_right _ _ _)
  have hregion : ∀ left? : Option Int,
      (left?.map (· + v.right)).map (fun left => Region.mk span.data
        ⟨left, l.top + v.down, max (l.spanRight span + v.right) left, l.bottom + v.down⟩) =
      (left?.map fun left => Region.mk span.data
        ⟨left, l.top, max (l.spanRight span) left, l.bottom⟩).map (Region.displace v) := by
    intro left?
    cases left? with
    | none => rfl
    | some left =>
      simp only [Option.map_some, hmax]
      rfl
  simp only [region?, spanRight_transfer]
  rw [← hregion]
  simp only [transfer, List.length_map, Mark.xAt_transfer]
  congr 1
  cases span.start with
  | continued => rfl
  | glyph i =>
    simp only
    split
    · rfl
    · split <;> rfl

theorem regions_transfer :
    (l.transfer v f).regions (s.transfer v f above) = (l.regions s).map (Region.displace v) := by
  have hregions : (s.transfer v f above).regions = s.regions := rfl
  simp only [regions, hregions, List.map_filterMap, region?_transfer]

theorem ruleRight_transfer (span : Span Rule) :
    (l.transfer v f).ruleRight span = l.ruleRight span + v.right := by
  simp only [ruleRight, transfer, Mark.xAt_transfer, List.getElem?_map]
  cases span.stopGlyph? l.content with
  | none => rfl
  | some stop =>
    simp only
    split
    · rfl
    · cases l.marks[max stop 1 - 1]? with
      | none => rfl
      | some m => exact Mark.right_transfer v f m

theorem rule?_transfer (span : Span Rule) :
    (l.transfer v f).rule? span = (l.rule? span).map (Item.transfer v f) := by
  have hmarks : (l.transfer v f).marks = l.marks.map (Mark.transfer v f) := rfl
  have hcontent : (l.transfer v f).content = l.content := rfl
  simp only [rule?, hmarks, hcontent, List.length_map, List.getElem?_map, ruleRight_transfer]
  cases (span.firstGlyph? l.marks.length).filter (· < l.content) with
  | none => rfl
  | some first =>
    simp only [Option.bind_eq_bind, Option.bind_some]
    cases l.marks[first]? with
    | none => rfl
    | some mark =>
      have hlt : mark.x + v.right < l.ruleRight span + v.right ↔ mark.x < l.ruleRight span := by omega
      simp only [Option.map_some, Option.bind_some, Mark.transfer, hlt, transfer]
      split
      · simp only [Option.map_some, Item.transfer, Item.displace, Option.some.injEq,
          Item.rule.injEq, true_and, and_true]
        omega
      · rfl

theorem rules_transfer :
    (l.transfer v f).rules (s.transfer v f above) = (l.rules s).map (Item.transfer v f) := by
  have hunder : (s.transfer v f above).underline = s.underline := rfl
  have hstrike : (s.transfer v f above).strike = s.strike := rfl
  simp only [rules, hunder, hstrike, List.map_append, List.map_filterMap, rule?_transfer]

theorem line_transfer (images : Registry Image) :
    (l.transfer v f).line (s.transfer v f above) images = (l.line s images).transfer v f := by
  simp only [line, boxes_transfer, glyphs_transfer, regions_transfer, rules_transfer]
  rfl

end SetLine

end RichText
