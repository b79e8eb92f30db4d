/-
  RichText/Layout/Commit.lean
  ===========================
  **Committing a line.**

  Wrapping, a newline, the next row of a table and the last code point all end a
  line, which is then set: its marks are justified and aligned, its height is
  determined, and what is reported of it joins the lines of the result.  Marks past
  the cut, and spans that have not ended, go on to the next line.
-/
import RichText.Layout.SetLine

namespace RichText

/-- Why a line ends. -/
inductive LineEnd where
  | wrap
  | newline (paragraph : Bool)
  | row
  | text
deriving DecidableEq, Repr

namespace LayoutState

variable (job : Job) (s : LayoutState)

/-! ### Setting the line -/

/-- How many marks belong to a line whose content is the first `content` marks.
    A wrapped line takes the blanks after its content. -/
def cut (content : Nat) (reason : LineEnd) : Nat :=
  match reason with
  | .wrap => content + ((s.marks.toList.drop content).takeWhile Mark.isBlank).length
  | _ => s.marks.size

/-- How far below the line the next one starts, both seen from above. -/
def lineSpacing (contentHeight : Int) : Int :=
  match s.format.lineSpacing with
  | some spacing => spacing.resolve contentHeight
  | none =>
    let leading := max (s.font.face.lineGap - s.font.face.height) 0
    (s.font.style.lineSpacing.mul (Binary32.ofInt (contentHeight + leading))).round

/-- The justification of a wrapped line, if there is room that can be given out. -/
def justification? (content : List Mark) (reason : LineEnd) : Option Justification :=
  let codes := Mark.codes content
  if reason = .wrap ∧ s.format.justify.getD s.font.style.justify ∧ 0 < s.wrapWidth ∧
      s.table.isNone then
    Justification.plan? (Justification.countSpaces codes) (Justification.countGaps codes)
      (job.origin.x + s.wrapWidth - Mark.lastRight s.lineLeft content)
      s.font.face.digitWidth s.font.face.height
  else none

/-- The marks of the line, justified if they are to be. -/
def justified (content : Nat) (reason : LineEnd) (marks : List Mark) : List Mark :=
  match s.justification? job (marks.take content) reason with
  | some plan => Mark.justify plan content marks
  | none => marks

/-- The shift that aligns the line within the wrap width; cells of a table are
    aligned on their own. -/
def alignShift (content : List Mark) : Int :=
  if s.table.isSome ∨ s.wrapWidth ≤ 0 then 0
  else
    (s.format.align.getD s.font.style.align).shift s.wrapWidth
      (Mark.lastRight s.lineLeft content - job.origin.x)

/-- The line of the first `cut` marks, of which the first `content` are content. -/
def setLine (content cut : Nat) (reason : LineEnd) : SetLine :=
  let marks := s.marks.toList.take cut
  let (baseline, height) := Mark.box s.font.face marks
  let marks := s.justified job content reason marks
  let shift := s.alignShift job (marks.take content)
  let marks :=
    match s.table with
    | some t => Mark.alignCells t t.cells.reverse marks
    | none => marks.map (Mark.shift shift)
  let left := s.lineLeft + shift
  ⟨marks, content, left, Mark.lastRight left (marks.take content), s.top,
    s.top + s.lineSpacing height, baseline, height⟩

/-- The extra room after a line that ends a paragraph. -/
def paragraphSpacing (contentHeight : Int) : Int :=
  Length.resolveOr s.format.paragraphSpacing contentHeight s.font.style.paragraphSpacing

/-! ### Going on to the next line -/

/-- The state with an empty line below the one that ended at `bottom`. -/
def nextLine (bottom : Int) (paragraph : Bool) : LayoutState :=
  { s with
    top := bottom + s.verticalSpace
    verticalSpace := 0
    paragraph := paragraph
    lastBreak := none
    lineStarted := false }

/-- Drops the first `cut` marks and moves the others to the start of the line. -/
def carryMarks (cut : Nat) : LayoutState :=
  let rest := s.marks.toList.drop cut
  match rest with
  | [] => { s with marks := #[], prev := none }
  | first :: _ =>
    let s := s.beginLine job
    let rest := rest.map (Mark.shift (s.lineLeft - first.x))
    { s with marks := rest.toArray, penX := Mark.lastRight s.penX rest }

/-- Carries the spans over the cut. -/
def carrySpans (cut : Nat) : LayoutState :=
  { s with
    selections := s.selections.filterMap (Span.carry cut)
    regions := s.regions.filterMap (Span.carry cut)
    underline := s.underline.carry cut
    strike := s.strike.carry cut }

/-- Sets the first `content` marks as a line and goes on to the next one. -/
def commit (content : Nat) (reason : LineEnd) : LayoutState :=
  let cut := s.cut content reason
  let l := s.setLine job content cut reason
  let line := l.line s job.printer.images
  let wrapped :=
    if reason = .wrap ∧ cut = s.marks.size then
      some ⟨max (Mark.lastRight l.right l.marks) l.right, l.top, l.bottom⟩
    else none
  let paragraph := reason == .newline true
  let spacing := if paragraph then s.paragraphSpacing l.height else 0
  let s := (s.carrySpans cut).nextLine (l.bottom + spacing) paragraph
  let s := if reason = .row then { s with table := s.table.map Table.startRow } else s
  { s with wrapped := wrapped, lines := s.lines.push line }.carryMarks job cut

/-- Sets all the marks as a line. -/
def commitAll (reason : LineEnd) : LayoutState := s.commit job s.marks.size reason

/-- Sets the line if there is anything on it. -/
def finishLine (reason : LineEnd) : LayoutState :=
  if s.lineIsEmpty then s else s.commitAll job reason

end LayoutState

end RichText
