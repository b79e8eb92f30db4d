/-
  RichText/Layout/Place.lean
  ==========================
  **Putting marks on the line.**

  Each mark is put at the pen and moves it on.  When the pen has passed the wrap
  width the line is wrapped: at the last place for a break or, without one, before
  the mark that went too far.
-/
import RichText.Layout.Commit

namespace RichText.LayoutState

open CodePoint

variable (job : Job) (s : LayoutState)

/-! ### Decorations -/

/-- Whether a decoration covers a mark; `shown` is what the font says. -/
def covers (format : LineFormat) (shown : Bool) (code : Nat) (kind : MarkKind)
    (descends : Bool) : Bool :=
  format.shown.getD shown &&
    match kind with
    | .glyph _ =>
      if code = tab then format.settings.tabs
      else if isSpace code then format.settings.spaces
      else format.settings.descenders || !descends
    | .image _ | .placeholder => format.settings.placeholders
    | .lineEnd | .textEnd => false

/-- The rule that covers a mark, and how far below the baseline it stands. -/
def ruleFor (format : LineFormat) (position baseline shift : Int) (color : Color) : Rule × Int :=
  let offset := Length.resolveOr format.offset s.font.face.height position + shift
  let thickness := s.font.lineThickness
  (⟨max (Length.resolveOr format.thickness thickness thickness) 1, offset,
    format.color.getD color, format.settings.gaps⟩, offset - baseline)

/-- Opens, continues or closes the two decorations for the mark that comes next. -/
def decorate (code : Nat) (kind : MarkKind) (baseline shift : Int) (color : Color) :
    LayoutState :=
  let face := s.font.face
  let style := s.font.style
  let pos := s.marks.size
  let descends := kind == .glyph true && face.descends code
  let under := s.format.underline
  let strike := s.format.strike
  { s with
    underline := s.underline.update pos <|
      if covers under style.underline code kind descends then
        some (s.ruleFor under face.underlineOffset baseline shift color)
      else none
    strike := s.strike.update pos <|
      if covers strike style.strike code kind false then
        some (s.ruleFor strike style.strikePosition baseline shift color)
      else none }

/-! ### Selections -/

/-- The color of the selected text, if the last open selection has one. -/
def selectedColor : Option Color :=
  (s.selections.find? Span.isOpen).bind (·.data.text)

/-- Starts a selection. Its box has a color of its own, that of the color table, or
    a faint color of the text; an image takes the place of the latter two. -/
def startSelection : LayoutState :=
  let style := s.format.selection
  let table := job.printer.colors.get? ColorRole.selection.index
  let background := style.background.getD (table.elim s.textColor.faded (·.background))
  let selection : Selection :=
    { text := style.text
      background := background
      noBackground := style.noBackground
      image := if style.background.isSome then none else style.image
      padding := style.padding.margin s.font.face.em }
  { s with selections := Span.opening s.marks.size selection :: s.selections }

/-- Ends the last selection that is open. -/
def endSelection : LayoutState :=
  { s with selections := closeFirst (fun _ => true) s.marks.size s.selections }

/-! ### Adding a mark -/

/-- The baseline and the height of the box of a mark. Sub- and superscripts move
    the baseline by a part of itself. -/
def markBox (kind : MarkKind) : Int × Int :=
  let (baseline, height) :=
    match kind with
    | .image i => (i.baseline, i.height)
    | .placeholder => (s.placeholder.height, s.placeholder.height)
    | _ => (s.font.face.baseline, s.font.face.height)
  match s.format.script with
  | none => (baseline, height)
  | some script => (((Binary32.ofInt baseline).mul (factor script)).round, height)
where
  /-- What a script makes of a baseline, as a multiple. -/
  factor : Script → Binary32
    | .lowered => Binary32.one.add (Binary32.ofRatio (-3) 10)
    | .raised => Binary32.one.add (Binary32.ofRatio 4 10)

/-- The offset of the marks that follow. -/
def letterOffset : Point :=
  ⟨Length.resolveOr s.format.letterOffsetX s.font.face.em 0,
    Length.resolveOr s.format.letterOffsetY s.font.face.em 0⟩

/-- Puts a mark at the pen. -/
def pushMark (code : Nat) (kind : MarkKind) (advance : Int) (index : Nat) : LayoutState :=
  let s := s.beginLine job
  let (baseline, height) := s.markBox kind
  let offset := s.letterOffset
  let color := s.selectedColor.getD s.textColor
  let mark : Mark := ⟨s.fontId, code, kind, s.penX, offset, advance, baseline, height, color, index⟩
  let s := s.decorate code kind baseline offset.y color
  { s with
    marks := s.marks.push mark
    penX := s.penX + advance
    prev := some code
    lastAdvance := advance }

/-! ### Wrapping -/

/-- The first `n` marks without the spaces at their end. -/
def trimSpaces (marks : Array Mark) : Nat → Nat
  | 0 => 0
  | n + 1 => if (marks[n]?).any (isSpace ·.code) then trimSpaces marks n else n + 1

/-- Where the line is broken: at the last place for a break or, failing that,
    before the last mark, but not before the only one. -/
def breakAt : Nat :=
  let pos :=
    match s.lastBreak with
    | some pos => if 0 < pos then pos else emergency
    | none => emergency
  trimSpaces s.marks pos
where
  emergency : Nat := if s.marks.size ≤ 1 then s.marks.size else s.marks.size - 1

/-- Wraps the line if the pen has passed the wrap width. -/
def checkWrap : LayoutState :=
  if s.wordWrap ∧ 0 < s.wrapWidth ∧ s.table.isNone ∧ job.origin.x + s.wrapWidth < s.penX then
    s.commit job s.breakAt .wrap
  else s

/-- Puts a mark at the pen and wraps the line if need be. -/
def addMark (code : Nat) (kind : MarkKind) (advance : Int) (index : Nat) : LayoutState :=
  (s.pushMark job code kind advance index).checkWrap job

/-! ### Text -/

/-- The room that a tab takes: up to the nearest stop that the pen has not reached
    or, for want of one, up to a multiple of the tab width. -/
def tabAdvance : Int :=
  let pen := s.penX - job.origin.x
  let stops := s.format.tabStops.map fun (_, p) => p.resolveWith s.font.face.em s.wrapWidth
  let width := max (s.format.tabWidth.getD s.font.style.tabWidth) 1
  ((stops.filter (pen < ·)).min?).getD ((pen / width + 1) * width) - pen

/-- The advance of a code point, and whether it is drawn. -/
def textAdvance (c : Nat) : Int × Bool :=
  let face := s.font.face
  if c = tab then (s.tabAdvance job, false)
  else if isSpace c && !face.hasGlyph c then (spaceWidth c face.em face.digitWidth, false)
  else (face.advance c, true)

/-- The room between the pen and the next glyph: kerning and letter spacing. A
    combining mark goes back over the glyph before it. -/
def roomBefore (c : Nat) : Int :=
  if c = tab then 0
  else
    match s.prev with
    | none => 0
    | some p =>
      s.font.face.kerning p c + if isSpaced c then s.letterSpacing else -s.lastAdvance

/-- Puts a glyph or a space on the line. A line may break before some spaces, and
    after some letters. -/
def place (c : Nat) (index : Nat) : LayoutState :=
  let s := s.beginLine job
  let s := if isBreaking c then { s with lastBreak := some s.marks.size } else s
  let (advance, visible) := s.textAdvance job c
  let s := { s with penX := s.penX + s.roomBefore c }
  let s := s.addMark job c (.glyph visible) advance index
  if s.breaking.contains c then { s with lastBreak := some s.marks.size } else s

/-- Puts a newline on the line and ends it. A newline in a table ends the row. -/
def newline (c : Nat) (index : Nat) : LayoutState :=
  let s := s.pushMark job c .lineEnd 0 index
  s.commitAll job (if s.table.isSome then .row else .newline (startsParagraph c))

/-- Puts a placeholder on the line. -/
def placePlaceholder (index : Nat) : LayoutState :=
  s.addMark job CodePoint.placeholder .placeholder s.placeholder.width index

/-! ### Tables -/

/-- Starts the next row. -/
def endRow : LayoutState :=
  if s.table.isSome then (s.beginLine job).commitAll job .row else s

/-- Starts the next cell: the pen moves to its left edge. -/
def nextCell : LayoutState :=
  match s.table with
  | none => s
  | some t =>
    let t := t.nextCell s.marks.size
    let s := { s with table := some t }.beginLine job
    { s with penX := max s.penX t.cellLeft, prev := none, lastBreak := none }

def beginTable (t : Table) : LayoutState :=
  { s.finishLine job (.newline false) with table := some t }

def endTable : LayoutState :=
  if s.table.isSome then { s.finishLine job .row with table := none, lineStarted := false } else s

end RichText.LayoutState
