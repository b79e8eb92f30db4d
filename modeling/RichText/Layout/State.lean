/-
  RichText/Layout/State.lean
  ==========================
  **The state of a layout between two tokens.**

  Marks gather on the line being filled until the line is committed.  The state
  holds them with everything that instructions have changed, and the lines that
  have been committed.
-/
import RichText.Layout.Decorations
import RichText.Layout.Format
import RichText.Layout.Line
import RichText.Layout.Mark
import RichText.Printer

namespace RichText

/-- What a layout is asked for. -/
structure Job where
  printer : Printer
  /-- Where the first line starts. -/
  origin : Point
  /-- The wrap width; without a positive one lines are not wrapped. -/
  width : Int

/-- A selection, drawn as was set when it started. -/
structure Selection where
  text : Option Color
  background : Color
  noBackground : Bool
  image : Option Nat
  padding : Margin
deriving DecidableEq, Repr

/-- Where a line ended that was wrapped with nothing left for the next one. -/
structure WrappedLine where
  right : Int
  top : Int
  bottom : Int
deriving DecidableEq, Repr

/-- The state of a layout. -/
structure LayoutState where
  format : Format
  /-- The number of the font in use, and the font. -/
  fontId : Nat
  font : Font
  wrapOverride : Option Length
  /-- The wrap width in force; zero does not wrap. -/
  wrapWidth : Int
  wordWrap : Bool
  breaking : List Nat
  /-- The marks of the line being filled. -/
  marks : Array Mark
  /-- Whether the line has been given its left edge. -/
  lineStarted : Bool
  /-- Whether the line is the first of a paragraph. -/
  paragraph : Bool
  lineLeft : Int
  penX : Int
  top : Int
  wrapped : Option WrappedLine
  /-- The position of the last place for a break. -/
  lastBreak : Option Nat
  /-- The code point before the pen, for kerning. -/
  prev : Option Nat
  lastAdvance : Int
  /-- Vertical space that follows the line. -/
  verticalSpace : Int
  placeholder : Size
  underline : Decorations
  strike : Decorations
  selections : List (Span Selection)
  regions : List (Span Nat)
  table : Option Table
  /-- The lines committed so far. -/
  lines : Array Line

namespace LayoutState

/-- The state before the first token. -/
def initial (job : Job) (font : Font) : LayoutState where
  format := .initial job.printer.defaultFont
  fontId := job.printer.defaultFont
  font := font
  wrapOverride := none
  wrapWidth := max job.width 0
  wordWrap := true
  breaking := job.printer.breakingLetters
  marks := #[]
  lineStarted := false
  paragraph := true
  lineLeft := job.origin.x
  penX := job.origin.x
  top := job.origin.y
  wrapped := none
  lastBreak := none
  prev := none
  lastAdvance := 0
  verticalSpace := 0
  placeholder := .zero
  underline := .empty
  strike := .empty
  selections := []
  regions := []
  table := none
  lines := #[]

variable (job : Job) (s : LayoutState)

/-- Whether nothing has been put on the line. -/
def lineIsEmpty : Bool := !s.lineStarted && s.marks.isEmpty

def textColor : Color := s.format.color.getD s.font.style.color

/-- The left edge of the line: that of the cell in a table, else the indents. -/
def leftEdge : Int :=
  match s.table with
  | some t => t.cellLeft
  | none => job.origin.x + s.format.indent + if s.paragraph then s.format.hangingIndent else 0

/-- Gives the line its left edge, once. -/
def beginLine : LayoutState :=
  if s.lineStarted then s
  else { s with lineStarted := true, lineLeft := s.leftEdge job, penX := s.leftEdge job }

/-- Computes the wrap width from what overrides it. -/
def updateWrapWidth : LayoutState :=
  { s with wrapWidth := max ((s.wrapOverride).elim job.width (·.resolveMultiple s.font.face.em)) 0 }

/-- The number of the font that the formatting asks for. -/
def wantedFont : Nat :=
  if s.format.script.isSome then job.printer.resolveScriptFont s.format.font
  else job.printer.resolveFont s.format.font

/-- Takes another font into use. Rules end where the font changes, and glyphs are
    not kerned over a change of the baseline. -/
def useFont (id : Nat) (font : Font) : LayoutState :=
  if id = s.fontId then s
  else
    { s with
      fontId := id
      font := font
      prev := if font.face.baseline = s.font.face.baseline then s.prev else none
      underline := s.underline.close s.marks.size
      strike := s.strike.close s.marks.size }

/-- Takes the font into use that the formatting asks for. -/
def switchFont : LayoutState :=
  let id := s.wantedFont job
  ((job.printer.fonts.get? id).elim s (s.useFont id)).updateWrapWidth job

/-- The room between two letters. -/
def letterSpacing : Int :=
  Length.resolveOr s.format.letterSpacing s.font.face.em s.font.style.letterSpacing

end LayoutState

end RichText
