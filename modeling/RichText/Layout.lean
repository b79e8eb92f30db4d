/-
  RichText/Layout.lean
  ====================
  **Laying out markup.**

  A layout is one pass over the tokens of the markup, which commits a line after
  another.  Every query of a printer looks at the lines of one layout.
-/
import RichText.Layout.Apply
import RichText.Markup.Token

namespace RichText

namespace LayoutState

variable (job : Job) (s : LayoutState)

/-- Takes one token into the layout. -/
def step (l : Lexeme) : LayoutState :=
  match l.token with
  | .text c => s.place job c l.index
  | .newline c => s.newline job c l.index
  | .placeholder => s.placePlaceholder job l.index
  | .row => s.endRow job
  | .cell => s.nextCell job
  | .instruction i => s.apply job l.index i
  | .nothing => s

def run (ls : List Lexeme) : LayoutState := ls.foldl (step job) s

/-- The end of the text as a glyph of a line that was wrapped just before it. -/
def wrappedEnd (w : WrappedLine) (total : Nat) : Glyph where
  code := none
  font := s.fontId
  location := ⟨w.right, w.top⟩
  color := s.textColor
  index := total
  advance := 0
  lineTop := w.top
  lineBottom := w.bottom
  lineEnd := true
  wrapped := true

/-- The lines of a text of `total` code points that ends here. Its end is marked on
    the last line, also where that line was wrapped and nothing is left after it. -/
def finish (total : Nat) : List Line :=
  match s.wrapped.filter fun _ => s.lineIsEmpty with
  | some w => s.lines.toList ++ [⟨[], [.glyph (s.wrappedEnd w total)], [], []⟩]
  | none => ((s.pushMark job 0 .textEnd 0 total).commitAll job .text).lines.toList

end LayoutState

namespace Job

/-- The lines of the code points `cs`, set in the default font to begin with. -/
def layoutWith (job : Job) (font : Font) (cs : List Nat) : List Line :=
  ((LayoutState.initial job font).run job (lexemes cs)).finish job cs.length

/-- The lines of a markup. Markup has no errors; only the default font must be there. -/
def layout (job : Job) (markup : List UInt8) : Except LayoutError (List Line) :=
  match job.printer.fonts.get? job.printer.defaultFont with
  | none => .error (.missingDefaultFont job.printer.defaultFont)
  | some font => .ok (job.layoutWith font (Codec.decode markup))

end Job

end RichText
