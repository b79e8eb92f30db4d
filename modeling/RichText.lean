import RichText.Query
import RichText.Sample
import RichText.Markup.Command
import RichText.Proofs.Markup.Instructions
import RichText.Proofs.Markup.Commands
import RichText.Proofs.Markup.Pieces
import RichText.Proofs.Layout.Safety
import RichText.Proofs.Layout.Events
import RichText.Proofs.Layout.Overhang
import RichText.Proofs.Layout.Justifying
import RichText.Proofs.Layout.Paragraphs
import RichText.Proofs.Layout.Words
import RichText.Proofs.Layout.Exhausted
import RichText.Proofs.Layout.Decorated
import RichText.Proofs.Layout.Ink
import RichText.Proofs.Query.Translation
import RichText.Proofs.Query.Stopping
import RichText.Proofs.Query.Pass
import RichText.Proofs.Rounding
import RichText.Proofs.Layout.Rows
import RichText.Proofs.Query.HitTest
import RichText.Proofs.Query.Positions
import RichText.Proofs.Query.Boundaries
import RichText.Proofs.Query.Extent
import RichText.Proofs.Query.Insertion
import RichText.Proofs.Query.Widening
import RichText.Proofs.Layout.Combining
import RichText.Proofs.Layout.Tabs
import RichText.Proofs.Layout.TabStops
import RichText.Proofs.Query.Drawing
import RichText.Proofs.Layout.Cells
import RichText.Proofs.Layout.FontInForce
import RichText.Proofs.Layout.LineBox
import RichText.Proofs.Layout.Indents
import RichText.Proofs.Layout.BreakingLetters
import RichText.Proofs.Codec
import RichText.Proofs.Layout.Planning
import RichText.Proofs.Layout.Segments
import RichText.Proofs.Borders
