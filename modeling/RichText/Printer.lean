/-
  RichText/Printer.lean
  =====================
  **The tables that markup refers to.**

  A printer owns the fonts, colors and images that markup names by number, the
  font at which every search for a replacement ends, and the letters after which
  a line may break.  Only that last font has to be there for a layout.
-/
import RichText.Font.Cascade
import RichText.Font.BoxFace
import RichText.Registry

namespace RichText

/-- The tables of a layout. -/
structure Printer where
  fonts : Registry Font
  colors : Registry ColorPair
  images : Registry Image
  /-- The font at which every search ends. -/
  defaultFont : Nat
  /-- A line may break after these letters. -/
  breakingLetters : List Nat

/-- What keeps a layout from being made. -/
inductive LayoutError where
  /-- The font at which every search ends is not registered. -/
  | missingDefaultFont (id : Nat)
deriving DecidableEq, Repr

namespace LayoutError

/-- The wording of an error. -/
def message : LayoutError → String
  | missingDefaultFont id => s!"default font {id} is not registered with the printer"

end LayoutError

namespace Printer

/-- Empty tables; lines break after hyphens. -/
def empty : Printer where
  fonts := .empty
  colors := .empty
  images := .empty
  defaultFont := FontRole.normal.id
  breakingLetters := ['-'.toNat]

/-- Boxes ten pixels wide as the default font, and twelve wide as the bold one. -/
def boxes : Printer :=
  { empty with
    fonts := (Registry.empty.insert FontRole.normal.id (Font.ofFace BoxFace.standard.face)).insert
      FontRole.bold.id (Font.ofFace (BoxFace.ofAdvance 12).face) }

theorem font_of_boxes {id : Nat} {font : Font} (h : boxes.fonts.get? id = some font) :
    font = Font.ofFace BoxFace.standard.face ∨ font = Font.ofFace (BoxFace.ofAdvance 12).face := by
  simp only [boxes, empty, Registry.get?_insert, Registry.get?_empty] at h
  split at h
  · exact Or.inr (Option.some.inj h).symm
  · split at h
    · exact Or.inl (Option.some.inj h).symm
    · cases h

/-- The registered font that stands for a number. -/
def resolveFont (p : Printer) (id : Nat) : Nat :=
  Cascade.resolve p.fonts.contains p.defaultFont id

/-- The registered font that stands for a number in sub- and superscripts; without
    any for the script it is the one that stands for the number elsewhere. -/
def resolveScriptFont (p : Printer) (id : Nat) : Nat :=
  Cascade.resolve p.fonts.contains (p.resolveFont id) (Cascade.scriptRole id).id

/-- With the default font registered every number leads to a registered font. -/
theorem contains_resolveFont {p : Printer} (h : p.fonts.contains p.defaultFont = true) (id : Nat) :
    p.fonts.contains (p.resolveFont id) = true := by
  rcases Cascade.resolve_registered p.fonts.contains p.defaultFont id with hr | hr
  · exact hr
  · rw [resolveFont, hr, h]

theorem contains_resolveScriptFont {p : Printer} (h : p.fonts.contains p.defaultFont = true)
    (id : Nat) : p.fonts.contains (p.resolveScriptFont id) = true := by
  rcases Cascade.resolve_registered p.fonts.contains (p.resolveFont id)
    (Cascade.scriptRole id).id with hr | hr
  · exact hr
  · rw [resolveScriptFont, hr]
    exact contains_resolveFont h id

end Printer

end RichText
