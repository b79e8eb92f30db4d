/-
  RichText/Layout/Decorations.lean
  ================================
  **The rules under and through the glyphs that wait for their line.**

  A rule stays open from glyph to glyph as long as its position, color and
  thickness stay the same; any change closes it and opens another.
-/
import RichText.Color
import RichText.Layout.Span

namespace RichText

/-- An underline or a strikethrough. -/
structure Rule where
  thickness : Int
  /-- How far down in the box of the first covered glyph. -/
  offset : Int
  color : Color
  /-- Whether the rule goes on over the room after the last covered glyph. -/
  gaps : Bool
deriving DecidableEq, Repr

/-- The rules of one kind. -/
structure Decorations where
  spans : List (Span Rule)
  /-- Where the open rule stands, seen from the baseline. -/
  openAt : Option Int
deriving DecidableEq, Repr

namespace Decorations

def empty : Decorations := ⟨[], none⟩

/-- Closes the open rule, if there is one, before the glyph at a position. -/
def close (d : Decorations) (pos : Nat) : Decorations :=
  match d.openAt, d.spans with
  | none, _ => d
  | some _, [] => ⟨[], none⟩
  | some _, s :: rest => ⟨(if s.isOpen then s.close pos else s) :: rest, none⟩

/-- Whether the open rule can go on as `rule`, which stands `height` below the
    baseline. -/
def continues (d : Decorations) (rule : Rule) (height : Int) : Bool :=
  d.openAt == some height &&
    match d.spans with
    | [] => false
    | s :: _ => s.data.color.toRgba == rule.color.toRgba && s.data.thickness == rule.thickness

/-- Covers the glyph at a position by a rule that stands `height` below the baseline. -/
def cover (d : Decorations) (pos : Nat) (rule : Rule) (height : Int) : Decorations :=
  if d.continues rule height then d
  else ⟨Span.opening pos rule :: (d.close pos).spans, some height⟩

/-- Covers the glyph at a position, or leaves it bare. -/
def update (d : Decorations) (pos : Nat) : Option (Rule × Int) → Decorations
  | some (rule, height) => d.cover pos rule height
  | none => d.close pos

/-- What is left once the glyphs before `cut` are reported. -/
def carry (d : Decorations) (cut : Nat) : Decorations :=
  { d with spans := d.spans.filterMap (Span.carry cut) }

@[simp] theorem openAt_close (d : Decorations) (pos : Nat) : (d.close pos).openAt = none := by
  obtain ⟨spans, openAt⟩ := d
  cases openAt <;> cases spans <;> rfl

end Decorations

end RichText
