/-
  RichText/Layout/Justification.lean
  ==================================
  **Filling a wrapped line to its full width.**

  Spaces take what is missing first, each no more than the width of a digit.  Then
  the gaps between letters open, each no more than a third of the font height.
  Should that not do, the spaces grow once more, up to twice the height.  Pixels
  that do not divide evenly fall to the first spaces.  Unless the width can be met
  to the pixel, nothing moves.
-/
import RichText.CodePoint

namespace RichText

/-- The room that a line gives out. -/
structure Justification where
  /-- After each adjustable space. -/
  space : Int
  /-- How many of the first spaces get a pixel more. -/
  extraSpaces : Int
  /-- After each letter. -/
  gap : Int
deriving DecidableEq, Repr

namespace Justification

open CodePoint

/-- Code points after which a letter gap can be. Tabs and combining marks have none. -/
def stretches (c : Nat) : Bool := c != tab && isSpaced c

/-! ### Counting -/

def countSpaces (cs : List Nat) : Int := (cs.countP isAdjustableSpace : Nat)

/-- Counts the gaps of a line, given the code point before it: a gap is before
    each glyph that follows a stretching one, a space of explicit width
    (code point zero) apart. A tab has no gap on either side. -/
def countGapsAfter : Option Nat → List Nat → Nat
  | _, [] => 0
  | prev, c :: cs =>
    if c = tab then countGapsAfter none cs
    else (prev.any fun p => p != 0 && stretches p).toNat + countGapsAfter (some c) cs

def countGaps (cs : List Nat) : Int := countGapsAfter none cs

/-! ### Planning -/

/-- Gives the whole of `target` to spaces that grow by at most `cap`: the share of
    each, how many get a pixel more, and what is left. -/
def fillSpaces (spaces target cap : Int) : Int × Int × Int :=
  let share := target.tdiv spaces
  if cap < share then (cap, 0, target - cap * spaces)
  else (share, target - share * spaces, 0)

/-- The share of each letter gap. One pixel is always acceptable. -/
def gapShare (gaps target height : Int) : Int :=
  if 0 < gaps ∧ 1 ≤ target.tdiv gaps then
    let share := target.tdiv gaps
    if 1 < share ∧ height.tdiv 3 < share then height.tdiv 3 else share
  else 0

/-- How `target` pixels are given out over a number of spaces and gaps, if that can
    be done exactly. -/
def plan? (spaces gaps target digitWidth height : Int) : Option Justification :=
  if target ≤ 0 then none
  else
    let (space, extra, left) :=
      if 0 < spaces then fillSpaces spaces target digitWidth else (0, 0, target)
    let gap := gapShare gaps left height
    let left := left - gap * gaps
    let (space, extra, left) :=
      if 0 < spaces ∧ 0 < left then fillSpaces spaces (left + space * spaces) (height * 2)
      else (space, extra, left)
    if left = 0 then some ⟨space, extra, gap⟩ else none

/-! ### Shifting -/

/-- The shifts of the glyphs of a line: each moves by the room given out before it. -/
def shiftsFrom (j : Justification) : Int → Int → List Nat → List Int
  | _, _, [] => []
  | offset, extra, c :: cs =>
    let space := if isAdjustableSpace c then j.space + (if 0 < extra then 1 else 0) else 0
    let extra := if isAdjustableSpace c ∧ 0 < extra then extra - 1 else extra
    let gap := if stretches c then j.gap else 0
    offset :: j.shiftsFrom (offset + space + gap) extra cs

def shifts (j : Justification) (cs : List Nat) : List Int := j.shiftsFrom 0 j.extraSpaces cs

@[simp] theorem length_shiftsFrom (j : Justification) (offset extra : Int) (cs : List Nat) :
    (j.shiftsFrom offset extra cs).length = cs.length := by
  induction cs generalizing offset extra with
  | nil => rfl
  | cons c cs ih => simp [shiftsFrom, ih]

@[simp] theorem length_shifts (j : Justification) (cs : List Nat) :
    (j.shifts cs).length = cs.length := length_shiftsFrom j 0 j.extraSpaces cs

end Justification

end RichText
