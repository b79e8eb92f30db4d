/-
  RichText/Length.lean
  ====================
  **Lengths with relative parts.**

  A length joins a number of pixels, a share of a reference length and a share
  of a second reference length, each a signed 16-bit word as markup carries it.
  Each use has references of its own, among them the em size of the font, the
  height of the line and the wrap width.

  Each share is computed in single precision and rounded on its own, halves
  going away from zero.
-/
import RichText.Binary32

namespace RichText

/-- A length as three words. -/
structure Length where
  pixels : Int16
  /-- In percent of the reference, or in multiples of it. -/
  relative : Int16
  /-- In hundredths of a percent of the second reference. -/
  basisPoints : Int16
deriving DecidableEq, Repr

namespace Length

def zero : Length := ⟨0, 0, 0⟩

/-- The word as a fraction of a hundred. -/
def percent (w : Int16) : Binary32 := (Binary32.ofInt w.toInt).mul (Binary32.ofRatio 1 100)

/-- The word as a fraction of ten thousand. -/
def basis (w : Int16) : Binary32 := Binary32.ofRatio w.toInt 10000

/-- The share of a reference length that a factor makes. -/
def share (factor : Binary32) (reference : Int) : Int :=
  (factor.mul (Binary32.ofInt reference)).round

/-- The length in pixels, for both references. -/
def resolveWith (l : Length) (reference second : Int) : Int :=
  l.pixels.toInt + share (percent l.relative) reference + share (basis l.basisPoints) second

/-- The length in pixels, for one reference; the second share is nothing. -/
def resolve (l : Length) (reference : Int) : Int := l.resolveWith reference 0

/-- The length in pixels when its relative word counts whole references. -/
def resolveMultiple (l : Length) (reference : Int) : Int :=
  l.pixels.toInt + share (Binary32.ofInt l.relative.toInt) reference

/-- The length in pixels, or the default of a length that is not set. -/
def resolveOr (l : Option Length) (reference default : Int) : Int :=
  l.elim default (·.resolve reference)

@[simp] theorem resolveOr_none (reference default : Int) :
    resolveOr none reference default = default := rfl

@[simp] theorem resolveOr_some (l : Length) (reference default : Int) :
    resolveOr (some l) reference default = l.resolve reference := rfl

end Length

/-- One value for each side of a box. -/
structure Sides (α : Type) where
  left : α
  top : α
  right : α
  bottom : α
deriving DecidableEq, Repr

end RichText
