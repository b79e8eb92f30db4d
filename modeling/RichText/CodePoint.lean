/-
  RichText/CodePoint.lean
  =======================
  **Code points and the classes that layout sorts them into.**

  A code point is a natural number, wider than a character: parameters may be
  surrogates, and a malformed stream may hold values up to `0x1FFFFF`.
-/

namespace RichText.CodePoint

/-! ### Single code points with a meaning of their own -/

def tab : Nat := 0x09
def lineFeed : Nat := 0x0A
def carriageReturn : Nat := 0x0D
/-- A newline within a paragraph. -/
def lineBreak : Nat := 0x85
def zeroWidthSpace : Nat := 0x200B
def lineSeparator : Nat := 0x2028
def paragraphSeparator : Nat := 0x2029
/-- Stands for a box of the size set last. -/
def placeholder : Nat := 0xFFFC
/-- Read in place of a malformed sequence. -/
def replacement : Nat := 0xFFFD
/-- Passed over wherever it stands as text. -/
def noncharacter : Nat := 0xFFFF

/-- The largest value that four bytes carry. -/
def largest : Nat := 0x1FFFFF

/-! ### Classes -/

/-- Code points that end the line. -/
def isNewline (c : Nat) : Bool :=
  c == lineFeed || c == carriageReturn || c == lineBreak || c == lineSeparator ||
    c == paragraphSeparator

/-- Newlines after which a paragraph starts. -/
def startsParagraph (c : Nat) : Bool :=
  isNewline c && c != lineBreak && c != lineSeparator

def isSpace (c : Nat) : Bool :=
  c == 0x20 || c == 0xA0 || c == 0x1680 || (0x2000 ≤ c && c ≤ 0x200B) || c == 0x202F ||
    c == 0x205F || c == 0x3000

/-- The spaces with room to grow in a justified line. -/
def isAdjustableSpace (c : Nat) : Bool := c == 0x20 || c == 0xA0 || c == 0x3000

/-- Spaces before which a line may break. -/
def isBreaking (c : Nat) : Bool :=
  isSpace c && c != 0xA0 && c != 0x2007 && c != 0x202F

/-- Code points with a horizontal extent of their own, that is, all but the
    combining marks. -/
def isSpaced (c : Nat) : Bool :=
  !((0x0300 ≤ c && c ≤ 0x036F) || (0x1AB0 ≤ c && c ≤ 0x1AFF) || (0x1DC0 ≤ c && c ≤ 0x1DFF) ||
    (0x20D0 ≤ c && c ≤ 0x20FF) || (0xFE20 ≤ c && c ≤ 0xFE2F))

/-- The width of a space that a font has no glyph for, from its em size and the
    width of its digits. -/
def spaceWidth (c : Nat) (em digit : Int) : Int :=
  if c == 0x2000 || c == 0x2002 then em.tdiv 2
  else if c == 0x2001 || c == 0x2003 || c == 0x3000 then em
  else if c == 0x2004 then em.tdiv 3
  else if c == 0x2006 then em.tdiv 6
  else if c == 0x2007 then digit
  else if c == 0x2008 || c == 0x2009 || c == 0x202F then em.tdiv 5
  else if c == 0x200A then em.tdiv 10
  else if c == 0x205F then (em * 2).tdiv 9
  else if c == zeroWidthSpace then 0
  else em.tdiv 4

theorem isNewline_of_startsParagraph {c : Nat} (h : startsParagraph c = true) :
    isNewline c = true := by
  simp only [startsParagraph, Bool.and_eq_true] at h
  exact h.1.1

theorem isSpace_of_isBreaking {c : Nat} (h : isBreaking c = true) : isSpace c = true := by
  simp only [isBreaking, Bool.and_eq_true] at h
  exact h.1.1.1

theorem isSpace_of_isAdjustableSpace {c : Nat} (h : isAdjustableSpace c = true) :
    isSpace c = true := by
  simp only [isAdjustableSpace, isSpace, Bool.or_eq_true] at h ⊢
  rcases h with (h | h) | h <;> simp [h]

end RichText.CodePoint
