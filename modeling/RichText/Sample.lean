/-
  RichText/Sample.lean
  ====================
  **Texts to try a printer on.**
-/

namespace RichText

/-- A text with the name it goes by. -/
structure Sample where
  name : String
  text : String
deriving DecidableEq, Repr

namespace Sample

/-- Short English prose. -/
def latin : Sample :=
  ⟨"latin", "The quick brown fox jumps over the lazy dog and keeps running far away."⟩

/-- Words joined by hyphens in place of spaces. -/
def hyphenated : Sample :=
  ⟨"hyphenated", "state-of-the-art well-known up-to-date"⟩

/-- Three paragraphs. -/
def paragraphs : Sample :=
  ⟨"paragraphs", "First paragraph here.\nSecond one follows.\nAnd a third."⟩

def all : List Sample := [latin, hyphenated, paragraphs]

end Sample

end RichText
