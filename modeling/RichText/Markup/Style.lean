/-
  RichText/Markup/Style.lean
  ==========================
  **The words of formatting: alignments, scripts, decorations and what they cover.**
-/

namespace RichText

/-- Horizontal alignment of a line within the wrap width. -/
inductive TextAlign where
  | left | center | right
deriving DecidableEq, Repr

/-- Vertical placement of an image within its line. -/
inductive VerticalAlign where
  | top | middle | bottom | baseline
deriving DecidableEq, Repr

/-- Where an image asks to stand. All images are set in the flow of the text. -/
inductive ImageAlign where
  | inline | left | right
deriving DecidableEq, Repr

/-- Lowered or raised text. -/
inductive Script where
  | lowered | raised
deriving DecidableEq, Repr

/-- The two lines that can decorate text. -/
inductive Decoration where
  | underline | strike
deriving DecidableEq, Repr

namespace TextAlign

/-- The number of an alignment in the parameters of an instruction. -/
def code : TextAlign → Nat
  | left => 0
  | center => 1
  | right => 2

/-- The alignment of a number; unknown numbers mean left. -/
def ofCode : Nat → TextAlign
  | 1 => center
  | 2 => right
  | _ => left

@[simp] theorem ofCode_code (a : TextAlign) : ofCode a.code = a := by cases a <;> rfl

/-- The shift that aligns content `used` wide within `available`. Content that is
    too wide is not shifted. -/
def shift (a : TextAlign) (available used : Int) : Int :=
  let free := max (available - used) 0
  match a with
  | left => 0
  | center => free.tdiv 2
  | right => free

theorem shift_nonneg (a : TextAlign) (available used : Int) : 0 ≤ a.shift available used := by
  have h : (0 : Int) ≤ max (available - used) 0 := by omega
  cases a
  · simp [shift]
  · exact Int.tdiv_nonneg h (by decide)
  · exact h

end TextAlign

namespace ImageAlign

def code : ImageAlign → Nat
  | inline => 0
  | left => 1
  | right => 2

def ofCode : Nat → ImageAlign
  | 1 => left
  | 2 => right
  | _ => inline

@[simp] theorem ofCode_code (a : ImageAlign) : ofCode a.code = a := by cases a <;> rfl

end ImageAlign

/-! ### What a decoration covers -/

/-- The parts of the text under which a decoration is drawn. -/
structure LineSettings where
  /-- Glyphs that reach below the baseline. -/
  descenders : Bool
  spaces : Bool
  tabs : Bool
  /-- The room between the last covered glyph and the one after it. -/
  gaps : Bool
  /-- Images and placeholders. -/
  placeholders : Bool
deriving DecidableEq, Repr

namespace LineSettings

/-- Letters that stay above the baseline, and spaces. -/
def default : LineSettings := ⟨false, true, false, false, false⟩

def bits (s : LineSettings) : Nat :=
  s.descenders.toNat + 2 * s.spaces.toNat + 4 * s.tabs.toNat + 8 * s.gaps.toNat +
    16 * s.placeholders.toNat

def ofBits (n : Nat) : LineSettings :=
  ⟨n.testBit 0, n.testBit 1, n.testBit 2, n.testBit 3, n.testBit 4⟩

@[simp] theorem ofBits_bits (s : LineSettings) : ofBits s.bits = s := by
  obtain ⟨a, b, c, d, e⟩ := s
  cases a <;> cases b <;> cases c <;> cases d <;> cases e <;> decide

theorem bits_lt (s : LineSettings) : s.bits < 32 := by
  obtain ⟨a, b, c, d, e⟩ := s
  cases a <;> cases b <;> cases c <;> cases d <;> cases e <;> decide

end LineSettings

end RichText
