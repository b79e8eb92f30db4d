/-
  RichText/Markup/Control.lean
  ============================
  **Instructions without parameters.**

  Markup is text with three kinds of instructions in it.  A *toggle* is a single
  control code point.  A *switch* is the simple introducer and a command.  A
  *setting* (see `Setting`) is the complex introducer, a command, parameters and
  the terminator.  This file holds the first two, and the code points that frame
  the third.
-/
import RichText.Font.Role
import RichText.Markup.Style

namespace RichText

/-! ### Framing code points -/

namespace Control

/-- Introduces a switch. -/
def simpleIntroducer : Nat := 0x9A
/-- Introduces a setting. -/
def complexIntroducer : Nat := 0x9B
/-- Ends the parameters of a setting. -/
def terminator : Nat := 0x9C
/-- Starts a row of a table, and each column in the setting that starts one. -/
def rowSeparator : Nat := 0x8E
/-- Starts a cell of a table. -/
def cellSeparator : Nat := 0x8F

end Control

/-! ### Toggles -/

/-- An instruction of one code point. -/
inductive Toggle where
  | regular | bold | italic | small
  | heading (level : Heading)
  | startSelection | endSelection
deriving DecidableEq, Repr

namespace Toggle

def all : List Toggle :=
  [regular, bold, italic, small, heading .h1, heading .h2, heading .h3, heading .h4,
    startSelection, endSelection]

def code : Toggle → Nat
  | bold => 0x0E
  | regular => 0x0F
  | heading h => 0x10 + h.level
  | startSelection => 0x86
  | endSelection => 0x87
  | italic => 0x91
  | small => 0x92

def ofCode? (c : Nat) : Option Toggle := all.find? (·.code == c)

theorem mem_all (t : Toggle) : t ∈ all := by
  cases t with
  | heading h => cases h <;> decide
  | _ => decide

@[simp] theorem ofCode?_code (t : Toggle) : ofCode? t.code = some t := by
  cases t with
  | heading h => cases h <;> rfl
  | _ => rfl

theorem ofCode?_eq_some_iff {c : Nat} {t : Toggle} : ofCode? c = some t ↔ c = t.code := by
  constructor
  · intro h
    unfold ofCode? at h
    have e := List.find?_some h
    exact (beq_iff_eq.1 e).symm
  · rintro rfl
    exact ofCode?_code t

end Toggle

/-! ### Switches -/

/-- An instruction of an introducer and a command. -/
inductive Switch where
  | background (shown : Bool)
  | border (shown : Bool)
  | resetFormatting
  | script (kind : Option Script)
  /-- Turns a decoration on or off, or leaves it to the font. -/
  | decorate (line : Decoration) (shown : Option Bool)
  | justify (on : Bool)
  | align (align : TextAlign)
  | verticalAlign (align : VerticalAlign)
  | defaultAlign
  | wordWrap (on : Bool)
  | endTable
deriving DecidableEq, Repr

namespace Switch

def all : List Switch :=
  [background true, background false, border true, border false, resetFormatting,
    script (some .lowered), script (some .raised), script none,
    decorate .underline (some true), decorate .underline (some false),
    decorate .strike (some true), decorate .strike (some false),
    decorate .underline none, decorate .strike none,
    justify true, justify false, align .left, align .right, align .center,
    verticalAlign .top, verticalAlign .middle, verticalAlign .bottom, verticalAlign .baseline,
    defaultAlign, wordWrap true, wordWrap false, endTable]

def command : Switch → Nat
  | background true => 0x00
  | background false => 0x01
  | border true => 0x02
  | border false => 0x03
  | resetFormatting => 0x04
  | script (some .lowered) => 0x05
  | script (some .raised) => 0x06
  | script none => 0x07
  | decorate .underline (some true) => 0x10
  | decorate .underline (some false) => 0x11
  | decorate .strike (some true) => 0x12
  | decorate .strike (some false) => 0x13
  | decorate .underline none => 0x16
  | decorate .strike none => 0x17
  | justify true => 0x20
  | justify false => 0x21
  | align .left => 0x22
  | align .right => 0x23
  | align .center => 0x24
  | verticalAlign .top => 0x25
  | verticalAlign .middle => 0x26
  | verticalAlign .bottom => 0x27
  | verticalAlign .baseline => 0x28
  | defaultAlign => 0x29
  | wordWrap true => 0x30
  | wordWrap false => 0x31
  | endTable => 0x33

def ofCommand? (c : Nat) : Option Switch := all.find? (·.command == c)

theorem mem_all (s : Switch) : s ∈ all := by
  cases s with
  | background b | border b | justify b | wordWrap b => cases b <;> decide
  | script k => rcases k with _ | _ | _ <;> decide
  | decorate d b => cases d <;> rcases b with _ | _ | _ <;> decide
  | align a | verticalAlign a => cases a <;> decide
  | _ => decide

@[simp] theorem ofCommand?_command (s : Switch) : ofCommand? s.command = some s := by
  cases s with
  | background b | border b | justify b | wordWrap b => cases b <;> rfl
  | script k => rcases k with _ | _ | _ <;> rfl
  | decorate d b => cases d <;> rcases b with _ | _ | _ <;> rfl
  | align a | verticalAlign a => cases a <;> rfl
  | _ => rfl

theorem ofCommand?_eq_some_iff {c : Nat} {s : Switch} :
    ofCommand? c = some s ↔ c = s.command := by
  constructor
  · intro h
    unfold ofCommand? at h
    have e := List.find?_some h
    exact (beq_iff_eq.1 e).symm
  · rintro rfl
    exact ofCommand?_command s

end Switch

end RichText
