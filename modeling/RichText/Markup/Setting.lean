/-
  RichText/Markup/Setting.lean
  ============================
  **Instructions with parameters.**

  A setting carries its parameters in the ranges that the wire has for them:
  numbers of seven bits, signed words of sixteen, colors of four bytes.
  `Setting.Writing` says how the parameters are written, `Setting.Reading` how
  they are read.
-/
import RichText.Color
import RichText.Length
import RichText.Markup.Control

namespace RichText

/-! ### Small parameters -/

/-- A number of seven bits: a table index, a count, an alpha without its last bit. -/
abbrev Index := Fin 128

namespace Index

def zero : Index := ⟨0, by decide⟩

def one : Index := ⟨1, by decide⟩

/-- The low seven bits of a byte. -/
def ofByte (b : UInt8) : Index := Fin.ofNat 128 b.toNat

/-- An alpha byte without its last bit. -/
def ofAlpha (a : UInt8) : Index := Fin.ofNat 128 (a.toNat / 2)

/-- Seven bits of alpha as a byte: the first bit is repeated as the last, so that
    the extremes stay extreme. -/
def toAlpha (i : Index) : UInt8 := UInt8.ofNat (2 * i.val + i.val / 64)

theorem val_ofByte (b : UInt8) : (ofByte b).val = b.toNat % 128 := rfl

theorem toAlpha_ofAlpha (a : UInt8) :
    (ofAlpha a).toAlpha.toNat = 2 * (a.toNat / 2) + a.toNat / 128 := by
  have h : a.toNat < 256 := a.toNat_lt
  have hd : a.toNat / 2 / 64 = a.toNat / 128 := Nat.div_div_eq_div_mul _ 2 64
  have hv : (ofAlpha a).val = a.toNat / 2 := by
    simp only [ofAlpha, Fin.val_ofNat]
    omega
  simp only [toAlpha, hv, hd, UInt8.toNat_ofNat']
  omega

end Index

/-- Brings an integer into the range of a signed word. -/
def clampWord (n : Int) : Int16 := Int16.ofInt (max (-32768) (min n 32767))

/-- A color by reference: the default, an entry of the color table with its alpha
    possibly replaced, or four bytes. -/
inductive ColorRef where
  | default
  | indexed (index : Index) (alpha : Option Index)
  | rgba (color : Rgba)
deriving DecidableEq, Repr

/-! ### Groups of settings with parameters of one kind -/

/-- What a color is set for. -/
inductive ColorTarget where
  | text | background | border | tint | underline | strike
deriving DecidableEq, Repr

namespace ColorTarget

def all : List ColorTarget := [text, background, border, tint, underline, strike]

/-- The command that refers to the color table. -/
def indexCommand : ColorTarget → Nat
  | text => 0x01
  | background => 0x03
  | border => 0x06
  | tint => 0x18
  | underline => 0x1C
  | strike => 0x1E

/-- The command that carries four bytes. -/
def rgbaCommand : ColorTarget → Nat
  | text => 0x02
  | background => 0x04
  | border => 0x07
  | tint => 0x19
  | underline => 0x1D
  | strike => 0x1F

def ofIndexCommand? (c : Nat) : Option ColorTarget := all.find? (·.indexCommand == c)

def ofRgbaCommand? (c : Nat) : Option ColorTarget := all.find? (·.rgbaCommand == c)

@[simp] theorem ofIndexCommand?_indexCommand (t : ColorTarget) :
    ofIndexCommand? t.indexCommand = some t := by
  cases t <;> rfl

@[simp] theorem ofRgbaCommand?_rgbaCommand (t : ColorTarget) :
    ofRgbaCommand? t.rgbaCommand = some t := by
  cases t <;> rfl

end ColorTarget

/-- What a single length is set for. -/
inductive LengthTarget where
  | borderThickness | paragraphSpacing | indent | hangingIndent | letterSpacing | lineSpacing
  | wrapWidth | underlineOffset | strikeOffset | tabWidth | horizontalSpace | verticalSpace
deriving DecidableEq, Repr

namespace LengthTarget

def all : List LengthTarget :=
  [borderThickness, paragraphSpacing, indent, hangingIndent, letterSpacing, lineSpacing,
    wrapWidth, underlineOffset, strikeOffset, tabWidth, horizontalSpace, verticalSpace]

def command : LengthTarget → Nat
  | borderThickness => 0x05
  | paragraphSpacing => 0x09
  | indent => 0x0A
  | hangingIndent => 0x0B
  | letterSpacing => 0x0C
  | lineSpacing => 0x0D
  | wrapWidth => 0x0E
  | underlineOffset => 0x12
  | strikeOffset => 0x13
  | tabWidth => 0x17
  | horizontalSpace => 0x40
  | verticalSpace => 0x41

def ofCommand? (c : Nat) : Option LengthTarget := all.find? (·.command == c)

@[simp] theorem ofCommand?_command (t : LengthTarget) : ofCommand? t.command = some t := by
  cases t <;> rfl

end LengthTarget

/-! ### Compound parameters -/

/-- A change of what a decoration covers and of how thick it is. -/
inductive LineChange where
  /-- Both return to their defaults. -/
  | reset
  /-- Those given are set; a thickness may be set back to its default. -/
  | change (settings : Option LineSettings) (thickness : Option (Option Length))
deriving DecidableEq, Repr

/-- How selections are displayed. -/
structure SelectionStyle where
  /-- The image behind a selection, in place of a filled box. -/
  image : Option Index
  text : ColorRef
  background : ColorRef
  noBackground : Bool
deriving DecidableEq, Repr

/-- The room around an image: the same on every side, or by side. -/
inductive ImageMargin where
  | uniform (side : Int16)
  | sides (each : Sides Int16)
deriving DecidableEq, Repr

/-- An image to be placed. -/
structure ImageSetting where
  index : Index
  align : ImageAlign
  offset : Option (Int16 × Int16)
  /-- Width and height; the first is relative to the wrap width, the second to the
      height of a line. -/
  size : Option (Option Length × Option Length)
  margin : Option ImageMargin
deriving DecidableEq, Repr

/-- A column of a table. -/
structure ColumnSetting where
  align : TextAlign
  /-- Relative to the width of the table; a column without a width is automatic. -/
  width : Option Length
deriving DecidableEq, Repr

/-! ### Settings -/

/-- An instruction with parameters. A length that is not given returns to its default. -/
inductive Setting where
  | color (target : ColorTarget) (color : ColorRef)
  | length (target : LengthTarget) (length : Option Length)
  | padding (sides : Sides (Option Length))
  | selectionPadding (sides : Sides (Option Length))
  | letterOffset (x y : Option Length)
  | image (image : ImageSetting)
  | selectionStyle (style : SelectionStyle)
  | font (id : Option Index)
  | lineSettings (line : Decoration) (change : LineChange)
  | beginTable (border : Bool) (width : Option Length) (columns : List ColumnSetting)
  | columnSpan (columns : Index) (align : TextAlign)
  | rowSpan (rows : Option Index)
  | addBreakingLetters (letters : List Nat)
  | removeBreakingLetters (letters : List Nat)
  | addTabStop (id : Index) (position : Option Length)
  | removeTabStop (id : Index)
  | startRegion (id : Index)
  | endRegion (id : Index)
  | placeholderSize (width height : Option Length)
deriving DecidableEq, Repr

namespace Setting

def lineSettingsCommand : Decoration → Nat
  | .underline => 0x1A
  | .strike => 0x1B

/-- The command that follows the introducer. -/
def command : Setting → Nat
  | color target (.rgba _) => target.rgbaCommand
  | color target _ => target.indexCommand
  | length target _ => target.command
  | padding _ => 0x08
  | image _ => 0x10
  | selectionStyle _ => 0x11
  | letterOffset _ _ => 0x14
  | font _ => 0x15
  | selectionPadding _ => 0x16
  | lineSettings line _ => lineSettingsCommand line
  | beginTable _ _ _ => 0x20
  | columnSpan _ _ => 0x21
  | rowSpan _ => 0x22
  | addBreakingLetters _ => 0x23
  | removeBreakingLetters _ => 0x24
  | addTabStop _ _ => 0x25
  | removeTabStop _ => 0x26
  | startRegion _ => 0x30
  | endRegion _ => 0x31
  | placeholderSize _ _ => 0x42

end Setting

end RichText
