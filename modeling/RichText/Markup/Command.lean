/-
  RichText/Markup/Command.lean
  ============================
  **What an author of markup can ask for.**

  Commands take arguments as an author has them: bytes, whole numbers of pixels,
  characters.  `Command.pieces` brings them into the ranges of the wire, and
  writing is the concatenation of the pieces, so that every command of the author
  is complete in itself.
-/
import RichText.Geometry
import RichText.Markup.Instruction

namespace RichText

/-! ### Arguments -/

/-- A color as an author gives it. -/
inductive ColorSource where
  /-- An entry of the color table, with an alpha in place of its own. -/
  | index (index : UInt8) (alpha : Option UInt8)
  | color (color : Rgba)
deriving DecidableEq, Repr

namespace ColorSource

def ofRole (role : ColorRole) : ColorSource := .index (UInt8.ofNat role.index) none

def ref : ColorSource → ColorRef
  | index i alpha => .indexed (Index.ofByte i) (alpha.map Index.ofAlpha)
  | color c => .rgba c

/-- In a selection style two colors may follow one another, so that a table color
    always brings its alpha; without one it is drawn at full strength. -/
def selectionRef : ColorSource → ColorRef
  | index i alpha => .indexed (Index.ofByte i) (some (Index.ofAlpha (alpha.getD 255)))
  | color c => .rgba c

end ColorSource

/-- How selections are to be displayed; what is not given returns to its default. -/
structure SelectionSpec where
  image : Option UInt8
  text : Option ColorSource
  background : Option ColorSource
  noBackground : Bool
deriving DecidableEq, Repr

def SelectionSpec.style (s : SelectionSpec) : SelectionStyle :=
  ⟨s.image.map Index.ofByte, s.text.elim .default ColorSource.selectionRef,
    s.background.elim .default ColorSource.selectionRef, s.noBackground⟩

/-- An image to be placed. The size is given in pixels and in percent. -/
structure ImageSpec where
  index : UInt8
  align : ImageAlign
  offset : Option Point
  size : Option (Size × Size)
  margin : Option Margin
deriving DecidableEq, Repr

/-- A length of pixels and percent. -/
def pixelsAndPercent (pixels percent : Int) : Length :=
  ⟨clampWord pixels, clampWord percent, 0⟩

def Margin.lengths (pixels percent : Margin) : Sides (Option Length) :=
  ⟨some (pixelsAndPercent pixels.left percent.left),
    some (pixelsAndPercent pixels.top percent.top),
    some (pixelsAndPercent pixels.right percent.right),
    some (pixelsAndPercent pixels.bottom percent.bottom)⟩

namespace ImageSpec

/-- An image in the flow of the text at its own size. -/
def inline (index : UInt8) : ImageSpec := ⟨index, .inline, none, none, none⟩

/-- A margin is written once if its sides are the same before they are clamped. -/
def marginSetting (m : Margin) : ImageMargin :=
  if m.isUniform then .uniform (clampWord m.left)
  else .sides ⟨clampWord m.left, clampWord m.top, clampWord m.right, clampWord m.bottom⟩

def setting (i : ImageSpec) : ImageSetting where
  index := Index.ofByte i.index
  align := i.align
  offset := i.offset.map fun p => (clampWord p.x, clampWord p.y)
  size := i.size.map fun (pixels, percent) =>
    (some (pixelsAndPercent pixels.width percent.width),
      some (pixelsAndPercent pixels.height percent.height))
  margin := i.margin.map marginSetting

end ImageSpec

/-! ### Commands -/

/-- One request of an author. -/
inductive Command where
  | text (s : String)
  | lineBreak
  | zeroWidthSpace
  | nextRow
  | nextCell
  | toggle (toggle : Toggle)
  | switch (switch : Switch)
  | font (id : UInt8)
  /-- Sets a color, or returns it to its default. -/
  | color (target : ColorTarget) (source : Option ColorSource)
  | length (target : LengthTarget) (length : Option Length)
  | padding (pixels percent : Margin)
  | selectionPadding (pixels percent : Margin)
  | selectionStyle (style : SelectionSpec)
  /-- Moves the glyphs that follow, or returns them to their places. -/
  | letterOffset (amount : Option (Point × Point))
  /-- Sets what a decoration covers and, if given, its thickness. -/
  | lineSettings (line : Decoration) (settings : LineSettings) (thickness : Option Length)
  | defaultLineSettings (line : Decoration)
  | image (image : ImageSpec)
  | placeholder (pixels percent : Size)
  | repeatPlaceholder
  | beginTable (border : Bool) (width : Length) (columns : List ColumnSetting)
  | columnSpan (columns : UInt8) (align : TextAlign)
  | rowSpan (rows : UInt8)
  | addBreakingLetters (letters : List Char)
  | removeBreakingLetters (letters : List Char)
  | addTabStop (id : UInt8) (position : Length)
  | removeTabStop (id : UInt8)
  | startRegion (id : UInt8)
  | endRegion (id : UInt8)
deriving DecidableEq, Repr

/-- A part of what is written: an instruction, or code points that stand for
    themselves. -/
inductive Piece where
  | codePoints (cs : List Nat)
  | instruction (instruction : Instruction)
deriving DecidableEq, Repr

def Piece.write : Piece → List Nat
  | codePoints cs => cs
  | instruction i => i.codePoints

namespace Command

private def one (s : Setting) : List Piece := [.instruction (.setting s)]

/-- The pieces of a command, with its arguments in the ranges of the wire. -/
def pieces : Command → List Piece
  | text s => [.codePoints (s.toList.map Char.toNat)]
  | lineBreak => [.codePoints [CodePoint.lineBreak]]
  | zeroWidthSpace => [.codePoints [CodePoint.zeroWidthSpace]]
  | nextRow => [.codePoints [Control.rowSeparator]]
  | nextCell => [.codePoints [Control.cellSeparator]]
  | toggle t => [.instruction (.toggle t)]
  | switch s => [.instruction (.switch s)]
  | font id => one (.font (some (Index.ofByte id)))
  | color target source => one (.color target (source.elim .default ColorSource.ref))
  | length target l => one (.length target l)
  | padding pixels percent => one (.padding (pixels.lengths percent))
  | selectionPadding pixels percent => one (.selectionPadding (pixels.lengths percent))
  | selectionStyle s => one (.selectionStyle s.style)
  | letterOffset none => one (.letterOffset none none)
  | letterOffset (some (pixels, percent)) =>
    one (.letterOffset (some (pixelsAndPercent pixels.x percent.x))
      (some (pixelsAndPercent pixels.y percent.y)))
  | lineSettings line settings thickness =>
    one (.lineSettings line (.change (some settings) (thickness.map some)))
  | defaultLineSettings line => one (.lineSettings line .reset)
  | image i => one (.image i.setting)
  | placeholder pixels percent =>
    one (.placeholderSize (some (pixelsAndPercent pixels.width percent.width))
      (some (pixelsAndPercent pixels.height percent.height))) ++
      [.codePoints [CodePoint.placeholder]]
  | repeatPlaceholder => [.codePoints [CodePoint.placeholder]]
  | beginTable border width columns => one (.beginTable border (some width) columns)
  | columnSpan columns align => one (.columnSpan (Index.ofByte columns) align)
  | rowSpan rows => one (.rowSpan (some (Index.ofByte rows)))
  | addBreakingLetters letters => one (.addBreakingLetters (letters.map Char.toNat))
  | removeBreakingLetters letters => one (.removeBreakingLetters (letters.map Char.toNat))
  | addTabStop id position => one (.addTabStop (Index.ofByte id) (some position))
  | removeTabStop id => one (.removeTabStop (Index.ofByte id))
  | startRegion id => one (.startRegion (Index.ofByte id))
  | endRegion id => one (.endRegion (Index.ofByte id))

/-- The code points of a command. -/
def codePoints (c : Command) : List Nat := c.pieces.flatMap Piece.write

/-- The bytes of a command. -/
def bytes (c : Command) : List UInt8 := Codec.encodeAll c.codePoints

end Command

/-! ### Buffers -/

/-- Markup that is being written. -/
structure Markup where
  bytes : List UInt8
deriving DecidableEq, Repr

namespace Markup

def empty : Markup := ⟨[]⟩

def add (m : Markup) (c : Command) : Markup := ⟨m.bytes ++ c.bytes⟩

def ofCommands (cs : List Command) : Markup := cs.foldl add empty

def size (m : Markup) : Nat := m.bytes.length

def isEmpty (m : Markup) : Bool := m.bytes.isEmpty

theorem bytes_foldl_add (m : Markup) (cs : List Command) :
    (cs.foldl add m).bytes = m.bytes ++ cs.flatMap Command.bytes := by
  induction cs generalizing m with
  | nil => simp
  | cons c cs ih => simp [ih, add]

/-- Markup is the bytes of its commands, one after another. -/
theorem bytes_ofCommands (cs : List Command) :
    (ofCommands cs).bytes = cs.flatMap Command.bytes := by
  simp [ofCommands, bytes_foldl_add, empty]

end Markup

end RichText
