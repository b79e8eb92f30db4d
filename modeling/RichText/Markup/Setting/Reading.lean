/-
  RichText/Markup/Setting/Reading.lean
  ====================================
  **Settings from code points.**

  Reading never fails.  A number of seven bits that is not there is absent and
  leaves the reader where it is; a word takes whatever code point stands in its
  place; where the input has ended words are zero.  What is left over before the
  terminator is passed over.
-/
import RichText.Markup.Setting

namespace RichText

/-- A place in the code points after a command. -/
structure Cursor where
  /-- How many of them have been used. -/
  used : Nat
  rest : List Nat
deriving DecidableEq, Repr

/-- A reader of parameters. -/
abbrev Reading := StateM Cursor

namespace Reading

/-! ### Primitive parameters -/

/-- The next code point, used up; none at the end of the input. -/
def next : Reading (Option Nat) := fun
  | ⟨used, []⟩ => (none, ⟨used, []⟩)
  | ⟨used, c :: rest⟩ => (some c, ⟨used + 1, rest⟩)

def peek : Reading (Option Nat) := fun cur => (cur.rest.head?, cur)

/-- A number of seven bits; anything larger is left in place. -/
def index : Reading (Option Index) := fun
  | ⟨used, []⟩ => (none, ⟨used, []⟩)
  | ⟨used, c :: rest⟩ =>
    if h : c < 128 then (some ⟨c, h⟩, ⟨used + 1, rest⟩) else (none, ⟨used, c :: rest⟩)

/-- The value of a number that is zero when absent. -/
def indexOrZero : Reading Nat := return ((← index).map Fin.val).getD 0

/-- A signed word: the low sixteen bits of whatever stands next. -/
def word : Reading Int16 := return (UInt16.ofNat ((← next).getD 0)).toInt16

def lowByte (w : Int16) : UInt8 := UInt8.ofNat w.toUInt16.toNat

def highByte (w : Int16) : UInt8 := UInt8.ofNat (w.toUInt16.toNat / 256)

def rgba : Reading Rgba := do
  let low ← word
  let high ← word
  return ⟨lowByte low, highByte low, lowByte high, highByte high⟩

/-- A word that is there if a bit of the mode says so. -/
def wordIf (bit : Bool) : Reading Int16 := if bit then word else return 0

/-- A length; without a mode, or with the mode of all ones, it is not set. -/
def length : Reading (Option Length) := do
  match ← index with
  | none => return none
  | some mode =>
    if mode.val = 0x7F then return none
    let pixels ← wordIf (mode.val.testBit 0)
    let relative ← wordIf (mode.val.testBit 1)
    let basisPoints ← wordIf (mode.val.testBit 2)
    return some ⟨pixels, relative, basisPoints⟩

def sides : Reading (Sides (Option Length)) := do
  let left ← length
  let top ← length
  let right ← length
  let bottom ← length
  return ⟨left, top, right, bottom⟩

/-- A color of the table, with an alpha if one follows. -/
def indexed : Reading ColorRef := do
  match ← index with
  | none => return .default
  | some i => return .indexed i (← index)

/-! ### Compound parameters -/

def lineChange : Reading LineChange := do
  let mode ← indexOrZero
  if mode = 0 then return .reset
  let settings ←
    if mode.testBit 0 then some <$> LineSettings.ofBits <$> indexOrZero else pure none
  let thickness ← if mode.testBit 1 then some <$> length else pure none
  return .change settings thickness

/-- A color announced by one of two bits, the one of the table first. -/
def colorIf (table bytes : Bool) : Reading ColorRef :=
  if table then indexed else if bytes then .rgba <$> rgba else return .default

def selectionStyle : Reading SelectionStyle := do
  let mode ← indexOrZero
  let image ← if mode.testBit 0 then index else pure none
  let text ← colorIf (mode.testBit 1) (mode.testBit 2)
  let background ← colorIf (mode.testBit 3) (mode.testBit 4)
  return ⟨image, text, background, mode.testBit 5⟩

def offset : Reading (Int16 × Int16) := do
  let x ← word
  let y ← word
  return (x, y)

def size : Reading (Option Length × Option Length) := do
  let width ← length
  let height ← length
  return (width, height)

def wordSides : Reading (Sides Int16) := do
  let left ← word
  let top ← word
  let right ← word
  let bottom ← word
  return ⟨left, top, right, bottom⟩

def margin (uniform each : Bool) : Reading (Option ImageMargin) :=
  if uniform then some <$> .uniform <$> word
  else if each then some <$> .sides <$> wordSides
  else return none

/-- An image; without an index there is none. -/
def image : Reading (Option ImageSetting) := do
  match ← index with
  | none => return none
  | some i =>
    let mode ← indexOrZero
    let offset ← if mode.testBit 2 then some <$> offset else pure none
    let size ← if mode.testBit 3 then some <$> size else pure none
    let margin ← margin (mode.testBit 4) (mode.testBit 5)
    return some ⟨i, ImageAlign.ofCode (mode % 4), offset, size, margin⟩

/-- At most `n` columns, each after a row separator. -/
def columns : Nat → Reading (List ColumnSetting)
  | 0 => return []
  | n + 1 => do
    if (← peek) = some Control.rowSeparator then
      let _ ← next
      let align := TextAlign.ofCode (← indexOrZero)
      let width ← length
      return ⟨align, width⟩ :: (← columns n)
    else return []

/-- All the columns; there are no more of them than code points left. -/
def allColumns : Reading (List ColumnSetting) := fun cur => columns cur.rest.length cur

/-- The code points up to the terminator. -/
def letters : Reading (List Nat) := fun cur =>
  let taken := cur.rest.takeWhile (· != Control.terminator)
  (taken, ⟨cur.used + taken.length, cur.rest.drop taken.length⟩)

/-- Passes over what is left, and over the terminator. -/
def finish : Reading Unit := do
  let _ ← letters
  let _ ← next

/-! ### Settings by command -/

/-- The parameters of a command; unknown commands set nothing. -/
def parameters (command : Nat) : Reading (Option Setting) :=
  match ColorTarget.ofIndexCommand? command with
  | some target => return some (.color target (← indexed))
  | none =>
  match ColorTarget.ofRgbaCommand? command with
  | some target => return some (.color target (.rgba (← rgba)))
  | none =>
  match LengthTarget.ofCommand? command with
  | some target => return some (.length target (← length))
  | none =>
  match command with
  | 0x08 => return some (.padding (← sides))
  | 0x10 => return (← image).map .image
  | 0x11 => return some (.selectionStyle (← selectionStyle))
  | 0x14 => return some (.letterOffset (← length) (← length))
  | 0x15 => return some (.font (← index))
  | 0x16 => return some (.selectionPadding (← sides))
  | 0x1A => return some (.lineSettings .underline (← lineChange))
  | 0x1B => return some (.lineSettings .strike (← lineChange))
  | 0x20 => return some (.beginTable ((← indexOrZero) != 0) (← length) (← allColumns))
  | 0x21 => return some (.columnSpan ((← index).getD .one) (TextAlign.ofCode (← indexOrZero)))
  | 0x22 => return some (.rowSpan (← index))
  | 0x23 => return some (.addBreakingLetters (← letters))
  | 0x24 => return some (.removeBreakingLetters (← letters))
  | 0x25 => return some (.addTabStop ((← index).getD .zero) (← length))
  | 0x26 => return some (.removeTabStop ((← index).getD .zero))
  | 0x30 => return some (.startRegion ((← index).getD .zero))
  | 0x31 => return some (.endRegion ((← index).getD .zero))
  | 0x42 => return some (.placeholderSize (← length) (← length))
  | _ => return none

end Reading

/-- The setting of a command and the code points after it, and how many of these
    belong to it. -/
def Setting.read (command : Nat) (cs : List Nat) : Option Setting × Nat :=
  let (setting, cur) := Reading.parameters command ⟨0, cs⟩
  (setting, (Reading.finish cur).2.used)

end RichText
