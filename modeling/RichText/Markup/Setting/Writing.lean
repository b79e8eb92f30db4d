/-
  RichText/Markup/Setting/Writing.lean
  ====================================
  **Settings as code points.**

  Numbers of seven bits and words are one code point each.  A compound parameter
  starts with a mode, whose bits say which parts follow; the parts of a length
  that are zero are left out.
-/
import RichText.Markup.Setting

namespace RichText

namespace Writing

/-! ### Primitive parameters -/

def index (i : Index) : List Nat := [i.val]

def optionalIndex (i : Option Index) : List Nat := (i.map index).getD []

/-- A signed word as the unsigned word of the same bits. -/
def word (w : Int16) : List Nat := [w.toUInt16.toNat]

/-- The mode of a length that returns to its default. -/
def unset : Nat := 0x7F

def lengthMode (l : Length) : Nat :=
  (l.pixels != 0).toNat + 2 * (l.relative != 0).toNat + 4 * (l.basisPoints != 0).toNat

def wordUnlessZero (w : Int16) : List Nat := if w = 0 then [] else word w

def length : Option Length → List Nat
  | none => [unset]
  | some l =>
    lengthMode l :: (wordUnlessZero l.pixels ++ wordUnlessZero l.relative ++
      wordUnlessZero l.basisPoints)

def sides (s : Sides (Option Length)) : List Nat :=
  length s.left ++ length s.top ++ length s.right ++ length s.bottom

/-- A color as two words, the lower byte of each first. -/
def rgba (c : Rgba) : List Nat :=
  [c.r.toNat + 256 * c.g.toNat, c.b.toNat + 256 * c.a.toNat]

def color : ColorRef → List Nat
  | .default => []
  | .indexed i alpha => index i ++ optionalIndex alpha
  | .rgba c => rgba c

/-! ### Compound parameters -/

/-- A change without parts has a mode of its own, since mode zero is a reset. -/
def lineChange : LineChange → List Nat
  | .reset => [0]
  | .change none none => [4]
  | .change (some settings) none => [1, settings.bits]
  | .change none (some thickness) => 2 :: length thickness
  | .change (some settings) (some thickness) => 3 :: settings.bits :: length thickness

/-- The bit of a color in the mode of a selection style, where `lowest` is the one
    of a table color. -/
def colorBit (lowest : Nat) : ColorRef → Nat
  | .default => 0
  | .indexed _ _ => lowest
  | .rgba _ => 2 * lowest

def selectionMode (s : SelectionStyle) : Nat :=
  s.image.isSome.toNat + colorBit 2 s.text + colorBit 8 s.background + 32 * s.noBackground.toNat

def selectionStyle (s : SelectionStyle) : List Nat :=
  selectionMode s :: (optionalIndex s.image ++ color s.text ++ color s.background)

def marginBit : Option ImageMargin → Nat
  | none => 0
  | some (.uniform _) => 16
  | some (.sides _) => 32

def imageMode (i : ImageSetting) : Nat :=
  i.align.code + 4 * i.offset.isSome.toNat + 8 * i.size.isSome.toNat + marginBit i.margin

def offset : Option (Int16 × Int16) → List Nat
  | none => []
  | some (x, y) => word x ++ word y

def size : Option (Option Length × Option Length) → List Nat
  | none => []
  | some (width, height) => length width ++ length height

def margin : Option ImageMargin → List Nat
  | none => []
  | some (.uniform side) => word side
  | some (.sides s) => word s.left ++ word s.top ++ word s.right ++ word s.bottom

def image (i : ImageSetting) : List Nat :=
  index i.index ++ imageMode i :: (offset i.offset ++ size i.size ++ margin i.margin)

/-- A column follows a row separator. -/
def column (c : ColumnSetting) : List Nat :=
  Control.rowSeparator :: c.align.code :: length c.width

end Writing

namespace Setting

open Writing

/-- The parameters of a setting. -/
def parameters : Setting → List Nat
  | color _ c => Writing.color c
  | length _ l => Writing.length l
  | padding s => sides s
  | selectionPadding s => sides s
  | letterOffset x y => Writing.length x ++ Writing.length y
  | image i => Writing.image i
  | selectionStyle s => Writing.selectionStyle s
  | font id => optionalIndex id
  | lineSettings _ change => lineChange change
  | beginTable border width columns =>
    border.toNat :: (Writing.length width ++ columns.flatMap column)
  | columnSpan columns align => index columns ++ [align.code]
  | rowSpan rows => optionalIndex rows
  | addBreakingLetters letters => letters
  | removeBreakingLetters letters => letters
  | addTabStop id position => index id ++ Writing.length position
  | removeTabStop id => index id
  | startRegion id => index id
  | endRegion id => index id
  | placeholderSize width height => Writing.length width ++ Writing.length height

/-- The code points of a setting. -/
def codePoints (s : Setting) : List Nat :=
  Control.complexIntroducer :: s.command :: (s.parameters ++ [Control.terminator])

end Setting

end RichText
