/-
  RichText/Layout/Apply.lean
  ==========================
  **What instructions do to a layout.**

  Most change the formatting alone.  Lengths whose references are known are
  resolved here, against the font and the wrap width in force.
-/
import RichText.Layout.Place
import RichText.Markup.Instruction

namespace RichText.LayoutState

variable (job : Job) (s : LayoutState)

/-! ### Colors -/

/-- The color of a reference, where `side` picks from an entry of the color table.
    An entry that is not registered sets nothing. -/
def resolveColor (side : ColorPair → Color) : ColorRef → Option Color
  | .default => none
  | .indexed index alpha =>
    (job.printer.colors.get? index.val).map fun pair =>
      alpha.elim (side pair) fun a => (side pair).withAlpha a.toAlpha
  | .rgba c => some (Color.ofRgba c)

/-- The side of the color table that a color is taken from. -/
def colorSide : ColorTarget → ColorPair → Color
  | .background => ColorPair.background
  | _ => ColorPair.foreground

def applySelectionStyle (style : SelectionStyle) : LayoutState :=
  { s with
    format.selection :=
      { s.format.selection with
        image := style.image.map Fin.val
        text := resolveColor job ColorPair.foreground style.text
        background := resolveColor job ColorPair.background style.background
        noBackground := style.noBackground } }

/-! ### Lengths -/

/-- Adds vertical space: above the line if nothing is on it yet, else below it. -/
def addVerticalSpace (space : Int) : LayoutState :=
  if s.lineIsEmpty then { s with top := s.top + space }
  else { s with verticalSpace := s.verticalSpace + space }

/-- Puts a space of some width on the line; it has code point zero. -/
def placeSpace (width : Int) (index : Nat) : LayoutState :=
  s.addMark job 0 (.glyph false) width index

def applyLength (index : Nat) (target : LengthTarget) (l : Option Length) : LayoutState :=
  let em := s.font.face.em
  match target with
  | .borderThickness => { s with format.borderThickness := l }
  | .paragraphSpacing => { s with format.paragraphSpacing := l }
  | .indent => { s with format.indent := Length.resolveOr l em 0 }
  | .hangingIndent => { s with format.hangingIndent := Length.resolveOr l em 0 }
  | .letterSpacing => { s with format.letterSpacing := l }
  | .lineSpacing => { s with format.lineSpacing := l }
  | .wrapWidth => { s with wrapOverride := l }.updateWrapWidth job
  | .underlineOffset => { s with format.underline.offset := l }
  | .strikeOffset => { s with format.strike.offset := l }
  | .tabWidth => { s with format.tabWidth := l.map (·.resolveWith em s.wrapWidth) }
  | .horizontalSpace => l.elim s fun l => s.placeSpace job (l.resolveWith em s.wrapWidth) index
  | .verticalSpace => l.elim s fun l => s.addVerticalSpace (l.resolve s.font.face.height)

/-! ### Images -/

/-- The fraction `num / den` of a value without its fractional part; what is no
    32-bit word becomes the largest one. -/
def scale (value num den : Int) : Int :=
  if den = 0 then value
  else
    let scaled := (value * num).tdiv den
    if -0x80000000 ≤ scaled ∧ scaled ≤ 0x7FFFFFFF then scaled else 0x7FFFFFFF

/-- The size of an image: as requested, where an extent of zero follows from the
    other one, and not wider than the wrap width. -/
def imageSize (natural : Size) (requested : Option Size) (wrapWidth : Int) : Size :=
  let size :=
    match requested with
    | none => natural
    | some ⟨w, h⟩ =>
      if w = 0 ∧ h = 0 then natural
      else if w = 0 then ⟨scale natural.width h natural.height, h⟩
      else if h = 0 then ⟨w, scale natural.height w natural.width⟩
      else ⟨w, h⟩
  if 0 < wrapWidth ∧ wrapWidth < size.width then
    ⟨wrapWidth, scale size.height wrapWidth size.width⟩
  else size

def imageMargin : Option ImageMargin → Margin
  | none => Margin.all 0
  | some (.uniform side) => Margin.all side.toInt
  | some (.sides m) => ⟨m.left.toInt, m.top.toInt, m.right.toInt, m.bottom.toInt⟩

/-- The baseline of an image of a height within the line of a face. -/
def imageBaseline (face : Face) (align : VerticalAlign) (height : Int) : Int :=
  match align with
  | .baseline => height
  | .top => face.baseline
  | .middle => (face.baseline + height).tdiv 2
  | .bottom => height - (face.height - face.baseline)

def imageMark (i : ImageSetting) (image : Image) : ImageMark :=
  let face := s.font.face
  let requested := i.size.map fun (w, h) =>
    Size.mk (Length.resolveOr w s.wrapWidth 0) (Length.resolveOr h face.height 0)
  let size := imageSize image.size requested s.wrapWidth
  let margin := imageMargin i.margin
  let offset := i.offset.elim Point.zero fun (x, y) => ⟨x.toInt, y.toInt⟩
  let height := margin.vertical + size.height
  { index := i.index.val
    image := image
    bounds := Rect.ofOriginSize (⟨margin.left, margin.top⟩ + offset) size
    advance := margin.horizontal + size.width
    height := height
    baseline := imageBaseline face s.format.verticalAlign height
    tint := s.format.tint.getD .white }

/-- Puts an image on the line; one that is not registered takes no room. -/
def placeImage (i : ImageSetting) (index : Nat) : LayoutState :=
  (job.printer.images.get? i.index.val).elim s fun image =>
    let mark := s.imageMark i image
    s.addMark job CodePoint.placeholder (.image mark) mark.advance index

/-! ### Tables, regions, breaking letters -/

/-- A table at the indent. Without a width of its own it is as wide as lines are
    or, where these are not wrapped, as its columns of fixed width are together. -/
def newTable (border : Bool) (width : Option Length) (columns : List ColumnSetting) : Table :=
  let width := Length.resolveOr width s.wrapWidth 0
  let width :=
    if 0 < width then width
    else if 0 < s.wrapWidth then s.wrapWidth
    else Column.total (columns.map fun c => c.width.elim 0 fun l => max l.pixels.toInt 0)
  Table.ofColumns columns (job.origin.x + s.format.indent) width border

/-- Adds letters to a set that is held as a list. -/
def addLetters (set letters : List Nat) : List Nat :=
  letters.foldl (fun set c => if set.contains c then set else set ++ [c]) set

def removeLetters (set letters : List Nat) : List Nat :=
  set.filter fun c => !letters.contains c

/-! ### Instructions -/

def applySetting (index : Nat) : Setting → LayoutState
  | .color target c =>
    { s with format := s.format.setColor target (resolveColor job (colorSide target) c) }
  | .length target l => s.applyLength job index target l
  | .padding sides => { s with format.padding := sides }
  | .selectionPadding sides => { s with format.selection.padding := sides }
  | .letterOffset x y => { s with format.letterOffsetX := x, format.letterOffsetY := y }
  | .image i => s.placeImage job i index
  | .selectionStyle style => s.applySelectionStyle job style
  | .font id =>
    { s with format.font := id.elim job.printer.defaultFont Fin.val }.switchFont job
  | .lineSettings line change =>
    { s with format := s.format.updateLine line (·.apply change) }
  | .beginTable border width columns => s.beginTable job (s.newTable job border width columns)
  | .columnSpan columns align => { s with table := s.table.map (·.span columns.val align) }
  | .rowSpan _ => s
  | .addBreakingLetters letters => { s with breaking := addLetters s.breaking letters }
  | .removeBreakingLetters letters => { s with breaking := removeLetters s.breaking letters }
  | .addTabStop id none => { s with format.tabStops := s.format.tabStops.remove id.val }
  | .addTabStop id (some position) =>
    { s with format.tabStops := s.format.tabStops.set id.val position }
  | .removeTabStop id => { s with format.tabStops := s.format.tabStops.remove id.val }
  | .startRegion id => { s with regions := Span.opening s.marks.size id.val :: s.regions }
  | .endRegion id =>
    { s with regions := closeFirst (·.data == id.val) s.marks.size s.regions }
  | .placeholderSize width height =>
    { s with placeholder :=
        ⟨max (Length.resolveOr width s.wrapWidth 0) 0,
          max (Length.resolveOr height s.font.face.height 0) 0⟩ }

def applySwitch : Switch → LayoutState
  | .background shown => { s with format.showBackground := shown }
  | .border shown => { s with format.showBorder := shown }
  | .resetFormatting =>
    { s with format := s.format.reset job.printer.defaultFont }.switchFont job
  | .script kind => { s with format.script := kind }.switchFont job
  | .decorate line shown =>
    { s with format := s.format.updateLine line ({ · with shown := shown }) }
  | .justify on => { s with format.justify := some on }
  | .align align => { s with format.align := some align }
  | .verticalAlign align => { s with format.verticalAlign := align }
  | .defaultAlign => { s with format.align := none, format.justify := none }
  | .wordWrap on => { s with wordWrap := on }
  | .endTable => s.endTable job

/-- The font that a toggle asks for. -/
def toggleFont? : Toggle → Option FontRole
  | .regular => some .normal
  | .bold => some .bold
  | .italic => some .italic
  | .small => some .small
  | .heading h => some h.role
  | .startSelection | .endSelection => none

def applyToggle : Toggle → LayoutState
  | .startSelection => s.startSelection job
  | .endSelection => s.endSelection
  | t => (toggleFont? t).elim s fun role => { s with format.font := role.id }.switchFont job

/-- Carries out the instruction at a position. -/
def apply (index : Nat) : Instruction → LayoutState
  | .toggle t => s.applyToggle job t
  | .switch sw => s.applySwitch job sw
  | .setting st => s.applySetting job index st

end RichText.LayoutState
