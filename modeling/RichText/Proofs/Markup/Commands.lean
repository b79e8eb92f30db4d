/-
  RichText/Proofs/Markup/Commands.lean
  ====================================
  **A layout takes from markup what its author has asked for.**

  `Received c ts` says what the tokens `ts` carry of the arguments of a command
  `c`: words and colors as they are, bytes without their eighth bit, an alpha
  without its last bit but for the first one repeated in its place, pixels brought
  into the range of a word.  Whatever bytes follow those of a command, the tokens
  read are such tokens, and reading goes on at the first of these bytes.
-/
import RichText.Layout
import RichText.Markup.Command
import RichText.Proofs.Markup.Instructions

namespace RichText

/-! ### Bytes of commands -/

namespace Writing

/-- Code points that a word can hold. -/
def Small (cs : List Nat) : Prop := ∀ c ∈ cs, c < 0x10000

theorem small_nil : Small [] := fun _ h => nomatch h

theorem Small.append {cs ds : List Nat} (hc : Small cs) (hd : Small ds) : Small (cs ++ ds) := by
  intro c h
  rcases List.mem_append.1 h with h | h
  · exact hc c h
  · exact hd c h

theorem Small.cons {c : Nat} {cs : List Nat} (hc : c < 0x10000) (h : Small cs) :
    Small (c :: cs) := by
  intro d hd
  rcases List.mem_cons.1 hd with rfl | hd
  · exact hc
  · exact h d hd

theorem small_single {c : Nat} (h : c < 0x10000) : Small [c] := small_nil.cons h

theorem small_index (i : Index) : Small (index i) :=
  small_single (Nat.lt_trans i.isLt (by decide))

theorem small_optionalIndex (i : Option Index) : Small (optionalIndex i) := by
  cases i with
  | none => exact small_nil
  | some i => exact small_index i

theorem small_word (w : Int16) : Small (word w) := small_single w.toUInt16.toNat_lt

theorem small_wordUnlessZero (w : Int16) : Small (wordUnlessZero w) := by
  unfold wordUnlessZero
  split
  · exact small_nil
  · exact small_word w

theorem small_length (l : Option Length) : Small (length l) := by
  cases l with
  | none => exact small_single (by decide)
  | some l =>
    have hm : lengthMode l < 0x10000 := by
      unfold lengthMode
      cases l.pixels != 0 <;> cases l.relative != 0 <;> cases l.basisPoints != 0 <;> decide
    exact (((small_wordUnlessZero l.pixels).append (small_wordUnlessZero l.relative)).append
      (small_wordUnlessZero l.basisPoints)).cons hm

theorem small_sides (s : Sides (Option Length)) : Small (sides s) :=
  (((small_length s.left).append (small_length s.top)).append (small_length s.right)).append
    (small_length s.bottom)

theorem small_rgba (c : Rgba) : Small (rgba c) := by
  have hr := c.r.toNat_lt
  have hg := c.g.toNat_lt
  have hb := c.b.toNat_lt
  have ha := c.a.toNat_lt
  exact (small_single (by omega)).cons (by omega)

theorem small_color (c : ColorRef) : Small (color c) := by
  cases c with
  | default => exact small_nil
  | indexed i alpha => exact (small_index i).append (small_optionalIndex alpha)
  | rgba c => exact small_rgba c

theorem small_lineChange (change : LineChange) : Small (lineChange change) := by
  have hbits : ∀ settings : LineSettings, settings.bits < 0x10000 :=
    fun settings => Nat.lt_trans settings.bits_lt (by decide)
  rcases change with _ | ⟨_ | settings, _ | thickness⟩
  · exact small_single (by decide)
  · exact small_single (by decide)
  · exact (small_length thickness).cons (by decide)
  · exact (small_single (hbits settings)).cons (by decide)
  · exact ((small_length thickness).cons (hbits settings)).cons (by decide)

theorem small_selectionStyle (s : SelectionStyle) : Small (selectionStyle s) := by
  have hbit : ∀ lowest c, colorBit lowest c ≤ 2 * lowest := by
    intro lowest c
    cases c <;> simp only [colorBit] <;> omega
  have hm : selectionMode s < 0x10000 := by
    have ht := hbit 2 s.text
    have hb := hbit 8 s.background
    have hi := Bool.toNat_lt s.image.isSome
    have hn := Bool.toNat_lt s.noBackground
    unfold selectionMode
    omega
  exact (((small_optionalIndex s.image).append (small_color s.text)).append
    (small_color s.background)).cons hm

theorem small_image (i : ImageSetting) : Small (image i) := by
  have hm : imageMode i < 0x10000 := by
    have ha : i.align.code ≤ 2 := by cases i.align <;> decide
    have ho := Bool.toNat_lt i.offset.isSome
    have hs := Bool.toNat_lt i.size.isSome
    have hmargin : marginBit i.margin ≤ 32 := by
      rcases i.margin with _ | _ | _
      · exact Nat.zero_le 32
      · exact Nat.le_add_right 16 16
      · exact Nat.le_refl 32
    unfold imageMode
    omega
  have ho : Small (offset i.offset) := by
    rcases i.offset with _ | ⟨x, y⟩
    · exact small_nil
    · exact (small_word x).append (small_word y)
  have hs : Small (size i.size) := by
    rcases i.size with _ | ⟨width, height⟩
    · exact small_nil
    · exact (small_length width).append (small_length height)
  have hmargin : Small (margin i.margin) := by
    rcases i.margin with _ | side | s
    · exact small_nil
    · exact small_word side
    · exact (((small_word s.left).append (small_word s.top)).append (small_word s.right)).append
        (small_word s.bottom)
  exact (small_index i.index).append (((ho.append hs).append hmargin).cons hm)

theorem small_align (a : TextAlign) : a.code < 0x10000 := by cases a <;> decide

theorem small_columns (cs : List ColumnSetting) : Small (cs.flatMap column) := by
  intro c h
  obtain ⟨col, -, hc⟩ := List.mem_flatMap.1 h
  exact ((small_length col.width).cons (small_align col.align)).cons (by decide) c hc

end Writing

namespace Setting

/-- Whether the parameters of a setting are letters as they come. -/
def HasLetters : Setting → Prop
  | addBreakingLetters _ | removeBreakingLetters _ => True
  | _ => False

open Writing in
/-- The parameters of a setting are small, letters apart. -/
theorem small_parameters {s : Setting} (h : ¬ s.HasLetters) : Small s.parameters := by
  cases s with
  | color _ c => exact small_color c
  | length _ l => exact small_length l
  | padding s | selectionPadding s => exact small_sides s
  | letterOffset x y => exact (small_length x).append (small_length y)
  | image i => exact small_image i
  | selectionStyle s => exact small_selectionStyle s
  | font id => exact small_optionalIndex id
  | lineSettings _ change => exact small_lineChange change
  | beginTable border width columns =>
    have hb : border.toNat < 0x10000 := by cases border <;> decide
    exact ((small_length width).append (small_columns columns)).cons hb
  | columnSpan columns align =>
    exact (small_index columns).append (small_single (small_align align))
  | rowSpan rows => exact small_optionalIndex rows
  | addBreakingLetters letters | removeBreakingLetters letters => exact (h trivial).elim
  | addTabStop id position => exact (small_index id).append (small_length position)
  | removeTabStop id | startRegion id | endRegion id => exact small_index id
  | placeholderSize width height => exact (small_length width).append (small_length height)

theorem command_lt (s : Setting) : s.command < 0x10000 := by
  have hindex : ∀ t : ColorTarget, t.indexCommand < 0x10000 := by
    intro t
    cases t <;> decide
  have hrgba : ∀ t : ColorTarget, t.rgbaCommand < 0x10000 := by
    intro t
    cases t <;> decide
  have hlength : ∀ t : LengthTarget, t.command < 0x10000 := by
    intro t
    cases t <;> decide
  have hline : ∀ line : Decoration, lineSettingsCommand line < 0x10000 := by
    intro line
    cases line <;> decide
  cases s with
  | color target c =>
    cases c with
    | rgba c => exact hrgba target
    | default | indexed _ _ => exact hindex target
  | length target _ => exact hlength target
  | lineSettings line _ => exact hline line
  | _ => simp only [command]; decide

theorem small_codePoints {s : Setting} (h : ¬ s.HasLetters) : Writing.Small s.codePoints := by
  refine Writing.Small.cons (by decide) (Writing.Small.cons s.command_lt ?_)
  exact (small_parameters h).append (Writing.small_single (by decide))

end Setting

/-! ### Code points that are read as tokens -/

/-- The code points are read as the tokens, whatever follows, and so are their bytes. -/
structure ReadAs (cs : List Nat) (ts : List Token) : Prop where
  small : Writing.Small cs
  lexemes : ∀ index, ∃ ls : List Lexeme, ls.map Lexeme.token = ts ∧
    (ls.head?).map Lexeme.index = some index ∧
    ∀ rest, lexemesFrom 0 index (cs ++ rest) = ls ++ lexemesFrom 0 (index + cs.length) rest

theorem readAs_setting {s : Setting} (h : ¬ s.HasLetters) (hs : s.SelfDelimiting) :
    ReadAs s.codePoints [.instruction (.setting s)] where
  small := Setting.small_codePoints h
  lexemes index :=
    ⟨[⟨index, .instruction (.setting s)⟩], rfl, rfl, lexemesFrom_setting hs index⟩

theorem readAs_toggle (t : Toggle) : ReadAs [t.code] [.instruction (.toggle t)] where
  small := Writing.small_single (by
    cases t with
    | heading level => cases level <;> decide
    | _ => decide)
  lexemes index :=
    ⟨[⟨index, .instruction (.toggle t)⟩], rfl, rfl,
      lexemesFrom_codePoints (i := .toggle t) trivial index⟩

theorem readAs_switch (w : Switch) :
    ReadAs [Control.simpleIntroducer, w.command] [.instruction (.switch w)] where
  small := by
    have hall : ∀ w ∈ Switch.all, w.command < 0x10000 := by decide
    exact (Writing.small_single (hall w w.mem_all)).cons (by decide)
  lexemes index :=
    ⟨[⟨index, .instruction (.switch w)⟩], rfl, rfl,
      lexemesFrom_codePoints (i := .switch w) trivial index⟩

theorem readAs_single {c : Nat} {t : Token} (hc : c < 0x10000) (h : ∀ cs, Token.read c cs = (t, 0)) :
    ReadAs [c] [t] where
  small := Writing.small_single hc
  lexemes index := by
    refine ⟨[⟨index, t⟩], rfl, rfl, fun rest => ?_⟩
    rw [List.cons_append, List.nil_append, lexemesFrom_cons, h]
    rfl

theorem ReadAs.append {cs ds : List Nat} {ts us : List Token} (hc : ReadAs cs ts)
    (hd : ReadAs ds us) : ReadAs (cs ++ ds) (ts ++ us) where
  small := hc.small.append hd.small
  lexemes index := by
    obtain ⟨ls, rfl, hindex, hls⟩ := hc.lexemes index
    obtain ⟨ms, rfl, -, hms⟩ := hd.lexemes (index + cs.length)
    refine ⟨ls ++ ms, List.map_append, ?_, fun rest => ?_⟩
    · cases ls with
      | nil => cases hindex
      | cons l ls => exact hindex
    · rw [List.append_assoc, hls, hms, List.length_append, List.append_assoc, Nat.add_assoc]

theorem ReadAs.decode {cs : List Nat} {ts : List Token} (h : ReadAs cs ts) (bytes : List UInt8) :
    Codec.decode (Codec.encodeAll cs ++ bytes) = cs ++ Codec.decode bytes := by
  refine Codec.decode_append_encodeAll (fun c hc => ?_) bytes
  have := h.small c hc
  simp only [CodePoint.largest]
  omega

/-! ### What arrives of an argument -/

/-- A byte arrives without its eighth bit. -/
def ArrivesMasked (b : UInt8) (i : Index) : Prop := i.val = b.toNat % 128

/-- An alpha arrives with its first bit in place of its last. -/
def ArrivesAsAlpha (a : UInt8) (i : Index) : Prop :=
  i.toAlpha.toNat = 2 * (a.toNat / 2) + a.toNat / 128

/-- A number of pixels arrives as the nearest one that a word can hold. -/
def ArrivesClamped (n : Int) (w : Int16) : Prop := w.toInt = max (-32768) (min n 32767)

/-- A color, or the request for the default. -/
inductive ArrivesAsColor : Option ColorSource → ColorRef → Prop
  | default : ArrivesAsColor none .default
  | index {b : UInt8} {i : Index} {alpha : Option UInt8} {a : Option Index}
      (hi : ArrivesMasked b i) (ha : Option.Rel ArrivesAsAlpha alpha a) :
      ArrivesAsColor (some (.index b alpha)) (.indexed i a)
  | color (c : Rgba) : ArrivesAsColor (some (.color c)) (.rgba c)

/-- In the style of selections an alpha that is not given arrives as 255. -/
inductive ArrivesInSelection : Option ColorSource → ColorRef → Prop
  | default : ArrivesInSelection none .default
  | index {b : UInt8} {i : Index} {alpha : Option UInt8} {a : Index}
      (hi : ArrivesMasked b i) (ha : ArrivesAsAlpha (alpha.getD 255) a) :
      ArrivesInSelection (some (.index b alpha)) (.indexed i (some a))
  | color (c : Rgba) : ArrivesInSelection (some (.color c)) (.rgba c)

/-- Pixels and percent arrive in the first two words of a length. -/
structure ArrivesAsLength (pixels percent : Int) (l : Length) : Prop where
  pixels : ArrivesClamped pixels l.pixels
  relative : ArrivesClamped percent l.relative
  basisPoints : l.basisPoints = 0

/-- The pixels and the percent of each side arrive at that side. -/
structure ArriveAsSides (pixels percent : Margin) (left top right bottom : Length) : Prop where
  left : ArrivesAsLength pixels.left percent.left left
  top : ArrivesAsLength pixels.top percent.top top
  right : ArrivesAsLength pixels.right percent.right right
  bottom : ArrivesAsLength pixels.bottom percent.bottom bottom

/-- A margin arrives side by side, also where it was written once for all sides. -/
structure ArrivesAsMargin (m : Margin) (i : ImageMargin) : Prop where
  left : (LayoutState.imageMargin (some i)).left = max (-32768) (min m.left 32767)
  top : (LayoutState.imageMargin (some i)).top = max (-32768) (min m.top 32767)
  right : (LayoutState.imageMargin (some i)).right = max (-32768) (min m.right 32767)
  bottom : (LayoutState.imageMargin (some i)).bottom = max (-32768) (min m.bottom 32767)

/-- The size of an image, given in pixels and percent. -/
inductive ArrivesAsSize : Size × Size → Option Length × Option Length → Prop
  | mk {pixels percent : Size} {width height : Length}
      (hw : ArrivesAsLength pixels.width percent.width width)
      (hh : ArrivesAsLength pixels.height percent.height height) :
      ArrivesAsSize (pixels, percent) (some width, some height)

/-- The parts of an image arrive where they were given. -/
structure ArrivesAsImage (i : ImageSpec) (s : ImageSetting) : Prop where
  index : ArrivesMasked i.index s.index
  align : s.align = i.align
  offset : Option.Rel (fun p w => ArrivesClamped p.x w.1 ∧ ArrivesClamped p.y w.2) i.offset s.offset
  size : Option.Rel ArrivesAsSize i.size s.size
  margin : Option.Rel ArrivesAsMargin i.margin s.margin

/-- The parts of a style of selections arrive where they were given. -/
structure ArrivesAsStyle (spec : SelectionSpec) (s : SelectionStyle) : Prop where
  image : Option.Rel ArrivesMasked spec.image s.image
  text : ArrivesInSelection spec.text s.text
  background : ArrivesInSelection spec.background s.background
  noBackground : s.noBackground = spec.noBackground

/-- What the tokens carry of the arguments of a command.  Words, lengths of three
    words, switches and toggles arrive unchanged. -/
inductive Received : Command → List Token → Prop
  | lineBreak : Received .lineBreak [.newline CodePoint.lineBreak]
  | zeroWidthSpace : Received .zeroWidthSpace [.text CodePoint.zeroWidthSpace]
  | nextRow : Received .nextRow [.row]
  | nextCell : Received .nextCell [.cell]
  | toggle (t : Toggle) : Received (.toggle t) [.instruction (.toggle t)]
  | switch (w : Switch) : Received (.switch w) [.instruction (.switch w)]
  | font {id : UInt8} {i : Index} (h : ArrivesMasked id i) :
      Received (.font id) [.instruction (.setting (.font (some i)))]
  | color (target : ColorTarget) {source : Option ColorSource} {c : ColorRef}
      (h : ArrivesAsColor source c) :
      Received (.color target source) [.instruction (.setting (.color target c))]
  | length (target : LengthTarget) (l : Option Length) :
      Received (.length target l) [.instruction (.setting (.length target l))]
  | padding {pixels percent : Margin} {left top right bottom : Length}
      (h : ArriveAsSides pixels percent left top right bottom) :
      Received (.padding pixels percent)
        [.instruction (.setting (.padding ⟨some left, some top, some right, some bottom⟩))]
  | selectionPadding {pixels percent : Margin} {left top right bottom : Length}
      (h : ArriveAsSides pixels percent left top right bottom) :
      Received (.selectionPadding pixels percent)
        [.instruction (.setting (.selectionPadding ⟨some left, some top, some right, some bottom⟩))]
  | selectionStyle {spec : SelectionSpec} {s : SelectionStyle} (h : ArrivesAsStyle spec s) :
      Received (.selectionStyle spec) [.instruction (.setting (.selectionStyle s))]
  | letterOffset {pixels percent : Point} {x y : Length} (hx : ArrivesAsLength pixels.x percent.x x)
      (hy : ArrivesAsLength pixels.y percent.y y) :
      Received (.letterOffset (some (pixels, percent)))
        [.instruction (.setting (.letterOffset (some x) (some y)))]
  | noLetterOffset :
      Received (.letterOffset none) [.instruction (.setting (.letterOffset none none))]
  | lineSettings (line : Decoration) (settings : LineSettings) (thickness : Option Length) :
      Received (.lineSettings line settings thickness)
        [.instruction (.setting (.lineSettings line (.change (some settings) (thickness.map some))))]
  | defaultLineSettings (line : Decoration) :
      Received (.defaultLineSettings line) [.instruction (.setting (.lineSettings line .reset))]
  | image {i : ImageSpec} {s : ImageSetting} (h : ArrivesAsImage i s) :
      Received (.image i) [.instruction (.setting (.image s))]
  | placeholder {pixels percent : Size} {width height : Length}
      (hw : ArrivesAsLength pixels.width percent.width width)
      (hh : ArrivesAsLength pixels.height percent.height height) :
      Received (.placeholder pixels percent)
        [.instruction (.setting (.placeholderSize (some width) (some height))), .placeholder]
  | repeatPlaceholder : Received .repeatPlaceholder [.placeholder]
  | beginTable (border : Bool) (width : Length) (columns : List ColumnSetting) :
      Received (.beginTable border width columns)
        [.instruction (.setting (.beginTable border (some width) columns))]
  | columnSpan {columns : UInt8} {i : Index} (align : TextAlign) (h : ArrivesMasked columns i) :
      Received (.columnSpan columns align) [.instruction (.setting (.columnSpan i align))]
  | rowSpan {rows : UInt8} {i : Index} (h : ArrivesMasked rows i) :
      Received (.rowSpan rows) [.instruction (.setting (.rowSpan (some i)))]
  | addTabStop {id : UInt8} {i : Index} (position : Length) (h : ArrivesMasked id i) :
      Received (.addTabStop id position) [.instruction (.setting (.addTabStop i (some position)))]
  | removeTabStop {id : UInt8} {i : Index} (h : ArrivesMasked id i) :
      Received (.removeTabStop id) [.instruction (.setting (.removeTabStop i))]
  | startRegion {id : UInt8} {i : Index} (h : ArrivesMasked id i) :
      Received (.startRegion id) [.instruction (.setting (.startRegion i))]
  | endRegion {id : UInt8} {i : Index} (h : ArrivesMasked id i) :
      Received (.endRegion id) [.instruction (.setting (.endRegion i))]

/-! ### Arguments in the ranges of the wire -/

theorem arrivesMasked (b : UInt8) : ArrivesMasked b (Index.ofByte b) := Index.val_ofByte b

theorem arrivesAsAlpha (a : UInt8) : ArrivesAsAlpha a (Index.ofAlpha a) := Index.toAlpha_ofAlpha a

theorem arrivesClamped (n : Int) : ArrivesClamped n (clampWord n) := by
  unfold ArrivesClamped clampWord
  exact Int16.toInt_ofInt_of_le (by omega) (by omega)

theorem arrivesAsLength (pixels percent : Int) :
    ArrivesAsLength pixels percent (pixelsAndPercent pixels percent) :=
  ⟨arrivesClamped pixels, arrivesClamped percent, rfl⟩

theorem arriveAsSides (pixels percent : Margin) :
    ArriveAsSides pixels percent (pixelsAndPercent pixels.left percent.left)
      (pixelsAndPercent pixels.top percent.top) (pixelsAndPercent pixels.right percent.right)
      (pixelsAndPercent pixels.bottom percent.bottom) :=
  ⟨arrivesAsLength _ _, arrivesAsLength _ _, arrivesAsLength _ _, arrivesAsLength _ _⟩

theorem arrivesAsColor (source : Option ColorSource) :
    ArrivesAsColor source (source.elim .default ColorSource.ref) := by
  rcases source with _ | ⟨b, _ | alpha⟩ | c
  · exact .default
  · exact .index (arrivesMasked b) .none
  · exact .index (arrivesMasked b) (.some (arrivesAsAlpha alpha))
  · exact .color c

theorem arrivesInSelection (source : Option ColorSource) :
    ArrivesInSelection source (source.elim .default ColorSource.selectionRef) := by
  rcases source with _ | ⟨b, alpha⟩ | c
  · exact .default
  · exact .index (arrivesMasked b) (arrivesAsAlpha (alpha.getD 255))
  · exact .color c

theorem arrivesAsStyle (s : SelectionSpec) : ArrivesAsStyle s s.style where
  image := by
    unfold SelectionSpec.style
    cases s.image with
    | none => exact .none
    | some i => exact .some (arrivesMasked i)
  text := arrivesInSelection s.text
  background := arrivesInSelection s.background
  noBackground := rfl

theorem arrivesAsMargin (m : Margin) : ArrivesAsMargin m (ImageSpec.marginSetting m) := by
  obtain ⟨left, top, right, bottom⟩ := m
  unfold ImageSpec.marginSetting
  by_cases h : Margin.isUniform ⟨left, top, right, bottom⟩ = true
  · rw [if_pos h]
    simp only [Margin.isUniform, Bool.and_eq_true, beq_iff_eq] at h
    obtain ⟨⟨rfl, rfl⟩, rfl⟩ := h
    exact ⟨arrivesClamped _, arrivesClamped _, arrivesClamped _, arrivesClamped _⟩
  · rw [if_neg h]
    exact ⟨arrivesClamped _, arrivesClamped _, arrivesClamped _, arrivesClamped _⟩

theorem arrivesAsImage (i : ImageSpec) : ArrivesAsImage i i.setting where
  index := arrivesMasked i.index
  align := rfl
  offset := by
    unfold ImageSpec.setting
    cases i.offset with
    | none => exact .none
    | some p => exact .some ⟨arrivesClamped p.x, arrivesClamped p.y⟩
  size := by
    unfold ImageSpec.setting
    cases i.size with
    | none => exact .none
    | some s => exact .some (.mk (arrivesAsLength _ _) (arrivesAsLength _ _))
  margin := by
    unfold ImageSpec.setting
    cases i.margin with
    | none => exact .none
    | some m => exact .some (arrivesAsMargin m)

theorem ArrivesInSelection.bringsAlpha {source : Option ColorSource} {c : ColorRef}
    (h : ArrivesInSelection source c) : c.BringsAlpha := by
  cases h <;> trivial

/-! ### Commands -/

namespace Command

/-- Commands that write instructions, or code points with a meaning of their own.
    Letters after which a line may break are given as they are, and might hold a
    terminator. -/
def IsInstruction : Command → Prop
  | text _ | addBreakingLetters _ | removeBreakingLetters _ => False
  | _ => True

/-- How many steps of a layout take the tokens of a command. -/
def steps : Command → Nat
  | placeholder _ _ => 2
  | _ => 1

private theorem codePoints_of_instruction {c : Command} {i : Instruction}
    (h : c.pieces = [.instruction i]) : c.codePoints = i.codePoints := by
  rw [codePoints, h, List.flatMap_singleton]
  rfl

private theorem codePoints_of_single {c : Command} {x : Nat} (h : c.pieces = [.codePoints [x]]) :
    c.codePoints = [x] := by
  rw [codePoints, h, List.flatMap_singleton]
  rfl

private theorem readAs_of_setting {c : Command} {s : Setting}
    (hc : c.pieces = [.instruction (.setting s)]) (h : ¬ s.HasLetters) (hs : s.SelfDelimiting) :
    ReadAs c.codePoints [.instruction (.setting s)] := by
  rw [codePoints_of_instruction hc]
  exact readAs_setting h hs

private theorem readAs_of_single {c : Command} {x : Nat} {t : Token}
    (hc : c.pieces = [.codePoints [x]]) (hx : x < 0x10000)
    (h : ∀ cs, Token.read x cs = (t, 0)) : ReadAs c.codePoints [t] := by
  rw [codePoints_of_single hc]
  exact readAs_single hx h

private theorem readAs_placeholder (width height : Option Length) :
    ReadAs ((Setting.placeholderSize width height).codePoints ++ [CodePoint.placeholder])
      [.instruction (.setting (.placeholderSize width height)), .placeholder] := by
  have hsize : ReadAs (Setting.placeholderSize width height).codePoints
      [.instruction (.setting (.placeholderSize width height))] := readAs_setting not_false trivial
  exact hsize.append (readAs_single (by decide) fun _ => rfl)

/-- The code points of a command are read as tokens with what has arrived of its
    arguments. -/
theorem received {c : Command} (h : c.IsInstruction) :
    ∃ ts, Received c ts ∧ ts.length = c.steps ∧ ReadAs c.codePoints ts := by
  cases c with
  | text _ | addBreakingLetters _ | removeBreakingLetters _ => exact h.elim
  | lineBreak => exact ⟨_, .lineBreak, rfl, readAs_of_single rfl (by decide) fun _ => rfl⟩
  | zeroWidthSpace => exact ⟨_, .zeroWidthSpace, rfl, readAs_of_single rfl (by decide) fun _ => rfl⟩
  | nextRow => exact ⟨_, .nextRow, rfl, readAs_of_single rfl (by decide) fun _ => rfl⟩
  | nextCell => exact ⟨_, .nextCell, rfl, readAs_of_single rfl (by decide) fun _ => rfl⟩
  | repeatPlaceholder =>
    exact ⟨_, .repeatPlaceholder, rfl, readAs_of_single rfl (by decide) fun _ => rfl⟩
  | toggle t =>
    refine ⟨_, .toggle t, rfl, ?_⟩
    rw [codePoints_of_instruction (c := .toggle t) rfl]
    exact readAs_toggle t
  | switch w =>
    refine ⟨_, .switch w, rfl, ?_⟩
    rw [codePoints_of_instruction (c := .switch w) rfl]
    exact readAs_switch w
  | font id => exact ⟨_, .font (arrivesMasked id), rfl, readAs_of_setting rfl not_false trivial⟩
  | color target source =>
    exact ⟨_, .color target (arrivesAsColor source), rfl, readAs_of_setting rfl not_false trivial⟩
  | length target l => exact ⟨_, .length target l, rfl, readAs_of_setting rfl not_false trivial⟩
  | padding pixels percent =>
    exact ⟨_, .padding (arriveAsSides pixels percent), rfl, readAs_of_setting rfl not_false trivial⟩
  | selectionPadding pixels percent =>
    exact ⟨_, .selectionPadding (arriveAsSides pixels percent), rfl,
      readAs_of_setting rfl not_false trivial⟩
  | selectionStyle s =>
    -- The alpha that is always written keeps the two colors apart.
    have hs := arrivesAsStyle s
    exact ⟨_, .selectionStyle hs, rfl, readAs_of_setting rfl not_false
      ⟨hs.text.bringsAlpha, hs.background.bringsAlpha⟩⟩
  | letterOffset amount =>
    rcases amount with _ | ⟨pixels, percent⟩
    · exact ⟨_, .noLetterOffset, rfl, readAs_of_setting rfl not_false trivial⟩
    · exact ⟨_, .letterOffset (arrivesAsLength _ _) (arrivesAsLength _ _), rfl,
        readAs_of_setting rfl not_false trivial⟩
  | lineSettings line settings thickness =>
    exact ⟨_, .lineSettings line settings thickness, rfl, readAs_of_setting rfl not_false trivial⟩
  | defaultLineSettings line =>
    exact ⟨_, .defaultLineSettings line, rfl, readAs_of_setting rfl not_false trivial⟩
  | image i =>
    exact ⟨_, .image (arrivesAsImage i), rfl, readAs_of_setting rfl not_false trivial⟩
  | placeholder pixels percent =>
    exact ⟨_, .placeholder (arrivesAsLength _ _) (arrivesAsLength _ _), rfl,
      readAs_placeholder _ _⟩
  | beginTable border width columns =>
    exact ⟨_, .beginTable border width columns, rfl, readAs_of_setting rfl not_false trivial⟩
  | columnSpan columns align =>
    exact ⟨_, .columnSpan align (arrivesMasked columns), rfl,
      readAs_of_setting rfl not_false trivial⟩
  | rowSpan rows =>
    exact ⟨_, .rowSpan (arrivesMasked rows), rfl, readAs_of_setting rfl not_false trivial⟩
  | addTabStop id position =>
    exact ⟨_, .addTabStop position (arrivesMasked id), rfl, readAs_of_setting rfl not_false trivial⟩
  | removeTabStop id =>
    exact ⟨_, .removeTabStop (arrivesMasked id), rfl, readAs_of_setting rfl not_false trivial⟩
  | startRegion id =>
    exact ⟨_, .startRegion (arrivesMasked id), rfl, readAs_of_setting rfl not_false trivial⟩
  | endRegion id =>
    exact ⟨_, .endRegion (arrivesMasked id), rfl, readAs_of_setting rfl not_false trivial⟩

end Command

/-- **What an author has asked for is what a layout does.**  From any state and
    before any bytes, the bytes of a command are taken in one step, or in two for a
    placeholder with its size.  The tokens of these steps carry what arrives of the
    arguments, and the steps after them start at the first of the bytes that follow. -/
theorem LayoutState.run_command_bytes {c : Command} (h : c.IsInstruction) (job : Job)
    (s : LayoutState) (index : Nat) (bytes : List UInt8) :
    ∃ ls : List Lexeme, Received c (ls.map Lexeme.token) ∧ ls.length = c.steps ∧
      (ls.head?).map Lexeme.index = some index ∧
      Codec.decode (c.bytes ++ bytes) = c.codePoints ++ Codec.decode bytes ∧
      lexemesFrom 0 index (Codec.decode (c.bytes ++ bytes)) =
        ls ++ lexemesFrom 0 (index + c.codePoints.length) (Codec.decode bytes) ∧
      s.run job (lexemesFrom 0 index (Codec.decode (c.bytes ++ bytes))) =
        (ls.foldl (step job) s).run job
          (lexemesFrom 0 (index + c.codePoints.length) (Codec.decode bytes)) := by
  obtain ⟨ts, hts, hlen, hread⟩ := Command.received h
  obtain ⟨ls, rfl, hindex, hls⟩ := hread.lexemes index
  have hdecode : Codec.decode (c.bytes ++ bytes) = c.codePoints ++ Codec.decode bytes :=
    hread.decode bytes
  have hlex : lexemesFrom 0 index (Codec.decode (c.bytes ++ bytes)) =
      ls ++ lexemesFrom 0 (index + c.codePoints.length) (Codec.decode bytes) := by
    rw [hdecode, hls]
  refine ⟨ls, hts, by rw [← hlen, List.length_map], hindex, hdecode, hlex, ?_⟩
  rw [hlex, run, List.foldl_append]
  rfl

/-- Words that look like a terminator, a row separator and a noncharacter arrive, and
    the letter that follows them is read as such. -/
theorem LayoutState.run_command_bytes_words :
    ∃ ls : List Lexeme, ls.map Lexeme.token =
        [.instruction (.setting (.length .horizontalSpace (some ⟨0x9C, 0x8E, -1⟩)))] ∧
      lexemesFrom 0 0 (Codec.decode
          ((Command.length .horizontalSpace (some ⟨0x9C, 0x8E, -1⟩)).bytes ++ [0x41])) =
        ls ++ [⟨7, .text 0x41⟩] := by
  let job : Job := ⟨Printer.boxes, .zero, 0⟩
  obtain ⟨ls, hls, -, -, -, hlex, -⟩ := run_command_bytes
    (c := .length .horizontalSpace (some ⟨0x9C, 0x8E, -1⟩)) trivial job
    (initial job (Font.ofFace BoxFace.standard.face)) 0 [0x41]
  refine ⟨ls, ?_, hlex⟩
  generalize ls.map Lexeme.token = ts at hls
  cases hls
  rfl

end RichText
