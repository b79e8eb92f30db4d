/-
  RichText/Proofs/Layout/Ink.lean
  ===============================
  **Where lines break changes nothing but places.**

  What a glyph looks like follows from the tokens before it and the tables of the printer:
  the font in use, the colors and the selections that are open.  This `Ink` goes from token
  to token by itself (`Ink.step`), and every layout of the text has the same ink between the
  same tokens, wherever it stands and however it is wrapped (`ink_run`).  So the looks of the
  glyphs can be told before any line is set (`Ink.text`), and each layout reports them in
  this order (`inked_run`).  Two layouts of one markup then agree in all but places
  (`Printer.wrapping_keeps_text`).
-/
import RichText.Proofs.Layout.Coherence
import RichText.Proofs.Layout.Paragraphs

namespace RichText

/-! ### Spans that are open -/

namespace Span

variable {α : Type}

/-- What the open spans of a list stand for. -/
def openData (spans : List (Span α)) : List α := (spans.filter isOpen).map (·.data)

theorem data_of_carry {cut : Nat} {s t : Span α} (h : s.carry cut = some t) : t.data = s.data := by
  have past : ∀ t, carry.past cut s = some t → t.data = s.data := by
    intro t ht
    simp only [carry.past] at ht
    split at ht
    · cases ht
    · cases ht
      rfl
  simp only [carry] at h
  split at h
  · split at h
    · cases h
      rfl
    · exact past t h
  · exact past t h

/-- Every open span is taken over a cut. -/
theorem openData_carry (cut : Nat) (spans : List (Span α)) :
    openData (spans.filterMap (carry cut)) = openData spans := by
  induction spans with
  | nil => rfl
  | cons s spans ih =>
    simp only [openData] at ih ⊢
    cases hcarry : s.carry cut with
    | none =>
      have hclosed : ¬ s.isOpen = true := by
        intro hopen
        obtain ⟨t, ht, -⟩ := carry_of_isOpen hopen cut
        rw [hcarry] at ht
        cases ht
      rw [List.filterMap_cons_none hcarry, List.filter_cons_of_neg hclosed, ih]
    | some t =>
      have hopen := isOpen_of_carry hcarry
      rw [List.filterMap_cons_some hcarry, List.filter_cons, List.filter_cons, hopen]
      split
      · rw [List.map_cons, List.map_cons, data_of_carry hcarry, ih]
      · exact ih

/-- The open span that is closed is the last one that opened. -/
theorem openData_closeFirst (pos : Nat) (spans : List (Span α)) :
    openData (closeFirst (fun _ => true) pos spans) = (openData spans).tail := by
  induction spans with
  | nil => rfl
  | cons s spans ih =>
    simp only [openData] at ih ⊢
    simp only [closeFirst, Bool.and_true]
    split
    · next hopen =>
      have hclosed : ¬ (s.close pos).isOpen = true := Bool.false_ne_true
      rw [List.filter_cons_of_neg hclosed, List.filter_cons_of_pos hopen, List.map_cons,
        List.tail_cons]
    · next hclosed =>
      rw [List.filter_cons_of_neg hclosed, List.filter_cons_of_neg hclosed, ih]

end Span

/-! ### Ink -/

/-- All that decides what the glyphs to come look like. -/
structure Ink where
  /-- The font that was asked for. -/
  wanted : Nat
  script : Option Script
  color : Option Color
  selection : SelectionFormat
  /-- The number of the font in use, and the font. -/
  fontId : Nat
  font : Font
  /-- The selections that are open, the last one first. -/
  selections : List Selection

/-- What a glyph looks like, wherever it stands. -/
structure Look where
  /-- The code point that is drawn. -/
  code : Option Nat
  font : Nat
  color : Color
  lineEnd : Bool
  index : Nat
deriving DecidableEq, Repr

namespace Ink

variable (p : Printer) (i : Ink)

def textColor : Color := i.color.getD i.font.style.color

def markColor : Color := (i.selections.head?.bind (·.text)).getD i.textColor

/-! #### Instructions -/

/-- Takes the font into use that is asked for. -/
def useWanted : Ink :=
  let id := if i.script.isSome then p.resolveScriptFont i.wanted else p.resolveFont i.wanted
  (p.fonts.get? id).elim i fun font =>
    if id = i.fontId then i else { i with fontId := id, font := font }

/-- The selection that would start now. -/
def newSelection : Selection :=
  let style := i.selection
  let table := p.colors.get? ColorRole.selection.index
  { text := style.text
    background := style.background.getD (table.elim i.textColor.faded (·.background))
    noBackground := style.noBackground
    image := if style.background.isSome then none else style.image
    padding := style.padding.margin i.font.face.em }

def toggle : Toggle → Ink
  | .startSelection => { i with selections := i.newSelection p :: i.selections }
  | .endSelection => { i with selections := i.selections.tail }
  | t => (LayoutState.toggleFont? t).elim i fun role => { i with wanted := role.id }.useWanted p

def switch : Switch → Ink
  | .resetFormatting =>
    { i with wanted := p.defaultFont, script := none, color := none }.useWanted p
  | .script kind => { i with script := kind }.useWanted p
  | _ => i

/-- A color of the printer by reference. -/
def resolveColor (side : ColorPair → Color) (c : ColorRef) : Option Color :=
  LayoutState.resolveColor ⟨p, .zero, 0⟩ side c

def setting : Setting → Ink
  | .color .text c => { i with color := resolveColor p ColorPair.foreground c }
  | .font id => { i with wanted := id.elim p.defaultFont Fin.val }.useWanted p
  | .selectionPadding sides => { i with selection.padding := sides }
  | .selectionStyle style =>
    { i with
      selection :=
        { i.selection with
          image := style.image.map Fin.val
          text := resolveColor p ColorPair.foreground style.text
          background := resolveColor p ColorPair.background style.background
          noBackground := style.noBackground } }
  | _ => i

/-- The ink after one more token. -/
def step (l : Lexeme) : Ink :=
  match l.token with
  | .instruction (.toggle t) => i.toggle p t
  | .instruction (.switch w) => i.switch p w
  | .instruction (.setting s) => i.setting p s
  | _ => i

def run (ls : List Lexeme) : Ink := ls.foldl (step p) i

/-! #### Looks -/

/-- Whether a code point is drawn. -/
def draws (c : Nat) : Bool :=
  c != CodePoint.tab && !(CodePoint.isSpace c && !i.font.face.hasGlyph c)

/-- What is drawn of a token. -/
def drawn : Token → Option Nat
  | .text c => if i.draws c then some c else none
  | _ => none

/-- The looks of the glyphs that a token puts on a line: at most one. -/
def looks (l : Lexeme) : List Look :=
  (l.signs p.images).map fun σ => ⟨i.drawn l.token, i.fontId, i.markColor, σ.lineEnd, σ.index⟩

/-- The looks of the glyphs of a text. -/
def text : Ink → List Lexeme → List Look
  | _, [] => []
  | i, l :: ls => i.looks p l ++ text (i.step p l) ls

end Ink

/-- What the glyph of a mark looks like. -/
def Mark.look (m : Mark) : Look where
  code := match m.kind with
    | .glyph visible => if visible then some m.code else none
    | _ => none
  font := m.font
  color := m.color
  lineEnd := m.kind.isEnd
  index := m.index

/-- A glyph as it is reported with a look: nothing is drawn of what is left over where a line
    was wrapped. -/
structure Inked (k : Look) (g : Glyph) : Prop where
  code : g.code = if g.wrapped then none else k.code
  font : g.font = k.font
  color : g.color = k.color
  lineEnd : g.lineEnd = k.lineEnd
  index : g.index = k.index

theorem SetLine.inked_glyph (l : SetLine) (wrapped : Bool) (m : Mark) :
    Inked m.look (l.glyph wrapped m) where
  code := by
    simp only [glyph, Mark.look]
    cases m.kind with
    | glyph visible => cases visible <;> cases wrapped <;> rfl
    | _ => exact (ite_self none).symm
  font := rfl
  color := rfl
  lineEnd := rfl
  index := rfl

/-- The looks of marks. -/
def Labels.looks : Labels Look :=
  ⟨Mark.look, Inked, fun _ _ => rfl, fun l wrapped m _ => l.inked_glyph wrapped m⟩

namespace LayoutState

variable {job : Job} {s t : LayoutState} {labels : List Look}

/-! ### The ink of a layout -/

def ink (s : LayoutState) : Ink where
  wanted := s.format.font
  script := s.format.script
  color := s.format.color
  selection := s.format.selection
  fontId := s.fontId
  font := s.font
  selections := Span.openData s.selections

theorem SameStyle.ink (h : SameStyle s t)
    (hs : Span.openData t.selections = Span.openData s.selections) : t.ink = s.ink := by
  simp only [LayoutState.ink, h.format, h.fontId, h.font, hs]

theorem ink_beginLine (job : Job) (s : LayoutState) : (s.beginLine job).ink = s.ink := by
  simp only [beginLine]
  split <;> rfl

theorem ink_noteBreak (s : LayoutState) (p : Bool) : (s.noteBreak p).ink = s.ink := by
  cases p <;> rfl

theorem ink_beforeMark (job : Job) (s : LayoutState) (c : Nat) :
    (beforeMark job s c).ink = s.ink :=
  (ink_noteBreak (s.beginLine job) (CodePoint.isBreaking c)).trans (ink_beginLine job s)

theorem ink_pushMark (job : Job) (s : LayoutState) (code : Nat) (kind : MarkKind) (advance : Int)
    (index : Nat) : (s.pushMark job code kind advance index).ink = s.ink :=
  ink_beginLine job s

/-- A selection that is open goes on over the end of a line. -/
theorem ink_commit (job : Job) (s : LayoutState) (content : Nat) (reason : LineEnd) :
    (s.commit job content reason).ink = s.ink := by
  obtain ⟨-, -, -, -, -, hselections, -⟩ := commit_frame job s content reason
  refine (sameStyle_commit job s content reason).ink ?_
  rw [hselections, Span.openData_carry]

theorem ink_checkWrap (job : Job) (s : LayoutState) : (s.checkWrap job).ink = s.ink := by
  simp only [checkWrap]
  split
  · exact ink_commit job s s.breakAt .wrap
  · rfl

theorem ink_addMark (job : Job) (s : LayoutState) (code : Nat) (kind : MarkKind) (advance : Int)
    (index : Nat) : (s.addMark job code kind advance index).ink = s.ink :=
  (ink_checkWrap job _).trans (ink_pushMark job s code kind advance index)

theorem ink_place (job : Job) (s : LayoutState) (c index : Nat) :
    (s.place job c index).ink = s.ink := by
  rw [place_eq, ink_noteBreak, ink_addMark, ink_beforeMark]

theorem ink_newline (job : Job) (s : LayoutState) (c index : Nat) :
    (s.newline job c index).ink = s.ink := by
  simp only [newline, commitAll, ink_commit, ink_pushMark]

theorem ink_finishLine (job : Job) (s : LayoutState) (reason : LineEnd) :
    (s.finishLine job reason).ink = s.ink := by
  simp only [finishLine]
  split
  · rfl
  · exact ink_commit job s s.marks.size reason

theorem ink_endRow (job : Job) (s : LayoutState) : (s.endRow job).ink = s.ink := by
  simp only [endRow]
  split
  · exact (ink_commit job _ _ .row).trans (ink_beginLine job s)
  · rfl

theorem ink_nextCell (job : Job) (s : LayoutState) : (s.nextCell job).ink = s.ink := by
  have hselections := (nextCell_frame job s).2.2.2.2.2.1
  exact (sameStyle_nextCell job s).ink (congrArg Span.openData hselections)

theorem ink_endTable (job : Job) (s : LayoutState) : (s.endTable job).ink = s.ink := by
  simp only [endTable]
  split
  · exact ink_finishLine job s .row
  · rfl

/-! #### Instructions -/

theorem ink_switchFont (job : Job) (s : LayoutState) :
    (s.switchFont job).ink = s.ink.useWanted job.printer := by
  simp only [switchFont, Ink.useWanted]
  change ((job.printer.fonts.get? (s.wantedFont job)).elim s (s.useFont _)).ink =
    (job.printer.fonts.get? (s.wantedFont job)).elim s.ink _
  cases job.printer.fonts.get? (s.wantedFont job) with
  | none => rfl
  | some font =>
    simp only [Option.elim_some, useFont]
    split
    · next hid => exact (if_pos hid).symm
    · next hid => exact (if_neg hid).symm

theorem ink_applyToggle (job : Job) (s : LayoutState) (t : Toggle) :
    (s.applyToggle job t).ink = s.ink.toggle job.printer t := by
  cases t with
  | startSelection => rfl
  | endSelection =>
    simp only [applyToggle, endSelection, ink, Span.openData_closeFirst]
    rfl
  | _ => exact ink_switchFont job { s with format.font := _ }

theorem ink_applySwitch (job : Job) (s : LayoutState) (w : Switch) :
    (s.applySwitch job w).ink = s.ink.switch job.printer w := by
  cases w with
  | resetFormatting => exact ink_switchFont job { s with format := s.format.reset _ }
  | script kind => exact ink_switchFont job { s with format.script := kind }
  | endTable => exact ink_endTable job s
  | decorate line shown => cases line <;> rfl
  | _ => rfl

theorem resolveColor_eq (job : Job) (side : ColorPair → Color) (c : ColorRef) :
    resolveColor job side c = Ink.resolveColor job.printer side c := by
  cases c <;> rfl

theorem ink_applyLength (job : Job) (s : LayoutState) (index : Nat) (target : LengthTarget)
    (l : Option Length) : (s.applyLength job index target l).ink = s.ink := by
  cases target with
  | horizontalSpace =>
    cases l with
    | none => rfl
    | some l => exact ink_addMark job s _ _ _ index
  | verticalSpace =>
    cases l with
    | none => rfl
    | some l =>
      simp only [applyLength, Option.elim_some, addVerticalSpace]
      split <;> rfl
  | _ => rfl

theorem ink_applySetting (job : Job) (s : LayoutState) (index : Nat) (setting : Setting) :
    (s.applySetting job index setting).ink = s.ink.setting job.printer setting := by
  cases setting with
  | color target c =>
    cases target with
    | text => simp only [applySetting, resolveColor_eq]; rfl
    | _ => rfl
  | length target l => exact ink_applyLength job s index target l
  | image i =>
    simp only [applySetting, placeImage]
    cases job.printer.images.get? i.index.val with
    | none => rfl
    | some image => exact ink_addMark job s _ _ _ index
  | selectionStyle style =>
    simp only [applySetting, applySelectionStyle, resolveColor_eq]
    rfl
  | font id => exact ink_switchFont job { s with format.font := _ }
  | lineSettings line change => cases line <;> rfl
  | beginTable border width columns => exact ink_finishLine job s (.newline false)
  | addTabStop id position => cases position <;> rfl
  | _ => rfl

/-! #### A step and a run -/

theorem ink_step (job : Job) (s : LayoutState) (l : Lexeme) :
    (s.step job l).ink = s.ink.step job.printer l := by
  obtain ⟨index, token⟩ := l
  cases token with
  | text c => exact ink_place job s c index
  | newline c => exact ink_newline job s c index
  | placeholder => exact ink_addMark job s _ _ _ index
  | row => exact ink_endRow job s
  | cell => exact ink_nextCell job s
  | nothing => rfl
  | instruction i =>
    cases i with
    | toggle t => exact ink_applyToggle job s t
    | switch w => exact ink_applySwitch job s w
    | setting setting => exact ink_applySetting job s index setting

/-- The ink after some tokens is that which the tokens alone determine. -/
theorem ink_run (job : Job) (s : LayoutState) (ls : List Lexeme) :
    (s.run job ls).ink = s.ink.run job.printer ls := by
  induction ls generalizing s with
  | nil => rfl
  | cons l ls ih =>
    simp only [run, Ink.run, List.foldl_cons] at ih ⊢
    rw [ih, ink_step]

/-! ### The looks of a layout -/

theorem selectedColor_eq (s : LayoutState) :
    s.selectedColor = s.ink.selections.head?.bind (·.text) := by
  simp only [selectedColor, ink, Span.openData, List.head?_map, List.head?_filter]
  cases s.selections.find? Span.isOpen <;> rfl

/-- A mark has the ink that is in use when it is put on the line. -/
theorem look_newMark (job : Job) (s : LayoutState) (code : Nat) (kind : MarkKind) (advance : Int)
    (index : Nat) :
    (newMark job s code kind advance index).look =
      ⟨match kind with
        | .glyph visible => if visible then some code else none
        | _ => none, s.ink.fontId, s.ink.markColor, kind.isEnd, index⟩ := by
  have hcolor : (s.beginLine job).selectedColor.getD (s.beginLine job).textColor =
      (s.beginLine job).ink.markColor := by
    rw [selectedColor_eq]
    rfl
  have hink := ink_beginLine job s
  rw [← hink, ← hcolor]
  rfl

theorem draws_textAdvance (job : Job) (s : LayoutState) (c : Nat) :
    (s.textAdvance job c).2 = s.ink.draws c := by
  simp only [textAdvance, Ink.draws]
  by_cases htab : c = CodePoint.tab
  · rw [if_pos htab, htab]
    rfl
  · have hne : (c != CodePoint.tab) = true := bne_iff_ne.2 htab
    rw [if_neg htab, hne, Bool.true_and]
    change _ = !(CodePoint.isSpace c && !s.font.face.hasGlyph c)
    cases CodePoint.isSpace c && !s.font.face.hasGlyph c <;> rfl

theorem inked_addMark (h : AccountedBy .looks labels s) (job : Job) (code : Nat) (kind : MarkKind)
    (advance : Int) (index : Nat) :
    AccountedBy .looks (labels ++ [(newMark job s code kind advance index).look])
      (s.addMark job code kind advance index) := by
  have hmark := h.pushMark job code kind advance index
  simp only [addMark, checkWrap]
  split
  · exact hmark.commit job (Or.inl rfl)
  · exact hmark

theorem inked_noteBreak (h : AccountedBy .looks labels s) (p : Bool) :
    AccountedBy .looks labels (s.noteBreak p) := by
  cases p <;> exact h.congr rfl rfl

theorem inked_place (h : AccountedBy .looks labels s) (job : Job) (c index : Nat) :
    AccountedBy .looks (labels ++ s.ink.looks job.printer ⟨index, .text c⟩)
      (s.place job c index) := by
  have hbefore := h.moves_nil (beforeMark_moves job s c)
  have hdraws : (((s.beginLine job).noteBreak (CodePoint.isBreaking c)).textAdvance job c).2 =
      s.ink.draws c := by
    rw [draws_textAdvance, ink_noteBreak, ink_beginLine]
  have hlook : ∀ advance, (newMark job (beforeMark job s c) c (.glyph (s.ink.draws c)) advance
      index).look = ⟨s.ink.drawn (.text c), s.ink.fontId, s.ink.markColor, false, index⟩ := by
    intro advance
    rw [look_newMark, ink_beforeMark]
    rfl
  rw [place_eq, hdraws]
  refine inked_noteBreak ?_ _
  have hmark := inked_addMark hbefore job c (.glyph (s.ink.draws c))
    (((s.beginLine job).noteBreak (CodePoint.isBreaking c)).textAdvance job c).1 index
  rw [hlook] at hmark
  exact hmark

/-- A token adds the looks that the ink gives it. -/
theorem inked_step (h : AccountedBy .looks labels s) (job : Job) (hs : s.BreakWithin)
    (l : Lexeme) :
    AccountedBy .looks (labels ++ s.ink.looks job.printer l) (s.step job l) := by
  have hmoves : Moves job s (l.signs job.printer.images) (s.step job l) := step_moves hs l
  by_cases hsigns : l.signs job.printer.images = []
  · have hlooks : s.ink.looks job.printer l = [] := by
      rw [Ink.looks, hsigns, List.map_nil]
    rw [hsigns] at hmoves
    rw [hlooks, List.append_nil]
    exact h.moves_nil hmoves
  obtain ⟨index, token⟩ := l
  cases token with
  | text c => exact inked_place h job c index
  | newline c =>
    have hmark := h.pushMark job c .lineEnd 0 index
    rw [show Labels.looks.label = Mark.look from rfl, look_newMark] at hmark
    exact hmark.commit job (Or.inr rfl)
  | placeholder =>
    have hmark := inked_addMark h job CodePoint.placeholder .placeholder s.placeholder.width index
    rw [look_newMark] at hmark
    exact hmark
  | row => exact absurd rfl hsigns
  | cell => exact absurd rfl hsigns
  | nothing => exact absurd rfl hsigns
  | instruction i =>
    cases i with
    | toggle t => exact absurd rfl hsigns
    | switch w => exact absurd rfl hsigns
    | setting setting =>
      cases setting with
      | length target l =>
        cases target with
        | horizontalSpace =>
          cases l with
          | none => exact absurd rfl hsigns
          | some l =>
            have hmark := inked_addMark h job 0 (.glyph false)
              (l.resolveWith s.font.face.em s.wrapWidth) index
            rw [look_newMark] at hmark
            exact hmark
        | _ => exact absurd rfl hsigns
      | image i =>
        cases himage : job.printer.images.get? i.index.val with
        | none =>
          have hcontains : job.printer.images.contains i.index.val = false := by
            simp only [Registry.contains, himage, Option.isSome_none]
          refine absurd ?_ hsigns
          simp only [Lexeme.signs, hcontains, Bool.false_eq_true, if_false]
        | some image =>
          have hcontains : job.printer.images.contains i.index.val = true := by
            simp only [Registry.contains, himage, Option.isSome_some]
          have hmark := inked_addMark h job CodePoint.placeholder (.image (s.imageMark i image))
            (s.imageMark i image).advance index
          rw [look_newMark] at hmark
          simp only [Ink.looks, Lexeme.signs, hcontains, if_true, step, apply, applySetting,
            placeImage, himage, Option.elim_some]
          exact hmark
      | _ => exact absurd rfl hsigns

theorem inked_run (h : AccountedBy .looks labels s) (job : Job) (hs : s.BreakWithin)
    (ls : List Lexeme) :
    AccountedBy .looks (labels ++ s.ink.text job.printer ls) (s.run job ls) := by
  induction ls generalizing s labels with
  | nil =>
    rw [Ink.text, List.append_nil]
    exact h
  | cons l ls ih =>
    have hbreak : (s.step job l).BreakWithin := (step_moves hs l).preserves Move.breakWithin hs
    have hrun := ih (inked_step h job hs l) hbreak
    rw [ink_step, List.append_assoc] at hrun
    exact hrun

end LayoutState

/-! ### Two layouts of one text -/

namespace Job

/-- The glyphs of a layout: the looks of the text, and the end of the text in the font that is
    in use there. -/
theorem events_inked (job : Job) (font : Font) (cs : List Nat) :
    ∃ before last, events (job.layoutWith font cs) = before ++ [last] ∧
      List.Forall₂ Inked
        ((LayoutState.initial job font).ink.text job.printer (lexemes cs)) before ∧
      (∀ g ∈ before, g.wrapped = true → ∃ c, cs[g.index]? = some c ∧ Blank c) ∧
      last.code = none ∧ last.lineEnd = true ∧ last.index = cs.length ∧
      last.font = ((LayoutState.initial job font).ink.run job.printer (lexemes cs)).fontId := by
  have hinked := LayoutState.inked_run (LayoutState.accountedBy_initial .looks job font) job
    (LayoutState.breakWithin_initial job font) (lexemes cs)
  obtain ⟨before, last, hevents, hbefore, hlast⟩ := hinked.finish job cs.length
  obtain ⟨before', last', hevents', hreports, hend, hcode, hindex⟩ :=
    LayoutState.finish_events job (LayoutState.accounted_run job font cs) cs.length
  obtain ⟨rfl, htail⟩ := List.append_inj' (hevents.symm.trans hevents') rfl
  obtain rfl : last = last' := List.singleton_inj.1 htail
  refine ⟨before, last, hevents, hbefore, ?_, hcode, hend, hindex, ?_⟩
  · intro g hg hw
    obtain ⟨σ, hσ, hr⟩ := exists_of_forall₂ hreports hg
    rw [hr.index]
    exact ⟨σ.code, getElem?_of_blank hσ (hr.wrapped hw), hr.wrapped hw⟩
  · rw [← LayoutState.ink_run]
    rcases hlast with hlast | ⟨w, rfl⟩
    · have hfont := hlast.font
      rw [show Labels.looks.label = Mark.look from rfl, LayoutState.look_newMark] at hfont
      exact hfont
    · rfl

end Job

/-- Two glyphs that differ in their places at most. -/
structure Glyph.SameInk (g k : Glyph) : Prop where
  index : g.index = k.index
  font : g.font = k.font
  color : g.color = k.color
  lineEnd : g.lineEnd = k.lineEnd
  code : g.wrapped = false → k.wrapped = false → g.code = k.code

theorem Inked.sameInk {k : Look} {g h : Glyph} (hg : Inked k g) (hh : Inked k h) : g.SameInk h where
  index := hg.index.trans hh.index.symm
  font := hg.font.trans hh.font.symm
  color := hg.color.trans hh.color.symm
  lineEnd := hg.lineEnd.trans hh.lineEnd.symm
  code := by
    intro hgw hhw
    rw [hg.code, hh.code, hgw, hhw]

theorem forall₂_sameInk {ks : List Look} {gs hs : List Glyph} (hg : List.Forall₂ Inked ks gs)
    (hh : List.Forall₂ Inked ks hs) : List.Forall₂ Glyph.SameInk gs hs := by
  induction hg generalizing hs with
  | nil =>
    cases hh
    exact .nil
  | cons hk _ ih =>
    cases hh with
    | cons hk' hh => exact .cons (hk.sameInk hk') (ih hh)

/-- **Where lines break changes nothing but places.**  Two layouts of a markup, at any two
    origins and wrap widths, report glyphs of the same positions, fonts and colors that end
    lines and are drawn alike, where neither is left over at the end of a wrapped line; what
    is left over stands for a blank.  Only the color of the end of the text may differ.  The
    selections that are open between two tokens are the same, in the same order. -/
theorem Printer.wrapping_keeps_text (printer : Printer) (markup : List UInt8) (p q : Point)
    (width width' : Int) :
    ((∃ e, printer.layout markup p width none = .error e ∧
        printer.layout markup q width' none = .error e) ∨
      ∃ items regions items' regions' before last before' last',
        printer.layout markup p width none = .ok (items, regions) ∧
        printer.layout markup q width' none = .ok (items', regions') ∧
        items.filterMap Item.glyph? = before ++ [last] ∧
        items'.filterMap Item.glyph? = before' ++ [last'] ∧
        List.Forall₂ Glyph.SameInk before before' ∧
        (∀ g ∈ before ++ before', g.wrapped = true →
          ∃ c, (Codec.decode markup)[g.index]? = some c ∧ Blank c) ∧
        last.index = last'.index ∧ last.font = last'.font ∧
        last.lineEnd = true ∧ last'.lineEnd = true ∧ last.code = none ∧ last'.code = none) ∧
    ∀ font tokens,
      Span.openData
          ((LayoutState.initial ⟨printer, p, width⟩ font).run ⟨printer, p, width⟩ tokens).selections =
        Span.openData
          ((LayoutState.initial ⟨printer, q, width'⟩ font).run ⟨printer, q, width'⟩
            tokens).selections := by
  constructor
  · cases hfont : printer.fonts.get? printer.defaultFont with
    | none =>
      left
      refine ⟨.missingDefaultFont printer.defaultFont, ?_, ?_⟩ <;>
        simp only [layout, query, Job.layout, hfont, Except.map]
    | some font =>
      right
      obtain ⟨before, last, hevents, hinked, hblank, hcode, hend, hindex, hlast⟩ :=
        Job.events_inked ⟨printer, p, width⟩ font (Codec.decode markup)
      obtain ⟨before', last', hevents', hinked', hblank', hcode', hend', hindex', hlast'⟩ :=
        Job.events_inked ⟨printer, q, width'⟩ font (Codec.decode markup)
      refine ⟨_, _, _, _, before, last, before', last', layout_eq hfont markup p width,
        layout_eq hfont markup q width', ?_, ?_, forall₂_sameInk hinked hinked', ?_,
        hindex.trans hindex'.symm, hlast.trans hlast'.symm, hend, hend', hcode, hcode'⟩
      · rw [List.filterMap_flatMap]
        exact hevents
      · rw [List.filterMap_flatMap]
        exact hevents'
      · intro g hg
        rcases List.mem_append.1 hg with hg | hg
        · exact hblank g hg
        · exact hblank' g hg
  · intro font tokens
    have hrun := LayoutState.ink_run ⟨printer, p, width⟩ (.initial ⟨printer, p, width⟩ font) tokens
    have hrun' :=
      LayoutState.ink_run ⟨printer, q, width'⟩ (.initial ⟨printer, q, width'⟩ font) tokens
    exact congrArg Ink.selections (hrun.trans hrun'.symm)

end RichText
