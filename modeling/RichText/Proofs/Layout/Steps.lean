/-
  RichText/Proofs/Layout/Steps.lean
  =================================
  **What a step leaves as it was, and where it wraps a line.**

  Formatting, font and wrap width change by instructions alone: putting marks on a line
  and committing it keep them (`SameStyle`), so that a step that is no instruction does
  (`sameStyle_step`).  Lines that have been committed stay as they are (`lines_prefix_layout`).

  A line is wrapped only when a mark has just been put on it.  `marked?` is the state at
  that moment, `Overflows` the test, and `WrapsAt` says of a layout that it comes to such
  a moment.
-/
import RichText.Proofs.Layout.Moves

namespace RichText.LayoutState

variable {job : Job} {s t u : LayoutState}

/-! ### Formatting and font -/

/-- What instructions set, apart from tables and spans, is as it was. -/
structure SameStyle (s t : LayoutState) : Prop where
  format : t.format = s.format := by rfl
  fontId : t.fontId = s.fontId := by rfl
  font : t.font = s.font := by rfl
  wrapOverride : t.wrapOverride = s.wrapOverride := by rfl
  wrapWidth : t.wrapWidth = s.wrapWidth := by rfl
  wordWrap : t.wordWrap = s.wordWrap := by rfl
  breaking : t.breaking = s.breaking := by rfl
  placeholder : t.placeholder = s.placeholder := by rfl

theorem SameStyle.refl (s : LayoutState) : SameStyle s s := {}

theorem SameStyle.trans (h : SameStyle s t) (k : SameStyle t u) : SameStyle s u where
  format := k.format.trans h.format
  fontId := k.fontId.trans h.fontId
  font := k.font.trans h.font
  wrapOverride := k.wrapOverride.trans h.wrapOverride
  wrapWidth := k.wrapWidth.trans h.wrapWidth
  wordWrap := k.wordWrap.trans h.wordWrap
  breaking := k.breaking.trans h.breaking
  placeholder := k.placeholder.trans h.placeholder

theorem letterOffset_congr (h : SameStyle s t) : t.letterOffset = s.letterOffset := by
  simp only [letterOffset, h.format, h.font]

theorem letterSpacing_congr (h : SameStyle s t) : t.letterSpacing = s.letterSpacing := by
  simp only [letterSpacing, h.format, h.font]

theorem sameStyle_beginLine (job : Job) (s : LayoutState) : SameStyle s (s.beginLine job) := by
  simp only [beginLine]
  split <;> exact {}

theorem sameStyle_noteBreak (s : LayoutState) (p : Bool) : SameStyle s (s.noteBreak p) := by
  cases p <;> exact {}

theorem sameStyle_pushMark (job : Job) (s : LayoutState) (code : Nat) (kind : MarkKind)
    (advance : Int) (index : Nat) : SameStyle s (s.pushMark job code kind advance index) :=
  (sameStyle_beginLine job s).trans {}

theorem sameStyle_carryMarks (job : Job) (s : LayoutState) (cut : Nat) :
    SameStyle s (s.carryMarks job cut) := by
  simp only [carryMarks]
  split
  · exact {}
  · exact (sameStyle_beginLine job s).trans {}

theorem sameStyle_commit (job : Job) (s : LayoutState) (content : Nat) (reason : LineEnd) :
    SameStyle s (s.commit job content reason) := by
  cases reason <;> exact SameStyle.trans {} (sameStyle_carryMarks job _ _)

theorem sameStyle_checkWrap (job : Job) (s : LayoutState) : SameStyle s (s.checkWrap job) := by
  simp only [checkWrap]
  split
  · exact sameStyle_commit job s s.breakAt .wrap
  · exact .refl s

theorem sameStyle_addMark (job : Job) (s : LayoutState) (code : Nat) (kind : MarkKind)
    (advance : Int) (index : Nat) : SameStyle s (s.addMark job code kind advance index) :=
  (sameStyle_pushMark job s code kind advance index).trans (sameStyle_checkWrap job _)

theorem sameStyle_beforeMark (job : Job) (s : LayoutState) (c : Nat) :
    SameStyle s (beforeMark job s c) := by
  have hbegin := sameStyle_beginLine job s
  exact (hbegin.trans (sameStyle_noteBreak _ (CodePoint.isBreaking c))).trans {}

theorem sameStyle_place (job : Job) (s : LayoutState) (c index : Nat) :
    SameStyle s (s.place job c index) := by
  rw [place_eq]
  refine SameStyle.trans ?_ (sameStyle_noteBreak _ _)
  exact (sameStyle_beforeMark job s c).trans (sameStyle_addMark job _ c _ _ index)

theorem sameStyle_newline (job : Job) (s : LayoutState) (c index : Nat) :
    SameStyle s (s.newline job c index) :=
  (sameStyle_pushMark job s c .lineEnd 0 index).trans (sameStyle_commit job _ _ _)

theorem sameStyle_finishLine (job : Job) (s : LayoutState) (reason : LineEnd) :
    SameStyle s (s.finishLine job reason) := by
  simp only [finishLine]
  split
  · exact .refl s
  · exact sameStyle_commit job s _ reason

theorem sameStyle_endRow (job : Job) (s : LayoutState) : SameStyle s (s.endRow job) := by
  simp only [endRow]
  split
  · exact (sameStyle_beginLine job s).trans (sameStyle_commit job _ _ .row)
  · exact .refl s

theorem sameStyle_nextCell (job : Job) (s : LayoutState) : SameStyle s (s.nextCell job) := by
  simp only [nextCell]
  split
  · exact .refl s
  · next t _ =>
    have hbegin := sameStyle_beginLine job { s with table := some (t.nextCell s.marks.size) }
    exact SameStyle.trans {} (hbegin.trans {})

theorem sameStyle_endTable (job : Job) (s : LayoutState) : SameStyle s (s.endTable job) := by
  simp only [endTable]
  split
  · exact (sameStyle_finishLine job s .row).trans {}
  · exact .refl s

/-- Only an instruction changes the formatting. -/
theorem sameStyle_step (job : Job) (s : LayoutState) {l : Lexeme}
    (hl : ∀ i, l.token ≠ .instruction i) : SameStyle s (s.step job l) := by
  obtain ⟨index, token⟩ := l
  cases token with
  | text c => exact sameStyle_place job s c index
  | newline c => exact sameStyle_newline job s c index
  | placeholder => exact sameStyle_addMark job s _ _ _ index
  | row => exact sameStyle_endRow job s
  | cell => exact sameStyle_nextCell job s
  | nothing => exact .refl s
  | instruction i => exact absurd rfl (hl i)

/-! ### The font in use -/

/-- Another font is in use; formatting, table and selections are as they were, and so is the
    left edge of the line. -/
theorem switchFont_frame (job : Job) (s : LayoutState) :
    let t := s.switchFont job
    t.format = s.format ∧ t.wrapOverride = s.wrapOverride ∧ t.table = s.table ∧
      t.selections = s.selections ∧ t.lineLeft = s.lineLeft := by
  have huse : ∀ id font, let t := s.useFont id font
      t.format = s.format ∧ t.wrapOverride = s.wrapOverride ∧ t.table = s.table ∧
        t.selections = s.selections ∧ t.lineLeft = s.lineLeft := by
    intro id font
    simp only [useFont]
    split
    · exact ⟨rfl, rfl, rfl, rfl, rfl⟩
    · exact ⟨rfl, rfl, rfl, rfl, rfl⟩
  simp only [LayoutState.switchFont]
  cases job.printer.fonts.get? (s.wantedFont job) with
  | none => exact ⟨rfl, rfl, rfl, rfl, rfl⟩
  | some font => exact huse (s.wantedFont job) font

/-- The font in use is one of the printer's. -/
def Registered (job : Job) (s : LayoutState) : Prop :=
  ∃ id, job.printer.fonts.get? id = some s.font

theorem Registered.congr (h : s.Registered job) (hst : t.font = s.font) : t.Registered job := by
  obtain ⟨id, hid⟩ := h
  exact ⟨id, hst ▸ hid⟩

theorem Registered.switchFont (h : s.Registered job) : (s.switchFont job).Registered job := by
  simp only [LayoutState.switchFont]
  cases hfont : job.printer.fonts.get? (s.wantedFont job) with
  | none => exact h.congr rfl
  | some font =>
    have huse : (s.useFont (s.wantedFont job) font).Registered job := by
      simp only [useFont]
      split
      · exact h
      · exact ⟨_, hfont⟩
    exact huse.congr rfl

theorem Registered.applyToggle (h : s.Registered job) (t : Toggle) :
    (s.applyToggle job t).Registered job := by
  have hswitch : ∀ id, ({ s with format.font := id }.switchFont job).Registered job :=
    fun id => (h.congr (t := { s with format.font := id }) rfl).switchFont
  cases t with
  | startSelection => exact h.congr rfl
  | endSelection => exact h.congr rfl
  | _ => exact hswitch _

theorem Registered.applySwitch (h : s.Registered job) (w : Switch) :
    (s.applySwitch job w).Registered job := by
  have hswitch : ∀ format, ({ s with format := format }.switchFont job).Registered job :=
    fun format => (h.congr (t := { s with format := format }) rfl).switchFont
  cases w with
  | resetFormatting => exact hswitch _
  | script kind => exact hswitch _
  | endTable => exact h.congr (sameStyle_endTable job s).font
  | _ => exact h.congr rfl

theorem Registered.applySetting (h : s.Registered job) (index : Nat) (setting : Setting) :
    (s.applySetting job index setting).Registered job := by
  cases setting with
  | font id =>
    have hformat : { s with format.font := id.elim job.printer.defaultFont Fin.val }.Registered
      job := h.congr rfl
    exact hformat.switchFont
  | image i =>
    simp only [LayoutState.applySetting, placeImage]
    cases job.printer.images.get? i.index.val with
    | none => exact h
    | some image => exact h.congr (sameStyle_addMark job s _ _ _ index).font
  | length target l =>
    cases target with
    | horizontalSpace =>
      cases l with
      | none => exact h
      | some l => exact h.congr (sameStyle_addMark job s _ _ _ index).font
    | verticalSpace =>
      cases l with
      | none => exact h
      | some l =>
        simp only [LayoutState.applySetting, applyLength, Option.elim_some, addVerticalSpace]
        split <;> exact h.congr rfl
    | _ => exact h.congr rfl
  | beginTable border width columns =>
    have hline := (sameStyle_finishLine job s (.newline false)).font
    exact h.congr hline
  | addTabStop id position => cases position <;> exact h.congr rfl
  | rowSpan rows => exact h
  | _ => exact h.congr rfl

theorem Registered.step (h : s.Registered job) (l : Lexeme) : (s.step job l).Registered job := by
  by_cases hl : ∃ i, l.token = .instruction i
  · obtain ⟨i, hi⟩ := hl
    simp only [LayoutState.step, hi]
    cases i with
    | toggle t => exact h.applyToggle t
    | switch w => exact h.applySwitch w
    | setting setting => exact h.applySetting l.index setting
  · exact h.congr (sameStyle_step job s fun i hi => hl ⟨i, hi⟩).font

theorem Registered.run (h : s.Registered job) (ls : List Lexeme) :
    (s.run job ls).Registered job := by
  induction ls generalizing s with
  | nil => exact h
  | cons l ls ih => exact ih (h.step l)

/-! ### Tokens with a mark and without -/

/-- The state in which a token has put its mark on the line, and the line is not tested
    yet. -/
def marked? (job : Job) (s : LayoutState) (l : Lexeme) : Option LayoutState :=
  match l.token with
  | .text c =>
    let room := ((s.beginLine job).noteBreak (CodePoint.isBreaking c)).textAdvance job c
    some ((beforeMark job s c).pushMark job c (.glyph room.2) room.1 l.index)
  | .placeholder =>
    some (s.pushMark job CodePoint.placeholder .placeholder s.placeholder.width l.index)
  | .instruction (.setting (.length .horizontalSpace (some space))) =>
    some (s.pushMark job 0 (.glyph false) (space.resolveWith s.font.face.em s.wrapWidth) l.index)
  | .instruction (.setting (.image i)) =>
    (job.printer.images.get? i.index.val).map fun image =>
      let mark := s.imageMark i image
      s.pushMark job CodePoint.placeholder (.image mark) mark.advance l.index
  | _ => none

/-- The marks on the line are as they were, and at most the rules have been closed. -/
structure Idle (s t : LayoutState) : Prop where
  marks : t.marks = s.marks := by rfl
  lines : t.lines = s.lines := by rfl
  penX : t.penX = s.penX := by rfl
  lineStarted : t.lineStarted = s.lineStarted := by rfl
  rules : t.underline = s.underline ∧ t.strike = s.strike ∨
    t.underline = s.underline.close s.marks.size ∧ t.strike = s.strike.close s.marks.size := by
      exact Or.inl ⟨rfl, rfl⟩

theorem idle_switchFont (job : Job) (s : LayoutState) : Idle s (s.switchFont job) := by
  have huse : ∀ id font, Idle s (s.useFont id font) := by
    intro id font
    simp only [useFont]
    split
    · exact {}
    · exact { rules := Or.inr ⟨rfl, rfl⟩ }
  simp only [LayoutState.switchFont]
  cases job.printer.fonts.get? (s.wantedFont job) with
  | none => exact {}
  | some font =>
    obtain ⟨hmarks, hlines, hpen, hstarted, hrules⟩ := huse (s.wantedFont job) font
    exact ⟨hmarks, hlines, hpen, hstarted, hrules⟩

theorem idle_switchFont_format (job : Job) (s : LayoutState) (format : Format) :
    Idle s ({ s with format := format }.switchFont job) := by
  obtain ⟨hmarks, hlines, hpen, hstarted, hrules⟩ :=
    idle_switchFont job { s with format := format }
  exact ⟨hmarks, hlines, hpen, hstarted, hrules⟩

theorem idle_applySwitch (job : Job) (hs : s.table = none) (w : Switch) :
    Idle s (s.applySwitch job w) := by
  cases w with
  | resetFormatting => exact idle_switchFont_format job s _
  | script kind => exact idle_switchFont_format job s _
  | endTable =>
    change Idle s (s.endTable job)
    rw [endTable_of_no_table job hs]
    exact {}
  | _ => exact {}

theorem idle_applySetting (job : Job) {index : Nat} {setting : Setting}
    (hmark : s.marked? job ⟨index, .instruction (.setting setting)⟩ = none)
    (ht : (s.applySetting job index setting).table = none) :
    Idle s (s.applySetting job index setting) := by
  cases setting with
  | font id => exact idle_switchFont_format job s _
  | image i =>
    simp only [marked?, Option.map_eq_none_iff] at hmark
    simp only [LayoutState.applySetting, placeImage, hmark, Option.elim_none]
    exact {}
  | length target l =>
    cases target with
    | horizontalSpace =>
      cases l with
      | none => exact {}
      | some l => cases hmark
    | verticalSpace =>
      cases l with
      | none => exact {}
      | some l =>
        simp only [LayoutState.applySetting, applyLength, Option.elim_some, addVerticalSpace]
        split <;> exact {}
    | _ => exact {}
  | beginTable border width columns => cases ht
  | addTabStop id position => cases position <;> exact {}
  | rowSpan rows => exact {}
  | _ => exact {}

/-- Outside tables a token that puts no mark on the line leaves it as it is. -/
theorem idle_step (hs : s.table = none) {l : Lexeme} (hmark : s.marked? job l = none)
    (hnewline : ∀ c, l.token ≠ .newline c) (ht : (s.step job l).table = none) :
    Idle s (s.step job l) := by
  obtain ⟨index, token⟩ := l
  cases token with
  | text c => cases hmark
  | newline c => exact absurd rfl (hnewline c)
  | placeholder => cases hmark
  | row =>
    change Idle s (s.endRow job)
    rw [endRow_of_no_table job hs]
    exact {}
  | cell =>
    change Idle s (s.nextCell job)
    rw [nextCell_of_no_table job hs]
    exact {}
  | nothing => exact {}
  | instruction i =>
    cases i with
    | toggle t =>
      cases t with
      | startSelection => exact {}
      | endSelection => exact {}
      | _ => exact idle_switchFont_format job s _
    | switch w => exact idle_applySwitch job hs w
    | setting setting => exact idle_applySetting job hmark ht

theorem table_pushMark (job : Job) (s : LayoutState) (code : Nat) (kind : MarkKind) (advance : Int)
    (index : Nat) : (s.pushMark job code kind advance index).table = s.table :=
  (pushMark_frame job s code kind advance index).2.2.2.2.1

/-- Outside tables a newline closes the line. -/
theorem step_newline (htable : s.table = none) (job : Job) (index c : Nat) :
    s.step job ⟨index, .newline c⟩ =
      (s.pushMark job c .lineEnd 0 index).commitAll job
        (.newline (CodePoint.startsParagraph c)) := by
  have hpushed := (table_pushMark job s c .lineEnd 0 index).trans htable
  simp only [LayoutState.step, newline, hpushed, Option.isSome_none, Bool.false_eq_true, if_false]

/-! ### Lines that have been committed -/

theorem lines_prefix_commit (job : Job) (s : LayoutState) (content : Nat) (reason : LineEnd) :
    s.lines.toList <+: (s.commit job content reason).lines.toList := by
  obtain ⟨-, hlines, -⟩ := commit_frame job s content reason
  rw [hlines, Array.toList_push]
  exact List.prefix_append _ _

theorem lines_prefix_finishLine (job : Job) (s : LayoutState) (reason : LineEnd) :
    s.lines.toList <+: (s.finishLine job reason).lines.toList := by
  simp only [finishLine]
  split
  · exact List.prefix_rfl
  · exact lines_prefix_commit job s _ reason

theorem Move.keeps_lines {σ : List Sign} (m : Move job s σ t) :
    s.lines.toList <+: t.lines.toList := by
  have hsame : ∀ {u : LayoutState}, u.lines = s.lines → s.lines.toList <+: u.lines.toList := by
    intro u hu
    exact hu ▸ List.prefix_rfl
  cases m with
  | quiet h => exact hsame h.lines
  | closeRules h => exact hsame h.lines
  | mark code kind advance index => exact hsame (pushMark_frame job s code kind advance index).1
  | wrap content _ _ => exact lines_prefix_commit job s content .wrap
  | commitAll reason _ => exact lines_prefix_commit job s _ reason
  | nextCell => exact hsame (nextCell_frame job s).2.1
  | beginTable table _ => exact lines_prefix_finishLine job s (.newline false)
  | _ => exact List.prefix_rfl

theorem Moves.keeps_lines {σ : List Sign} (h : Moves job s σ t) :
    s.lines.toList <+: t.lines.toList := by
  induction h with
  | refl => exact List.prefix_rfl
  | tail _ m ih => exact ih.trans m.keeps_lines

theorem lines_prefix_finish (job : Job) (s : LayoutState) (total : Nat) :
    s.lines.toList <+: s.finish job total := by
  simp only [finish]
  split
  · exact List.prefix_append _ _
  · have hlines := (pushMark_frame job s 0 .textEnd 0 total).1
    rw [← hlines]
    exact lines_prefix_commit job _ _ .text

/-- A line that is committed by a token is one of the lines of the layout. -/
theorem lines_prefix_layout (job : Job) (font : Font) {cs : List Nat} {seen rest : List Lexeme}
    (h : lexemes cs = seen ++ rest) :
    ((initial job font).run job seen).lines.toList <+: job.layoutWith font cs := by
  have hbreak := breakWithin_run job font seen
  have hrun : (initial job font).run job (lexemes cs) =
      ((initial job font).run job seen).run job rest := by
    rw [h]
    exact List.foldl_append ..
  have hmoves : Moves job ((initial job font).run job seen) _
      (((initial job font).run job seen).run job rest) := run_moves hbreak rest
  have hlines := hmoves.keeps_lines
  rw [← hrun] at hlines
  exact hlines.trans (lines_prefix_finish job _ cs.length)

/-- The lines so far have been set from marks. -/
def SetFromMarks (job : Job) (s : LayoutState) : Prop :=
  ∀ l ∈ s.lines.toList, ∃ (set : SetLine) (u : LayoutState), l = set.line u job.printer.images

theorem SetFromMarks.commit (h : s.SetFromMarks job) (content : Nat) (reason : LineEnd) :
    (s.commit job content reason).SetFromMarks job := by
  obtain ⟨-, hlines, -⟩ := commit_frame job s content reason
  intro l hl
  rw [hlines, Array.toList_push] at hl
  rcases List.mem_append.1 hl with hl | hl
  · exact h l hl
  · exact ⟨_, s, List.mem_singleton.1 hl⟩

theorem Move.setFromMarks {σ : List Sign} (m : Move job s σ t) (h : s.SetFromMarks job) :
    t.SetFromMarks job := by
  have hsame : ∀ {u : LayoutState}, u.lines = s.lines → u.SetFromMarks job := by
    intro u hu l hl
    exact h l (hu ▸ hl)
  cases m with
  | quiet hq => exact hsame hq.lines
  | closeRules hc => exact hsame hc.lines
  | mark code kind advance index => exact hsame (pushMark_frame job s code kind advance index).1
  | wrap content _ _ => exact h.commit content .wrap
  | commitAll reason _ => exact h.commit _ reason
  | nextCell => exact hsame (nextCell_frame job s).2.1
  | beginTable table _ =>
    change (s.finishLine job (.newline false)).SetFromMarks job
    simp only [finishLine]
    split
    · exact h
    · exact h.commit _ _
  | _ => exact h

/-- A line of a layout has been set from marks, or holds the end of the text alone. -/
theorem line_cases (job : Job) (font : Font) (cs : List Nat) {l : Line}
    (hl : l ∈ job.layoutWith font cs) :
    (∃ (set : SetLine) (u : LayoutState), l = set.line u job.printer.images) ∨
      ∃ g, l = ⟨[], [.glyph g], [], []⟩ := by
  have hrun : ((initial job font).run job (lexemes cs)).SetFromMarks job :=
    run_preserves (fun l hl => nomatch hl) Move.setFromMarks (lexemes cs)
  simp only [Job.layoutWith, finish] at hl
  split at hl
  · rcases List.mem_append.1 hl with hl | hl
    · exact Or.inl (hrun l hl)
    · exact Or.inr ⟨_, List.mem_singleton.1 hl⟩
  · have hmark : (((initial job font).run job (lexemes cs)).pushMark job 0 .textEnd 0
        cs.length).SetFromMarks job :=
      Move.setFromMarks (.mark _ 0 .textEnd 0 cs.length) hrun
    exact Or.inl (hmark.commit _ .text l hl)

/-! ### The test of a line -/

/-- The line goes past the wrap width, and lines are wrapped. -/
def Overflows (job : Job) (s : LayoutState) : Prop :=
  s.wordWrap ∧ 0 < s.wrapWidth ∧ s.table.isNone ∧ job.origin.x + s.wrapWidth < s.penX

instance (job : Job) (s : LayoutState) : Decidable (s.Overflows job) :=
  inferInstanceAs (Decidable (_ ∧ _))

theorem checkWrap_of_overflows (h : s.Overflows job) :
    s.checkWrap job = s.commit job s.breakAt .wrap := if_pos h

theorem checkWrap_of_not_overflows (h : ¬ s.Overflows job) : s.checkWrap job = s := if_neg h

/-- A token that has a mark puts it at the pen of a state that differs by the start of the
    line and the place for a break alone. -/
theorem marked_cases {l : Lexeme} (h : s.marked? job l = some u) :
    ∃ v code kind advance p, (v = s ∨ v = beforeMark job s code ∧ l.token = .text code) ∧
      kind.isEnd = false ∧ u = v.pushMark job code kind advance l.index ∧
      s.step job l = (u.checkWrap job).noteBreak p := by
  obtain ⟨index, token⟩ := l
  cases token with
  | text c =>
    cases h
    exact ⟨_, c, _, _, _, Or.inr ⟨rfl, rfl⟩, rfl, rfl, place_eq job s c index⟩
  | placeholder =>
    cases h
    exact ⟨s, _, _, _, false, Or.inl rfl, rfl, rfl, rfl⟩
  | newline c => cases h
  | row => cases h
  | cell => cases h
  | nothing => cases h
  | instruction i =>
    cases i with
    | toggle t => cases h
    | switch w => cases h
    | setting setting =>
      cases setting with
      | length target l =>
        cases target with
        | horizontalSpace =>
          cases l with
          | none => cases h
          | some l =>
            cases h
            exact ⟨s, _, _, _, false, Or.inl rfl, rfl, rfl, rfl⟩
        | _ => cases h
      | image i =>
        simp only [marked?, Option.map_eq_some_iff] at h
        obtain ⟨image, himage, rfl⟩ := h
        refine ⟨s, _, _, _, false, Or.inl rfl, rfl, rfl, ?_⟩
        simp only [LayoutState.step, apply, applySetting, placeImage, himage, Option.elim_some]
        rfl
      | _ => cases h

/-- The line is tested for the mark of a token; then a place for a break may be noted. -/
theorem step_of_marked {l : Lexeme} (h : s.marked? job l = some u) :
    ∃ p, s.step job l = (u.checkWrap job).noteBreak p := by
  obtain ⟨_, _, _, _, p, -, -, -, hstep⟩ := marked_cases h
  exact ⟨p, hstep⟩

theorem sameStyle_marked {l : Lexeme} (h : s.marked? job l = some u) : SameStyle s u := by
  obtain ⟨v, code, _, _, _, hv, -, rfl, -⟩ := marked_cases h
  rcases hv with rfl | ⟨rfl, -⟩
  · exact sameStyle_pushMark job _ code _ _ _
  · exact (sameStyle_beforeMark job s code).trans (sameStyle_pushMark job _ code _ _ _)

theorem marked_moves {l : Lexeme} (h : s.marked? job l = some u) : ∃ σ, Moves job s σ u := by
  obtain ⟨v, code, kind, advance, _, hv, -, rfl, -⟩ := marked_cases h
  have hmark : Moves job v [⟨code, kind.isEnd, l.index⟩]
      (v.pushMark job code kind advance l.index) := (Move.mark v code kind advance l.index).moves
  rcases hv with rfl | ⟨rfl, -⟩
  · exact ⟨_, hmark⟩
  · exact ⟨_, (beforeMark_moves job s code).trans hmark⟩

theorem breakWithin_marked {l : Lexeme} (hs : s.BreakWithin) (h : s.marked? job l = some u) :
    u.BreakWithin := by
  obtain ⟨σ, hmoves⟩ := marked_moves h
  exact hmoves.preserves Move.breakWithin hs

/-- The line that is committed where one is wrapped. -/
def wrappedLine (job : Job) (s : LayoutState) : SetLine :=
  s.setLine job s.breakAt (s.cut s.breakAt .wrap) .wrap

/-- The marks before the break, which are the content of that line. -/
def wrappedContent (s : LayoutState) : List Mark := s.marks.toList.take s.breakAt

/-- In the layout of the code points `cs` a line is wrapped when the state is `u`. -/
def WrapsAt (job : Job) (font : Font) (cs : List Nat) (u : LayoutState) : Prop :=
  ∃ seen l rest, lexemes cs = seen ++ l :: rest ∧
    ((initial job font).run job seen).marked? job l = some u ∧ u.Overflows job

theorem WrapsAt.breakWithin {font : Font} {cs : List Nat} (h : WrapsAt job font cs u) :
    u.BreakWithin := by
  obtain ⟨seen, l, rest, -, hmark, -⟩ := h
  exact breakWithin_marked (breakWithin_run job font seen) hmark

theorem WrapsAt.registered {font : Font} {cs : List Nat} (h : WrapsAt job font cs u)
    (hfont : job.printer.fonts.get? job.printer.defaultFont = some font) : u.Registered job := by
  obtain ⟨seen, l, rest, -, hmark, -⟩ := h
  have hinitial : (initial job font).Registered job := ⟨_, hfont⟩
  exact (hinitial.run seen).congr (sameStyle_marked hmark).font

/-- The line that is wrapped is one of the lines of the layout. -/
theorem WrapsAt.line_mem {font : Font} {cs : List Nat} (h : WrapsAt job font cs u) :
    (u.wrappedLine job).line u job.printer.images ∈ job.layoutWith font cs := by
  obtain ⟨seen, l, rest, hcs, hmark, hover⟩ := h
  obtain ⟨p, hstep⟩ := step_of_marked hmark
  have hsplit : lexemes cs = (seen ++ [l]) ++ rest := by
    rw [hcs, List.append_assoc, List.singleton_append]
  have hrun : (initial job font).run job (seen ++ [l]) =
      (u.commit job u.breakAt .wrap).noteBreak p := by
    rw [← checkWrap_of_overflows hover, ← hstep]
    simp only [run, List.foldl_append, List.foldl_cons, List.foldl_nil]
  have hlines : ((u.commit job u.breakAt .wrap).noteBreak p).lines =
      u.lines.push ((u.wrappedLine job).line u job.printer.images) := by
    obtain ⟨-, hcommit, -⟩ := commit_frame job u u.breakAt .wrap
    cases p <;> exact hcommit
  refine (lines_prefix_layout job font hsplit).subset ?_
  rw [hrun, hlines, Array.toList_push]
  exact List.mem_append_right _ List.mem_cons_self

end RichText.LayoutState
