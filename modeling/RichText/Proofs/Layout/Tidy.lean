/-
  RichText/Proofs/Layout/Tidy.lean
  ================================
  **Layouts whose lines hold what is drawn of them.**

  A text that changes fonts, decorations, alignment and justification, and starts and ends
  selections and regions, sets no indent, offset, padding or table.  Between two tokens the
  settings are then `Tidy`, the marks of the line being filled stand in order from the origin on,
  and the lines so far hold all that is reported of them (`Enclosing`).  Justification and
  alignment move marks to the right alone, and so a line that is committed is as good as its
  marks (`Enclosing.ahead_setLine`).
-/
import RichText.Proofs.Layout.Enclosed
import RichText.Proofs.Layout.Ink
import RichText.Proofs.Layout.Justifying
import RichText.Proofs.Layout.Stretches

namespace RichText

/-! ### Fonts and tokens -/

/-- A font that never moves the pen to the left. -/
structure Font.Forward (f : Font) : Prop where
  kerning : ∀ c d, f.face.kerning c d = 0
  advance : ∀ c, 0 ≤ f.face.advance c
  em : 0 ≤ f.face.em
  digitWidth : 0 ≤ f.face.digitWidth
  height : 0 < f.face.height
  letterSpacing : 0 ≤ f.style.letterSpacing

/-- No font of the printer moves the pen to the left. -/
def Job.Forward (job : Job) : Prop :=
  ∀ id font, job.printer.fonts.get? id = some font → font.Forward

/-- Whether a switch concerns decorations, justification or horizontal alignment. -/
def Switch.isModest : Switch → Bool
  | .decorate _ _ | .justify _ | .align _ | .defaultAlign => true
  | _ => false

/-- Whether a setting starts or ends a region. -/
def Setting.isModest : Setting → Bool
  | .startRegion _ | .endRegion _ => true
  | _ => false

/-- Whether a token is text, or an instruction for the font, decorations, justification,
    horizontal alignment, selections or regions. -/
def Token.isModest : Token → Bool
  | .placeholder => false
  | .instruction (.switch w) => w.isModest
  | .instruction (.setting setting) => setting.isModest
  | _ => true

/-- No indent, offset, spacing, tab stop, box or padding is set. -/
structure Format.Bare (f : Format) : Prop where
  indent : f.indent = 0
  hangingIndent : f.hangingIndent = 0
  letterOffset : f.letterOffsetX = none
  letterSpacing : f.letterSpacing = none
  tabStops : f.tabStops = []
  background : f.showBackground = false
  border : f.showBorder = false
  padding : f.selection.padding = .unset

theorem Format.bare_initial (font : Nat) : (Format.initial font).Bare :=
  ⟨rfl, rfl, rfl, rfl, rfl, rfl, rfl, rfl⟩

/-- Moving every mark by an amount of its own. -/
theorem Mark.exists_of_mem_zipWith_shift {ms : List Mark} {shifts : List Int} {m : Mark}
    (h : m ∈ ms.zipWith (fun m dx => m.shift dx) shifts) :
    ∃ k ∈ ms, ∃ dx ∈ shifts, m = k.shift dx := by
  induction ms generalizing shifts with
  | nil => cases h
  | cons k ms ih =>
    cases shifts with
    | nil => cases h
    | cons dx shifts =>
      rw [List.zipWith_cons_cons] at h
      rcases List.mem_cons.1 h with rfl | h
      · exact ⟨k, List.mem_cons_self, dx, List.mem_cons_self, rfl⟩
      · obtain ⟨k', hk', dx', hdx', rfl⟩ := ih h
        exact ⟨k', List.mem_cons_of_mem k hk', dx', List.mem_cons_of_mem dx hdx', rfl⟩

namespace LayoutState

variable {job : Job} {s t : LayoutState} {content cut : Nat} {reason : LineEnd} {x : Int}

/-! ### Settings -/

/-- Lines begin at the origin, and nothing but glyphs, rules, selections without a padding and
    regions is reported of them. -/
structure Tidy (job : Job) (s : LayoutState) : Prop where
  format : s.format.Bare
  registered : s.Registered job
  table : s.table = none
  selections : ∀ span ∈ s.selections, span.data.padding = Margin.all 0

theorem tidy_initial {font : Font}
    (hfont : job.printer.fonts.get? job.printer.defaultFont = some font) :
    (initial job font).Tidy job where
  format := Format.bare_initial job.printer.defaultFont
  registered := ⟨_, hfont⟩
  table := rfl
  selections := fun _ hspan => nomatch hspan

namespace Tidy

theorem congr (h : s.Tidy job) (hstyle : SameStyle s t) (htable : t.table = s.table)
    (hselections : t.selections = s.selections) : t.Tidy job where
  format := hstyle.format ▸ h.format
  registered := h.registered.congr hstyle.font
  table := htable.trans h.table
  selections := hselections ▸ h.selections

theorem forward (h : s.Tidy job) (hjob : job.Forward) : s.font.Forward := by
  obtain ⟨id, hid⟩ := h.registered
  exact hjob id s.font hid

theorem leftEdge_congr (h : s.Tidy job) (hst : SameSettings s t) :
    t.leftEdge job = job.origin.x := by
  simp [LayoutState.leftEdge, hst.table, hst.format, h.table, h.format.indent,
    h.format.hangingIndent]

theorem leftEdge (h : s.Tidy job) : s.leftEdge job = job.origin.x := h.leftEdge_congr {}

theorem letterOffset (h : s.Tidy job) : s.letterOffset.x = 0 :=
  letterOffset_of_unset h.format.letterOffset

/-- A glyph is put at the pen or farther to the right, or just back over the glyph before it. -/
theorem roomBefore (h : s.Tidy job) (hjob : job.Forward) (c : Nat) :
    0 ≤ s.roomBefore c ∨ (s.prev ≠ none ∧ s.roomBefore c = -s.lastAdvance) := by
  have hfont := h.forward hjob
  have hspacing : 0 ≤ s.letterSpacing := by
    unfold letterSpacing
    rw [h.format.letterSpacing]
    exact hfont.letterSpacing
  by_cases hspaced : CodePoint.isSpaced c = true
  · exact Or.inl (roomBefore_nonneg hspacing hfont.kerning hspaced)
  · unfold LayoutState.roomBefore
    by_cases htab : c = CodePoint.tab
    · exact Or.inl (Int.le_of_eq (if_pos htab).symm)
    · rw [if_neg htab]
      cases hprev : s.prev with
      | none => exact Or.inl (Int.le_refl 0)
      | some p =>
        right
        simp only [if_neg hspaced, hfont.kerning]
        exact ⟨Option.some_ne_none p, Int.zero_add _⟩

theorem textAdvance_nonneg (h : s.Tidy job) (hjob : job.Forward) (c : Nat) :
    0 ≤ (s.textAdvance job c).1 := by
  have hfont := h.forward hjob
  exact LayoutState.textAdvance_nonneg job
    (Font.advanceOf_nonneg hfont.em hfont.digitWidth (hfont.advance c))

theorem commit (h : s.Tidy job) (content : Nat) (reason : LineEnd) :
    (s.commit job content reason).Tidy job := by
  obtain ⟨-, -, -, -, -, hselections, -, htable⟩ := commit_frame job s content reason
  have hstyle := sameStyle_commit job s content reason
  refine ⟨hstyle.format ▸ h.format, h.registered.congr hstyle.font, ?_, ?_⟩
  · rw [htable, h.table]
    split <;> rfl
  · rw [hselections]
    intro span hspan
    obtain ⟨k, hk, hcarry⟩ := List.mem_filterMap.1 hspan
    rw [Span.data_of_carry hcarry]
    exact h.selections k hk

end Tidy

/-! ### Instructions -/

theorem padding_closeFirst {p : Span Selection → Bool} {pos : Nat} {spans : List (Span Selection)}
    (h : ∀ span ∈ spans, span.data.padding = Margin.all 0) :
    ∀ span ∈ closeFirst p pos spans, span.data.padding = Margin.all 0 := by
  induction spans with
  | nil => exact h
  | cons k spans ih =>
    have hrest : ∀ span ∈ spans, span.data.padding = Margin.all 0 :=
      fun span hspan => h span (List.mem_cons_of_mem k hspan)
    have hk := h k List.mem_cons_self
    intro span hspan
    simp only [closeFirst] at hspan
    split at hspan
    · rcases List.mem_cons.1 hspan with rfl | hspan
      · exact hk
      · exact hrest span hspan
    · rcases List.mem_cons.1 hspan with rfl | hspan
      · exact hk
      · exact ih hrest span hspan

/-- The settings remain tidy, and the marks, the pen and the left edge of the line as they
    were. -/
def StaysTidy (job : Job) (s t : LayoutState) : Prop :=
  t.Tidy job ∧ Quiet s t ∧ t.lineLeft = s.lineLeft

theorem Tidy.applyToggle (h : s.Tidy job) (toggle : Toggle) :
    StaysTidy job s (s.applyToggle job toggle) := by
  have hregistered := h.registered.applyToggle toggle
  have hfont : ∀ id, ({ s with format.font := id }.switchFont job).Registered job →
      StaysTidy job s ({ s with format.font := id }.switchFont job) := by
    intro id hid
    obtain ⟨hformat, -, htable, hselections, hleft⟩ :=
      switchFont_frame job { s with format.font := id }
    have hquiet := quiet_switchFont job { s with format.font := id }
    refine ⟨⟨?_, hid, htable.trans h.table, ?_⟩, Quiet.trans {} hquiet, hleft⟩
    · rw [hformat]
      exact { h.format with }
    · rw [hselections]
      exact h.selections
  cases toggle with
  | startSelection =>
    refine ⟨⟨h.format, hregistered, h.table, ?_⟩, {}, rfl⟩
    intro span hspan
    rcases List.mem_cons.1 hspan with rfl | hspan
    · change s.format.selection.padding.margin s.font.face.em = Margin.all 0
      rw [h.format.padding]
      rfl
    · exact h.selections span hspan
  | endSelection =>
    exact ⟨⟨h.format, hregistered, h.table, padding_closeFirst h.selections⟩, {}, rfl⟩
  | _ => exact hfont _ hregistered

theorem Tidy.applySwitch (h : s.Tidy job) {w : Switch} (hw : w.isModest = true) :
    StaysTidy job s (s.applySwitch job w) := by
  have hregistered := h.registered.applySwitch w
  cases w with
  | decorate line shown =>
    refine ⟨⟨?_, hregistered, h.table, h.selections⟩, {}, rfl⟩
    cases line with
    | underline => exact { h.format with }
    | strike => exact { h.format with }
  | justify on => exact ⟨⟨{ h.format with }, hregistered, h.table, h.selections⟩, {}, rfl⟩
  | align align => exact ⟨⟨{ h.format with }, hregistered, h.table, h.selections⟩, {}, rfl⟩
  | defaultAlign => exact ⟨⟨{ h.format with }, hregistered, h.table, h.selections⟩, {}, rfl⟩
  | _ => cases hw

theorem Tidy.applySetting (h : s.Tidy job) (index : Nat) {setting : Setting}
    (hsetting : setting.isModest = true) :
    StaysTidy job s (s.applySetting job index setting) := by
  have hregistered := h.registered.applySetting index setting
  cases setting with
  | startRegion id => exact ⟨⟨h.format, hregistered, h.table, h.selections⟩, {}, rfl⟩
  | endRegion id => exact ⟨⟨h.format, hregistered, h.table, h.selections⟩, {}, rfl⟩
  | _ => cases hsetting

/-! ### The line being filled -/

/-- The marks of the line are in order from the origin on, and the lines so far hold what is
    reported of them. -/
structure Enclosing (job : Job) (s : LayoutState) : Prop where
  tidy : s.Tidy job
  marks : Rightward job.origin.x s.marks.toList
  lineLeft : job.origin.x ≤ s.lineLeft
  lastBreak : s.BreakWithin
  lines : ∀ l ∈ s.lines.toList, l.Enclosed job.origin.x

theorem enclosing_initial {font : Font}
    (hfont : job.printer.fonts.get? job.printer.defaultFont = some font) :
    (initial job font).Enclosing job where
  tidy := tidy_initial hfont
  marks := rightward_nil
  lineLeft := Int.le_refl _
  lastBreak := breakWithin_initial job font
  lines := fun _ hl => nomatch hl

theorem le_lineLeft_beginLine (hx : x ≤ s.lineLeft) (hleft : x ≤ s.leftEdge job) :
    x ≤ (s.beginLine job).lineLeft := by
  unfold beginLine
  split
  · exact hx
  · exact hleft

theorem le_lineLeft_commit (hx : x ≤ s.lineLeft)
    (hleft : ∀ u, SameSettings s u → x ≤ u.leftEdge job) (hr : reason ≠ .row) :
    x ≤ (s.commit job content reason).lineLeft := by
  have hcarry : ∀ u : LayoutState, SameSettings s u → u.lineLeft = s.lineLeft →
      x ≤ (u.carryMarks job (s.cut content reason)).lineLeft := by
    intro u hu hsame
    unfold carryMarks
    cases u.marks.toList.drop (s.cut content reason) with
    | nil => exact hsame ▸ hx
    | cons first rest => exact le_lineLeft_beginLine (hsame ▸ hx) (hleft u hu)
  unfold commit
  cases reason with
  | row => exact absurd rfl hr
  | wrap | newline _ | text => exact hcarry _ {} rfl

namespace Enclosing

theorem quiet (h : s.Enclosing job) (hst : StaysTidy job s t) : t.Enclosing job := by
  obtain ⟨htidy, hquiet, hleft⟩ := hst
  refine ⟨htidy, ?_, ?_, ?_, ?_⟩
  · rw [hquiet.marks]
    exact h.marks
  · rw [hleft]
    exact h.lineLeft
  · exact breakWithin_congr hquiet.lastBreak (congrArg Array.size hquiet.marks) h.lastBreak
  · rw [hquiet.lines]
    exact h.lines

theorem noteBreak (h : s.Enclosing job) (p : Bool) : (s.noteBreak p).Enclosing job := by
  cases p with
  | false => exact h
  | true =>
    refine ⟨h.tidy.congr {} rfl rfl, h.marks, h.lineLeft, ?_, h.lines⟩
    have hmove : Move job s [] (s.noteBreak true) := Move.noteBreak s
    exact hmove.breakWithin h.lastBreak

theorem beginLine (h : s.Enclosing job) : (s.beginLine job).Enclosing job := by
  have hline := sameLine_beginLine job s
  refine ⟨?_, ?_, ?_, ?_, ?_⟩
  · exact h.tidy.congr (sameStyle_beginLine job s) hline.table hline.selections
  · rw [hline.marks]
    exact h.marks
  · exact le_lineLeft_beginLine h.lineLeft (Int.le_of_eq h.tidy.leftEdge.symm)
  · exact breakWithin_congr hline.lastBreak (congrArg Array.size hline.marks) h.lastBreak
  · rw [hline.lines]
    exact h.lines

theorem beforeMark (h : s.Enclosing job) (c : Nat) : (beforeMark job s c).Enclosing job := by
  have hnote := h.beginLine.noteBreak (CodePoint.isBreaking c)
  exact ⟨hnote.tidy.congr {} rfl rfl, hnote.marks, hnote.lineLeft, hnote.lastBreak, hnote.lines⟩

theorem pushMark (h : s.Enclosing job) (code : Nat) (kind : MarkKind) {advance : Int}
    (hadvance : 0 ≤ advance) (index : Nat)
    (hbehind : Behind job s.marks.toList (s.beginLine job).penX) :
    (s.pushMark job code kind advance index).Enclosing job := by
  obtain ⟨hlines, -, hselections, -, htable, -⟩ := pushMark_frame job s code kind advance index
  refine ⟨?_, ?_, h.beginLine.lineLeft, ?_, ?_⟩
  · exact h.tidy.congr (sameStyle_pushMark job s code kind advance index) htable hselections
  · rw [toList_pushMark]
    exact h.marks.append hbehind hadvance h.beginLine.tidy.letterOffset
  · exact (Move.mark s code kind advance index).breakWithin h.lastBreak
  · rw [hlines]
    exact h.lines

/-! ### Committing a line -/

/-- Justification moves marks to the right. -/
theorem ahead_justified (hfont : s.font.Forward) (job : Job) (content : Nat) (reason : LineEnd)
    {ms : List Mark} (hms : ∀ m ∈ ms, m.Ahead x) :
    ∀ m ∈ s.justified job content reason ms, m.Ahead x := by
  unfold justified
  cases hplan : s.justification? job (ms.take content) reason with
  | none => exact hms
  | some plan =>
    simp only [justification?, Option.ite_none_right_eq_some] at hplan
    have hheight := Int.le_of_lt hfont.height
    obtain ⟨-, hgives⟩ := Justification.givesOut_of_plan? (Int.natCast_nonneg _)
      (Int.natCast_nonneg _) hfont.digitWidth hheight hplan.2
    obtain ⟨hnonneg, -⟩ := Justification.pairwise_shiftsFrom hgives.space hgives.gap 0
      plan.extraSpaces (Mark.codes (ms.take content))
    intro m hm
    rcases List.mem_append.1 hm with hm | hm
    · obtain ⟨k, hk, dx, hdx, rfl⟩ := Mark.exists_of_mem_zipWith_shift hm
      exact (hms k (List.mem_of_mem_take hk)).shift_of_nonneg (hnonneg dx hdx)
    · exact hms m (List.mem_of_mem_drop hm)

theorem alignShift_nonneg (job : Job) (s : LayoutState) (ms : List Mark) :
    0 ≤ s.alignShift job ms := by
  unfold alignShift
  split
  · exact Int.le_refl 0
  · exact TextAlign.shift_nonneg _ _ _

/-- A line of marks from the origin on begins at the origin or farther to the right. -/
theorem ahead_setLine (h : s.Enclosing job) (hjob : job.Forward) (hc : content ≤ cut)
    (hcut : cut ≤ s.marks.size) (hpos : 0 < cut) (reason : LineEnd) :
    (s.setLine job content cut reason).Ahead job.origin.x := by
  have hlength := length_marks_setLine job s content hcut reason
  refine ⟨?_, ?_, rfl, ?_, ?_⟩
  · have hshift := alignShift_nonneg job s
      ((s.justified job content reason (s.marks.toList.take cut)).take content)
    have hleft := h.lineLeft
    change job.origin.x ≤ s.lineLeft + s.alignShift job _
    omega
  · have hplaced : ∀ m ∈ s.marks.toList.take cut, m.Ahead job.origin.x :=
      fun m hm => h.marks.ahead m (List.mem_of_mem_take hm)
    intro m hm
    simp only [setLine, h.tidy.table] at hm
    obtain ⟨k, hk, rfl⟩ := List.mem_map.1 hm
    have hmoved := ahead_justified (h.tidy.forward hjob) job content reason hplaced k hk
    exact hmoved.shift_of_nonneg (alignShift_nonneg job s _)
  · rw [hlength]
    exact hc
  · rw [← List.length_pos_iff, hlength]
    exact hpos

theorem commit (h : s.Enclosing job) (hjob : job.Forward) (hc : content ≤ s.marks.size)
    (hpos : 0 < s.cut content reason) (hr : reason ≠ .row) :
    (s.commit job content reason).Enclosing job := by
  obtain ⟨-, hlines, -⟩ := commit_frame job s content reason
  refine ⟨h.tidy.commit content reason, ?_, ?_, breakWithin_commit job s content reason, ?_⟩
  · cases hrest : s.marks.toList.drop (s.cut content reason) with
    | nil =>
      obtain ⟨hmarks, -⟩ := commit_all job hrest
      rw [hmarks]
      exact rightward_nil
    | cons first rest =>
      obtain ⟨hmarks, -⟩ := commit_rest (fun u hu _ => h.tidy.leftEdge_congr hu) hr hrest
      have hkept := h.marks.drop (s.cut content reason)
      rw [hrest] at hkept
      rw [hmarks]
      exact hkept.of_cons.shift job.origin.x
  · refine le_lineLeft_commit h.lineLeft ?_ hr
    intro u hu
    exact Int.le_of_eq (h.tidy.leftEdge_congr hu).symm
  · rw [hlines, Array.toList_push]
    intro l hl
    rcases List.mem_append.1 hl with hl | hl
    · exact h.lines l hl
    · rw [List.mem_singleton.1 hl]
      have hahead := h.ahead_setLine hjob (le_cut hc reason) (cut_le hc reason) hpos reason
      exact hahead.enclosed_line ⟨h.tidy.format.background, h.tidy.format.border, h.tidy.table⟩
        h.tidy.selections job.printer.images

/-! ### Steps -/

theorem checkWrap (h : s.Enclosing job) (hafter : s.PenAfter) (hjob : job.Forward)
    (hsize : 0 < s.marks.size) :
    (s.checkWrap job).Enclosing job ∧ (s.checkWrap job).PenAfter := by
  by_cases hover : s.Overflows job
  · rw [checkWrap_of_overflows hover]
    constructor
    · exact h.commit hjob (breakAt_le h.lastBreak) (cut_breakAt_pos h.lastBreak hsize) (by decide)
    · exact hafter.commit (fun u hu _ => h.tidy.leftEdge_congr hu) (by decide)
  · rw [checkWrap_of_not_overflows hover]
    exact ⟨h, hafter⟩

theorem place (h : s.Enclosing job) (hafter : s.PenAfter) (hjob : job.Forward) (c index : Nat) :
    (s.place job c index).Enclosing job ∧ (s.place job c index).PenAfter := by
  have hbegun := h.beginLine.noteBreak (CodePoint.isBreaking c)
  have hbehind := hafter.behind_beforeMark h.marks h.tidy.leftEdge (hbegun.tidy.roomBefore hjob c)
  have hmarked := (h.beforeMark c).pushMark c
    (.glyph (((s.beginLine job).noteBreak (CodePoint.isBreaking c)).textAdvance job c).2)
    (hbegun.tidy.textAdvance_nonneg hjob c) index hbehind
  have hsize : 0 < (LayoutState.beforeMark job s c).marks.size + 1 := Nat.succ_pos _
  rw [← size_pushMark] at hsize
  obtain ⟨hchecked, hpen⟩ := hmarked.checkWrap (penAfter_pushMark job _ _ _ _ _) hjob hsize
  rw [place_eq]
  exact ⟨hchecked.noteBreak _, hpen.noteBreak _⟩

/-- The end of a line or of the text is put on the line, which is then committed. -/
theorem close (h : s.Enclosing job) (hafter : s.PenAfter) (hjob : job.Forward) (code : Nat)
    (kind : MarkKind) (index : Nat) (hr : reason ≠ .wrap ∧ reason ≠ .row) :
    ((s.pushMark job code kind 0 index).commitAll job reason).Enclosing job ∧
      ((s.pushMark job code kind 0 index).commitAll job reason).PenAfter := by
  have hbehind := (hafter.behind h.marks h.tidy.leftEdge).1
  have hmarked := h.pushMark code kind (Int.le_refl 0) index hbehind
  have hpen := penAfter_pushMark job s code kind 0 index
  have hsize := size_pushMark job s code kind 0 index
  constructor
  · refine hmarked.commit hjob (Nat.le_refl _) ?_ hr.2
    rw [cut_of_ne_wrap hr.1, hsize]
    exact Nat.succ_pos _
  · exact hpen.commit (fun u hu _ => hmarked.tidy.leftEdge_congr hu) hr.2

theorem step (h : s.Enclosing job) (hafter : s.PenAfter) (hjob : job.Forward) {l : Lexeme}
    (hl : l.token.isModest = true) :
    (s.step job l).Enclosing job ∧ (s.step job l).PenAfter := by
  obtain ⟨index, token⟩ := l
  have hstays : ∀ {t : LayoutState}, StaysTidy job s t → t.Enclosing job ∧ t.PenAfter :=
    fun ht => ⟨h.quiet ht, hafter.quiet ht.2.1⟩
  cases token with
  | text c => exact h.place hafter hjob c index
  | newline c =>
    rw [step_newline h.tidy.table]
    exact h.close hafter hjob c .lineEnd index ⟨LineEnd.noConfusion, LineEnd.noConfusion⟩
  | placeholder => cases hl
  | row =>
    change (s.endRow job).Enclosing job ∧ (s.endRow job).PenAfter
    rw [endRow_of_no_table job h.tidy.table]
    exact ⟨h, hafter⟩
  | cell =>
    change (s.nextCell job).Enclosing job ∧ (s.nextCell job).PenAfter
    rw [nextCell_of_no_table job h.tidy.table]
    exact ⟨h, hafter⟩
  | nothing => exact ⟨h, hafter⟩
  | instruction i =>
    cases i with
    | toggle toggle => exact hstays (h.tidy.applyToggle toggle)
    | switch w => exact hstays (h.tidy.applySwitch hl)
    | setting setting => exact hstays (h.tidy.applySetting index hl)

theorem run (h : s.Enclosing job) (hafter : s.PenAfter) (hjob : job.Forward) {ls : List Lexeme}
    (hls : ∀ l ∈ ls, l.token.isModest = true) :
    (s.run job ls).Enclosing job ∧ (s.run job ls).PenAfter := by
  induction ls generalizing s with
  | nil => exact ⟨h, hafter⟩
  | cons l ls ih =>
    obtain ⟨hstep, hpen⟩ := h.step hafter hjob (hls l List.mem_cons_self)
    exact ih hstep hpen fun k hk => hls k (List.mem_cons_of_mem l hk)

theorem finish (h : s.Enclosing job) (hafter : s.PenAfter) (hjob : job.Forward) (total : Nat) :
    ∀ l ∈ s.finish job total, l.Enclosed job.origin.x := by
  unfold LayoutState.finish
  cases s.wrapped.filter fun _ => s.lineIsEmpty with
  | none =>
    have hclosed : ((s.pushMark job 0 .textEnd 0 total).commitAll job .text).Enclosing job ∧ _ :=
      h.close hafter hjob 0 .textEnd total ⟨LineEnd.noConfusion, LineEnd.noConfusion⟩
    exact hclosed.1.lines
  | some w =>
    intro l hl
    rcases List.mem_append.1 hl with hl | hl
    · exact h.lines l hl
    · -- The end of the text is all that is on this line, and counts as left over.
      rw [List.mem_singleton.1 hl]
      have hitem : ∀ i ∈ (Line.mk [] [.glyph (s.wrappedEnd w total)] [] []).items,
          i = .glyph (s.wrappedEnd w total) := fun i hi => List.mem_singleton.1 hi
      constructor
      · intro g hg hset
        obtain ⟨i, hi, hig⟩ := List.mem_filterMap.1 hg
        rw [hitem i hi] at hig
        cases hig
        cases hset
      · intro left right y thickness color hi
        cases hitem _ hi
      · intro bounds background border color hi
        cases hitem _ hi
      · intro r hr
        cases hr

end Enclosing

end LayoutState

/-- Every line of such a layout holds what is reported of it. -/
theorem Job.enclosed_layout {job : Job} {font : Font}
    (hfont : job.printer.fonts.get? job.printer.defaultFont = some font) (hjob : job.Forward)
    {cs : List Nat} (h : ∀ l ∈ lexemes cs, l.token.isModest = true) {l : Line}
    (hl : l ∈ job.layoutWith font cs) : l.Enclosed job.origin.x := by
  obtain ⟨hrun, hafter⟩ := (LayoutState.enclosing_initial hfont).run
    (LayoutState.penAfter_of_empty rfl rfl rfl) hjob h
  exact hrun.finish hafter hjob cs.length l hl

end RichText
