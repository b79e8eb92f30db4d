/-
  RichText/Proofs/Layout/Plain.lean
  =================================
  **Layouts in which nothing but the font changes.**

  Fonts of the default style, without kerning and without advances to the left, are
  *plain*.  While a text toggles between plain fonts and holds no other instruction,
  every other setting stays as it was at the start (`LayoutState.Plain`).  Then a line
  begins at the origin, is neither aligned nor justified, and is committed with its
  marks where they were put.
-/
import RichText.Proofs.Layout.Events

namespace RichText

/-! ### Plain fonts and plain text -/

/-- The advance of a code point; a space without a glyph has one from the em size. -/
def Font.advanceOf (f : Font) (c : Nat) : Int :=
  if CodePoint.isSpace c && !f.face.hasGlyph c then
    CodePoint.spaceWidth c f.face.em f.face.digitWidth
  else f.face.advance c

theorem CodePoint.spaceWidth_nonneg (c : Nat) {em digit : Int} (hem : 0 ≤ em) (hdigit : 0 ≤ digit) :
    0 ≤ spaceWidth c em digit := by
  have htdiv : ∀ n : Int, 0 ≤ n → 0 ≤ em.tdiv n := fun n hn => Int.tdiv_nonneg hem hn
  unfold spaceWidth
  split
  · exact htdiv 2 (by decide)
  split
  · exact hem
  split
  · exact htdiv 3 (by decide)
  split
  · exact htdiv 6 (by decide)
  split
  · exact hdigit
  split
  · exact htdiv 5 (by decide)
  split
  · exact htdiv 10 (by decide)
  split
  · exact Int.tdiv_nonneg (Int.mul_nonneg hem (by decide)) (by decide)
  split
  · exact Int.le_refl 0
  · exact htdiv 4 (by decide)

/-- No code point has a negative advance where neither glyphs nor the em size do. -/
theorem Font.advanceOf_nonneg {f : Font} {c : Nat} (hem : 0 ≤ f.face.em)
    (hdigit : 0 ≤ f.face.digitWidth) (hadvance : 0 ≤ f.face.advance c) : 0 ≤ f.advanceOf c := by
  unfold Font.advanceOf
  split
  · exact CodePoint.spaceWidth_nonneg c hem hdigit
  · exact hadvance

structure Font.Plain (f : Font) : Prop where
  style : f.style = f.face.defaultStyle
  kerning : ∀ c d, f.face.kerning c d = 0
  advance : ∀ c, 0 ≤ f.advanceOf c

/-- Lines are wrapped, and all fonts are plain. -/
structure Job.Plain (job : Job) : Prop where
  width : 0 < job.width
  fonts : ∀ id font, job.printer.fonts.get? id = some font → font.Plain

def Token.Plain : Token → Prop
  | .instruction (.toggle t) => t ≠ .startSelection ∧ t ≠ .endSelection
  | .instruction _ => False
  | _ => True

namespace LayoutState

variable {job : Job} {s t u : LayoutState} {content cut : Nat} {reason : LineEnd}

/-! ### Settings -/

/-- The settings that bear on where marks stand are as they were. -/
structure SameSettings (s t : LayoutState) : Prop where
  format : t.format = s.format := by rfl
  font : t.font = s.font := by rfl
  wrapOverride : t.wrapOverride = s.wrapOverride := by rfl
  wrapWidth : t.wrapWidth = s.wrapWidth := by rfl
  wordWrap : t.wordWrap = s.wordWrap := by rfl
  placeholder : t.placeholder = s.placeholder := by rfl
  table : t.table = s.table := by rfl

theorem SameSettings.trans (h : SameSettings s t) (k : SameSettings t u) : SameSettings s u where
  format := k.format.trans h.format
  font := k.font.trans h.font
  wrapOverride := k.wrapOverride.trans h.wrapOverride
  wrapWidth := k.wrapWidth.trans h.wrapWidth
  wordWrap := k.wordWrap.trans h.wordWrap
  placeholder := k.placeholder.trans h.placeholder
  table := k.table.trans h.table

theorem sameSettings_beginLine (job : Job) (s : LayoutState) :
    SameSettings s (s.beginLine job) := by
  unfold beginLine
  split
  · exact {}
  · exact {}

theorem sameSettings_noteBreak (s : LayoutState) (p : Bool) : SameSettings s (s.noteBreak p) := by
  cases p with
  | true => exact {}
  | false => exact {}

theorem sameSettings_pushMark (job : Job) (s : LayoutState) (code : Nat) (kind : MarkKind)
    (advance : Int) (index : Nat) :
    SameSettings s (s.pushMark job code kind advance index) :=
  (sameSettings_beginLine job s).trans {}

theorem sameSettings_carryMarks (job : Job) (s : LayoutState) (cut : Nat) :
    SameSettings s (s.carryMarks job cut) := by
  unfold carryMarks
  cases s.marks.toList.drop cut with
  | nil => exact {}
  | cons first rest => exact (sameSettings_beginLine job s).trans {}

/-- Only at the end of a row a commit changes a setting, that is, the table. -/
theorem sameSettings_commit (job : Job) (s : LayoutState) (content : Nat) (hr : reason ≠ .row) :
    SameSettings s (s.commit job content reason) := by
  unfold commit
  simp only [if_neg hr]
  exact SameSettings.trans {} (sameSettings_carryMarks job _ _)

/-- All settings but the font are those of the start, and the font is plain. -/
structure Plain (job : Job) (s : LayoutState) : Prop where
  format : ∃ id, s.format = { Format.initial job.printer.defaultFont with font := id }
  font : s.font.Plain
  wrapOverride : s.wrapOverride = none
  wrapWidth : s.wrapWidth = job.width
  wordWrap : s.wordWrap = true
  placeholder : s.placeholder = .zero
  table : s.table = none

theorem Plain.congr (h : s.Plain job) (hs : SameSettings s t) : t.Plain job where
  format := hs.format ▸ h.format
  font := hs.font ▸ h.font
  wrapOverride := hs.wrapOverride.trans h.wrapOverride
  wrapWidth := hs.wrapWidth.trans h.wrapWidth
  wordWrap := hs.wordWrap.trans h.wordWrap
  placeholder := hs.placeholder.trans h.placeholder
  table := hs.table.trans h.table

/-- Settings and marks are as they were, and the pen has not been moved. It may have
    forgotten what stands before it. -/
structure Quiet (s t : LayoutState) : Prop where
  marks : t.marks = s.marks := by rfl
  lines : t.lines = s.lines := by rfl
  lastBreak : t.lastBreak = s.lastBreak := by rfl
  lineStarted : t.lineStarted = s.lineStarted := by rfl
  penX : t.penX = s.penX := by rfl
  lastAdvance : t.lastAdvance = s.lastAdvance := by rfl
  prev : t.prev = s.prev ∨ t.prev = none := by exact Or.inl rfl

theorem Quiet.trans (h : Quiet s t) (k : Quiet t u) : Quiet s u where
  marks := k.marks.trans h.marks
  lines := k.lines.trans h.lines
  lastBreak := k.lastBreak.trans h.lastBreak
  lineStarted := k.lineStarted.trans h.lineStarted
  penX := k.penX.trans h.penX
  lastAdvance := k.lastAdvance.trans h.lastAdvance
  prev := by
    rcases k.prev with hk | hk
    · rw [hk]
      exact h.prev
    · exact Or.inr hk

theorem quiet_useFont (s : LayoutState) (id : Nat) (font : Font) : Quiet s (s.useFont id font) := by
  unfold LayoutState.useFont
  by_cases hid : id = s.fontId
  · rw [if_pos hid]
    exact {}
  · rw [if_neg hid]
    refine { prev := ?_ }
    by_cases hbaseline : font.face.baseline = s.font.face.baseline
    · exact Or.inl (if_pos hbaseline)
    · exact Or.inr (if_neg hbaseline)

theorem quiet_switchFont (job : Job) (s : LayoutState) : Quiet s (s.switchFont job) := by
  simp only [LayoutState.switchFont]
  cases job.printer.fonts.get? (s.wantedFont job) with
  | none => exact {}
  | some font => exact (quiet_useFont s (s.wantedFont job) font).trans {}

private theorem Plain.useFont (h : s.Plain job) (id : Nat) {font : Font} (hfont : font.Plain) :
    (s.useFont id font).Plain job := by
  unfold LayoutState.useFont
  by_cases hid : id = s.fontId
  · rw [if_pos hid]
    exact h
  · rw [if_neg hid]
    exact ⟨h.format, hfont, h.wrapOverride, h.wrapWidth, h.wordWrap, h.placeholder, h.table⟩

private theorem Plain.updateWrapWidth (h : s.Plain job) (hjob : job.Plain) :
    (s.updateWrapWidth job).Plain job := by
  have hwidth := hjob.width
  have hwrap : (s.updateWrapWidth job).wrapWidth = job.width := by
    unfold LayoutState.updateWrapWidth
    rw [h.wrapOverride]
    change max job.width 0 = job.width
    omega
  exact ⟨h.format, h.font, h.wrapOverride, hwrap, h.wordWrap, h.placeholder, h.table⟩

private theorem Plain.switchFont (h : s.Plain job) (hjob : job.Plain) :
    (s.switchFont job).Plain job := by
  unfold LayoutState.switchFont
  cases hfont : job.printer.fonts.get? (s.wantedFont job) with
  | none =>
    simp only [hfont, Option.elim_none]
    exact h.updateWrapWidth hjob
  | some font =>
    simp only [hfont, Option.elim_some]
    exact (h.useFont (s.wantedFont job) (hjob.fonts _ font hfont)).updateWrapWidth hjob

theorem Plain.applyToggle (h : s.Plain job) (hjob : job.Plain) {t : Toggle}
    (ht : t ≠ .startSelection ∧ t ≠ .endSelection) :
    (s.applyToggle job t).Plain job ∧ Quiet s (s.applyToggle job t) := by
  have hswitch : ∀ id, ({ s with format.font := id }.switchFont job).Plain job ∧
      Quiet s ({ s with format.font := id }.switchFont job) := by
    intro id
    obtain ⟨old, hformat⟩ := h.format
    have hplain : { s with format.font := id }.Plain job := by
      refine ⟨⟨id, ?_⟩, h.font, h.wrapOverride, h.wrapWidth, h.wordWrap, h.placeholder, h.table⟩
      simp only [hformat]
    exact ⟨hplain.switchFont hjob, Quiet.trans {} (quiet_switchFont job _)⟩
  cases t with
  | startSelection => exact absurd rfl ht.1
  | endSelection => exact absurd rfl ht.2
  | _ => exact hswitch _

/-! ### Putting marks on the line -/

theorem Plain.leftEdge (h : s.Plain job) : s.leftEdge job = job.origin.x := by
  obtain ⟨_, hformat⟩ := h.format
  unfold LayoutState.leftEdge
  rw [h.table, hformat]
  simp [Format.initial]

/-- Where no offset is set, marks are reported at their own places on the line. -/
theorem letterOffset_of_unset (h : s.format.letterOffsetX = none) : s.letterOffset.x = 0 := by
  unfold letterOffset
  rw [h]
  rfl

theorem Plain.letterOffset (h : s.Plain job) : s.letterOffset.x = 0 := by
  obtain ⟨_, hformat⟩ := h.format
  apply letterOffset_of_unset
  rw [hformat]
  rfl

/-- A glyph is put at the pen, or a combining mark at the glyph before it. -/
theorem Plain.roomBefore (h : s.Plain job) (c : Nat) :
    s.roomBefore c = 0 ∨ (s.prev ≠ none ∧ s.roomBefore c = -s.lastAdvance) := by
  obtain ⟨_, hformat⟩ := h.format
  have hspacing : s.letterSpacing = 0 := by
    unfold LayoutState.letterSpacing
    rw [hformat, h.font.style]
    rfl
  unfold LayoutState.roomBefore
  by_cases htab : c = CodePoint.tab
  · exact Or.inl (if_pos htab)
  · rw [if_neg htab]
    cases hprev : s.prev with
    | none => exact Or.inl rfl
    | some p =>
      simp only [h.font.kerning, hspacing]
      by_cases hspaced : CodePoint.isSpaced c = true
      · left
        rw [if_pos hspaced]
        rfl
      · right
        rw [if_neg hspaced]
        exact ⟨Option.some_ne_none p, Int.zero_add _⟩

/-- A tab ends at the nearest tab stop to the right of the pen or, if all of them have been passed,
    at the next multiple of the tab width. -/
theorem tabAdvance_cases (job : Job) (s : LayoutState) :
    let pen := s.penX - job.origin.x
    let width := max (s.format.tabWidth.getD s.font.style.tabWidth) 1
    let position := fun stop : Nat × Length => stop.2.resolveWith s.font.face.em s.wrapWidth
    (∃ stop ∈ s.format.tabStops, pen < position stop ∧ pen + s.tabAdvance job = position stop ∧
      ∀ other ∈ s.format.tabStops, pen < position other → position stop ≤ position other) ∨
    (∀ stop ∈ s.format.tabStops, position stop ≤ pen) ∧
      pen + s.tabAdvance job = (pen / width + 1) * width := by
  simp only [tabAdvance]
  generalize s.penX - job.origin.x = pen
  generalize hstops : List.map _ s.format.tabStops = stops
  have hmem : ∀ stop ∈ s.format.tabStops,
      stop.2.resolveWith s.font.face.em s.wrapWidth ∈ stops := by
    intro stop hstop
    rw [← hstops]
    exact List.mem_map.2 ⟨stop, hstop, rfl⟩
  cases hmin : (stops.filter (pen < ·)).min? with
  | some x =>
    obtain ⟨hx, hnearest⟩ := List.min?_eq_some_iff.1 hmin
    obtain ⟨hx, hbehind⟩ := List.mem_filter.1 hx
    rw [← hstops] at hx
    obtain ⟨stop, hstop, hx⟩ := List.mem_map.1 hx
    have hx : stop.2.resolveWith s.font.face.em s.wrapWidth = x := hx
    refine Or.inl ⟨stop, hstop, hx ▸ of_decide_eq_true hbehind, ?_, ?_⟩
    · rw [Option.getD_some, hx]
      omega
    · intro other hother hlt
      rw [hx]
      exact hnearest _ (List.mem_filter.2 ⟨hmem other hother, decide_eq_true hlt⟩)
  | none =>
    right
    constructor
    · intro stop hstop
      have hpassed := List.filter_eq_nil_iff.1 (List.min?_eq_none_iff.1 hmin) _ (hmem stop hstop)
      exact Int.not_lt.1 fun hlt => hpassed (decide_eq_true hlt)
    · rw [Option.getD_none]
      omega

/-- A tab ends to the right of the pen. -/
theorem tabAdvance_pos (job : Job) (s : LayoutState) : 0 < s.tabAdvance job := by
  rcases tabAdvance_cases job s with ⟨stop, -, hbehind, hends, -⟩ | ⟨-, hends⟩
  · omega
  · have hwidth : 0 < max (s.format.tabWidth.getD s.font.style.tabWidth) 1 := by omega
    have hstop := Int.lt_ediv_add_one_mul_self (s.penX - job.origin.x) hwidth
    omega

/-- A glyph has the advance of its font, and a tab that of the way to a place on its right. -/
theorem textAdvance_of_ne_tab (job : Job) (s : LayoutState) {c : Nat} (htab : c ≠ CodePoint.tab) :
    (s.textAdvance job c).1 = s.font.advanceOf c := by
  simp only [textAdvance, if_neg htab, Font.advanceOf]
  split <;> rfl

theorem textAdvance_nonneg (job : Job) {c : Nat} (hadvance : 0 ≤ s.font.advanceOf c) :
    0 ≤ (s.textAdvance job c).1 := by
  by_cases htab : c = CodePoint.tab
  · unfold LayoutState.textAdvance
    rw [if_pos htab]
    exact Int.le_of_lt (tabAdvance_pos job s)
  · rw [textAdvance_of_ne_tab job s htab]
    exact hadvance

theorem Plain.textAdvance_nonneg (h : s.Plain job) (c : Nat) : 0 ≤ (s.textAdvance job c).1 :=
  LayoutState.textAdvance_nonneg job (h.font.advance c)

/-! ### Committing a line -/

/-- Where lines are aligned to the left they are not shifted. -/
theorem alignShift_of_left (h : s.format.align.getD s.font.style.align = .left) (job : Job)
    (content : List Mark) : s.alignShift job content = 0 := by
  unfold alignShift
  split
  · rfl
  · rw [h]
    rfl

theorem Plain.marks_setLine (h : s.Plain job) (content cut : Nat) (reason : LineEnd) :
    (s.setLine job content cut reason).marks = s.marks.toList.take cut := by
  obtain ⟨_, hformat⟩ := h.format
  have hjustify : s.format.justify.getD s.font.style.justify = false := by
    rw [hformat, h.font.style]
    rfl
  have halign : s.format.align.getD s.font.style.align = .left := by
    rw [hformat, h.font.style]
    rfl
  have hjustified : ∀ ms, s.justified job content reason ms = ms := by
    intro ms
    unfold justified justification?
    rw [hjustify, if_neg (fun h => Bool.false_ne_true h.2.1)]
  unfold setLine
  simp only [h.table, hjustified, alignShift_of_left halign, Mark.map_shift_zero]

end LayoutState

/-- The glyphs of a line that are neither left over nor the end of the line. -/
def Line.content (l : Line) : List Glyph := l.events.filter fun g => !g.wrapped && !g.lineEnd

theorem SetLine.content_line (l : SetLine) (s : LayoutState) (images : Registry Image) :
    (l.line s images).content =
      ((l.marks.take l.content).filter fun m => !m.kind.isEnd).map (l.glyph false) := by
  have hcontent : ∀ ms : List Mark,
      (ms.map (l.glyph false)).filter (fun g => !g.wrapped && !g.lineEnd) =
        (ms.filter fun m => !m.kind.isEnd).map (l.glyph false) := by
    intro ms
    rw [List.filter_map]
    rfl
  have hblanks : ∀ ms : List Mark,
      (ms.map (l.glyph true)).filter (fun g => !g.wrapped && !g.lineEnd) = [] := by
    intro ms
    rw [List.filter_map, List.map_eq_nil_iff, List.filter_eq_nil_iff]
    intro m _
    exact Bool.false_ne_true
  unfold Line.content
  rw [events_line, List.filter_append, hcontent, hblanks, List.append_nil]

namespace LayoutState

variable {job : Job} {s t : LayoutState} {content cut : Nat} {reason : LineEnd}

theorem Plain.content_commit (h : s.Plain job) (hc : content ≤ s.cut content reason) :
    let line := (s.setLine job content (s.cut content reason) reason).line s job.printer.images
    line.content.length ≤ content ∧
      ∀ g ∈ line.content, ∃ m ∈ s.marks.toList.take content, m.kind.isEnd = false ∧
        g.index = m.index ∧ g.location.x + g.advance = m.right + m.offset.x := by
  intro line
  have hmarks : (s.setLine job content (s.cut content reason) reason).marks.take content =
      s.marks.toList.take content := by
    rw [h.marks_setLine, List.take_take, Nat.min_eq_left hc]
  have hline : line.content = ((s.marks.toList.take content).filter fun m => !m.kind.isEnd).map
      ((s.setLine job content (s.cut content reason) reason).glyph false) := by
    rw [← hmarks]
    exact SetLine.content_line _ _ _
  rw [hline]
  constructor
  · rw [List.length_map]
    exact Nat.le_trans (List.length_filter_le _ _) (List.length_take_le _ _)
  · intro g hg
    obtain ⟨m, hm, rfl⟩ := List.mem_map.1 hg
    obtain ⟨hm, hkind⟩ := List.mem_filter.1 hm
    refine ⟨m, hm, by simpa using hkind, rfl, ?_⟩
    change m.x + m.offset.x + m.advance = m.x + m.advance + m.offset.x
    omega

/-! ### Going on to the next line -/

theorem commit_all (job : Job) (hall : s.marks.toList.drop (s.cut content reason) = []) :
    let t := s.commit job content reason
    t.marks = #[] ∧ t.lineStarted = false ∧ t.prev = none := by
  have hcarry : ∀ u : LayoutState, u.marks = s.marks → u.lineStarted = false →
      let t := u.carryMarks job (s.cut content reason)
      t.marks = #[] ∧ t.lineStarted = false ∧ t.prev = none := by
    intro u hm hs
    unfold carryMarks
    simp only [hm, hall]
    exact ⟨trivial, hs, trivial⟩
  unfold commit
  cases reason with
  | wrap | newline _ | row | text => exact hcarry _ rfl rfl

/-- All marks go with a line that is not wrapped. -/
theorem commitAll_empty (job : Job) (s : LayoutState) (hreason : reason ≠ .wrap) :
    let t := s.commitAll job reason
    t.marks = #[] ∧ t.lineStarted = false ∧ t.prev = none := by
  refine commit_all job ?_
  rw [cut_of_ne_wrap hreason, ← Array.length_toList, List.drop_length]

/-- What is left over goes to the left edge of the next line, and the pen after it. -/
theorem commit_rest {x : Int}
    (hleft : ∀ u, SameSettings s u → u.paragraph = (reason == .newline true) → u.leftEdge job = x)
    (hr : reason ≠ .row) {first : Mark} {rest : List Mark}
    (hrest : s.marks.toList.drop (s.cut content reason) = first :: rest) :
    let t := s.commit job content reason
    t.marks.toList = (first :: rest).map (Mark.shift (x - first.x)) ∧
      t.lineStarted = true ∧ (∀ last, t.marks.toList.getLast? = some last → t.penX = last.right) ∧
      t.prev = s.prev ∧ t.lastAdvance = s.lastAdvance := by
  have hcarry : ∀ u : LayoutState, SameSettings s u → u.marks = s.marks →
      u.paragraph = (reason == .newline true) → u.lineStarted = false →
      let t := u.carryMarks job (s.cut content reason)
      t.marks.toList = (first :: rest).map (Mark.shift (x - first.x)) ∧
        t.lineStarted = true ∧ (∀ last, t.marks.toList.getLast? = some last → t.penX = last.right) ∧
        t.prev = u.prev ∧ t.lastAdvance = u.lastAdvance := by
    intro u hu hm hp hs
    unfold carryMarks beginLine
    simp only [hm, hrest, hs, Bool.false_eq_true, if_false, hleft u hu hp]
    refine ⟨trivial, trivial, ?_, trivial, trivial⟩
    intro last hlast
    unfold Mark.lastRight
    rw [hlast]
    rfl
  unfold commit
  cases reason with
  | row => exact absurd rfl hr
  | wrap | newline _ | text => exact hcarry _ {} rfl rfl rfl

/-- Of a plain line what is left over goes to the origin. -/
theorem Plain.commit_rest (h : s.Plain job) (hr : reason ≠ .row) {first : Mark} {rest : List Mark}
    (hrest : s.marks.toList.drop (s.cut content reason) = first :: rest) :
    let t := s.commit job content reason
    t.marks.toList = (first :: rest).map (Mark.shift (job.origin.x - first.x)) ∧
      t.lineStarted = true ∧ (∀ last, t.marks.toList.getLast? = some last → t.penX = last.right) ∧
      t.prev = s.prev ∧ t.lastAdvance = s.lastAdvance :=
  LayoutState.commit_rest (fun _ hu _ => (h.congr hu).leftEdge) hr hrest

end LayoutState

end RichText
