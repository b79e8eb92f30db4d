/-
  RichText/Proofs/Layout/Moves.lean
  =================================
  **What a step of a layout can do to the line being filled.**

  A step is a sequence of *moves*: a mark is put at the pen, a line is committed, a
  place for a break is noted, a span opens or closes, the table changes, or nothing
  happens that the line would notice.  `step_moves` says this of every token and
  `run_moves` of every list of tokens, so that a law of the line is proved once for
  each kind of move.

  Moves are labelled by the *signs* of the marks that they put on the line, which
  the tokens alone determine (`Lexeme.signs`).
-/
import RichText.Layout

namespace RichText

/-! ### Signs -/

/-- What a token determines of the mark that it puts on the line. -/
structure Sign where
  code : Nat
  /-- Whether it ends the line. -/
  lineEnd : Bool
  index : Nat
deriving DecidableEq, Repr

def MarkKind.isEnd (k : MarkKind) : Bool := k == .lineEnd || k == .textEnd

def Mark.sign (m : Mark) : Sign := ⟨m.code, m.kind.isEnd, m.index⟩

/-- The signs of the marks that a token puts on the line: at most one. -/
def Lexeme.signs (images : Registry Image) (l : Lexeme) : List Sign :=
  match l.token with
  | .text c => [⟨c, false, l.index⟩]
  | .newline c => [⟨c, true, l.index⟩]
  | .placeholder => [⟨CodePoint.placeholder, false, l.index⟩]
  | .instruction (.setting (.length .horizontalSpace (some _))) => [⟨0, false, l.index⟩]
  | .instruction (.setting (.image i)) =>
    if images.contains i.index.val then [⟨CodePoint.placeholder, false, l.index⟩] else []
  | _ => []

namespace LayoutState

variable {job : Job} {s t u : LayoutState} {content : Nat}

/-! ### Parts of a step -/

/-- All that concerns the marks on the line is as it was. -/
structure SameLine (s t : LayoutState) : Prop where
  marks : t.marks = s.marks := by rfl
  lines : t.lines = s.lines := by rfl
  lastBreak : t.lastBreak = s.lastBreak := by rfl
  underline : t.underline = s.underline := by rfl
  strike : t.strike = s.strike := by rfl
  selections : t.selections = s.selections := by rfl
  regions : t.regions = s.regions := by rfl
  table : t.table = s.table := by rfl

theorem SameLine.refl (s : LayoutState) : SameLine s s := {}

theorem sameLine_beginLine (job : Job) (s : LayoutState) : SameLine s (s.beginLine job) := by
  unfold beginLine
  split
  · exact .refl s
  · exact {}

theorem sameLine_updateWrapWidth (job : Job) (s : LayoutState) :
    SameLine s (s.updateWrapWidth job) := {}

/-- The mark that is put at the pen. -/
def newMark (job : Job) (s : LayoutState) (code : Nat) (kind : MarkKind) (advance : Int)
    (index : Nat) : Mark :=
  let s := s.beginLine job
  let box := s.markBox kind
  ⟨s.fontId, code, kind, s.penX, s.letterOffset, advance, box.1, box.2,
    s.selectedColor.getD s.textColor, index⟩

theorem marks_pushMark (job : Job) (s : LayoutState) (code : Nat) (kind : MarkKind) (advance : Int)
    (index : Nat) :
    (s.pushMark job code kind advance index).marks
      = s.marks.push (newMark job s code kind advance index) := by
  rw [← (sameLine_beginLine job s).marks]
  rfl

theorem size_pushMark (job : Job) (s : LayoutState) (code : Nat) (kind : MarkKind) (advance : Int)
    (index : Nat) : (s.pushMark job code kind advance index).marks.size = s.marks.size + 1 := by
  rw [marks_pushMark, Array.size_push]

/-- Putting a mark on the line changes nothing else of it but the rules. -/
theorem pushMark_frame (job : Job) (s : LayoutState) (code : Nat) (kind : MarkKind) (advance : Int)
    (index : Nat) :
    let t := s.pushMark job code kind advance index
    t.lines = s.lines ∧ t.lastBreak = s.lastBreak ∧ t.selections = s.selections ∧
      t.regions = s.regions ∧ t.table = s.table ∧
      (∃ rule, t.underline = s.underline.update s.marks.size rule) ∧
      ∃ rule, t.strike = s.strike.update s.marks.size rule := by
  have h := sameLine_beginLine job s
  rw [← h.lines, ← h.lastBreak, ← h.selections, ← h.regions, ← h.table, ← h.underline, ← h.strike,
    ← h.marks]
  exact ⟨rfl, rfl, rfl, rfl, rfl, ⟨_, rfl⟩, ⟨_, rfl⟩⟩

/-! ### Committing -/

theorem cut_le (hc : content ≤ s.marks.size) (reason : LineEnd) :
    s.cut content reason ≤ s.marks.size := by
  have hlen : ((s.marks.toList.drop content).takeWhile Mark.isBlank).length
      ≤ s.marks.size - content := by
    have h : ((s.marks.toList.drop content).takeWhile Mark.isBlank).length
        ≤ (s.marks.toList.drop content).length := (List.takeWhile_prefix Mark.isBlank).length_le
    rwa [List.length_drop, Array.length_toList] at h
  cases reason with
  | wrap =>
    simp only [cut]
    omega
  | newline _ | row | text => exact Nat.le_refl s.marks.size

theorem le_cut (hc : content ≤ s.marks.size) (reason : LineEnd) :
    content ≤ s.cut content reason := by
  cases reason with
  | wrap => exact Nat.le_add_right content _
  | newline _ | row | text => exact hc

/-- A line that is not wrapped takes all marks. -/
theorem cut_of_ne_wrap {reason : LineEnd} (hr : reason ≠ .wrap) :
    s.cut content reason = s.marks.size := by
  cases reason with
  | wrap => exact absurd rfl hr
  | newline _ | row | text => rfl

/-- What is left over moves to the start of the next line; nothing else of the line
    changes. -/
theorem carryMarks_frame (job : Job) (s : LayoutState) (cut : Nat) :
    let t := s.carryMarks job cut
    (∃ dx, t.marks.toList = (s.marks.toList.drop cut).map (Mark.shift dx)) ∧ t.lines = s.lines ∧
      t.lastBreak = s.lastBreak ∧ t.underline = s.underline ∧ t.strike = s.strike ∧
      t.selections = s.selections ∧ t.regions = s.regions ∧ t.table = s.table := by
  unfold carryMarks
  cases hrest : s.marks.toList.drop cut with
  | nil => exact ⟨⟨0, rfl⟩, rfl, rfl, rfl, rfl, rfl, rfl, rfl⟩
  | cons first rest =>
    have h := sameLine_beginLine job s
    exact ⟨⟨_, rfl⟩, h.lines, h.lastBreak, h.underline, h.strike, h.selections, h.regions, h.table⟩

/-- The line is reported, and the marks and spans past the cut are carried over it. -/
theorem commit_frame (job : Job) (s : LayoutState) (content : Nat) (reason : LineEnd) :
    let t := s.commit job content reason
    let cut := s.cut content reason
    (∃ dx, t.marks.toList = (s.marks.toList.drop cut).map (Mark.shift dx)) ∧
      t.lines = s.lines.push ((s.setLine job content cut reason).line s job.printer.images) ∧
      t.lastBreak = none ∧ t.underline = s.underline.carry cut ∧ t.strike = s.strike.carry cut ∧
      t.selections = s.selections.filterMap (Span.carry cut) ∧
      t.regions = s.regions.filterMap (Span.carry cut) ∧
      t.table = if reason = .row then s.table.map Table.startRow else s.table := by
  unfold commit
  cases reason with
  | wrap | newline _ | row | text => exact carryMarks_frame job _ _

theorem size_commit (job : Job) (s : LayoutState) (content : Nat) (reason : LineEnd) :
    (s.commit job content reason).marks.size = s.marks.size - s.cut content reason := by
  obtain ⟨⟨dx, h⟩, -⟩ := commit_frame job s content reason
  rw [← Array.length_toList, h, List.length_map, List.length_drop, Array.length_toList]

/-! ### Moves -/

/-- One thing that can happen to the line being filled, with the signs of the marks
    that it puts there. -/
inductive Move (job : Job) : LayoutState → List Sign → LayoutState → Prop
  | quiet {s t : LayoutState} (h : SameLine s t) : Move job s [] t
  | mark (s : LayoutState) (code : Nat) (kind : MarkKind) (advance : Int) (index : Nat) :
      Move job s [⟨code, kind.isEnd, index⟩] (s.pushMark job code kind advance index)
  /-- Only outside tables is a line wrapped, and only there does a part of it stay. -/
  | wrap (s : LayoutState) (content : Nat) (hc : content ≤ s.marks.size) (ht : s.table = none) :
      Move job s [] (s.commit job content .wrap)
  /-- Elsewhere all of the line goes; in a table the next row starts. -/
  | commitAll (s : LayoutState) (reason : LineEnd) (h : s.table = none ∨ reason = .row) :
      Move job s [] (s.commitAll job reason)
  | noteBreak (s : LayoutState) : Move job s [] { s with lastBreak := some s.marks.size }
  | closeRules {s t : LayoutState} (h : SameLine { s with
      underline := s.underline.close s.marks.size, strike := s.strike.close s.marks.size } t) :
      Move job s [] t
  | openSelection (s : LayoutState) (data : Selection) :
      Move job s [] { s with selections := Span.opening s.marks.size data :: s.selections }
  | closeSelection (s : LayoutState) (p : Span Selection → Bool) :
      Move job s [] { s with selections := closeFirst p s.marks.size s.selections }
  | openRegion (s : LayoutState) (id : Nat) :
      Move job s [] { s with regions := Span.opening s.marks.size id :: s.regions }
  | closeRegion (s : LayoutState) (p : Span Nat → Bool) :
      Move job s [] { s with regions := closeFirst p s.marks.size s.regions }
  | nextCell (s : LayoutState) : Move job s [] (s.nextCell job)
  | span (s : LayoutState) (columns : Nat) (align : TextAlign) :
      Move job s [] { s with table := s.table.map (·.span columns align) }
  /-- What was on the line is committed while the table before is still there. -/
  | beginTable (s : LayoutState) (t : Table) (h : t.startRow = t) :
      Move job s [] (s.beginTable job t)
  | leaveTable (s : LayoutState) : Move job s [] { s with table := none, lineStarted := false }

inductive Moves (job : Job) : LayoutState → List Sign → LayoutState → Prop
  | refl (s : LayoutState) : Moves job s [] s
  | tail {s t u : LayoutState} {σ τ : List Sign} (h : Moves job s σ t) (m : Move job t τ u) :
      Moves job s (σ ++ τ) u

theorem Move.moves {σ : List Sign} (m : Move job s σ t) : Moves job s σ t := .tail (.refl s) m

theorem Moves.trans {σ τ : List Sign} (h : Moves job s σ t) (k : Moves job t τ u) :
    Moves job s (σ ++ τ) u := by
  induction k with
  | refl => rwa [List.append_nil]
  | tail _ m ih =>
    rw [← List.append_assoc]
    exact .tail ih m

theorem Moves.nil_trans {σ : List Sign} (h : Moves job s [] t) (k : Moves job t σ u) :
    Moves job s σ u := h.trans k

theorem Moves.trans_nil {σ : List Sign} (h : Moves job s σ t) (k : Moves job t [] u) :
    Moves job s σ u := by
  have hk := h.trans k
  rwa [List.append_nil] at hk

theorem Moves.quiet (h : SameLine s t) : Moves job s [] t := (Move.quiet h).moves

theorem Moves.preserves {P : LayoutState → Prop}
    (hP : ∀ {s t : LayoutState} {σ : List Sign}, Move job s σ t → P s → P t) {σ : List Sign}
    (h : Moves job s σ t) (hs : P s) : P t := by
  induction h with
  | refl => exact hs
  | tail _ m ih => exact hP m ih

/-! ### The place for a break -/

/-- The last place for a break is on the line. -/
def BreakWithin (s : LayoutState) : Prop := ∀ pos, s.lastBreak = some pos → pos ≤ s.marks.size

theorem breakWithin_of_none (h : s.lastBreak = none) : s.BreakWithin := by
  intro pos hpos
  rw [h] at hpos
  cases hpos

theorem breakWithin_congr (hb : t.lastBreak = s.lastBreak) (hm : t.marks.size = s.marks.size)
    (h : s.BreakWithin) : t.BreakWithin := by
  intro pos hpos
  rw [hm]
  exact h pos (hb ▸ hpos)

theorem breakWithin_commit (job : Job) (s : LayoutState) (content : Nat) (reason : LineEnd) :
    (s.commit job content reason).BreakWithin := by
  obtain ⟨-, -, hb, -⟩ := commit_frame job s content reason
  exact breakWithin_of_none hb

theorem breakWithin_finishLine (h : s.BreakWithin) (reason : LineEnd) :
    (s.finishLine job reason).BreakWithin := by
  unfold finishLine
  split
  · exact h
  · exact breakWithin_commit job s s.marks.size reason

theorem nextCell_frame (job : Job) (s : LayoutState) :
    let u := s.nextCell job
    u.marks = s.marks ∧ u.lines = s.lines ∧
      u.lastBreak = (if s.table.isSome then none else s.lastBreak) ∧
      u.underline = s.underline ∧ u.strike = s.strike ∧ u.selections = s.selections ∧
      u.regions = s.regions ∧ u.table = s.table.map (·.nextCell s.marks.size) := by
  unfold nextCell
  cases ht : s.table with
  | none => exact ⟨rfl, rfl, rfl, rfl, rfl, rfl, rfl, ht⟩
  | some t =>
    have h := sameLine_beginLine job { s with table := some (t.nextCell s.marks.size) }
    exact ⟨h.marks, h.lines, rfl, h.underline, h.strike, h.selections, h.regions, h.table⟩

theorem Move.breakWithin {σ : List Sign} (m : Move job s σ t) (h : s.BreakWithin) :
    t.BreakWithin := by
  cases m with
  | quiet hs => exact breakWithin_congr hs.lastBreak (congrArg Array.size hs.marks) h
  | closeRules hs => exact breakWithin_congr hs.lastBreak (congrArg Array.size hs.marks) h
  | mark code kind advance index =>
    obtain ⟨-, hb, -⟩ := pushMark_frame job s code kind advance index
    intro pos hpos
    rw [size_pushMark]
    have := h pos (hb ▸ hpos)
    omega
  | wrap content hc ht => exact breakWithin_commit job s content .wrap
  | commitAll reason hr => exact breakWithin_commit job s s.marks.size reason
  | noteBreak =>
    intro pos hpos
    cases hpos
    exact Nat.le_refl s.marks.size
  | openSelection data => exact h
  | closeSelection p => exact h
  | openRegion id => exact h
  | closeRegion p => exact h
  | nextCell =>
    obtain ⟨hm, -, hb, -⟩ := nextCell_frame job s
    intro pos hpos
    rw [hm]
    rw [hb] at hpos
    split at hpos
    · cases hpos
    · exact h pos hpos
  | span columns align => exact h
  | beginTable t ht => exact breakWithin_finishLine h (.newline false)
  | leaveTable => exact h

/-! ### Moves of the parts of a step -/

theorem trimSpaces_le (marks : Array Mark) (n : Nat) : trimSpaces marks n ≤ n := by
  induction n with
  | zero => exact Nat.le_refl 0
  | succ n ih =>
    unfold trimSpaces
    split
    · exact Nat.le_succ_of_le ih
    · exact Nat.le_refl (n + 1)

theorem breakAt_le (h : s.BreakWithin) : s.breakAt ≤ s.marks.size := by
  have he : breakAt.emergency s ≤ s.marks.size := by
    unfold breakAt.emergency
    split <;> omega
  refine Nat.le_trans (trimSpaces_le s.marks _) ?_
  cases hb : s.lastBreak with
  | none => exact he
  | some pos =>
    by_cases hpos : 0 < pos
    · simp only [if_pos hpos]
      exact h pos hb
    · simp only [if_neg hpos]
      exact he

theorem checkWrap_moves (h : s.BreakWithin) : Moves job s [] (s.checkWrap job) := by
  unfold checkWrap
  by_cases hc : s.wordWrap ∧ 0 < s.wrapWidth ∧ s.table.isNone ∧ job.origin.x + s.wrapWidth < s.penX
  · rw [if_pos hc]
    have ht : s.table = none := by simpa using hc.2.2.1
    exact (Move.wrap s s.breakAt (breakAt_le h) ht).moves
  · rw [if_neg hc]
    exact .refl s

theorem addMark_moves (h : s.BreakWithin) (code : Nat) (kind : MarkKind) (advance : Int)
    (index : Nat) :
    Moves job s [⟨code, kind.isEnd, index⟩] (s.addMark job code kind advance index) := by
  have hmark : Move job s [⟨code, kind.isEnd, index⟩] (s.pushMark job code kind advance index) :=
    .mark s code kind advance index
  exact hmark.moves.trans_nil (checkWrap_moves (hmark.breakWithin h))

theorem finishLine_moves (job : Job) (s : LayoutState) (reason : LineEnd)
    (h : s.table = none ∨ reason = .row) : Moves job s [] (s.finishLine job reason) := by
  unfold finishLine
  split
  · exact .refl s
  · exact (Move.commitAll s reason h).moves

def noteBreak (s : LayoutState) (p : Bool) : LayoutState :=
  if p then { s with lastBreak := some s.marks.size } else s

/-- The state in which the mark of a glyph is put at the pen. -/
def beforeMark (job : Job) (s : LayoutState) (c : Nat) : LayoutState :=
  let s := (s.beginLine job).noteBreak (CodePoint.isBreaking c)
  { s with penX := s.penX + s.roomBefore c }

/-- A place for a break may be noted before a glyph and after it. -/
theorem place_eq (job : Job) (s : LayoutState) (c index : Nat) :
    let room := ((s.beginLine job).noteBreak (CodePoint.isBreaking c)).textAdvance job c
    let t := (beforeMark job s c).addMark job c (.glyph room.2) room.1 index
    s.place job c index = t.noteBreak (t.breaking.contains c) := rfl

theorem noteBreak_moves (s : LayoutState) (p : Bool) : Moves job s [] (s.noteBreak p) := by
  cases p with
  | true => exact (Move.noteBreak s).moves
  | false => exact .refl s

theorem beforeMark_moves (job : Job) (s : LayoutState) (c : Nat) :
    Moves job s [] (beforeMark job s c) := by
  have hbegin : Moves job s [] (s.beginLine job) := .quiet (sameLine_beginLine job s)
  have hnote := hbegin.nil_trans (noteBreak_moves (s.beginLine job) (CodePoint.isBreaking c))
  exact hnote.nil_trans (.quiet {})

theorem noteBreak_frame (s : LayoutState) (p : Bool) :
    let t := s.noteBreak p
    t.marks = s.marks ∧ t.lines = s.lines ∧ t.selections = s.selections ∧
      t.regions = s.regions ∧ t.table = s.table := by
  cases p <;> exact ⟨rfl, rfl, rfl, rfl, rfl⟩

/-- Before a mark is put on the line only the pen has moved and a place for a break may have
    been noted. -/
theorem beforeMark_frame (job : Job) (s : LayoutState) (c : Nat) :
    let t := beforeMark job s c
    t.marks = s.marks ∧ t.lines = s.lines ∧ t.selections = s.selections ∧
      t.regions = s.regions ∧ t.table = s.table := by
  have h := sameLine_beginLine job s
  rw [← h.marks, ← h.lines, ← h.selections, ← h.regions, ← h.table]
  exact noteBreak_frame (s.beginLine job) (CodePoint.isBreaking c)

theorem place_moves (h : s.BreakWithin) (c index : Nat) :
    Moves job s [⟨c, false, index⟩] (s.place job c index) := by
  have hbefore := beforeMark_moves job s c
  have hbreak := hbefore.preserves Move.breakWithin h
  rw [place_eq]
  refine Moves.trans_nil (hbefore.nil_trans ?_) (noteBreak_moves _ _)
  exact addMark_moves hbreak c (.glyph _) _ index

theorem newline_moves (c index : Nat) :
    Moves job s [⟨c, true, index⟩] (s.newline job c index) := by
  have hmark : Moves job s [⟨c, true, index⟩] (s.pushMark job c .lineEnd 0 index) :=
    (Move.mark s c .lineEnd 0 index).moves
  have ht : (s.pushMark job c .lineEnd 0 index).table = s.table :=
    (pushMark_frame job s c .lineEnd 0 index).2.2.2.2.1
  unfold newline
  refine hmark.trans_nil (Move.commitAll _ _ ?_).moves
  rw [ht]
  cases s.table with
  | none => exact Or.inl rfl
  | some t => exact Or.inr rfl

/-! Outside tables nothing separates cells or rows, and there is nothing to end. -/

theorem endRow_of_no_table (job : Job) (hs : s.table = none) : s.endRow job = s := by
  simp [endRow, hs]

theorem nextCell_of_no_table (job : Job) (hs : s.table = none) : s.nextCell job = s := by
  simp [nextCell, hs]

theorem endTable_of_no_table (job : Job) (hs : s.table = none) : s.endTable job = s := by
  simp [endTable, hs]

theorem endRow_moves : Moves job s [] (s.endRow job) := by
  unfold endRow
  split
  · have hbegin : Moves job s [] (s.beginLine job) := .quiet (sameLine_beginLine job s)
    exact hbegin.nil_trans (Move.commitAll _ .row (Or.inr rfl)).moves
  · exact .refl s

theorem endTable_moves : Moves job s [] (s.endTable job) := by
  unfold endTable
  split
  · exact (finishLine_moves job s .row (Or.inr rfl)).nil_trans (Move.leaveTable _).moves
  · exact .refl s

/-! ### Moves of an instruction -/

theorem switchFont_moves : Moves job s [] (s.switchFont job) := by
  have huse : ∀ id font, Moves job s [] (s.useFont id font) := by
    intro id font
    unfold useFont
    split
    · exact .refl s
    · exact (Move.closeRules {}).moves
  have hfont : Moves job s []
      ((job.printer.fonts.get? (s.wantedFont job)).elim s (s.useFont (s.wantedFont job))) := by
    cases job.printer.fonts.get? (s.wantedFont job) with
    | none => exact .refl s
    | some font => exact huse (s.wantedFont job) font
  exact hfont.nil_trans (.quiet (sameLine_updateWrapWidth job _))

/-- Formatting is changed without the line noticing; then the font that it asks for is
    taken into use. -/
theorem switchFont_format_moves (format : Format) :
    Moves job s [] ({ s with format := format }.switchFont job) :=
  Moves.nil_trans (.quiet {}) switchFont_moves

theorem applyLength_moves (h : s.BreakWithin) (index : Nat) (target : LengthTarget)
    (l : Option Length) :
    Moves job s
      (Lexeme.signs job.printer.images ⟨index, .instruction (.setting (.length target l))⟩)
      (s.applyLength job index target l) := by
  cases target with
  | horizontalSpace =>
    cases l with
    | none => exact .refl s
    | some l => exact addMark_moves h 0 (.glyph false) _ index
  | verticalSpace =>
    cases l with
    | none => exact .refl s
    | some l =>
      unfold applyLength addVerticalSpace
      simp only [Option.elim_some]
      split
      · exact .quiet {}
      · exact .quiet {}
  | _ => exact .quiet {}

theorem placeImage_moves (h : s.BreakWithin) (i : ImageSetting) (index : Nat) :
    Moves job s (Lexeme.signs job.printer.images ⟨index, .instruction (.setting (.image i))⟩)
      (s.placeImage job i index) := by
  unfold placeImage Lexeme.signs
  cases himage : job.printer.images.get? i.index.val with
  | none =>
    simp only [Registry.contains, himage]
    exact .refl s
  | some image =>
    simp only [Registry.contains, himage, Option.isSome_some, if_true]
    exact addMark_moves h CodePoint.placeholder (.image (s.imageMark i image)) _ index

theorem startRow_ofColumns (cs : List ColumnSetting) (left width : Int) (border : Bool) :
    (Table.ofColumns cs left width border).startRow = Table.ofColumns cs left width border := rfl

theorem applySetting_moves (h : s.BreakWithin) (index : Nat) (setting : Setting) :
    Moves job s (Lexeme.signs job.printer.images ⟨index, .instruction (.setting setting)⟩)
      (s.applySetting job index setting) := by
  cases setting with
  | length target l => exact applyLength_moves h index target l
  | image i => exact placeImage_moves h i index
  | font id => exact switchFont_format_moves _
  | beginTable border width columns =>
    exact (Move.beginTable s _ (startRow_ofColumns columns _ _ border)).moves
  | columnSpan columns align => exact (Move.span s columns.val align).moves
  | startRegion id => exact (Move.openRegion s id.val).moves
  | endRegion id => exact (Move.closeRegion s _).moves
  | addTabStop id position =>
    cases position with
    | none => exact .quiet {}
    | some position => exact .quiet {}
  | rowSpan rows => exact .refl s
  | _ => exact .quiet {}

theorem applySwitch_moves (w : Switch) : Moves job s [] (s.applySwitch job w) := by
  cases w with
  | resetFormatting => exact switchFont_format_moves _
  | script kind => exact switchFont_format_moves _
  | endTable => exact endTable_moves
  | _ => exact .quiet {}

theorem applyToggle_moves (t : Toggle) : Moves job s [] (s.applyToggle job t) := by
  cases t with
  | startSelection => exact (Move.openSelection s _).moves
  | endSelection => exact (Move.closeSelection s _).moves
  | _ => exact switchFont_format_moves _

/-! ### Moves of a step and of a run -/

/-- A token is taken in moves with the signs that it determines. -/
theorem step_moves (h : s.BreakWithin) (l : Lexeme) :
    Moves job s (l.signs job.printer.images) (s.step job l) := by
  obtain ⟨index, token⟩ := l
  cases token with
  | text c => exact place_moves h c index
  | newline c => exact newline_moves c index
  | placeholder => exact addMark_moves h CodePoint.placeholder .placeholder _ index
  | row => exact endRow_moves
  | cell => exact (Move.nextCell s).moves
  | nothing => exact .refl s
  | instruction i =>
    cases i with
    | toggle t => exact applyToggle_moves t
    | switch w => exact applySwitch_moves w
    | setting setting => exact applySetting_moves h index setting

theorem run_moves (h : s.BreakWithin) (ls : List Lexeme) :
    Moves job s (ls.flatMap (Lexeme.signs job.printer.images)) (s.run job ls) := by
  induction ls generalizing s with
  | nil => exact .refl s
  | cons l ls ih =>
    have hstep : Moves job s (l.signs job.printer.images) (s.step job l) := step_moves h l
    rw [List.flatMap_cons]
    exact hstep.trans (ih (hstep.preserves Move.breakWithin h))

theorem breakWithin_initial (job : Job) (font : Font) : (initial job font).BreakWithin :=
  breakWithin_of_none rfl

/-- What holds before the first token, and is kept by each move, holds between any two
    tokens. -/
theorem run_preserves {P : LayoutState → Prop} {font : Font} (h : P (initial job font))
    (hP : ∀ {s t : LayoutState} {σ : List Sign}, Move job s σ t → P s → P t) (ls : List Lexeme) :
    P ((initial job font).run job ls) :=
  (run_moves (breakWithin_initial job font) ls).preserves hP h

theorem breakWithin_run (job : Job) (font : Font) (ls : List Lexeme) :
    ((initial job font).run job ls).BreakWithin :=
  run_preserves (breakWithin_initial job font) Move.breakWithin ls

end LayoutState

/-- With the default font registered there is a layout. -/
theorem Job.layout_eq {job : Job} {font : Font}
    (h : job.printer.fonts.get? job.printer.defaultFont = some font) (markup : List UInt8) :
    job.layout markup = .ok (job.layoutWith font (Codec.decode markup)) := by
  unfold Job.layout
  rw [h]

end RichText
