/-
  RichText/Proofs/Layout/Displaced.lean
  =====================================
  **Each step of a layout does the same wherever the layout stands.**

  Every operation commutes with a transfer to another place of the page and to other
  positions of the text, and so do a step (`step_transfer`) and a run (`run_transfer`).  The
  lines of a layout that is transferred are those of the layout itself, transferred, below the
  ones above them (`finish_transfer`).
-/
import RichText.Proofs.Layout.Displacement
import RichText.Proofs.Layout.Moves

namespace RichText.LayoutState

variable (v : Displacement) (f : Nat → Nat) (y : Int) (above : Array Line) (job : Job)
  (s : LayoutState)

/-! ### Edges and fonts -/

theorem leftEdge_transfer :
    (s.transfer v f above).leftEdge (job.displace v y) = s.leftEdge job + v.right := by
  have htable : (s.transfer v f above).table = s.table.map (Table.displace v) := rfl
  have hformat : (s.transfer v f above).format = s.format := rfl
  have hparagraph : (s.transfer v f above).paragraph = s.paragraph := rfl
  have horigin : (job.displace v y).origin.x = job.origin.x + v.right := rfl
  simp only [leftEdge, htable, hformat, hparagraph, horigin]
  cases s.table with
  | none =>
    simp only [Option.map_none]
    omega
  | some t => exact Table.cellLeft_displace v t

theorem beginLine_transfer :
    (s.transfer v f above).beginLine (job.displace v y) = (s.beginLine job).transfer v f above := by
  have hstarted : (s.transfer v f above).lineStarted = s.lineStarted := rfl
  simp only [beginLine, hstarted, leftEdge_transfer]
  split <;> rfl

theorem lineIsEmpty_transfer : (s.transfer v f above).lineIsEmpty = s.lineIsEmpty := by
  have hmarks : (s.transfer v f above).marks.isEmpty = s.marks.isEmpty := by
    simp only [Array.isEmpty, size_transfer]
  simp only [lineIsEmpty, hmarks]
  rfl

theorem useFont_transfer (id : Nat) (font : Font) :
    (s.transfer v f above).useFont id font = (s.useFont id font).transfer v f above := by
  have hid : (s.transfer v f above).fontId = s.fontId := rfl
  simp only [useFont, hid, size_transfer]
  split <;> rfl

theorem switchFont_transfer :
    (s.transfer v f above).switchFont (job.displace v y) = (s.switchFont job).transfer v f above := by
  have hwanted : (s.transfer v f above).wantedFont (job.displace v y) = s.wantedFont job := rfl
  have hfonts : (job.displace v y).printer.fonts = job.printer.fonts := rfl
  simp only [switchFont, hwanted, hfonts]
  cases job.printer.fonts.get? (s.wantedFont job) with
  | none => rfl
  | some font =>
    simp only [Option.elim_some, useFont_transfer]
    rfl

theorem switchFont_format_transfer (format : Format) :
    ({ s.transfer v f above with format := format } : LayoutState).switchFont (job.displace v y) =
      ({ s with format := format }.switchFont job).transfer v f above :=
  switchFont_transfer v f y above job { s with format := format }

/-! ### Committing -/

theorem carrySpans_transfer (cut : Nat) :
    (s.transfer v f above).carrySpans cut = (s.carrySpans cut).transfer v f above := rfl

theorem nextLine_transfer (bottom : Int) (paragraph : Bool) :
    (s.transfer v f above).nextLine (bottom + v.down) paragraph =
      (s.nextLine bottom paragraph).transfer v f above := by
  have htop : bottom + v.down + s.verticalSpace = bottom + s.verticalSpace + v.down := by omega
  have hspace : (s.transfer v f above).verticalSpace = s.verticalSpace := rfl
  simp only [nextLine, hspace, htop]
  rfl

theorem carryMarks_transfer (cut : Nat) :
    (s.transfer v f above).carryMarks (job.displace v y) cut =
      (s.carryMarks job cut).transfer v f above := by
  simp only [carryMarks, toList_transfer, ← List.map_drop]
  cases s.marks.toList.drop cut with
  | nil => simp only [List.map_nil, transfer, Array.map_empty]
  | cons first rest =>
    rw [beginLine_transfer]
    generalize s.beginLine job = t
    have hdx : t.lineLeft + v.right - (first.x + v.right) = t.lineLeft - first.x := by omega
    have hmarks : ((first :: rest).map (Mark.transfer v f)).map
        (Mark.shift (t.lineLeft + v.right - (first.x + v.right))) =
          ((first :: rest).map (Mark.shift (t.lineLeft - first.x))).map (Mark.transfer v f) := by
      rw [hdx, Mark.map_shift_transfer]
    change { t.transfer v f above with
      marks := (((first :: rest).map (Mark.transfer v f)).map
        (Mark.shift (t.lineLeft + v.right - (first.x + v.right)))).toArray
      penX := Mark.lastRight (t.penX + v.right) (((first :: rest).map (Mark.transfer v f)).map
        (Mark.shift (t.lineLeft + v.right - (first.x + v.right)))) } = _
    rw [hmarks, Mark.lastRight_transfer, ← List.map_toArray]
    rfl

/-- A line that is committed joins the others. -/
theorem pushLine_transfer (wrapped : Option WrappedLine) (line : Line) :
    { s.transfer v f above with
      wrapped := wrapped.map (WrappedLine.displace v)
      lines := (s.transfer v f above).lines.push (line.transfer v f) } =
        { s with wrapped := wrapped, lines := s.lines.push line }.transfer v f above := by
  have hlines : (above ++ s.lines.map (Line.transfer v f)).push (line.transfer v f) =
      above ++ (s.lines.push line).map (Line.transfer v f) := by
    rw [Array.map_push, Array.append_push]
  change { s.transfer v f above with
    wrapped := wrapped.map (WrappedLine.displace v)
    lines := (above ++ s.lines.map (Line.transfer v f)).push (line.transfer v f) } = _
  rw [hlines]
  rfl

theorem mapTable_transfer {g : Table → Table} (hg : ∀ t, g (t.displace v) = (g t).displace v) :
    { s.transfer v f above with table := (s.transfer v f above).table.map g } =
      { s with table := s.table.map g }.transfer v f above := by
  have htable : (s.table.map (Table.displace v)).map g = (s.table.map g).map (Table.displace v) := by
    simp only [Option.map_map]
    congr 1
    funext t
    exact hg t
  change { s.transfer v f above with table := (s.table.map (Table.displace v)).map g } = _
  rw [htable]
  rfl

theorem commit_transfer (content : Nat) (reason : LineEnd) :
    (s.transfer v f above).commit (job.displace v y) content reason =
      (s.commit job content reason).transfer v f above := by
  have himages : (job.displace v y).printer.images = job.printer.images := rfl
  simp only [commit, cut_transfer, setLine_transfer, himages, SetLine.line_transfer, size_transfer]
  generalize s.setLine job content (s.cut content reason) reason = l
  have hspacing : (s.transfer v f above).paragraphSpacing (l.transfer v f).height =
      s.paragraphSpacing l.height := rfl
  have hbottom : ∀ spacing : Int, (l.transfer v f).bottom + spacing = l.bottom + spacing + v.down := by
    intro spacing
    simp only [SetLine.transfer]
    omega
  have hwrapped : (if reason = .wrap ∧ s.cut content reason = s.marks.size then
      some (WrappedLine.mk
        (max (Mark.lastRight (l.transfer v f).right (l.transfer v f).marks) (l.transfer v f).right)
        (l.transfer v f).top (l.transfer v f).bottom)
      else none) =
        (if reason = .wrap ∧ s.cut content reason = s.marks.size then
          some (WrappedLine.mk (max (Mark.lastRight l.right l.marks) l.right) l.top l.bottom)
          else none).map (WrappedLine.displace v) := by
    split
    · simp only [SetLine.transfer, Mark.lastRight_transfer, Int.max_add_right, Option.map_some,
        WrappedLine.displace]
    · rfl
  rw [hwrapped, hspacing, hbottom, carrySpans_transfer, nextLine_transfer]
  generalize (s.carrySpans (s.cut content reason)).nextLine _ _ = t
  by_cases hrow : reason = .row
  · simp only [if_pos hrow, mapTable_transfer v f above t (Table.startRow_displace v),
      pushLine_transfer, carryMarks_transfer]
  · simp only [if_neg hrow, pushLine_transfer, carryMarks_transfer]

theorem finishLine_transfer (reason : LineEnd) :
    (s.transfer v f above).finishLine (job.displace v y) reason =
      (s.finishLine job reason).transfer v f above := by
  simp only [finishLine, lineIsEmpty_transfer, commitAll, size_transfer, commit_transfer]
  split <;> rfl

/-! ### Putting marks on the line -/

theorem decorate_transfer (code : Nat) (kind : MarkKind) (baseline shift : Int) (color : Color) :
    (s.transfer v f above).decorate code kind baseline shift color =
      (s.decorate code kind baseline shift color).transfer v f above := by
  simp only [decorate, size_transfer]
  rfl

theorem pushMark_transfer (code : Nat) (kind : MarkKind) (advance : Int) (index : Nat) :
    (s.transfer v f above).pushMark (job.displace v y) code kind advance (f index) =
      (s.pushMark job code kind advance index).transfer v f above := by
  simp only [pushMark, beginLine_transfer]
  generalize s.beginLine job = t
  have hbox : (t.transfer v f above).markBox kind = t.markBox kind := rfl
  have hoffset : (t.transfer v f above).letterOffset = t.letterOffset := rfl
  have hcolor : (t.transfer v f above).selectedColor.getD (t.transfer v f above).textColor =
      t.selectedColor.getD t.textColor := rfl
  rw [hbox, hoffset, hcolor, decorate_transfer]
  generalize t.decorate code kind _ _ _ = u
  have hpen : u.penX + v.right + advance = u.penX + advance + v.right := by omega
  change { u.transfer v f above with
    marks := (u.marks.map (Mark.transfer v f)).push ((Mark.mk t.fontId code kind t.penX t.letterOffset
      advance (t.markBox kind).1 (t.markBox kind).2 (t.selectedColor.getD t.textColor)
      index).transfer v f)
    penX := u.penX + v.right + advance
    prev := some code
    lastAdvance := advance } = _
  rw [← Array.map_push, hpen]
  rfl

theorem trimSpaces_transfer (marks : Array Mark) (n : Nat) :
    trimSpaces (marks.map (Mark.transfer v f)) n = trimSpaces marks n := by
  induction n with
  | zero => rfl
  | succ n ih =>
    simp only [trimSpaces, ih, Array.getElem?_map, Option.any_map]
    rfl

theorem breakAt_transfer : (s.transfer v f above).breakAt = s.breakAt := by
  have hbreak : (s.transfer v f above).lastBreak = s.lastBreak := rfl
  have hmarks : (s.transfer v f above).marks = s.marks.map (Mark.transfer v f) := rfl
  simp only [breakAt, breakAt.emergency, hbreak, hmarks, trimSpaces_transfer, Array.size_map]

theorem checkWrap_transfer :
    (s.transfer v f above).checkWrap (job.displace v y) = (s.checkWrap job).transfer v f above := by
  have hlimit : job.origin.x + v.right + s.wrapWidth < s.penX + v.right ↔
      job.origin.x + s.wrapWidth < s.penX := by omega
  have htable : (s.transfer v f above).table.isNone = s.table.isNone := Option.isNone_map
  have hover : ((s.transfer v f above).wordWrap ∧ 0 < (s.transfer v f above).wrapWidth ∧
      (s.transfer v f above).table.isNone ∧ (job.displace v y).origin.x +
        (s.transfer v f above).wrapWidth < (s.transfer v f above).penX) ↔
      (s.wordWrap ∧ 0 < s.wrapWidth ∧ s.table.isNone ∧ job.origin.x + s.wrapWidth < s.penX) := by
    rw [htable, ← hlimit]
    rfl
  simp only [checkWrap, hover, breakAt_transfer, commit_transfer]
  split <;> rfl

theorem addMark_transfer (code : Nat) (kind : MarkKind) (advance : Int) (index : Nat) :
    (s.transfer v f above).addMark (job.displace v y) code kind advance (f index) =
      (s.addMark job code kind advance index).transfer v f above := by
  simp only [addMark, pushMark_transfer, checkWrap_transfer]

/-! ### Text -/

theorem tabAdvance_transfer :
    (s.transfer v f above).tabAdvance (job.displace v y) = s.tabAdvance job := by
  have hpen : (s.transfer v f above).penX - (job.displace v y).origin.x = s.penX - job.origin.x := by
    simp only [transfer, Job.displace]
    omega
  simp only [tabAdvance, hpen]
  rfl

theorem textAdvance_transfer (c : Nat) :
    (s.transfer v f above).textAdvance (job.displace v y) c = s.textAdvance job c := by
  simp only [textAdvance, tabAdvance_transfer]
  rfl

/-- The position of a break is noted in both. -/
theorem noteBreak_transfer (p : Bool) :
    (s.transfer v f above).noteBreak p = (s.noteBreak p).transfer v f above := by
  simp only [noteBreak, size_transfer]
  cases p <;> rfl

theorem beforeMark_transfer (c : Nat) :
    beforeMark (job.displace v y) (s.transfer v f above) c =
      (beforeMark job s c).transfer v f above := by
  simp only [beforeMark, beginLine_transfer, noteBreak_transfer]
  generalize (s.beginLine job).noteBreak (CodePoint.isBreaking c) = t
  have hroom : (t.transfer v f above).roomBefore c = t.roomBefore c := rfl
  have hpen : t.penX + v.right + t.roomBefore c = t.penX + t.roomBefore c + v.right := by omega
  change { t.transfer v f above with
    penX := t.penX + v.right + (t.transfer v f above).roomBefore c } = _
  rw [hroom, hpen]
  rfl

theorem place_transfer (c index : Nat) :
    (s.transfer v f above).place (job.displace v y) c (f index) =
      (s.place job c index).transfer v f above := by
  simp only [place_eq, beginLine_transfer, noteBreak_transfer, textAdvance_transfer,
    beforeMark_transfer, addMark_transfer]
  rfl

theorem newline_transfer (c index : Nat) :
    (s.transfer v f above).newline (job.displace v y) c (f index) =
      (s.newline job c index).transfer v f above := by
  simp only [newline, pushMark_transfer]
  generalize s.pushMark job c .lineEnd 0 index = t
  have htable : (t.transfer v f above).table.isSome = t.table.isSome := Option.isSome_map
  simp only [commitAll, size_transfer, commit_transfer, htable]

theorem placePlaceholder_transfer (index : Nat) :
    (s.transfer v f above).placePlaceholder (job.displace v y) (f index) =
      (s.placePlaceholder job index).transfer v f above :=
  addMark_transfer v f y above job s _ _ _ index

/-! ### Tables -/

theorem endRow_transfer :
    (s.transfer v f above).endRow (job.displace v y) = (s.endRow job).transfer v f above := by
  have htable : (s.transfer v f above).table.isSome = s.table.isSome := Option.isSome_map
  simp only [endRow, htable, beginLine_transfer, commitAll, size_transfer, commit_transfer]
  split <;> rfl

theorem nextCell_transfer :
    (s.transfer v f above).nextCell (job.displace v y) = (s.nextCell job).transfer v f above := by
  have htable : (s.transfer v f above).table = s.table.map (Table.displace v) := rfl
  simp only [nextCell, htable, size_transfer]
  cases s.table with
  | none => rfl
  | some t =>
    have hbegin : ({ s.transfer v f above with
        table := some ((t.nextCell s.marks.size).displace v) } : LayoutState).beginLine
          (job.displace v y) =
        ({ s with table := some (t.nextCell s.marks.size) }.beginLine job).transfer v f above :=
      beginLine_transfer v f y above job { s with table := some (t.nextCell s.marks.size) }
    simp only [Option.map_some, Table.nextCell_displace, Table.cellLeft_displace, hbegin]
    generalize beginLine job _ = u
    have hpen : max (u.transfer v f above).penX ((t.nextCell s.marks.size).cellLeft + v.right) =
        max u.penX (t.nextCell s.marks.size).cellLeft + v.right := Int.max_add_right _ _ _
    rw [hpen]
    rfl

theorem beginTable_transfer (t : Table) :
    (s.transfer v f above).beginTable (job.displace v y) (t.displace v) =
      (s.beginTable job t).transfer v f above := by
  simp only [beginTable, finishLine_transfer]
  rfl

theorem endTable_transfer :
    (s.transfer v f above).endTable (job.displace v y) = (s.endTable job).transfer v f above := by
  have htable : (s.transfer v f above).table.isSome = s.table.isSome := Option.isSome_map
  simp only [endTable, htable, finishLine_transfer]
  split <;> rfl

/-! ### Instructions -/

theorem applyLength_transfer (index : Nat) (target : LengthTarget) (l : Option Length) :
    (s.transfer v f above).applyLength (job.displace v y) (f index) target l =
      (s.applyLength job index target l).transfer v f above := by
  cases target with
  | horizontalSpace =>
    cases l with
    | none => rfl
    | some l => exact addMark_transfer v f y above job s _ _ _ index
  | verticalSpace =>
    cases l with
    | none => rfl
    | some l =>
      have htop : ∀ space : Int, s.top + v.down + space = s.top + space + v.down := by
        intro space
        omega
      simp only [applyLength, Option.elim_some, addVerticalSpace, lineIsEmpty_transfer]
      change (if _ then { s.transfer v f above with top := s.top + v.down + _ } else _) = _
      rw [htop]
      split <;> rfl
  | _ => rfl

theorem placeImage_transfer (i : ImageSetting) (index : Nat) :
    (s.transfer v f above).placeImage (job.displace v y) i (f index) =
      (s.placeImage job i index).transfer v f above := by
  have himages : (job.displace v y).printer.images = job.printer.images := rfl
  simp only [placeImage, himages]
  cases job.printer.images.get? i.index.val with
  | none => rfl
  | some image => exact addMark_transfer v f y above job s _ _ _ index

theorem newTable_transfer (border : Bool) (width : Option Length) (columns : List ColumnSetting) :
    (s.transfer v f above).newTable (job.displace v y) border width columns =
      (s.newTable job border width columns).displace v := by
  have hleft : (job.displace v y).origin.x + s.format.indent =
      job.origin.x + s.format.indent + v.right := by
    simp only [Job.displace]
    omega
  simp only [newTable, ← Table.ofColumns_displace, ← hleft]
  rfl

theorem applySetting_transfer (index : Nat) (setting : Setting) :
    (s.transfer v f above).applySetting (job.displace v y) (f index) setting =
      (s.applySetting job index setting).transfer v f above := by
  cases setting with
  | length target l => exact applyLength_transfer v f y above job s index target l
  | image i => exact placeImage_transfer v f y above job s i index
  | font id => exact switchFont_format_transfer v f y above job s _
  | beginTable border width columns =>
    simp only [applySetting, newTable_transfer, beginTable_transfer]
  | columnSpan columns align =>
    exact mapTable_transfer v f above s (Table.span_displace v · columns.val align)
  | startRegion id =>
    simp only [applySetting, size_transfer]
    rfl
  | endRegion id =>
    simp only [applySetting, size_transfer]
    rfl
  | addTabStop id position => cases position <;> rfl
  | _ => rfl

theorem applySwitch_transfer (w : Switch) :
    (s.transfer v f above).applySwitch (job.displace v y) w =
      (s.applySwitch job w).transfer v f above := by
  cases w with
  | resetFormatting => exact switchFont_format_transfer v f y above job s _
  | script kind => exact switchFont_format_transfer v f y above job s _
  | endTable => exact endTable_transfer v f y above job s
  | _ => rfl

theorem applyToggle_transfer (t : Toggle) :
    (s.transfer v f above).applyToggle (job.displace v y) t =
      (s.applyToggle job t).transfer v f above := by
  cases t with
  | startSelection =>
    simp only [applyToggle, startSelection, size_transfer]
    rfl
  | endSelection =>
    simp only [applyToggle, endSelection, size_transfer]
    rfl
  | _ => exact switchFont_format_transfer v f y above job s _

/-! ### Steps -/

/-- A step of a transferred layout takes the token at the position that `f` gives. -/
theorem step_transfer (l : Lexeme) :
    (s.transfer v f above).step (job.displace v y) (l.reindex f) =
      (s.step job l).transfer v f above := by
  obtain ⟨index, token⟩ := l
  cases token with
  | text c => exact place_transfer v f y above job s c index
  | newline c => exact newline_transfer v f y above job s c index
  | placeholder => exact placePlaceholder_transfer v f y above job s index
  | row => exact endRow_transfer v f y above job s
  | cell => exact nextCell_transfer v f y above job s
  | nothing => rfl
  | instruction i =>
    cases i with
    | toggle t => exact applyToggle_transfer v f y above job s t
    | switch w => exact applySwitch_transfer v f y above job s w
    | setting setting => exact applySetting_transfer v f y above job s index setting

theorem run_transfer (ls : List Lexeme) :
    (s.transfer v f above).run (job.displace v y)
        (ls.map (Lexeme.reindex f)) =
      (s.run job ls).transfer v f above := by
  induction ls generalizing s with
  | nil => rfl
  | cons l ls ih =>
    have hstep := step_transfer v f y above job s l
    simp only [run, List.map_cons, List.foldl_cons] at ih ⊢
    rw [hstep, ih]

/-- The lines of a transferred layout come after those above it. -/
theorem finish_transfer (total : Nat) :
    (s.transfer v f above).finish (job.displace v y) (f total) =
      above.toList ++ (s.finish job total).map (Line.transfer v f) := by
  have hwrapped : (s.transfer v f above).wrapped = s.wrapped.map (WrappedLine.displace v) := rfl
  have hlines : ∀ t : LayoutState, (t.transfer v f above).lines.toList =
      above.toList ++ t.lines.toList.map (Line.transfer v f) := by
    intro t
    simp only [transfer, Array.toList_append, Array.toList_map]
  simp only [finish, hwrapped, lineIsEmpty_transfer, Option.filter_map, Function.comp_def,
    pushMark_transfer, commitAll, size_transfer, commit_transfer]
  cases s.wrapped.filter fun _ => s.lineIsEmpty with
  | none => exact hlines _
  | some w =>
    simp only [Option.map_some, hlines, List.map_append, List.append_assoc]
    rfl

/-! ### Displaced layouts -/

theorem lineIsEmpty_displace : (s.displace v above).lineIsEmpty = s.lineIsEmpty := by
  rw [displace_eq, lineIsEmpty_transfer]

theorem run_displace (ls : List Lexeme) :
    (s.displace v above).run (job.displace v y)
        (ls.map (Lexeme.reindex (· + v.later))) =
      (s.run job ls).displace v above := by
  rw [displace_eq]
  exact run_transfer v (· + v.later) y above job s ls

/-- The lines of a displaced layout come after those above it. -/
theorem finish_displace (total : Nat) :
    (s.displace v above).finish (job.displace v y) (total + v.later) =
      above.toList ++ (s.finish job total).map (Line.displace v) := by
  rw [displace_eq, Line.displace_eq]
  exact finish_transfer v (· + v.later) y above job s total

end RichText.LayoutState
