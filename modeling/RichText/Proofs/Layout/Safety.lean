/-
  RichText/Proofs/Layout/Safety.lean
  ==================================
  **No access of a layout fails.**

  `Checked.layoutWith` is a layout in which every access may fail: it commits lines
  with the checked definitions of `RichText.Proofs.Layout.Checked`, finds the place
  for a break by checked positions, and gives up at the first failure.  It never does
  (`Printer.no_failing_access`): between two tokens all positions are on the line, and
  within a token they are wherever one is used.
-/
import RichText.Proofs.Layout.Checked
import RichText.Query

namespace RichText

namespace Checked

variable {job : Job} {s : LayoutState} {n content cut : Nat}

/-! ### The left edge of a line -/

def beginLine (job : Job) (s : LayoutState) : Option LayoutState :=
  if s.lineStarted then return s
  else do
    let left ←
      match s.table with
      | some t => cellLeft t
      | none => pure (s.leftEdge job)
    return { s with lineStarted := true, lineLeft := left, penX := left }

theorem beginLine_eq (h : ∀ t, s.table = some t → t.Coherent n) :
    beginLine job s = some (s.beginLine job) := by
  unfold beginLine LayoutState.beginLine
  by_cases hs : s.lineStarted = true
  · rw [if_pos hs, if_pos hs]
    rfl
  · rw [if_neg hs, if_neg hs]
    cases ht : s.table with
    | none => rfl
    | some t =>
      have hleft : s.leftEdge job = t.cellLeft := by
        unfold LayoutState.leftEdge
        rw [ht]
      simp only [cellLeft_eq (h t ht), Option.bind_eq_bind, Option.bind_some, hleft]
      rfl

/-! ### Committing -/

def justified (job : Job) (s : LayoutState) (content : Nat) (reason : LineEnd) (marks : List Mark) :
    Option (List Mark) :=
  if reason = .wrap ∧ s.format.justify.getD s.font.style.justify ∧ 0 < s.wrapWidth ∧
      s.table.isNone then do
    let contents ← slice marks 0 content
    let codes := Mark.codes contents
    let plan? ← plan (Justification.countSpaces codes) (Justification.countGaps codes)
      (job.origin.x + s.wrapWidth - Mark.lastRight s.lineLeft contents)
      s.font.face.digitWidth s.font.face.height
    match plan? with
    | some plan => return Mark.justify plan content marks
    | none => return marks
  else return marks

/-- The line of the first `cut` marks. -/
def setLine (job : Job) (s : LayoutState) (content cut : Nat) (reason : LineEnd) :
    Option SetLine := do
  let marks ← slice s.marks.toList 0 cut
  let (baseline, height) := Mark.box s.font.face marks
  let marks ← justified job s content reason marks
  let contents ← slice marks 0 content
  let shift := s.alignShift job contents
  let marks ←
    match s.table with
    | some t => alignCells t t.cells.reverse marks
    | none => pure (marks.map (Mark.shift shift))
  let left := s.lineLeft + shift
  let contents ← slice marks 0 content
  return ⟨marks, content, left, Mark.lastRight left contents, s.top, s.top + s.lineSpacing height,
    baseline, height⟩

/-- Drops the first `cut` marks. -/
def carryMarks (job : Job) (s : LayoutState) (cut : Nat) : Option LayoutState := do
  let rest ← slice s.marks.toList cut s.marks.toList.length
  match rest with
  | [] => return { s with marks := #[], prev := none }
  | first :: _ =>
    let s ← beginLine job s
    let rest := rest.map (Mark.shift (s.lineLeft - first.x))
    return { s with marks := rest.toArray, penX := Mark.lastRight s.penX rest }

def carrySpans (s : LayoutState) (cut : Nat) : Option LayoutState := do
  let selections ← carryAll cut s.selections
  let regions ← carryAll cut s.regions
  let underlines ← carryAll cut s.underline.spans
  let strikes ← carryAll cut s.strike.spans
  return { s with
    selections := selections
    regions := regions
    underline := { s.underline with spans := underlines }
    strike := { s.strike with spans := strikes } }

/-- Sets the first `content` marks as a line. -/
def commit (job : Job) (s : LayoutState) (content : Nat) (reason : LineEnd) :
    Option LayoutState := do
  let cut := s.cut content reason
  let l ← setLine job s content cut reason
  let line ← line l s job.printer.images
  let wrapped :=
    if reason = .wrap ∧ cut = s.marks.size then
      some ⟨max (Mark.lastRight l.right l.marks) l.right, l.top, l.bottom⟩
    else none
  let paragraph := reason == .newline true
  let spacing := if paragraph then s.paragraphSpacing l.height else 0
  let s ← carrySpans s cut
  let s := s.nextLine (l.bottom + spacing) paragraph
  let s := if reason = .row then { s with table := s.table.map Table.startRow } else s
  carryMarks job { s with wrapped := wrapped, lines := s.lines.push line } cut

theorem length_justified (job : Job) (s : LayoutState) (content : Nat) (reason : LineEnd)
    (marks : List Mark) : (s.justified job content reason marks).length = marks.length := by
  unfold LayoutState.justified
  split
  · exact Mark.length_justify _ content marks
  · rfl

theorem justified_eq {marks : List Mark} (h : content ≤ marks.length) (reason : LineEnd) :
    justified job s content reason marks = some (s.justified job content reason marks) := by
  unfold justified LayoutState.justified LayoutState.justification?
  split
  · simp only [slice_take h, plan_eq, Option.bind_eq_bind, Option.bind_some]
    generalize Justification.plan? _ _ _ _ _ = plan?
    cases plan? <;> rfl
  · rfl

/-- The line can be set: its content belongs to it, and the cells of a table stand on
    the part that is cut. -/
theorem setLine_eq (job : Job) (hcontent : content ≤ cut) (hcut : cut ≤ s.marks.size)
    (ht : ∀ t, s.table = some t → t.Coherent cut) (reason : LineEnd) :
    setLine job s content cut reason = some (s.setLine job content cut reason) := by
  have hlen : (s.marks.toList.take cut).length = cut := by
    rw [List.length_take, Array.length_toList, Nat.min_eq_left hcut]
  generalize hmarks : s.justified job content reason (s.marks.toList.take cut) = marks
  have hmarkslen : marks.length = cut := by rw [← hmarks, length_justified, hlen]
  have hslice : slice s.marks.toList 0 cut = some (s.marks.toList.take cut) :=
    slice_take (Array.length_toList ▸ hcut)
  have hjust : justified job s content reason (s.marks.toList.take cut) = some marks := by
    rw [justified_eq (hlen.symm ▸ hcontent), hmarks]
  unfold setLine LayoutState.setLine
  simp only [hslice, hjust, hmarks, slice_take (hmarkslen.symm ▸ hcontent), Option.bind_eq_bind,
    Option.bind_some]
  cases htable : s.table with
  | none =>
    have h : content ≤ (marks.map (Mark.shift (s.alignShift job (marks.take content)))).length := by
      rw [List.length_map, hmarkslen]
      exact hcontent
    simp only [Option.pure_def, Option.bind_some, slice_take h]
  | some t =>
    have h : content ≤ (Mark.alignCells t t.cells.reverse marks).length := by
      rw [Mark.length_alignCells, hmarkslen]
      exact hcontent
    simp only [alignCells_eq (hmarkslen.symm ▸ ht t htable), Option.pure_def, Option.bind_some,
      slice_take h]

theorem content_setLine_le (job : Job) (hcontent : content ≤ cut) (hcut : cut ≤ s.marks.size)
    (reason : LineEnd) :
    (s.setLine job content cut reason).content ≤
      (s.setLine job content cut reason).marks.length := by
  have hlen : (s.marks.toList.take cut).length = cut := by
    rw [List.length_take, Array.length_toList, Nat.min_eq_left hcut]
  have hmarks : (s.setLine job content cut reason).marks.length = cut := by
    unfold LayoutState.setLine
    cases s.table with
    | none => simp only [List.length_map, length_justified, hlen]
    | some t => simp only [Mark.length_alignCells, length_justified, hlen]
  rw [hmarks]
  exact hcontent

theorem carryMarks_eq (hcut : cut ≤ s.marks.size) (ht : s.table = none ∨ cut = s.marks.size) :
    carryMarks job s cut = some (s.carryMarks job cut) := by
  have hlen : cut ≤ s.marks.toList.length := by
    rw [Array.length_toList]
    exact hcut
  have hslice := slice_drop hlen
  unfold carryMarks LayoutState.carryMarks
  simp only [hslice, Option.bind_eq_bind, Option.bind_some]
  cases hrest : s.marks.toList.drop cut with
  | nil => rfl
  | cons first rest =>
    -- Something is left over, so that the line is in no table.
    have htable : s.table = none := by
      rcases ht with ht | rfl
      · exact ht
      · rw [← Array.length_toList, List.drop_length] at hrest
        cases hrest
    have hbegin : beginLine job s = some (s.beginLine job) := by
      refine beginLine_eq (n := 0) fun t hst => ?_
      rw [htable] at hst
      cases hst
    simp only [hbegin, Option.bind_some]
    rfl

theorem carrySpans_eq (h : s.CoherentLine) : carrySpans s cut = some (s.carrySpans cut) := by
  unfold carrySpans
  rw [carryAll_eq h.selections, carryAll_eq h.regions, carryAll_eq h.underline.within,
    carryAll_eq h.strike.within]
  rfl

/-- A line whose positions are on it can be committed. In a table nothing of it may be
    carried over. -/
theorem commit_eq (h : s.Coherent) (hc : content ≤ s.marks.size) {reason : LineEnd}
    (ht : s.table = none ∨ reason ≠ .wrap) :
    commit job s content reason = some (s.commit job content reason) := by
  have hcut := LayoutState.cut_le hc reason
  have hall : s.table = none ∨ s.cut content reason = s.marks.size := by
    rcases ht with ht | ht
    · exact Or.inl ht
    · right
      cases reason with
      | wrap => exact absurd rfl ht
      | newline _ | row | text => rfl
  have hcells : ∀ t, s.table = some t → t.Coherent (s.cut content reason) := by
    intro t hst
    rcases hall with hall | hall
    · rw [hall] at hst
      cases hst
    · rw [hall]
      exact h.table t hst
  have hset := setLine_eq job (LayoutState.le_cut hc reason) hcut hcells reason
  have hline := line_eq (content_setLine_le job (LayoutState.le_cut hc reason) hcut reason)
    (fun t hst => (hcells t hst).span_pos) job.printer.images
  unfold commit LayoutState.commit
  simp only [hset, hline, carrySpans_eq h.toCoherentLine, Option.bind_eq_bind, Option.bind_some]
  refine carryMarks_eq ?_ ?_
  · split <;> exact hcut
  · rcases hall with hall | hall
    · left
      split
      · exact congrArg (Option.map Table.startRow) hall
      · exact hall
    · right
      split <;> exact hall

/-! ### Wrapping -/

/-- The first `n` marks without the spaces at their end. -/
def trimSpaces (marks : Array Mark) : Nat → Option Nat
  | 0 => some 0
  | n + 1 => do
    let mark ← marks[n]?
    if CodePoint.isSpace mark.code then trimSpaces marks n else return n + 1

/-- Where the line is broken. -/
def breakAt (s : LayoutState) : Option Nat := do
  let pos ←
    match s.lastBreak with
    | some pos => if 0 < pos then pure pos else emergency
    | none => emergency
  trimSpaces s.marks pos
where
  emergency : Option Nat := if s.marks.size ≤ 1 then some s.marks.size else sub s.marks.size 1

theorem trimSpaces_eq {marks : Array Mark} (h : n ≤ marks.size) :
    trimSpaces marks n = some (LayoutState.trimSpaces marks n) := by
  induction n with
  | zero => rfl
  | succ n ih =>
    have hn : n < marks.size := h
    simp only [trimSpaces, LayoutState.trimSpaces, Array.getElem?_eq_getElem hn,
      Option.bind_eq_bind, Option.bind_some, Option.any_some, ih (Nat.le_of_lt hn)]
    split <;> rfl

theorem breakAt_eq (h : s.BreakWithin) : breakAt s = some s.breakAt := by
  have hemergency : breakAt.emergency s = some (LayoutState.breakAt.emergency s) := by
    unfold breakAt.emergency LayoutState.breakAt.emergency
    by_cases hs : s.marks.size ≤ 1
    · rw [if_pos hs, if_pos hs]
    · rw [if_neg hs, if_neg hs, sub_eq (by omega)]
  have hle : LayoutState.breakAt.emergency s ≤ s.marks.size := by
    unfold LayoutState.breakAt.emergency
    split <;> omega
  unfold breakAt LayoutState.breakAt
  cases hb : s.lastBreak with
  | none =>
    simp only [hemergency, Option.bind_eq_bind, Option.bind_some]
    exact trimSpaces_eq hle
  | some pos =>
    by_cases hpos : 0 < pos
    · simp only [if_pos hpos, Option.pure_def, Option.bind_eq_bind, Option.bind_some]
      exact trimSpaces_eq (h pos hb)
    · simp only [if_neg hpos, hemergency, Option.bind_eq_bind, Option.bind_some]
      exact trimSpaces_eq hle

def checkWrap (job : Job) (s : LayoutState) : Option LayoutState :=
  if s.wordWrap ∧ 0 < s.wrapWidth ∧ s.table.isNone ∧ job.origin.x + s.wrapWidth < s.penX then do
    let content ← breakAt s
    commit job s content .wrap
  else return s

theorem checkWrap_eq (h : s.Coherent) : checkWrap job s = some (s.checkWrap job) := by
  unfold checkWrap LayoutState.checkWrap
  by_cases hw : s.wordWrap ∧ 0 < s.wrapWidth ∧ s.table.isNone ∧ job.origin.x + s.wrapWidth < s.penX
  · have ht : s.table = none := Option.isNone_iff_eq_none.1 hw.2.2.1
    rw [if_pos hw, if_pos hw, breakAt_eq h.lastBreak]
    exact commit_eq h (LayoutState.breakAt_le h.lastBreak) (Or.inl ht)
  · rw [if_neg hw, if_neg hw]
    rfl

/-! ### Tokens -/

def pushMark (job : Job) (s : LayoutState) (code : Nat) (kind : MarkKind) (advance : Int)
    (index : Nat) : Option LayoutState :=
  (beginLine job s).map (·.pushMark job code kind advance index)

def addMark (job : Job) (s : LayoutState) (code : Nat) (kind : MarkKind) (advance : Int)
    (index : Nat) : Option LayoutState := do
  let s ← pushMark job s code kind advance index
  checkWrap job s

def place (job : Job) (s : LayoutState) (c index : Nat) : Option LayoutState := do
  let s ← beginLine job s
  let s := s.noteBreak (CodePoint.isBreaking c)
  let (advance, visible) := s.textAdvance job c
  let s ← addMark job { s with penX := s.penX + s.roomBefore c } c (.glyph visible) advance index
  return s.noteBreak (s.breaking.contains c)

def newline (job : Job) (s : LayoutState) (c index : Nat) : Option LayoutState := do
  let s ← pushMark job s c .lineEnd 0 index
  commit job s s.marks.size
    (if s.table.isSome then .row else .newline (CodePoint.startsParagraph c))

def finishLine (job : Job) (s : LayoutState) (reason : LineEnd) : Option LayoutState :=
  if s.lineIsEmpty then return s else commit job s s.marks.size reason

def endRow (job : Job) (s : LayoutState) : Option LayoutState :=
  if s.table.isSome then do
    let s ← beginLine job s
    commit job s s.marks.size .row
  else return s

def nextCell (job : Job) (s : LayoutState) : Option LayoutState :=
  match s.table with
  | none => return s
  | some t => do
    let t := t.nextCell s.marks.size
    let left ← cellLeft t
    let s ← beginLine job { s with table := some t }
    return { s with penX := max s.penX left, prev := none, lastBreak := none }

def beginTable (job : Job) (s : LayoutState) (t : Table) : Option LayoutState := do
  let s ← finishLine job s (.newline false)
  return { s with table := some t }

def endTable (job : Job) (s : LayoutState) : Option LayoutState :=
  if s.table.isSome then do
    let s ← finishLine job s .row
    return { s with table := none, lineStarted := false }
  else return s

def placeImage (job : Job) (s : LayoutState) (i : ImageSetting) (index : Nat) :
    Option LayoutState :=
  (job.printer.images.get? i.index.val).elim (some s) fun image =>
    let mark := s.imageMark i image
    addMark job s CodePoint.placeholder (.image mark) mark.advance index

/-- Instructions with parameters; those that commit nothing access nothing of the line. -/
def applySetting (job : Job) (s : LayoutState) (index : Nat) : Setting → Option LayoutState
  | .length .horizontalSpace (some l) =>
    addMark job s 0 (.glyph false) (l.resolveWith s.font.face.em s.wrapWidth) index
  | .image i => placeImage job s i index
  | .beginTable border width columns => beginTable job s (s.newTable job border width columns)
  | setting => some (s.applySetting job index setting)

def apply (job : Job) (s : LayoutState) (index : Nat) : Instruction → Option LayoutState
  | .toggle t => some (s.applyToggle job t)
  | .switch .endTable => endTable job s
  | .switch w => some (s.applySwitch job w)
  | .setting setting => applySetting job s index setting

def step (job : Job) (s : LayoutState) (l : Lexeme) : Option LayoutState :=
  match l.token with
  | .text c => place job s c l.index
  | .newline c => newline job s c l.index
  | .placeholder =>
    addMark job s CodePoint.placeholder .placeholder s.placeholder.width l.index
  | .row => endRow job s
  | .cell => nextCell job s
  | .instruction i => apply job s l.index i
  | .nothing => some s

def run (job : Job) (s : LayoutState) : List Lexeme → Option LayoutState
  | [] => some s
  | l :: ls => do
    let s ← step job s l
    run job s ls

def finish (job : Job) (s : LayoutState) (total : Nat) : Option (List Line) :=
  match s.wrapped.filter fun _ => s.lineIsEmpty with
  | some w => return s.lines.toList ++ [⟨[], [.glyph (s.wrappedEnd w total)], [], []⟩]
  | none => do
    let s ← pushMark job s 0 .textEnd 0 total
    let s ← commit job s s.marks.size .text
    return s.lines.toList

/-- The lines of the code points `cs`. -/
def layoutWith (job : Job) (font : Font) (cs : List Nat) : Option (List Line) := do
  let s ← run job (LayoutState.initial job font) (lexemes cs)
  finish job s cs.length

/-! ### None of them fails -/

theorem pushMark_beginLine (job : Job) (s : LayoutState) (code : Nat) (kind : MarkKind)
    (advance : Int) (index : Nat) :
    (s.beginLine job).pushMark job code kind advance index =
      s.pushMark job code kind advance index := by
  have h : (s.beginLine job).beginLine job = s.beginLine job := by
    by_cases hs : s.lineStarted = true
    · simp only [LayoutState.beginLine, if_pos hs]
    · simp only [LayoutState.beginLine, if_neg hs, if_true]
  unfold LayoutState.pushMark
  rw [h]

theorem pushMark_eq (h : s.Coherent) (code : Nat) (kind : MarkKind) (advance : Int) (index : Nat) :
    pushMark job s code kind advance index = some (s.pushMark job code kind advance index) := by
  rw [pushMark, beginLine_eq h.table, Option.map_some, pushMark_beginLine]

theorem addMark_eq (h : s.Coherent) (code : Nat) (kind : MarkKind) (advance : Int) (index : Nat) :
    addMark job s code kind advance index = some (s.addMark job code kind advance index) := by
  rw [addMark, pushMark_eq h]
  exact checkWrap_eq (h.pushMark code kind advance index)

theorem place_eq (h : s.Coherent) (c index : Nat) :
    place job s c index = some (s.place job c index) := by
  have hbefore : (LayoutState.beforeMark job s c).Coherent :=
    (LayoutState.beforeMark_moves job s c).preserves LayoutState.Move.coherent h
  rw [place, beginLine_eq h.table]
  have hadd : ∀ visible advance, addMark job (LayoutState.beforeMark job s c) c (.glyph visible)
      advance index = some ((LayoutState.beforeMark job s c).addMark job c (.glyph visible) advance
        index) := fun visible advance => addMark_eq hbefore c (.glyph visible) advance index
  unfold LayoutState.beforeMark at hadd
  simp only [Option.bind_eq_bind, Option.bind_some, hadd]
  rfl

theorem commitAll_eq (h : s.Coherent) {reason : LineEnd} (hr : reason ≠ .wrap) :
    commit job s s.marks.size reason = some (s.commitAll job reason) :=
  commit_eq h (Nat.le_refl _) (Or.inr hr)

theorem newline_eq (h : s.Coherent) (c index : Nat) :
    newline job s c index = some (s.newline job c index) := by
  rw [newline, pushMark_eq h]
  refine commitAll_eq (h.pushMark c .lineEnd 0 index) ?_
  split <;> simp

theorem finishLine_eq (h : s.Coherent) {reason : LineEnd} (hr : reason ≠ .wrap) :
    finishLine job s reason = some (s.finishLine job reason) := by
  unfold finishLine LayoutState.finishLine
  split
  · rfl
  · exact commitAll_eq h hr

theorem endRow_eq (h : s.Coherent) : endRow job s = some (s.endRow job) := by
  unfold endRow LayoutState.endRow
  split
  · have hbegin := h.congr (LayoutState.sameLine_beginLine job s)
    rw [beginLine_eq h.table]
    exact commitAll_eq hbegin (by decide)
  · rfl

theorem nextCell_eq (h : s.Coherent) : nextCell job s = some (s.nextCell job) := by
  unfold nextCell LayoutState.nextCell
  cases ht : s.table with
  | none => rfl
  | some t =>
    have hcell := (h.table t ht).nextCell
    have hbegin : beginLine job { s with table := some (t.nextCell s.marks.size) } =
        some ({ s with table := some (t.nextCell s.marks.size) }.beginLine job) := by
      refine beginLine_eq (n := s.marks.size) fun u hu => ?_
      cases hu
      exact hcell
    simp only [cellLeft_eq hcell, hbegin, Option.bind_eq_bind, Option.bind_some]
    rfl

theorem beginTable_eq (h : s.Coherent) (t : Table) :
    beginTable job s t = some (s.beginTable job t) := by
  have hfinish : finishLine job s (.newline false) = some (s.finishLine job (.newline false)) :=
    finishLine_eq h (by decide)
  rw [beginTable, hfinish]
  rfl

theorem endTable_eq (h : s.Coherent) : endTable job s = some (s.endTable job) := by
  unfold endTable LayoutState.endTable
  split
  · have hfinish : finishLine job s .row = some (s.finishLine job .row) :=
      finishLine_eq h (by decide)
    rw [hfinish]
    rfl
  · rfl

theorem placeImage_eq (h : s.Coherent) (i : ImageSetting) (index : Nat) :
    placeImage job s i index = some (s.placeImage job i index) := by
  unfold placeImage LayoutState.placeImage
  cases job.printer.images.get? i.index.val with
  | none => rfl
  | some image => exact addMark_eq h CodePoint.placeholder (.image (s.imageMark i image)) _ index

theorem applySetting_eq (h : s.Coherent) (index : Nat) (setting : Setting) :
    applySetting job s index setting = some (s.applySetting job index setting) := by
  cases setting with
  | length target l =>
    cases target with
    | horizontalSpace =>
      cases l with
      | none => rfl
      | some l => exact addMark_eq h 0 (.glyph false) _ index
    | _ => rfl
  | image i => exact placeImage_eq h i index
  | beginTable border width columns => exact beginTable_eq h _
  | _ => rfl

theorem step_eq (h : s.Coherent) (l : Lexeme) : step job s l = some (s.step job l) := by
  obtain ⟨index, token⟩ := l
  cases token with
  | text c => exact place_eq h c index
  | newline c => exact newline_eq h c index
  | placeholder => exact addMark_eq h CodePoint.placeholder .placeholder _ index
  | row => exact endRow_eq h
  | cell => exact nextCell_eq h
  | nothing => rfl
  | instruction i =>
    cases i with
    | toggle t => rfl
    | switch w =>
      cases w with
      | endTable => exact endTable_eq h
      | _ => rfl
    | setting setting => exact applySetting_eq h index setting

theorem run_eq (h : s.Coherent) (ls : List Lexeme) : run job s ls = some (s.run job ls) := by
  induction ls generalizing s with
  | nil => rfl
  | cons l ls ih =>
    have hstep : (s.step job l).Coherent :=
      (LayoutState.step_moves h.lastBreak l).preserves LayoutState.Move.coherent h
    rw [run, step_eq h]
    exact ih hstep

theorem finish_eq (h : s.Coherent) (total : Nat) :
    finish job s total = some (s.finish job total) := by
  unfold finish LayoutState.finish
  cases s.wrapped.filter fun _ => s.lineIsEmpty with
  | some w => rfl
  | none =>
    have hmark : (s.pushMark job 0 .textEnd 0 total).Coherent := h.pushMark 0 .textEnd 0 total
    have hcommit : commit job (s.pushMark job 0 .textEnd 0 total)
        (s.pushMark job 0 .textEnd 0 total).marks.size .text =
          some ((s.pushMark job 0 .textEnd 0 total).commitAll job .text) :=
      commitAll_eq hmark (by decide)
    simp only [pushMark_eq h, hcommit, Option.bind_eq_bind, Option.bind_some]
    rfl

theorem layoutWith_eq (job : Job) (font : Font) (cs : List Nat) :
    layoutWith job font cs = some (job.layoutWith font cs) := by
  rw [layoutWith, run_eq (LayoutState.coherent_initial job font)]
  exact finish_eq (LayoutState.coherent_run job font (lexemes cs)) cs.length

end Checked

/-- **No access fails on any input.**  With the default font registered, whatever the
    bytes, the origin, the wrap width and the traversal: between any two tokens all
    positions are on the line being filled; no access that is out of range, no negative
    difference of positions and no quotient by zero keeps the checked layout from its
    result, which is the layout; and every query gives its regions. -/
theorem Printer.no_failing_access {p : Printer} (h : p.fonts.contains p.defaultFont = true)
    (markup : List UInt8) (origin : Point) (width : Int) :
    ∃ font, p.fonts.get? p.defaultFont = some font ∧
      (∀ seen rest, lexemes (Codec.decode markup) = seen ++ rest →
        ((LayoutState.initial ⟨p, origin, width⟩ font).run ⟨p, origin, width⟩ seen).Coherent) ∧
      Checked.layoutWith ⟨p, origin, width⟩ font (Codec.decode markup) =
        some (Job.layoutWith ⟨p, origin, width⟩ font (Codec.decode markup)) ∧
      ∀ {σ : Type} (t : Traversal σ) (initial : σ),
        ∃ final regions, p.query markup origin width t initial = .ok (final, regions) := by
  obtain ⟨font, hfont⟩ := (Registry.contains_iff p.fonts p.defaultFont).1 h
  refine ⟨font, hfont, ?_, ?_, ?_⟩
  · intro seen rest _
    exact LayoutState.coherent_run ⟨p, origin, width⟩ font seen
  · exact Checked.layoutWith_eq ⟨p, origin, width⟩ font (Codec.decode markup)
  · intro σ t initial
    have hlayout : (Job.mk p origin width).layout markup =
        .ok (Job.layoutWith ⟨p, origin, width⟩ font (Codec.decode markup)) :=
      Job.layout_eq hfont markup
    refine ⟨(t.lines initial (Job.layoutWith ⟨p, origin, width⟩ font (Codec.decode markup))).1,
      (t.lines initial (Job.layoutWith ⟨p, origin, width⟩ font (Codec.decode markup))).2, ?_⟩
    rw [Printer.query, hlayout]
    rfl

/-- A table that breaks off in the middle of its columns. -/
theorem Printer.no_failing_access_boxes :
    ∃ font, boxes.fonts.get? boxes.defaultFont = some font ∧
      Checked.layoutWith ⟨boxes, .zero, 30⟩ font
          (Codec.decode [0xC2, 0x9B, 0x20, 0x01, 0x00, 0xC2, 0x8E, 0xC2, 0x8F, 0x41]) =
        some (Job.layoutWith ⟨boxes, .zero, 30⟩ font
          (Codec.decode [0xC2, 0x9B, 0x20, 0x01, 0x00, 0xC2, 0x8E, 0xC2, 0x8F, 0x41])) := by
  have h : boxes.fonts.contains boxes.defaultFont = true := rfl
  obtain ⟨font, hfont, -, hlayout, -⟩ := no_failing_access h
    [0xC2, 0x9B, 0x20, 0x01, 0x00, 0xC2, 0x8E, 0xC2, 0x8F, 0x41] .zero 30
  exact ⟨font, hfont, hlayout⟩

end RichText
