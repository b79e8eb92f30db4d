/-
  RichText/Proofs/Layout/Closing.lean
  ===================================
  **When a line is committed.**

  A token commits one line at most.  It puts a mark on the line, and that may be wrapped; or
  it closes the line, which then goes as a whole (`closed?`); or the marks wait as before
  (`step_idle`).  With the end of the text these are all the moments at which lines are
  committed (`CommitsAt`), so that what is known of the state at each of them is known of
  every line of a layout (`mem_layout_cases`).
-/
import Mathlib.Data.List.Induction
import Mathlib.Data.List.Nodup
import RichText.Proofs.Layout.Pen
import RichText.Proofs.Layout.Words

namespace RichText.LayoutState

variable {job : Job} {font : Font} {cs : List Nat} {s t u : LayoutState} {l : Lexeme}
  {reason : LineEnd} {seen rest : List Lexeme}

/-! ### Tokens that close the line -/

/-- The state in which a token closes the line, and why it does. -/
def closed? (job : Job) (s : LayoutState) (l : Lexeme) : Option (LayoutState × LineEnd) :=
  match l.token with
  | .newline c =>
    some (s.pushMark job c .lineEnd 0 l.index,
      if s.table.isSome then .row else .newline (CodePoint.startsParagraph c))
  | .row => if s.table.isSome then some (s.beginLine job, .row) else none
  | .instruction (.setting (.beginTable ..)) =>
    if s.lineIsEmpty then none else some (s, .newline false)
  | .instruction (.switch .endTable) =>
    if s.table.isSome && !s.lineIsEmpty then some (s, .row) else none
  | _ => none

/-- A line is closed by a newline, at the end of a row, before a table and at its end. -/
theorem closed_cases (h : s.closed? job l = some (u, reason)) :
    (∃ c, l.token = .newline c ∧ u = s.pushMark job c .lineEnd 0 l.index ∧
      (reason = if s.table.isSome then .row else .newline (CodePoint.startsParagraph c)) ∧
      s.step job l = u.commitAll job reason) ∨
    (s.table.isSome ∧ u = s.beginLine job ∧ reason = .row ∧
      s.step job l = u.commitAll job .row) ∨
    (∃ t, (∃ border width columns, t = s.newTable job border width columns) ∧ u = s ∧
      s.lineIsEmpty = false ∧ reason = .newline false ∧
      s.step job l = { u.commitAll job (.newline false) with table := some t }) ∨
    (s.table.isSome ∧ u = s ∧ s.lineIsEmpty = false ∧ reason = .row ∧
      s.step job l = { u.commitAll job .row with table := none, lineStarted := false }) := by
  obtain ⟨index, token⟩ := l
  cases token with
  | newline c =>
    cases h
    refine Or.inl ⟨c, rfl, rfl, rfl, ?_⟩
    simp only [LayoutState.step, newline, table_pushMark]
  | row =>
    simp only [closed?] at h
    split at h
    · next htable =>
      cases h
      refine Or.inr (Or.inl ⟨htable, rfl, rfl, ?_⟩)
      simp only [LayoutState.step, endRow, htable, if_true]
    · cases h
  | instruction i =>
    cases i with
    | switch w =>
      cases w with
      | endTable =>
        simp only [closed?, Bool.and_eq_true, Bool.not_eq_true'] at h
        split at h
        · next hopen =>
          obtain ⟨htable, hempty⟩ := hopen
          cases h
          refine Or.inr (Or.inr (Or.inr ⟨htable, rfl, hempty, rfl, ?_⟩))
          simp only [LayoutState.step, apply, applySwitch, endTable, htable, if_true, finishLine,
            hempty, Bool.false_eq_true, if_false]
        · cases h
      | _ => cases h
    | setting setting =>
      cases setting with
      | beginTable border width columns =>
        simp only [closed?] at h
        split at h
        · cases h
        · next hempty =>
          have hempty : s.lineIsEmpty = false := Bool.eq_false_iff.2 hempty
          cases h
          refine Or.inr (Or.inr (Or.inl
            ⟨s.newTable job border width columns, ⟨border, width, columns, rfl⟩, rfl, hempty, rfl,
              ?_⟩))
          simp only [LayoutState.step, apply, applySetting, beginTable, finishLine, hempty,
            Bool.false_eq_true, if_false]
      | _ => cases h
    | toggle t => cases h
  | _ => cases h

/-- All marks go with a line that is closed. -/
theorem step_of_closed (h : s.closed? job l = some (u, reason)) :
    reason ≠ .wrap ∧ ∃ table started,
      s.step job l = { u.commitAll job reason with table := table, lineStarted := started } := by
  rcases closed_cases h with ⟨c, -, -, rfl, hstep⟩ | ⟨-, -, rfl, hstep⟩ |
    ⟨t, -, -, -, rfl, hstep⟩ | ⟨-, -, -, rfl, hstep⟩
  · refine ⟨?_, _, _, hstep⟩
    split <;> exact LineEnd.noConfusion
  · exact ⟨LineEnd.noConfusion, _, _, hstep⟩
  · exact ⟨LineEnd.noConfusion, _, _, hstep⟩
  · exact ⟨LineEnd.noConfusion, _, _, hstep⟩

theorem lines_of_closed (h : s.closed? job l = some (u, reason)) :
    (s.step job l).marks = #[] ∧ (s.step job l).lines = u.lines.push
      ((u.setLine job u.marks.size (u.cut u.marks.size reason) reason).line u
        job.printer.images) := by
  obtain ⟨hreason, table, started, hstep⟩ := step_of_closed h
  rw [hstep]
  exact ⟨(commitAll_empty job u hreason).1, (commit_frame job u u.marks.size reason).2.1⟩

/-- What waits on the line that is closed is what waited before, or a newline has come to it. -/
theorem marks_of_closed (h : s.closed? job l = some (u, reason)) :
    SameStyle s u ∧ u.lines = s.lines ∧ u.table = s.table ∧ (u.marks = s.marks ∨
      ∃ c m, l.token = .newline c ∧ u.marks.toList = s.marks.toList ++ [m] ∧
        m.index = l.index) := by
  rcases closed_cases h with ⟨c, hnewline, rfl, -⟩ | ⟨-, rfl, -⟩ | ⟨-, -, rfl, -⟩ | ⟨-, rfl, -⟩
  · obtain ⟨hlines, -, -, -, htable, -⟩ := pushMark_frame job s c .lineEnd 0 l.index
    exact ⟨sameStyle_pushMark job s c .lineEnd 0 l.index, hlines, htable,
      Or.inr ⟨c, _, hnewline, toList_pushMark job s c .lineEnd 0 l.index, rfl⟩⟩
  · have hline := sameLine_beginLine job s
    exact ⟨sameStyle_beginLine job s, hline.lines, hline.table, Or.inl hline.marks⟩
  · exact ⟨.refl _, rfl, rfl, Or.inl rfl⟩
  · exact ⟨.refl _, rfl, rfl, Or.inl rfl⟩

/-- A token with a mark commits no line before that is there. -/
theorem lines_marked (hmark : s.marked? job l = some u) :
    u.lines = s.lines ∧ u.table = s.table := by
  obtain ⟨v, code, kind, advance, p, hv, -, rfl, -⟩ := marked_cases hmark
  obtain ⟨hlines, -, -, -, htable, -⟩ := pushMark_frame job v code kind advance l.index
  rw [hlines, htable]
  rcases hv with rfl | ⟨rfl, -⟩
  · exact ⟨rfl, rfl⟩
  · obtain ⟨-, hlines, -, -, htable⟩ := beforeMark_frame job s code
    exact ⟨hlines, htable⟩

/-- A token with a mark puts that behind the others. -/
theorem toList_marked (hmark : s.marked? job l = some u) :
    ∃ m, u.marks.toList = s.marks.toList ++ [m] ∧ m.index = l.index := by
  obtain ⟨v, code, kind, advance, p, hv, -, rfl, -⟩ := marked_cases hmark
  refine ⟨newMark job v code kind advance l.index, ?_, rfl⟩
  rw [toList_pushMark]
  rcases hv with rfl | ⟨rfl, -⟩
  · rfl
  · rw [(beforeMark_frame job s code).1]

/-- Before a mark the end of the line may have been noted as a place for a break. -/
theorem lastBreak_marked (hmark : s.marked? job l = some u) :
    u.lastBreak = s.lastBreak ∨ u.lastBreak = some s.marks.size := by
  obtain ⟨v, code, kind, advance, p, hv, -, rfl, -⟩ := marked_cases hmark
  rw [(pushMark_frame job v code kind advance l.index).2.1]
  rcases hv with rfl | ⟨rfl, -⟩
  · exact Or.inl rfl
  · have hline := sameLine_beginLine job s
    change ((s.beginLine job).noteBreak (CodePoint.isBreaking code)).lastBreak = _ ∨
      ((s.beginLine job).noteBreak (CodePoint.isBreaking code)).lastBreak = _
    cases CodePoint.isBreaking code with
    | true => exact Or.inr (congrArg (fun ms : Array Mark => some ms.size) hline.marks)
    | false => exact Or.inl hline.lastBreak

/-! ### Tokens that leave the marks where they are -/

/-- What a token does that neither puts a mark on the line nor closes it: in a table it moves
    to another cell or widens one, on a line without anything it begins a table or ends it, and
    else the line is as it was. -/
inductive IdleStep (job : Job) (s : LayoutState) : LayoutState → Prop
  | quiet {t : LayoutState} (hquiet : Quiet s t) (htable : t.table = s.table) : IdleStep job s t
  | cell : IdleStep job s (s.nextCell job)
  | span (columns : Nat) (align : TextAlign) :
      IdleStep job s { s with table := s.table.map (·.span columns align) }
  | beginTable (hempty : s.lineIsEmpty = true) (border : Bool) (width : Option Length)
      (columns : List ColumnSetting) :
      IdleStep job s { s with table := some (s.newTable job border width columns) }
  | endTable (hempty : s.lineIsEmpty = true) :
      IdleStep job s { s with table := none, lineStarted := false }

theorem IdleStep.refl (job : Job) (s : LayoutState) : IdleStep job s s := .quiet {} rfl

theorem idleStep_switchFont (job : Job) (s : LayoutState) (format : Format) :
    IdleStep job s ({ s with format := format }.switchFont job) := by
  obtain ⟨-, -, htable, -⟩ := switchFont_frame job { s with format := format }
  exact .quiet (Quiet.trans {} (quiet_switchFont job { s with format := format })) htable

theorem idleStep_applySetting {index : Nat} {setting : Setting}
    (hmark : s.marked? job ⟨index, .instruction (.setting setting)⟩ = none)
    (hclose : s.closed? job ⟨index, .instruction (.setting setting)⟩ = none) :
    IdleStep job s (s.applySetting job index setting) := by
  cases setting with
  | font id => exact idleStep_switchFont job s _
  | image i =>
    simp only [marked?, Option.map_eq_none_iff] at hmark
    simp only [LayoutState.applySetting, placeImage, hmark, Option.elim_none]
    exact .refl job s
  | length target l =>
    cases target with
    | horizontalSpace =>
      cases l with
      | none => exact .refl job s
      | some l => cases hmark
    | verticalSpace =>
      cases l with
      | none => exact .refl job s
      | some l =>
        simp only [LayoutState.applySetting, applyLength, Option.elim_some, addVerticalSpace]
        split <;> exact .quiet {} rfl
    | _ => exact .quiet {} rfl
  | beginTable border width columns =>
    simp only [closed?] at hclose
    split at hclose
    · next hempty =>
      simp only [LayoutState.applySetting, LayoutState.beginTable, finishLine, hempty, if_true]
      exact .beginTable hempty border width columns
    · cases hclose
  | columnSpan columns align => exact .span columns.val align
  | addTabStop id position => cases position <;> exact .quiet {} rfl
  | rowSpan rows => exact .refl job s
  | _ => exact .quiet {} rfl

theorem idleStep_applySwitch {index : Nat} {w : Switch}
    (hclose : s.closed? job ⟨index, .instruction (.switch w)⟩ = none) :
    IdleStep job s (s.applySwitch job w) := by
  cases w with
  | resetFormatting => exact idleStep_switchFont job s _
  | script kind => exact idleStep_switchFont job s _
  | endTable =>
    simp only [closed?, Bool.and_eq_true, Bool.not_eq_true'] at hclose
    simp only [LayoutState.applySwitch, LayoutState.endTable]
    split
    · next htable =>
      cases hempty : s.lineIsEmpty with
      | true =>
        simp only [finishLine, hempty, if_true]
        exact .endTable hempty
      | false =>
        rw [if_pos ⟨htable, hempty⟩] at hclose
        cases hclose
    · exact .refl job s
  | _ => exact .quiet {} rfl

/-- A token without a mark that closes no line does nothing else. -/
theorem step_idle (hmark : s.marked? job l = none) (hclose : s.closed? job l = none) :
    IdleStep job s (s.step job l) := by
  obtain ⟨index, token⟩ := l
  cases token with
  | text c => cases hmark
  | newline c => cases hclose
  | placeholder => cases hmark
  | row =>
    simp only [closed?] at hclose
    split at hclose
    · cases hclose
    · next htable =>
      simp only [LayoutState.step, endRow, htable]
      exact .refl job s
  | cell => exact .cell
  | nothing => exact .refl job s
  | instruction i =>
    cases i with
    | toggle t =>
      cases t with
      | startSelection => exact .quiet {} rfl
      | endSelection => exact .quiet {} rfl
      | _ => exact idleStep_switchFont job s _
    | switch w => exact idleStep_applySwitch hclose
    | setting setting => exact idleStep_applySetting hmark hclose

/-- The marks wait as before, and no place for a break has been noted. -/
structure Waits (s t : LayoutState) : Prop where
  marks : t.marks = s.marks := by rfl
  lines : t.lines = s.lines := by rfl
  lastBreak : t.lastBreak = s.lastBreak ∨ t.lastBreak = none := by exact Or.inl rfl

/-- What is true of the place noted stays true. -/
theorem Waits.noted (h : Waits s t) {p : Nat → Prop} (hs : ∀ q, s.lastBreak = some q → p q) :
    ∀ q, t.lastBreak = some q → p q := by
  intro q hq
  rcases h.lastBreak with hsame | hnone
  · exact hs q (hsame ▸ hq)
  · rw [hnone] at hq
    cases hq

theorem IdleStep.waits (h : IdleStep job s t) : Waits s t := by
  cases h with
  | quiet hquiet => exact ⟨hquiet.marks, hquiet.lines, Or.inl hquiet.lastBreak⟩
  | cell =>
    obtain ⟨hmarks, hlines, hbreak, -⟩ := nextCell_frame job s
    refine ⟨hmarks, hlines, ?_⟩
    rw [hbreak]
    split
    · exact Or.inr rfl
    · exact Or.inl rfl
  | span => exact {}
  | beginTable => exact {}
  | endTable => exact {}

/-- **What a token keeps.**  It may put a mark on the line, which then fits or is wrapped, and
    note the place behind it for a break; or it closes the line; or the marks wait. -/
theorem step_preserves {P : LayoutState → Prop}
    (hfits : ∀ u, s.marked? job l = some u → ¬ u.Overflows job → P u)
    (hwrap : ∀ u, s.marked? job l = some u → u.Overflows job → P (u.commit job u.breakAt .wrap))
    (hnote : ∀ t, P t → P (t.noteBreak true))
    (hclose : ∀ u reason, s.closed? job l = some (u, reason) → P (s.step job l))
    (hidle : IdleStep job s (s.step job l) → P (s.step job l)) : P (s.step job l) := by
  cases hmark : s.marked? job l with
  | some u =>
    have hchecked : P (u.checkWrap job) := by
      by_cases hover : u.Overflows job
      · rw [checkWrap_of_overflows hover]
        exact hwrap u hmark hover
      · rw [checkWrap_of_not_overflows hover]
        exact hfits u hmark hover
    obtain ⟨p, hstep⟩ := step_of_marked hmark
    rw [hstep]
    cases p with
    | true => exact hnote _ hchecked
    | false => exact hchecked
  | none =>
    cases hclosed : s.closed? job l with
    | some closed => exact hclose closed.1 closed.2 hclosed
    | none => exact hidle (step_idle hmark hclosed)

/-! ### Moments of a layout -/

/-- In the layout of `cs` a line is committed in the state `u`, with the first `content` marks
    as its content: where it is wrapped, where a token closes it, or at the end of the text. -/
inductive CommitsAt (job : Job) (font : Font) (cs : List Nat) :
    LayoutState → Nat → LineEnd → Prop
  | wrap {u : LayoutState} (h : WrapsAt job font cs u) : CommitsAt job font cs u u.breakAt .wrap
  | close {seen rest : List Lexeme} {l : Lexeme} {u : LayoutState} {reason : LineEnd}
      (h : lexemes cs = seen ++ l :: rest)
      (hu : ((initial job font).run job seen).closed? job l = some (u, reason)) :
      CommitsAt job font cs u u.marks.size reason
  | text {s u : LayoutState} (hs : s = (initial job font).run job (lexemes cs))
      (h : (s.wrapped.filter fun _ => s.lineIsEmpty) = none)
      (hu : u = s.pushMark job 0 .textEnd 0 cs.length) :
      CommitsAt job font cs u u.marks.size .text

/-- The line that is committed. -/
def committedLine (job : Job) (u : LayoutState) (content : Nat) (reason : LineEnd) : Line :=
  (u.setLine job content (u.cut content reason) reason).line u job.printer.images

theorem run_concat (job : Job) (s : LayoutState) (seen : List Lexeme) (l : Lexeme) :
    s.run job (seen ++ [l]) = (s.run job seen).step job l := List.foldl_append ..

/-- What holds after some first tokens, and is kept by each token that follows, holds between
    any two tokens from there on. -/
theorem run_induction_from {P : LayoutState → Prop} (early : List Lexeme)
    (hstart : P ((initial job font).run job early))
    (hstep : ∀ seen l rest, lexemes cs = early ++ seen ++ l :: rest →
      P ((initial job font).run job (early ++ seen)) →
        P (((initial job font).run job (early ++ seen)).step job l))
    {seen rest : List Lexeme} (hsplit : lexemes cs = early ++ seen ++ rest) :
    P ((initial job font).run job (early ++ seen)) := by
  induction seen using List.reverseRecOn generalizing rest with
  | nil =>
    rw [List.append_nil]
    exact hstart
  | append_singleton seen l ih =>
    have hsplit' : lexemes cs = early ++ seen ++ l :: rest := by
      rw [hsplit]
      simp only [List.append_assoc, List.singleton_append]
    have hnext := hstep seen l rest hsplit' (ih hsplit')
    rw [← List.append_assoc, run_concat]
    exact hnext

/-- What holds at the start, and is kept by each token, holds between any two tokens. -/
theorem run_induction {P : LayoutState → Prop} (hstart : P (initial job font))
    (hstep : ∀ seen l rest, lexemes cs = seen ++ l :: rest →
      P ((initial job font).run job seen) → P (((initial job font).run job seen).step job l))
    (hsplit : lexemes cs = seen ++ rest) : P ((initial job font).run job seen) :=
  run_induction_from [] hstart hstep hsplit

/-- The lines so far are those of the moments so far. -/
theorem committed_of_mem_run (hsplit : lexemes cs = seen ++ rest) {line : Line}
    (hline : line ∈ ((initial job font).run job seen).lines.toList) :
    ∃ u content reason, CommitsAt job font cs u content reason ∧
      line = u.committedLine job content reason := by
  refine run_induction (P := fun s => ∀ line ∈ s.lines.toList,
    ∃ u content reason, CommitsAt job font cs u content reason ∧
      line = u.committedLine job content reason) (fun _ h => nomatch h) ?_ hsplit line hline
  intro seen l rest hsplit ih line hline
  -- One line is added at most, at a moment of its own.
  have hpush : ∀ {u : LayoutState} {content : Nat} {reason : LineEnd},
      CommitsAt job font cs u content reason →
      u.lines = ((initial job font).run job seen).lines →
      line ∈ (u.lines.push (u.committedLine job content reason)).toList →
      ∃ u content reason, CommitsAt job font cs u content reason ∧
        line = u.committedLine job content reason := by
    intro u content reason hcommits hlines hmem
    rw [Array.toList_push, hlines] at hmem
    rcases List.mem_append.1 hmem with hmem | hmem
    · exact ih line hmem
    · exact ⟨u, content, reason, hcommits, List.mem_singleton.1 hmem⟩
  refine step_preserves
    (P := fun t => line ∈ t.lines.toList → ∃ u content reason, CommitsAt job font cs u content
      reason ∧ line = u.committedLine job content reason) ?_ ?_ ?_ ?_ ?_ hline
  · intro u hmark _ hline
    exact ih line ((lines_marked hmark).1 ▸ hline)
  · intro u hmark hover hline
    rw [(commit_frame job _ _ .wrap).2.1] at hline
    exact hpush (.wrap ⟨seen, l, rest, hsplit, hmark, hover⟩) (lines_marked hmark).1 hline
  · exact fun t ht => ht
  · intro u reason hclose hline
    rw [(lines_of_closed hclose).2] at hline
    exact hpush (.close hsplit hclose) (marks_of_closed hclose).2.1 hline
  · intro hidle hline
    exact ih line (hidle.waits.lines ▸ hline)

/-- Every line of a layout has been committed at one of its moments, or is the last one and holds
    the end of the text alone, where a wrapped line took all that was there. -/
theorem mem_layout_ends {line : Line} (hline : line ∈ job.layoutWith font cs) :
    (∃ u content reason, CommitsAt job font cs u content reason ∧
      line = u.committedLine job content reason) ∨
    ∃ s w, s = (initial job font).run job (lexemes cs) ∧ s.wrapped = some w ∧
      job.layoutWith font cs = s.lines.toList ++ [line] ∧
      line = ⟨[], [.glyph (s.wrappedEnd w cs.length)], [], []⟩ := by
  have hrun : ∀ line ∈ ((initial job font).run job (lexemes cs)).lines.toList,
      ∃ u content reason, CommitsAt job font cs u content reason ∧
        line = u.committedLine job content reason :=
    fun _ => committed_of_mem_run (List.append_nil (lexemes cs)).symm
  simp only [Job.layoutWith, finish] at hline ⊢
  split at hline
  · next w hwrapped =>
    rcases List.mem_append.1 hline with hline | hline
    · exact Or.inl (hrun line hline)
    · obtain rfl := List.mem_singleton.1 hline
      exact Or.inr ⟨_, w, rfl, (Option.filter_eq_some_iff.1 hwrapped).1, rfl, rfl⟩
  · next hnone =>
    have hlines := (commit_frame job (((initial job font).run job (lexemes cs)).pushMark job 0
      .textEnd 0 cs.length) (((initial job font).run job (lexemes cs)).pushMark job 0 .textEnd 0
      cs.length).marks.size .text).2.1
    rw [commitAll, hlines, Array.toList_push, (pushMark_frame job _ 0 .textEnd 0 cs.length).1]
      at hline
    rcases List.mem_append.1 hline with hline | hline
    · exact Or.inl (hrun line hline)
    · exact Or.inl ⟨_, _, _, .text rfl hnone rfl, List.mem_singleton.1 hline⟩

/-- Every line of a layout has been committed at one of its moments, or holds the end of the
    text alone. -/
theorem mem_layout_cases {line : Line} (hline : line ∈ job.layoutWith font cs) :
    (∃ u content reason, CommitsAt job font cs u content reason ∧
      line = u.committedLine job content reason) ∨
    ∃ g, g.index = cs.length ∧ line = ⟨[], [.glyph g], [], []⟩ :=
  (mem_layout_ends hline).imp_right fun ⟨_, _, _, _, _, hline⟩ => ⟨_, rfl, hline⟩

/-- The line that is committed comes right after those that were there before. -/
theorem CommitsAt.lines_prefix {content : Nat} (h : CommitsAt job font cs u content reason) :
    u.lines.toList ++ [u.committedLine job content reason] <+: job.layoutWith font cs := by
  -- After a token the lines are among those of the layout.
  have hstep : ∀ {seen : List Lexeme} {l : Lexeme} {rest : List Lexeme},
      lexemes cs = seen ++ l :: rest →
      (((initial job font).run job seen).step job l).lines =
        u.lines.push (u.committedLine job content reason) →
      u.lines.toList ++ [u.committedLine job content reason] <+: job.layoutWith font cs := by
    intro seen l rest hsplit hlines
    have hsplit : lexemes cs = (seen ++ [l]) ++ rest := by
      rw [hsplit, List.append_assoc, List.singleton_append]
    have hprefix := lines_prefix_layout job font hsplit
    rwa [run_concat, hlines, Array.toList_push] at hprefix
  cases h with
  | wrap hwraps =>
    obtain ⟨seen, l, rest, hsplit, hmark, hover⟩ := hwraps
    obtain ⟨p, hp⟩ := step_of_marked hmark
    refine hstep hsplit ?_
    rw [hp, (noteBreak_frame _ p).2.1, checkWrap_of_overflows hover]
    exact (commit_frame job u u.breakAt .wrap).2.1
  | close hsplit hclose => exact hstep hsplit (lines_of_closed hclose).2
  | text hs hnone hu =>
    subst hs hu
    simp only [Job.layoutWith, finish, hnone]
    rw [commitAll, (commit_frame job _ _ .text).2.1, Array.toList_push]
    exact List.prefix_rfl

/-- The line that is committed is one of the lines of the layout. -/
theorem CommitsAt.line_mem {content : Nat} (h : CommitsAt job font cs u content reason) :
    u.committedLine job content reason ∈ job.layoutWith font cs :=
  h.lines_prefix.subset (List.mem_append_cons_self)

theorem CommitsAt.getElem? {content : Nat} (h : CommitsAt job font cs u content reason) :
    (job.layoutWith font cs)[u.lines.size]? = some (u.committedLine job content reason) := by
  obtain ⟨below, hlines⟩ := h.lines_prefix
  rw [← hlines, List.append_assoc, List.getElem?_append_right (Nat.le_of_eq Array.length_toList),
    Array.length_toList, Nat.sub_self]
  rfl

/-- What waits when a line is committed is what waited before the token of that moment, but
    for the mark of the token or of the end. -/
theorem CommitsAt.marks_cases {content : Nat} (h : CommitsAt job font cs u content reason) :
    (∃ seen l rest, lexemes cs = seen ++ l :: rest ∧
      ((initial job font).run job seen).marked? job l = some u) ∨
    ∃ seen rest, lexemes cs = seen ++ rest ∧
      SameStyle ((initial job font).run job seen) u ∧
      u.lines = ((initial job font).run job seen).lines ∧
      u.table = ((initial job font).run job seen).table ∧
      (u.marks = ((initial job font).run job seen).marks ∨
        ∃ m, u.marks.toList = ((initial job font).run job seen).marks.toList ++ [m] ∧
          ∀ k ∈ lexemes cs, k.index = m.index → ∃ c, k.token = .newline c) := by
  cases h with
  | wrap hwraps =>
    obtain ⟨seen, l, rest, hsplit, hmark, -⟩ := hwraps
    exact Or.inl ⟨seen, l, rest, hsplit, hmark⟩
  | @close seen rest l _ _ hsplit hclose =>
    obtain ⟨hstyle, hlines, htable, hmarks | ⟨c, m, hnewline, hmarks, hm⟩⟩ :=
      marks_of_closed hclose
    · exact Or.inr ⟨seen, l :: rest, hsplit, hstyle, hlines, htable, Or.inl hmarks⟩
    · refine Or.inr ⟨seen, l :: rest, hsplit, hstyle, hlines, htable, Or.inr ⟨m, hmarks, ?_⟩⟩
      intro k hk hindex
      have hl : l ∈ lexemes cs := by
        rw [hsplit]
        exact List.mem_append_cons_self
      have hnodup := (pairwise_lexemes cs).imp (S := fun l k : Lexeme => l.index ≠ k.index)
        fun hlt => Nat.ne_of_lt hlt
      obtain rfl := List.inj_on_of_nodup_map (f := Lexeme.index) (List.pairwise_map.2 hnodup) hk hl
        (hindex.trans hm)
      exact ⟨c, hnewline⟩
  | text hs hnone hu =>
    subst hs hu
    obtain ⟨hlines, -, -, -, htable, -⟩ := pushMark_frame job
      ((initial job font).run job (lexemes cs)) 0 .textEnd 0 cs.length
    refine Or.inr ⟨lexemes cs, [], (List.append_nil _).symm, sameStyle_pushMark job _ 0 .textEnd 0
      cs.length, hlines, htable, Or.inr ⟨_, toList_pushMark job _ 0 .textEnd 0 cs.length, ?_⟩⟩
    intro k hk hindex
    exact absurd hindex (Nat.ne_of_lt (index_lt_of_mem_lexemes hk))

theorem CommitsAt.registered {content : Nat} (h : CommitsAt job font cs u content reason)
    (hfont : job.printer.fonts.get? job.printer.defaultFont = some font) : u.Registered job := by
  have hinitial : (initial job font).Registered job := ⟨_, hfont⟩
  rcases h.marks_cases with ⟨seen, l, rest, -, hmark⟩ | ⟨seen, rest, -, hstyle, -⟩
  · exact (hinitial.run seen).congr (sameStyle_marked hmark).font
  · exact (hinitial.run seen).congr hstyle.font

/-! ### Places on the line -/

/-- A place in a list that has been made longer by one is its end or a place of the list. -/
theorem split_concat {α : Type} {as before after : List α} {a b : α}
    (h : as ++ [a] = before ++ b :: after) :
    (before = as ∧ b = a ∧ after = []) ∨ ∃ init, as = before ++ b :: init ∧ after = init ++ [a] := by
  rcases List.eq_nil_or_concat after with rfl | ⟨init, last, rfl⟩
  · obtain ⟨rfl, hab⟩ := List.append_inj' h rfl
    exact Or.inl ⟨rfl, (List.singleton_inj.1 hab).symm, rfl⟩
  · have hsplit : as ++ [a] = (before ++ b :: init) ++ [last] := by
      rw [h]
      simp only [List.append_assoc, List.cons_append, List.concat_eq_append]
    obtain ⟨has, hlast⟩ := List.append_inj' hsplit rfl
    refine Or.inr ⟨init, has, ?_⟩
    rw [List.concat_eq_append, ← List.singleton_inj.1 hlast]

/-- A mark that is kept, and shifted with the others, stands behind those that go. -/
theorem split_shifted_drop {ms before after : List Mark} {n : Mark} {k : Nat} {dx : Int}
    (h : (ms.drop k).map (Mark.shift dx) = before ++ n :: after) :
    ∃ early m late, ms.drop k = early ++ m :: late ∧ ms = (ms.take k ++ early) ++ m :: late ∧
      before = early.map (Mark.shift dx) ∧ n = m.shift dx ∧ after = late.map (Mark.shift dx) := by
  obtain ⟨early, tail, hdrop, rfl, htail⟩ := List.map_eq_append_iff.1 h
  obtain ⟨m, late, rfl, rfl, rfl⟩ := List.map_eq_cons_iff.1 htail
  refine ⟨early, m, late, hdrop, ?_, rfl, rfl, rfl⟩
  rw [List.append_assoc, ← hdrop, List.take_append_drop]

/-- Spaces alone are taken from the end of the content. -/
theorem lt_trimSpaces {before after : List Mark} {m : Mark}
    (hmarks : s.marks.toList = before ++ m :: after) (hm : CodePoint.isSpace m.code = false)
    {n : Nat} (hn : before.length < n) : before.length < trimSpaces s.marks n := by
  induction n with
  | zero => exact absurd hn (Nat.not_lt_zero _)
  | succ n ih =>
    rw [trimSpaces]
    split
    · next hspace =>
      rcases Nat.lt_or_eq_of_le (Nat.le_of_lt_succ hn) with hlt | rfl
      · exact ih hlt
      · rw [← Array.getElem?_toList, hmarks, List.getElem?_append_right (Nat.le_refl _),
          Nat.sub_self, List.getElem?_cons_zero, Option.any_some, hm] at hspace
        cases hspace
    · exact hn

/-! ### Positions -/

/-- What waits on the line comes from the tokens taken so far. -/
theorem exists_of_mem_run {m : Mark}
    (hm : m ∈ ((initial job font).run job seen).marks.toList) : ∃ l ∈ seen, l.index = m.index := by
  have hmoves : Moves job (initial job font) _ ((initial job font).run job seen) :=
    run_moves (breakWithin_initial job font) seen
  obtain ⟨reported, hsigns, -⟩ := hmoves.accounted (accountedBy_initial .signs job font)
  have hsign : m.sign ∈ [] ++ seen.flatMap (Lexeme.signs job.printer.images) := by
    rw [hsigns]
    exact List.mem_append_right _ (List.mem_map_of_mem hm)
  obtain ⟨l, hl, hmem⟩ := List.mem_flatMap.1 hsign
  exact ⟨l, hl, (index_of_mem_signs hmem).1.symm⟩

theorem index_lt_of_mem_run (hsplit : lexemes cs = seen ++ l :: rest) {m : Mark}
    (hm : m ∈ ((initial job font).run job seen).marks.toList) : m.index < l.index := by
  obtain ⟨k, hk, hindex⟩ := exists_of_mem_run hm
  have hpairs := pairwise_lexemes cs
  rw [hsplit, List.pairwise_append] at hpairs
  exact hindex ▸ hpairs.2.2 k hk l List.mem_cons_self

/-- What waits on the line stands in the order of the tokens. -/
theorem pairwise_run (job : Job) (font : Font) (hsplit : lexemes cs = seen ++ rest) :
    (((initial job font).run job seen).marks.toList.map (·.index)).Pairwise (· < ·) := by
  have hmoves : Moves job (initial job font) _ ((initial job font).run job seen) :=
    run_moves (breakWithin_initial job font) seen
  obtain ⟨reported, hsigns, -⟩ := hmoves.accounted (accountedBy_initial .signs job font)
  have hpairs := pairwise_signsOf job.printer.images cs
  rw [List.nil_append] at hsigns
  rw [signsOf, hsplit, List.flatMap_append, hsigns, List.pairwise_append, List.pairwise_append,
    List.pairwise_map] at hpairs
  exact List.pairwise_map.2 hpairs.1.2.1

/-- A token stands at one place only. -/
theorem split_unique {seen' rest' : List Lexeme} (hsplit : lexemes cs = seen ++ l :: rest)
    {k : Lexeme} (hsplit' : lexemes cs = seen' ++ k :: rest') (hindex : k.index = l.index) :
    seen' = seen ∧ k = l ∧ rest' = rest := by
  have hpairs := pairwise_lexemes cs
  have hinside : ∀ {early late : List Lexeme} {x y : Lexeme},
      lexemes cs = early ++ x :: late → y ∈ late → x.index ≠ y.index := by
    intro early late x y h hy
    rw [h, List.pairwise_append] at hpairs
    exact Nat.ne_of_lt (List.rel_of_pairwise_cons hpairs.2.1 hy)
  rcases List.append_eq_append_iff.1 (hsplit.symm.trans hsplit') with
    ⟨mid, rfl, hmid⟩ | ⟨mid, rfl, hmid⟩
  · cases mid with
    | nil =>
      obtain ⟨rfl, rfl⟩ := List.cons_eq_cons.1 hmid
      exact ⟨List.append_nil _, rfl, rfl⟩
    | cons x mid =>
      obtain ⟨rfl, rfl⟩ := List.cons_eq_cons.1 hmid
      exact absurd hindex.symm
        (hinside hsplit (List.mem_append_cons_self))
  · cases mid with
    | nil =>
      obtain ⟨rfl, rfl⟩ := List.cons_eq_cons.1 hmid
      exact ⟨(List.append_nil _).symm, rfl, rfl⟩
    | cons x mid =>
      obtain ⟨rfl, rfl⟩ := List.cons_eq_cons.1 hmid
      exact absurd hindex
        (hinside hsplit' (List.mem_append_cons_self))

/-- A token of a greater position stands behind another. -/
theorem split_after {seen' rest' : List Lexeme} (hsplit : lexemes cs = seen ++ l :: rest)
    {k : Lexeme} (hsplit' : lexemes cs = seen' ++ k :: rest') (hlt : l.index < k.index) :
    ∃ mid, seen' = seen ++ l :: mid ∧ rest = mid ++ k :: rest' := by
  have hpairs := pairwise_lexemes cs
  rcases List.append_eq_append_iff.1 (hsplit.symm.trans hsplit') with
    ⟨mid, rfl, hmid⟩ | ⟨mid, rfl, hmid⟩
  · cases mid with
    | nil =>
      obtain ⟨rfl, -⟩ := List.cons_eq_cons.1 hmid
      exact absurd hlt (Nat.lt_irrefl _)
    | cons x mid =>
      obtain ⟨rfl, rfl⟩ := List.cons_eq_cons.1 hmid
      exact ⟨mid, rfl, rfl⟩
  · cases mid with
    | nil =>
      obtain ⟨rfl, -⟩ := List.cons_eq_cons.1 hmid
      exact absurd hlt (Nat.lt_irrefl _)
    | cons x mid =>
      obtain ⟨rfl, -⟩ := List.cons_eq_cons.1 hmid
      rw [hsplit, List.pairwise_append] at hpairs
      have hgt := hpairs.2.2 k (List.mem_append_cons_self) l List.mem_cons_self
      omega

/-- What a token puts on the line is reported on one of the lines. -/
theorem exists_line_of_mem_signs (job : Job) (font : Font) {σ : Sign}
    (h : σ ∈ signsOf job.printer.images cs) :
    ∃ line ∈ job.layoutWith font cs, σ.index ∈ line.events.map (·.index) := by
  obtain ⟨before, last, hevents, hreports, -⟩ :=
    finish_events job (accounted_run job font cs) cs.length
  have hindex : σ.index ∈ (events (job.layoutWith font cs)).map (·.index) := by
    rw [Job.layoutWith, hevents, List.map_append, indices_of_reports hreports]
    exact List.mem_append_left _ (List.mem_map_of_mem h)
  rw [events, List.map_flatMap] at hindex
  exact List.mem_flatMap.1 hindex

/-- On one line a position has one event. -/
theorem event_unique {line : Line} (hline : line ∈ job.layoutWith font cs) {g e : Glyph}
    (hg : g ∈ line.events) (he : e ∈ line.events) (hindex : g.index = e.index) : g = e := by
  have hpairs := job.pairwise_layoutWith font cs
  rw [events, List.map_flatMap, List.pairwise_flatMap] at hpairs
  have hnodup : (line.events.map (·.index)).Nodup := (hpairs.1 line hline).imp Nat.ne_of_lt
  exact List.inj_on_of_nodup_map hnodup hg he hindex

/-- A position is on one line only. -/
theorem place_unique {line k : Line} {m n i : Nat}
    (hm : (job.layoutWith font cs)[m]? = some line) (hn : (job.layoutWith font cs)[n]? = some k)
    (hi : i ∈ line.positions) (hk : i ∈ k.positions) : m = n := by
  have hpairs := job.pairwise_layoutWith font cs
  rw [events, List.map_flatMap, List.pairwise_flatMap] at hpairs
  have hapart := List.pairwise_iff_getElem.1 hpairs.2
  obtain ⟨hmlt, rfl⟩ := List.getElem?_eq_some_iff.1 hm
  obtain ⟨hnlt, rfl⟩ := List.getElem?_eq_some_iff.1 hn
  rcases Nat.lt_trichotomy m n with hlt | heq | hgt
  · exact absurd (hapart m n hmlt hnlt hlt i hi i hk) (Nat.lt_irrefl i)
  · exact heq
  · exact absurd (hapart n m hnlt hmlt hgt i hk i hi) (Nat.lt_irrefl i)

theorem CommitsAt.content_cases {content : Nat} (h : CommitsAt job font cs u content reason) :
    reason = .wrap ∨ content = u.marks.size := by
  cases h with
  | wrap => exact Or.inl rfl
  | close => exact Or.inr rfl
  | text => exact Or.inr rfl

theorem CommitsAt.content_le {content : Nat} (h : CommitsAt job font cs u content reason) :
    content ≤ u.marks.size := by
  cases h with
  | wrap h => exact breakAt_le h.breakWithin
  | close => exact Nat.le_refl _
  | text => exact Nat.le_refl _

/-- A line reports the marks that it takes, in their order. -/
theorem CommitsAt.indices {content : Nat} (h : CommitsAt job font cs u content reason) :
    (u.committedLine job content reason).events.map (·.index) =
      (u.marks.toList.take (u.cut content reason)).map (·.index) := by
  have hreports : List.Forall₂ Reports _ (u.committedLine job content reason).events :=
    reports_commit h.content_cases
  refine (indices_of_reports hreports).trans ?_
  rw [List.map_map]
  rfl

end RichText.LayoutState
