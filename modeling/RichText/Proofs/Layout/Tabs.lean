/-
  RichText/Proofs/Layout/Tabs.lean
  ================================
  **Where tabs end.**

  A tab takes the room up to a tab stop or to a multiple of the tab width, both seen from the
  origin (`LayoutState.tabTarget`).  There it ends if it is reported on the line that was being
  filled when it was read.  Where that line is wrapped before it, the tab keeps its advance and
  is moved with the other marks that are carried over (`LayoutState.Carries`); this happens to
  it once at most.
-/
import RichText.Proofs.Layout.Closing

namespace RichText

open CodePoint (tab)

/-! ### Ragged lines -/

/-- Whether a token opens no table, moves no letters aside, and aligns lines to the left or
    not at all. -/
def Token.keepsRagged : Token → Bool
  | .instruction (.setting (.beginTable _ _ _)) => false
  | .instruction (.setting (.letterOffset _ _)) => false
  | .instruction (.switch (.align a)) => a = .left
  | .instruction (.switch (.justify on)) => !on
  | _ => true

/-- Where nothing is set lines are aligned to the left and not justified. -/
def Job.Ragged (job : Job) : Prop :=
  ∀ id font, job.printer.fonts.get? id = some font →
    font.style.align = .left ∧ font.style.justify = false

/-- No alignment but that to the left, no justification and no offset is set. -/
structure Format.Ragged (f : Format) : Prop where
  align : f.align.getD .left = .left
  justify : f.justify.getD false = false
  letterOffset : f.letterOffsetX = none

namespace LayoutState

variable {job : Job} {font : Font} {cs : List Nat} {s t u : LayoutState} {l : Lexeme}
  {seen rest : List Lexeme} {content : Nat} {reason : LineEnd} {m n : Mark} {k i : Nat}

/-- The formatting leaves lines ragged, and no table is open. -/
structure Ragged (s : LayoutState) : Prop where
  format : s.format.Ragged
  table : s.table = none

theorem ragged_initial (job : Job) (font : Font) : (initial job font).Ragged :=
  ⟨⟨rfl, rfl, rfl⟩, rfl⟩

theorem Ragged.congr (h : s.Ragged) (hstyle : SameStyle s t) (htable : t.table = s.table) :
    t.Ragged := ⟨hstyle.format ▸ h.format, htable.trans h.table⟩

theorem Ragged.commit (h : s.Ragged) (job : Job) (content : Nat) (reason : LineEnd) :
    (s.commit job content reason).Ragged := by
  obtain ⟨-, -, -, -, -, -, -, htable⟩ := commit_frame job s content reason
  refine h.congr (sameStyle_commit job s content reason) ?_
  rw [htable, h.table]
  split <;> rfl

theorem Ragged.marked (h : s.Ragged) (hmark : s.marked? job l = some u) : u.Ragged :=
  h.congr (sameStyle_marked hmark) (lines_marked hmark).2

theorem ragged_switchFont (job : Job) {format : Format} (hformat : format.Ragged)
    (htable : s.table = none) : ({ s with format := format }.switchFont job).Ragged := by
  obtain ⟨hsame, -, hopen, -, -⟩ := switchFont_frame job { s with format := format }
  exact ⟨hsame ▸ hformat, hopen.trans htable⟩

theorem Ragged.applyToggle (h : s.Ragged) (job : Job) (toggle : Toggle) :
    (s.applyToggle job toggle).Ragged := by
  obtain ⟨⟨halign, hjustify, hoffset⟩, htable⟩ := h
  cases toggle with
  | startSelection => exact ⟨⟨halign, hjustify, hoffset⟩, htable⟩
  | endSelection => exact ⟨⟨halign, hjustify, hoffset⟩, htable⟩
  | _ => exact ragged_switchFont job ⟨halign, hjustify, hoffset⟩ htable

theorem Ragged.applySwitch (h : s.Ragged) (job : Job) {w : Switch}
    (hw : (Token.instruction (.switch w)).keepsRagged = true) : (s.applySwitch job w).Ragged := by
  obtain ⟨⟨halign, hjustify, hoffset⟩, htable⟩ := h
  cases w with
  | resetFormatting => exact ragged_switchFont job ⟨rfl, rfl, rfl⟩ htable
  | script kind => exact ragged_switchFont job ⟨halign, hjustify, hoffset⟩ htable
  | decorate line shown => cases line <;> exact ⟨⟨halign, hjustify, hoffset⟩, htable⟩
  | justify on =>
    refine ⟨⟨halign, ?_, hoffset⟩, htable⟩
    rw [Token.keepsRagged, Bool.not_eq_true'] at hw
    exact hw
  | align a => exact ⟨⟨of_decide_eq_true hw, hjustify, hoffset⟩, htable⟩
  | defaultAlign => exact ⟨⟨rfl, rfl, hoffset⟩, htable⟩
  | endTable =>
    change (s.endTable job).Ragged
    rw [endTable_of_no_table job htable]
    exact ⟨⟨halign, hjustify, hoffset⟩, htable⟩
  | _ => exact ⟨⟨halign, hjustify, hoffset⟩, htable⟩

theorem Ragged.applySetting (h : s.Ragged) {index : Nat} {setting : Setting}
    (hsetting : (Token.instruction (.setting setting)).keepsRagged = true)
    (hmark : s.marked? job ⟨index, .instruction (.setting setting)⟩ = none) :
    (s.applySetting job index setting).Ragged := by
  obtain ⟨⟨halign, hjustify, hoffset⟩, htable⟩ := h
  have hsame : s.Ragged := ⟨⟨halign, hjustify, hoffset⟩, htable⟩
  cases setting with
  | color target c => cases target <;> exact ⟨⟨halign, hjustify, hoffset⟩, htable⟩
  | length target l =>
    cases target with
    | horizontalSpace =>
      cases l with
      | none => exact hsame
      | some l => cases hmark
    | verticalSpace =>
      cases l with
      | none => exact hsame
      | some l =>
        simp only [LayoutState.applySetting, applyLength, Option.elim_some, addVerticalSpace]
        split <;> exact ⟨⟨halign, hjustify, hoffset⟩, htable⟩
    | _ => exact ⟨⟨halign, hjustify, hoffset⟩, htable⟩
  | letterOffset x y => cases hsetting
  | image image =>
    simp only [marked?, Option.map_eq_none_iff] at hmark
    simp only [LayoutState.applySetting, placeImage, hmark, Option.elim_none]
    exact hsame
  | font id => exact ragged_switchFont job ⟨halign, hjustify, hoffset⟩ htable
  | lineSettings line change => cases line <;> exact ⟨⟨halign, hjustify, hoffset⟩, htable⟩
  | beginTable border width columns => cases hsetting
  | columnSpan columns align =>
    refine ⟨⟨halign, hjustify, hoffset⟩, ?_⟩
    change s.table.map _ = none
    rw [htable]
    rfl
  | rowSpan rows => exact hsame
  | addTabStop id position => cases position <;> exact ⟨⟨halign, hjustify, hoffset⟩, htable⟩
  | _ => exact ⟨⟨halign, hjustify, hoffset⟩, htable⟩

theorem Ragged.step (h : s.Ragged) (hl : l.token.keepsRagged = true) : (s.step job l).Ragged := by
  cases hmark : s.marked? job l with
  | some u =>
    have hu := h.marked hmark
    obtain ⟨p, hstep⟩ := step_of_marked hmark
    have hchecked : (u.checkWrap job).Ragged := by
      by_cases hover : u.Overflows job
      · rw [checkWrap_of_overflows hover]
        exact hu.commit job u.breakAt .wrap
      · rwa [checkWrap_of_not_overflows hover]
    rw [hstep]
    exact hchecked.congr (sameStyle_noteBreak _ p) (noteBreak_frame _ p).2.2.2.2
  | none =>
    obtain ⟨index, token⟩ := l
    cases token with
    | newline c =>
      rw [step_newline h.table]
      exact (h.congr (sameStyle_pushMark job s c .lineEnd 0 index)
        (table_pushMark job s c .lineEnd 0 index)).commit job _ _
    | row =>
      change (s.endRow job).Ragged
      rwa [endRow_of_no_table job h.table]
    | cell =>
      change (s.nextCell job).Ragged
      rwa [nextCell_of_no_table job h.table]
    | nothing => exact h
    | instruction instr =>
      cases instr with
      | toggle toggle => exact h.applyToggle job toggle
      | switch w => exact h.applySwitch job hl
      | setting setting => exact h.applySetting hl hmark
    | _ => cases hmark

theorem ragged_run (htokens : ∀ l ∈ lexemes cs, l.token.keepsRagged = true)
    (hsplit : lexemes cs = seen ++ rest) : ((initial job font).run job seen).Ragged := by
  refine run_induction (P := Ragged) (ragged_initial job font) ?_ hsplit
  intro seen l rest hsplit h
  refine h.step (htokens l ?_)
  rw [hsplit]
  exact List.mem_append_cons_self

theorem CommitsAt.ragged (h : CommitsAt job font cs u content reason)
    (htokens : ∀ l ∈ lexemes cs, l.token.keepsRagged = true) : u.Ragged := by
  rcases h.marks_cases with ⟨seen, l, rest, hsplit, hmark⟩ |
    ⟨seen, rest, hsplit, hstyle, -, htable, -⟩
  · exact (ragged_run htokens hsplit).marked hmark
  · exact (ragged_run htokens hsplit).congr hstyle htable

/-- The marks of a line that is aligned to the left and not justified stay where they have been
    put. -/
theorem marks_setLine_of_left (htable : s.table = none)
    (halign : s.format.align.getD s.font.style.align = .left)
    (hjustify : s.format.justify.getD s.font.style.justify = false) (job : Job)
    (content cut : Nat) (reason : LineEnd) :
    (s.setLine job content cut reason).marks = s.marks.toList.take cut := by
  have hnone : ∀ ms, s.justification? job ms reason = none := by
    intro ms
    simp only [justification?, hjustify, Bool.false_eq_true, false_and, and_false, if_false]
  simp only [setLine, htable, justified, hnone, alignShift_of_left halign, Mark.map_shift_zero]

/-- The marks of a ragged line stay where they have been put. -/
theorem Ragged.marks_setLine (h : s.Ragged) (hjob : job.Ragged) (hfont : s.Registered job)
    (content cut : Nat) (reason : LineEnd) :
    (s.setLine job content cut reason).marks = s.marks.toList.take cut := by
  obtain ⟨id, hid⟩ := hfont
  obtain ⟨hleft, hplain⟩ := hjob id s.font hid
  refine marks_setLine_of_left h.table ?_ ?_ job content cut reason
  · rw [hleft, h.format.align]
  · rw [hplain, h.format.justify]

/-! ### Tab positions -/

/-- A position at which a tab may end: that of a tab stop, or a multiple of the tab width. -/
def IsTabPosition (s : LayoutState) (x : Int) : Prop :=
  (∃ stop ∈ s.format.tabStops, x = stop.2.resolveWith s.font.face.em s.wrapWidth) ∨
    max (s.format.tabWidth.getD s.font.style.tabWidth) 1 ∣ x

/-- Where a tab that is read in a state is to end, seen from the origin. -/
def tabTarget (job : Job) (s : LayoutState) : Int :=
  (s.beginLine job).penX - job.origin.x + (s.beginLine job).tabAdvance job

theorem isTabPosition_tabAdvance (job : Job) (s : LayoutState) :
    s.IsTabPosition (s.penX - job.origin.x + s.tabAdvance job) := by
  rcases tabAdvance_cases job s with ⟨stop, hstop, -, hends, -⟩ | ⟨-, hends⟩
  · exact Or.inl ⟨stop, hstop, hends⟩
  · exact Or.inr ⟨_, hends.trans (Int.mul_comm _ _)⟩

theorem isTabPosition_tabTarget (job : Job) (s : LayoutState) :
    s.IsTabPosition (s.tabTarget job) := by
  have hstyle := sameStyle_beginLine job s
  have htarget := isTabPosition_tabAdvance job (s.beginLine job)
  rwa [IsTabPosition, hstyle.format, hstyle.font, hstyle.wrapWidth] at htarget

/-- The mark of a tab. -/
def tabMark (job : Job) (s : LayoutState) (i : Nat) : Mark :=
  newMark job (beforeMark job s tab) tab (.glyph false) ((s.beginLine job).tabAdvance job) i

theorem isSpace_tab : CodePoint.isSpace tab = false := by decide

theorem toList_marked_tab (hmark : s.marked? job ⟨i, .text tab⟩ = some u) :
    u.marks.toList = s.marks.toList ++ [s.tabMark job i] := by
  obtain rfl : (beforeMark job s tab).pushMark job tab (.glyph false)
      ((s.beginLine job).tabAdvance job) i = u := Option.some.inj hmark
  rw [toList_pushMark, (beforeMark_frame job s tab).1]
  rfl

theorem right_tabMark (job : Job) (s : LayoutState) (i : Nat) :
    (s.tabMark job i).right = job.origin.x + s.tabTarget job := by
  have hpen : ((beforeMark job s tab).beginLine job).penX = (s.beginLine job).penX := by
    rw [beginLine_beforeMark]
    exact Int.add_zero _
  change ((beforeMark job s tab).beginLine job).penX + (s.beginLine job).tabAdvance job = _
  rw [hpen, tabTarget]
  omega

theorem Ragged.offset_tabMark (h : s.Ragged) (job : Job) (i : Nat) :
    (s.tabMark job i).offset.x = 0 := by
  refine letterOffset_of_unset ?_
  rw [(sameStyle_beginLine job (beforeMark job s tab)).format,
    (sameStyle_beforeMark job s tab).format, h.format.letterOffset]

/-! ### The tab on its line -/

/-- The line after the first `k` lines is wrapped before the mark `m`, which then is `n`. -/
def Carries (job : Job) (font : Font) (cs : List Nat) (k : Nat) (m n : Mark) : Prop :=
  ∃ w first later, WrapsAt job font cs w ∧ w.lines.size = k ∧
    w.marks.toList.drop (w.cut w.breakAt .wrap) = first :: later ∧ m ∈ first :: later ∧
      n = m.shift (job.origin.x + w.format.indent - first.x)

/-- While the mark `m` waits, it is on the line after the first `k` lines, or has been carried
    to the next one and will not be carried again. -/
def TabAt (job : Job) (font : Font) (cs : List Nat) (k : Nat) (m : Mark) (s : LayoutState) :
    Prop :=
  ∀ before n after, s.marks.toList = before ++ n :: after → n.index = m.index →
    (n = m ∧ s.lines.size = k) ∨
      (Carries job font cs k m n ∧ s.lines.size = k + 1 ∧
        ∀ q, s.lastBreak = some q → before.length < q)

theorem tabAt_of_not_mem (h : ∀ n ∈ s.marks.toList, n.index ≠ m.index) :
    TabAt job font cs k m s := by
  intro before n after hmarks hn
  refine absurd hn (h n ?_)
  rw [hmarks]
  exact List.mem_append_cons_self

theorem TabAt.waits (h : TabAt job font cs k m s) (hst : Waits s t) :
    TabAt job font cs k m t := by
  intro before n after hmarks hn
  rw [hst.marks] at hmarks
  rw [hst.lines]
  rcases h before n after hmarks hn with hfirst | ⟨hcarries, hlines, hnoted⟩
  · exact Or.inl hfirst
  · exact Or.inr ⟨hcarries, hlines, hst.noted hnoted⟩

theorem TabAt.noteBreak (h : TabAt job font cs k m s) :
    TabAt job font cs k m (s.noteBreak true) := by
  intro before n after hmarks hn
  have hmarks : s.marks.toList = before ++ n :: after := hmarks
  rcases h before n after hmarks hn with hfirst | ⟨hcarries, hlines, -⟩
  · exact Or.inl hfirst
  · refine Or.inr ⟨hcarries, hlines, fun q hq => ?_⟩
    have hsize : s.marks.size = q := Option.some.inj hq
    rw [← Array.length_toList, hmarks, List.length_append, List.length_cons] at hsize
    omega

/-- Another mark comes behind the tab. -/
theorem TabAt.append (h : TabAt job font cs k m s) {x : Mark}
    (hmarks : t.marks.toList = s.marks.toList ++ [x]) (hx : x.index ≠ m.index)
    (hlines : t.lines = s.lines)
    (hbreak : t.lastBreak = s.lastBreak ∨ t.lastBreak = some s.marks.size) :
    TabAt job font cs k m t := by
  intro before n after hsplit hn
  rw [hmarks] at hsplit
  rcases split_concat hsplit with ⟨-, rfl, -⟩ | ⟨init, hinit, -⟩
  · exact absurd hn hx
  · rw [hlines]
    rcases h before n init hinit hn with hfirst | ⟨hcarries, hsize, hnoted⟩
    · exact Or.inl hfirst
    · refine Or.inr ⟨hcarries, hsize, fun q hq => ?_⟩
      rcases hbreak with hsame | hend
      · exact hnoted q (hsame ▸ hq)
      · rw [hend, Option.some.injEq, ← Array.length_toList, hinit, List.length_append,
          List.length_cons] at hq
        omega

/-- A line is not broken before a mark that is no space and not the last one, unless the place
    noted is there. -/
theorem lt_breakAt {before after : List Mark} (hmarks : s.marks.toList = before ++ m :: after)
    (hafter : after ≠ []) (hm : CodePoint.isSpace m.code = false)
    (hnoted : ∀ q, s.lastBreak = some q → before.length < q) : before.length < s.breakAt := by
  have hemergency : before.length < breakAt.emergency s := by
    have hpos := List.length_pos_iff.2 hafter
    have hsize : s.marks.size = before.length + after.length + 1 := by
      rw [← Array.length_toList, hmarks, List.length_append, List.length_cons]
      omega
    simp only [breakAt.emergency]
    split <;> omega
  simp only [breakAt]
  cases hlast : s.lastBreak with
  | none => exact lt_trimSpaces hmarks hm hemergency
  | some q =>
    have hq := hnoted q hlast
    have hpos : 0 < q := Nat.lt_of_le_of_lt (Nat.zero_le _) hq
    simp only [if_pos hpos]
    exact lt_trimSpaces hmarks hm hq

/-- Where a line is wrapped the tab is reported or carried, but not carried again. -/
theorem TabAt.wrap (h : TabAt job font cs k m u) (hwraps : WrapsAt job font cs u)
    (hragged : u.Ragged) (hm : CodePoint.isSpace m.code = false)
    (hlast : ∀ before n, u.marks.toList = before ++ [n] → n.index = m.index → u.lines.size = k) :
    TabAt job font cs k m (u.commit job u.breakAt .wrap) := by
  cases hrest : u.marks.toList.drop (u.cut u.breakAt .wrap) with
  | nil =>
    refine tabAt_of_not_mem fun n hn => ?_
    rw [(commit_all job hrest).1] at hn
    cases hn
  | cons first later =>
    have hleft : ∀ v, SameSettings u v → v.paragraph = (LineEnd.wrap == .newline true) →
        v.leftEdge job = job.origin.x + u.format.indent := by
      intro v hv hparagraph
      have hfalse : v.paragraph = false := hparagraph
      simp only [leftEdge, hv.table, hragged.table, hv.format, hfalse, Bool.false_eq_true,
        if_false, Int.add_zero]
    obtain ⟨hmarks, -⟩ := commit_rest hleft LineEnd.noConfusion hrest
    obtain ⟨-, hlines, hnone, -⟩ := commit_frame job u u.breakAt .wrap
    intro before n after hsplit hn
    rw [hmarks, ← hrest] at hsplit
    obtain ⟨before, n, after, hcarried, hall, rfl, rfl, rfl⟩ := split_shifted_drop hsplit
    have hcut : u.cut u.breakAt .wrap ≤
        (u.marks.toList.take (u.cut u.breakAt .wrap) ++ before).length := by
      rw [List.length_append, List.length_take_of_le]
      · exact Nat.le_add_right _ _
      · rw [Array.length_toList]
        exact cut_le (breakAt_le hwraps.breakWithin) .wrap
    have hbreak := le_cut (breakAt_le hwraps.breakWithin) .wrap
    rcases h _ n after hall hn with ⟨rfl, hsize⟩ |
      ⟨⟨w, first', later', -, -, -, -, rfl⟩, hsize, hnoted⟩
    · refine Or.inr ⟨⟨u, first, later, hwraps, hsize, hrest, ?_, rfl⟩, ?_, fun q hq => ?_⟩
      · rw [← hrest, hcarried]
        exact List.mem_append_cons_self
      · rw [hlines, Array.size_push, hsize]
      · rw [hnone] at hq
        cases hq
    · -- It has been carried before, and stands before the break.
      have hafter : after ≠ [] := by
        rintro rfl
        have hfirst := hlast _ _ hall rfl
        omega
      have hlt := lt_breakAt hall hafter hm hnoted
      omega

section Tab

variable (hsplit : lexemes cs = seen ++ ⟨i, .text tab⟩ :: rest)
include hsplit

/-- The mark of a token is the tab's, or leaves that where it is. -/
theorem tabAt_marked {seen' rest' : List Lexeme} (hsplit' : lexemes cs = seen' ++ l :: rest')
    (h : TabAt job font cs ((initial job font).run job seen).lines.size
      (((initial job font).run job seen).tabMark job i) ((initial job font).run job seen'))
    (hmark : ((initial job font).run job seen').marked? job l = some u) :
    TabAt job font cs ((initial job font).run job seen).lines.size
      (((initial job font).run job seen).tabMark job i) u ∧
    ∀ before n, u.marks.toList = before ++ [n] → n.index = i →
      u.lines.size = ((initial job font).run job seen).lines.size := by
  have hlines := (lines_marked hmark).1
  obtain ⟨x, hmarks, hx⟩ := toList_marked hmark
  by_cases hindex : l.index = i
  · obtain ⟨rfl, rfl, rfl⟩ := split_unique hsplit hsplit' hindex
    refine ⟨fun before n after hbefore hn => ?_, fun _ _ _ _ => by rw [hlines]⟩
    rw [toList_marked_tab hmark] at hbefore
    rw [hlines]
    rcases split_concat hbefore with ⟨-, rfl, -⟩ | ⟨init, hinit, -⟩
    · exact Or.inl ⟨rfl, rfl⟩
    · -- What waits before the tab has smaller positions.
      have hmem : n ∈ ((initial job font).run job seen').marks.toList := by
        rw [hinit]
        exact List.mem_append_cons_self
      exact absurd hn (Nat.ne_of_lt (index_lt_of_mem_run hsplit' hmem))
  · refine ⟨h.append hmarks (hx ▸ hindex) hlines (lastBreak_marked hmark), ?_⟩
    intro before n hbefore hn
    rw [hmarks] at hbefore
    obtain ⟨-, hlast⟩ := List.append_inj' hbefore rfl
    obtain rfl := List.singleton_inj.1 hlast
    exact absurd (hx.symm.trans hn) hindex

variable (htokens : ∀ l ∈ lexemes cs, l.token.keepsRagged = true)
include htokens

/-- Between any two tokens the tab is where it was put, or has been carried once. -/
theorem tabAt_run {seen' rest' : List Lexeme} (hsplit' : lexemes cs = seen' ++ rest') :
    TabAt job font cs ((initial job font).run job seen).lines.size
      (((initial job font).run job seen).tabMark job i) ((initial job font).run job seen') := by
  refine run_induction (P := TabAt job font cs
    ((initial job font).run job seen).lines.size (((initial job font).run job seen).tabMark job i))
    (tabAt_of_not_mem fun n hn => nomatch hn) ?_ hsplit'
  intro seen' l' rest' hsplit' h
  refine step_preserves ?_ ?_ (fun _ ht => ht.noteBreak) ?_ fun hidle => h.waits hidle.waits
  · intro u hmark _
    exact (tabAt_marked hsplit hsplit' h hmark).1
  · intro u hmark hover
    obtain ⟨hu, hlast⟩ := tabAt_marked hsplit hsplit' h hmark
    exact hu.wrap ⟨seen', l', rest', hsplit', hmark, hover⟩
      ((ragged_run htokens hsplit').marked hmark) isSpace_tab hlast
  · intro u reason hclose
    refine tabAt_of_not_mem fun n hn => ?_
    rw [(lines_of_closed hclose).1] at hn
    cases hn

theorem CommitsAt.tabAt (hcommits : CommitsAt job font cs u content reason)
    (hn : n ∈ u.marks.toList) (hindex : n.index = i) :
    (n = ((initial job font).run job seen).tabMark job i ∧
      u.lines.size = ((initial job font).run job seen).lines.size) ∨
    (Carries job font cs ((initial job font).run job seen).lines.size
      (((initial job font).run job seen).tabMark job i) n ∧
        u.lines.size = ((initial job font).run job seen).lines.size + 1) := by
  obtain ⟨before, after, hmarks⟩ := List.append_of_mem hn
  have hrun : ∀ {seen' rest' : List Lexeme}, lexemes cs = seen' ++ rest' →
      TabAt job font cs ((initial job font).run job seen).lines.size
        (((initial job font).run job seen).tabMark job i) ((initial job font).run job seen') :=
    fun hsplit' => tabAt_run hsplit htokens hsplit'
  rcases hcommits.marks_cases with ⟨seen', l', rest', hsplit', hmark⟩ |
    ⟨seen', rest', hsplit', -, hlines, -, hsame | ⟨x, hpushed, hx⟩⟩
  · rcases (tabAt_marked hsplit hsplit' (hrun hsplit') hmark).1 before n after hmarks hindex
      with hfirst | ⟨hcarries, hsize, -⟩
    · exact Or.inl hfirst
    · exact Or.inr ⟨hcarries, hsize⟩
  · rw [hsame] at hmarks
    rw [hlines]
    rcases hrun hsplit' before n after hmarks hindex with hfirst | ⟨hcarries, hsize, -⟩
    · exact Or.inl hfirst
    · exact Or.inr ⟨hcarries, hsize⟩
  · rw [hpushed] at hmarks
    rw [hlines]
    rcases split_concat hmarks with ⟨-, rfl, -⟩ | ⟨init, hinit, -⟩
    · have htab : (⟨i, .text tab⟩ : Lexeme) ∈ lexemes cs := by
        rw [hsplit]
        exact List.mem_append_cons_self
      obtain ⟨c, hnewline⟩ := hx _ htab hindex.symm
      cases hnewline
    · rcases hrun hsplit' before n init hinit hindex with hfirst | ⟨hcarries, hsize, -⟩
      · exact Or.inl hfirst
      · exact Or.inr ⟨hcarries, hsize⟩

end Tab

/-- What is drawn on a ragged line ends where its mark does. -/
theorem CommitsAt.exists_mark (h : CommitsAt job font cs u content reason)
    (hfont : job.printer.fonts.get? job.printer.defaultFont = some font)
    (hjob : job.Ragged) (htokens : ∀ l ∈ lexemes cs, l.token.keepsRagged = true) {g : Glyph}
    (hg : g ∈ (u.committedLine job content reason).events) (hdrawn : g.wrapped = false) :
    ∃ m ∈ u.marks.toList, m.index = g.index ∧
      g.location.x + g.advance = m.right + m.offset.x := by
  have hmarks := (h.ragged htokens).marks_setLine hjob (h.registered hfont) content
    (u.cut content reason) reason
  rw [committedLine, SetLine.events_line, List.mem_append] at hg
  rcases hg with hg | hg
  · obtain ⟨m, hm, rfl⟩ := List.mem_map.1 hg
    rw [hmarks] at hm
    refine ⟨m, List.mem_of_mem_take (List.mem_of_mem_take hm), rfl, ?_⟩
    change m.x + m.offset.x + m.advance = m.x + m.advance + m.offset.x
    omega
  · obtain ⟨m, -, rfl⟩ := List.mem_map.1 hg
    cases hdrawn

end LayoutState

open LayoutState in
/-- **Where tabs end.**  Lines are aligned to the left and not justified, and there are no tables
    and no letter offsets.  A tab that is drawn on the line that was being filled when it was read
    ends at the position of a tab stop of that moment or at a multiple of the tab width of that
    moment.  If it is drawn anywhere else, its line has been wrapped before it, and it ends as
    much before that position as the first mark that was carried over was moved. -/
theorem Printer.tab_positions {p : Printer} {font : Font}
    (hfont : p.fonts.get? p.defaultFont = some font)
    (hragged : ∀ id f, p.fonts.get? id = some f → f.style.align = .left ∧ f.style.justify = false)
    {markup : List UInt8}
    (htokens : ∀ l ∈ lexemes (Codec.decode markup), l.token.keepsRagged = true) (origin : Point)
    (width : Int) :
    let job : Job := ⟨p, origin, width⟩
    ∃ lines, job.layout markup = .ok lines ∧
      ∀ seen i rest, lexemes (Codec.decode markup) = seen ++ ⟨i, .text tab⟩ :: rest →
        let s := (initial job font).run job seen
        ∃ target, s.IsTabPosition target ∧
          ∀ k line, lines[k]? = some line → ∀ g ∈ line.events, g.index = i →
            g.wrapped = false →
              (k = s.lines.size ∧ g.location.x + g.advance - origin.x = target) ∨
              (k = s.lines.size + 1 ∧ ∃ w first later,
                WrapsAt job font (Codec.decode markup) w ∧ w.lines.size = s.lines.size ∧
                  w.marks.toList.drop (w.cut w.breakAt .wrap) = first :: later ∧
                  (∃ m ∈ first :: later, m.index = i) ∧
                  g.location.x + g.advance - origin.x =
                    target - (first.x - (origin.x + w.format.indent))) := by
  intro job
  refine ⟨_, Job.layout_eq hfont markup, ?_⟩
  intro seen i rest hsplit s
  have hs : s.Ragged := ragged_run htokens hsplit
  have hoffset := hs.offset_tabMark job i
  have hright := right_tabMark job s i
  refine ⟨s.tabTarget job, isTabPosition_tabTarget job s, ?_⟩
  intro k line hline g hg hindex hdrawn
  have hi : i ∈ line.positions := hindex ▸ List.mem_map_of_mem hg
  rcases mem_layout_cases (List.mem_of_getElem? hline) with
    ⟨u, content, reason, hcommits, rfl⟩ | ⟨e, he, rfl⟩
  · obtain rfl := place_unique hline hcommits.getElem? hi hi
    obtain ⟨m, hm, hmi, hplace⟩ := hcommits.exists_mark hfont hragged htokens hg hdrawn
    rcases hcommits.tabAt hsplit htokens hm (hmi.trans hindex) with ⟨rfl, hsize⟩ |
      ⟨⟨w, first, later, hwraps, hwsize, hrest, hmem, rfl⟩, hsize⟩
    · refine Or.inl ⟨hsize, ?_⟩
      rw [hplace, hright, hoffset]
      change origin.x + _ + 0 - origin.x = _
      omega
    · refine Or.inr ⟨hsize, w, first, later, hwraps, hwsize, hrest, ⟨_, hmem, rfl⟩, ?_⟩
      rw [hplace, Mark.right_shift, hright]
      change origin.x + s.tabTarget job + (origin.x + w.format.indent - first.x) +
        (s.tabMark job i).offset.x - origin.x = _
      rw [hoffset]
      omega
  · -- The end of the text alone.
    have hlast : g = e := List.mem_singleton.1 hg
    have hlt : i < (Codec.decode markup).length := by
      refine index_lt_of_mem_lexemes (l := ⟨i, .text tab⟩) ?_
      rw [hsplit]
      exact List.mem_append_cons_self
    rw [← hindex, hlast, he] at hlt
    exact absurd hlt (Nat.lt_irrefl _)

/-- The bytes of a tab width of forty pixels, and of two words with a tab behind them. -/
def Printer.wordsAndTab : List UInt8 :=
  [0xC2, 0x9B, 0x17, 0x01, 0x28, 0xC2, 0x9C, 0x61, 0x61, 0x20, 0x62, 0x09]

/-- The second word goes to the next line, and the tab with it. -/
theorem Printer.tab_off_positions :
    ∃ font lines seen, boxes.fonts.get? boxes.defaultFont = some font ∧
      (∀ l ∈ lexemes (Codec.decode wordsAndTab), l.token.keepsRagged = true) ∧
      lexemes (Codec.decode wordsAndTab) = seen ++ [⟨9, .text tab⟩] ∧
      (Job.mk boxes .zero 60).layout wordsAndTab = .ok lines ∧
      lines.map (fun l => l.events.map fun g => (g.index, g.location.x, g.advance, g.wrapped)) =
        [[(5, 0, 10, false), (6, 10, 10, false), (7, 20, 10, true)],
          [(8, 0, 10, false), (9, 10, 40, false), (10, 50, 0, false)]] ∧
      ¬ ((LayoutState.initial ⟨boxes, .zero, 60⟩ font).run ⟨boxes, .zero, 60⟩
        seen).IsTabPosition (10 + 40 - 0) := by
  refine ⟨_, _, (lexemes (Codec.decode wordsAndTab)).take 5, rfl, by decide, by decide, rfl,
    by decide +kernel, ?_⟩
  rintro (⟨stop, hstop, -⟩ | hdvd)
  · exact absurd hstop List.not_mem_nil
  · revert hdvd
    decide +kernel

/-- The tab behind a letter that is not carried over ends at a multiple of the tab width. -/
theorem Printer.tab_positions_boxes :
    ∃ font line, boxes.fonts.get? boxes.defaultFont = some font ∧
      (Job.mk boxes .zero 70).layout [0x61, 0x09] = .ok [line] ∧
      ∃ g ∈ line.events, g.index = 1 ∧
        ((LayoutState.initial ⟨boxes, .zero, 70⟩ font).run ⟨boxes, .zero, 70⟩
          [⟨0, .text 0x61⟩]).IsTabPosition (g.location.x + g.advance - 0) := by
  have hragged : ∀ id f, boxes.fonts.get? id = some f →
      f.style.align = .left ∧ f.style.justify = false := by
    intro id f hf
    rcases font_of_boxes hf with rfl | rfl <;> exact ⟨rfl, rfl⟩
  have htokens : ∀ l ∈ lexemes (Codec.decode [0x61, 0x09]), l.token.keepsRagged = true := by
    decide
  obtain ⟨lines, hlayout, htabs⟩ := tab_positions rfl hragged htokens .zero 70
  obtain rfl : Job.layoutWith ⟨boxes, .zero, 70⟩ (Font.ofFace BoxFace.standard.face)
      (Codec.decode [0x61, 0x09]) = lines :=
    Except.ok.inj ((Job.layout_eq rfl _).symm.trans hlayout)
  obtain ⟨target, htarget, hends⟩ := htabs [⟨0, .text 0x61⟩] 1 [] (by decide)
  obtain ⟨line, hline, g, hg, hindex, hdrawn⟩ : ∃ line,
      Job.layoutWith ⟨boxes, .zero, 70⟩ (Font.ofFace BoxFace.standard.face)
        (Codec.decode [0x61, 0x09]) = [line] ∧
      ∃ g ∈ line.events, g.index = 1 ∧ g.wrapped = false := by
    refine ⟨_, rfl, ?_⟩
    decide +kernel
  refine ⟨_, line, rfl, hline ▸ hlayout, g, hg, hindex, ?_⟩
  rcases hends 0 line (by rw [hline]; rfl) g hg hindex hdrawn with ⟨-, heq⟩ | ⟨hnext, -⟩
  · exact heq ▸ htarget
  · exact absurd hnext (by decide)

end RichText
