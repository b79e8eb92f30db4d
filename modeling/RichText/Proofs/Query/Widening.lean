/-
  RichText/Proofs/Query/Widening.lean
  ===================================
  **A wrap width that no line comes to.**

  In a text that toggles fonts and selections and holds no other instruction, the wrap width
  matters where the line is tested for a mark that was put on it, and nowhere else.  While no
  mark ends beyond the width, a layout that wraps goes as one that does not, with another width
  in its state (`LayoutState.Toggled.run_widen`).  Where lines are not wrapped every mark is
  reported where it was put (`LayoutState.Shown`), so that none ends beyond what is measured, and
  a width that is no smaller changes nothing (`Printer.ample_width`).
-/
import RichText.Proofs.Layout.Plain
import RichText.Proofs.Query.Positions
import RichText.Proofs.Query.Translation

namespace RichText

/-! ### Text and toggles -/

/-- Whether a token asks for nothing but another font or a selection. -/
def Token.isToggling : Token → Bool
  | .instruction (.toggle _) => true
  | .instruction _ => false
  | _ => true

/-- No instruction of the text does more than toggle a font or a selection. -/
def OnlyToggles (cs : List Nat) : Prop := ∀ l ∈ lexemes cs, l.token.isToggling = true

instance (cs : List Nat) : Decidable (OnlyToggles cs) :=
  inferInstanceAs (Decidable (∀ l ∈ lexemes cs, _))

private theorem isToggling_single (c : Nat) : (Token.single c).isToggling = true := by
  unfold Token.single
  cases Toggle.ofCode? c with
  | some t => rfl
  | none =>
    dsimp only
    split <;> rfl

theorem onlyToggles_of_no_introducers {cs : List Nat}
    (h : ∀ c ∈ cs, c ≠ Control.complexIntroducer ∧ c ≠ Control.simpleIntroducer) :
    OnlyToggles cs := by
  intro l hl
  obtain ⟨c, rest, hdrop, htoken⟩ := exists_of_mem_lexemes hl
  have hc : c ∈ cs := by
    apply List.mem_of_mem_drop
    rw [hdrop]
    exact List.mem_cons_self
  obtain ⟨hcomplex, hsimple⟩ := h c hc
  rw [htoken]
  unfold Token.read
  rw [if_neg hcomplex, if_neg hsimple]
  split_ifs <;> first | rfl | exact isToggling_single c

/-- Every font aligns its lines to the left where nothing else is set. -/
def Job.LeftAligned (job : Job) : Prop :=
  ∀ id font, job.printer.fonts.get? id = some font → font.style.align = .left

namespace LayoutState

variable {job : Job} {s t u : LayoutState}

/-! ### Settings -/

/-- All settings but the font are those of the start. -/
structure Toggled (job : Job) (s : LayoutState) : Prop where
  format : ∃ id, s.format = { Format.initial job.printer.defaultFont with font := id }
  registered : s.Registered job
  wrapOverride : s.wrapOverride = none
  wrapWidth : s.wrapWidth = max job.width 0
  table : s.table = none

theorem toggled_initial {font : Font}
    (hfont : job.printer.fonts.get? job.printer.defaultFont = some font) :
    (initial job font).Toggled job where
  format := ⟨_, rfl⟩
  registered := ⟨_, hfont⟩
  wrapOverride := rfl
  wrapWidth := rfl
  table := rfl

namespace Toggled

theorem congr (h : s.Toggled job) (hstyle : SameStyle s t) (htable : t.table = s.table) :
    t.Toggled job where
  format := hstyle.format ▸ h.format
  registered := h.registered.congr hstyle.font
  wrapOverride := hstyle.wrapOverride.trans h.wrapOverride
  wrapWidth := hstyle.wrapWidth.trans h.wrapWidth
  table := htable.trans h.table

theorem align (h : s.Toggled job) (hjob : job.LeftAligned) :
    s.format.align.getD s.font.style.align = .left := by
  obtain ⟨_, hformat⟩ := h.format
  obtain ⟨id, hid⟩ := h.registered
  rw [hformat]
  exact hjob id s.font hid

theorem tabStops (h : s.Toggled job) : s.format.tabStops = [] := by
  obtain ⟨_, hformat⟩ := h.format
  rw [hformat]
  rfl

theorem letterOffset (h : s.Toggled job) : s.letterOffset.x = 0 := by
  obtain ⟨_, hformat⟩ := h.format
  apply letterOffset_of_unset
  rw [hformat]
  rfl

theorem switchFont (h : s.Toggled job) : (s.switchFont job).Toggled job := by
  obtain ⟨hformat, hoverride, htable, -, -⟩ := switchFont_frame job s
  have hnone : (s.switchFont job).wrapOverride = none := hoverride.trans h.wrapOverride
  refine ⟨hformat ▸ h.format, h.registered.switchFont, hnone, ?_, htable.trans h.table⟩
  change max ((s.switchFont job).wrapOverride.elim job.width _) 0 = _
  rw [hnone]
  rfl

theorem applyToggle (h : s.Toggled job) (toggle : Toggle) :
    (s.applyToggle job toggle).Toggled job := by
  obtain ⟨old, hformat⟩ := h.format
  have hfont : ∀ id, ({ s with format.font := id }.switchFont job).Toggled job := by
    intro id
    refine Toggled.switchFont ⟨⟨id, ?_⟩, h.registered, h.wrapOverride, h.wrapWidth, h.table⟩
    simp only [hformat]
  cases toggle with
  | startSelection => exact ⟨h.format, h.registered, h.wrapOverride, h.wrapWidth, h.table⟩
  | endSelection => exact ⟨h.format, h.registered, h.wrapOverride, h.wrapWidth, h.table⟩
  | _ => exact hfont _

theorem commit (h : s.Toggled job) (content : Nat) (reason : LineEnd) :
    (s.commit job content reason).Toggled job := by
  obtain ⟨-, -, -, -, -, -, -, htable⟩ := commit_frame job s content reason
  refine h.congr (sameStyle_commit job s content reason) ?_
  rw [htable, h.table]
  split <;> rfl

theorem checkWrap (h : s.Toggled job) : (s.checkWrap job).Toggled job := by
  by_cases hover : s.Overflows job
  · rw [checkWrap_of_overflows hover]
    exact h.commit s.breakAt .wrap
  · rwa [checkWrap_of_not_overflows hover]

theorem noteBreak (h : s.Toggled job) (p : Bool) : (s.noteBreak p).Toggled job :=
  h.congr (sameStyle_noteBreak s p) (noteBreak_frame s p).2.2.2.2

theorem pushMark (h : s.Toggled job) (code : Nat) (kind : MarkKind) (advance : Int)
    (index : Nat) : (s.pushMark job code kind advance index).Toggled job :=
  h.congr (sameStyle_pushMark job s code kind advance index)
    (table_pushMark job s code kind advance index)

theorem beforeMark (h : s.Toggled job) (c : Nat) : (beforeMark job s c).Toggled job :=
  h.congr (sameStyle_beforeMark job s c) (beforeMark_frame job s c).2.2.2.2

/-- The settings are the same when a token has put its mark on the line. -/
theorem marked (h : s.Toggled job) {l : Lexeme} (hmark : s.marked? job l = some u) :
    u.Toggled job := by
  obtain ⟨v, code, kind, advance, _, hv, -, rfl, -⟩ := marked_cases hmark
  rcases hv with rfl | ⟨rfl, -⟩
  · exact h.pushMark code kind advance l.index
  · exact (h.beforeMark code).pushMark code kind advance l.index

theorem step_marked (h : s.Toggled job) {l : Lexeme} (hmark : s.marked? job l = some u) :
    (s.step job l).Toggled job := by
  obtain ⟨p, hstep⟩ := step_of_marked hmark
  rw [hstep]
  exact (h.marked hmark).checkWrap.noteBreak p

theorem step (h : s.Toggled job) {l : Lexeme} (hl : l.token.isToggling = true) :
    (s.step job l).Toggled job := by
  obtain ⟨index, token⟩ := l
  cases token with
  | text c => exact h.step_marked rfl
  | placeholder => exact h.step_marked rfl
  | newline c =>
    rw [step_newline h.table]
    exact (h.pushMark c .lineEnd 0 index).commit _ _
  | row =>
    change (s.endRow job).Toggled job
    rwa [endRow_of_no_table job h.table]
  | cell =>
    change (s.nextCell job).Toggled job
    rwa [nextCell_of_no_table job h.table]
  | nothing => exact h
  | instruction i =>
    cases i with
    | toggle toggle => exact h.applyToggle toggle
    | _ => cases hl

theorem run (h : s.Toggled job) {ls : List Lexeme} (hls : ∀ l ∈ ls, l.token.isToggling = true) :
    (s.run job ls).Toggled job := by
  induction ls generalizing s with
  | nil => exact h
  | cons l ls ih =>
    have hl := hls l List.mem_cons_self
    exact ih (h.step hl) fun k hk => hls k (List.mem_cons_of_mem l hk)

theorem not_overflows (h : s.Toggled job) (hwidth : job.width ≤ 0) : ¬ s.Overflows job := by
  rintro ⟨-, hpositive, -⟩
  rw [h.wrapWidth] at hpositive
  omega

end Toggled

/-! ### Marks of a line that is not wrapped -/

theorem justified_of_ne_wrap {reason : LineEnd} (h : reason ≠ .wrap) (job : Job) (s : LayoutState)
    (content : Nat) (ms : List Mark) : s.justified job content reason ms = ms := by
  unfold justified justification?
  rw [if_neg fun hwrap => h hwrap.1]

/-- One of the glyphs of the lines ends where the mark does, and was not left over. -/
def ReportedIn (ls : List Line) (m : Mark) : Prop :=
  ∃ g ∈ events ls, g.wrapped = false ∧ g.location.x + g.advance = m.right + m.offset.x

theorem ReportedIn.mono {ls ks : List Line} {m : Mark} (h : ReportedIn ls m)
    (hsub : ls ⊆ ks) : ReportedIn ks m := by
  obtain ⟨g, hg, hright⟩ := h
  obtain ⟨l, hl, hgl⟩ := List.mem_flatMap.1 hg
  exact ⟨g, List.mem_flatMap.2 ⟨l, hsub hl, hgl⟩, hright⟩

/-- A line that is set for another reason than wrapping reports its marks where they are. -/
theorem Toggled.reportedIn_commitAll (h : s.Toggled job) (hjob : job.LeftAligned)
    {reason : LineEnd} (hreason : reason ≠ .wrap) {m : Mark} (hm : m ∈ s.marks.toList) :
    ReportedIn (s.commitAll job reason).lines.toList m := by
  obtain ⟨-, hlines, -⟩ := commit_frame job s s.marks.size reason
  have hcut : s.cut s.marks.size reason = s.marks.size := cut_of_ne_wrap hreason
  have hall : s.marks.toList.take s.marks.size = s.marks.toList :=
    List.take_of_length_le (Nat.le_of_eq Array.length_toList)
  generalize hset : s.setLine job s.marks.size (s.cut s.marks.size reason) reason = set at hlines
  have hmarks : set.marks = s.marks.toList := by
    rw [← hset, hcut]
    simp only [setLine, h.table, justified_of_ne_wrap hreason, hall,
      alignShift_of_left (h.align hjob), Mark.map_shift_zero]
  have hcontent : set.content = s.marks.size := by
    rw [← hset]
    rfl
  refine ⟨set.glyph false m, ?_, rfl, ?_⟩
  · rw [commitAll, hlines, Array.toList_push, events, List.flatMap_append,
      List.flatMap_singleton, SetLine.events_line, hmarks, hcontent, hall]
    exact List.mem_append_right _ (List.mem_append_left _ (List.mem_map_of_mem hm))
  · change m.x + m.offset.x + m.advance = m.x + m.advance + m.offset.x
    omega

/-- The mark waits on the line, or has been reported where it was put. -/
def Shown (m : Mark) (s : LayoutState) : Prop :=
  m ∈ s.marks.toList ∨ ReportedIn s.lines.toList m

namespace Shown

variable {m : Mark}

theorem congr (h : s.Shown m) (hmarks : t.marks = s.marks) (hlines : t.lines = s.lines) :
    t.Shown m := by
  rw [Shown, hmarks, hlines]
  exact h

theorem pushMark (h : s.Shown m) (job : Job) (code : Nat) (kind : MarkKind) (advance : Int)
    (index : Nat) : (s.pushMark job code kind advance index).Shown m := by
  rw [Shown, toList_pushMark, (pushMark_frame job s code kind advance index).1]
  exact h.imp (List.mem_append_left _) id

theorem noteBreak (h : s.Shown m) (p : Bool) : (s.noteBreak p).Shown m :=
  h.congr (noteBreak_frame s p).1 (noteBreak_frame s p).2.1

theorem checkWrap (h : s.Shown m) (hs : s.Toggled job) (hwidth : job.width ≤ 0) :
    (s.checkWrap job).Shown m := by
  rwa [checkWrap_of_not_overflows (hs.not_overflows hwidth)]

/-- When the line is set the mark is no longer waiting. -/
theorem commitAll (h : s.Shown m) (hs : s.Toggled job) (hjob : job.LeftAligned)
    {reason : LineEnd} (hreason : reason ≠ .wrap) :
    ReportedIn (s.commitAll job reason).lines.toList m := by
  rcases h with hm | hreported
  · exact hs.reportedIn_commitAll hjob hreason hm
  · exact hreported.mono (lines_prefix_commit job s _ reason).subset

theorem marked (h : s.Shown m) {l : Lexeme} (hmark : s.marked? job l = some u) :
    u.Shown m := by
  obtain ⟨v, code, kind, advance, _, hv, -, rfl, -⟩ := marked_cases hmark
  rcases hv with rfl | ⟨rfl, -⟩
  · exact h.pushMark job code kind advance l.index
  · have hframe := beforeMark_frame job s code
    exact (h.congr hframe.1 hframe.2.1).pushMark job code kind advance l.index

theorem step (h : s.Shown m) (hs : s.Toggled job) (hjob : job.LeftAligned)
    (hwidth : job.width ≤ 0) {l : Lexeme} (hl : l.token.isToggling = true) :
    (s.step job l).Shown m := by
  -- A token puts a mark on the line, or is a newline, or leaves all marks as they are.
  cases hmark : s.marked? job l with
  | some u =>
    obtain ⟨p, hstep⟩ := step_of_marked hmark
    rw [hstep]
    exact ((h.marked hmark).checkWrap (hs.marked hmark) hwidth).noteBreak p
  | none =>
    by_cases hnewline : ∃ c, l.token = .newline c
    · obtain ⟨index, token⟩ := l
      obtain ⟨c, rfl⟩ := hnewline
      rw [step_newline hs.table]
      have hpushed := h.pushMark job c .lineEnd 0 index
      exact Or.inr (hpushed.commitAll (hs.pushMark c .lineEnd 0 index) hjob LineEnd.noConfusion)
    · have hidle := idle_step hs.table hmark (fun c hc => hnewline ⟨c, hc⟩) (hs.step hl).table
      exact h.congr hidle.marks hidle.lines

theorem run (h : s.Shown m) (hs : s.Toggled job) (hjob : job.LeftAligned)
    (hwidth : job.width ≤ 0) {ls : List Lexeme} (hls : ∀ l ∈ ls, l.token.isToggling = true) :
    (s.run job ls).Shown m := by
  induction ls generalizing s with
  | nil => exact h
  | cons l ls ih =>
    have hl := hls l List.mem_cons_self
    exact ih (h.step hs hjob hwidth hl) (hs.step hl) fun k hk => hls k (List.mem_cons_of_mem l hk)

/-- At the end of the text every mark has been reported. -/
theorem finish (h : s.Shown m) (hs : s.Toggled job) (hjob : job.LeftAligned) (total : Nat) :
    ReportedIn (s.finish job total) m := by
  unfold LayoutState.finish
  cases hw : s.wrapped.filter fun _ => s.lineIsEmpty with
  | some w =>
    obtain ⟨-, hempty⟩ := Option.filter_eq_some_iff.1 hw
    simp only [lineIsEmpty, Bool.and_eq_true, Array.isEmpty_iff] at hempty
    rcases h with hm | hreported
    · rw [hempty.2] at hm
      cases hm
    · exact hreported.mono (List.subset_append_left _ _)
  | none =>
    exact (h.pushMark job 0 .textEnd 0 total).commitAll (hs.pushMark 0 .textEnd 0 total) hjob
      LineEnd.noConfusion

end Shown

/-- Where lines are not wrapped, a mark ends where one of the glyphs of the layout does. -/
theorem reportedIn_layout {font : Font} {cs : List Nat}
    (hfont : job.printer.fonts.get? job.printer.defaultFont = some font) (hjob : job.LeftAligned)
    (hwidth : job.width ≤ 0) (hcs : OnlyToggles cs) {seen rest : List Lexeme} {l : Lexeme}
    (hsplit : lexemes cs = seen ++ l :: rest)
    (hmark : ((initial job font).run job seen).marked? job l = some u) :
    ∃ m : Mark, m.right + m.offset.x = u.penX ∧ ReportedIn (job.layoutWith font cs) m := by
  have hall : ∀ k ∈ seen ++ l :: rest, k.token.isToggling = true := hsplit ▸ hcs
  obtain ⟨hseen, htail⟩ := List.forall_mem_append.1 hall
  obtain ⟨hl, hrest⟩ := List.forall_mem_cons.1 htail
  have hbefore := (toggled_initial hfont).run hseen
  have hmarked := hbefore.marked hmark
  obtain ⟨v, code, kind, advance, p, -, -, rfl, hstep⟩ := marked_cases hmark
  obtain ⟨hpen, -⟩ := pen_pushMark job v code kind advance l.index
  refine ⟨newMark job v code kind advance l.index, ?_, ?_⟩
  · change (v.beginLine job).penX + advance +
      (v.pushMark job code kind advance l.index).letterOffset.x = _
    rw [hmarked.letterOffset, hpen, Int.add_zero]
  · -- The mark waits when it has just been put on the line, and is followed from there.
    have hshown : (v.pushMark job code kind advance l.index).Shown
        (newMark job v code kind advance l.index) := by
      refine Or.inl ?_
      rw [toList_pushMark]
      exact List.mem_append_right _ List.mem_cons_self
    have hafter := (hshown.checkWrap hmarked hwidth).noteBreak p
    rw [← hstep] at hafter
    have hrun := hafter.run (hbefore.step hl) hjob hwidth hrest
    have hfinish := hrun.finish ((hbefore.step hl).run hrest) hjob cs.length
    have hsteps : (initial job font).run job (lexemes cs) =
        (((initial job font).run job seen).step job l).run job rest := by
      rw [hsplit]
      exact List.foldl_append ..
    rwa [Job.layoutWith, hsteps]

end LayoutState

/-! ### Another wrap width -/

/-- The same job at the wrap width `w`. -/
def Job.widen (w : Int) (job : Job) : Job := { job with width := w }

namespace LayoutState

def widen (w : Int) (s : LayoutState) : LayoutState := { s with wrapWidth := w }

variable {job : Job} {s u : LayoutState} (w : Int)

theorem beginLine_widen (job : Job) (s : LayoutState) :
    (s.widen w).beginLine (job.widen w) = (s.beginLine job).widen w := by
  unfold beginLine
  change (if s.lineStarted then _ else _) = _
  split <;> rfl

theorem noteBreak_widen (s : LayoutState) (p : Bool) :
    (s.widen w).noteBreak p = (s.noteBreak p).widen w := by
  cases p <;> rfl

theorem pushMark_widen (job : Job) (s : LayoutState) (code : Nat) (kind : MarkKind) (advance : Int)
    (index : Nat) : (s.widen w).pushMark (job.widen w) code kind advance index =
      (s.pushMark job code kind advance index).widen w := by
  simp only [pushMark, beginLine_widen]
  rfl

theorem beforeMark_widen (job : Job) (s : LayoutState) (c : Nat) :
    beforeMark (job.widen w) (s.widen w) c = (beforeMark job s c).widen w := by
  simp only [beforeMark, beginLine_widen, noteBreak_widen]
  rfl

/-- Without tab stops the wrap width has no part in an advance. -/
theorem textAdvance_widen (job : Job) (hstops : s.format.tabStops = []) (c : Nat) :
    (s.widen w).textAdvance (job.widen w) c = s.textAdvance job c := by
  have htab : (s.widen w).tabAdvance (job.widen w) = s.tabAdvance job := by
    have hstops' : (s.widen w).format.tabStops = [] := hstops
    simp only [tabAdvance, hstops, hstops', List.map_nil]
    rfl
  simp only [textAdvance, htab]
  rfl

theorem carryMarks_widen (job : Job) (s : LayoutState) (cut : Nat) :
    (s.widen w).carryMarks (job.widen w) cut = (s.carryMarks job cut).widen w := by
  have hmarks : (s.widen w).marks = s.marks := rfl
  simp only [carryMarks, hmarks, beginLine_widen]
  split <;> rfl

/-- A line that is not wrapped is set in the same way. -/
theorem Toggled.commitAll_widen (h : s.Toggled job) (hjob : job.LeftAligned) {reason : LineEnd}
    (hreason : reason ≠ .wrap) :
    (s.widen w).commitAll (job.widen w) reason = (s.commitAll job reason).widen w := by
  have hmarks : (s.widen w).marks = s.marks := rfl
  have htable : (s.widen w).table = s.table := rfl
  have hcut : (s.widen w).cut s.marks.size reason = s.cut s.marks.size reason := by
    rw [cut_of_ne_wrap hreason, cut_of_ne_wrap hreason, hmarks]
  have hset : (s.widen w).setLine (job.widen w) s.marks.size (s.cut s.marks.size reason) reason =
      s.setLine job s.marks.size (s.cut s.marks.size reason) reason := by
    -- Only alignment and justification look at the width, and here neither moves a mark.
    have halign : (s.widen w).format.align.getD (s.widen w).font.style.align = .left := h.align hjob
    simp only [setLine, justified_of_ne_wrap hreason, alignShift_of_left halign,
      alignShift_of_left (h.align hjob), hmarks, htable]
    rfl
  simp only [LayoutState.commitAll, LayoutState.commit, hmarks, hcut, hset]
  rw [← carryMarks_widen]
  congr 1
  split <;> rfl

/-- A line is not tested with effect if the pen stands within the other width. -/
theorem Toggled.checkWrap_widen (h : s.Toggled job) (hwidth : job.width ≤ 0)
    (hpen : s.penX ≤ job.origin.x + w) :
    (s.widen w).checkWrap (job.widen w) = (s.checkWrap job).widen w := by
  have hwithin : ¬ (s.widen w).Overflows (job.widen w) :=
    fun hover => Int.not_lt.2 hpen hover.2.2.2
  rw [checkWrap_of_not_overflows hwithin, checkWrap_of_not_overflows (h.not_overflows hwidth)]

theorem updateWrapWidth_widen (job : Job) (hoverride : s.wrapOverride = none) (hw : 0 ≤ w) :
    (s.widen w).updateWrapWidth (job.widen w) = (s.updateWrapWidth job).widen w := by
  have hmax : max w 0 = w := by omega
  simp only [updateWrapWidth, widen, Job.widen, hoverride, Option.elim_none, hmax]

theorem useFont_widen (s : LayoutState) (id : Nat) (font : Font) :
    (s.widen w).useFont id font = (s.useFont id font).widen w := by
  simp only [useFont]
  change (if id = s.fontId then _ else _) = _
  split <;> rfl

theorem switchFont_widen (job : Job) (hoverride : s.wrapOverride = none) (hw : 0 ≤ w) :
    (s.widen w).switchFont (job.widen w) = (s.switchFont job).widen w := by
  have hwanted : (s.widen w).wantedFont (job.widen w) = s.wantedFont job := rfl
  have hfonts : (job.widen w).printer.fonts = job.printer.fonts := rfl
  simp only [switchFont, hwanted, hfonts]
  cases job.printer.fonts.get? (s.wantedFont job) with
  | none => exact updateWrapWidth_widen w job hoverride hw
  | some font =>
    have hkept : (s.useFont (s.wantedFont job) font).wrapOverride = none := by
      simp only [useFont]
      split <;> exact hoverride
    simp only [Option.elim_some, useFont_widen]
    exact updateWrapWidth_widen w job hkept hw

theorem applyToggle_widen (job : Job) (hoverride : s.wrapOverride = none) (hw : 0 ≤ w)
    (toggle : Toggle) :
    (s.widen w).applyToggle (job.widen w) toggle = (s.applyToggle job toggle).widen w := by
  have hfont : ∀ id, ({ s.widen w with format.font := id }).switchFont (job.widen w) =
      ({ s with format.font := id }.switchFont job).widen w :=
    fun id => switchFont_widen w job (s := { s with format.font := id }) hoverride hw
  cases toggle with
  | startSelection => rfl
  | endSelection => rfl
  | _ => exact hfont _

/-- A step is the same at another width if the mark that it puts on the line, in case there
    is one, does not end beyond that width. -/
theorem Toggled.step_widen (h : s.Toggled job) (hjob : job.LeftAligned) (hwidth : job.width ≤ 0)
    (hw : 0 ≤ w) {l : Lexeme} (hl : l.token.isToggling = true)
    (hpen : ∀ u, s.marked? job l = some u → u.penX ≤ job.origin.x + w) :
    (s.widen w).step (job.widen w) l = (s.step job l).widen w := by
  obtain ⟨index, token⟩ := l
  cases token with
  | text c =>
    have hstops : ((s.beginLine job).noteBreak (CodePoint.isBreaking c)).format.tabStops = [] := by
      have hbegin := sameStyle_beginLine job s
      rw [(hbegin.trans (sameStyle_noteBreak _ _)).format, h.tabStops]
    have hmarked := h.marked (l := ⟨index, .text c⟩) rfl
    have hcheck := hmarked.checkWrap_widen w hwidth (hpen _ rfl)
    change (s.widen w).place (job.widen w) c index = (s.place job c index).widen w
    simp only [place_eq, addMark, beginLine_widen, noteBreak_widen, beforeMark_widen,
      textAdvance_widen w job hstops, pushMark_widen, hcheck]
    rfl
  | placeholder =>
    have hmarked := h.marked (l := ⟨index, .placeholder⟩) rfl
    have hcheck := hmarked.checkWrap_widen w hwidth (hpen _ rfl)
    rw [← pushMark_widen] at hcheck
    exact hcheck
  | newline c =>
    have htable : (s.widen w).table = none := h.table
    rw [step_newline h.table, step_newline htable, pushMark_widen]
    exact (h.pushMark c .lineEnd 0 index).commitAll_widen w hjob LineEnd.noConfusion
  | row =>
    have htable : (s.widen w).table = none := h.table
    change (s.widen w).endRow (job.widen w) = (s.endRow job).widen w
    rw [endRow_of_no_table job h.table, endRow_of_no_table _ htable]
  | cell =>
    have htable : (s.widen w).table = none := h.table
    change (s.widen w).nextCell (job.widen w) = (s.nextCell job).widen w
    rw [nextCell_of_no_table job h.table, nextCell_of_no_table _ htable]
  | nothing => rfl
  | instruction i =>
    cases i with
    | toggle toggle => exact applyToggle_widen w job h.wrapOverride hw toggle
    | _ => cases hl

/-- A text is laid out in the same way at another width if no mark ends beyond that width when
    it is put on the line. -/
theorem Toggled.run_widen (h : s.Toggled job) (hjob : job.LeftAligned) (hwidth : job.width ≤ 0)
    (hw : 0 ≤ w) {ls : List Lexeme} (hls : ∀ l ∈ ls, l.token.isToggling = true)
    (hpen : ∀ seen l rest u, ls = seen ++ l :: rest → (s.run job seen).marked? job l = some u →
      u.penX ≤ job.origin.x + w) :
    (s.widen w).run (job.widen w) ls = (s.run job ls).widen w := by
  induction ls generalizing s with
  | nil => rfl
  | cons l ls ih =>
    obtain ⟨hl, hrest⟩ := List.forall_mem_cons.1 hls
    have hstep := h.step_widen w hjob hwidth hw hl (hpen [] l ls · rfl)
    have hrun := ih (h.step hl) hrest fun seen k rest u hsplit =>
      hpen (l :: seen) k rest u (by rw [hsplit, List.cons_append])
    rw [← hstep] at hrun
    exact hrun

theorem Toggled.finish_widen (h : s.Toggled job) (hjob : job.LeftAligned) (total : Nat) :
    (s.widen w).finish (job.widen w) total = s.finish job total := by
  have hwrapped : (s.widen w).wrapped.filter (fun _ => (s.widen w).lineIsEmpty) =
      s.wrapped.filter fun _ => s.lineIsEmpty := rfl
  have htext : LineEnd.text ≠ .wrap := LineEnd.noConfusion
  have hend := (h.pushMark 0 .textEnd 0 total).commitAll_widen w hjob htext
  simp only [LayoutState.finish, hwrapped, pushMark_widen, hend]
  split <;> rfl

end LayoutState

/-! ### Layouts -/

/-- No mark of a layout without wrapping ends beyond a width that no glyph ends beyond, so that
    the layout is the same at this width. -/
theorem Job.layoutWith_widen (job : Job) {font : Font} {cs : List Nat} {w : Int}
    (hfont : job.printer.fonts.get? job.printer.defaultFont = some font) (hjob : job.LeftAligned)
    (hwidth : job.width ≤ 0) (hw : 0 ≤ w) (hcs : OnlyToggles cs)
    (hfits : ∀ g ∈ events (job.layoutWith font cs), g.wrapped = false →
      g.location.x + g.advance ≤ job.origin.x + w) :
    (job.widen w).layoutWith font cs = job.layoutWith font cs := by
  have htoggled := LayoutState.toggled_initial hfont
  have hinitial : LayoutState.initial (job.widen w) font =
      (LayoutState.initial job font).widen w := by
    have hmax : max w 0 = w := by omega
    change { LayoutState.initial job font with wrapWidth := max w 0 } = _
    rw [hmax]
    rfl
  have hpen : ∀ seen l rest u, lexemes cs = seen ++ l :: rest →
      ((LayoutState.initial job font).run job seen).marked? job l = some u →
        u.penX ≤ job.origin.x + w := by
    intro seen l rest u hsplit hmark
    obtain ⟨m, hright, g, hg, hset, hend⟩ :=
      LayoutState.reportedIn_layout hfont hjob hwidth hcs hsplit hmark
    rw [← hright, ← hend]
    exact hfits g hg hset
  have hrun := htoggled.run_widen w hjob hwidth hw hcs hpen
  rw [layoutWith, hinitial, hrun]
  exact (htoggled.run hcs).finish_widen w hjob cs.length

namespace Printer

variable {p : Printer} {markup : List UInt8} {w : Int}

/-- A query is answered in the same way at every width that is not below what is measured. -/
theorem query_ample
    (hfonts : ∀ id font, p.fonts.get? id = some font → font.style.align = .left)
    (htext : OnlyToggles (Codec.decode markup)) {size : Size} (hsize : p.measure markup = .ok size)
    (hw : size.width ≤ w) {σ : Type} (origin : Point) (t : Traversal σ) (initial : σ) :
    p.query markup origin w t initial = p.query markup origin 0 t initial := by
  simp only [query, Job.layout]
  cases hfont : p.fonts.get? p.defaultFont with
  | none => rfl
  | some font =>
    have hlayout : (Job.mk p .zero 0).layout markup =
        .ok ((Job.mk p .zero 0).layoutWith font (Codec.decode markup)) := Job.layout_eq hfont markup
    obtain ⟨size', hsize', hnonneg, -, hfits⟩ := measureWrapped_eq hlayout
    obtain rfl : size = size' := Except.ok.inj (hsize.symm.trans hsize')
    have hsame : (Job.mk p .zero w).layoutWith font (Codec.decode markup) =
        (Job.mk p .zero 0).layoutWith font (Codec.decode markup) := by
      refine Job.layoutWith_widen ⟨p, .zero, 0⟩ hfont hfonts (Int.le_refl 0)
        (Int.le_trans hnonneg hw) htext fun g hg hset => ?_
      have hright := (hfits g hg).1 hset
      have horigin : Point.zero.x = 0 := rfl
      rw [horigin, Int.zero_add]
      exact Int.le_trans hright hw
    simp only [Job.layoutWith_translate p .zero origin, hsame]

/-- **A wrap width that no line comes to changes nothing.**  The text may toggle fonts and
    selections but must not hold any other instruction, and no font may align its lines other
    than to the left. Then at every width that is not below the one that is measured without
    wrapping, the layout is what it is without wrapping: the same items and regions, wherever
    it begins and wherever it is stopped. So the size, the position that a point hits and the
    place of a position are those of the text that is not wrapped. -/
theorem ample_width
    (hfonts : ∀ id font, p.fonts.get? id = some font → font.style.align = .left)
    (htext : OnlyToggles (Codec.decode markup)) {size : Size} (hsize : p.measure markup = .ok size)
    (hw : size.width ≤ w) :
    (∀ origin stopAfter, p.layout markup origin w stopAfter =
      p.layout markup origin 0 stopAfter) ∧
    p.measureWrapped markup w = p.measure markup ∧
    (∀ point, p.hitTestWrapped markup w point = p.hitTest markup point) ∧
    ∀ index, p.locateWrapped markup w index = p.locate markup index := by
  refine ⟨?_, ?_, ?_, ?_⟩
  · intro origin stopAfter
    rw [layout, query_ample hfonts htext hsize hw, ← layout]
  · rw [measureWrapped, query_ample hfonts htext hsize hw]
    rfl
  · intro point
    rw [hitTestWrapped, query_ample hfonts htext hsize hw]
    rfl
  · intro index
    rw [locateWrapped, query_ample hfonts htext hsize hw]
    rfl

/-- A letter and one in the bold font, at the width that the two have. -/
theorem ample_width_boxes :
    boxes.measure [0x61, 0x0E, 0x62] = .ok ⟨22, 24⟩ ∧
    (∀ origin stopAfter, boxes.layout [0x61, 0x0E, 0x62] origin 22 stopAfter =
      boxes.layout [0x61, 0x0E, 0x62] origin 0 stopAfter) ∧
    boxes.measureWrapped [0x61, 0x0E, 0x62] 22 = boxes.measure [0x61, 0x0E, 0x62] ∧
    (∀ point, boxes.hitTestWrapped [0x61, 0x0E, 0x62] 22 point =
      boxes.hitTest [0x61, 0x0E, 0x62] point) ∧
    ∀ index, boxes.locateWrapped [0x61, 0x0E, 0x62] 22 index =
      boxes.locate [0x61, 0x0E, 0x62] index := by
  have hfonts : ∀ id font, boxes.fonts.get? id = some font → font.style.align = .left := by
    intro id font hfont
    rcases font_of_boxes hfont with rfl | rfl
    · rfl
    · rfl
  have htext : OnlyToggles (Codec.decode [0x61, 0x0E, 0x62]) :=
    onlyToggles_of_no_introducers (by decide +kernel)
  have hsize : boxes.measure [0x61, 0x0E, 0x62] = .ok ⟨22, 24⟩ := by decide +kernel
  exact ⟨hsize, ample_width hfonts htext hsize (Int.le_refl 22)⟩

end Printer

end RichText
