/-
  RichText/Proofs/Layout/Overhang.lean
  ====================================
  **Which glyphs stand past the wrap width.**

  A line is wrapped when a mark has moved the pen past the wrap width.  What goes on to
  the next line is not tested again: it may be too wide in its turn, and once another
  mark follows, the places where the line may break are all behind it.  So a line can
  hold a glyph past the wrap width among others, and `Printer.past_width_iff` says when:
  if the line was still too wide (`Overfull`) once the token of that glyph had been taken.
-/
import RichText.Proofs.Layout.Wrapping

namespace RichText

namespace LayoutState

variable {job : Job} {s : LayoutState} {wide : Nat → Prop}

/-! ### Taking a token -/

/-- A glyph is put where no mark begins after it. -/
theorem Filling.placed_beforeMark (h : s.Filling wide job) (c : Nat) :
    (beforeMark job s c).Placed wide job ∧
      Behind job (beforeMark job s c).marks.toList ((beforeMark job s c).beginLine job).penX := by
  have hline := sameLine_beginLine job s
  have hbegin : (s.beginLine job).Placed wide job :=
    h.toPlaced.congr (h.plain.congr (sameSettings_beginLine job s)) hline.marks hline.lines
      hline.lastBreak
  have hplaced := hbegin.noteBreak (CodePoint.isBreaking c)
  refine ⟨hplaced.congr (hplaced.plain.congr {}) rfl rfl rfl, ?_⟩
  refine h.penAfter.behind_beforeMark h.marks.rightward h.plain.leftEdge ?_
  exact (hplaced.plain.roomBefore c).imp_left fun hroom => Int.le_of_eq hroom.symm

theorem overfull_noteBreak (job : Job) (s : LayoutState) (p : Bool) :
    Overfull job (s.noteBreak p) ↔ Overfull job s := by
  cases p with
  | true => exact Iff.rfl
  | false => exact Iff.rfl

theorem Filling.place (h : s.Filling wide job) (hjob : job.Plain) (c index : Nat)
    (hwide : Overfull job (s.place job c index) ↔ wide index) :
    (s.place job c index).Filling wide job := by
  obtain ⟨hplaced, hbehind⟩ := h.placed_beforeMark c
  have hplain : ((s.beginLine job).noteBreak (CodePoint.isBreaking c)).Plain job :=
    (h.plain.congr (sameSettings_beginLine job s)).congr (sameSettings_noteBreak _ _)
  rw [place_eq, overfull_noteBreak] at hwide
  rw [place_eq]
  exact (hplaced.addMark hjob (hplain.textAdvance_nonneg c) hbehind hwide).noteBreak _

theorem Filling.placePlaceholder (h : s.Filling wide job) (hjob : job.Plain) (index : Nat)
    (hwide : Overfull job (s.placePlaceholder job index) ↔ wide index) :
    (s.placePlaceholder job index).Filling wide job := by
  have hadvance : 0 ≤ s.placeholder.width := by
    rw [h.plain.placeholder]
    exact Int.le_refl 0
  have hbehind := (h.penAfter.behind h.marks.rightward h.plain.leftEdge).1
  exact h.addMark hjob hadvance hbehind hwide

/-- The end of a line or of the text is put on the line, which is then committed. -/
theorem Filling.close (h : s.Filling wide job) (code index : Nat) {kind : MarkKind}
    {reason : LineEnd} (hkind : kind.isEnd = true) (hr : reason ≠ .wrap ∧ reason ≠ .row) :
    ((s.pushMark job code kind 0 index).commitAll job reason).Filling wide job := by
  generalize hu : s.pushMark job code kind 0 index = u
  have hplain : u.Plain job :=
    hu ▸ h.plain.congr (sameSettings_pushMark job s code kind 0 index)
  have hlist : u.marks.toList = s.marks.toList ++ [newMark job s code kind 0 index] :=
    hu ▸ toList_pushMark job s code kind 0 index
  have hul : u.lines = s.lines := hu ▸ (pushMark_frame job s code kind 0 index).1
  have hcut : u.cut u.marks.size reason = u.marks.size := cut_of_ne_wrap hr.1
  obtain ⟨-, hl, hb, -⟩ := commit_frame job u u.marks.size reason
  obtain ⟨hm, hs, hp⟩ := commitAll_empty job u hr.1
  refine filling_of_empty (hplain.congr (sameSettings_commit job u _ hr.2)) hm hs hp hb ?_
  change ∀ l ∈ (u.commit job u.marks.size reason).lines.toList, l.Told wide job
  rw [hl, Array.toList_push, hul]
  intro l hmem
  rcases List.mem_append.1 hmem with hmem | hmem
  · exact h.lines l hmem
  · rw [List.mem_singleton.1 hmem]
    exact h.told_line hplain hlist (Nat.le_of_eq hcut.symm) (Or.inr (Or.inr hkind))

theorem Filling.newline (h : s.Filling wide job) (c index : Nat) :
    (s.newline job c index).Filling wide job := by
  have hplain : (s.pushMark job c .lineEnd 0 index).Plain job :=
    h.plain.congr (sameSettings_pushMark job s c .lineEnd 0 index)
  unfold LayoutState.newline
  dsimp only
  rw [hplain.table]
  exact h.close c index rfl ⟨(fun h => nomatch h), (fun h => nomatch h)⟩

/-- A token of the text or a change of the font leaves its glyph past the wrap width if
    the line is then too wide. -/
theorem Filling.step (h : s.Filling wide job) (hjob : job.Plain) {l : Lexeme}
    (hl : l.token.Plain) (hwide : Overfull job (s.step job l) ↔ wide l.index) :
    (s.step job l).Filling wide job := by
  obtain ⟨index, token⟩ := l
  cases token with
  | text c => exact h.place hjob c index hwide
  | newline c => exact h.newline c index
  | placeholder => exact h.placePlaceholder hjob index hwide
  | nothing => exact h
  | row =>
    change (s.endRow job).Filling wide job
    rw [endRow_of_no_table job h.plain.table]
    exact h
  | cell =>
    change (s.nextCell job).Filling wide job
    rw [nextCell_of_no_table job h.plain.table]
    exact h
  | instruction i =>
    cases i with
    | toggle t =>
      obtain ⟨hplain, hquiet⟩ := h.plain.applyToggle hjob hl
      exact h.quiet hplain hquiet
    | switch w => exact absurd hl id
    | setting setting => exact absurd hl id

/-- After a run the glyphs in `wide` are those whose tokens left the line too wide. -/
theorem Filling.run (h : s.Filling wide job) (hjob : job.Plain) {ls : List Lexeme}
    (hls : ∀ l ∈ ls, l.token.Plain)
    (hwide : ∀ seen l rest, ls = seen ++ l :: rest →
      (Overfull job (s.run job (seen ++ [l])) ↔ wide l.index)) :
    (s.run job ls).Filling wide job := by
  induction ls generalizing s with
  | nil => exact h
  | cons l ls ih =>
    have hstep : (s.step job l).Filling wide job :=
      h.step hjob (hls l List.mem_cons_self) (hwide [] l ls rfl)
    refine ih hstep (fun k hk => hls k (List.mem_cons_of_mem l hk)) ?_
    intro seen k rest hsplit
    exact hwide (l :: seen) k rest (congrArg (l :: ·) hsplit)

theorem Filling.finish (h : s.Filling wide job) (total : Nat) :
    ∀ l ∈ s.finish job total, l.Told wide job := by
  unfold LayoutState.finish
  cases s.wrapped.filter fun _ => s.lineIsEmpty with
  | none => exact (h.close 0 total rfl (by decide)).lines
  | some w =>
    intro l hl
    rcases List.mem_append.1 hl with hl | hl
    · exact h.lines l hl
    · -- The end of the text is all that is on this line.
      have hnone : (Line.mk [] [.glyph (s.wrappedEnd w total)] [] []).content = [] := rfl
      rw [List.mem_singleton.1 hl]
      intro _ g hg
      rw [hnone] at hg
      cases hg

end LayoutState

end RichText
