/-
  RichText/Proofs/Layout/Tops.lean
  ================================
  **Where lines begin, seen from above.**

  A line begins at the top of the state in which it is committed.  `Job.tops` reads these tops
  off the states that a text goes through, and so has one also for a line without a glyph.  Of
  an input that sets no negative spacing (`Token.descends`, `Printer.Descends`) no line begins
  above one that comes before it.
-/
import RichText.Proofs.Layout.Closing
import RichText.Proofs.Layout.Rows

namespace RichText

namespace LayoutState

/-! ### The tops of lines -/

/-- The tops of the lines that tokens commit. -/
def topsFrom (job : Job) (s : LayoutState) : List Lexeme → List Int
  | [] => []
  | l :: ls =>
    (if (s.step job l).lines.size = s.lines.size then [] else [s.top]) ++
      topsFrom job (s.step job l) ls

/-- The top of the line that ends the text, which may be that of the line wrapped last. -/
def lastTop (s : LayoutState) : Int := (s.wrapped.filter fun _ => s.lineIsEmpty).elim s.top (·.top)

end LayoutState

/-- The tops of the lines of a layout. -/
def Job.tops (job : Job) (font : Font) (cs : List Nat) : List Int :=
  LayoutState.topsFrom job (.initial job font) (lexemes cs) ++
    [((LayoutState.initial job font).run job (lexemes cs)).lastTop]

/-- All that is reported of a line has the same top. -/
def Line.BeginsAt (line : Line) (top : Int) : Prop := ∀ g ∈ line.events, g.lineTop = top

namespace LayoutState

variable {job : Job} {font : Font} {cs : List Nat} {s t u : LayoutState} {l : Lexeme}
  {seen rest : List Lexeme} {content : Nat} {reason : LineEnd} {tops : List Int}

theorem topsFrom_concat (job : Job) (s : LayoutState) (seen : List Lexeme) (l : Lexeme) :
    topsFrom job s (seen ++ [l]) = topsFrom job s seen ++
      if (s.run job (seen ++ [l])).lines.size = (s.run job seen).lines.size then []
      else [(s.run job seen).top] := by
  induction seen generalizing s with
  | nil => exact List.append_nil _
  | cons k seen ih =>
    rw [List.cons_append, topsFrom, topsFrom, ih, List.append_assoc]
    rfl

theorem sameRows_marked (hmark : s.marked? job l = some u) : SameRows s u := by
  obtain ⟨v, code, kind, advance, p, hv, -, rfl, -⟩ := marked_cases hmark
  have hpush := sameRows_pushMark job v code kind advance l.index
  rcases hv with rfl | ⟨rfl, -⟩
  · exact hpush
  · exact (sameRows_beforeMark job s code).trans hpush

theorem sameRows_closed (hclose : s.closed? job l = some (u, reason)) : SameRows s u := by
  rcases closed_cases hclose with ⟨c, -, rfl, -⟩ | ⟨-, rfl, -⟩ | ⟨t, -, rfl, -⟩ | ⟨-, rfl, -⟩
  · exact sameRows_pushMark job s c .lineEnd 0 l.index
  · exact sameRows_beginLine job s
  · exact {}
  · exact {}

theorem committedLine_beginsAt (job : Job) (u : LayoutState) (content : Nat) (reason : LineEnd) :
    (u.committedLine job content reason).BeginsAt u.top := by
  intro g hg
  rw [committedLine, SetLine.events_line] at hg
  rcases List.mem_append.1 hg with hg | hg
  · obtain ⟨m, -, rfl⟩ := List.mem_map.1 hg
    rfl
  · obtain ⟨m, -, rfl⟩ := List.mem_map.1 hg
    rfl

/-- A token leaves the lines as they are, or commits one at the top of the state. -/
theorem lines_step (job : Job) (s : LayoutState) (l : Lexeme) :
    (s.step job l).lines = s.lines ∨
      ∃ line, (s.step job l).lines = s.lines.push line ∧ line.BeginsAt s.top := by
  refine step_preserves (P := fun t => t.lines = s.lines ∨
    ∃ line, t.lines = s.lines.push line ∧ line.BeginsAt s.top) ?_ ?_ (fun _ ht => ht) ?_
    fun hidle => Or.inl hidle.waits.lines
  · intro u hmark _
    exact Or.inl (sameRows_marked hmark).lines
  · intro u hmark _
    have hrows := sameRows_marked hmark
    rw [(commit_frame job u u.breakAt .wrap).2.1, hrows.lines, ← hrows.top]
    exact Or.inr ⟨_, rfl, committedLine_beginsAt job u u.breakAt .wrap⟩
  · intro u reason hclose
    have hrows := sameRows_closed hclose
    rw [(lines_of_closed hclose).2, hrows.lines, ← hrows.top]
    exact Or.inr ⟨_, rfl, committedLine_beginsAt job u u.marks.size reason⟩

theorem forall₂_concat {α β : Type} {R : α → β → Prop} {as : List α} {bs : List β} {a : α} {b : β}
    (h : List.Forall₂ R as bs) (hab : R a b) : List.Forall₂ R (as ++ [a]) (bs ++ [b]) :=
  List.rel_append h (.cons hab .nil)

theorem tops_run (job : Job) (font : Font) (hsplit : lexemes cs = seen ++ rest) :
    List.Forall₂ Line.BeginsAt ((initial job font).run job seen).lines.toList
      (topsFrom job (initial job font) seen) := by
  induction seen using List.reverseRecOn generalizing rest with
  | nil => exact .nil
  | append_singleton seen l ih =>
    have hsplit : lexemes cs = seen ++ l :: rest := by
      rw [hsplit, List.append_assoc, List.singleton_append]
    have hbefore := ih hsplit
    rw [topsFrom_concat, run_concat]
    rcases lines_step job ((initial job font).run job seen) l with hsame | ⟨line, hpush, hline⟩
    · rw [hsame, if_pos rfl, List.append_nil]
      exact hbefore
    · rw [hpush, Array.size_push, if_neg (Nat.succ_ne_self _), Array.toList_push]
      exact forall₂_concat hbefore hline

/-- Each line begins at its top. -/
theorem tops_layout (job : Job) (font : Font) (cs : List Nat) :
    List.Forall₂ Line.BeginsAt (job.layoutWith font cs) (job.tops font cs) := by
  have hrun := tops_run job font (List.append_nil (lexemes cs)).symm
  simp only [Job.layoutWith, Job.tops, finish, lastTop]
  cases hwrapped : ((initial job font).run job (lexemes cs)).wrapped.filter fun _ =>
      ((initial job font).run job (lexemes cs)).lineIsEmpty with
  | some w =>
    refine forall₂_concat hrun fun g hg => ?_
    rw [List.mem_singleton.1 hg]
    rfl
  | none =>
    have hrows := sameRows_pushMark job ((initial job font).run job (lexemes cs)) 0 .textEnd 0
      cs.length
    dsimp only [Option.elim_none]
    rw [commitAll, (commit_frame job _ _ .text).2.1, Array.toList_push, hrows.lines, ← hrows.top]
    exact forall₂_concat hrun (committedLine_beginsAt job _ _ .text)

end LayoutState

/-! ### Inputs without negative spacing -/

namespace Length

/-- Whether no part of a length is negative. -/
def isNonneg (l : Length) : Bool :=
  0 ≤ l.pixels.toInt ∧ 0 ≤ l.relative.toInt ∧ 0 ≤ l.basisPoints.toInt

theorem share_nonneg {factor : Binary32} (hfactor : factor.isNegative = false) {reference : Int}
    (hreference : 0 ≤ reference) : 0 ≤ share factor reference :=
  Binary32.round_nonneg (Binary32.isNegative_mul hfactor (Binary32.isNegative_ofRatio hreference 1))

theorem resolveWith_nonneg {l : Length} (h : l.isNonneg = true) {reference second : Int}
    (hreference : 0 ≤ reference) (hsecond : 0 ≤ second) :
    0 ≤ l.resolveWith reference second := by
  obtain ⟨hpixels, hrelative, hbasis⟩ := of_decide_eq_true h
  have hpercent : (percent l.relative).isNegative = false :=
    Binary32.isNegative_mul (Binary32.isNegative_ofRatio hrelative 1)
      (Binary32.isNegative_ofRatio (by decide) 100)
  have hfirst := share_nonneg hpercent hreference
  have hlast := share_nonneg (Binary32.isNegative_ofRatio hbasis 10000) hsecond
  rw [resolveWith]
  simp only [basis]
  omega

theorem resolveOr_nonneg {l : Option Length} (h : l.all isNonneg = true) {reference default : Int}
    (hreference : 0 ≤ reference) (hdefault : 0 ≤ default) :
    0 ≤ resolveOr l reference default := by
  cases l with
  | none => exact hdefault
  | some l => exact resolveWith_nonneg h hreference (Int.le_refl 0)

end Length

/-- Whether neither the size of an image nor the room above and below it is negative. -/
def ImageSetting.isNonneg (i : ImageSetting) : Bool :=
  i.size.all (fun (w, h) => w.all Length.isNonneg && h.all Length.isNonneg) &&
    decide (0 ≤ (LayoutState.imageMargin i.margin).vertical)

/-- Whether a token sets no negative spacing between lines, and no image of a negative size. -/
def Token.descends : Token → Bool
  | .instruction (.setting (.length target l)) =>
    match target with
    | .lineSpacing | .paragraphSpacing | .verticalSpace => l.all Length.isNonneg
    | _ => true
  | .instruction (.setting (.image i)) => i.isNonneg
  | _ => true

/-- A font whose lines are not set one above the other. -/
structure Font.Descends (f : Font) : Prop where
  height : 0 ≤ f.face.height
  lineSpacing : f.style.lineSpacing.isNegative = false
  paragraphSpacing : 0 ≤ f.style.paragraphSpacing

/-- No font and no image of the printer takes room of a negative height. -/
structure Printer.Descends (p : Printer) : Prop where
  fonts : ∀ id font, p.fonts.get? id = some font → font.Descends
  images : ∀ id image, p.images.get? id = some image →
    0 ≤ image.size.width ∧ 0 ≤ image.size.height

/-- No negative spacing between lines is set. -/
structure Format.Descends (f : Format) : Prop where
  lineSpacing : f.lineSpacing.all Length.isNonneg = true
  paragraphSpacing : f.paragraphSpacing.all Length.isNonneg = true

namespace LayoutState

variable {job : Job} {font : Font} {cs : List Nat} {s t u : LayoutState} {l : Lexeme}
  {seen rest : List Lexeme} {content : Nat} {reason : LineEnd} {tops : List Int}

/-- The lines with these tops, and the next one, do not begin above one another, and nothing
    on the line being filled has a negative height. -/
structure Descends (tops : List Int) (s : LayoutState) : Prop where
  format : s.format.Descends
  font : s.font.Descends
  wrapWidth : 0 ≤ s.wrapWidth
  placeholder : 0 ≤ s.placeholder.height
  space : 0 ≤ s.verticalSpace
  marks : ∀ m ∈ s.marks.toList, 0 ≤ m.height
  sorted : tops.Pairwise (· ≤ ·)
  top : ∀ y ∈ tops, y ≤ s.top
  wrapped : ∀ w, s.wrapped = some w → ∀ y ∈ tops, y ≤ w.top

namespace Descends

theorem congr (h : s.Descends tops) (hstyle : SameStyle s t) (hrows : SameRows s t)
    (hmarks : ∀ m ∈ t.marks.toList, m ∈ s.marks.toList ∨ 0 ≤ m.height) : t.Descends tops where
  format := hstyle.format ▸ h.format
  font := hstyle.font ▸ h.font
  wrapWidth := hstyle.wrapWidth ▸ h.wrapWidth
  placeholder := hstyle.placeholder ▸ h.placeholder
  space := hrows.verticalSpace ▸ h.space
  marks m hm := (hmarks m hm).elim (h.marks m) id
  sorted := h.sorted
  top := hrows.top ▸ h.top
  wrapped := hrows.wrapped ▸ h.wrapped

theorem noteBreak (h : s.Descends tops) (p : Bool) : (s.noteBreak p).Descends tops :=
  h.congr (sameStyle_noteBreak s p) (sameRows_noteBreak s p)
    fun _ hm => Or.inl ((noteBreak_frame s p).1 ▸ hm)

theorem beginLine (h : s.Descends tops) (job : Job) : (s.beginLine job).Descends tops :=
  h.congr (sameStyle_beginLine job s) (sameRows_beginLine job s)
    fun _ hm => Or.inl ((sameLine_beginLine job s).marks ▸ hm)

theorem pushMark (h : s.Descends tops) (job : Job) (code : Nat) {kind : MarkKind} (advance : Int)
    (index : Nat) (hkind : ∀ i, kind = .image i → 0 ≤ i.height) :
    (s.pushMark job code kind advance index).Descends tops := by
  refine h.congr (sameStyle_pushMark job s code kind advance index)
    (sameRows_pushMark job s code kind advance index) fun m hm => ?_
  rw [toList_pushMark] at hm
  rcases List.mem_append.1 hm with hm | hm
  · exact Or.inl hm
  · right
    rw [List.mem_singleton.1 hm]
    have hbegin := h.beginLine job
    change 0 ≤ ((s.beginLine job).markBox kind).2
    -- A script changes the baseline alone.
    simp only [markBox]
    cases (s.beginLine job).format.script <;> cases kind with
    | image i => exact hkind i rfl
    | placeholder => exact hbegin.placeholder
    | _ => exact hbegin.font.height

theorem lineSpacing_nonneg (h : s.Descends tops) {height : Int} (hheight : 0 ≤ height) :
    0 ≤ s.lineSpacing height := by
  simp only [lineSpacing]
  cases hspacing : s.format.lineSpacing with
  | some l =>
    have hl := h.format.lineSpacing
    rw [hspacing] at hl
    exact Length.resolveWith_nonneg hl hheight (Int.le_refl 0)
  | none =>
    have hleading : 0 ≤ height + max (s.font.face.lineGap - s.font.face.height) 0 := by omega
    exact Length.share_nonneg h.font.lineSpacing hleading

/-- The line that is committed begins at the top, and the next one does not begin above it. -/
theorem commit (h : s.Descends tops) (job : Job) (content : Nat) (reason : LineEnd) :
    (s.commit job content reason).Descends (tops ++ [s.top]) := by
  have hstyle := sameStyle_commit job s content reason
  have hbelow := startsBelow_commit job s content reason
  obtain ⟨⟨dx, hmarks⟩, -⟩ := commit_frame job s content reason
  have hheight : 0 ≤ (s.setLine job content (s.cut content reason) reason).height :=
    Mark.le_box h.font.height fun m hm => h.marks m (List.mem_of_mem_take hm)
  have hline := h.lineSpacing_nonneg hheight
  have hparagraph : 0 ≤ s.paragraphSpacing
      (s.setLine job content (s.cut content reason) reason).height :=
    Length.resolveOr_nonneg h.format.paragraphSpacing hheight h.font.paragraphSpacing
  have hbottom : (s.setLine job content (s.cut content reason) reason).bottom =
      s.top + s.lineSpacing (s.setLine job content (s.cut content reason) reason).height := rfl
  have hnext : s.top ≤ (s.commit job content reason).top := by
    have hspace := h.space
    rcases hbelow.top with htop | htop <;> rw [htop, hbottom] <;> omega
  have htops : ∀ y ∈ tops ++ [s.top], y ≤ s.top := by
    intro y hy
    rcases List.mem_append.1 hy with hy | hy
    · exact h.top y hy
    · exact Int.le_of_eq (List.mem_singleton.1 hy)
  refine ⟨hstyle.format ▸ h.format, hstyle.font ▸ h.font, hstyle.wrapWidth ▸ h.wrapWidth,
    hstyle.placeholder ▸ h.placeholder, Int.le_of_eq hbelow.space.symm, ?_, ?_, ?_, ?_⟩
  · intro m hm
    rw [hmarks] at hm
    obtain ⟨k, hk, rfl⟩ := List.mem_map.1 hm
    exact h.marks k (List.mem_of_mem_drop hk)
  · refine List.pairwise_append.2 ⟨h.sorted, List.pairwise_singleton _ _, fun y hy z hz => ?_⟩
    rw [List.mem_singleton.1 hz]
    exact h.top y hy
  · exact fun y hy => Int.le_trans (htops y hy) hnext
  · intro w hw
    obtain ⟨-, -, htop, -⟩ := hbelow.wrapped w hw
    rw [htop]
    exact htops

/-- A font is registered, so that nothing ends where another one comes into use. -/
theorem switchFont (h : s.Descends tops) (hjob : job.printer.Descends) {format : Format}
    (hformat : format.Descends) :
    ({ s with format := format }.switchFont job).Descends tops := by
  have hwidth : ∀ u : LayoutState, 0 ≤ (u.updateWrapWidth job).wrapWidth :=
    fun u => Int.le_max_right _ _
  simp only [LayoutState.switchFont]
  cases hfont : job.printer.fonts.get? ({ s with format := format }.wantedFont job) with
  | none =>
    exact ⟨hformat, h.font, hwidth _, h.placeholder, h.space, h.marks, h.sorted, h.top, h.wrapped⟩
  | some font =>
    simp only [Option.elim_some, useFont]
    split
    · exact ⟨hformat, h.font, hwidth _, h.placeholder, h.space, h.marks, h.sorted, h.top,
        h.wrapped⟩
    · exact ⟨hformat, hjob.fonts _ font hfont, hwidth _, h.placeholder, h.space, h.marks, h.sorted,
        h.top, h.wrapped⟩

end Descends

/-! ### Tokens -/

theorem scale_nonneg {value num den : Int} (hvalue : 0 ≤ value) (hnum : 0 ≤ num)
    (hden : 0 ≤ den) : 0 ≤ scale value num den := by
  simp only [scale]
  split
  · exact hvalue
  · split
    · exact Int.tdiv_nonneg (Int.mul_nonneg hvalue hnum) hden
    · decide

theorem imageSize_nonneg {natural : Size} (hnatural : 0 ≤ natural.width ∧ 0 ≤ natural.height)
    (requested : Option Size) (hrequested : ∀ size, requested = some size →
      0 ≤ size.width ∧ 0 ≤ size.height) (wrapWidth : Int) :
    0 ≤ (imageSize natural requested wrapWidth).height := by
  obtain ⟨hwidth, hheight⟩ := hnatural
  -- The size before it is fitted to the wrap width.
  have hfit : ∀ size : Size, 0 ≤ size.width → 0 ≤ size.height →
      0 ≤ (if 0 < wrapWidth ∧ wrapWidth < size.width then
        (⟨wrapWidth, scale size.height wrapWidth size.width⟩ : Size) else size).height := by
    intro size hw hh
    split
    · next hwide => exact scale_nonneg hh (Int.le_of_lt hwide.1) hw
    · exact hh
  cases requested with
  | none => exact hfit natural hwidth hheight
  | some size =>
    obtain ⟨w, h⟩ := size
    obtain ⟨hw, hh⟩ := hrequested ⟨w, h⟩ rfl
    simp only [imageSize]
    split
    · exact hfit natural hwidth hheight
    · split
      · exact hfit _ (scale_nonneg hwidth hh hheight) hh
      · split
        · exact hfit _ hw (scale_nonneg hheight hw hwidth)
        · exact hfit _ hw hh

theorem Descends.height_imageMark (h : s.Descends tops) {i : ImageSetting}
    (hi : i.isNonneg = true) {image : Image}
    (himage : 0 ≤ image.size.width ∧ 0 ≤ image.size.height) :
    0 ≤ (s.imageMark i image).height := by
  rw [ImageSetting.isNonneg, Bool.and_eq_true] at hi
  obtain ⟨hsize, hmargin⟩ := hi
  have hmargin := of_decide_eq_true hmargin
  refine Int.add_nonneg hmargin (imageSize_nonneg himage _ ?_ s.wrapWidth)
  intro size hsome
  obtain ⟨⟨w, h'⟩, hrequest, rfl⟩ := Option.map_eq_some_iff.1 hsome
  rw [hrequest, Option.all_some, Bool.and_eq_true] at hsize
  exact ⟨Length.resolveOr_nonneg hsize.1 h.wrapWidth (Int.le_refl 0),
    Length.resolveOr_nonneg hsize.2 h.font.height (Int.le_refl 0)⟩

/-- Nothing on the line has a negative height when a token has put its mark there. -/
theorem Descends.marked (h : s.Descends tops) (hjob : job.printer.Descends)
    (hl : l.token.descends = true) (hmark : s.marked? job l = some u) : u.Descends tops := by
  obtain ⟨index, token⟩ := l
  cases token with
  | text c =>
    obtain rfl := Option.some.inj hmark
    refine Descends.pushMark ?_ job c _ index fun i hi => nomatch hi
    exact h.congr (sameStyle_beforeMark job s c) (sameRows_beforeMark job s c)
      fun _ hm => Or.inl ((beforeMark_frame job s c).1 ▸ hm)
  | placeholder =>
    obtain rfl := Option.some.inj hmark
    exact h.pushMark job _ _ index fun i hi => nomatch hi
  | instruction instr =>
    cases instr with
    | setting setting =>
      cases setting with
      | length target l =>
        cases target with
        | horizontalSpace =>
          cases l with
          | none => cases hmark
          | some l =>
            obtain rfl := Option.some.inj hmark
            exact h.pushMark job _ _ index fun i hi => nomatch hi
        | _ => cases hmark
      | image i =>
        simp only [marked?, Option.map_eq_some_iff] at hmark
        obtain ⟨image, himage, rfl⟩ := hmark
        refine h.pushMark job _ _ index fun k hk => ?_
        obtain rfl := MarkKind.image.inj hk
        exact h.height_imageMark hl (hjob.images _ image himage)
      | _ => cases hmark
    | _ => cases hmark
  | _ => cases hmark

theorem Descends.closed (h : s.Descends tops) (hclose : s.closed? job l = some (u, reason)) :
    u.Descends tops := by
  rcases closed_cases hclose with ⟨c, -, rfl, -⟩ | ⟨-, rfl, -⟩ | ⟨t, -, rfl, -⟩ | ⟨-, rfl, -⟩
  · exact h.pushMark job c 0 l.index fun i hi => nomatch hi
  · exact h.beginLine job
  · exact h
  · exact h

theorem Descends.applySetting (h : s.Descends tops) (hjob : job.printer.Descends) {index : Nat}
    {setting : Setting} (hl : (Token.instruction (.setting setting)).descends = true)
    (hmark : s.marked? job ⟨index, .instruction (.setting setting)⟩ = none)
    (hclose : s.closed? job ⟨index, .instruction (.setting setting)⟩ = none) :
    (s.applySetting job index setting).Descends tops := by
  obtain ⟨⟨hline, hparagraph⟩, hfont, hwidth, hplaceholder, hspace, hmarks, hsorted, htop,
    hwrapped⟩ := h
  have hsame : s.Descends tops := ⟨⟨hline, hparagraph⟩, hfont, hwidth, hplaceholder, hspace, hmarks,
    hsorted, htop, hwrapped⟩
  -- What sets neither spacing nor the wrap width.
  have hformat : ∀ {t : LayoutState}, t.format.lineSpacing = s.format.lineSpacing →
      t.format.paragraphSpacing = s.format.paragraphSpacing → t.font = s.font →
      0 ≤ t.wrapWidth → 0 ≤ t.placeholder.height → SameRows s t → t.marks = s.marks →
      t.Descends tops := by
    intro t hl hp hf hw hh hrows hm
    exact ⟨⟨hl ▸ hline, hp ▸ hparagraph⟩, hf ▸ hfont, hw, hh, hrows.verticalSpace ▸ hspace,
      hm ▸ hmarks, hsorted, hrows.top ▸ htop, hrows.wrapped ▸ hwrapped⟩
  cases setting with
  | color target c => cases target <;> exact hformat rfl rfl rfl hwidth hplaceholder {} rfl
  | length target l =>
    cases target with
    | lineSpacing =>
      exact ⟨⟨hl, hparagraph⟩, hfont, hwidth, hplaceholder, hspace, hmarks, hsorted, htop, hwrapped⟩
    | paragraphSpacing =>
      exact ⟨⟨hline, hl⟩, hfont, hwidth, hplaceholder, hspace, hmarks, hsorted, htop, hwrapped⟩
    | wrapWidth => exact hformat rfl rfl rfl (Int.le_max_right _ _) hplaceholder {} rfl
    | horizontalSpace =>
      cases l with
      | none => exact hsame
      | some l => cases hmark
    | verticalSpace =>
      cases l with
      | none => exact hsame
      | some l =>
        have hroom : 0 ≤ l.resolve s.font.face.height :=
          Length.resolveWith_nonneg hl hfont.height (Int.le_refl 0)
        simp only [LayoutState.applySetting, applyLength, Option.elim_some, addVerticalSpace]
        split
        · refine ⟨⟨hline, hparagraph⟩, hfont, hwidth, hplaceholder, hspace, hmarks, hsorted,
            fun y hy => ?_, hwrapped⟩
          have hle := htop y hy
          change y ≤ s.top + _
          omega
        · exact ⟨⟨hline, hparagraph⟩, hfont, hwidth, hplaceholder, Int.add_nonneg hspace hroom,
            hmarks, hsorted, htop, hwrapped⟩
    | _ => exact hformat rfl rfl rfl hwidth hplaceholder {} rfl
  | image i =>
    simp only [marked?, Option.map_eq_none_iff] at hmark
    simp only [LayoutState.applySetting, placeImage, hmark, Option.elim_none]
    exact hsame
  | font id => exact hsame.switchFont hjob ⟨hline, hparagraph⟩
  | lineSettings line change =>
    cases line <;> exact hformat rfl rfl rfl hwidth hplaceholder {} rfl
  | beginTable border width columns =>
    simp only [closed?] at hclose
    split at hclose
    · next hempty =>
      simp only [LayoutState.applySetting, beginTable, finishLine, hempty, if_true]
      exact hformat rfl rfl rfl hwidth hplaceholder {} rfl
    · cases hclose
  | addTabStop id position =>
    cases position <;> exact hformat rfl rfl rfl hwidth hplaceholder {} rfl
  | rowSpan rows => exact hsame
  | placeholderSize width height =>
    exact hformat rfl rfl rfl hwidth (Int.le_max_right _ _) {} rfl
  | _ => exact hformat rfl rfl rfl hwidth hplaceholder {} rfl

theorem Descends.applySwitch (h : s.Descends tops) (hjob : job.printer.Descends) {index : Nat}
    {w : Switch} (hclose : s.closed? job ⟨index, .instruction (.switch w)⟩ = none) :
    (s.applySwitch job w).Descends tops := by
  obtain ⟨⟨hline, hparagraph⟩, hfont, hwidth, hplaceholder, hspace, hmarks, hsorted, htop,
    hwrapped⟩ := h
  have hsame : s.Descends tops := ⟨⟨hline, hparagraph⟩, hfont, hwidth, hplaceholder, hspace, hmarks,
    hsorted, htop, hwrapped⟩
  cases w with
  | resetFormatting => exact hsame.switchFont hjob ⟨rfl, rfl⟩
  | script kind => exact hsame.switchFont hjob ⟨hline, hparagraph⟩
  | decorate line shown =>
    cases line <;>
      exact ⟨⟨hline, hparagraph⟩, hfont, hwidth, hplaceholder, hspace, hmarks, hsorted, htop,
        hwrapped⟩
  | endTable =>
    simp only [closed?, Bool.and_eq_true, Bool.not_eq_true'] at hclose
    simp only [LayoutState.applySwitch, endTable]
    split
    · next htable =>
      cases hempty : s.lineIsEmpty with
      | true =>
        simp only [finishLine, hempty, if_true]
        exact ⟨⟨hline, hparagraph⟩, hfont, hwidth, hplaceholder, hspace, hmarks, hsorted, htop,
          hwrapped⟩
      | false =>
        rw [if_pos ⟨htable, hempty⟩] at hclose
        cases hclose
    · exact hsame
  | _ =>
    exact ⟨⟨hline, hparagraph⟩, hfont, hwidth, hplaceholder, hspace, hmarks, hsorted, htop,
      hwrapped⟩

theorem Descends.idle (h : s.Descends tops) (hjob : job.printer.Descends)
    (hl : l.token.descends = true) (hmark : s.marked? job l = none)
    (hclose : s.closed? job l = none) : (s.step job l).Descends tops := by
  obtain ⟨index, token⟩ := l
  cases token with
  | text c => cases hmark
  | newline c => cases hclose
  | placeholder => cases hmark
  | row =>
    simp only [closed?] at hclose
    split at hclose
    · cases hclose
    · next htable =>
      change (s.endRow job).Descends tops
      rw [endRow, if_neg htable]
      exact h
  | cell =>
    refine h.congr (sameStyle_nextCell job s) ?_ fun _ hm => Or.inl ((nextCell_frame job s).1 ▸ hm)
    change SameRows s (s.nextCell job)
    cases htable : s.table with
    | none =>
      rw [nextCell_of_no_table job htable]
      exact {}
    | some t =>
      have hrows := sameRows_beginLine job { s with table := some (t.nextCell s.marks.size) }
      simp only [nextCell, htable]
      exact ⟨hrows.lines, hrows.top, hrows.wrapped, hrows.verticalSpace⟩
  | nothing => exact h
  | instruction instr =>
    cases instr with
    | toggle toggle =>
      cases toggle with
      | startSelection => exact h.congr {} {} fun _ hm => Or.inl hm
      | endSelection => exact h.congr {} {} fun _ hm => Or.inl hm
      | _ => exact h.switchFont hjob ⟨h.format.lineSpacing, h.format.paragraphSpacing⟩
    | switch w => exact h.applySwitch hjob hclose
    | setting setting => exact h.applySetting hjob hl hmark hclose

/-- A token takes no line up. -/
theorem Descends.step (h : s.Descends tops) (hjob : job.printer.Descends)
    (hl : l.token.descends = true) :
    (s.step job l).Descends (tops ++
      if (s.step job l).lines.size = s.lines.size then [] else [s.top]) := by
  -- One line more has been committed.
  have hpushed : ∀ {u t : LayoutState}, SameRows s u → (∃ line, t.lines = u.lines.push line) →
      t.Descends (tops ++ [u.top]) →
      t.Descends (tops ++ if t.lines.size = s.lines.size then [] else [s.top]) := by
    rintro u t hrows ⟨line, hlines⟩ ht
    rwa [hlines, Array.size_push, hrows.lines, if_neg (Nat.succ_ne_self _), ← hrows.top]
  cases hmark : s.marked? job l with
  | some u =>
    have hu := h.marked hjob hl hmark
    have hrows := sameRows_marked hmark
    obtain ⟨p, hstep⟩ := step_of_marked hmark
    rw [hstep]
    by_cases hover : u.Overflows job
    · rw [checkWrap_of_overflows hover]
      refine hpushed hrows ⟨u.committedLine job u.breakAt .wrap, ?_⟩
        ((hu.commit job u.breakAt .wrap).noteBreak p)
      rw [(noteBreak_frame _ p).2.1]
      exact (commit_frame job u u.breakAt .wrap).2.1
    · rw [checkWrap_of_not_overflows hover, (noteBreak_frame u p).2.1, hrows.lines, if_pos rfl,
        List.append_nil]
      exact hu.noteBreak p
  | none =>
    cases hclose : s.closed? job l with
    | some closed =>
      obtain ⟨u, reason⟩ := closed
      have hrows := sameRows_closed hclose
      refine hpushed hrows ⟨_, (lines_of_closed hclose).2⟩ ?_
      obtain ⟨-, table, started, hstep⟩ := step_of_closed hclose
      rw [hstep]
      exact ((h.closed hclose).commit job _ reason).congr {} {} fun _ hm => Or.inl hm
    | none =>
      rw [(step_idle hmark hclose).waits.lines, if_pos rfl, List.append_nil]
      exact h.idle hjob hl hmark hclose

theorem descends_run (hfont : job.printer.fonts.get? job.printer.defaultFont = some font)
    (hjob : job.printer.Descends) (htokens : ∀ l ∈ lexemes cs, l.token.descends = true)
    (hsplit : lexemes cs = seen ++ rest) :
    ((initial job font).run job seen).Descends (topsFrom job (initial job font) seen) := by
  induction seen using List.reverseRecOn generalizing rest with
  | nil =>
    exact ⟨⟨rfl, rfl⟩, hjob.fonts _ _ hfont, Int.le_max_right _ _, Int.le_refl 0, Int.le_refl 0,
      (fun _ hm => nomatch hm), .nil, (fun _ hy => nomatch hy), (fun _ hw => nomatch hw)⟩
  | append_singleton seen l ih =>
    have hsplit : lexemes cs = seen ++ l :: rest := by
      rw [hsplit, List.append_assoc, List.singleton_append]
    rw [topsFrom_concat, run_concat]
    refine (ih hsplit).step hjob (htokens l ?_)
    rw [hsplit]
    exact List.mem_append_cons_self

/-- Without negative spacing no line begins above one that comes before it. -/
theorem pairwise_tops (hfont : job.printer.fonts.get? job.printer.defaultFont = some font)
    (hjob : job.printer.Descends) (htokens : ∀ l ∈ lexemes cs, l.token.descends = true) :
    (job.tops font cs).Pairwise (· ≤ ·) := by
  have hrun := descends_run hfont hjob htokens (List.append_nil (lexemes cs)).symm
  refine List.pairwise_append.2 ⟨hrun.sorted, List.pairwise_singleton _ _, fun y hy z hz => ?_⟩
  rw [List.mem_singleton.1 hz, lastTop]
  cases hwrapped : ((initial job font).run job (lexemes cs)).wrapped.filter fun _ =>
      ((initial job font).run job (lexemes cs)).lineIsEmpty with
  | some w => exact hrun.wrapped w (Option.filter_eq_some_iff.1 hwrapped).1 y hy
  | none => exact hrun.top y hy

end LayoutState

end RichText
