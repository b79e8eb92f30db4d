/-
  RichText/Proofs/Layout/LineBox.lean
  ===================================
  **The box of a line holds its glyphs on one baseline.**

  A line is as high as its glyphs need that stand on one baseline: the baseline is the lowest
  of their own, and the height the largest that one of them asks for from there
  (`Mark.box_cases`).  Each of the two comes from some glyph of the line, so that the height is
  made of the metrics of two registered fonts, and the leading of those of a third, the font
  in use when the line is committed.  Where such sums are exact the line reaches at least down
  to the end of its box (`LayoutState.Level.box_le_lineSpacing`).

  This is about glyphs in the box of their font.  Images, placeholders, scripts, offsets and
  line spacings of the markup are left out, and so is the end of the text, which may stand
  beside a line without belonging to it.
-/
import RichText.Proofs.Layout.Closing
import RichText.Proofs.Layout.FontInForce
import RichText.Proofs.Layout.Rows

namespace RichText

/-! ### Level text -/

/-- Whether a token puts neither an image nor a placeholder on the line, and neither moves
    letters up or down nor lines. -/
def Token.keepsLevel : Token → Bool
  | .placeholder => false
  | .instruction (.switch (.script _)) => false
  | .instruction (.setting (.letterOffset _ _)) => false
  | .instruction (.setting (.length .lineSpacing _)) => false
  | .instruction (.setting (.image _)) => false
  | _ => true

/-- Letters stand where their font puts them, and so do lines. -/
structure Format.Level (f : Format) : Prop where
  script : f.script = none
  offset : f.letterOffsetY = none
  spacing : f.lineSpacing = none

/-- Whether a mark has the box of the font in use. -/
def MarkKind.ofFont : MarkKind → Bool
  | .image _ | .placeholder => false
  | _ => true

/-- A mark is as high as the font of its number, and has the baseline of that font. -/
def Mark.InBox (p : Printer) (m : Mark) : Prop :=
  ∃ f, p.fonts.get? m.font = some f ∧ m.baseline = f.face.baseline ∧ m.height = f.face.height ∧
    m.offset.y = 0

/-- The box around some marks has the baseline of one of them, the height that another one
    needs, and room for each of them. -/
theorem Mark.box_cases (face : Face) {ms : List Mark} (h : ms ≠ []) :
    ∃ m ∈ ms, ∃ n ∈ ms, Mark.box face ms = (m.baseline, m.baseline - n.baseline + n.height) ∧
      ∀ k ∈ ms, k.baseline ≤ m.baseline ∧
        m.baseline - k.baseline + k.height ≤ m.baseline - n.baseline + n.height := by
  obtain ⟨baseline, hbaseline⟩ : ∃ b, (ms.map (·.baseline)).max? = some b :=
    Option.isSome_iff_exists.1 (List.isSome_max?_iff.2 fun hnil => h (List.map_eq_nil_iff.1 hnil))
  obtain ⟨hmem, hle⟩ := List.max?_eq_some_iff.1 hbaseline
  obtain ⟨m, hm, rfl⟩ := List.mem_map.1 hmem
  obtain ⟨height, hheight⟩ :
      ∃ b, (ms.map fun k => m.baseline - k.baseline + k.height).max? = some b :=
    Option.isSome_iff_exists.1 (List.isSome_max?_iff.2 fun hnil => h (List.map_eq_nil_iff.1 hnil))
  obtain ⟨hmem', hle'⟩ := List.max?_eq_some_iff.1 hheight
  obtain ⟨n, hn, rfl⟩ := List.mem_map.1 hmem'
  refine ⟨m, hm, n, hn, ?_, fun k hk => ⟨?_, ?_⟩⟩
  · have hne : ms.isEmpty = false := List.isEmpty_eq_false_iff.2 h
    simp only [Mark.box, hne, Bool.false_eq_true, if_false, hbaseline, Option.getD_some, hheight]
  · exact hle _ (List.mem_map_of_mem hk)
  · exact hle' _ (List.mem_map.2 ⟨k, hk, rfl⟩)

namespace LayoutState

variable {job : Job} {font : Font} {cs : List Nat} {s t u : LayoutState} {l : Lexeme}
  {seen rest : List Lexeme} {content : Nat} {reason : LineEnd}

/-! ### Formatting -/

theorem level_switchFont (job : Job) {format : Format} (h : format.Level) :
    ({ s with format := format }.switchFont job).format.Level :=
  (switchFont_frame job { s with format := format }).1 ▸ h

theorem level_applySetting (h : s.format.Level) (index : Nat) {setting : Setting}
    (hsetting : (Token.instruction (.setting setting)).keepsLevel = true) :
    (s.applySetting job index setting).format.Level := by
  obtain ⟨hscript, hoffset, hspacing⟩ := h
  cases setting with
  | color target c => cases target <;> exact ⟨hscript, hoffset, hspacing⟩
  | length target l =>
    cases target with
    | lineSpacing => cases hsetting
    | horizontalSpace =>
      cases l with
      | none => exact ⟨hscript, hoffset, hspacing⟩
      | some l =>
        exact (sameStyle_addMark job s _ _ _ index).format ▸ ⟨hscript, hoffset, hspacing⟩
    | verticalSpace =>
      cases l with
      | none => exact ⟨hscript, hoffset, hspacing⟩
      | some l =>
        simp only [LayoutState.applySetting, applyLength, Option.elim_some, addVerticalSpace]
        split <;> exact ⟨hscript, hoffset, hspacing⟩
    | _ => exact ⟨hscript, hoffset, hspacing⟩
  | letterOffset x y => cases hsetting
  | image i => cases hsetting
  | font id => exact level_switchFont job ⟨hscript, hoffset, hspacing⟩
  | lineSettings line change => cases line <;> exact ⟨hscript, hoffset, hspacing⟩
  | beginTable border width columns =>
    exact (sameStyle_finishLine job s (.newline false)).format ▸ ⟨hscript, hoffset, hspacing⟩
  | addTabStop id position => cases position <;> exact ⟨hscript, hoffset, hspacing⟩
  | _ => exact ⟨hscript, hoffset, hspacing⟩

theorem level_applySwitch (h : s.format.Level) {w : Switch}
    (hw : (Token.instruction (.switch w)).keepsLevel = true) :
    (s.applySwitch job w).format.Level := by
  obtain ⟨hscript, hoffset, hspacing⟩ := h
  cases w with
  | resetFormatting => exact level_switchFont job ⟨rfl, rfl, rfl⟩
  | script kind => cases hw
  | decorate line shown => cases line <;> exact ⟨hscript, hoffset, hspacing⟩
  | endTable => exact (sameStyle_endTable job s).format ▸ ⟨hscript, hoffset, hspacing⟩
  | _ => exact ⟨hscript, hoffset, hspacing⟩

theorem level_step (h : s.format.Level) (hl : l.token.keepsLevel = true) :
    (s.step job l).format.Level := by
  by_cases hi : ∃ i, l.token = .instruction i
  · obtain ⟨i, hi⟩ := hi
    rw [hi] at hl
    simp only [LayoutState.step, hi]
    cases i with
    | toggle toggle =>
      obtain ⟨hscript, hoffset, hspacing⟩ := h
      cases toggle with
      | startSelection => exact ⟨hscript, hoffset, hspacing⟩
      | endSelection => exact ⟨hscript, hoffset, hspacing⟩
      | _ => exact level_switchFont job ⟨hscript, hoffset, hspacing⟩
    | switch w => exact level_applySwitch h hl
    | setting setting => exact level_applySetting h l.index hl
  · exact (sameStyle_step job s fun i hl => hi ⟨i, hl⟩).format ▸ h

theorem level_run (htokens : ∀ l ∈ lexemes cs, l.token.keepsLevel = true)
    (hsplit : lexemes cs = seen ++ rest) :
    ((initial job font).run job seen).format.Level := by
  refine run_induction (P := fun s => s.format.Level) ⟨rfl, rfl, rfl⟩ ?_ hsplit
  intro seen l rest hsplit h
  refine level_step h (htokens l ?_)
  rw [hsplit]
  exact List.mem_append_cons_self

/-! ### The marks of a line -/

/-- The font in use is registered under its number and the formatting leaves letters where
    that puts them. -/
structure Level (job : Job) (s : LayoutState) : Prop where
  registered : job.printer.fonts.get? s.fontId = some s.font
  format : s.format.Level

theorem Level.sameStyle (h : s.Level job) (hst : SameStyle s t) : t.Level job :=
  ⟨by rw [hst.fontId, hst.font]; exact h.registered, hst.format ▸ h.format⟩

/-- A mark that is neither an image nor a placeholder is put in the box of its font. -/
theorem Level.inBox_newMark (h : s.Level job) (code : Nat) (kind : MarkKind)
    (hkind : kind.ofFont = true) (advance : Int) (index : Nat) :
    (newMark job s code kind advance index).InBox job.printer := by
  obtain ⟨hregistered, hscript, hoffset, -⟩ := h.sameStyle (sameStyle_beginLine job s)
  have hbox : (s.beginLine job).markBox kind =
      ((s.beginLine job).font.face.baseline, (s.beginLine job).font.face.height) := by
    simp only [markBox, hscript]
    cases kind with
    | image i => cases hkind
    | placeholder => cases hkind
    | _ => rfl
  refine ⟨(s.beginLine job).font, hregistered, ?_, ?_, ?_⟩
  · exact congrArg Prod.fst hbox
  · exact congrArg Prod.snd hbox
  · simp only [newMark, letterOffset, hoffset, Length.resolveOr_none]

/-- All marks that wait are in the boxes of their fonts. -/
def InBoxes (job : Job) (s : LayoutState) : Prop := ∀ m ∈ s.marks.toList, m.InBox job.printer

theorem InBoxes.push (h : s.InBoxes job) {m : Mark} (hm : m.InBox job.printer)
    (hmarks : t.marks.toList = s.marks.toList ++ [m]) : t.InBoxes job := by
  intro k hk
  rw [hmarks] at hk
  rcases List.mem_append.1 hk with hk | hk
  · exact h k hk
  · obtain rfl := List.mem_singleton.1 hk
    exact hm

theorem InBoxes.commit (h : s.InBoxes job) (content : Nat) (reason : LineEnd) :
    (s.commit job content reason).InBoxes job := by
  obtain ⟨⟨dx, hmarks⟩, -⟩ := commit_frame job s content reason
  intro k hk
  rw [hmarks] at hk
  obtain ⟨m, hm, rfl⟩ := List.mem_map.1 hk
  exact h m (List.mem_of_mem_drop hm)

theorem InBoxes.marked (h : s.InBoxes job) (hs : s.Level job) (hl : l.token.keepsLevel = true)
    (hmark : s.marked? job l = some u) : u.InBoxes job := by
  obtain ⟨index, token⟩ := l
  have hpush : ∀ {v : LayoutState} (code : Nat) (visible : Bool) (advance : Int),
      SameStyle s v → v.marks = s.marks →
        (v.pushMark job code (.glyph visible) advance index).InBoxes job := by
    intro v code visible advance hstyle hmarks
    refine h.push ((hs.sameStyle hstyle).inBox_newMark code (.glyph visible) rfl advance
      index) ?_
    rw [toList_pushMark, hmarks]
  cases token with
  | text c =>
    cases hmark
    exact hpush c _ _ (sameStyle_beforeMark job s c) (beforeMark_frame job s c).1
  | placeholder => cases hl
  | instruction i =>
    cases i with
    | setting setting =>
      cases setting with
      | length target l =>
        cases target with
        | horizontalSpace =>
          cases l with
          | none => cases hmark
          | some l =>
            cases hmark
            exact hpush 0 false _ (.refl s) rfl
        | _ => cases hmark
      | image i => cases hl
      | _ => cases hmark
    | _ => cases hmark
  | _ => cases hmark

theorem InBoxes.step (h : s.InBoxes job) (hs : s.Level job) (hl : l.token.keepsLevel = true) :
    (s.step job l).InBoxes job := by
  refine step_preserves (P := InBoxes job) ?_ ?_ ?_ ?_ ?_
  · exact fun u hmark _ => h.marked hs hl hmark
  · exact fun u hmark _ => (h.marked hs hl hmark).commit u.breakAt .wrap
  · exact fun t ht => ht
  · intro u reason hclose m hm
    rw [(lines_of_closed hclose).1] at hm
    cases hm
  · intro hidle m hm
    exact h m (hidle.waits.marks ▸ hm)

section

variable (hfont : job.printer.fonts.get? job.printer.defaultFont = some font)
  (htokens : ∀ l ∈ lexemes cs, l.token.keepsLevel = true)
include hfont htokens

theorem levelState_run (hsplit : lexemes cs = seen ++ rest) :
    ((initial job font).run job seen).Level job :=
  ⟨(job.resolved_run hfont seen).registered, level_run htokens hsplit⟩

theorem inBoxes_run (hsplit : lexemes cs = seen ++ rest) :
    ((initial job font).run job seen).InBoxes job := by
  refine run_induction (P := InBoxes job) (fun _ h => nomatch h) ?_ hsplit
  intro seen l rest hsplit h
  refine h.step (levelState_run hfont htokens hsplit) (htokens l ?_)
  rw [hsplit]
  exact List.mem_append_cons_self

/-- Whenever a line is committed, its marks are in the boxes of their fonts. -/
theorem CommitsAt.inBoxes (h : CommitsAt job font cs u content reason) :
    u.Level job ∧ u.InBoxes job := by
  cases h with
  | wrap hwraps =>
    obtain ⟨seen, l, rest, hsplit, hmark, -⟩ := hwraps
    have hs := levelState_run hfont htokens hsplit
    have hl : l.token.keepsLevel = true := by
      refine htokens l ?_
      rw [hsplit]
      exact List.mem_append_cons_self
    exact ⟨hs.sameStyle (sameStyle_marked hmark),
      (inBoxes_run hfont htokens hsplit).marked hs hl hmark⟩
  | @close seen rest l _ _ hsplit hclose =>
    have hs := levelState_run hfont htokens hsplit
    have hboxes := inBoxes_run hfont htokens hsplit
    refine ⟨hs.sameStyle (marks_of_closed hclose).1, ?_⟩
    rcases closed_cases hclose with ⟨c, -, rfl, -⟩ | ⟨-, rfl, -⟩ | ⟨-, -, rfl, -⟩ | ⟨-, rfl, -⟩
    · exact hboxes.push (hs.inBox_newMark c .lineEnd rfl 0 l.index)
        (toList_pushMark job _ c .lineEnd 0 l.index)
    · intro m hm
      rw [(sameLine_beginLine job _).marks] at hm
      exact hboxes m hm
    · exact hboxes
    · exact hboxes
  | text hs hnone hu =>
    subst hs hu
    have hs := levelState_run hfont htokens (List.append_nil (lexemes cs)).symm
    have hboxes := inBoxes_run hfont htokens (List.append_nil (lexemes cs)).symm
    refine ⟨hs.sameStyle (sameStyle_pushMark job _ 0 .textEnd 0 cs.length), ?_⟩
    exact hboxes.push (hs.inBox_newMark 0 .textEnd rfl 0 cs.length)
      (toList_pushMark job _ 0 .textEnd 0 cs.length)

end

end LayoutState

/-! ### The box of a line -/

/-- Fonts space their lines by their height alone, and the heights of lines are exact: from the
    highest baseline to the lowest end of a box, with the leading of the font in use. -/
structure Printer.ExactHeights (p : Printer) : Prop where
  spacing : ∀ id f, p.fonts.get? id = some f → f.style.lineSpacing = Binary32.one
  exact : ∀ i j k f g h, p.fonts.get? i = some f → p.fonts.get? j = some g →
    p.fonts.get? k = some h → Binary32.Exact (f.face.baseline - g.face.baseline + g.face.height +
      max (h.face.lineGap - h.face.height) 0)

namespace LayoutState

variable {job : Job} {font : Font} {cs : List Nat} {s u : LayoutState} {content : Nat}
  {reason : LineEnd}

/-- The next line starts below the box of the marks. -/
theorem Level.box_le_lineSpacing (h : s.Level job) (hp : job.printer.ExactHeights)
    {ms : List Mark} (hms : ∀ m ∈ ms, m.InBox job.printer) (hne : ms ≠ []) :
    (Mark.box s.font.face ms).2 ≤ s.lineSpacing (Mark.box s.font.face ms).2 := by
  obtain ⟨m, hm, n, hn, hbox, -⟩ := Mark.box_cases s.font.face hne
  obtain ⟨f, hf, hfbaseline, -⟩ := hms m hm
  obtain ⟨g, hg, hgbaseline, hgheight, -⟩ := hms n hn
  have hexact := hp.exact _ _ _ f g s.font hf hg h.registered
  have hspacing := hp.spacing _ _ h.registered
  rw [hbox]
  simp only [lineSpacing, h.format.spacing, hspacing, hfbaseline, hgbaseline, hgheight,
    hexact.round_one_mul]
  omega

theorem setLine_box (job : Job) (s : LayoutState) (content cut : Nat) (reason : LineEnd) :
    (s.setLine job content cut reason).baseline =
        (Mark.box s.font.face (s.marks.toList.take cut)).1 ∧
      (s.setLine job content cut reason).bottom =
        (s.setLine job content cut reason).top +
          s.lineSpacing (Mark.box s.font.face (s.marks.toList.take cut)).2 := ⟨rfl, rfl⟩

/-- The glyphs of a line whose marks are in the boxes of their fonts stand in the box of the
    line, with their baselines at one height. -/
theorem Level.glyph_in_box (h : s.Level job) (hp : job.printer.ExactHeights) (hboxes : s.InBoxes job)
    {line : SetLine} {cut : Nat} (hline : s.setLine job content cut reason = line) {g : Glyph}
    (hg : g ∈ (line.line s job.printer.images).events) :
    ∃ f, job.printer.fonts.get? g.font = some f ∧ g.lineTop ≤ g.location.y ∧
      g.location.y + f.face.height ≤ g.lineBottom ∧
        g.location.y + f.face.baseline = line.top + line.baseline := by
  obtain ⟨k, hk, wrapped, rfl⟩ := SetLine.mem_events hg
  -- Setting the line has moved its marks sideways alone.
  obtain ⟨m, hm, hsame⟩ : ∃ m ∈ s.marks.toList.take cut,
      (m.font, m.offset, m.baseline, m.height) = (k.font, k.offset, k.baseline, k.height) := by
    have hlabels := map_setLine (f := fun m : Mark => (m.font, m.offset, m.baseline, m.height))
      (fun _ _ => rfl) job s content cut reason
    rw [hline] at hlabels
    exact List.mem_map.1 (hlabels ▸ List.mem_map_of_mem hk)
  simp only [Prod.mk.injEq] at hsame
  obtain ⟨hfont, hoffset, hbaseline, -⟩ := hsame
  have htaken : ∀ m ∈ s.marks.toList.take cut, m.InBox job.printer :=
    fun m hm => hboxes m (List.mem_of_mem_take hm)
  obtain ⟨f, hf, hfbaseline, hfheight, hfoffset⟩ := htaken m hm
  have hne : s.marks.toList.take cut ≠ [] := List.ne_nil_of_mem hm
  have hdown := h.box_le_lineSpacing hp htaken hne
  obtain ⟨htop, hbottom⟩ := setLine_box job s content cut reason
  obtain ⟨first, -, last, -, hbox, hroom⟩ := Mark.box_cases s.font.face hne
  obtain ⟨hup, hfits⟩ := hroom m hm
  rw [hline, hbox] at htop hbottom
  rw [hbox] at hdown
  have hplace : (line.location k).y = line.top + first.baseline - f.face.baseline := by
    simp only [SetLine.location, htop, ← hoffset, ← hbaseline, hfoffset, hfbaseline]
    omega
  refine ⟨f, (congrArg _ hfont).symm.trans hf, ?_, ?_, ?_⟩
  · change line.top ≤ (line.location k).y
    omega
  · change (line.location k).y + f.face.height ≤ line.bottom
    omega
  · change (line.location k).y + f.face.baseline = line.top + line.baseline
    omega

end LayoutState

open LayoutState in
/-- **The box of a line holds its glyphs on one baseline.**  In a markup without images,
    placeholders, scripts, offsets of letters and line spacings, where fonts space their lines by
    their heights and these are exact, every glyph but the end of the text stands between the
    top and the bottom of its line with the whole height of its font, and the baselines of all
    of them are the same on a line. -/
theorem Printer.line_box {p : Printer} (h : p.fonts.contains p.defaultFont = true)
    (hp : p.ExactHeights) (markup : List UInt8)
    (htokens : ∀ l ∈ lexemes (Codec.decode markup), l.token.keepsLevel = true) (origin : Point)
    (width : Int) :
    ∃ lines, (Job.mk p origin width).layout markup = .ok lines ∧
      ∀ line ∈ lines, ∃ y, ∀ g ∈ line.events, g.index ≠ (Codec.decode markup).length →
        ∃ f, p.fonts.get? g.font = some f ∧ g.lineTop ≤ g.location.y ∧
          g.location.y + f.face.height ≤ g.lineBottom ∧ g.location.y + f.face.baseline = y := by
  obtain ⟨font, hfont⟩ := (Registry.contains_iff p.fonts p.defaultFont).1 h
  refine ⟨_, Job.layout_eq hfont markup, fun line hline => ?_⟩
  rcases mem_layout_cases hline with ⟨u, content, reason, hcommits, rfl⟩ | ⟨g, hindex, rfl⟩
  · obtain ⟨hlevel, hboxes⟩ := hcommits.inBoxes hfont htokens
    exact ⟨_, fun g hg _ => hlevel.glyph_in_box hp hboxes rfl hg⟩
  · refine ⟨0, fun e he hne => absurd ?_ hne⟩
    obtain rfl := List.mem_singleton.1 he
    exact hindex

theorem Printer.exactHeights_boxes : boxes.ExactHeights where
  spacing := by
    intro id f hf
    rcases font_of_boxes hf with rfl | rfl <;> rfl
  exact := by
    intro i j k f g h hf hg hh
    rcases font_of_boxes hf with rfl | rfl <;> rcases font_of_boxes hg with rfl | rfl <;>
      rcases font_of_boxes hh with rfl | rfl <;> exact Binary32.exact_of_natAbs_lt (by decide)

/-- A letter twenty high and a bold one of twenty-four stand on one line. -/
theorem Printer.line_box_boxes :
    ∃ lines, (Job.mk boxes .zero 30).layout [0x41, 0x0E, 0x42] = .ok lines ∧
      ∀ line ∈ lines, ∃ y, ∀ g ∈ line.events, g.index ≠ 3 →
        ∃ f, boxes.fonts.get? g.font = some f ∧ g.lineTop ≤ g.location.y ∧
          g.location.y + f.face.height ≤ g.lineBottom ∧ g.location.y + f.face.baseline = y :=
  line_box rfl exactHeights_boxes [0x41, 0x0E, 0x42] (by decide) .zero 30

end RichText
