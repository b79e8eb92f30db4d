/-
  RichText/Proofs/Layout/Rows.lean
  ================================
  **Glyphs follow one another to the right and, line after line, downwards.**

  In text of one font without instructions each glyph comes right after the one before it
  (`Glyph.Precedes`): on a line below, or on the same line to the right of it.  A line takes
  its marks as they stood side by side (`SetLine.isChain_events`), and the next line starts
  below it, since lines have some height.  So the glyphs reported are a chain after every
  token (`Rows`), and after the end of the text (`rows_layout`).
-/
import Mathlib.Data.List.Chain
import RichText.Proofs.Layout.Decorated
import RichText.Proofs.Layout.Paragraphs
import RichText.Proofs.Rounding

namespace RichText

/-! ### Glyphs one after another -/

/-- A glyph comes right before another: on a line above, or on the same line, where nothing
    comes after the end of the line, and after what is left over nothing else is set. -/
inductive Glyph.Precedes (g k : Glyph) : Prop
  | above (h : g.lineBottom ≤ k.lineTop)
  | beside (top : k.lineTop = g.lineTop) (bottom : k.lineBottom = g.lineBottom)
      (inside : g.lineEnd = false) (wrapped : g.wrapped = true → k.wrapped = true)
      (apart : k.wrapped = false → g.location.x + g.advance ≤ k.location.x)

/-- The line of a glyph has some height, and the end of a line takes no room on it. -/
structure Glyph.Upright (g : Glyph) : Prop where
  height : g.lineTop < g.lineBottom
  lineEnd : g.lineEnd = true → g.advance = 0

theorem Glyph.Precedes.trans {g k j : Glyph} (hgk : g.Precedes k) (hkj : k.Precedes j)
    (hk : k.Upright) (hadvance : 0 ≤ k.advance) : g.Precedes j := by
  have hheight := hk.height
  cases hgk with
  | above hgk =>
    apply Glyph.Precedes.above
    cases hkj with
    | above hkj => omega
    | beside top _ _ _ _ => omega
  | beside top bottom inside wrapped apart =>
    cases hkj with
    | above hkj =>
      apply Glyph.Precedes.above
      omega
    | beside top' bottom' _ wrapped' apart' =>
      refine .beside (top'.trans top) (bottom'.trans bottom) inside ?_ ?_
      · intro hg
        exact wrapped' (wrapped hg)
      · intro hj
        have hset : k.wrapped = false := by
          cases hwrapped : k.wrapped with
          | false => rfl
          | true => exact absurd (wrapped' hwrapped) (hj ▸ Bool.false_ne_true)
        have hleft := apart hset
        have hright := apart' hj
        omega

/-- Where no glyph goes back each of them precedes all that come after it. -/
theorem pairwise_precedes {gs : List Glyph} (h : gs.IsChain Glyph.Precedes)
    (hupright : ∀ g ∈ gs, g.Upright) (hadvance : ∀ g ∈ gs, 0 ≤ g.advance) :
    gs.Pairwise Glyph.Precedes := by
  refine pairwise_of_isChain_of_trans ?_ h (fun g hg => And.intro (hupright g hg) (hadvance g hg))
  intro g k j hk hgk hkj
  exact hgk.trans hkj hk.1 hk.2

/-! ### Marks side by side -/

/-- A mark stands to the left of another, and does not end the line. -/
def Mark.Beside (m k : Mark) : Prop :=
  m.right + m.offset.x ≤ k.x + k.offset.x ∧ m.kind.isEnd = false

/-- Marks that stand apart without offsets, of which at most the last one is an end. -/
theorem Mark.isChain_beside {ms : List Mark} (hchain : ms.IsChain fun m k => m.right ≤ k.x)
    (hoffset : ∀ m ∈ ms, m.offset.x = 0) (hinside : ∀ m ∈ ms.dropLast, m.kind.isEnd = false) :
    ms.IsChain Mark.Beside := by
  rw [List.isChain_iff_getElem] at hchain ⊢
  intro i hi
  have hlt : i < ms.dropLast.length := by
    rw [List.length_dropLast]
    omega
  have hinit : ms[i] ∈ ms.dropLast := by
    rw [← List.getElem_dropLast hlt]
    exact List.getElem_mem hlt
  refine ⟨?_, hinside _ hinit⟩
  rw [hoffset _ (List.getElem_mem _), hoffset _ (List.getElem_mem _), Int.add_zero, Int.add_zero]
  exact hchain i hi

theorem Mark.Beside.shift {m k : Mark} (h : m.Beside k) (dx : Int) :
    (m.shift dx).Beside (k.shift dx) := by
  obtain ⟨hright, hinside⟩ := h
  constructor
  · rw [Mark.right_shift]
    change m.right + dx + m.offset.x ≤ k.x + dx + k.offset.x
    omega
  · exact hinside

theorem Mark.isChain_shift {ms : List Mark} (h : ms.IsChain Mark.Beside) (dx : Int) :
    (ms.map (Mark.shift dx)).IsChain Mark.Beside :=
  List.isChain_map_of_isChain _ (fun _ _ hmk => hmk.shift dx) h

namespace SetLine

variable {l : SetLine}

theorem precedes_glyph {m k : Mark} (h : m.Beside k) {wrapped wrapped' : Bool}
    (hwrapped : wrapped = true → wrapped' = true) :
    (l.glyph wrapped m).Precedes (l.glyph wrapped' k) := by
  obtain ⟨hright, hinside⟩ := h
  refine .beside rfl rfl hinside hwrapped ?_
  intro _
  rw [Mark.right] at hright
  change m.x + m.offset.x + m.advance ≤ k.x + k.offset.x
  omega

/-- The glyphs of a line stand as its marks do, the blanks that are left over after the
    content. -/
theorem isChain_events (h : l.marks.IsChain Mark.Beside) (s : LayoutState)
    (images : Registry Image) : (l.line s images).events.IsChain Glyph.Precedes := by
  rw [← List.take_append_drop l.content l.marks, List.isChain_append] at h
  obtain ⟨hcontent, hblanks, hboth⟩ := h
  rw [events_line, List.isChain_append]
  refine ⟨?_, ?_, ?_⟩
  · exact List.isChain_map_of_isChain (l.glyph false) (fun _ _ h => precedes_glyph h id) hcontent
  · exact List.isChain_map_of_isChain (l.glyph true) (fun _ _ h => precedes_glyph h id) hblanks
  · intro g hg k hk
    rw [Option.mem_def, List.getLast?_map, Option.map_eq_some_iff] at hg
    rw [Option.mem_def, List.head?_map, Option.map_eq_some_iff] at hk
    obtain ⟨m, hm, rfl⟩ := hg
    obtain ⟨n, hn, rfl⟩ := hk
    exact precedes_glyph (hboth m hm n hn) (fun h => nomatch h)

theorem mem_events {s : LayoutState} {images : Registry Image} {g : Glyph}
    (h : g ∈ (l.line s images).events) : ∃ m ∈ l.marks, ∃ wrapped, g = l.glyph wrapped m := by
  rw [events_line] at h
  rcases List.mem_append.1 h with h | h
  · obtain ⟨m, hm, rfl⟩ := List.mem_map.1 h
    exact ⟨m, List.mem_of_mem_take hm, false, rfl⟩
  · obtain ⟨m, hm, rfl⟩ := List.mem_map.1 h
    exact ⟨m, List.mem_of_mem_drop hm, true, rfl⟩

theorem length_events (l : SetLine) (s : LayoutState) (images : Registry Image) :
    (l.line s images).events.length = l.marks.length := by
  rw [events_line, List.length_append, List.length_map, List.length_map, ← List.length_append,
    List.take_append_drop]

end SetLine

/-! ### The height of a line -/

/-- A box is as high as each of the marks that it holds. -/
theorem Mark.le_box {face : Face} {bound : Int} (hface : bound ≤ face.height) {ms : List Mark}
    (h : ∀ m ∈ ms, bound ≤ m.height) : bound ≤ (Mark.box face ms).2 := by
  cases ms with
  | nil => exact hface
  | cons m ms =>
    obtain ⟨baseline, hbaseline⟩ : ∃ b, ((m :: ms).map (·.baseline)).max? = some b := ⟨_, rfl⟩
    obtain ⟨height, hheight⟩ : ∃ b,
        ((m :: ms).map fun k => baseline - k.baseline + k.height).max? = some b := ⟨_, rfl⟩
    have hbox : (Mark.box face (m :: ms)).2 = height := by
      simp only [Mark.box, List.isEmpty_cons, Bool.false_eq_true, if_false, hbaseline,
        Option.getD_some, hheight]
    have hfirst : m.baseline ≤ baseline :=
      (List.max?_eq_some_iff.1 hbaseline).2 _ (List.mem_map_of_mem List.mem_cons_self)
    have hlast : baseline - m.baseline + m.height ≤ height :=
      (List.max?_eq_some_iff.1 hheight).2 _
        (List.mem_map.2 ⟨m, List.mem_cons_self, rfl⟩)
    have hbound := h m List.mem_cons_self
    rw [hbox]
    omega

/-- A box that holds marks of some height has some height. -/
theorem Mark.box_pos {face : Face} (hface : 0 < face.height) {ms : List Mark}
    (h : ∀ m ∈ ms, 0 < m.height) : 0 < (Mark.box face ms).2 := Mark.le_box hface h

namespace LayoutState

variable {job : Job} {font : Font} {cs : List Nat} {s t u : LayoutState}
  {placed : Nat → Option LayoutState} {content : Nat} {reason : LineEnd}

/-- Lines that hold something of some height stand one below the other. -/
structure Downward (s : LayoutState) : Prop where
  height : 0 < s.font.face.height
  line : ∀ height, 0 < height → 0 < s.lineSpacing height
  paragraph : ∀ height, 0 ≤ s.paragraphSpacing height

theorem Downward.congr (h : s.Downward) (hstyle : SameStyle s t) : t.Downward := by
  refine ⟨?_, ?_, ?_⟩
  · rw [hstyle.font]
    exact h.height
  · intro height hheight
    simp only [lineSpacing, hstyle.format, hstyle.font]
    exact h.line height hheight
  · intro height
    simp only [paragraphSpacing, hstyle.format, hstyle.font]
    exact h.paragraph height

/-- In the default style the step from one line to the next is the height of the line, taken
    as a single-precision number. -/
theorem downward_initial (job : Job) {face : Face} (h : 0 < face.height) :
    (initial job (Font.ofFace face)).Downward := by
  refine ⟨h, ?_, ?_⟩
  · intro height hheight
    have hleading : 0 ≤ max (face.lineGap - face.height) 0 := Int.le_max_right _ _
    have hsum : 0 < height + max (face.lineGap - face.height) 0 := by omega
    exact (Binary32.atLeastOne_one.mul (Binary32.atLeastOne_ofInt hsum)).round_pos
  · intro height
    exact Int.le_refl 0

/-! ### Where the next line stands -/

/-- The lines that have been committed are as they were, and the next one stands where it
    did. -/
structure SameRows (s t : LayoutState) : Prop where
  lines : t.lines = s.lines := by rfl
  top : t.top = s.top := by rfl
  wrapped : t.wrapped = s.wrapped := by rfl
  verticalSpace : t.verticalSpace = s.verticalSpace := by rfl

theorem SameRows.trans (h : SameRows s t) (k : SameRows t u) : SameRows s u where
  lines := k.lines.trans h.lines
  top := k.top.trans h.top
  wrapped := k.wrapped.trans h.wrapped
  verticalSpace := k.verticalSpace.trans h.verticalSpace

theorem sameRows_beginLine (job : Job) (s : LayoutState) : SameRows s (s.beginLine job) := by
  simp only [beginLine]
  split <;> exact {}

theorem sameRows_noteBreak (s : LayoutState) (p : Bool) : SameRows s (s.noteBreak p) := by
  cases p <;> exact {}

theorem sameRows_beforeMark (job : Job) (s : LayoutState) (c : Nat) :
    SameRows s (beforeMark job s c) := by
  have hbegin := sameRows_beginLine job s
  exact (hbegin.trans (sameRows_noteBreak _ (CodePoint.isBreaking c))).trans {}

theorem sameRows_pushMark (job : Job) (s : LayoutState) (code : Nat) (kind : MarkKind)
    (advance : Int) (index : Nat) : SameRows s (s.pushMark job code kind advance index) :=
  (sameRows_beginLine job s).trans {}

theorem sameRows_carryMarks (job : Job) (s : LayoutState) (cut : Nat) :
    SameRows s (s.carryMarks job cut) := by
  simp only [carryMarks]
  split
  · exact {}
  · exact (sameRows_beginLine job s).trans {}

/-- The line that follows `l` in `t` starts where `l` ends, below the extra room after a
    paragraph and the vertical space that was asked for in `s`. It is noted where `l` stands
    if that was wrapped and nothing went on to the next line. -/
structure StartsBelow (s : LayoutState) (content : Nat) (reason : LineEnd) (l : SetLine)
    (t : LayoutState) : Prop where
  top : t.top = l.bottom + s.verticalSpace ∨
    t.top = l.bottom + s.paragraphSpacing l.height + s.verticalSpace
  space : t.verticalSpace = 0
  wrapped : ∀ w, t.wrapped = some w → reason = .wrap ∧ s.cut content reason = s.marks.size ∧
    w.top = l.top ∧ w.bottom = l.bottom

theorem StartsBelow.congr {l : SetLine} (h : StartsBelow s content reason l t)
    (hrows : SameRows t u) : StartsBelow s content reason l u := by
  refine ⟨?_, ?_, ?_⟩
  · rw [hrows.top]
    exact h.top
  · rw [hrows.verticalSpace]
    exact h.space
  · rw [hrows.wrapped]
    exact h.wrapped

theorem startsBelow_commit (job : Job) (s : LayoutState) (content : Nat) (reason : LineEnd) :
    StartsBelow s content reason (s.setLine job content (s.cut content reason) reason)
      (s.commit job content reason) := by
  have hcarry := fun v => sameRows_carryMarks job v (s.cut content reason)
  have hstays : ∀ bottom : Int, bottom + 0 + s.verticalSpace = bottom + s.verticalSpace := by
    intro bottom
    rw [Int.add_zero]
  cases reason with
  | wrap =>
    refine StartsBelow.congr ⟨Or.inl (hstays _), rfl, ?_⟩ (hcarry _)
    intro w hw
    change (if LineEnd.wrap = .wrap ∧ s.cut content .wrap = s.marks.size then _ else none) =
      some w at hw
    split at hw
    · next hall =>
      cases hw
      exact ⟨rfl, hall.2, rfl, rfl⟩
    · cases hw
  | newline paragraph =>
    refine StartsBelow.congr ⟨?_, rfl, ?_⟩ (hcarry _)
    · cases paragraph with
      | false => exact Or.inl (hstays _)
      | true => exact Or.inr rfl
    · intro w hw
      exact absurd hw (Option.some_ne_none w).symm
  | row | text =>
    refine StartsBelow.congr ⟨Or.inl (hstays _), rfl, ?_⟩ (hcarry _)
    intro w hw
    exact absurd hw (Option.some_ne_none w).symm

/-! ### Rows of glyphs -/

/-- The glyphs reported follow one another, and the next line stands below them. -/
structure Rows (s : LayoutState) : Prop where
  chain : (events s.lines.toList).IsChain Glyph.Precedes
  glyphs : ∀ g ∈ events s.lines.toList, g.Upright ∧ g.lineBottom ≤ s.top
  wrapped : ∀ w, s.wrapped = some w → ∃ g, (events s.lines.toList).getLast? = some g ∧
    g.lineEnd = false ∧ g.lineTop = w.top ∧ g.lineBottom = w.bottom
  space : s.verticalSpace = 0
  heights : ∀ m ∈ s.marks.toList, 0 < m.height

/-- The marks of the line being filled stand side by side, and an end takes no room. -/
structure InRow (s : LayoutState) : Prop where
  beside : s.marks.toList.IsChain Mark.Beside
  ends : ∀ m ∈ s.marks.toList, m.kind.isEnd = true → m.advance = 0

theorem rows_initial (job : Job) (font : Font) : (initial job font).Rows where
  chain := .nil
  glyphs := fun _ h => nomatch h
  wrapped := fun _ h => nomatch h
  space := rfl
  heights := fun _ h => nomatch h

theorem Rows.congr (h : s.Rows) (hrows : SameRows s t)
    (hheights : ∀ m ∈ t.marks.toList, 0 < m.height) : t.Rows := by
  refine ⟨?_, ?_, ?_, ?_, hheights⟩
  · rw [hrows.lines]
    exact h.chain
  · rw [hrows.lines, hrows.top]
    exact h.glyphs
  · rw [hrows.lines, hrows.wrapped]
    exact h.wrapped
  · rw [hrows.verticalSpace]
    exact h.space

theorem Rows.beforeMark (h : s.Rows) (c : Nat) : (beforeMark job s c).Rows := by
  refine h.congr (sameRows_beforeMark job s c) ?_
  rw [(beforeMark_frame job s c).1]
  exact h.heights

theorem Rows.noteBreak (h : s.Rows) (p : Bool) : (s.noteBreak p).Rows := by
  refine h.congr (sameRows_noteBreak s p) ?_
  cases p <;> exact h.heights

/-- A glyph and the end of a line are as high as the font. -/
theorem Rows.pushMark (h : s.Rows) (hdown : s.Downward) (job : Job) (code : Nat) {kind : MarkKind}
    (hkind : (∃ visible, kind = .glyph visible) ∨ kind.isEnd = true) (advance : Int)
    (index : Nat) : (s.pushMark job code kind advance index).Rows := by
  refine h.congr (sameRows_pushMark job s code kind advance index) ?_
  have hheight : (newMark job s code kind advance index).height = s.font.face.height := by
    have hfont := (sameStyle_beginLine job s).font
    rw [← hfont]
    have hbox : ((s.beginLine job).markBox kind).2 = (s.beginLine job).font.face.height := by
      simp only [markBox]
      rcases hkind with ⟨visible, rfl⟩ | hend
      · cases (s.beginLine job).format.script <;> rfl
      · cases kind with
        | lineEnd => cases (s.beginLine job).format.script <;> rfl
        | textEnd => cases (s.beginLine job).format.script <;> rfl
        | glyph visible => cases hend
        | image i => cases hend
        | placeholder => cases hend
    exact hbox
  intro m hm
  rw [toList_pushMark] at hm
  rcases List.mem_append.1 hm with hm | hm
  · exact h.heights m hm
  · rw [List.mem_singleton.1 hm, hheight]
    exact hdown.height

/-! ### The line that is set -/

section Line

variable (job : Job) (content : Nat) (reason : LineEnd)

/-- Without justification and tables the glyphs of the line are those of its marks, moved as
    one. -/
theorem Steady.mem_events (hs : s.Steady) {g : Glyph}
    (hg : g ∈ ((s.setLine job content (s.cut content reason) reason).line s
      job.printer.images).events) :
    ∃ m ∈ s.marks.toList, ∃ wrapped dx,
      g = (s.setLine job content (s.cut content reason) reason).glyph wrapped (m.shift dx) := by
  obtain ⟨dx, hmarks⟩ :=
    marks_setLine_of_steady hs.table hs.justify job content (s.cut content reason) reason
  obtain ⟨m, hm, wrapped, rfl⟩ := SetLine.mem_events hg
  rw [hmarks] at hm
  obtain ⟨k, hk, rfl⟩ := List.mem_map.1 hm
  exact ⟨k, List.mem_of_mem_take hk, wrapped, dx, rfl⟩

theorem InRow.isChain_events (h : s.InRow) (hs : s.Steady) :
    ((s.setLine job content (s.cut content reason) reason).line s
      job.printer.images).events.IsChain Glyph.Precedes := by
  obtain ⟨dx, hmarks⟩ :=
    marks_setLine_of_steady hs.table hs.justify job content (s.cut content reason) reason
  apply SetLine.isChain_events
  rw [hmarks]
  exact Mark.isChain_shift (h.beside.take _) dx

theorem Rows.top_lt_bottom (h : s.Rows) (hdown : s.Downward) :
    s.top < (s.setLine job content (s.cut content reason) reason).bottom := by
  apply Int.lt_add_of_pos_right
  apply hdown.line
  apply Mark.box_pos hdown.height
  intro m hm
  exact h.heights m (List.mem_of_mem_take hm)

/-- The next line stands below this one. -/
theorem Rows.bottom_le_top (h : s.Rows) (hdown : s.Downward) :
    (s.setLine job content (s.cut content reason) reason).bottom ≤
      (s.commit job content reason).top := by
  have hparagraph :=
    hdown.paragraph (s.setLine job content (s.cut content reason) reason).height
  have hspace := h.space
  rcases (startsBelow_commit job s content reason).top with htop | htop
  · omega
  · omega

/-- A line on which marks wait has a last glyph once it is set. -/
theorem Steady.getLast?_events (hs : s.Steady) (hsome : s.marks.toList ≠ [])
    (hcut : s.cut content reason = s.marks.size) :
    ∃ g, ((s.setLine job content (s.cut content reason) reason).line s
      job.printer.images).events.getLast? = some g := by
  obtain ⟨dx, hmarks⟩ :=
    marks_setLine_of_steady hs.table hs.justify job content (s.cut content reason) reason
  rw [← Option.isSome_iff_exists, List.getLast?_isSome, ← List.length_pos_iff,
    SetLine.length_events, hmarks, List.length_map, hcut, List.length_take, Array.length_toList,
    Nat.min_self, ← Array.length_toList]
  exact List.length_pos_iff.2 hsome

end Line

/-- A line is set below those before it, and its glyphs follow one another. -/
theorem Rows.commit (h : s.Rows) (hdown : s.Downward) (hs : s.Steady) (hrow : s.InRow)
    (hwrap : reason = .wrap → s.marks.toList ≠ [] ∧ ∀ m ∈ s.marks.toList, m.kind.isEnd = false)
    (job : Job) (content : Nat) : (s.commit job content reason).Rows := by
  obtain ⟨⟨dx, hmarks⟩, hlines, -⟩ := commit_frame job s content reason
  obtain ⟨-, hspace, hwrapped⟩ := startsBelow_commit job s content reason
  have hchain := hrow.isChain_events job content reason hs
  have hheight := h.top_lt_bottom job content reason hdown
  have hbelow := h.bottom_le_top job content reason hdown
  have hmem := fun g hg => hs.mem_events job content reason (g := g) hg
  have hlast := hs.getLast?_events job content reason
  have hfirst : (s.setLine job content (s.cut content reason) reason).top = s.top := rfl
  generalize s.setLine job content (s.cut content reason) reason = l at *
  have hglyphs : ∀ g ∈ (l.line s job.printer.images).events,
      g.Upright ∧ g.lineTop = l.top ∧ g.lineBottom = l.bottom := by
    intro g hg
    obtain ⟨m, hm, wrapped, shift, rfl⟩ := hmem g hg
    refine ⟨⟨?_, hrow.ends m hm⟩, rfl, rfl⟩
    change l.top < l.bottom
    omega
  have hevents : events (s.commit job content reason).lines.toList =
      events s.lines.toList ++ (l.line s job.printer.images).events := by
    rw [hlines, Array.toList_push, events, List.flatMap_append, List.flatMap_singleton]
    rfl
  refine ⟨?_, ?_, ?_, hspace, ?_⟩
  · rw [hevents, List.isChain_append]
    refine ⟨h.chain, hchain, ?_⟩
    intro g hg k hk
    have hgtop := (h.glyphs g (List.mem_of_mem_getLast? hg)).2
    have hktop := (hglyphs k (List.mem_of_mem_head? hk)).2.1
    apply Glyph.Precedes.above
    omega
  · intro g hg
    rw [hevents] at hg
    rcases List.mem_append.1 hg with hg | hg
    · obtain ⟨hupright, hgtop⟩ := h.glyphs g hg
      exact ⟨hupright, by omega⟩
    · obtain ⟨hupright, -, hgbottom⟩ := hglyphs g hg
      exact ⟨hupright, by omega⟩
  · intro w hw
    obtain ⟨rfl, hall, hwtop, hwbottom⟩ := hwrapped w hw
    obtain ⟨hsome, hinside⟩ := hwrap rfl
    obtain ⟨g, hg⟩ := hlast hsome hall
    obtain ⟨-, hgtop, hgbottom⟩ := hglyphs g (List.mem_of_getLast? hg)
    obtain ⟨m, hm, wrapped, shift, hglyph⟩ := hmem g (List.mem_of_getLast? hg)
    have hgend : g.lineEnd = false := by
      rw [hglyph]
      exact hinside m hm
    refine ⟨g, ?_, hgend, hgtop.trans hwtop.symm, hgbottom.trans hwbottom.symm⟩
    rw [hevents, List.getLast?_append, hg]
    rfl
  · rw [hmarks]
    intro m hm
    obtain ⟨k, hk, rfl⟩ := List.mem_map.1 hm
    exact h.heights k (List.mem_of_mem_drop hk)

/-! ### Marks that are put on the line -/

theorem Ruled.inRow (h : s.Ruled placed) : s.InRow := by
  constructor
  · apply Mark.isChain_beside h.chain h.offset
    intro m hm
    exact h.kind m (List.dropLast_subset _ hm)
  · exact h.ends

/-- The end of a line or of the text stands behind the other marks. -/
theorem Ruled.inRow_end (h : s.Ruled placed) (hs : s.Steady) (job : Job) (code : Nat)
    (kind : MarkKind) (index : Nat) : (s.pushMark job code kind 0 index).InRow := by
  constructor
  · apply Mark.isChain_beside (h.chain_pushMark job code kind 0 index)
      (h.offset_pushMark hs job code kind 0 index)
    rw [toList_pushMark, List.dropLast_concat]
    exact h.kind
  · exact h.ends_pushMark job code kind index

/-! ### Text of one font -/

theorem Rows.checkWrap (h : u.Rows) (hdown : u.Downward) (hs : u.Steady) (hruled : u.Ruled placed)
    (hsome : u.marks.toList ≠ []) (job : Job) : (u.checkWrap job).Rows := by
  by_cases hover : u.Overflows job
  · rw [checkWrap_of_overflows hover]
    exact h.commit hdown hs hruled.inRow (fun _ => ⟨hsome, hruled.kind⟩) job u.breakAt
  · rw [checkWrap_of_not_overflows hover]
    exact h

/-- The line that an end closes is set like any other. -/
theorem Rows.close (h : s.Rows) (hdown : s.Downward) (hs : s.Steady) (hruled : s.Ruled placed)
    (job : Job) (code : Nat) {kind : MarkKind} (hkind : kind.isEnd = true) (index : Nat)
    {reason : LineEnd} (hreason : reason ≠ .wrap) :
    ((s.pushMark job code kind 0 index).commitAll job reason).Rows := by
  have hstyle := sameStyle_pushMark job s code kind 0 index
  have hpushed : (s.pushMark job code kind 0 index).Rows :=
    h.pushMark hdown job code (Or.inr hkind) 0 index
  have hsteady : (s.pushMark job code kind 0 index).Steady :=
    hs.congr hstyle (table_pushMark job s code kind 0 index)
  exact hpushed.commit (hdown.congr hstyle) hsteady (hruled.inRow_end hs job code kind index)
    (fun h => absurd h hreason) job _

end LayoutState

/-- Letters, spaces and the ends of lines, and no combining marks. -/
def Prose (ls : List Lexeme) : Prop :=
  ∀ l ∈ ls, ∃ c, l.token = .newline c ∨ l.token = .text c ∧ CodePoint.isSpaced c = true

theorem Prose.not_instruction {ls : List Lexeme} (h : Prose ls) :
    ∀ l ∈ ls, ∀ i, l.token ≠ .instruction i := by
  intro l hl i hi
  obtain ⟨c, hc⟩ := h l hl
  rw [hi] at hc
  rcases hc with hc | ⟨hc, -⟩
  · cases hc
  · cases hc

namespace LayoutState

variable {job : Job} {face : Face} {cs : List Nat} {seen rest : List Lexeme} {l : Lexeme}

theorem steady_initial (job : Job) (face : Face) : (initial job (Font.ofFace face)).Steady where
  table := rfl
  offset := rfl
  spacing := Int.le_refl 0
  justify := rfl
  noGaps := by
    intro d
    cases d <;> rfl

/-- Without instructions all settings stay as they were at the start. -/
theorem sameStyle_of_prose (h : Prose (lexemes cs)) (hsplit : lexemes cs = seen ++ rest)
    (job : Job) (font : Font) :
    SameStyle (initial job font) ((initial job font).run job seen) ∧
      ((initial job font).run job seen).table = none := by
  have hseen : ∀ l ∈ seen, ∀ i, l.token ≠ .instruction i := by
    intro l hl
    apply h.not_instruction
    rw [hsplit]
    exact List.mem_append_left _ hl
  obtain ⟨hstyle, hbare⟩ := bare_run job font hseen
  exact ⟨hstyle, hbare.table⟩

theorem sideBySide_of_prose (h : Prose (lexemes cs)) (hkerning : ∀ c d, face.kerning c d = 0)
    (job : Job) : job.SideBySide (Font.ofFace face) cs where
  kerning := by
    intro seen rest hsplit
    obtain ⟨hstyle, -⟩ := sameStyle_of_prose h hsplit job (Font.ofFace face)
    rw [hstyle.font]
    exact hkerning
  spaced := by
    intro l hl c hc
    obtain ⟨d, hd⟩ := h l hl
    rw [hc] at hd
    rcases hd with hd | ⟨hd, hspaced⟩
    · cases hd
    · cases hd
      exact hspaced
  settings := by
    intro seen rest hsplit
    obtain ⟨hstyle, htable⟩ := sameStyle_of_prose h hsplit job (Font.ofFace face)
    exact (steady_initial job face).congr hstyle htable

theorem Rows.step (hheight : 0 < face.height) (hkerning : ∀ c d, face.kerning c d = 0)
    (hprose : Prose (lexemes cs)) (hsplit : lexemes cs = seen ++ l :: rest)
    (h : ((initial job (Font.ofFace face)).run job seen).Rows) :
    (((initial job (Font.ofFace face)).run job seen).step job l).Rows := by
  have hjob := sideBySide_of_prose hprose hkerning job
  have hruled := ruled_run hjob hsplit
  have hs := hjob.settings seen (l :: rest) hsplit
  have hdown := (downward_initial job hheight).congr
    (sameStyle_of_prose hprose hsplit job (Font.ofFace face)).1
  have hl : l ∈ lexemes cs := by
    rw [hsplit]
    exact List.mem_append_right _ List.mem_cons_self
  obtain ⟨c, hc | ⟨hc, -⟩⟩ := hprose l hl
  · obtain ⟨index, token⟩ := l
    obtain rfl : token = .newline c := hc
    rw [step_newline hs.table]
    exact h.close hdown hs hruled job c rfl index LineEnd.noConfusion
  · obtain ⟨index, token⟩ := l
    obtain rfl : token = .text c := hc
    -- The mark stands on the line before the line is tested.
    cases hmark : ((initial job (Font.ofFace face)).run job seen).marked? job ⟨index, .text c⟩ with
    | none => cases hmark
    | some u =>
      obtain ⟨hu, hsteady⟩ := hruled.marked hjob hsplit hmark
      obtain ⟨p, hstep⟩ := step_of_marked hmark
      have hstyle := sameStyle_marked hmark
      have hrows : u.Rows := by
        cases hmark
        refine (h.beforeMark c).pushMark ?_ job c (Or.inl ⟨_, rfl⟩) _ index
        exact hdown.congr (sameStyle_beforeMark job _ c)
      have hsome : u.marks.toList ≠ [] := by
        cases hmark
        rw [toList_pushMark]
        exact List.append_ne_nil_of_right_ne_nil _ (List.cons_ne_nil _ _)
      rw [hstep]
      exact (hrows.checkWrap (hdown.congr hstyle) hsteady hu hsome job).noteBreak p

theorem rows_run (hheight : 0 < face.height) (hkerning : ∀ c d, face.kerning c d = 0)
    (hprose : Prose (lexemes cs)) (job : Job) {seen rest : List Lexeme}
    (hsplit : lexemes cs = seen ++ rest) :
    ((initial job (Font.ofFace face)).run job seen).Rows := by
  refine run_induction (rows_initial job (Font.ofFace face)) ?_ hsplit
  intro seen l rest hsplit h
  exact h.step hheight hkerning hprose hsplit

/-- The end of the text is reported behind the last line, if that was wrapped, or else closes
    it. -/
theorem Rows.finish {s : LayoutState} {placed : Nat → Option LayoutState} (h : s.Rows)
    (hdown : s.Downward) (hs : s.Steady) (hruled : s.Ruled placed) (job : Job) (total : Nat) :
    (events (s.finish job total)).IsChain Glyph.Precedes ∧
      ∀ g ∈ events (s.finish job total), g.Upright := by
  unfold LayoutState.finish
  cases hw : s.wrapped.filter fun _ => s.lineIsEmpty with
  | some w =>
    obtain ⟨hwrapped, -⟩ := Option.filter_eq_some_iff.1 hw
    obtain ⟨last, hlast, hinside, htop, hbottom⟩ := h.wrapped w hwrapped
    have hmem : last ∈ events s.lines.toList := List.mem_of_getLast? hlast
    have hevents : events (s.lines.toList ++ [⟨[], [.glyph (s.wrappedEnd w total)], [], []⟩]) =
        events s.lines.toList ++ [s.wrappedEnd w total] := by
      rw [events, List.flatMap_append, List.flatMap_singleton]
      rfl
    dsimp only
    rw [hevents]
    constructor
    · rw [List.isChain_append]
      refine ⟨h.chain, List.isChain_singleton _, ?_⟩
      intro g hg k hk
      obtain rfl : s.wrappedEnd w total = k := Option.some.inj hk
      obtain rfl : last = g := Option.some.inj (hlast.symm.trans hg)
      refine .beside htop.symm hbottom.symm hinside (fun _ => rfl) ?_
      intro hset
      cases hset
    · intro g hg
      rcases List.mem_append.1 hg with hg | hg
      · exact (h.glyphs g hg).1
      · rw [List.mem_singleton.1 hg]
        refine ⟨?_, fun _ => rfl⟩
        change w.top < w.bottom
        rw [← htop, ← hbottom]
        exact (h.glyphs last hmem).1.height
  | none =>
    have hclosed : ((s.pushMark job 0 .textEnd 0 total).commitAll job .text).Rows :=
      h.close hdown hs hruled job 0 rfl total LineEnd.noConfusion
    constructor
    · exact hclosed.chain
    · intro g hg
      exact (hclosed.glyphs g hg).1

/-- The glyphs of a layout of prose follow one another. -/
theorem rows_layout (hheight : 0 < face.height) (hkerning : ∀ c d, face.kerning c d = 0)
    (hprose : Prose (lexemes cs)) (job : Job) :
    (events (job.layoutWith (Font.ofFace face) cs)).IsChain Glyph.Precedes ∧
      ∀ g ∈ events (job.layoutWith (Font.ofFace face) cs), g.Upright := by
  have hall : lexemes cs = lexemes cs ++ [] := (List.append_nil _).symm
  have hjob := sideBySide_of_prose hprose hkerning job
  have hdown := (downward_initial job hheight).congr
    (sameStyle_of_prose hprose hall job (Font.ofFace face)).1
  exact (rows_run hheight hkerning hprose job hall).finish hdown (hjob.settings _ _ hall)
    (ruled_run hjob hall) job cs.length

end LayoutState

end RichText
