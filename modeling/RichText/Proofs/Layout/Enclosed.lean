/-
  RichText/Proofs/Layout/Enclosed.lean
  ====================================
  **What is drawn of a line stays between its left edge and its glyphs.**

  The edges of regions, rules and the boxes of selections are edges of marks or of the line, and
  the right edge of the line is that of its last mark.  Where all marks stand to the right of a
  place, no edge is farther to the left than that place, nor farther to the right than all glyphs
  of the line, but for spans that show as nothing (`SetLine.Ahead.enclosed_line`).
-/
import RichText.Proofs.Layout.Pen

namespace RichText

/-! ### Lines that hold what is drawn of them -/

namespace Line

variable (x : Int) (l : Line)

/-- Nothing from `left` to `right` is farther to the left than `x`, or to the right than all
    glyphs of the line that are not left over. -/
def Spans (left right : Int) : Prop :=
  x ≤ left ∧ left ≤ right ∧
    ∃ g ∈ l.events, g.wrapped = false ∧ right ≤ g.location.x + g.advance

/-- A rectangle of some width is held by the line, and any ends no lower than one of its glyphs. -/
def Frames (bounds : Rect) : Prop :=
  (bounds.left < bounds.right → l.Spans x bounds.left bounds.right) ∧
    ∃ g ∈ l.events, bounds.bottom ≤ g.lineBottom

/-- The line holds all that is reported of it. -/
structure Enclosed : Prop where
  glyphs : ∀ g ∈ l.events, g.wrapped = false →
    l.Spans x g.location.x (g.location.x + g.advance)
  rules : ∀ left right y thickness color,
    .rule left right y thickness color ∈ l.items → l.Spans x left right
  boxes : ∀ bounds background border color,
    .box bounds background border color ∈ l.items → l.Frames x bounds
  regions : ∀ r ∈ l.regions, l.Frames x r.bounds

end Line

/-! ### The edges on a line -/

namespace SetLine

variable {l : SetLine} {s : LayoutState} {images : Registry Image} {x r : Int}

/-- The marks of the line, and the line itself, begin at `x` or farther to the right. -/
structure Ahead (x : Int) (l : SetLine) : Prop where
  left : x ≤ l.left
  marks : ∀ m ∈ l.marks, m.Ahead x
  right : l.right = Mark.lastRight l.left (l.marks.take l.content)
  content : l.content ≤ l.marks.length
  nonempty : l.marks ≠ []

/-- A place no farther to the left than `x`, or to the right than all of the content. -/
def Reaches (x : Int) (l : SetLine) (r : Int) : Prop :=
  x ≤ r ∧ ∃ m ∈ l.marks.take l.content, r ≤ m.right

namespace Ahead

/-- Content reaches from its own left edge to its right edge. -/
theorem reaches_mark (h : l.Ahead x) {m : Mark} (hm : m ∈ l.marks.take l.content) :
    l.Reaches x m.x ∧ l.Reaches x m.right := by
  have hahead := h.marks m (List.mem_of_mem_take hm)
  have hright := hahead.le_right
  constructor
  · exact ⟨hahead.left, m, hm, hright⟩
  · exact ⟨Int.le_trans hahead.left hright, m, hm, Int.le_refl _⟩

theorem exists_mark (h : l.Ahead x) {i : Nat} (hi : i < l.content) :
    ∃ m ∈ l.marks.take l.content, l.marks[i]? = some m := by
  have hlt : i < l.marks.length := Nat.lt_of_lt_of_le hi h.content
  refine ⟨l.marks[i], ?_, List.getElem?_eq_getElem hlt⟩
  rw [List.mem_take_iff_getElem]
  exact ⟨i, by omega, rfl⟩

theorem reaches_xAt (h : l.Ahead x) {i : Nat} (hi : i < l.content) (fallback : Int) :
    l.Reaches x (Mark.xAt l.marks i fallback) := by
  obtain ⟨m, hm, hget⟩ := h.exists_mark hi
  rw [Mark.xAt, hget]
  exact (h.reaches_mark hm).1

theorem reaches_right (h : l.Ahead x) (hpos : 0 < l.content) : l.Reaches x l.right := by
  obtain ⟨m, hm⟩ : ∃ m, (l.marks.take l.content).getLast? = some m := by
    rw [← Option.isSome_iff_exists, List.getLast?_isSome, ← List.length_pos_iff]
    rw [List.length_take, Nat.min_eq_left h.content]
    exact hpos
  rw [h.right, Mark.lastRight, hm]
  exact (h.reaches_mark (List.mem_of_getLast? hm)).2

/-- Without content the line ends where it begins. -/
theorem right_of_content_eq_zero (h : l.Ahead x) (hzero : l.content = 0) : l.right = l.left := by
  rw [h.right, hzero]
  rfl

theorem le_right (h : l.Ahead x) : x ≤ l.right := by
  rcases Nat.eq_zero_or_pos l.content with hzero | hpos
  · rw [h.right_of_content_eq_zero hzero]
    exact h.left
  · exact (h.reaches_right hpos).1

/-- A span stops on the content; without any it stops where the line begins. -/
theorem spanRight_cases {α : Type} (h : l.Ahead x) (span : Span α) :
    l.Reaches x (l.spanRight span) ∨ l.content = 0 ∧ l.spanRight span = l.left := by
  rw [spanRight]
  cases hstop : span.stopGlyph? l.content with
  | some stop =>
    left
    obtain ⟨-, hlt⟩ := Option.filter_eq_some_iff.1 hstop
    exact h.reaches_xAt (by simpa using hlt) l.right
  | none =>
    rcases Nat.eq_zero_or_pos l.content with hzero | hpos
    · right
      exact ⟨hzero, h.right_of_content_eq_zero hzero⟩
    · left
      exact h.reaches_right hpos

/-! ### What is reported of a line -/

theorem spans (h : l.Ahead x) {left right : Int} (hleft : x ≤ left) (hle : left ≤ right)
    (hright : l.Reaches x right) : (l.line s images).Spans x left right := by
  obtain ⟨-, m, hm, hright⟩ := hright
  refine ⟨hleft, hle, l.glyph false m, ?_, rfl, ?_⟩
  · rw [events_line]
    exact List.mem_append_left _ (List.mem_map_of_mem hm)
  · have hoffset := (h.marks m (List.mem_of_mem_take hm)).offset
    change right ≤ m.x + m.offset.x + m.advance
    unfold Mark.right at hright
    omega

theorem frames (h : l.Ahead x) {bounds : Rect} (hbottom : bounds.bottom = l.bottom)
    (hwidth : bounds.left < bounds.right → x ≤ bounds.left ∧ l.Reaches x bounds.right) :
    (l.line s images).Frames x bounds := by
  constructor
  · intro hlt
    obtain ⟨hleft, hright⟩ := hwidth hlt
    exact h.spans hleft (Int.le_of_lt hlt) hright
  · -- All glyphs of the line have its bottom, and there is one.
    obtain ⟨g, hg⟩ : ∃ g, g ∈ (l.line s images).events := by
      apply List.exists_mem_of_ne_nil
      intro hnil
      have hlength := congrArg List.length hnil
      rw [events_line, List.length_append, List.length_map, List.length_map,
        ← List.length_append, List.take_append_drop] at hlength
      exact h.nonempty (List.length_eq_zero_iff.1 hlength)
    refine ⟨g, hg, ?_⟩
    rw [events_line] at hg
    rcases List.mem_append.1 hg with hg | hg
    · obtain ⟨m, -, rfl⟩ := List.mem_map.1 hg
      exact Int.le_of_eq hbottom
    · obtain ⟨m, -, rfl⟩ := List.mem_map.1 hg
      exact Int.le_of_eq hbottom

theorem spans_glyph (h : l.Ahead x) {g : Glyph} (hg : g ∈ (l.line s images).events)
    (hset : g.wrapped = false) :
    (l.line s images).Spans x g.location.x (g.location.x + g.advance) := by
  rw [events_line] at hg
  rcases List.mem_append.1 hg with hg | hg
  · obtain ⟨m, hm, rfl⟩ := List.mem_map.1 hg
    have hahead := h.marks m (List.mem_of_mem_take hm)
    have hx : (l.glyph false m).location.x = m.x := by
      change m.x + m.offset.x = m.x
      rw [hahead.offset, Int.add_zero]
    rw [hx]
    exact h.spans hahead.left hahead.le_right (h.reaches_mark hm).2
  · obtain ⟨m, -, rfl⟩ := List.mem_map.1 hg
    cases hset

theorem frames_region (h : l.Ahead x) {span : Span Nat} {region : Region}
    (hr : l.region? span = some region) : (l.line s images).Frames x region.bounds := by
  unfold region? at hr
  obtain ⟨left, hleft, rfl⟩ := Option.map_eq_some_iff.1 hr
  have hedge : x ≤ left ∧ (l.content = 0 → left = l.left) := by
    split at hleft
    · split at hleft
      · cases hleft
      split at hleft
      · next hi =>
        cases hleft
        refine ⟨(h.reaches_xAt hi l.right).1, ?_⟩
        omega
      · cases hleft
        exact ⟨h.le_right, h.right_of_content_eq_zero⟩
    · cases hleft
      exact ⟨h.left, fun _ => rfl⟩
  refine h.frames rfl ?_
  intro hlt
  have hpast : left < l.spanRight span := by
    change left < max (l.spanRight span) left at hlt
    omega
  refine ⟨hedge.1, ?_⟩
  change l.Reaches x (max (l.spanRight span) left)
  rw [Int.max_eq_left (Int.le_of_lt hpast)]
  rcases h.spanRight_cases span with hreaches | ⟨hzero, hstop⟩
  · exact hreaches
  · rw [hstop, hedge.2 hzero] at hpast
    exact absurd hpast (Int.lt_irrefl l.left)

theorem le_selectionLeft (h : l.Ahead x) {span : Span Selection} {left : Int}
    (hleft : l.selectionLeft? span = some left) :
    x ≤ left ∧ (l.content = 0 → left = l.left) := by
  unfold selectionLeft? at hleft
  split at hleft
  · split at hleft
    · next hi =>
      cases hleft
      refine ⟨(h.reaches_xAt hi l.left).1, ?_⟩
      omega
    · cases hleft
  · cases hleft
    split
    · next hpos =>
      refine ⟨(h.reaches_xAt hpos l.left).1, ?_⟩
      omega
    · exact ⟨h.left, fun _ => rfl⟩

theorem frames_selection (h : l.Ahead x) {span : Span Selection}
    (hpadding : span.data.padding = Margin.all 0) {bounds : Rect} {background color : Color}
    {border : Int} (hi : .box bounds background border color ∈ l.selectionBox images span) :
    (l.line s images).Frames x bounds := by
  rcases selectionBox_cases hi with ⟨left, hleft, hi⟩ | ⟨_, _, _, _, _, hi⟩
  · obtain ⟨hedge, hzero⟩ := h.le_selectionLeft hleft
    have hbounds : bounds = ⟨left, l.top, l.spanRight span, l.bottom⟩ := by
      cases hi
      simp [hpadding, Rect.inflate, Margin.all]
    rw [hbounds]
    refine h.frames rfl ?_
    intro hlt
    refine ⟨hedge, ?_⟩
    rcases h.spanRight_cases span with hreaches | ⟨hnone, hstop⟩
    · exact hreaches
    · change left < l.spanRight span at hlt
      rw [hstop, hzero hnone] at hlt
      exact absurd hlt (Int.lt_irrefl l.left)
  · cases hi

theorem reaches_ruleRight (h : l.Ahead x) (hpos : 0 < l.content) (span : Span Rule) :
    l.Reaches x (l.ruleRight span) := by
  unfold ruleRight
  cases hstop : span.stopGlyph? l.content with
  | none => exact h.reaches_right hpos
  | some stop =>
    obtain ⟨-, hlt⟩ := Option.filter_eq_some_iff.1 hstop
    have hlt : stop < l.content := by simpa using hlt
    dsimp only
    split
    · exact h.reaches_xAt hlt l.right
    · -- The last mark before the stop is content, also if that is the first one itself.
      obtain ⟨m, hm, hget⟩ := h.exists_mark (i := max stop 1 - 1) (by omega)
      rw [hget]
      exact (h.reaches_mark hm).2

theorem spans_rule (h : l.Ahead x) {span : Span Rule} {left right y thickness : Int}
    {color : Color} (hi : l.rule? span = some (.rule left right y thickness color)) :
    (l.line s images).Spans x left right := by
  obtain ⟨first, mark, hfirst, hmark, hlt, hrule⟩ := rule?_eq_some hi
  cases hrule
  obtain ⟨m, hm, hget⟩ := h.exists_mark hfirst
  obtain rfl : m = mark := Option.some.inj (hget.symm.trans hmark)
  refine h.spans (h.reaches_mark hm).1.1 (Int.le_of_lt hlt) ?_
  exact h.reaches_ruleRight (Nat.zero_lt_of_lt hfirst) span

/-- A line that begins at `x` or farther to the right holds all that is reported of it, where no
    box has been asked for but those of selections without a padding. -/
theorem enclosed_line (h : l.Ahead x)
    (hplain : s.format.showBackground = false ∧ s.format.showBorder = false ∧ s.table = none)
    (hpadding : ∀ span ∈ s.selections, span.data.padding = Margin.all 0)
    (images : Registry Image) : (l.line s images).Enclosed x := by
  constructor
  · intro g hg hset
    exact h.spans_glyph hg hset
  · intro left right y thickness color hi
    rcases List.mem_append.1 hi with hi | hi
    · rcases List.mem_append.1 hi with hi | hi
      · rcases boxes_cases hi with ⟨_, _, _, _, hi⟩ | ⟨_, _, _, _, _, hi⟩
        · cases hi
        · cases hi
      · rcases glyphs_cases hi with ⟨_, hi⟩ | ⟨_, _, _, _, _, hi⟩
        · cases hi
        · cases hi
    · obtain ⟨span, hspan⟩ := exists_of_mem_rules hi
      exact h.spans_rule hspan
  · intro bounds background border color hi
    rcases List.mem_append.1 hi with hi | hi
    · rcases List.mem_append.1 hi with hi | hi
      · obtain ⟨hbackground, hborder, htable⟩ := hplain
        have hboxes : l.boxes s images = s.selections.reverse.flatMap (l.selectionBox images) := by
          simp [boxes, SetLine.background, cellBorders, hbackground, hborder, htable]
        change _ ∈ l.boxes s images at hi
        rw [hboxes] at hi
        obtain ⟨span, hspan, hi⟩ := List.mem_flatMap.1 hi
        exact h.frames_selection (hpadding span (List.mem_reverse.1 hspan)) hi
      · rcases glyphs_cases hi with ⟨_, hi⟩ | ⟨_, _, _, _, _, hi⟩
        · cases hi
        · cases hi
    · obtain ⟨span, hspan⟩ := exists_of_mem_rules hi
      obtain ⟨_, _, -, -, -, hi⟩ := rule?_eq_some hspan
      cases hi
  · intro region hregion
    obtain ⟨span, -, hspan⟩ := List.mem_filterMap.1 hregion
    exact h.frames_region hspan

end Ahead

end SetLine

end RichText
