/-
  RichText/Proofs/Query/Boundaries.lean
  =====================================
  **The boundaries of a region are one for each line that it covers, and one for its end.**

  A region is shown on the lines that hold a glyph of it, and on the line that is being filled
  when it ends, if the region has begun before that line and a glyph is put there later
  (`Stretch.shownOn_iff`).  On the latter line it may have no glyph: a region that ends behind
  the end of a line gives one boundary more than there are lines with its glyphs
  (`Printer.region_boundaries`).
-/
import RichText.Proofs.Layout.Regions
import RichText.Proofs.Query.Positions

namespace RichText

/-- Glyphs on lines that follow one another. -/
theorem placedOn_lt {lines : List Line} (h : (events lines).Pairwise fun g k => g.index < k.index)
    {i j : Nat} (hij : i < j) {g k : Glyph} (hg : g ∈ placedOn lines i) (hk : k ∈ placedOn lines j) :
    g.index < k.index := by
  obtain ⟨l, hl, hg⟩ := mem_events_of_placedOn hg
  obtain ⟨m, hm, hk⟩ := mem_events_of_placedOn hk
  have hsplit : events lines = events (lines.take j) ++ events (lines.drop j) := by
    rw [events, events, events, ← List.flatMap_append, List.take_append_drop]
  rw [hsplit, List.pairwise_append] at h
  refine h.2.2 g (List.mem_flatMap_of_mem ?_ hg) k (List.mem_flatMap_of_mem ?_ hk)
  · apply List.mem_of_getElem? (i := i)
    rw [List.getElem?_take_of_lt hij, hl]
  · apply List.mem_of_getElem? (i := 0)
    rw [List.getElem?_drop, Nat.add_zero, hm]

namespace Stretch

/-- The line of a number holds a glyph of the region. -/
def CoveredOn (lines : List Line) (r : Stretch) (j : Nat) : Prop :=
  ∃ g ∈ placedOn lines j, r.Covers g.index

/-- The region ends where a line begins that a glyph is put on later. -/
def EndsBefore (lines : List Line) (r : Stretch) : Prop :=
  ∃ e ∈ r.ending, placedOn lines e.line ≠ [] ∧ ∀ g ∈ placedOn lines e.line, e.index ≤ g.index

instance (lines : List Line) (r : Stretch) (j : Nat) : Decidable (r.CoveredOn lines j) :=
  inferInstanceAs (Decidable (∃ g ∈ placedOn lines j, r.Covers g.index))

instance (lines : List Line) (r : Stretch) : Decidable (r.EndsBefore lines) :=
  inferInstanceAs (Decidable (∃ e ∈ r.ending, _ ∧ _))

variable {lines : List Line} {r : Stretch}

/-- A region with a glyph is shown on the lines that hold one of its glyphs, and on the line
    that begins where it ends. -/
theorem shownOn_iff (h : (events lines).Pairwise fun g k => g.index < k.index) {i : Nat}
    (hi : r.CoveredOn lines i) (j : Nat) :
    r.ShownOn lines j ↔
      r.CoveredOn lines j ∨ (∃ e ∈ r.ending, e.line = j) ∧ r.EndsBefore lines := by
  obtain ⟨k, hk, hstart, hstop⟩ := hi
  constructor
  · rintro ⟨⟨g, hg, hbehind⟩, hshown⟩
    by_cases hcovered : r.CoveredOn lines j
    · exact Or.inl hcovered
    · -- The glyph behind the start is no glyph of the region, and so it is behind the end.
      have hafter : ∃ e ∈ r.ending, e.index ≤ g.index := by
        by_contra hnone
        refine hcovered ⟨g, hg, hbehind, ?_⟩
        intro e he
        by_contra hle
        exact hnone ⟨e, he, Nat.not_lt.1 hle⟩
      obtain ⟨e, he, hle⟩ := hafter
      have hstop := hstop e he
      rcases Nat.lt_trichotomy i j with hij | rfl | hji
      · right
        rcases hshown with hfirst | hcovers | ⟨e', he', hline⟩
        · exact absurd (hfirst i hij k hk) (Nat.not_le.2 hstart)
        · exact absurd hcovers hcovered
        · obtain rfl : e = e' := Option.some.inj (he.symm.trans he')
          refine ⟨⟨e, he, hline⟩, e, he, ?_, ?_⟩
          · rw [hline]
            exact List.ne_nil_of_mem hg
          · rw [hline]
            intro m hm
            have hlater := placedOn_lt h hij hk hm
            by_contra hlt
            refine hcovered ⟨m, hm, Nat.lt_trans hstart hlater, ?_⟩
            intro e' he'
            obtain rfl : e = e' := Option.some.inj (he.symm.trans he')
            exact Nat.not_le.1 hlt
      · exact absurd ⟨k, hk, hstart, fun e' he' =>
          Option.some.inj (he.symm.trans he') ▸ hstop⟩ hcovered
      · have hlater := placedOn_lt h hji hg hk
        omega
  · rintro (hcovered | ⟨⟨e, he, rfl⟩, e', he', hsome, hall⟩)
    · obtain ⟨g, hg, hcovers⟩ := hcovered
      exact ⟨⟨g, hg, hcovers.1⟩, Or.inr (Or.inl ⟨g, hg, hcovers⟩)⟩
    · obtain rfl : e = e' := Option.some.inj (he.symm.trans he')
      obtain ⟨g, hg⟩ := List.exists_mem_of_ne_nil _ hsome
      have hbehind := hall g hg
      have hstop := hstop e he
      exact ⟨⟨g, hg, by omega⟩, Or.inr (Or.inr ⟨e, he, rfl⟩)⟩

theorem not_coveredOn_of_endsBefore {e : Ending} (he : e ∈ r.ending)
    (h : r.EndsBefore lines) : ¬ r.CoveredOn lines e.line := by
  obtain ⟨e', he', -, hall⟩ := h
  obtain rfl : e = e' := Option.some.inj (he.symm.trans he')
  rintro ⟨g, hg, -, hstop⟩
  exact absurd (hstop e he) (Nat.not_lt.2 (hall g hg))

/-- How many of the first lines have a part of a region, counted with those that hold a glyph
    of it. -/
theorem countP_shownOn (h : (events lines).Pairwise fun g k => g.index < k.index) {i : Nat}
    (hi : r.CoveredOn lines i) (n : Nat) :
    (List.range n).countP (r.ShownOn lines ·) =
      (List.range n).countP (r.CoveredOn lines ·) +
        if (∃ e ∈ r.ending, e.line < n) ∧ r.EndsBefore lines then 1 else 0 := by
  induction n with
  | zero => simp
  | succ n ih =>
    have hshown := shownOn_iff h hi n
    rw [List.range_succ, List.countP_append, List.countP_append, ih, List.countP_singleton,
      List.countP_singleton]
    by_cases hend : (∃ e ∈ r.ending, e.line = n) ∧ r.EndsBefore lines
    · obtain ⟨⟨e, he, hline⟩, hbefore⟩ := hend
      have hnot : ¬ r.CoveredOn lines n := hline ▸ not_coveredOn_of_endsBefore he hbefore
      have hyes : r.ShownOn lines n := hshown.2 (Or.inr ⟨⟨e, he, hline⟩, hbefore⟩)
      have hearlier : ¬ ∃ e ∈ r.ending, e.line < n := by
        rintro ⟨e', he', hlt⟩
        obtain rfl : e = e' := Option.some.inj (he.symm.trans he')
        omega
      have hlater : ∃ e ∈ r.ending, e.line < n + 1 := ⟨e, he, by omega⟩
      have hone : (if (∃ e ∈ r.ending, e.line < n + 1) ∧ r.EndsBefore lines then 1 else 0) = 1 :=
        if_pos ⟨hlater, hbefore⟩
      rw [if_neg fun hand => hearlier hand.1, hone, decide_eq_true hyes, decide_eq_false hnot]
      rfl
    · have hsame : r.ShownOn lines n ↔ r.CoveredOn lines n := by
        rw [hshown]
        exact or_iff_left hend
      have hbound : (∃ e ∈ r.ending, e.line < n + 1) ∧ r.EndsBefore lines ↔
          (∃ e ∈ r.ending, e.line < n) ∧ r.EndsBefore lines := by
        constructor
        · rintro ⟨⟨e, he, hlt⟩, hbefore⟩
          have hne : e.line ≠ n := fun hline => hend ⟨⟨e, he, hline⟩, hbefore⟩
          exact ⟨⟨e, he, by omega⟩, hbefore⟩
        · rintro ⟨⟨e, he, hlt⟩, hbefore⟩
          exact ⟨⟨e, he, by omega⟩, hbefore⟩
      simp only [hsame, if_congr hbound rfl rfl]
      omega

theorem EndsBefore.line_lt (h : r.EndsBefore lines) : ∃ e ∈ r.ending, e.line < lines.length := by
  obtain ⟨e, he, hsome, -⟩ := h
  refine ⟨e, he, ?_⟩
  by_contra hlt
  rw [placedOn, List.getElem?_eq_none (Nat.not_lt.1 hlt)] at hsome
  exact hsome rfl

end Stretch

/-- **A region has a boundary on each line that holds a glyph of it, and one where it ends
    behind the end of a line.**  Outside tables, and with the default font registered, the
    boundaries that are reported on a line are those of the regions shown there, in the order in
    which these start. A region with a glyph is shown on as many lines as hold a glyph of it,
    and on one more if it ends where a line begins that something is put on later. -/
theorem Printer.region_boundaries {p : Printer} (h : p.fonts.contains p.defaultFont = true)
    {markup : List UInt8}
    (htables : ∀ l ∈ lexemes (Codec.decode markup), l.token.beginsTable = false) (origin : Point)
    (width : Int) :
    ∃ (font : Font) (lines : List Line) (items : List Item),
      p.fonts.get? p.defaultFont = some font ∧
      (Job.mk p origin width).layout markup = .ok lines ∧
      p.layout markup origin width none = .ok (items, lines.flatMap Line.regions) ∧
      (∀ j l, lines[j]? = some l →
        l.regions.map Region.id =
          (((Job.mk p origin width).stretches font (Codec.decode markup)).filter
            (·.ShownOn lines j)).map (·.id)) ∧
      ∀ r ∈ (Job.mk p origin width).stretches font (Codec.decode markup),
        (∃ j, r.CoveredOn lines j) →
          (List.range lines.length).countP (r.ShownOn lines ·) =
            (List.range lines.length).countP (r.CoveredOn lines ·) +
              if r.EndsBefore lines then 1 else 0 := by
  obtain ⟨font, hfont⟩ := (Registry.contains_iff p.fonts p.defaultFont).1 h
  refine ⟨font, _, _, hfont, Job.layout_eq hfont markup, layout_eq hfont markup origin width, ?_, ?_⟩
  · intro j l hl
    exact Job.regions_layout _ font htables hl
  · rintro r - ⟨i, hi⟩
    have hnumbered := numbered_layout ⟨p, origin, width⟩ font (Codec.decode markup)
    rw [Stretch.countP_shownOn hnumbered.increasing hi]
    refine congrArg _ (if_congr ?_ rfl rfl)
    exact and_iff_right_of_imp Stretch.EndsBefore.line_lt

/-- Three letters and a line feed in a region, which ends before another letter. -/
def Printer.regionOfLine : List UInt8 :=
  [0xC2, 0x9B, 0x30, 0x01, 0xC2, 0x9C, 0x61, 0x62, 0x63, 0x0A, 0xC2, 0x9B, 0x31, 0x01, 0xC2, 0x9C,
    0x64]

/-- The region has glyphs on the first line alone, and a boundary on the second one too. -/
theorem Printer.boundary_without_glyph :
    ∃ font lines r, boxes.fonts.get? boxes.defaultFont = some font ∧
      (∀ l ∈ lexemes (Codec.decode regionOfLine), l.token.beginsTable = false) ∧
      (Job.mk boxes .zero 0).layout regionOfLine = .ok lines ∧
      (Job.mk boxes .zero 0).stretches font (Codec.decode regionOfLine) = [r] ∧
      (lines.flatMap Line.regions).map Region.id = [r.id, r.id] ∧
      (List.range lines.length).countP (r.CoveredOn lines ·) = 1 := by
  refine ⟨_, _, ⟨1, 0, some ⟨8, 1⟩⟩, rfl, ?_, rfl, ?_, ?_, ?_⟩
  · decide +kernel
  · decide +kernel
  · decide +kernel
  · decide +kernel

theorem Printer.region_boundaries_ofLine :
    (∀ l ∈ lexemes (Codec.decode regionOfLine), l.token.beginsTable = false) ∧
    ∃ (font : Font) (lines : List Line) (items : List Item),
      boxes.fonts.get? boxes.defaultFont = some font ∧
      (Job.mk boxes .zero 0).layout regionOfLine = .ok lines ∧
      boxes.layout regionOfLine .zero 0 none = .ok (items, lines.flatMap Line.regions) ∧
      ∀ r ∈ (Job.mk boxes .zero 0).stretches font (Codec.decode regionOfLine),
        (∃ j, r.CoveredOn lines j) →
          (List.range lines.length).countP (r.ShownOn lines ·) =
            (List.range lines.length).countP (r.CoveredOn lines ·) +
              if r.EndsBefore lines then 1 else 0 := by
  have htables : ∀ l ∈ lexemes (Codec.decode regionOfLine), l.token.beginsTable = false := by
    decide +kernel
  obtain ⟨font, lines, items, hfont, hlayout, hitems, -, hcount⟩ :=
    region_boundaries (p := boxes) rfl htables .zero 0
  exact ⟨htables, font, lines, items, hfont, hlayout, hitems, hcount⟩

end RichText
