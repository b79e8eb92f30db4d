/-
  RichText/Proofs/Layout/Coherence.lean
  =====================================
  **Positions on the line being filled stay on it.**

  Six things of a layout hold positions among the marks that wait for their line: the
  spans of selections, regions and both decorations, the last place for a break, and
  the cells of a table.  `Coherent` says that all of them are on the line and fit
  together; every move keeps it (`Move.coherent`), so that it holds between any two
  tokens (`coherent_run`).
-/
import RichText.Proofs.Layout.Moves

namespace RichText

/-! ### Spans -/

namespace Span

variable {α : Type} {n m : Nat} {s : Span α}

theorem Within.mono (h : s.Within n) (hnm : n ≤ m) : s.Within m := by
  obtain ⟨hstart, hstop, horder⟩ := h
  exact ⟨fun i hi => Nat.le_trans (hstart i hi) hnm, fun j hj => Nat.le_trans (hstop j hj) hnm,
    horder⟩

theorem Within.close (h : s.Within n) : (s.close n).Within n := by
  obtain ⟨hstart, -, -⟩ := h
  refine ⟨hstart, ?_, ?_⟩
  · intro j hj
    cases hj
    exact Nat.le_refl n
  · intro i j hi hj
    cases hj
    exact hstart i hi

/-- A span that is open is still there after the cut, and still open. -/
theorem carry_of_isOpen (h : s.isOpen = true) (cut : Nat) :
    ∃ t, s.carry cut = some t ∧ t.isOpen = true := by
  obtain ⟨start, stop, data⟩ := s
  cases stop with
  | some j => cases h
  | none =>
    cases start with
    | continued => exact ⟨⟨.continued, none, data⟩, rfl, rfl⟩
    | glyph i =>
      by_cases hi : cut ≤ i
      · exact ⟨⟨.glyph (i - cut), none, data⟩, if_pos hi, rfl⟩
      · exact ⟨⟨.continued, none, data⟩, if_neg hi, rfl⟩

theorem isOpen_of_carry {cut : Nat} {t : Span α} (h : s.carry cut = some t) :
    t.isOpen = s.isOpen := by
  have past : ∀ t, carry.past cut s = some t → t.isOpen = s.isOpen := by
    intro t ht
    unfold carry.past at ht
    split at ht
    · cases ht
    · cases ht
      exact Option.isNone_map
  unfold carry at h
  split at h
  · split at h
    · cases h
      exact Option.isNone_map
    · exact past t h
  · exact past t h

end Span

def SpansWithin {α : Type} (n : Nat) (spans : List (Span α)) : Prop := ∀ s ∈ spans, s.Within n

namespace SpansWithin

variable {α : Type} {n m : Nat} {spans : List (Span α)}

theorem nil : SpansWithin n ([] : List (Span α)) := fun _ h => nomatch h

theorem mono (h : SpansWithin n spans) (hnm : n ≤ m) : SpansWithin m spans :=
  fun s hs => (h s hs).mono hnm

theorem cons_opening (h : SpansWithin n spans) (data : α) :
    SpansWithin n (Span.opening n data :: spans) := by
  intro s hs
  rcases List.mem_cons.1 hs with rfl | hs
  · exact Span.within_opening n data
  · exact h s hs

theorem carry (h : SpansWithin n spans) (cut : Nat) :
    SpansWithin (n - cut) (spans.filterMap (Span.carry cut)) := by
  intro t ht
  obtain ⟨s, hs, hst⟩ := List.mem_filterMap.1 ht
  exact (h s hs).carry hst

theorem closeFirst (h : SpansWithin n spans) (p : Span α → Bool) :
    SpansWithin n (closeFirst p n spans) := by
  induction spans with
  | nil => exact nil
  | cons s rest ih =>
    have hs := h s List.mem_cons_self
    have hrest : SpansWithin n rest := fun t ht => h t (List.mem_cons_of_mem s ht)
    unfold RichText.closeFirst
    split
    · intro t ht
      rcases List.mem_cons.1 ht with rfl | ht
      · exact hs.close
      · exact hrest t ht
    · intro t ht
      rcases List.mem_cons.1 ht with rfl | ht
      · exact hs
      · exact ih hrest t ht

end SpansWithin

/-! ### Decorations -/

namespace Decorations

variable {n m : Nat} {d : Decorations}

/-- The rules are on the line, and at most the last one is open, exactly if the
    decorations know where it stands. -/
structure Coherent (n : Nat) (d : Decorations) : Prop where
  within : SpansWithin n d.spans
  closed : ∀ s ∈ d.spans.tail, s.isOpen = false
  openAt : (d.spans.head?).any Span.isOpen = d.openAt.isSome

theorem coherent_empty (n : Nat) : empty.Coherent n := ⟨.nil, fun _ h => (nomatch h), rfl⟩

theorem Coherent.mono (h : d.Coherent n) (hnm : n ≤ m) : d.Coherent m :=
  ⟨h.within.mono hnm, h.closed, h.openAt⟩

theorem Coherent.close (h : d.Coherent n) : (d.close n).Coherent n := by
  obtain ⟨hwithin, hclosed, hopen⟩ := h
  obtain ⟨spans, openAt⟩ := d
  cases openAt with
  | none => exact ⟨hwithin, hclosed, hopen⟩
  | some height =>
    cases spans with
    | nil => exact coherent_empty n
    | cons s rest =>
      -- The last rule is open, since the decorations know where it stands.
      have hs : s.isOpen = true := hopen
      have hd : Decorations.close ⟨s :: rest, some height⟩ n = ⟨s.close n :: rest, none⟩ := by
        simp only [Decorations.close, hs, if_true]
      rw [hd]
      refine ⟨?_, hclosed, rfl⟩
      intro t ht
      rcases List.mem_cons.1 ht with rfl | ht
      · exact (hwithin s List.mem_cons_self).close
      · exact hwithin t (List.mem_cons_of_mem s ht)

theorem Coherent.closed_close (h : d.Coherent n) : ∀ s ∈ (d.close n).spans, s.isOpen = false := by
  obtain ⟨-, hclosed, hopen⟩ := h.close
  rw [openAt_close, Option.isSome_none] at hopen
  intro s hs
  cases hspans : (d.close n).spans with
  | nil =>
    rw [hspans] at hs
    cases hs
  | cons first rest =>
    rw [hspans] at hs hclosed hopen
    rcases List.mem_cons.1 hs with rfl | hs
    · exact hopen
    · exact hclosed s hs

theorem Coherent.cover (h : d.Coherent n) (rule : Rule) (height : Int) :
    (d.cover n rule height).Coherent n := by
  unfold Decorations.cover
  split
  · exact h
  · exact ⟨h.close.within.cons_opening rule, h.closed_close, rfl⟩

theorem Coherent.update (h : d.Coherent n) (rule : Option (Rule × Int)) :
    (d.update n rule).Coherent n := by
  rcases rule with _ | ⟨rule, height⟩
  · exact h.close
  · exact h.cover rule height

/-- An open rule goes on after the cut, and no other one opens. -/
theorem Coherent.carry (h : d.Coherent n) (cut : Nat) : (d.carry cut).Coherent (n - cut) := by
  obtain ⟨hwithin, hclosed, hopen⟩ := h
  obtain ⟨spans, openAt⟩ := d
  refine ⟨hwithin.carry cut, ?_, ?_⟩ <;> unfold Decorations.carry
  · cases spans with
    | nil => exact fun _ h => (nomatch h)
    | cons s rest =>
      intro t ht
      have hmem : t ∈ rest.filterMap (Span.carry cut) := by
        cases hs : s.carry cut with
        | none =>
          rw [List.filterMap_cons_none hs] at ht
          exact List.mem_of_mem_tail ht
        | some s' =>
          rw [List.filterMap_cons_some hs] at ht
          exact ht
      obtain ⟨r, hr, hrt⟩ := List.mem_filterMap.1 hmem
      rw [Span.isOpen_of_carry hrt]
      exact hclosed r hr
  · cases spans with
    | nil => exact hopen
    | cons s rest =>
      have hs : s.isOpen = openAt.isSome := hopen
      cases hc : s.carry cut with
      | some t =>
        rw [List.filterMap_cons_some hc]
        exact (Span.isOpen_of_carry hc).trans hs
      | none =>
        rw [List.filterMap_cons_none hc]
        -- What the cut leaves nothing of was not open.
        have hclosedHead : s.isOpen = false := by
          cases ho : s.isOpen with
          | false => rfl
          | true =>
            obtain ⟨t, ht, -⟩ := Span.carry_of_isOpen ho cut
            rw [hc] at ht
            cases ht
        change ((rest.filterMap (Span.carry cut)).head?).any Span.isOpen = openAt.isSome
        rw [← hs, hclosedHead]
        cases hrest : rest.filterMap (Span.carry cut) with
        | nil => rfl
        | cons t ts =>
          have ht : t ∈ rest.filterMap (Span.carry cut) := hrest ▸ List.mem_cons_self
          obtain ⟨r, hr, hrt⟩ := List.mem_filterMap.1 ht
          exact (Span.isOpen_of_carry hrt).trans (hclosed r hr)

end Decorations

/-! ### Tables -/

namespace Table

variable {n m : Nat} {t : Table}

/-- The cells of the row start one after another on the line, the first one with the
    line, and cover at least one column each. -/
structure Coherent (n : Nat) (t : Table) : Prop where
  first_le : ∀ c ∈ t.cells, c.first ≤ n
  /-- The cells are listed from the last one back. -/
  ordered : t.cells.Pairwise fun c d => d.first ≤ c.first
  starts : ∃ c, t.cells.getLast? = some c ∧ c.first = 0
  span_pos : ∀ c ∈ t.cells, 1 ≤ c.span

theorem Coherent.mono (h : t.Coherent n) (hnm : n ≤ m) : t.Coherent m :=
  ⟨fun c hc => Nat.le_trans (h.first_le c hc) hnm, h.ordered, h.starts, h.span_pos⟩

theorem coherent_startRow (n : Nat) (t : Table) : t.startRow.Coherent n := by
  refine ⟨?_, List.pairwise_singleton _ _, ⟨_, rfl, rfl⟩, ?_⟩
  · intro c hc
    rw [List.mem_singleton.1 hc]
    exact Nat.zero_le n
  · intro c hc
    obtain rfl := List.mem_singleton.1 hc
    exact Nat.le_refl 1

theorem Coherent.nextCell (h : t.Coherent n) : (t.nextCell n).Coherent n := by
  obtain ⟨first, hlast, hzero⟩ := h.starts
  have hstarts : (t.nextCell n).cells.getLast? = some first := by
    rw [Table.nextCell, List.getLast?_cons, hlast, Option.getD_some]
  refine ⟨?_, List.pairwise_cons.2 ⟨h.first_le, h.ordered⟩, ⟨first, hstarts, hzero⟩, ?_⟩
  · intro c hc
    rcases List.mem_cons.1 hc with rfl | hc
    · exact Nat.le_refl n
    · exact h.first_le c hc
  · intro c hc
    rcases List.mem_cons.1 hc with rfl | hc
    · exact Nat.le_refl 1
    · exact h.span_pos c hc

theorem Coherent.span (h : t.Coherent n) (columns : Nat) (align : TextAlign) :
    (t.span columns align).Coherent n := by
  obtain ⟨hfirst, hordered, hstarts, hspan⟩ := h
  unfold Table.span
  split
  · exact ⟨hfirst, hordered, hstarts, hspan⟩
  · next last rest hcells =>
    rw [hcells] at hfirst hordered hstarts hspan
    obtain ⟨hlast, hrest⟩ := List.pairwise_cons.1 hordered
    have hzero : ∃ c,
        ({ last with span := max columns 1, align := align } :: rest).getLast? = some c ∧
        c.first = 0 := by
      obtain ⟨c, hc, h0⟩ := hstarts
      cases rest with
      | nil =>
        cases hc
        exact ⟨_, rfl, h0⟩
      | cons d rest => exact ⟨c, hc, h0⟩
    refine ⟨?_, List.pairwise_cons.2 ⟨hlast, hrest⟩, hzero, ?_⟩
    · intro c hc
      rcases List.mem_cons.1 hc with rfl | hc
      · exact hfirst last List.mem_cons_self
      · exact hfirst c (List.mem_cons_of_mem last hc)
    · intro c hc
      rcases List.mem_cons.1 hc with rfl | hc
      · exact Nat.le_max_right columns 1
      · exact hspan c (List.mem_cons_of_mem last hc)

end Table

/-! ### States -/

namespace LayoutState

variable {job : Job} {s t : LayoutState}

/-- The spans and the place for a break are on the line. -/
structure CoherentLine (s : LayoutState) : Prop where
  selections : SpansWithin s.marks.size s.selections
  regions : SpansWithin s.marks.size s.regions
  underline : s.underline.Coherent s.marks.size
  strike : s.strike.Coherent s.marks.size
  lastBreak : s.BreakWithin

/-- All positions that a layout holds are on the line being filled. -/
structure Coherent (s : LayoutState) : Prop extends CoherentLine s where
  table : ∀ t, s.table = some t → t.Coherent s.marks.size

theorem coherent_initial (job : Job) (font : Font) : (initial job font).Coherent where
  selections := .nil
  regions := .nil
  underline := Decorations.coherent_empty 0
  strike := Decorations.coherent_empty 0
  lastBreak := breakWithin_initial job font
  table := fun _ h => nomatch h

theorem CoherentLine.congr (hst : SameLine s t) (h : s.CoherentLine) : t.CoherentLine := by
  obtain ⟨hselections, hregions, hunderline, hstrike, hbreak⟩ := h
  rw [← hst.marks, ← hst.selections] at hselections
  rw [← hst.marks, ← hst.regions] at hregions
  rw [← hst.marks, ← hst.underline] at hunderline
  rw [← hst.marks, ← hst.strike] at hstrike
  exact ⟨hselections, hregions, hunderline, hstrike,
    breakWithin_congr hst.lastBreak (congrArg Array.size hst.marks) hbreak⟩

theorem Coherent.congr (hst : SameLine s t) (h : s.Coherent) : t.Coherent where
  toCoherentLine := h.toCoherentLine.congr hst
  table := by
    intro u hu
    rw [hst.marks]
    exact h.table u (hst.table ▸ hu)

theorem Coherent.pushMark (h : s.Coherent) (code : Nat) (kind : MarkKind) (advance : Int)
    (index : Nat) : (s.pushMark job code kind advance index).Coherent := by
  obtain ⟨-, hb, hsel, hreg, htab, ⟨under, hu⟩, ⟨strike, hs⟩⟩ :=
    pushMark_frame job s code kind advance index
  have hmove : Move job s [⟨code, kind.isEnd, index⟩] (s.pushMark job code kind advance index) :=
    .mark s code kind advance index
  have hbreak := hmove.breakWithin h.lastBreak
  have hsize := size_pushMark job s code kind advance index
  have hle : s.marks.size ≤ s.marks.size + 1 := Nat.le_succ s.marks.size
  refine ⟨⟨?_, ?_, ?_, ?_, hbreak⟩, ?_⟩ <;> rw [hsize]
  · rw [hsel]
    exact h.selections.mono hle
  · rw [hreg]
    exact h.regions.mono hle
  · rw [hu]
    exact (h.underline.update under).mono hle
  · rw [hs]
    exact (h.strike.update strike).mono hle
  · intro t ht
    exact (h.table t (htab ▸ ht)).mono hle

/-- What a commit carries over the cut is on the next line. -/
theorem CoherentLine.commit (h : s.CoherentLine) (content : Nat) (reason : LineEnd) :
    (s.commit job content reason).CoherentLine := by
  obtain ⟨-, -, -, hu, hs, hsel, hreg, -⟩ := commit_frame job s content reason
  refine ⟨?_, ?_, ?_, ?_, breakWithin_commit job s content reason⟩ <;> rw [size_commit]
  · rw [hsel]
    exact h.selections.carry _
  · rw [hreg]
    exact h.regions.carry _
  · rw [hu]
    exact h.underline.carry _
  · rw [hs]
    exact h.strike.carry _

theorem CoherentLine.finishLine (h : s.CoherentLine) (reason : LineEnd) :
    (s.finishLine job reason).CoherentLine := by
  unfold LayoutState.finishLine
  split
  · exact h
  · exact h.commit s.marks.size reason

/-- Outside tables any line may be committed; in a table the cells of the next row
    take the place of those whose marks have gone. -/
theorem Coherent.commit (h : s.Coherent) (content : Nat) (reason : LineEnd)
    (ht : s.table = none ∨ reason = .row) : (s.commit job content reason).Coherent where
  toCoherentLine := h.toCoherentLine.commit content reason
  table := by
    obtain ⟨-, -, -, -, -, -, -, htable⟩ := commit_frame job s content reason
    intro t hst
    rw [htable] at hst
    rcases ht with ht | rfl
    · rw [ht, Option.map_none, ite_self] at hst
      cases hst
    · rw [if_pos rfl] at hst
      obtain ⟨u, -, rfl⟩ := Option.map_eq_some_iff.1 hst
      exact Table.coherent_startRow _ u

theorem Coherent.nextCell (h : s.Coherent) : (s.nextCell job).Coherent := by
  have hmove : Move job s [] (s.nextCell job) := .nextCell s
  have hbreak := hmove.breakWithin h.lastBreak
  obtain ⟨hm, -, -, hu, hs, hsel, hreg, htable⟩ := nextCell_frame job s
  refine ⟨⟨?_, ?_, ?_, ?_, hbreak⟩, ?_⟩ <;> rw [hm]
  · rw [hsel]
    exact h.selections
  · rw [hreg]
    exact h.regions
  · rw [hu]
    exact h.underline
  · rw [hs]
    exact h.strike
  · intro t ht
    rw [htable] at ht
    obtain ⟨u, hu, rfl⟩ := Option.map_eq_some_iff.1 ht
    exact (h.table u hu).nextCell

theorem Move.coherent {σ : List Sign} (m : Move job s σ t) (h : s.Coherent) : t.Coherent := by
  cases m with
  | quiet hst => exact h.congr hst
  | mark code kind advance index => exact h.pushMark code kind advance index
  | wrap content _ ht => exact h.commit content .wrap (Or.inl ht)
  | commitAll reason ht => exact h.commit s.marks.size reason ht
  | noteBreak =>
    have hmove : Move job s [] { s with lastBreak := some s.marks.size } := .noteBreak s
    have hbreak := hmove.breakWithin h.lastBreak
    exact ⟨⟨h.selections, h.regions, h.underline, h.strike, hbreak⟩, h.table⟩
  | closeRules hst =>
    refine Coherent.congr hst ?_
    exact ⟨⟨h.selections, h.regions, h.underline.close, h.strike.close, h.lastBreak⟩, h.table⟩
  | openSelection data =>
    exact ⟨⟨h.selections.cons_opening data, h.regions, h.underline, h.strike, h.lastBreak⟩, h.table⟩
  | closeSelection p =>
    exact ⟨⟨h.selections.closeFirst p, h.regions, h.underline, h.strike, h.lastBreak⟩, h.table⟩
  | openRegion id =>
    exact ⟨⟨h.selections, h.regions.cons_opening id, h.underline, h.strike, h.lastBreak⟩, h.table⟩
  | closeRegion p =>
    exact ⟨⟨h.selections, h.regions.closeFirst p, h.underline, h.strike, h.lastBreak⟩, h.table⟩
  | nextCell => exact h.nextCell
  | span columns align =>
    refine ⟨⟨h.selections, h.regions, h.underline, h.strike, h.lastBreak⟩, ?_⟩
    intro t ht
    obtain ⟨u, hu, rfl⟩ := Option.map_eq_some_iff.1 ht
    exact (h.table u hu).span columns align
  | beginTable t ht =>
    have hline : (s.finishLine job (.newline false)).CoherentLine := h.toCoherentLine.finishLine _
    refine ⟨⟨hline.selections, hline.regions, hline.underline, hline.strike, hline.lastBreak⟩, ?_⟩
    intro u hu
    cases hu
    rw [← ht]
    exact Table.coherent_startRow _ t
  | leaveTable =>
    exact ⟨⟨h.selections, h.regions, h.underline, h.strike, h.lastBreak⟩, fun _ ht => nomatch ht⟩

/-- Between any two tokens of a layout all positions are on the line. -/
theorem coherent_run (job : Job) (font : Font) (ls : List Lexeme) :
    ((initial job font).run job ls).Coherent :=
  run_preserves (coherent_initial job font) Move.coherent ls

end LayoutState

end RichText
