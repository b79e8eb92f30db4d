/-
  RichText/Proofs/Query/Positions.lean
  ====================================
  **The positions that queries answer.**

  Whatever a markup holds, and wherever its lines stand, the positions of the glyphs of a
  layout increase, and the last of them is the number of code points (`numbered_layout`).
  Both searches rest on this alone.  The one for a position stops at the first glyph that is
  not before its target (`Query.state_locate`).  The one for a point goes on to the position
  behind each glyph that it passes, and stops at the place it has come to or at the next
  glyph (`Query.hit_cases`); how far a point is to the right decides only whether it goes on
  (`Query.hit_of_le`).

  `Printer.queries_agree` says which positions are located and hit, and
  `Printer.hit_test_monotone` that a point farther to the right does not hit an earlier one.
-/
import RichText.Proofs.Query.HitTest

namespace RichText

/-! ### Glyphs by their positions -/

/-- The position behind a glyph; one that ends its line has nothing behind it there. -/
def Glyph.next (g : Glyph) : Nat := if g.lineEnd then g.index else g.index + 1

theorem Glyph.next_le_succ (g : Glyph) : g.next ≤ g.index + 1 := by
  unfold next
  split
  · exact Nat.le_succ g.index
  · exact Nat.le_refl (g.index + 1)

theorem Glyph.index_le_next (g : Glyph) : g.index ≤ g.next := by
  unfold next
  split
  · exact Nat.le_refl g.index
  · exact Nat.le_succ g.index

/-- The positions increase up to that of the end of the text. -/
structure Numbered (gs : List Glyph) (total : Nat) : Prop where
  increasing : gs.Pairwise fun g k => g.index < k.index
  last : ∃ g, gs.getLast? = some g ∧ g.lineEnd = true ∧ g.index = total

theorem Numbered.next_le {gs : List Glyph} {total : Nat} (h : Numbered gs total) {g : Glyph}
    (hg : g ∈ gs) : g.next ≤ total := by
  obtain ⟨last, hlast, hend, rfl⟩ := h.last
  obtain ⟨before, rfl⟩ := List.getLast?_eq_some_iff.1 hlast
  rcases List.mem_append.1 hg with hg | hg
  · have hlt : g.index < last.index :=
      (List.pairwise_append.1 h.increasing).2.2 g hg last (List.mem_singleton_self last)
    have hnext := g.next_le_succ
    omega
  · rw [List.mem_singleton.1 hg]
    simp [Glyph.next, hend]

/-- The glyphs of any layout have increasing positions, the last one that of the end. -/
theorem numbered_layout (job : Job) (font : Font) (cs : List Nat) :
    Numbered (events (job.layoutWith font cs)) cs.length := by
  have haccounted := LayoutState.accounted_run job font cs
  obtain ⟨before, last, hevents, hreports, hend, -, hlast⟩ :=
    LayoutState.finish_events job haccounted cs.length
  have hevents : events (job.layoutWith font cs) = before ++ [last] := hevents
  have hindices := indices_of_reports hreports
  have hbefore : before.Pairwise fun g k => g.index < k.index := by
    have hsigns := pairwise_signsOf job.printer.images cs
    rw [← List.pairwise_map (f := fun σ : Sign => σ.index) (R := (· < ·)), ← hindices] at hsigns
    exact List.pairwise_map.1 hsigns
  constructor
  · rw [hevents, List.pairwise_append]
    refine ⟨hbefore, List.pairwise_singleton _ _, ?_⟩
    intro g hg k hk
    obtain ⟨σ, hσ, hr⟩ := exists_of_forall₂ hreports hg
    rw [List.mem_singleton.1 hk, hlast, hr.index]
    exact index_lt_of_mem_signsOf hσ
  · exact ⟨last, by rw [hevents, List.getLast?_concat], hend, hlast⟩

namespace Query

variable {p : Point} {s t : Hit} {g : Glyph} {gs : List Glyph} {n : Nat}

/-! ### The search for a position -/

/-- The search stops at the first glyph that is not before its target. -/
theorem state_locate (target : Nat) (gs : List Glyph) :
    ((locate target).items none (gs.map Item.glyph)).state =
      (gs.find? fun g => target ≤ g.index).map Glyph.cell := by
  induction gs with
  | nil => rfl
  | cons g gs ih =>
    rw [List.map_cons, Traversal.items]
    by_cases hg : g.index < target
    · have hmore : locate target none (.glyph g) = .more none := if_pos hg
      have hnot : decide (target ≤ g.index) = false := decide_eq_false (Nat.not_le.2 hg)
      rw [hmore, List.find?_cons_of_neg (by simp [hnot])]
      exact ih
    · have hdone : locate target none (.glyph g) = .done (some g.cell) := if_neg hg
      have hle : decide (target ≤ g.index) = true := decide_eq_true (Nat.not_lt.1 hg)
      rw [hdone, List.find?_cons]
      simp only [hle]
      rfl

/-- Up to the end of the text there is a glyph that is not before a target, and none after. -/
theorem isSome_find?_iff (h : Numbered gs n) (target : Nat) :
    (gs.find? fun g => target ≤ g.index).isSome = true ↔ target ≤ n := by
  rw [List.find?_isSome]
  constructor
  · rintro ⟨g, hg, htarget⟩
    have hle : target ≤ g.index := by simpa using htarget
    exact hle.trans (g.index_le_next.trans (h.next_le hg))
  · intro htarget
    obtain ⟨last, hlast, -, rfl⟩ := h.last
    exact ⟨last, List.mem_of_getLast? hlast, by simpa using htarget⟩

/-! ### The search for a point -/

/-- The search goes on behind a glyph, or stops where it has come to or at the glyph. -/
theorem hit_cases (p : Point) (s : Hit) (g : Glyph) :
    (∃ t, hit p s (.glyph g) = .more t ∧ t.index = g.next) ∨
      ∃ t, hit p s (.glyph g) = .done t ∧ (t.index = s.index ∨ t.index = g.index) := by
  by_cases hbelow : g.lineBottom ≤ p.y
  · left
    exact ⟨{ s with index := g.next }, if_pos hbelow, rfl⟩
  · simp only [hit, if_neg hbelow]
    by_cases hother : s.lineTop.any (· != g.lineTop) = true
    · right
      rw [if_pos hother]
      exact ⟨s, rfl, Or.inl rfl⟩
    · rw [if_neg hother]
      split
      · right
        exact ⟨_, rfl, Or.inr rfl⟩
      · next hgoes =>
        left
        have hinside : g.lineEnd = false := by
          cases hend : g.lineEnd with
          | false => rfl
          | true => simp [hend] at hgoes
        refine ⟨_, rfl, ?_⟩
        simp [Glyph.next, hinside]

/-- Below a line the search passes all of its glyphs. -/
theorem hit_below (s : Hit) (h : g.lineBottom ≤ p.y) :
    hit p s (.glyph g) = .more { s with index := g.next } := if_pos h

/-- On a line other than the one it has found the search stops where it has come to. -/
theorem hit_other (s : Hit) (h : ¬ g.lineBottom ≤ p.y)
    (hother : s.lineTop.any (· != g.lineTop) = true) : hit p s (.glyph g) = .done s := by
  simp only [hit, if_neg h, if_pos hother]

theorem Hit.within_of_any {top : Int} (h : s.lineTop.any (· != top) = false) : s.Within top := by
  cases htop : s.lineTop with
  | none => exact Or.inl htop
  | some t =>
    rw [htop, Option.any_some, bne_eq_false_iff_eq] at h
    exact Or.inr (htop.trans (congrArg some h))

/-- Behind a glyph the search has come no farther than the glyphs that follow. -/
theorem behind_of_first (h : ∀ k ∈ gs, g.index < k.index) (ht : t.index = g.next) :
    ∀ k ∈ gs, t.index ≤ k.index := by
  intro k hk
  rw [ht]
  exact g.next_le_succ.trans (h k hk)

/-- At the same height two points go the same way, until one of them stops before the middle
    of a glyph that the other has behind it. -/
theorem hit_of_le {x x' : Int} (hx : x ≤ x') (y : Int) (s : Hit) (g : Glyph) :
    hit ⟨x', y⟩ s (.glyph g) = hit ⟨x, y⟩ s (.glyph g) ∨
      hit ⟨x, y⟩ s (.glyph g) = .done ⟨g.index, some g.lineTop⟩ ∧
        hit ⟨x', y⟩ s (.glyph g) = .more ⟨g.index + 1, some g.lineTop⟩ := by
  by_cases hbelow : g.lineBottom ≤ y
  · left
    rw [hit_below s hbelow, hit_below s hbelow]
  · by_cases hother : s.lineTop.any (· != g.lineTop) = true
    · left
      rw [hit_other s hbelow hother, hit_other s hbelow hother]
    · have hs := Hit.within_of_any (Bool.not_eq_true _ ▸ hother)
      have hheight := Int.not_le.1 hbelow
      by_cases hstop : g.lineEnd = true ∨ g.wrapped = true ∨ x' < g.middle
      · left
        have hstop' : g.lineEnd = true ∨ g.wrapped = true ∨ x < g.middle := by
          rcases hstop with hend | hset | hmiddle
          · exact Or.inl hend
          · exact Or.inr (Or.inl hset)
          · exact Or.inr (Or.inr (Int.lt_of_le_of_lt hx hmiddle))
        rw [hit_stops hs hheight hstop, hit_stops hs hheight hstop']
      · -- The point on the right goes on; only the middle can stop the one on the left.
        obtain ⟨hend, hset, hmiddle⟩ := not_or.1 hstop |>.imp_right not_or.1
        have hmore := hit_continues (p := ⟨x', y⟩) hs hheight (Bool.eq_false_iff.2 hend)
          (Bool.eq_false_iff.2 hset) (Int.not_lt.1 hmiddle)
        by_cases hleft : x < g.middle
        · right
          exact ⟨hit_stops hs hheight (Or.inr (Or.inr hleft)), hmore⟩
        · left
          rw [hmore]
          exact (hit_continues hs hheight (Bool.eq_false_iff.2 hend) (Bool.eq_false_iff.2 hset)
            (Int.not_lt.1 hleft)).symm

/-- The search ends no earlier than it has come. -/
theorem le_index (h : gs.Pairwise fun g k => g.index < k.index)
    (hs : ∀ g ∈ gs, s.index ≤ g.index) :
    s.index ≤ ((hit p).items s (gs.map Item.glyph)).state.index := by
  induction gs generalizing s with
  | nil => exact Nat.le_refl s.index
  | cons g gs ih =>
    obtain ⟨hfirst, hrest⟩ := List.pairwise_cons.1 h
    have hg := hs g List.mem_cons_self
    rw [List.map_cons, Traversal.items]
    rcases hit_cases p s g with ⟨t, hmore, hindex⟩ | ⟨t, hdone, hindex⟩
    · rw [hmore]
      have hbehind := behind_of_first hfirst hindex
      exact (hg.trans (hindex ▸ g.index_le_next)).trans (ih hrest hbehind)
    · rw [hdone]
      rcases hindex with hindex | hindex
      · exact Nat.le_of_eq hindex.symm
      · exact hindex ▸ hg

/-- The search stays within the positions that there are. -/
theorem index_le (hs : s.index ≤ n) (h : ∀ g ∈ gs, g.next ≤ n) :
    ((hit p).items s (gs.map Item.glyph)).state.index ≤ n := by
  induction gs generalizing s with
  | nil => exact hs
  | cons g gs ih =>
    have hg := h g List.mem_cons_self
    rw [List.map_cons, Traversal.items]
    rcases hit_cases p s g with ⟨t, hmore, hindex⟩ | ⟨t, hdone, hindex⟩
    · rw [hmore]
      exact ih (hindex ▸ hg) fun k hk => h k (List.mem_cons_of_mem g hk)
    · rw [hdone]
      rcases hindex with hindex | hindex
      · exact hindex ▸ hs
      · exact hindex ▸ g.index_le_next.trans hg

/-- Of two points at one height the one farther to the right comes at least as far. -/
theorem index_mono {x x' : Int} (hx : x ≤ x') (y : Int)
    (h : gs.Pairwise fun g k => g.index < k.index) :
    ((hit ⟨x, y⟩).items s (gs.map Item.glyph)).state.index ≤
      ((hit ⟨x', y⟩).items s (gs.map Item.glyph)).state.index := by
  induction gs generalizing s with
  | nil => exact Nat.le_refl s.index
  | cons g gs ih =>
    obtain ⟨hfirst, hrest⟩ := List.pairwise_cons.1 h
    rw [List.map_cons, Traversal.items, Traversal.items]
    rcases hit_of_le hx y s g with hsame | ⟨hdone, hmore⟩
    · rw [hsame]
      rcases hit_cases ⟨x, y⟩ s g with ⟨t, hmore, -⟩ | ⟨t, hdone, -⟩
      · rw [hmore]
        exact ih hrest
      · rw [hdone]
    · -- The point on the left stops at the glyph, the other one somewhere behind it.
      rw [hdone, hmore]
      have hbehind := le_index (p := ⟨x', y⟩) (s := ⟨g.index + 1, some g.lineTop⟩) hrest hfirst
      exact (Nat.le_succ g.index).trans hbehind

/-- Below all lines the search comes to the last glyph. -/
theorem index_below (h : ∀ g ∈ gs, g.lineBottom ≤ p.y) (hg : gs.getLast? = some g) :
    ((hit p).items s (gs.map Item.glyph)).state.index = g.next := by
  induction gs generalizing s with
  | nil => cases hg
  | cons k gs ih =>
    rw [List.map_cons, Traversal.items, hit_below s (h k List.mem_cons_self)]
    cases gs with
    | nil =>
      cases hg
      rfl
    | cons j gs => exact ih (fun i hi => h i (List.mem_cons_of_mem k hi)) hg

/-! ### The size -/

/-- What the size of a layout has grown to after an item. -/
theorem measure_step (s : Size) (i : Item) :
    ∃ u, measure s i = .more u ∧ s.width ≤ u.width ∧ s.height ≤ u.height ∧
      ∀ g, i.glyph? = some g →
        (g.wrapped = false → g.location.x + g.advance ≤ u.width) ∧ g.lineBottom ≤ u.height := by
  cases i with
  | glyph g =>
    refine ⟨_, rfl, ?_, Int.le_max_left _ _, ?_⟩
    · change s.width ≤ if g.wrapped then s.width else max s.width (g.location.x + g.advance)
      split <;> omega
    · intro k hk
      cases hk
      constructor
      · intro hset
        simp only [hset, Bool.false_eq_true, if_false]
        omega
      · exact Int.le_max_right _ _
  | box bounds background border color =>
    exact ⟨s, rfl, Int.le_refl _, Int.le_refl _, fun g hg => nomatch hg⟩
  | rule left right y thickness color =>
    exact ⟨s, rfl, Int.le_refl _, Int.le_refl _, fun g hg => nomatch hg⟩
  | image index i bounds tint fit =>
    exact ⟨_, rfl, Int.le_max_left _ _, Int.le_refl _, fun g hg => nomatch hg⟩

/-- The size holds all glyphs, those left over at a wrap in its height alone. -/
theorem items_measure (s : Size) (is : List Item) :
    ∃ u, measure.items s is = .more u ∧ s.width ≤ u.width ∧ s.height ≤ u.height ∧
      ∀ g ∈ is.filterMap Item.glyph?,
        (g.wrapped = false → g.location.x + g.advance ≤ u.width) ∧ g.lineBottom ≤ u.height := by
  induction is generalizing s with
  | nil => exact ⟨s, rfl, Int.le_refl _, Int.le_refl _, fun g hg => nomatch hg⟩
  | cons i is ih =>
    obtain ⟨v, hstep, hwidth, hheight, hglyph⟩ := measure_step s i
    obtain ⟨u, hitems, hwidth', hheight', hglyphs⟩ := ih v
    refine ⟨u, ?_, Int.le_trans hwidth hwidth', Int.le_trans hheight hheight', ?_⟩
    · rw [Traversal.items, hstep]
      exact hitems
    · intro g hg
      obtain ⟨j, hj, hjg⟩ := List.mem_filterMap.1 hg
      rcases List.mem_cons.1 hj with rfl | hj
      · obtain ⟨hright, hbottom⟩ := hglyph g hjg
        exact ⟨fun hset => Int.le_trans (hright hset) hwidth', Int.le_trans hbottom hheight'⟩
      · exact hglyphs g (List.mem_filterMap.2 ⟨j, hj, hjg⟩)

end Query

namespace Printer

variable {p : Printer} {markup : List UInt8} {width : Int} {lines : List Line}

/-- The size that is measured holds the glyphs of the layout. -/
theorem measureWrapped_eq (h : (Job.mk p .zero width).layout markup = .ok lines) :
    ∃ size : Size, p.measureWrapped markup width = .ok size ∧ 0 ≤ size.width ∧ 0 ≤ size.height ∧
      ∀ g ∈ events lines,
        (g.wrapped = false → g.location.x + g.advance ≤ size.width) ∧
          g.lineBottom ≤ size.height := by
  obtain ⟨u, hitems, hwidth, hheight, hglyphs⟩ :=
    Query.items_measure .zero (lines.flatMap Line.items)
  refine ⟨u, ?_, hwidth, hheight, ?_⟩
  · have hstate : (Query.measure.lines .zero lines).1 = u := by
      rw [Traversal.lines_state, hitems]
      rfl
    simp only [measureWrapped, query, h, Except.map, hstate]
  · intro g hg
    apply hglyphs
    rw [List.filterMap_flatMap]
    exact hg

/-- **The queries agree on the positions that there are.**  With the default font registered
    any markup, wrapped at any width, is measured and laid out. A position is located exactly
    if it is at most the number of code points, at the first glyph of the layout that is not
    before it. A point hits a position of this range, and its end wherever the point is below
    the height that is measured. -/
theorem queries_agree {p : Printer} (h : p.fonts.contains p.defaultFont = true)
    (markup : List UInt8) (width : Int) :
    ∃ (items : List Item) (regions : List Region) (size : Size),
      p.layout markup .zero width none = .ok (items, regions) ∧
      p.measureWrapped markup width = .ok size ∧
      (∀ i, ∃ cell, p.locateWrapped markup width i = .ok cell ∧
        (cell.isSome = true ↔ i ≤ (Codec.decode markup).length) ∧
        cell = ((items.filterMap Item.glyph?).find? fun g => i ≤ g.index).map Glyph.cell) ∧
      ∀ point, ∃ i, p.hitTestWrapped markup width point = .ok i ∧
        i ≤ (Codec.decode markup).length ∧
        (size.height ≤ point.y → i = (Codec.decode markup).length) := by
  obtain ⟨font, hfont⟩ := (Registry.contains_iff p.fonts p.defaultFont).1 h
  have hlayout : (Job.mk p .zero width).layout markup =
      .ok ((Job.mk p .zero width).layoutWith font (Codec.decode markup)) :=
    Job.layout_eq hfont markup
  have hnumbered := numbered_layout ⟨p, .zero, width⟩ font (Codec.decode markup)
  obtain ⟨size, hsize, -, -, hglyphs⟩ := measureWrapped_eq hlayout
  refine ⟨_, _, size, layout_eq hfont markup .zero width, hsize, ?_, ?_⟩
  · intro i
    refine ⟨_, locateWrapped_eq hlayout i, ?_, ?_⟩
    · rw [Query.state_locate, Option.isSome_map]
      exact Query.isSome_find?_iff hnumbered i
    · rw [Query.state_locate, List.filterMap_flatMap]
      rfl
  · intro point
    refine ⟨_, hitTestWrapped_eq hlayout point, ?_, ?_⟩
    · exact Query.index_le (Nat.zero_le _) fun g hg => hnumbered.next_le hg
    · intro hbelow
      obtain ⟨last, hlast, hend, htotal⟩ := hnumbered.last
      rw [Query.index_below ?_ hlast]
      · simp [Glyph.next, hend, htotal]
      · intro g hg
        exact Int.le_trans (hglyphs g hg).2 hbelow

/-- A letter, a space and a line feed: the fourth position is that of the end, behind which
    nothing is located. -/
theorem queries_agree_letters :
    ∃ (items : List Item) (regions : List Region) (size : Size),
      boxes.fonts.contains boxes.defaultFont = true ∧
      boxes.layout [0x61, 0x20, 0x0A] .zero 20 none = .ok (items, regions) ∧
      boxes.measureWrapped [0x61, 0x20, 0x0A] 20 = .ok size ∧
      (∃ cell, boxes.locateWrapped [0x61, 0x20, 0x0A] 20 3 = .ok cell ∧ cell.isSome = true) ∧
      (∃ cell, boxes.locateWrapped [0x61, 0x20, 0x0A] 20 4 = .ok cell ∧ cell.isSome = false) ∧
      boxes.hitTestWrapped [0x61, 0x20, 0x0A] 20 ⟨0, size.height⟩ = .ok 3 := by
  have hfont : boxes.fonts.contains boxes.defaultFont = true := rfl
  have hlength : (Codec.decode [0x61, 0x20, 0x0A]).length = 3 := by decide
  obtain ⟨items, regions, size, hlayout, hsize, hlocate, hhit⟩ :=
    queries_agree hfont [0x61, 0x20, 0x0A] 20
  rw [hlength] at hlocate hhit
  refine ⟨items, regions, size, hfont, hlayout, hsize, ?_, ?_, ?_⟩
  · obtain ⟨cell, hcell, hsome, -⟩ := hlocate 3
    exact ⟨cell, hcell, hsome.2 (Nat.le_refl 3)⟩
  · obtain ⟨cell, hcell, hsome, -⟩ := hlocate 4
    refine ⟨cell, hcell, ?_⟩
    rw [Bool.eq_false_iff, Ne, hsome]
    decide
  · obtain ⟨i, hi, -, hbelow⟩ := hhit ⟨0, size.height⟩
    rw [hi, hbelow (Int.le_refl size.height)]

/-- **A point farther to the right hits no earlier position.**  Any two points at one height
    find, in any markup that is wrapped at any width, positions in the order of the points, or
    neither finds one, for want of the default font. This holds although the two searches
    stop at different glyphs, and wherever these stand. -/
theorem hit_test_monotone (p : Printer) (markup : List UInt8) (width : Int) {x x' : Int}
    (hx : x ≤ x') (y : Int) :
    (p.fonts.contains p.defaultFont = true ∧
      ∃ i j, p.hitTestWrapped markup width ⟨x, y⟩ = .ok i ∧
        p.hitTestWrapped markup width ⟨x', y⟩ = .ok j ∧ i ≤ j) ∨
    (p.fonts.contains p.defaultFont = false ∧
      p.hitTestWrapped markup width ⟨x, y⟩ = .error (.missingDefaultFont p.defaultFont) ∧
      p.hitTestWrapped markup width ⟨x', y⟩ = .error (.missingDefaultFont p.defaultFont)) := by
  cases hfont : p.fonts.get? p.defaultFont with
  | none =>
    right
    have hnone : p.fonts.contains p.defaultFont = false := by
      simp [Registry.contains, hfont]
    have hlayout : (Job.mk p .zero width).layout markup =
        .error (.missingDefaultFont p.defaultFont) := by
      simp only [Job.layout, hfont]
    refine ⟨hnone, ?_, ?_⟩
    · simp only [hitTestWrapped, query, hlayout, Except.map]
    · simp only [hitTestWrapped, query, hlayout, Except.map]
  | some font =>
    left
    have hlayout : (Job.mk p .zero width).layout markup =
        .ok ((Job.mk p .zero width).layoutWith font (Codec.decode markup)) :=
      Job.layout_eq hfont markup
    have hnumbered := numbered_layout ⟨p, .zero, width⟩ font (Codec.decode markup)
    refine ⟨(Registry.contains_iff p.fonts p.defaultFont).2 ⟨font, hfont⟩, _, _,
      hitTestWrapped_eq hlayout _, hitTestWrapped_eq hlayout _, ?_⟩
    exact Query.index_mono hx y hnumbered.increasing

/-- A combining mark stands on the letter before it; the point on the left stops at the
    letter, the other one behind both. -/
theorem hit_test_monotone_combining :
    (3 : Int) ≤ 14 ∧ ∃ i j, boxes.hitTestWrapped [0x61, 0xCC, 0x81, 0x62] 0 ⟨3, 5⟩ = .ok i ∧
      boxes.hitTestWrapped [0x61, 0xCC, 0x81, 0x62] 0 ⟨14, 5⟩ = .ok j ∧ i ≤ j := by
  have hx : (3 : Int) ≤ 14 := by decide
  refine ⟨hx, ?_⟩
  rcases hit_test_monotone boxes [0x61, 0xCC, 0x81, 0x62] 0 hx 5 with ⟨-, h⟩ | ⟨h, -⟩
  · exact h
  · cases h

end Printer

end RichText
