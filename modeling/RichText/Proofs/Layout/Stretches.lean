/-
  RichText/Proofs/Layout/Stretches.lean
  =====================================
  **The span that is kept for a region.**

  A region is known by the positions of the tokens that start and end it, and by the number of
  the line that is being filled when it ends (`Job.stretches`).  At any time the span that a
  layout keeps for it follows from these and from what has been reported (`Stretch.span?`):
  a region whose glyphs are still on the line lies among them, and one that has begun on an
  earlier line is kept up to the line on which it ends.  A commit keeps account of this
  (`Stretch.span?_commit`), and reports a part of each region that is shown on the line
  (`Stretch.region?_span?`).
-/
import RichText.Proofs.Layout.Decorated
import RichText.Proofs.Layout.Events

namespace RichText

/-! ### Regions of a text -/

/-- Where a region ends: at a position, while the line of a number is being filled. -/
structure Ending where
  index : Nat
  line : Nat
deriving DecidableEq, Repr

/-- A region of a text, between the position where it starts and the one where it ends. -/
structure Stretch where
  id : Nat
  start : Nat
  ending : Option Ending
deriving DecidableEq, Repr

/-- The position is behind the start of the region, and before its end. -/
def Stretch.Covers (r : Stretch) (i : Nat) : Prop := r.start < i ∧ ∀ e ∈ r.ending, i < e.index

instance (r : Stretch) (i : Nat) : Decidable (r.Covers i) := inferInstanceAs (Decidable (_ ∧ _))

/-- Ends the region that was started last of those that have the id and have not ended. -/
def Stretch.endLast (id : Nat) (e : Ending) : List Stretch → List Stretch
  | [] => []
  | r :: rest =>
    if r.ending.isNone && r.id == id then { r with ending := some e } :: rest
    else r :: endLast id e rest

/-- What a token that is taken while the line of a number is being filled makes of the
    regions. -/
def Lexeme.stretches (l : Lexeme) (line : Nat) (rs : List Stretch) : List Stretch :=
  match l.token with
  | .instruction (.setting (.startRegion id)) => ⟨id.val, l.index, none⟩ :: rs
  | .instruction (.setting (.endRegion id)) => Stretch.endLast id.val ⟨l.index, line⟩ rs
  | _ => rs

/-- The regions after tokens that are taken from a state on, the one started last at the
    head. -/
def LayoutState.stretches (job : Job) : LayoutState → List Stretch → List Lexeme → List Stretch
  | _, rs, [] => rs
  | s, rs, l :: ls => stretches job (s.step job l) (l.stretches s.lines.size rs) ls

/-- The regions of a text, in the order in which they are started. -/
def Job.stretches (job : Job) (font : Font) (cs : List Nat) : List Stretch :=
  ((LayoutState.initial job font).stretches job [] (lexemes cs)).reverse

theorem LayoutState.stretches_append (job : Job) (s : LayoutState) (rs : List Stretch)
    (ks ls : List Lexeme) :
    s.stretches job rs (ks ++ ls) = (s.run job ks).stretches job (s.stretches job rs ks) ls := by
  induction ks generalizing s rs with
  | nil => rfl
  | cons k ks ih => exact ih (s.step job k) (k.stretches s.lines.size rs)

/-! ### Glyphs on the lines of a layout -/

/-- The glyphs of a line, without the end of a text that is reported behind a wrapped line. -/
def Line.placed (l : Line) : List Glyph := l.events.filter fun g => !(g.lineEnd && g.wrapped)

/-- The glyphs on the line of a number. -/
def placedOn (lines : List Line) (j : Nat) : List Glyph := (lines[j]?).elim [] Line.placed

theorem placedOn_append {lines more : List Line} {j : Nat} (hj : j < lines.length) :
    placedOn (lines ++ more) j = placedOn lines j := by
  rw [placedOn, placedOn, List.getElem?_append_left hj]

theorem mem_events_of_placedOn {lines : List Line} {j : Nat} {g : Glyph}
    (h : g ∈ placedOn lines j) : ∃ l, lines[j]? = some l ∧ g ∈ l.events := by
  rw [placedOn] at h
  cases hl : lines[j]? with
  | none =>
    rw [hl] at h
    cases h
  | some l =>
    rw [hl] at h
    exact ⟨l, rfl, List.mem_of_mem_filter h⟩

namespace Stretch

/-- The line of a number has a part of the region: it holds a glyph behind the start, and is the
    first one that does, or has a glyph of the region, or is being filled when that ends. -/
def ShownOn (lines : List Line) (r : Stretch) (j : Nat) : Prop :=
  (∃ g ∈ placedOn lines j, r.start < g.index) ∧
    ((∀ i < j, ∀ g ∈ placedOn lines i, g.index ≤ r.start) ∨
      (∃ g ∈ placedOn lines j, r.Covers g.index) ∨ ∃ e ∈ r.ending, e.line = j)

instance (lines : List Line) (r : Stretch) (j : Nat) : Decidable (r.ShownOn lines j) :=
  inferInstanceAs (Decidable (_ ∧ _))

theorem shownOn_append {lines more : List Line} {j : Nat} (hj : j < lines.length) (r : Stretch) :
    r.ShownOn (lines ++ more) j ↔ r.ShownOn lines j := by
  have hfirst : (∀ i < j, ∀ g ∈ placedOn (lines ++ more) i, g.index ≤ r.start) ↔
      ∀ i < j, ∀ g ∈ placedOn lines i, g.index ≤ r.start := by
    refine forall₂_congr fun i hi => ?_
    rw [placedOn_append (Nat.lt_trans hi hj)]
  rw [ShownOn, ShownOn, placedOn_append hj, hfirst]

end Stretch

/-! ### Positions in increasing order -/

section Increasing

variable {is : List Nat}

theorem countP_lt_eq_zero {x : Nat} (h : ∀ i ∈ is, x ≤ i) : is.countP (· < x) = 0 := by
  rw [List.countP_eq_zero]
  intro i hi
  simpa using h i hi

/-- Of increasing numbers those that are small are dropped first. -/
theorem countP_drop_of_pairwise (h : is.Pairwise (· < ·)) (k x : Nat) :
    (is.drop k).countP (· < x) = is.countP (· < x) - k := by
  induction is generalizing k with
  | nil => simp
  | cons i is ih =>
    obtain ⟨hfirst, hrest⟩ := List.pairwise_cons.1 h
    cases k with
    | zero => rfl
    | succ k =>
      rw [List.drop_succ_cons, ih hrest]
      by_cases hi : i < x
      · rw [List.countP_cons_of_pos (by simpa using hi)]
        omega
      · have hnone : is.countP (· < x) = 0 := by
          apply countP_lt_eq_zero
          intro j hj
          exact Nat.le_trans (Nat.not_lt.1 hi) (Nat.le_of_lt (hfirst j hj))
        rw [List.countP_cons_of_neg (by simpa using hi), hnone]
        omega

/-- Among the first of increasing numbers there is a large one if there are few small ones. -/
theorem exists_le_take_iff (h : is.Pairwise (· < ·)) {k : Nat} (hk : k ≤ is.length) (x : Nat) :
    (∃ i ∈ is.take k, x ≤ i) ↔ is.countP (· < x) < k := by
  induction is generalizing k with
  | nil =>
    obtain rfl : k = 0 := Nat.le_zero.1 hk
    simp
  | cons i is ih =>
    obtain ⟨hfirst, hrest⟩ := List.pairwise_cons.1 h
    cases k with
    | zero => simp
    | succ k =>
      have hih := ih hrest (Nat.le_of_succ_le_succ hk)
      rw [List.take_succ_cons]
      by_cases hi : i < x
      · rw [List.countP_cons_of_pos (by simpa using hi), Nat.succ_lt_succ_iff, ← hih]
        simp [Nat.not_le.2 hi]
      · have hnone : is.countP (· < x) = 0 := by
          apply countP_lt_eq_zero
          intro j hj
          exact Nat.le_trans (Nat.not_lt.1 hi) (Nat.le_of_lt (hfirst j hj))
        rw [List.countP_cons_of_neg (by simpa using hi), hnone]
        exact iff_of_true ⟨i, List.mem_cons_self, Nat.not_lt.1 hi⟩ (Nat.succ_pos k)

/-- If there is any small one of increasing numbers, the first one is. -/
theorem exists_lt_take_iff (h : is.Pairwise (· < ·)) {k : Nat} (hk : 0 < k) (x : Nat) :
    (∃ i ∈ is.take k, i < x) ↔ 0 < is.countP (· < x) := by
  rw [List.countP_pos_iff]
  constructor
  · rintro ⟨i, hi, hx⟩
    exact ⟨i, List.mem_of_mem_take hi, by simpa using hx⟩
  · rintro ⟨i, hi, hx⟩
    have hx : i < x := by simpa using hx
    cases is with
    | nil => cases hi
    | cons j is =>
      obtain ⟨k, rfl⟩ := Nat.exists_eq_succ_of_ne_zero (Nat.ne_of_gt hk)
      refine ⟨j, List.mem_cons_self, ?_⟩
      rcases List.mem_cons.1 hi with rfl | hi
      · exact hx
      · exact Nat.lt_trans ((List.pairwise_cons.1 h).1 i hi) hx

end Increasing

theorem map_filter_eq_filterMap {α β : Type} (p : α → Prop) [DecidablePred p] (f : α → β)
    (as : List α) :
    (as.filter p).map f = as.filterMap fun a => if p a then some (f a) else none := by
  induction as with
  | nil => rfl
  | cons a as ih =>
    by_cases ha : p a
    · rw [List.filter_cons_of_pos (by simpa using ha), List.map_cons, ih]
      simp only [List.filterMap_cons, if_pos ha]
    · rw [List.filter_cons_of_neg (by simpa using ha), ih]
      simp only [List.filterMap_cons, if_neg ha]

namespace LayoutState

variable {job : Job} {font : Font} {s t : LayoutState} {content : Nat} {reason : LineEnd}

/-! ### Positions of marks -/

/-- The positions of the glyphs that have been reported. -/
def reported (s : LayoutState) : List Nat := (events s.lines.toList).map (·.index)

/-- The positions of the marks that wait for their line. -/
def waiting (s : LayoutState) : List Nat := s.marks.toList.map (·.index)

/-- How many of these are before a position. -/
def before (s : LayoutState) (i : Nat) : Nat := s.waiting.countP (· < i)

theorem mem_reported {j : Nat} {g : Glyph} (h : g ∈ placedOn s.lines.toList j) :
    g.index ∈ s.reported := by
  obtain ⟨l, hl, hg⟩ := mem_events_of_placedOn h
  exact List.mem_map_of_mem (List.mem_flatMap_of_mem (List.mem_of_getElem? hl) hg)

theorem reported_congr (h : t.lines = s.lines) : t.reported = s.reported := by
  unfold reported
  rw [h]

theorem waiting_congr (h : t.marks = s.marks) : t.waiting = s.waiting := by
  unfold waiting
  rw [h]

theorem length_waiting (s : LayoutState) : s.waiting.length = s.marks.size := by
  rw [waiting, List.length_map, Array.length_toList]

theorem before_of_forall_lt {i : Nat} (h : ∀ k ∈ s.waiting, k < i) :
    s.before i = s.marks.size := by
  rw [← length_waiting, before, List.countP_eq_length]
  intro k hk
  simpa using h k hk

theorem waiting_pushMark (job : Job) (s : LayoutState) (code : Nat) (kind : MarkKind)
    (advance : Int) (index : Nat) :
    (s.pushMark job code kind advance index).waiting = s.waiting ++ [index] := by
  rw [waiting, toList_pushMark, List.map_append]
  rfl

theorem before_pushMark (job : Job) (s : LayoutState) (code : Nat) (kind : MarkKind)
    (advance : Int) {index i : Nat} (hi : i ≤ index) :
    (s.pushMark job code kind advance index).before i = s.before i := by
  have hnot : ¬ index < i := Nat.not_lt.2 hi
  rw [before, waiting_pushMark, List.countP_append, List.countP_singleton, before]
  simp [hnot]

theorem waiting_commit (job : Job) (s : LayoutState) (content : Nat) (reason : LineEnd) :
    (s.commit job content reason).waiting = s.waiting.drop (s.cut content reason) := by
  obtain ⟨⟨dx, hmarks⟩, -⟩ := commit_frame job s content reason
  rw [waiting, hmarks, Mark.map_shift (f := Mark.index) fun _ _ => rfl, waiting, List.map_drop]

/-- On the line that is set the glyphs have the positions of its marks. -/
theorem indices_setLine (job : Job) (s : LayoutState) (content cut : Nat) (reason : LineEnd) :
    ((s.setLine job content cut reason).line s job.printer.images).events.map (·.index) =
      s.waiting.take cut := by
  have hglyph : ∀ (l : SetLine) (wrapped : Bool) (ms : List Mark),
      (ms.map (l.glyph wrapped)).map (·.index) = ms.map (·.index) := by
    intro l wrapped ms
    rw [List.map_map]
    rfl
  rw [SetLine.events_line, List.map_append, hglyph, hglyph, ← List.map_append,
    List.take_append_drop, map_setLine (f := Mark.index) fun _ _ => rfl, waiting, List.map_take]

theorem length_marks_setLine (job : Job) (s : LayoutState) (content : Nat) {cut : Nat}
    (hcut : cut ≤ s.marks.size) (reason : LineEnd) :
    (s.setLine job content cut reason).marks.length = cut := by
  have hlength := congrArg List.length
    (map_setLine (f := Mark.index) (fun _ _ => rfl) job s content cut reason)
  rwa [List.length_map, List.length_map, List.length_take, Array.length_toList,
    Nat.min_eq_left hcut] at hlength

theorem reported_commit (job : Job) (s : LayoutState) (content : Nat) (reason : LineEnd) :
    (s.commit job content reason).reported =
      s.reported ++ s.waiting.take (s.cut content reason) := by
  obtain ⟨-, hlines, -⟩ := commit_frame job s content reason
  rw [reported, hlines, Array.toList_push, events, List.flatMap_append, List.flatMap_singleton,
    List.map_append, indices_setLine]
  rfl

end LayoutState

/-! ### The span of a region -/

namespace Stretch

variable {job : Job} {s t : LayoutState} {r : Stretch} {content : Nat} {reason : LineEnd} {n : Nat}

/-- A glyph behind the start of the region has been reported. -/
def Begun (s : LayoutState) (r : Stretch) : Prop := ∃ i ∈ s.reported, r.start < i

instance (s : LayoutState) (r : Stretch) : Decidable (r.Begun s) :=
  inferInstanceAs (Decidable (∃ i ∈ s.reported, r.start < i))

/-- The span that is kept for a region. Once the region has begun on a line it goes on there,
    up to the line that is being filled when it ends, and farther while glyphs of it wait. -/
def span? (s : LayoutState) (r : Stretch) : Option (Span Nat) :=
  if r.Begun s then
    if ∀ e ∈ r.ending, e.line = s.lines.size ∨ 0 < s.before e.index then
      some ⟨.continued, r.ending.map (s.before ·.index), r.id⟩
    else none
  else some ⟨.glyph (s.before (r.start + 1)), r.ending.map (s.before ·.index), r.id⟩

theorem span?_of_not_begun (h : ¬ r.Begun s) :
    r.span? s =
      some ⟨.glyph (s.before (r.start + 1)), r.ending.map (s.before ·.index), r.id⟩ := if_neg h

theorem span?_of_begun (h : r.Begun s) :
    r.span? s =
      if ∀ e ∈ r.ending, e.line = s.lines.size ∨ 0 < s.before e.index then
        some ⟨.continued, r.ending.map (s.before ·.index), r.id⟩
      else none := if_pos h

/-- The span depends on what has been reported, and on the marks before the start and the
    end. -/
theorem span?_congr (hreported : t.reported = s.reported) (hsize : t.lines.size = s.lines.size)
    (hstart : t.before (r.start + 1) = s.before (r.start + 1))
    (hending : ∀ e ∈ r.ending, t.before e.index = s.before e.index) : r.span? t = r.span? s := by
  have hmap : r.ending.map (t.before ·.index) = r.ending.map (s.before ·.index) :=
    Option.map_congr hending
  have hbegun : r.Begun t ↔ r.Begun s := by rw [Begun, Begun, hreported]
  by_cases hs : r.Begun s
  · have hkept : (∀ e ∈ r.ending, e.line = t.lines.size ∨ 0 < t.before e.index) ↔
        ∀ e ∈ r.ending, e.line = s.lines.size ∨ 0 < s.before e.index := by
      refine forall₂_congr fun e he => ?_
      rw [hsize, hending e he]
    rw [span?_of_begun hs, span?_of_begun (hbegun.2 hs), hmap, if_congr hkept rfl rfl]
  · rw [span?_of_not_begun hs, span?_of_not_begun (mt hbegun.1 hs), hmap, hstart]

/-- The positions of the region are before a position, and it does not end on a later line. -/
structure Within (n : Nat) (s : LayoutState) (r : Stretch) : Prop where
  start : r.start < n
  ending : ∀ e ∈ r.ending, e.index < n ∧ e.line ≤ s.lines.size

theorem span?_pushMark (h : r.Within n s) (job : Job) (code : Nat) (kind : MarkKind)
    (advance : Int) {index : Nat} (hindex : n ≤ index) :
    r.span? (s.pushMark job code kind advance index) = r.span? s := by
  have hlines := (LayoutState.pushMark_frame job s code kind advance index).1
  refine span?_congr (LayoutState.reported_congr hlines) (congrArg Array.size hlines) ?_ ?_
  · exact LayoutState.before_pushMark job s code kind advance (Nat.le_trans h.start hindex)
  · intro e he
    have hlt := (h.ending e he).1
    exact LayoutState.before_pushMark job s code kind advance (by omega)

/-! ### The span of a region over a commit -/

/-- Positions increase, from those of the glyphs reported to those of the marks that wait. -/
def Increasing (s : LayoutState) : Prop := (s.reported ++ s.waiting).Pairwise (· < ·)

theorem before_commit (h : Increasing s) (job : Job) (content : Nat) (reason : LineEnd) (i : Nat) :
    (s.commit job content reason).before i = s.before i - s.cut content reason := by
  rw [LayoutState.before, LayoutState.waiting_commit]
  exact countP_drop_of_pairwise (List.pairwise_append.1 h).2.1 _ i

theorem size_lines_commit (job : Job) (s : LayoutState) (content : Nat) (reason : LineEnd) :
    (s.commit job content reason).lines.size = s.lines.size + 1 := by
  obtain ⟨-, hlines, -⟩ := LayoutState.commit_frame job s content reason
  rw [hlines, Array.size_push]

/-- With the line the regions begin that start before the last of its glyphs. -/
theorem begun_commit (h : Increasing s) (job : Job) (hc : content ≤ s.marks.size)
    (reason : LineEnd) (r : Stretch) :
    r.Begun (s.commit job content reason) ↔
      r.Begun s ∨ s.before (r.start + 1) < s.cut content reason := by
  have hcut : s.cut content reason ≤ s.waiting.length := by
    rw [LayoutState.length_waiting]
    exact LayoutState.cut_le hc reason
  have hwaiting := exists_le_take_iff (List.pairwise_append.1 h).2.1 hcut (r.start + 1)
  rw [LayoutState.before, ← hwaiting, Begun, LayoutState.reported_commit, Begun]
  constructor
  · rintro ⟨i, hi, hstart⟩
    rcases List.mem_append.1 hi with hi | hi
    · exact Or.inl ⟨i, hi, hstart⟩
    · exact Or.inr ⟨i, hi, hstart⟩
  · rintro (⟨i, hi, hstart⟩ | ⟨i, hi, hstart⟩)
    · exact ⟨i, List.mem_append_left _ hi, hstart⟩
    · exact ⟨i, List.mem_append_right _ hi, hstart⟩

/-- What is left on the next line of a span that stops at positions of the region. -/
theorem span?_commit_of_begun (h : Increasing s) (hr : r.Within n s) (job : Job)
    (ht : r.Begun (s.commit job content reason)) (start : SpanStart) :
    r.span? (s.commit job content reason) =
      Span.carry.past (s.cut content reason) ⟨start, r.ending.map (s.before ·.index), r.id⟩ := by
  rw [span?_of_begun ht, size_lines_commit]
  simp only [before_commit h]
  cases hend : r.ending with
  | none => rfl
  | some e =>
    have hline := (hr.ending e hend).2
    simp only [Span.carry.past, Option.map_some, Option.any_some, Option.mem_def, Option.some.injEq,
      forall_eq', decide_eq_true_eq]
    by_cases hstop : s.before e.index ≤ s.cut content reason
    · rw [if_neg (by omega), if_pos hstop]
    · rw [if_pos (by omega), if_neg hstop]

/-- The span of a region is carried over the cut. -/
theorem span?_commit (h : Increasing s) (hr : r.Within n s) (job : Job)
    (hc : content ≤ s.marks.size) (reason : LineEnd) :
    r.span? (s.commit job content reason) =
      (r.span? s).bind (Span.carry (s.cut content reason)) := by
  have hbegun := begun_commit h job hc reason r
  by_cases hs : r.Begun s
  · rw [span?_of_begun hs, span?_commit_of_begun h hr job (hbegun.2 (Or.inl hs)) .continued]
    split
    · rfl
    · next hdropped =>
      -- The region is not kept if it ended on an earlier line and none of its marks waits.
      cases hend : r.ending with
      | none => simp [hend] at hdropped
      | some e =>
        simp only [hend, Option.mem_def, Option.some.injEq, forall_eq', not_or] at hdropped
        have hzero : s.before e.index ≤ s.cut content reason := by omega
        simp [Span.carry.past, hzero]
  · rw [span?_of_not_begun hs, Option.bind_some]
    by_cases hstart : s.before (r.start + 1) < s.cut content reason
    · rw [span?_commit_of_begun h hr job (hbegun.2 (Or.inr hstart)) (.glyph _), Span.carry]
      exact (if_neg (Nat.not_le.2 hstart)).symm
    · have hnot : ¬ r.Begun (s.commit job content reason) := by
        rw [hbegun]
        exact not_or.2 ⟨hs, hstart⟩
      rw [span?_of_not_begun hnot, Span.carry]
      refine Eq.trans ?_ (if_pos (Nat.not_lt.1 hstart)).symm
      simp only [before_commit h, Option.map_map]
      rfl

/-! ### Parts of regions on a line -/

theorem map_id_region?_continued (l : SetLine) (stop : Option Nat) (id : Nat) :
    (l.region? ⟨.continued, stop, id⟩).map Region.id = some id := rfl

theorem map_id_region?_glyph (l : SetLine) (i : Nat) (stop : Option Nat) (id : Nat) :
    (l.region? ⟨.glyph i, stop, id⟩).map Region.id =
      if i < l.marks.length then some id else none := by
  by_cases hi : i < l.marks.length
  · rw [if_pos hi]
    simp only [SetLine.region?, if_neg (Nat.not_le.2 hi)]
    split <;> rfl
  · rw [if_neg hi]
    simp only [SetLine.region?, if_pos (Nat.not_lt.1 hi)]
    rfl

/-- On the lines so far nothing is reported but what stands there. -/
def AllPlaced (s : LayoutState) : Prop := ∀ l ∈ s.lines.toList, l.placed = l.events

theorem begun_iff_placedOn (h : AllPlaced s) :
    r.Begun s ↔ ∃ j < s.lines.toList.length, ∃ g ∈ placedOn s.lines.toList j, r.start < g.index := by
  constructor
  · rintro ⟨i, hi, hstart⟩
    obtain ⟨g, hg, rfl⟩ := List.mem_map.1 hi
    obtain ⟨l, hl, hg⟩ := List.mem_flatMap.1 hg
    obtain ⟨j, hj, hlj⟩ := List.mem_iff_getElem.1 hl
    refine ⟨j, hj, g, ?_, hstart⟩
    rw [placedOn, List.getElem?_eq_getElem hj, hlj, Option.elim_some, h l hl]
    exact hg
  · rintro ⟨j, -, g, hg, hstart⟩
    exact ⟨g.index, LayoutState.mem_reported hg, hstart⟩

section Commit

variable {l : Line} (h : Increasing s) (hlines : AllPlaced s)
  (hplaced : l.placed = l.events) {cut : Nat}
  (hindices : l.events.map (·.index) = s.waiting.take cut)
include hplaced hindices

/-- The positions on the line that is committed are those of its marks. -/
theorem exists_placedOn_commit (p : Nat → Prop) :
    (∃ g ∈ placedOn (s.lines.toList ++ [l]) s.lines.size, p g.index) ↔
      ∃ i ∈ s.waiting.take cut, p i := by
  have hline : placedOn (s.lines.toList ++ [l]) s.lines.size = l.events := by
    rw [placedOn, ← Array.length_toList, List.getElem?_concat_length, Option.elim_some, hplaced]
  rw [hline, ← hindices]
  constructor
  · rintro ⟨g, hg, hp⟩
    exact ⟨g.index, List.mem_map_of_mem hg, hp⟩
  · rintro ⟨i, hi, hp⟩
    obtain ⟨g, hg, rfl⟩ := List.mem_map.1 hi
    exact ⟨g, hg, hp⟩

include h hlines

/-- The line that is committed has a part of a region if that has not begun and its start is
    before the last mark of the line, or if it has begun and a span is kept for it. -/
theorem shownOn_commit (hpos : 0 < cut) (hcut : cut ≤ s.marks.size) :
    r.ShownOn (s.lines.toList ++ [l]) s.lines.size ↔
      if r.Begun s then ∀ e ∈ r.ending, e.line = s.lines.size ∨ 0 < s.before e.index
      else s.before (r.start + 1) < cut := by
  have hwaiting := (List.pairwise_append.1 h).2.1
  have hbehind : (∃ g ∈ placedOn (s.lines.toList ++ [l]) s.lines.size, r.start < g.index) ↔
      s.before (r.start + 1) < cut := by
    rw [exists_placedOn_commit hplaced hindices (r.start < ·)]
    exact exists_le_take_iff hwaiting (s.length_waiting ▸ hcut) (r.start + 1)
  have hfirst : (∀ i < s.lines.size, ∀ g ∈ placedOn (s.lines.toList ++ [l]) i,
      g.index ≤ r.start) ↔ ¬ r.Begun s := by
    rw [begun_iff_placedOn hlines, Array.length_toList]
    simp only [not_exists, not_and, Nat.not_lt]
    refine forall₂_congr fun i hi => ?_
    rw [placedOn_append (by rwa [Array.length_toList])]
  rw [ShownOn, hbehind, hfirst]
  by_cases hs : r.Begun s
  · rw [if_pos hs]
    -- All marks are behind the start.
    have hall : ∀ i ∈ s.waiting, r.start < i := by
      obtain ⟨k, hk, hstart⟩ := hs
      intro i hi
      exact Nat.lt_trans hstart ((List.pairwise_append.1 h).2.2 k hk i hi)
    have hzero : s.before (r.start + 1) = 0 := countP_lt_eq_zero hall
    have hcovers : (∃ g ∈ placedOn (s.lines.toList ++ [l]) s.lines.size, r.Covers g.index) ↔
        ∀ e ∈ r.ending, 0 < s.before e.index := by
      rw [exists_placedOn_commit hplaced hindices r.Covers]
      cases hend : r.ending with
      | none =>
        have hsome : (s.waiting.take cut) ≠ [] := by
          intro hnil
          have hlength := congrArg List.length hnil
          rw [List.length_take, s.length_waiting, List.length_nil] at hlength
          omega
        obtain ⟨i, hi⟩ := List.exists_mem_of_ne_nil _ hsome
        refine iff_of_true ⟨i, hi, hall i (List.mem_of_mem_take hi), ?_⟩ ?_
        · rw [hend]
          intro e he
          cases he
        · intro e he
          cases he
      | some e =>
        simp only [Covers, hend, Option.mem_def, Option.some.injEq, forall_eq']
        rw [LayoutState.before, ← exists_lt_take_iff hwaiting hpos]
        constructor
        · rintro ⟨i, hi, -, hlt⟩
          exact ⟨i, hi, hlt⟩
        · rintro ⟨i, hi, hlt⟩
          exact ⟨i, hi, hall i (List.mem_of_mem_take hi), hlt⟩
    rw [hcovers, hzero]
    cases hend : r.ending with
    | none => simp [hs, hpos]
    | some e => simp [hs, hpos, or_comm]
  · rw [if_neg hs]
    exact ⟨fun hshown => hshown.1, fun hstart => ⟨hstart, Or.inl hs⟩⟩

end Commit

/-- A part of a region is reported on the lines that have one. -/
theorem region?_span? (h : Increasing s) (hlines : AllPlaced s) {set : SetLine} {l : Line}
    (hplaced : l.placed = l.events)
    (hindices : l.events.map (·.index) = s.waiting.take set.marks.length)
    (hpos : 0 < set.marks.length) (hcut : set.marks.length ≤ s.marks.size) (r : Stretch) :
    ((r.span? s).bind set.region?).map Region.id =
      if r.ShownOn (s.lines.toList ++ [l]) s.lines.size then some r.id else none := by
  have hshown := shownOn_commit (r := r) h hlines hplaced hindices hpos hcut
  by_cases hs : r.Begun s
  · rw [if_pos hs] at hshown
    rw [span?_of_begun hs, if_congr hshown rfl rfl]
    split
    · rw [Option.bind_some, map_id_region?_continued]
    · rfl
  · rw [if_neg hs] at hshown
    rw [span?_of_not_begun hs, if_congr hshown rfl rfl, Option.bind_some, map_id_region?_glyph]

/-! ### Ending a region -/

variable {rs : List Stretch} {id : Nat} {e : Ending}

theorem mem_endLast (h : r ∈ endLast id e rs) :
    r ∈ rs ∨ ∃ q ∈ rs, q.ending = none ∧ r = { q with ending := some e } := by
  induction rs with
  | nil => cases h
  | cons q rs ih =>
    simp only [endLast] at h
    split at h
    · next hq =>
      rcases List.mem_cons.1 h with rfl | h
      · exact Or.inr ⟨q, List.mem_cons_self, by simp_all, rfl⟩
      · exact Or.inl (List.mem_cons_of_mem q h)
    · rcases List.mem_cons.1 h with rfl | h
      · exact Or.inl List.mem_cons_self
      · rcases ih h with h | ⟨k, hk, hopen, rfl⟩
        · exact Or.inl (List.mem_cons_of_mem q h)
        · exact Or.inr ⟨k, List.mem_cons_of_mem q hk, hopen, rfl⟩

/-- What holds of a region whether it has ended or not, holds of the same ones. -/
theorem map_id_filter_endLast {p : Stretch → Bool}
    (h : ∀ r ∈ rs, r.ending = none → p { r with ending := some e } = p r) :
    ((endLast id e rs).filter p).map (·.id) = (rs.filter p).map (·.id) := by
  induction rs with
  | nil => rfl
  | cons r rs ih =>
    have hrest := ih fun q hq => h q (List.mem_cons_of_mem r hq)
    simp only [endLast]
    split
    · next hr =>
      have hsame := h r List.mem_cons_self (by simp_all)
      simp only [List.filter_cons, hsame]
      split <;> rfl
    · simp only [List.filter_cons]
      split
      · rw [List.map_cons, List.map_cons, hrest]
      · exact hrest

/-- A span is open as long as its region has not ended, and stops where that ends. -/
theorem span?_of_open (h : r.ending = none) (i : Nat) :
    ∃ start, r.span? s = some ⟨start, none, r.id⟩ ∧
      { r with ending := some ⟨i, s.lines.size⟩ }.span? s =
        some ⟨start, some (s.before i), r.id⟩ := by
  by_cases hs : r.Begun s
  · have hended : { r with ending := some ⟨i, s.lines.size⟩ }.Begun s := hs
    refine ⟨.continued, ?_, ?_⟩
    · rw [span?_of_begun hs, h, if_pos fun _ he => nomatch he]
      rfl
    · rw [span?_of_begun hended, if_pos]
      · rfl
      · intro e he
        cases he
        exact Or.inl rfl
  · have hended : ¬ { r with ending := some ⟨i, s.lines.size⟩ }.Begun s := hs
    refine ⟨.glyph (s.before (r.start + 1)), ?_, ?_⟩
    · rw [span?_of_not_begun hs, h]
      rfl
    · rw [span?_of_not_begun hended]
      rfl

theorem isOpen_of_ended (h : r.ending = some e) {span : Span Nat} (hspan : r.span? s = some span) :
    span.isOpen = false := by
  by_cases hs : r.Begun s
  · rw [span?_of_begun hs, h] at hspan
    split at hspan
    · cases hspan
      rfl
    · cases hspan
  · rw [span?_of_not_begun hs, h] at hspan
    cases hspan
    rfl

/-- The span that is closed is that of the region that ends. -/
theorem closeFirst_span? {i : Nat} (hi : ∀ k ∈ s.waiting, k < i) :
    closeFirst (·.data == id) s.marks.size (rs.filterMap (·.span? s)) =
      (endLast id ⟨i, s.lines.size⟩ rs).filterMap (·.span? s) := by
  induction rs with
  | nil => rfl
  | cons r rs ih =>
    cases hend : r.ending with
    | none =>
      obtain ⟨start, hspan, hended⟩ := span?_of_open (s := s) hend i
      rw [LayoutState.before_of_forall_lt hi] at hended
      rw [List.filterMap_cons_some hspan, closeFirst]
      by_cases hid : r.id = id
      · have hlast : endLast id ⟨i, s.lines.size⟩ (r :: rs) =
            { r with ending := some ⟨i, s.lines.size⟩ } :: rs := by
          simp [endLast, hend, hid]
        rw [hlast, List.filterMap_cons_some hended]
        simp [Span.isOpen, hid, Span.close]
      · have hlast : endLast id ⟨i, s.lines.size⟩ (r :: rs) =
            r :: endLast id ⟨i, s.lines.size⟩ rs := by
          simp [endLast, hid]
        rw [hlast, List.filterMap_cons_some hspan, ← ih]
        simp [hid]
    | some e =>
      have hlast : endLast id ⟨i, s.lines.size⟩ (r :: rs) =
          r :: endLast id ⟨i, s.lines.size⟩ rs := by
        simp [endLast, hend]
      rw [hlast]
      cases hspan : r.span? s with
      | none => rw [List.filterMap_cons_none hspan, List.filterMap_cons_none hspan, ih]
      | some span =>
        rw [List.filterMap_cons_some hspan, List.filterMap_cons_some hspan, ← ih, closeFirst,
          isOpen_of_ended hend hspan]
        rfl

/-- On the lines so far a region is shown as before when it ends. -/
theorem shownOn_ended (h : r.ending = none) {i : Nat} (hi : ∀ k ∈ s.reported, k < i) {j : Nat}
    (hj : j < s.lines.size) :
    { r with ending := some ⟨i, s.lines.size⟩ }.ShownOn s.lines.toList j ↔
      r.ShownOn s.lines.toList j := by
  have hline : ¬ ∃ e ∈ some (Ending.mk i s.lines.size), e.line = j := by
    rintro ⟨e, he, rfl⟩
    cases he
    exact Nat.lt_irrefl _ hj
  have hcovers : (∃ g ∈ placedOn s.lines.toList j,
      { r with ending := some ⟨i, s.lines.size⟩ }.Covers g.index) ↔
        ∃ g ∈ placedOn s.lines.toList j, r.Covers g.index := by
    refine exists_congr fun g => and_congr_right fun hg => ?_
    have hlt : g.index < i := hi g.index (LayoutState.mem_reported hg)
    simp [Covers, h, hlt]
  rw [ShownOn, ShownOn, hcovers, h]
  simp only [hline]
  simp

end Stretch

end RichText
