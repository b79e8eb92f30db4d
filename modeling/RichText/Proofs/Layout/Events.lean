/-
  RichText/Proofs/Layout/Events.lean
  ==================================
  **No glyph is lost, reported twice or out of order.**

  Whatever was put on a line is reported with it or waits for the next one, in the
  order of the text: at any time the signs of the glyphs reported and of the marks that
  wait are those of the tokens taken (`Accounted`).  A commit moves signs from the
  second list to the first; every other move leaves both as they are or puts a mark at
  the end.  `Printer.glyph_events` draws from this what a traversal sees that never
  stops.
-/
import Mathlib.Data.List.Forall2
import RichText.Proofs.Markup.Lexemes
import RichText.Query

namespace RichText

/-! ### Glyphs of a line -/

def Item.glyph? : Item → Option Glyph
  | .glyph g => some g
  | _ => none

/-- The glyphs that are reported of a line. -/
def Line.events (l : Line) : List Glyph := l.items.filterMap Item.glyph?

def events (ls : List Line) : List Glyph := ls.flatMap Line.events

/-- A glyph as it is reported of a mark with a sign. -/
structure Reports (σ : Sign) (g : Glyph) : Prop where
  index : g.index = σ.index
  lineEnd : g.lineEnd = σ.lineEnd
  code : ∀ c, g.code = some c → c = σ.code ∧ σ.lineEnd = false
  wrapped : g.wrapped = true → Blank σ.code

namespace SetLine

variable {l : SetLine} {s : LayoutState}

private theorem filterMap_eq_nil_of_forall {items : List Item} (h : ∀ i ∈ items, i.glyph? = none) :
    items.filterMap Item.glyph? = [] := List.filterMap_eq_nil_iff.2 h

/-- A selection shows as an image, or as a box around its part of the line. -/
theorem selectionBox_cases {images : Registry Image} {span : Span Selection} {i : Item}
    (h : i ∈ l.selectionBox images span) :
    (∃ left, l.selectionLeft? span = some left ∧
      i = .box ((Rect.mk left l.top (l.spanRight span) l.bottom).inflate span.data.padding)
        span.data.background 0 .transparent) ∨
      ∃ index image bounds tint fit, i = .image index image bounds tint fit := by
  unfold selectionBox at h
  split at h
  · cases h
  · next left hleft =>
    dsimp only at h
    split at h
    · cases h
    · split at h
      · next index himage =>
        right
        cases hget : images.get? index with
        | none =>
          rw [hget] at h
          cases h
        | some image =>
          rw [hget] at h
          exact ⟨_, _, _, _, _, List.mem_singleton.1 h⟩
      · left
        exact ⟨left, hleft, List.mem_singleton.1 h⟩

/-- Behind the glyphs of a line there are boxes and images. -/
theorem boxes_cases {images : Registry Image} {i : Item} (h : i ∈ l.boxes s images) :
    (∃ bounds background border color, i = .box bounds background border color) ∨
      ∃ index image bounds tint fit, i = .image index image bounds tint fit := by
  rcases List.mem_append.1 h with h | h
  · left
    rcases List.mem_append.1 h with h | h
    · unfold background at h
      split at h
      · exact ⟨_, _, _, _, List.mem_singleton.1 h⟩
      · cases h
    · unfold cellBorders at h
      split at h
      · cases h
      · split at h
        · obtain ⟨c, -, rfl⟩ := List.mem_map.1 h
          exact ⟨_, _, _, _, rfl⟩
        · cases h
  · obtain ⟨span, -, hi⟩ := List.mem_flatMap.1 h
    rcases selectionBox_cases hi with ⟨left, -, rfl⟩ | himage
    · exact Or.inl ⟨_, _, _, _, rfl⟩
    · exact Or.inr himage

theorem no_glyph_boxes (images : Registry Image) (i : Item) (h : i ∈ l.boxes s images) :
    i.glyph? = none := by
  rcases boxes_cases h with ⟨_, _, _, _, rfl⟩ | ⟨_, _, _, _, _, rfl⟩
  · rfl
  · rfl

/-- A rule goes from a mark of the content to the right. -/
theorem rule?_eq_some {span : Span Rule} {i : Item} (h : l.rule? span = some i) :
    ∃ first mark, first < l.content ∧ l.marks[first]? = some mark ∧ mark.x < l.ruleRight span ∧
      i = .rule mark.x (l.ruleRight span) (l.top + l.baseline - mark.baseline + span.data.offset)
        span.data.thickness span.data.color := by
  unfold rule? at h
  obtain ⟨first, hfirst, h⟩ := Option.bind_eq_some_iff.1 h
  obtain ⟨mark, hmark, h⟩ := Option.bind_eq_some_iff.1 h
  obtain ⟨-, hcontent⟩ := Option.filter_eq_some_iff.1 hfirst
  dsimp only at h
  split at h
  · next hlt =>
    cases h
    exact ⟨first, mark, by simpa using hcontent, hmark, hlt, rfl⟩
  · cases h

theorem exists_of_mem_rules {i : Item} (h : i ∈ l.rules s) : ∃ span, l.rule? span = some i := by
  rcases List.mem_append.1 h with h | h
  · obtain ⟨span, -, hi⟩ := List.mem_filterMap.1 h
    exact ⟨span, hi⟩
  · obtain ⟨span, -, hi⟩ := List.mem_filterMap.1 h
    exact ⟨span, hi⟩

theorem no_glyph_rules (i : Item) (h : i ∈ l.rules s) : i.glyph? = none := by
  obtain ⟨span, hi⟩ := exists_of_mem_rules h
  obtain ⟨first, mark, -, -, -, rfl⟩ := rule?_eq_some hi
  rfl

/-- Among the glyphs of a line there are images. -/
theorem glyphs_cases {i : Item} (h : i ∈ l.glyphs) :
    (∃ g, i = .glyph g) ∨ ∃ index image bounds tint fit, i = .image index image bounds tint fit := by
  have hmark : ∀ (wrapped : Bool) (m : Mark), i ∈ l.markItems wrapped m →
      (∃ g, i = .glyph g) ∨
        ∃ index image bounds tint fit, i = .image index image bounds tint fit := by
    intro wrapped m hi
    unfold markItems at hi
    split at hi
    · rcases List.mem_cons.1 hi with hi | hi
      · exact Or.inr ⟨_, _, _, _, _, hi⟩
      · exact Or.inl ⟨_, List.mem_singleton.1 hi⟩
    · exact Or.inl ⟨_, List.mem_singleton.1 hi⟩
  rcases List.mem_append.1 h with h | h
  · obtain ⟨m, -, hi⟩ := List.mem_flatMap.1 h
    exact hmark false m hi
  · obtain ⟨m, -, hi⟩ := List.mem_flatMap.1 h
    exact hmark true m hi

private theorem filterMap_markItems (wrapped : Bool) (ms : List Mark) :
    (ms.flatMap (l.markItems wrapped)).filterMap Item.glyph? = ms.map (l.glyph wrapped) := by
  have hmark : ∀ m, (l.markItems wrapped m).filterMap Item.glyph? = [l.glyph wrapped m] := by
    intro m
    unfold markItems
    split <;> rfl
  rw [List.filterMap_flatMap, List.map_eq_flatMap]
  simp only [hmark]

/-- The glyphs of a line are its marks, the blanks that are left over after the content. -/
theorem events_line (l : SetLine) (s : LayoutState) (images : Registry Image) :
    (l.line s images).events =
      (l.marks.take l.content).map (l.glyph false) ++
        (l.marks.drop l.content).map (l.glyph true) := by
  have hboxes := filterMap_eq_nil_of_forall (no_glyph_boxes (l := l) (s := s) images)
  have hrules := filterMap_eq_nil_of_forall (no_glyph_rules (l := l) (s := s))
  unfold Line.events Line.items line glyphs
  rw [List.filterMap_append, List.filterMap_append, hboxes, hrules, List.nil_append,
    List.append_nil, List.filterMap_append, filterMap_markItems, filterMap_markItems]

/-- A mark is reported with its sign, as wrapped only if it is blank. -/
theorem reports_glyph (l : SetLine) (wrapped : Bool) (m : Mark)
    (h : wrapped = true → Blank m.code) : Reports m.sign (l.glyph wrapped m) where
  index := rfl
  lineEnd := rfl
  code := by
    intro c hc
    unfold glyph at hc
    cases hkind : m.kind with
    | glyph visible =>
      simp only [hkind] at hc
      split at hc
      · cases hc
        exact ⟨rfl, by unfold Mark.sign; rw [hkind]; rfl⟩
      · cases hc
    | image _ | placeholder | lineEnd | textEnd =>
      simp only [hkind] at hc
      cases hc
  wrapped := h

end SetLine

/-! ### What is told of marks -/

/-- Something that is told of marks wherever they stand, and of the glyphs that are reported
    of them. -/
structure Labels (α : Type) where
  label : Mark → α
  Told : α → Glyph → Prop
  shift : ∀ dx m, label (m.shift dx) = label m
  told : ∀ (l : SetLine) (wrapped : Bool) (m : Mark), (wrapped = true → Blank m.code) →
    Told (label m) (l.glyph wrapped m)

/-- The signs of marks. -/
def Labels.signs : Labels Sign := ⟨Mark.sign, Reports, fun _ _ => rfl, SetLine.reports_glyph⟩

section

variable {α : Type} {f : Mark → α} (hf : ∀ dx m, f (Mark.shift dx m) = f m)
include hf

namespace Mark

theorem map_shift (dx : Int) (ms : List Mark) : (ms.map (shift dx)).map f = ms.map f := by
  rw [List.map_map]
  exact List.map_congr_left fun m _ => hf dx m

private theorem map_zipWith_shift (ms : List Mark) (shifts : List Int)
    (h : ms.length = shifts.length) :
    (ms.zipWith (fun m dx => m.shift dx) shifts).map f = ms.map f := by
  induction ms generalizing shifts with
  | nil => rfl
  | cons m ms ih =>
    cases shifts with
    | nil => cases h
    | cons dx shifts =>
      rw [List.zipWith_cons_cons, List.map_cons, List.map_cons, ih shifts (Nat.succ.inj h), hf]

theorem map_justify (plan : Justification) (content : Nat) (ms : List Mark) :
    (justify plan content ms).map f = ms.map f := by
  have hlen : (ms.take content).length = (plan.shifts (codes (ms.take content))).length := by
    rw [Justification.length_shifts, codes, List.length_map]
  unfold justify
  rw [List.map_append, map_zipWith_shift hf _ _ hlen, ← List.map_append, List.take_append_drop]

theorem map_alignCell (t : Table) (c : Cell) (ms : List Mark) :
    (alignCell t c ms).map f = ms.map f := by
  unfold alignCell
  split
  · rfl
  · exact map_shift hf _ ms

theorem map_alignCells (t : Table) (cells : List Cell) (ms : List Mark) :
    (alignCells t cells ms).map f = ms.map f := by
  induction cells generalizing ms with
  | nil => rfl
  | cons c cells ih =>
    cases cells with
    | nil => exact map_alignCell hf t c ms
    | cons d rest =>
      rw [alignCells, List.map_append, map_alignCell hf, ih, ← List.map_append,
        List.take_append_drop]

end Mark

/-- Setting a line only moves its marks. -/
theorem LayoutState.map_setLine (job : Job) (s : LayoutState) (content cut : Nat)
    (reason : LineEnd) :
    (s.setLine job content cut reason).marks.map f = (s.marks.toList.take cut).map f := by
  have hjust : ∀ ms, (s.justified job content reason ms).map f = ms.map f := by
    intro ms
    unfold justified
    split
    · exact Mark.map_justify hf _ content ms
    · rfl
  unfold setLine
  cases s.table with
  | none => exact (Mark.map_shift hf _ _).trans (hjust _)
  | some t => exact (Mark.map_alignCells hf t _ _).trans (hjust _)

end

namespace LayoutState

variable {α : Type} {L : Labels α} {labels : List α} {job : Job} {s t : LayoutState}

/-- What a wrapped line takes after its content is blank. -/
theorem blank_of_mem_drop {content : Nat} {reason : LineEnd}
    (hr : reason = .wrap ∨ content = s.marks.size) {m : Mark}
    (h : m ∈ (s.marks.toList.take (s.cut content reason)).drop content) : m.isBlank = true := by
  rw [List.drop_take] at h
  cases reason with
  | wrap =>
    have hcut : s.cut content .wrap - content =
        ((s.marks.toList.drop content).takeWhile Mark.isBlank).length := Nat.add_sub_cancel_left ..
    have hprefix := List.prefix_iff_eq_take.1
      (List.takeWhile_prefix Mark.isBlank (l := s.marks.toList.drop content))
    rw [hcut, ← hprefix] at h
    exact List.all_eq_true.1 List.all_takeWhile m h
  | newline _ | row | text =>
    rcases hr with hr | rfl
    · cases hr
    · have hnone : s.marks.toList.drop s.marks.size = [] := by
        rw [← Array.length_toList, List.drop_length]
      rw [hnone, List.take_nil] at h
      cases h

private theorem isBlank_iff (m : Mark) : m.isBlank = true ↔ Blank m.code := by
  simp only [Mark.isBlank, Bool.or_eq_true, beq_iff_eq, Blank]

/-- A commit tells of the marks that it cuts off. -/
theorem told_commit (L : Labels α) {content : Nat} {reason : LineEnd}
    (hr : reason = .wrap ∨ content = s.marks.size) :
    List.Forall₂ L.Told ((s.marks.toList.take (s.cut content reason)).map L.label)
      ((s.setLine job content (s.cut content reason) reason).line s job.printer.images).events := by
  generalize hl : s.setLine job content (s.cut content reason) reason = l
  have hcontent : l.content = content := by
    rw [← hl]
    rfl
  have hlabels : l.marks.map L.label =
      (s.marks.toList.take (s.cut content reason)).map L.label := by
    rw [← hl]
    exact map_setLine L.shift job s content _ reason
  have hcodes : l.marks.map Mark.code =
      (s.marks.toList.take (s.cut content reason)).map Mark.code := by
    rw [← hl]
    exact map_setLine (fun _ _ => rfl) job s content _ reason
  have hblank : ∀ m ∈ l.marks.drop content, Blank m.code := by
    intro m hm
    have hcode : m.code ∈
        ((s.marks.toList.take (s.cut content reason)).drop content).map Mark.code := by
      rw [List.map_drop, ← hcodes, ← List.map_drop]
      exact List.mem_map_of_mem hm
    obtain ⟨m', hm', hcode'⟩ := List.mem_map.1 hcode
    rw [← hcode', ← isBlank_iff]
    exact blank_of_mem_drop hr hm'
  rw [SetLine.events_line, hcontent, ← hlabels, ← List.take_append_drop content l.marks,
    List.map_append, List.take_append_drop]
  refine List.rel_append ?_ ?_
  · rw [List.forall₂_map_left_iff, List.forall₂_map_right_iff, List.forall₂_same]
    intro m _
    exact L.told l false m fun h => nomatch h
  · rw [List.forall₂_map_left_iff, List.forall₂_map_right_iff, List.forall₂_same]
    intro m hm
    exact L.told l true m fun _ => hblank m hm

/-- A commit reports the signs of the marks that it cuts off. -/
theorem reports_commit {content : Nat} {reason : LineEnd}
    (hr : reason = .wrap ∨ content = s.marks.size) :
    List.Forall₂ Reports ((s.marks.toList.take (s.cut content reason)).map Mark.sign)
      ((s.setLine job content (s.cut content reason) reason).line s job.printer.images).events :=
  told_commit .signs hr

/-! ### Labels of a run -/

/-- The labels are, in this order, those of the glyphs reported so far and of the marks that
    wait for their line. -/
def AccountedBy (L : Labels α) (labels : List α) (s : LayoutState) : Prop :=
  ∃ reported, labels = reported ++ s.marks.toList.map L.label ∧
    List.Forall₂ L.Told reported (events s.lines.toList)

theorem accountedBy_initial (L : Labels α) (job : Job) (font : Font) :
    AccountedBy L [] (initial job font) := ⟨[], rfl, .nil⟩

namespace AccountedBy

theorem congr (h : AccountedBy L labels s) (hm : t.marks = s.marks) (hl : t.lines = s.lines) :
    AccountedBy L labels t := by
  unfold AccountedBy
  rw [hm, hl]
  exact h

theorem pushMark (h : AccountedBy L labels s) (job : Job) (code : Nat) (kind : MarkKind)
    (advance : Int) (index : Nat) :
    AccountedBy L (labels ++ [L.label (newMark job s code kind advance index)])
      (s.pushMark job code kind advance index) := by
  obtain ⟨reported, rfl, htold⟩ := h
  obtain ⟨hl, -⟩ := pushMark_frame job s code kind advance index
  refine ⟨reported, ?_, ?_⟩
  · rw [marks_pushMark, Array.toList_push, List.map_append, List.map_singleton, List.append_assoc]
  · rw [hl]
    exact htold

/-- What a commit takes from the marks that wait it adds to the glyphs reported. -/
theorem commit (h : AccountedBy L labels s) (job : Job) {content : Nat} {reason : LineEnd}
    (hr : reason = .wrap ∨ content = s.marks.size) :
    AccountedBy L labels (s.commit job content reason) := by
  obtain ⟨reported, rfl, htold⟩ := h
  obtain ⟨⟨dx, hm⟩, hl, -⟩ := commit_frame job s content reason
  refine ⟨reported ++ (s.marks.toList.take (s.cut content reason)).map L.label, ?_, ?_⟩
  · rw [hm, Mark.map_shift L.shift, List.append_assoc, ← List.map_append, List.take_append_drop]
  · rw [hl, Array.toList_push, events, List.flatMap_append, List.flatMap_singleton]
    exact List.rel_append htold (told_commit L hr)

theorem finishLine (h : AccountedBy L labels s) (job : Job) (reason : LineEnd) :
    AccountedBy L labels (s.finishLine job reason) := by
  unfold LayoutState.finishLine
  split
  · exact h
  · exact h.commit job (Or.inr rfl)

/-- A move adds the labels of the marks that it puts on the line. -/
theorem move {σ : List Sign} (h : AccountedBy L labels s) (m : Move job s σ t) :
    ∃ ms : List Mark, ms.map Mark.sign = σ ∧ AccountedBy L (labels ++ ms.map L.label) t := by
  have hnone : AccountedBy L labels t → ∃ ms : List Mark, ms.map Mark.sign = [] ∧
      AccountedBy L (labels ++ ms.map L.label) t := by
    intro ht
    refine ⟨[], rfl, ?_⟩
    rw [List.map_nil, List.append_nil]
    exact ht
  cases m with
  | mark code kind advance index =>
    exact ⟨[newMark job s code kind advance index], rfl, h.pushMark job code kind advance index⟩
  | quiet hs => exact hnone (h.congr hs.marks hs.lines)
  | closeRules hs => exact hnone (h.congr hs.marks hs.lines)
  | wrap content _ _ => exact hnone (h.commit job (Or.inl rfl))
  | commitAll reason _ => exact hnone (h.commit job (Or.inr rfl))
  | nextCell =>
    obtain ⟨hm, hl, -⟩ := nextCell_frame job s
    exact hnone (h.congr hm hl)
  | beginTable t _ => exact hnone ((h.finishLine job (.newline false)).congr rfl rfl)
  | _ => exact hnone (h.congr rfl rfl)

theorem moves {σ : List Sign} (h : AccountedBy L labels s) (m : Moves job s σ t) :
    ∃ ms : List Mark, ms.map Mark.sign = σ ∧ AccountedBy L (labels ++ ms.map L.label) t := by
  induction m with
  | refl =>
    refine ⟨[], rfl, ?_⟩
    rw [List.map_nil, List.append_nil]
    exact h
  | tail _ m ih =>
    obtain ⟨ms, hms, hmid⟩ := ih
    obtain ⟨ns, hns, hend⟩ := hmid.move m
    refine ⟨ms ++ ns, ?_, ?_⟩
    · rw [List.map_append, hms, hns]
    · rw [List.map_append, ← List.append_assoc]
      exact hend

/-- Moves without signs put nothing on the line. -/
theorem moves_nil (h : AccountedBy L labels s) (m : Moves job s [] t) : AccountedBy L labels t := by
  obtain ⟨ms, hms, ht⟩ := h.moves m
  rwa [List.map_eq_nil_iff.1 hms, List.map_nil, List.append_nil] at ht

/-- Once a line is committed as the last one, all is reported. -/
theorem commitAll_text (h : AccountedBy L labels s) (job : Job) :
    List.Forall₂ L.Told labels (events (s.commitAll job .text).lines.toList) := by
  have hcommit : AccountedBy L labels (s.commitAll job .text) := h.commit job (Or.inr rfl)
  obtain ⟨reported, rfl, htold⟩ := hcommit
  obtain ⟨⟨dx, hm⟩, -⟩ := commit_frame job s s.marks.size .text
  have hcut : s.cut s.marks.size .text = s.marks.toList.length := Array.length_toList.symm
  have hnone : (s.commitAll job .text).marks.toList = [] := by
    refine hm.trans ?_
    rw [hcut, List.drop_length, List.map_nil]
  rw [hnone, List.map_nil, List.append_nil]
  exact htold

/-- A mark for the end of the text closes the last line, or the end of the line that was
    wrapped just before it. -/
theorem finish (h : AccountedBy L labels s) (job : Job) (total : Nat) :
    ∃ before last, events (s.finish job total) = before ++ [last] ∧
      List.Forall₂ L.Told labels before ∧
      (L.Told (L.label (newMark job s 0 .textEnd 0 total)) last ∨
        ∃ w, last = s.wrappedEnd w total) := by
  unfold LayoutState.finish
  cases hw : s.wrapped.filter fun _ => s.lineIsEmpty with
  | some w =>
    obtain ⟨-, hempty⟩ := Option.filter_eq_some_iff.1 hw
    have hmarks : s.marks.toList = [] := by
      simp only [lineIsEmpty, Bool.and_eq_true, Array.isEmpty_iff] at hempty
      rw [hempty.2]
    obtain ⟨reported, rfl, htold⟩ := h
    refine ⟨events s.lines.toList, s.wrappedEnd w total, ?_, ?_, Or.inr ⟨w, rfl⟩⟩
    · rw [events, List.flatMap_append, List.flatMap_singleton]
      rfl
    · rw [hmarks, List.map_nil, List.append_nil]
      exact htold
  | none =>
    have hall := (h.pushMark job 0 .textEnd 0 total).commitAll_text job
    have hbefore := List.forall₂_take labels.length hall
    have hends := List.forall₂_drop labels.length hall
    rw [List.take_left] at hbefore
    rw [List.drop_left] at hends
    obtain ⟨last, tail, hlast, htail, heq⟩ := List.forall₂_cons_left_iff.1 hends
    rw [List.forall₂_nil_left_iff.1 htail] at heq
    refine ⟨_, last, ?_, hbefore, Or.inl hlast⟩
    rw [← heq, List.take_append_drop]

end AccountedBy

/-! ### Signs of a run -/

/-- The signs are, in this order, those of the glyphs reported so far and of the marks
    that wait for their line. -/
def Accounted (signs : List Sign) (s : LayoutState) : Prop :=
  ∃ reported, signs = reported ++ s.marks.toList.map Mark.sign ∧
    List.Forall₂ Reports reported (events s.lines.toList)

theorem accounted_iff (signs : List Sign) (s : LayoutState) :
    Accounted signs s ↔ AccountedBy .signs signs s := Iff.rfl

theorem Moves.accounted {signs σ : List Sign} (m : Moves job s σ t) (h : Accounted signs s) :
    Accounted (signs ++ σ) t := by
  obtain ⟨ms, rfl, ht⟩ := ((accounted_iff signs s).1 h).moves m
  exact ht

/-- After any text the signs of its tokens are accounted for. -/
theorem accounted_run (job : Job) (font : Font) (cs : List Nat) :
    Accounted (signsOf job.printer.images cs) ((initial job font).run job (lexemes cs)) := by
  have hmoves : Moves job (initial job font) (signsOf job.printer.images cs)
      ((initial job font).run job (lexemes cs)) :=
    run_moves (breakWithin_initial job font) (lexemes cs)
  have h := hmoves.accounted (accountedBy_initial .signs job font)
  rwa [List.nil_append] at h

/-- A mark for the end of the text closes the last line, or the end of the line that
    was wrapped just before it. -/
theorem finish_events (job : Job) {signs : List Sign} (h : Accounted signs s) (total : Nat) :
    ∃ before last, events (s.finish job total) = before ++ [last] ∧
      List.Forall₂ Reports signs before ∧
      last.lineEnd = true ∧ last.code = none ∧ last.index = total := by
  obtain ⟨before, last, hevents, hreports, hend⟩ := ((accounted_iff signs s).1 h).finish job total
  refine ⟨before, last, hevents, hreports, ?_⟩
  rcases hend with hlast | ⟨w, rfl⟩
  · have hlast : Reports ⟨0, true, total⟩ last := hlast
    refine ⟨hlast.lineEnd, ?_, hlast.index⟩
    cases hcode : last.code with
    | none => rfl
    | some c =>
      have hend : true = false := (hlast.code c hcode).2
      cases hend
  · exact ⟨rfl, rfl, rfl⟩

end LayoutState

/-- The positions that are reported are those of the signs. -/
theorem indices_of_reports {signs : List Sign} {gs : List Glyph}
    (h : List.Forall₂ Reports signs gs) : gs.map (·.index) = signs.map (·.index) := by
  induction h with
  | nil => rfl
  | cons hr _ ih => rw [List.map_cons, List.map_cons, hr.index, ih]

theorem exists_of_forall₂ {α β : Type} {R : α → β → Prop} {as : List α} {bs : List β}
    (h : List.Forall₂ R as bs) {b : β} (hb : b ∈ bs) : ∃ a ∈ as, R a b := by
  induction h with
  | nil => cases hb
  | cons hr _ ih =>
    rcases List.mem_cons.1 hb with rfl | hb
    · exact ⟨_, List.mem_cons_self, hr⟩
    · obtain ⟨a, ha, hr⟩ := ih hb
      exact ⟨a, List.mem_cons_of_mem _ ha, hr⟩

/-! ### Traversals that never stop -/

namespace Traversal

variable {σ : Type} (f : σ → Item → σ)

theorem items_of_more (s : σ) (is : List Item) :
    items (fun s i => .more (f s i)) s is = .more (is.foldl f s) := by
  induction is generalizing s with
  | nil => rfl
  | cons i is ih => exact ih (f s i)

/-- A traversal that never stops sees the items of all lines. -/
theorem lines_of_more (s : σ) (ls : List Line) :
    lines (fun s i => .more (f s i)) s ls =
      ((ls.flatMap Line.items).foldl f s, ls.flatMap Line.regions) := by
  induction ls generalizing s with
  | nil => rfl
  | cons l ls ih =>
    simp only [lines, items_of_more, ih, List.flatMap_cons, List.foldl_append, Line.items]

end Traversal

/-- **No glyph is lost, duplicated or reordered.**  With the default font registered,
    every traversal that never stops sees the same items, whose glyphs have strictly
    increasing positions. The last of them, and only it, stands past the text, is drawn
    as nothing and ends a line. The others stand where a token starts whose first code
    points show; blanks alone are reported as left over. -/
theorem Printer.glyph_events {p : Printer} (h : p.fonts.contains p.defaultFont = true)
    (markup : List UInt8) (origin : Point) (width : Int) :
    ∃ (items : List Item) (regions : List Region),
      (∀ {σ : Type} (f : σ → Item → σ) (initial : σ),
        p.query markup origin width (fun s i => .more (f s i)) initial =
          .ok (items.foldl f initial, regions)) ∧
      ∃ (before : List Glyph) (last : Glyph), items.filterMap Item.glyph? = before ++ [last] ∧
        (before ++ [last]).Pairwise (fun g k => g.index < k.index) ∧
        (last.lineEnd = true ∧ last.code = none ∧ last.index = (Codec.decode markup).length) ∧
        (∀ g ∈ before, g.index < (Codec.decode markup).length) ∧
        (∀ i < (Codec.decode markup).length, (∃ g ∈ before ++ [last], g.index = i) ↔
          (∃ l ∈ lexemes (Codec.decode markup), l.index = i) ∧
            Shows p.images ((Codec.decode markup).drop i)) ∧
        ∀ g ∈ before, g.wrapped = true →
          ∃ c, (Codec.decode markup)[g.index]? = some c ∧ Blank c := by
  generalize hcs : Codec.decode markup = cs
  obtain ⟨font, hfont⟩ := (Registry.contains_iff p.fonts p.defaultFont).1 h
  have hlayout : (Job.mk p origin width).layout markup =
      .ok (Job.layoutWith ⟨p, origin, width⟩ font cs) := hcs ▸ Job.layout_eq hfont markup
  refine ⟨(Job.layoutWith ⟨p, origin, width⟩ font cs).flatMap Line.items,
    (Job.layoutWith ⟨p, origin, width⟩ font cs).flatMap Line.regions, ?_, ?_⟩
  · intro σ f initial
    rw [Printer.query, hlayout, ← Traversal.lines_of_more]
    rfl
  · obtain ⟨before, last, hevents, hreports, hend, hcode, hlast⟩ :=
      LayoutState.finish_events ⟨p, origin, width⟩
        (LayoutState.accounted_run ⟨p, origin, width⟩ font cs) cs.length
    have hindices := indices_of_reports hreports
    have hlt : ∀ g ∈ before, g.index < cs.length := by
      intro g hg
      obtain ⟨σ, hσ, hr⟩ := exists_of_forall₂ hreports hg
      rw [hr.index]
      exact index_lt_of_mem_signsOf hσ
    have hmem : ∀ i, (∃ g ∈ before, g.index = i) ↔ ∃ σ ∈ signsOf p.images cs, σ.index = i := by
      intro i
      rw [← List.mem_map, ← List.mem_map, hindices]
    refine ⟨before, last, ?_, ?_, ⟨hend, hcode, hlast⟩, hlt, ?_, ?_⟩
    · rw [List.filterMap_flatMap]
      exact hevents
    · rw [List.pairwise_append]
      refine ⟨?_, List.pairwise_singleton _ _, ?_⟩
      · have hpairs := (pairwise_signsOf p.images cs)
        rw [← List.pairwise_map (f := fun σ : Sign => σ.index) (R := (· < ·)), ← hindices] at hpairs
        exact List.pairwise_map.1 hpairs
      · intro g hg k hk
        rw [List.mem_singleton.1 hk, hlast]
        exact hlt g hg
    · intro i hi
      rw [← exists_mem_signsOf_iff, ← hmem]
      constructor
      · rintro ⟨g, hg, rfl⟩
        rcases List.mem_append.1 hg with hg | hg
        · exact ⟨g, hg, rfl⟩
        · rw [List.mem_singleton.1 hg, hlast] at hi
          exact absurd hi (Nat.lt_irrefl _)
      · rintro ⟨g, hg, rfl⟩
        exact ⟨g, List.mem_append_left _ hg, rfl⟩
    · intro g hg hw
      obtain ⟨σ, hσ, hr⟩ := exists_of_forall₂ hreports hg
      have hblank := hr.wrapped hw
      rw [hr.index]
      exact ⟨σ.code, getElem?_of_blank hσ hblank, hblank⟩

/-- Of a carriage return before a line feed nothing is reported. -/
theorem Printer.glyph_events_boxes :
    ∃ (items : List Item) (regions : List Region),
      boxes.query [0x41, 0x0D, 0x0A] .zero 30 (fun n _ => .more (n + 1)) 0 =
        .ok (items.foldl (fun n _ => n + 1) 0, regions) ∧
      (∃ g ∈ items.filterMap Item.glyph?, g.index = 0) ∧
      ¬ ∃ g ∈ items.filterMap Item.glyph?, g.index = 1 := by
  have h : boxes.fonts.contains boxes.defaultFont = true := rfl
  have hcs : Codec.decode [0x41, 0x0D, 0x0A] = [0x41, 0x0D, 0x0A] := by decide
  obtain ⟨items, regions, hquery, before, last, hevents, -, -, -, hshown, -⟩ :=
    glyph_events h [0x41, 0x0D, 0x0A] .zero 30
  rw [hcs] at hshown
  refine ⟨items, regions, hquery _ 0, ?_, ?_⟩
  · rw [hevents, hshown 0 (by decide)]
    refine ⟨⟨⟨0, .text 0x41⟩, by decide, rfl⟩, ?_⟩
    refine Or.inr (Or.inr (Or.inl ⟨by decide, by decide, ?_⟩))
    intro t
    cases t with
    | heading level => cases level <;> decide
    | _ => decide
  · rw [hevents, hshown 1 (by decide)]
    rintro ⟨-, ⟨-, h⟩ | h | ⟨h, -⟩ | ⟨h, -⟩⟩
    · exact h ⟨rfl, rfl⟩
    · exact absurd h (by decide)
    · exact absurd h (by decide)
    · exact absurd h (by decide)

end RichText
