/-
  RichText/Proofs/Layout/Checked.lean
  ===================================
  **The accesses of a line, each of which may fail.**

  The definitions of `Checked` compute what those of the layout do, but every access
  to a mark or a column, every slice, every difference of positions and every quotient
  fails where it is out of range.  Each of them has a lemma that says when none fails
  and that the result is then the one of the layout.
-/
import Mathlib.Data.List.Basic
import RichText.Proofs.Layout.Coherence

namespace RichText.Checked

/-! ### Accesses -/

def slice {α : Type} (xs : List α) (start stop : Nat) : Option (List α) :=
  if start ≤ stop ∧ stop ≤ xs.length then some ((xs.take stop).drop start) else none

def sub (a b : Nat) : Option Nat := if b ≤ a then some (a - b) else none

/-- The quotient of two integers, without its fractional part. -/
def div (a b : Int) : Option Int := if b = 0 then none else some (a.tdiv b)

/-- What is computed for each element, all in one list. -/
def collect {α β : Type} (f : α → Option (List β)) : List α → Option (List β)
  | [] => some []
  | x :: xs => do
    let ys ← f x
    let rest ← collect f xs
    return ys ++ rest

theorem slice_eq {α : Type} {xs : List α} {start stop : Nat} (h : start ≤ stop)
    (hs : stop ≤ xs.length) : slice xs start stop = some ((xs.take stop).drop start) :=
  if_pos ⟨h, hs⟩

theorem slice_take {α : Type} {xs : List α} {stop : Nat} (h : stop ≤ xs.length) :
    slice xs 0 stop = some (xs.take stop) := slice_eq (Nat.zero_le stop) h

theorem slice_drop {α : Type} {xs : List α} {start : Nat} (h : start ≤ xs.length) :
    slice xs start xs.length = some (xs.drop start) := by
  rw [slice_eq h (Nat.le_refl _), List.take_length]

theorem sub_eq {a b : Nat} (h : b ≤ a) : sub a b = some (a - b) := if_pos h

theorem div_eq {a b : Int} (h : b ≠ 0) : div a b = some (a.tdiv b) := if_neg h

theorem collect_eq {α β : Type} {f : α → Option (List β)} {g : α → List β} {xs : List α}
    (h : ∀ x ∈ xs, f x = some (g x)) : collect f xs = some (xs.flatMap g) := by
  induction xs with
  | nil => rfl
  | cons x xs ih =>
    have hrest := ih fun y hy => h y (List.mem_cons_of_mem x hy)
    rw [collect, h x List.mem_cons_self, hrest, List.flatMap_cons]
    rfl

theorem collect_toList_eq {α β : Type} {f : α → Option (Option β)} {g : α → Option β} {xs : List α}
    (h : ∀ x ∈ xs, f x = some (g x)) :
    collect (fun x => (f x).map Option.toList) xs = some (xs.filterMap g) := by
  rw [List.filterMap_eq_flatMap_toList]
  refine collect_eq fun x hx => ?_
  rw [h x hx, Option.map_some]

/-! ### Spans -/

section Spans

variable {α : Type} {n cut : Nat} {s : Span α}

/-- What is left of a span once the marks before `cut` are reported. -/
def carry (cut : Nat) (s : Span α) : Option (Option (Span α)) :=
  match s.start with
  | .glyph i =>
    if cut ≤ i then do
      let start ← sub i cut
      let stop ← stopAfter
      return some { s with start := .glyph start, stop := stop }
    else past
  | .continued => past
where
  stopAfter : Option (Option Nat) :=
    match s.stop with
    | none => some none
    | some j => (sub j cut).map some
  past : Option (Option (Span α)) :=
    if s.stop.any (· ≤ cut) then return none
    else do
      let stop ← stopAfter
      return some { s with start := .continued, stop := stop }

/-- A span that lies within the line does not stop before the cut if it starts after it. -/
theorem carry_eq (h : s.Within n) : carry cut s = some (s.carry cut) := by
  obtain ⟨start, stop, data⟩ := s
  obtain ⟨-, -, horder⟩ := h
  have hpast : carry.past cut ⟨start, stop, data⟩ =
      some (Span.carry.past cut ⟨start, stop, data⟩) := by
    unfold carry.past Span.carry.past
    cases stop with
    | none => rfl
    | some j =>
      by_cases hj : j ≤ cut
      · simp only [Option.any_some, decide_eq_true hj, if_true]
        rfl
      · simp only [Option.any_some, decide_eq_false hj, carry.stopAfter,
          sub_eq (Nat.le_of_not_le hj)]
        rfl
  cases start with
  | continued => exact hpast
  | glyph i =>
    by_cases hi : cut ≤ i
    · cases stop with
      | none => simp [carry, Span.carry, hi, sub_eq hi, carry.stopAfter]
      | some j =>
        have hj : cut ≤ j := Nat.le_trans hi (horder i j rfl rfl)
        simp [carry, Span.carry, hi, sub_eq hi, sub_eq hj, carry.stopAfter]
    · simp only [carry, Span.carry, if_neg hi]
      exact hpast

/-- What a list of spans leaves. -/
def carryAll (cut : Nat) (spans : List (Span α)) : Option (List (Span α)) :=
  collect (fun s => (carry cut s).map Option.toList) spans

theorem carryAll_eq {spans : List (Span α)} (h : SpansWithin n spans) :
    carryAll cut spans = some (spans.filterMap (Span.carry cut)) :=
  collect_toList_eq fun s hs => carry_eq (h s hs)

end Spans

/-! ### Tables -/

section Tables

variable {n : Nat} {t : Table}

/-- Where a cell begins and how wide it is. -/
def extent (t : Table) (c : Cell) : Option (Int × Int) :=
  match t.columns[c.column]? with
  | none => some (t.left + max t.width 0, 0)
  | some first => do
    let stop ← sub (c.column + c.span) 1
    let columns ← sub t.columns.length 1
    let last ← t.columns[min stop columns]?
    return (first.left, last.left + last.width - first.left)

/-- A cell that covers a column has a last one. -/
theorem extent_eq {c : Cell} (h : 1 ≤ c.span) : extent t c = some (t.extent c) := by
  unfold extent Table.extent
  cases hfirst : t.columns[c.column]? with
  | none => rfl
  | some first =>
    obtain ⟨hlen, -⟩ := List.getElem?_eq_some_iff.1 hfirst
    have hstop : 1 ≤ c.column + c.span := by omega
    have hcolumns : 1 ≤ t.columns.length := by omega
    have hlast : min (c.column + c.span - 1) (t.columns.length - 1) < t.columns.length := by omega
    simp only [sub_eq hstop, sub_eq hcolumns, Option.bind_eq_bind, Option.bind_some,
      List.getElem?_eq_getElem hlast, Option.getD_some, Option.pure_def]

/-- Where the last cell of the row begins. -/
def cellLeft (t : Table) : Option Int :=
  match t.cells.head? with
  | none => some t.left
  | some c => (extent t c).map Prod.fst

theorem cellLeft_eq (h : t.Coherent n) : cellLeft t = some t.cellLeft := by
  unfold cellLeft Table.cellLeft
  cases hc : t.cells.head? with
  | none => rfl
  | some c =>
    have hspan := h.span_pos c (List.mem_of_mem_head? hc)
    simp only [extent_eq hspan, Option.map_some, Option.elim_some]

/-- Aligns the marks of one cell. -/
def alignCell (t : Table) (c : Cell) (ms : List Mark) : Option (List Mark) :=
  match ms.getLast? with
  | none => some ms
  | some last => do
    let (left, width) ← extent t c
    return ms.map (Mark.shift (c.align.shift width (last.right - left)))

theorem alignCell_eq {c : Cell} (h : 1 ≤ c.span) (ms : List Mark) :
    alignCell t c ms = some (Mark.alignCell t c ms) := by
  unfold alignCell Mark.alignCell
  cases ms.getLast? with
  | none => rfl
  | some last =>
    rw [extent_eq h]
    rfl

/-- Aligns the cells of a row, each where it stands among all the marks. -/
def alignCells (t : Table) : List Cell → List Mark → Option (List Mark)
  | [], ms => some ms
  | c :: rest, ms => do
    let stop := min ((rest.head?).elim ms.length (·.first)) ms.length
    let start := min c.first stop
    let cell ← slice ms start stop
    let cell ← alignCell t c cell
    alignCells t rest (ms.take start ++ cell ++ ms.drop stop)

/-- The cells in the order of the row, of which each starts on the line and none before
    the one it follows. -/
private theorem alignCells_cons_eq {c : Cell} {rest : List Cell} {ms : List Mark}
    (hfirst : ∀ d ∈ c :: rest, d.first ≤ ms.length)
    (hordered : (c :: rest).Pairwise fun d e => d.first ≤ e.first)
    (hspan : ∀ d ∈ c :: rest, 1 ≤ d.span) :
    alignCells t (c :: rest) ms =
      some (ms.take c.first ++ Mark.alignCells t (c :: rest) (ms.drop c.first)) := by
  induction rest generalizing c ms with
  | nil =>
    have hc := hfirst c List.mem_cons_self
    have hstart : min c.first ms.length = c.first := Nat.min_eq_left hc
    simp only [alignCells, List.head?_nil, Option.elim_none, Nat.min_self, hstart, slice_drop hc,
      Option.bind_eq_bind, Option.bind_some, alignCell_eq (hspan c List.mem_cons_self),
      List.drop_length, List.append_nil, Mark.alignCells]
  | cons d rest ih =>
    have hd := hfirst d (List.mem_cons_of_mem c List.mem_cons_self)
    have hcd : c.first ≤ d.first :=
      (List.pairwise_cons.1 hordered).1 d List.mem_cons_self
    have hstop : min d.first ms.length = d.first := Nat.min_eq_left hd
    have hstart : min c.first d.first = c.first := Nat.min_eq_left hcd
    -- The marks of the cell, which are moved and put back where they were.
    have hcell : (ms.take d.first).drop c.first = (ms.drop c.first).take (d.first - c.first) :=
      List.drop_take
    generalize hmoved : Mark.alignCell t c ((ms.drop c.first).take (d.first - c.first)) = moved
    have hlen : (ms.take c.first ++ moved).length = d.first := by
      rw [← hmoved, List.length_append, Mark.length_alignCell, List.length_take, List.length_take,
        List.length_drop]
      omega
    have htake : (ms.take c.first ++ moved ++ ms.drop d.first).take d.first
        = ms.take c.first ++ moved := List.take_left' hlen
    have hdrop : (ms.take c.first ++ moved ++ ms.drop d.first).drop d.first = ms.drop d.first :=
      List.drop_left' hlen
    have hall : (ms.take c.first ++ moved ++ ms.drop d.first).length = ms.length := by
      rw [List.length_append, hlen, List.length_drop]
      omega
    have hfirst' : ∀ e ∈ d :: rest,
        e.first ≤ (ms.take c.first ++ moved ++ ms.drop d.first).length := by
      intro e he
      rw [hall]
      exact hfirst e (List.mem_cons_of_mem c he)
    have hih := ih hfirst'
      (List.pairwise_cons.1 hordered).2 (fun e he => hspan e (List.mem_cons_of_mem c he))
    rw [htake, hdrop] at hih
    have hrest : (ms.drop c.first).drop (d.first - c.first) = ms.drop d.first := by
      rw [List.drop_drop, Nat.add_sub_cancel' hcd]
    rw [alignCells]
    simp only [List.head?_cons, Option.elim_some, hstop, hstart, slice_eq hcd hd,
      Option.bind_eq_bind, Option.bind_some, alignCell_eq (hspan c List.mem_cons_self), hcell,
      hmoved, hih]
    rw [Mark.alignCells, hmoved, hrest, List.append_assoc]

theorem alignCells_eq {ms : List Mark} (h : t.Coherent ms.length) :
    alignCells t t.cells.reverse ms = some (Mark.alignCells t t.cells.reverse ms) := by
  obtain ⟨first, hlast, hzero⟩ := h.starts
  cases hcells : t.cells.reverse with
  | nil => rfl
  | cons c rest =>
    have hc : c = first := by
      have hhead : t.cells.reverse.head? = some first := by rw [List.head?_reverse, hlast]
      rw [hcells, List.head?_cons] at hhead
      exact Option.some.inj hhead
    have hmem : ∀ d ∈ c :: rest, d ∈ t.cells := by
      intro d hd
      rw [← hcells] at hd
      exact List.mem_reverse.1 hd
    have hordered : (c :: rest).Pairwise fun d e => d.first ≤ e.first := by
      rw [← hcells, List.pairwise_reverse]
      exact h.ordered
    rw [alignCells_cons_eq (fun d hd => h.first_le d (hmem d hd)) hordered
      fun d hd => h.span_pos d (hmem d hd), hc, hzero, List.take_zero, List.drop_zero,
      List.nil_append]

end Tables

/-! ### Justification -/

section Justifications

variable {spaces gaps target height : Int}

def fillSpaces (spaces target cap : Int) : Option (Int × Int × Int) := do
  let share ← div target spaces
  return if cap < share then (cap, 0, target - cap * spaces)
    else (share, target - share * spaces, 0)

theorem fillSpaces_eq (h : 0 < spaces) (target cap : Int) :
    fillSpaces spaces target cap = some (Justification.fillSpaces spaces target cap) := by
  rw [fillSpaces, div_eq (by omega)]
  rfl

def gapShare (gaps target height : Int) : Option Int :=
  if 0 < gaps then do
    let share ← div target gaps
    return if 1 ≤ share then
        if 1 < share ∧ height.tdiv 3 < share then height.tdiv 3 else share
      else 0
  else return 0

theorem gapShare_eq (gaps target height : Int) :
    gapShare gaps target height = some (Justification.gapShare gaps target height) := by
  unfold gapShare Justification.gapShare
  by_cases hg : 0 < gaps
  · have hne : gaps ≠ 0 := by omega
    simp only [hg, div_eq hne, Option.bind_eq_bind, Option.bind_some, Option.pure_def, true_and,
      if_true]
  · simp only [hg, false_and, if_false, Option.pure_def]

/-- How the pixels that are missing are given out. -/
def plan (spaces gaps target digitWidth height : Int) : Option (Option Justification) :=
  if target ≤ 0 then return none
  else do
    let (space, extra, left) ←
      if 0 < spaces then fillSpaces spaces target digitWidth else pure (0, 0, target)
    let gap ← gapShare gaps left height
    let left := left - gap * gaps
    let (space, extra, left) ←
      if 0 < spaces ∧ 0 < left then fillSpaces spaces (left + space * spaces) (height * 2)
      else pure (space, extra, left)
    return if left = 0 then some ⟨space, extra, gap⟩ else none

/-- Nothing is divided among no spaces or no gaps. -/
theorem plan_eq (spaces gaps target digitWidth height : Int) :
    plan spaces gaps target digitWidth height =
      some (Justification.plan? spaces gaps target digitWidth height) := by
  unfold plan Justification.plan?
  by_cases ht : target ≤ 0
  · rw [if_pos ht, if_pos ht]
    rfl
  · rw [if_neg ht, if_neg ht]
    by_cases hs : 0 < spaces
    · simp only [hs, fillSpaces_eq hs, gapShare_eq, Option.bind_eq_bind, Option.bind_some,
        Option.pure_def, true_and, if_true]
      split <;> rfl
    · simp only [hs, gapShare_eq, Option.bind_eq_bind, Option.bind_some, Option.pure_def,
        false_and, if_false]

end Justifications

/-! ### What is reported of a line -/

section Lines

variable {l : SetLine} {s : LayoutState}

/-- Where a selection begins on the line. -/
def selectionLeft (l : SetLine) (span : Span Selection) : Option (Option Int) :=
  match span.start with
  | .glyph i =>
    if i < l.content then do
      let mark ← l.marks[i]?
      return some mark.x
    else return none
  | .continued =>
    if 0 < l.content then do
      let mark ← l.marks[0]?
      return some mark.x
    else return some l.left

/-- The right edge of a span. -/
def spanRight {α : Type} (l : SetLine) (span : Span α) : Option Int :=
  match span.stopGlyph? l.content with
  | none => return l.right
  | some stop => do
    let mark ← l.marks[stop]?
    return mark.x

/-- A selection behind the line. -/
def selectionBox (l : SetLine) (images : Registry Image) (span : Span Selection) :
    Option (List Item) := do
  match ← selectionLeft l span with
  | none => return []
  | some left =>
    let right ← spanRight l span
    let data := span.data
    if right < left ∨ data.noBackground then return []
    else
      let bounds := (Rect.mk left l.top right l.bottom).inflate data.padding
      match data.image with
      | some index =>
        return (images.get? index).elim [] fun image => [.image index image bounds .white .tile]
      | none => return [.box bounds data.background 0 .transparent]

/-- The borders of the cells of a table. -/
def cellBorders (l : SetLine) (s : LayoutState) : Option (List Item) :=
  match s.table with
  | none => return []
  | some t =>
    if t.border then
      collect (fun c => do
        let (left, width) ← extent t c
        return [.box ⟨left, l.top, left + width, l.bottom⟩ .transparent s.font.lineThickness
          (s.format.borderColor.getD s.font.style.color)]) t.cells.reverse
    else return []

/-- The part of a region on the line. -/
def region (l : SetLine) (span : Span Nat) : Option (Option Region) := do
  let left? ←
    match span.start with
    | .glyph i =>
      if l.marks.length ≤ i then pure none
      else if i < l.content then (l.marks[i]?).map fun mark => some mark.x
      else pure (some l.right)
    | .continued => pure (some l.left)
  match left? with
  | none => return none
  | some left =>
    let right ← spanRight l span
    return some ⟨span.data, ⟨left, l.top, max right left, l.bottom⟩⟩

/-- The right edge of a rule. -/
def ruleRight (l : SetLine) (span : Span Rule) : Option Int :=
  match span.stopGlyph? l.content with
  | none => return l.right
  | some stop =>
    if span.data.gaps then do
      let mark ← l.marks[stop]?
      return mark.x
    else do
      let last ← sub (max stop 1) 1
      let mark ← l.marks[last]?
      return mark.right

/-- The part of a rule on the line. -/
def rule (l : SetLine) (span : Span Rule) : Option (Option Item) :=
  match (span.firstGlyph? l.marks.length).filter (· < l.content) with
  | none => return none
  | some first => do
    let mark ← l.marks[first]?
    let right ← ruleRight l span
    return if mark.x < right then
        some (.rule mark.x right (l.top + l.baseline - mark.baseline + span.data.offset)
          span.data.thickness span.data.color)
      else none

/-- All that is reported of a line. -/
def line (l : SetLine) (s : LayoutState) (images : Registry Image) : Option Line := do
  let borders ← cellBorders l s
  let selections ← collect (selectionBox l images) s.selections.reverse
  let regions ← collect (fun span => (region l span).map Option.toList) s.regions.reverse
  let underlines ← collect (fun span => (rule l span).map Option.toList) s.underline.spans.reverse
  let strikes ← collect (fun span => (rule l span).map Option.toList) s.strike.spans.reverse
  return ⟨l.background s ++ borders ++ selections, l.glyphs, regions, underlines ++ strikes⟩

/-- A mark of the content is there. -/
private theorem getElem?_of_lt_content (h : l.content ≤ l.marks.length) {i : Nat}
    (hi : i < l.content) : ∃ m, l.marks[i]? = some m :=
  ⟨_, List.getElem?_eq_getElem (Nat.lt_of_lt_of_le hi h)⟩

private theorem stopGlyph?_lt {α : Type} {span : Span α} {cut stop : Nat}
    (h : span.stopGlyph? cut = some stop) : stop < cut := by
  unfold Span.stopGlyph? at h
  exact of_decide_eq_true (Option.filter_eq_some_iff.1 h).2

theorem selectionLeft_eq (h : l.content ≤ l.marks.length) (span : Span Selection) :
    selectionLeft l span = some (l.selectionLeft? span) := by
  unfold selectionLeft SetLine.selectionLeft?
  cases span.start with
  | glyph i =>
    by_cases hi : i < l.content
    · obtain ⟨m, hm⟩ := getElem?_of_lt_content h hi
      simp only [if_pos hi, hm, Mark.xAt]
      rfl
    · simp only [if_neg hi]
      rfl
  | continued =>
    by_cases h0 : 0 < l.content
    · obtain ⟨m, hm⟩ := getElem?_of_lt_content h h0
      simp only [if_pos h0, hm, Mark.xAt]
      rfl
    · simp only [if_neg h0]
      rfl

theorem spanRight_eq {α : Type} (h : l.content ≤ l.marks.length) (span : Span α) :
    spanRight l span = some (l.spanRight span) := by
  unfold spanRight SetLine.spanRight
  cases hstop : span.stopGlyph? l.content with
  | none => rfl
  | some stop =>
    obtain ⟨m, hm⟩ := getElem?_of_lt_content h (stopGlyph?_lt hstop)
    simp only [hm, Option.elim_some, Mark.xAt]
    rfl

theorem selectionBox_eq (h : l.content ≤ l.marks.length) (images : Registry Image)
    (span : Span Selection) : selectionBox l images span = some (l.selectionBox images span) := by
  unfold selectionBox SetLine.selectionBox
  simp only [selectionLeft_eq h, Option.bind_eq_bind, Option.bind_some]
  cases l.selectionLeft? span with
  | none => rfl
  | some left =>
    simp only [spanRight_eq h, Option.bind_some]
    by_cases hbox : l.spanRight span < left ∨ span.data.noBackground
    · simp only [if_pos hbox]
      rfl
    · simp only [if_neg hbox]
      cases span.data.image <;> rfl

theorem cellBorders_eq (h : ∀ t, s.table = some t → ∀ c ∈ t.cells, 1 ≤ c.span) (l : SetLine) :
    cellBorders l s = some (l.cellBorders s) := by
  unfold cellBorders SetLine.cellBorders
  cases ht : s.table with
  | none => rfl
  | some t =>
    by_cases hb : t.border = true
    · simp only [if_pos hb]
      rw [List.map_eq_flatMap]
      refine collect_eq fun c hc => ?_
      rw [extent_eq (h t ht c (List.mem_reverse.1 hc))]
      rfl
    · simp only [if_neg hb]
      rfl

theorem region_eq (h : l.content ≤ l.marks.length) (span : Span Nat) :
    region l span = some (l.region? span) := by
  unfold region SetLine.region?
  simp only [spanRight_eq h, Option.bind_eq_bind, Option.bind_some]
  cases span.start with
  | continued => rfl
  | glyph i =>
    by_cases hlen : l.marks.length ≤ i
    · simp only [if_pos hlen]
      rfl
    · by_cases hi : i < l.content
      · obtain ⟨m, hm⟩ := getElem?_of_lt_content h hi
        simp only [if_neg hlen, if_pos hi, hm, Mark.xAt]
        rfl
      · simp only [if_neg hlen, if_neg hi]
        rfl

/-- Before the glyph at which a rule stops, or at the start of the line, there is one. -/
theorem ruleRight_eq (h : l.content ≤ l.marks.length) (span : Span Rule) :
    ruleRight l span = some (l.ruleRight span) := by
  unfold ruleRight SetLine.ruleRight
  cases hstop : span.stopGlyph? l.content with
  | none => rfl
  | some stop =>
    have hlt := stopGlyph?_lt hstop
    obtain ⟨m, hm⟩ := getElem?_of_lt_content h hlt
    by_cases hgaps : span.data.gaps = true
    · simp only [if_pos hgaps, hm, Mark.xAt]
      rfl
    · have hlast : max stop 1 - 1 < l.content := by omega
      obtain ⟨last, hl⟩ := getElem?_of_lt_content h hlast
      simp only [if_neg hgaps, sub_eq (Nat.le_max_right stop 1), Option.bind_eq_bind,
        Option.bind_some, hl]
      rfl

theorem rule_eq (h : l.content ≤ l.marks.length) (span : Span Rule) :
    rule l span = some (l.rule? span) := by
  unfold rule SetLine.rule?
  cases hfirst : (span.firstGlyph? l.marks.length).filter (· < l.content) with
  | none => rfl
  | some first =>
    have hlt : first < l.content := of_decide_eq_true (Option.filter_eq_some_iff.1 hfirst).2
    obtain ⟨m, hm⟩ := getElem?_of_lt_content h hlt
    simp only [hm, ruleRight_eq h, Option.bind_eq_bind, Option.bind_some, Option.pure_def]

theorem line_eq (h : l.content ≤ l.marks.length)
    (htable : ∀ t, s.table = some t → ∀ c ∈ t.cells, 1 ≤ c.span) (images : Registry Image) :
    line l s images = some (l.line s images) := by
  unfold line
  rw [cellBorders_eq htable l, collect_eq fun span _ => selectionBox_eq h images span,
    collect_toList_eq fun span _ => region_eq h span,
    collect_toList_eq fun span _ => rule_eq h span,
    collect_toList_eq fun span _ => rule_eq h span]
  rfl

end Lines

end RichText.Checked
