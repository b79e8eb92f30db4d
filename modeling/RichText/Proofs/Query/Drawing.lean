/-
  RichText/Proofs/Query/Drawing.lean
  ==================================
  **What is drawn of lines below the visible part of a surface.**

  Drawing looks for the end of the visible part at glyphs alone, so that it stops at the first
  glyph of a line that begins below (`Query.items_draw`).  Where no line begins above one that
  comes before it, all lines are drawn that begin above that end or there, and of the others
  what is reported before their first glyph (`Printer.draw_above`).
-/
import RichText.Proofs.Layout.Tops
import RichText.Proofs.Query.Stopping

namespace RichText

namespace Query

variable {fonts : Registry Font} {bottom : Int}

/-- Whether drawing stops at an item. -/
def stopsAt (bottom : Int) : Item → Bool
  | .glyph g => bottom < g.lineTop
  | _ => false

/-- The drawing of some items. -/
def drawing (fonts : Registry Font) (is : List Item) : List DrawOp := is.flatMap (drawOps fonts)

/-- What is reported of some lines before the first glyph. -/
def beforeGlyph (ls : List Line) : List Item :=
  (ls.flatMap Line.items).takeWhile (·.glyph?.isNone)

/-- What comes before the item at which drawing stops is drawn. -/
theorem items_draw (ops : List DrawOp) (is : List Item) :
    ((draw fonts (some bottom)).items ops is).state =
      (drawing fonts (is.takeWhile fun i => !stopsAt bottom i)).reverse ++ ops := by
  induction is generalizing ops with
  | nil => rfl
  | cons i is ih =>
    have hstep : draw fonts (some bottom) ops i =
        if stopsAt bottom i then .done ops else .more ((drawOps fonts i).reverse ++ ops) := by
      cases i <;> rfl
    rw [Traversal.items, hstep, List.takeWhile_cons]
    cases stopsAt bottom i with
    | true => rfl
    | false =>
      simp only [Bool.false_eq_true, if_false, Bool.not_false, if_true]
      rw [ih, drawing, drawing, List.flatMap_cons, List.reverse_append, List.append_assoc]

theorem stopsAt_eq_false {line : Line} {top : Int} (h : line.BeginsAt top) (htop : top ≤ bottom)
    {i : Item} (hi : i ∈ line.items) : stopsAt bottom i = false := by
  cases i with
  | glyph g =>
    have hg : g ∈ line.events := List.mem_filterMap.2 ⟨_, hi, rfl⟩
    rw [stopsAt, h g hg, decide_eq_false (Int.not_lt.2 htop)]
  | _ => rfl

theorem stopsAt_eq_isSome {line : Line} {top : Int} (h : line.BeginsAt top) (htop : bottom < top)
    {i : Item} (hi : i ∈ line.items) : stopsAt bottom i = i.glyph?.isSome := by
  cases i with
  | glyph g =>
    have hg : g ∈ line.events := List.mem_filterMap.2 ⟨_, hi, rfl⟩
    rw [stopsAt, h g hg, decide_eq_true htop]
    rfl
  | _ => rfl

theorem exists_top {ls : List Line} {tops : List Int} (h : List.Forall₂ Line.BeginsAt ls tops)
    {line : Line} (hline : line ∈ ls) : ∃ top ∈ tops, line.BeginsAt top := by
  induction h with
  | nil => cases hline
  | @cons k top ls tops hk _ ih =>
    rcases List.mem_cons.1 hline with rfl | hline
    · exact ⟨top, List.mem_cons_self, hk⟩
    · obtain ⟨y, hy, hbegins⟩ := ih hline
      exact ⟨y, List.mem_cons_of_mem top hy, hbegins⟩

/-- Drawing goes through lines above the end of the visible part, and of those below it only up
    to the first glyph. -/
theorem takeWhile_items {visible below : List Line} {tops lower : List Int}
    (hvisible : List.Forall₂ Line.BeginsAt visible tops) (htops : ∀ y ∈ tops, y ≤ bottom)
    (hbelow : List.Forall₂ Line.BeginsAt below lower) (hlower : ∀ y ∈ lower, bottom < y) :
    ((visible ++ below).flatMap Line.items).takeWhile (fun i => !stopsAt bottom i) =
      visible.flatMap Line.items ++ beforeGlyph below := by
  rw [List.flatMap_append, List.takeWhile_append_of_pos, beforeGlyph]
  · congr 1
    -- On lines below drawing stops at each glyph.
    have hstops : ∀ i ∈ below.flatMap Line.items,
        (!stopsAt bottom i) = i.glyph?.isNone := by
      intro i hi
      obtain ⟨line, hline, hi⟩ := List.mem_flatMap.1 hi
      obtain ⟨y, hy, hbegins⟩ := exists_top hbelow hline
      rw [stopsAt_eq_isSome hbegins (hlower y hy) hi, Option.not_isSome]
    generalize below.flatMap Line.items = is at hstops
    induction is with
    | nil => rfl
    | cons i is ih =>
      rw [List.takeWhile_cons, List.takeWhile_cons, hstops i List.mem_cons_self,
        ih fun j hj => hstops j (List.mem_cons_of_mem i hj)]
  · intro i hi
    obtain ⟨line, hline, hi⟩ := List.mem_flatMap.1 hi
    obtain ⟨y, hy, hbegins⟩ := exists_top hvisible hline
    rw [stopsAt_eq_false hbegins (htops y hy) hi, Bool.not_false]

/-- In an increasing list all that comes after the first number past a bound is past it. -/
theorem lt_of_mem_dropWhile {ys : List Int} (h : ys.Pairwise (· ≤ ·)) {y : Int}
    (hy : y ∈ ys.dropWhile (· ≤ bottom)) : bottom < y := by
  induction ys with
  | nil => cases hy
  | cons z ys ih =>
    rw [List.dropWhile_cons] at hy
    split at hy
    · exact ih (List.pairwise_cons.1 h).2 hy
    · next hz =>
      have hz : bottom < z := by simpa using hz
      rcases List.mem_cons.1 hy with rfl | hy
      · exact hz
      · exact Int.lt_of_lt_of_le hz ((List.pairwise_cons.1 h).1 y hy)

/-- Lines of which none begins above one before it are divided by the visible bottom. -/
theorem exists_split {ls : List Line} {tops : List Int} (h : List.Forall₂ Line.BeginsAt ls tops)
    (hsorted : tops.Pairwise (· ≤ ·)) (bottom : Int) :
    ∃ visible below upper lower, ls = visible ++ below ∧ tops = upper ++ lower ∧
      List.Forall₂ Line.BeginsAt visible upper ∧ List.Forall₂ Line.BeginsAt below lower ∧
      (∀ y ∈ upper, y ≤ bottom) ∧ ∀ y ∈ lower, bottom < y := by
  have htops := (List.takeWhile_append_dropWhile (p := fun y => decide (y ≤ bottom))
    (l := tops)).symm
  have happend := htops ▸ h
  refine ⟨_, _, _, _, (List.take_append_drop _ ls).symm, htops,
    List.forall₂_take_append _ _ _ happend, List.forall₂_drop_append _ _ _ happend, ?_, ?_⟩
  · intro y hy
    exact of_decide_eq_true (List.all_eq_true.1 List.all_takeWhile y hy)
  · intro y hy
    exact lt_of_mem_dropWhile hsorted hy

end Query

open Query LayoutState in
/-- **What is drawn on a surface with a visible bottom.**  Without negative spacing no line
    begins above one that comes before it.  Then the drawing is that of the lines that begin at
    the visible bottom or above it, and behind that the drawing of what is reported of the other
    lines before their first glyph. -/
theorem Printer.draw_above {p : Printer} {font : Font}
    (hfont : p.fonts.get? p.defaultFont = some font) (markup : List UInt8) (origin : Point)
    (width bottom : Int) :
    let job : Job := ⟨p, origin, width⟩
    let tops := job.tops font (Codec.decode markup)
    ∃ lines ops regions, job.layout markup = .ok lines ∧ List.Forall₂ Line.BeginsAt lines tops ∧
      p.draw markup origin width (some bottom) = .ok (ops, regions) ∧
      (p.Descends → (∀ l ∈ lexemes (Codec.decode markup), l.token.descends = true) →
        tops.Pairwise (· ≤ ·)) ∧
      (tops.Pairwise (· ≤ ·) → ∃ visible below upper lower, lines = visible ++ below ∧
        tops = upper ++ lower ∧ visible.length = upper.length ∧ (∀ y ∈ upper, y ≤ bottom) ∧
        (∀ y ∈ lower, bottom < y) ∧
        ops = drawing p.fonts (visible.flatMap Line.items) ++
          drawing p.fonts (beforeGlyph below)) := by
  intro job tops
  have hlayout : job.layout markup = .ok (job.layoutWith font (Codec.decode markup)) :=
    Job.layout_eq hfont markup
  have htops : List.Forall₂ Line.BeginsAt (job.layoutWith font (Codec.decode markup)) tops :=
    tops_layout job font (Codec.decode markup)
  have hdraw : p.draw markup origin width (some bottom) = .ok
      (((Query.draw p.fonts (some bottom)).lines []
        (job.layoutWith font (Codec.decode markup))).1.reverse,
      ((Query.draw p.fonts (some bottom)).lines []
        (job.layoutWith font (Codec.decode markup))).2) := by
    simp only [Printer.draw, Printer.query]
    rw [hlayout]
    rfl
  refine ⟨_, _, _, hlayout, htops, hdraw, fun hp htokens => pairwise_tops hfont hp htokens, ?_⟩
  intro hsorted
  obtain ⟨visible, below, upper, lower, hlines, hsplit, hvisible, hbelow, hupper, hlower⟩ :=
    exists_split htops hsorted bottom
  have hitems := takeWhile_items hvisible hupper hbelow hlower
  refine ⟨visible, below, upper, lower, hlines, hsplit, hvisible.length_eq, hupper, hlower, ?_⟩
  rw [Traversal.lines_state, items_draw, hlines, hitems, List.append_nil, List.reverse_reverse,
    drawing, drawing, drawing, List.flatMap_append]

/-- The bytes of two lines with borders. -/
def Printer.borderedLines : List UInt8 := [0xC2, 0x9A, 0x02, 0x61, 0x0A, 0x62]

/-- The border of the second line is drawn, which begins below the visible bottom. -/
theorem Printer.border_below :
    ∃ lines ops regions border, (Job.mk boxes .zero 0).layout borderedLines = .ok lines ∧
      (∀ l ∈ lexemes (Codec.decode borderedLines), l.token.descends = true) ∧
      lines.map (fun l => (l.events.map (·.lineTop), l.boxes.flatMap (Query.drawOps boxes.fonts))) =
        [([0, 0], [.border ⟨0, 0, 10, 20⟩ 1 .black]), ([20, 20], border)] ∧
      border ≠ [] ∧ boxes.draw borderedLines .zero 0 (some 15) = .ok (ops, regions) ∧
      ops = [.border ⟨0, 0, 10, 20⟩ 1 .black, .fill ⟨0, 4, 10, 16⟩ .black] ++ border := by
  refine ⟨_, _, _, [.border ⟨0, 20, 10, 40⟩ 1 .black], rfl, by decide, ?_, by decide, rfl, ?_⟩
  · decide +kernel
  · decide +kernel

theorem Printer.descends_boxes : boxes.Descends where
  fonts := by
    intro id font hfont
    rcases font_of_boxes hfont with rfl | rfl <;> exact ⟨by decide, by decide, by decide⟩
  images := by
    intro id image himage
    simp only [boxes, empty, Registry.get?_empty] at himage
    cases himage

/-- Of two lines without boxes only the first one is drawn. -/
theorem Printer.draw_above_boxes :
    ∃ visible below ops regions,
      (Job.mk boxes .zero 0).layout [0x61, 0x0A, 0x62] = .ok (visible ++ below) ∧
      visible.length = 1 ∧ boxes.draw [0x61, 0x0A, 0x62] .zero 0 (some 15) = .ok (ops, regions) ∧
      ops = Query.drawing boxes.fonts (visible.flatMap Line.items) ++
        Query.drawing boxes.fonts (Query.beforeGlyph below) := by
  obtain ⟨lines, ops, regions, hlayout, -, hdraw, hsorted, habove⟩ :=
    draw_above (p := boxes) rfl [0x61, 0x0A, 0x62] .zero 0 15
  obtain ⟨visible, below, upper, lower, rfl, htops, hlength, hupper, hlower, hops⟩ :=
    habove (hsorted descends_boxes (by decide))
  refine ⟨visible, below, ops, regions, hlayout, ?_, hdraw, hops⟩
  have hpair : upper ++ lower = [0, 20] := htops.symm.trans (by decide +kernel)
  rw [hlength]
  rcases upper with _ | ⟨x, _ | ⟨y, upper⟩⟩
  · rw [List.nil_append] at hpair
    exact absurd (hlower 0 (hpair ▸ List.mem_cons_self)) (by decide)
  · rfl
  · obtain ⟨-, hpair⟩ := List.cons_eq_cons.1 hpair
    obtain ⟨rfl, -⟩ := List.cons_eq_cons.1 hpair
    exact absurd (hupper 20 (List.mem_cons_of_mem x List.mem_cons_self)) (by decide)

end RichText
