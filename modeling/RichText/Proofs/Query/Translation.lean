/-
  RichText/Proofs/Query/Translation.lean
  ======================================
  **A layout at another place of the page.**

  Where a layout begins has no bearing on anything but where its items stand: the layout
  at another origin is the same one displaced (`Job.layoutWith_translate`).  A traversal of
  the one layout then goes as a traversal of the other does that takes displaced items in
  the same way (`Traversal.Follows`), and each query has such a partner.  So a point is hit,
  a position located and a text measured at any origin as they are at that of the page
  (`Printer.layout_translated`).
-/
import RichText.Proofs.Layout.Displaced
import RichText.Query

namespace RichText

/-! ### Layouts -/

/-- From one point to another, at the same place of the text. -/
def Displacement.between (p q : Point) : Displacement := ⟨q.x - p.x, q.y - p.y, 0⟩

namespace Job

variable (printer : Printer) (p q : Point) (width : Int)

theorem displace_between :
    (Job.mk printer p width).displace (.between p q) q.y = ⟨printer, q, width⟩ := by
  have hx : p.x + (q.x - p.x) = q.x := by omega
  simp only [displace, Displacement.between, hx]

/-- At the first token, too, the layouts are a displacement apart. -/
theorem initial_between (font : Font) :
    (LayoutState.initial ⟨printer, p, width⟩ font).displace (.between p q) #[] =
      LayoutState.initial ⟨printer, q, width⟩ font := by
  have hx : p.x + (q.x - p.x) = q.x := by omega
  have hy : p.y + (q.y - p.y) = q.y := by omega
  simp only [LayoutState.displace, LayoutState.initial, Displacement.between, hx, hy,
    Array.map_empty, Array.append_empty, Option.map_none]

/-- The layout at another origin is the same one, displaced. -/
theorem layoutWith_translate (font : Font) (cs : List Nat) :
    (Job.mk printer q width).layoutWith font cs =
      ((Job.mk printer p width).layoutWith font cs).map (Line.displace (.between p q)) := by
  have hrun := LayoutState.run_displace (.between p q) q.y #[] ⟨printer, p, width⟩
    (LayoutState.initial ⟨printer, p, width⟩ font) (lexemes cs)
  have hfinish := LayoutState.finish_displace (.between p q) q.y #[] ⟨printer, p, width⟩
    ((LayoutState.initial ⟨printer, p, width⟩ font).run ⟨printer, p, width⟩ (lexemes cs)) cs.length
  have hlater : (Displacement.between p q).later = 0 := rfl
  have hsame : (lexemes cs).map (Lexeme.reindex (· + 0)) = lexemes cs := List.map_id _
  rw [displace_between, initial_between, hlater, hsame] at hrun
  rw [displace_between, ← hrun, hlater, Nat.add_zero] at hfinish
  exact hfinish

end Job

/-! ### Traversals -/

/-- A line with other items and regions in place of its own. -/
def Line.map (g : Item → Item) (r : Region → Region) (l : Line) : Line :=
  ⟨l.boxes.map g, l.glyphs.map g, l.regions.map r, l.rules.map g⟩

theorem Line.map_id (l : Line) : l.map id id = l := by
  simp only [map, List.map_id]

def Flow.map {σ τ : Type} (f : σ → τ) : Flow σ → Flow τ
  | .more s => .more (f s)
  | .done s => .done (f s)

namespace Traversal

variable {σ τ : Type} {g : Item → Item} {f : σ → τ} {t : Traversal σ} {u : Traversal τ}

/-- At the items that `g` gives `u` does what `t` does at those given to it, where `f` takes
    the states of `t` to those of `u`. -/
def Follows (g : Item → Item) (f : σ → τ) (t : Traversal σ) (u : Traversal τ) : Prop :=
  ∀ s i, u (f s) (g i) = (t s i).map f

theorem items_map (h : Follows g f t u) (s : σ) (is : List Item) :
    u.items (f s) (is.map g) = (t.items s is).map f := by
  induction is generalizing s with
  | nil => rfl
  | cons i is ih =>
    rw [List.map_cons, items, items, h s i]
    cases t s i with
    | more s => exact ih s
    | done s => rfl

/-- Both traversals stop at the same place, if they do. -/
theorem lines_map (h : Follows g f t u) (r : Region → Region) (s : σ) (ls : List Line) :
    u.lines (f s) (ls.map (Line.map g r)) = (f (t.lines s ls).1, (t.lines s ls).2.map r) := by
  induction ls generalizing s with
  | nil => rfl
  | cons l ls ih =>
    have hfirst : (l.map g r).boxes ++ (l.map g r).glyphs = (l.boxes ++ l.glyphs).map g :=
      (List.map_append ..).symm
    have hrules : (l.map g r).rules = l.rules.map g := rfl
    have hregions : (l.map g r).regions = l.regions.map r := rfl
    simp only [List.map_cons, lines, hfirst, hrules, hregions, items_map h]
    cases t.items s (l.boxes ++ l.glyphs) with
    | done s => rfl
    | more s =>
      simp only [Flow.map, items_map h]
      cases t.items s l.rules with
      | done s => rfl
      | more s => simp only [ih, List.map_append]

end Traversal

namespace Printer

variable {σ τ : Type} {f : σ → τ} {t : Traversal σ} {u : Traversal τ}

/-- A query at another origin gives what its partner does at the first one. -/
theorem query_translate (printer : Printer) (markup : List UInt8) (p q : Point) (width : Int)
    (h : t.Follows (Item.displace (.between p q)) f u) (s : σ) :
    printer.query markup q width u (f s) = (printer.query markup p width t s).map
      fun (s, regions) => (f s, regions.map (Region.displace (.between p q))) := by
  simp only [query, Job.layout]
  cases printer.fonts.get? printer.defaultFont with
  | none => rfl
  | some font =>
    have hlayout := Job.layoutWith_translate printer p q width font (Codec.decode markup)
    simp only [hlayout]
    exact congrArg Except.ok (Traversal.lines_map h _ s _)

/-- A query of the same layout. -/
theorem query_follow (printer : Printer) (markup : List UInt8) (origin : Point) (width : Int)
    (h : t.Follows id f u) (s : σ) :
    printer.query markup origin width u (f s) =
      (printer.query markup origin width t s).map fun (s, regions) => (f s, regions) := by
  have hmap : Line.map id id = id := funext Line.map_id
  simp only [query]
  cases (Job.mk printer origin width).layout markup with
  | error e => rfl
  | ok ls =>
    have hlines := Traversal.lines_map h id s ls
    rw [hmap, List.map_id, List.map_id] at hlines
    exact congrArg Except.ok hlines

end Printer

/-! ### The queries -/

namespace Query

/-- The items that a drawing comes to, the last one first: those before the first glyph of a
    line that starts below the visible part of the surface. -/
def drawn (visibleBottom : Option Int) : Traversal (List Item) := fun items item =>
  let below :=
    match item with
    | .glyph g => visibleBottom.any (· < g.lineTop)
    | _ => false
  if below then .done items else .more (item :: items)

variable (p q : Point)

theorem record_follows (stopAfter : Option Nat) :
    Traversal.Follows (Item.displace (.between p q))
      (fun s => (s.1.map (Item.displace (.between p q)), s.2))
      (record stopAfter) (record stopAfter) := by
  rintro ⟨items, n⟩ item
  cases item with
  | glyph g =>
    simp only [record, Item.displace]
    split <;> rfl
  | _ => rfl

theorem drawn_follows (visibleBottom : Option Int) :
    Traversal.Follows (Item.displace (.between p q)) (List.map (Item.displace (.between p q)))
      (drawn visibleBottom) (drawn (visibleBottom.map (· + (q.y - p.y)))) := by
  intro items item
  cases item with
  | glyph g =>
    have hbelow : (visibleBottom.map (· + (q.y - p.y))).any (· < g.lineTop + (q.y - p.y)) =
        visibleBottom.any (· < g.lineTop) := by
      cases visibleBottom with
      | none => rfl
      | some bottom =>
        simp only [Option.map_some, Option.any_some, decide_eq_decide]
        omega
    simp only [drawn, Item.displace, Glyph.displace, Displacement.between, hbelow]
    split <;> rfl
  | _ => rfl

theorem hit_follows (point : Point) :
    Traversal.Follows (Item.displace (.between p q))
      (fun h => { h with lineTop := h.lineTop.map (· + (q.y - p.y)) })
      (hit point) (hit (point.displace (.between p q))) := by
  rintro ⟨index, lineTop⟩ item
  cases item with
  | glyph g =>
    have hbelow : g.lineBottom + (q.y - p.y) ≤ point.y + (q.y - p.y) ↔ g.lineBottom ≤ point.y := by
      omega
    have hother : (lineTop.map (· + (q.y - p.y))).any (· != g.lineTop + (q.y - p.y)) =
        lineTop.any (· != g.lineTop) := by
      cases lineTop with
      | none => rfl
      | some top =>
        rw [Option.map_some, Option.any_some, Option.any_some, Bool.eq_iff_iff, bne_iff_ne,
          bne_iff_ne]
        omega
    have hmiddle : point.x + (q.x - p.x) < g.location.x + (q.x - p.x) + g.advance.tdiv 2 ↔
        point.x < g.location.x + g.advance.tdiv 2 := by omega
    simp only [hit, Item.displace, Glyph.displace, Point.displace, Displacement.between, hbelow,
      hother, hmiddle, Nat.add_zero]
    split
    · rfl
    split
    · rfl
    split <;> rfl
  | _ => rfl

theorem locate_follows (target : Nat) :
    Traversal.Follows (Item.displace (.between p q)) (Option.map (Rect.displace (.between p q)))
      (locate target) (locate target) := by
  intro r item
  cases item with
  | glyph g =>
    have hright : g.location.x + (q.x - p.x) + g.advance = g.location.x + g.advance + (q.x - p.x) := by
      omega
    simp only [locate, Item.displace, Glyph.displace, Point.displace, Displacement.between,
      Nat.add_zero, hright]
    split <;> rfl
  | _ => rfl

theorem measure_follows :
    Traversal.Follows (Item.displace (.between p q))
      (fun s => ⟨s.width + (q.x - p.x), s.height + (q.y - p.y)⟩)
      measure measure := by
  rintro ⟨width, height⟩ item
  cases item with
  | glyph g =>
    have hright : g.location.x + (q.x - p.x) + g.advance = g.location.x + g.advance + (q.x - p.x) := by
      omega
    simp only [measure, Item.displace, Glyph.displace, Point.displace, Displacement.between, hright,
      Int.max_add_right, Flow.map]
    split <;> rfl
  | image index i bounds tint fit =>
    simp only [measure, Item.displace, Rect.displace, Displacement.between, Int.max_add_right,
      Flow.map]
  | _ => rfl

/-- A drawing draws the items that it comes to, one after another. -/
theorem draw_follows (fonts : Registry Font) (visibleBottom : Option Int) :
    Traversal.Follows id (List.flatMap fun i => (drawOps fonts i).reverse) (drawn visibleBottom)
      (draw fonts visibleBottom) := by
  intro items item
  cases item with
  | glyph g =>
    simp only [draw, drawn, id]
    split <;> rfl
  | _ => rfl

end Query

namespace Printer

variable (printer : Printer) (markup : List UInt8) (p q : Point) (width : Int)

theorem draw_eq (visibleBottom : Option Int) :
    printer.draw markup p width visibleBottom =
      (printer.query markup p width (Query.drawn visibleBottom) []).map
        fun (items, regions) => (items.reverse.flatMap (Query.drawOps printer.fonts), regions) := by
  have hquery := query_follow printer markup p width
    (Query.draw_follows printer.fonts visibleBottom) []
  rw [List.flatMap_nil] at hquery
  rw [draw, hquery]
  cases printer.query markup p width (Query.drawn visibleBottom) [] with
  | error e => rfl
  | ok result =>
    have hreverse : (result.1.flatMap fun i => (Query.drawOps printer.fonts i).reverse).reverse =
        result.1.reverse.flatMap (Query.drawOps printer.fonts) := by
      rw [List.reverse_flatMap]
      simp only [Function.comp_def, List.reverse_reverse]
    simp only [Except.map, hreverse]

/-- **A layout at another origin is the same one, moved there.**  Whatever the markup, and
    wherever the layout is stopped, its items and regions are those at the first origin,
    each displaced; a drawing comes to the same items.  So the queries, which lay out at the
    origin of the page, tell of a layout at any other one: a point is hit there, a position
    located and the text measured as they say, seen from that origin. -/
theorem layout_translated :
    (∀ stopAfter, printer.layout markup q width stopAfter =
      (printer.layout markup p width stopAfter).map fun (items, regions) =>
        (items.map (Item.displace (.between p q)),
          regions.map (Region.displace (.between p q)))) ∧
    (∀ visibleBottom,
      printer.draw markup p width visibleBottom =
        (printer.query markup p width (Query.drawn visibleBottom) []).map
          (fun (items, regions) =>
            (items.reverse.flatMap (Query.drawOps printer.fonts), regions)) ∧
      printer.draw markup q width (visibleBottom.map (· + (q.y - p.y))) =
        (printer.query markup p width (Query.drawn visibleBottom) []).map
          fun (items, regions) =>
            ((items.reverse.map (Item.displace (.between p q))).flatMap
                (Query.drawOps printer.fonts),
              regions.map (Region.displace (.between p q)))) ∧
    (∀ point, printer.hitTestWrapped markup width point =
      (printer.query markup q width (Query.hit (point + q)) ⟨0, none⟩).map fun (h, _) => h.index) ∧
    (∀ index, (printer.locateWrapped markup width index).map
        (Option.map fun r : Rect =>
          (⟨r.left + q.x, r.top + q.y, r.right + q.x, r.bottom + q.y⟩ : Rect)) =
      (printer.query markup q width (Query.locate index) none).map Prod.fst) ∧
    (printer.measureWrapped markup width).map
        (fun size => (⟨size.width + q.x, size.height + q.y⟩ : Size)) =
      (printer.query markup q width Query.measure ⟨q.x, q.y⟩).map Prod.fst := by
  have hmap : ∀ {α β γ : Type} (e : Except LayoutError α) (f : α → β) (g : β → γ),
      (e.map f).map g = e.map fun a => g (f a) := by
    intro α β γ e f g
    cases e <;> rfl
  have hzero : Displacement.between .zero q = ⟨q.x, q.y, 0⟩ := by
    simp only [Displacement.between, Point.zero, Int.sub_zero]
  refine ⟨?_, ?_, ?_, ?_, ?_⟩
  · intro stopAfter
    have hquery := query_translate printer markup p q width (Query.record_follows p q stopAfter)
      ([], 0)
    rw [List.map_nil] at hquery
    simp only [layout, hquery, hmap, List.map_reverse]
  · intro visibleBottom
    have hquery := query_translate printer markup p q width (Query.drawn_follows p q visibleBottom)
      []
    rw [List.map_nil] at hquery
    refine ⟨draw_eq printer markup p width visibleBottom, ?_⟩
    simp only [draw_eq, hquery, hmap, List.map_reverse]
  · intro point
    have hquery := query_translate printer markup .zero q width (Query.hit_follows .zero q point)
      ⟨0, none⟩
    have hpoint : point.displace (.between .zero q) = point + q := by
      rw [hzero]
      rfl
    rw [hpoint, Option.map_none] at hquery
    simp only [hitTestWrapped, hquery, hmap]
  · intro index
    have hquery := query_translate printer markup .zero q width (Query.locate_follows .zero q index)
      none
    rw [Option.map_none] at hquery
    simp only [locateWrapped, hquery, hmap, hzero]
    rfl
  · have hquery := query_translate printer markup .zero q width (Query.measure_follows .zero q)
      .zero
    have hsize : (⟨Size.zero.width + (q.x - Point.zero.x), Size.zero.height + (q.y - Point.zero.y)⟩ :
        Size) = ⟨q.x, q.y⟩ := by
      simp only [Size.zero, Point.zero, Int.sub_zero, Int.zero_add]
    rw [hsize] at hquery
    simp only [measureWrapped, hquery, hmap, Point.zero, Int.sub_zero]

end Printer

end RichText
