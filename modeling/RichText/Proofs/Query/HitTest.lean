/-
  RichText/Proofs/Query/HitTest.lean
  ==================================
  **A point on the cell of a glyph hits the glyph.**

  In printable text every code point has a glyph of its own (`indices_layout`), and the
  glyphs follow one another row by row (`LayoutState.rows_layout`).  So the search for a
  position stops at the glyph that stands there (`Query.items_locate`), and the search for a
  point passes by the glyphs before that one (`Query.items_hit_before`) and stops there or at
  the next (`Query.items_hit_after`).  `Printer.hit_test_inverts_locate` puts the two together.
-/
import RichText.Proofs.Layout.Rows
import RichText.Proofs.Query.Stopping

namespace RichText

/-! ### Printable text -/

namespace CodePoint

/-- The control codes below the space, the delete code, and those above it. -/
def IsControl (c : Nat) : Prop := c < 0x20 ∨ 0x7F ≤ c ∧ c < 0xA0

/-- Code points that are set as they are: no control codes but the line feed and the tab, no
    combining marks, no placeholder and no noncharacter. All instructions are control codes. -/
def IsPrintable (c : Nat) : Prop :=
  (¬ IsControl c ∨ c = lineFeed ∨ c = tab) ∧ c ≠ placeholder ∧ c ≠ noncharacter ∧
    isSpaced c = true

instance (c : Nat) : Decidable (IsControl c) := inferInstanceAs (Decidable (_ ∨ _))

instance (c : Nat) : Decidable (IsPrintable c) := inferInstanceAs (Decidable (_ ∧ _))

theorem IsPrintable.not_special {c : Nat} (h : IsPrintable c) : c ∉ Token.special := by
  have hspecial : ∀ d ∈ Token.special, ¬ IsPrintable d := by decide
  intro hc
  exact hspecial c hc h

theorem IsPrintable.not_toggle {c : Nat} (h : IsPrintable c) : Toggle.ofCode? c = none := by
  have htoggles : ∀ t ∈ Toggle.all, ¬ IsPrintable t.code := by decide
  cases htoggle : Toggle.ofCode? c with
  | none => rfl
  | some t =>
    rw [Toggle.ofCode?_eq_some_iff.1 htoggle] at h
    exact absurd h (htoggles t (Toggle.mem_all t))

/-- A printable code point is a token of its own. -/
theorem IsPrintable.read {c : Nat} (h : IsPrintable c) (rest : List Nat) :
    Token.read c rest = (if isNewline c then .newline c else .text c, 0) := by
  rw [Token.read_of_not_special h.not_special, Token.single, h.not_toggle]

end CodePoint

open CodePoint (IsPrintable)

variable {cs : List Nat}

theorem prose_of_printable (h : ∀ c ∈ cs, IsPrintable c) : Prose (lexemes cs) := by
  intro l hl
  obtain ⟨c, rest, hdrop, htoken⟩ := exists_of_mem_lexemes hl
  have hc : IsPrintable c := by
    apply h
    apply List.mem_of_mem_drop
    rw [hdrop]
    exact List.mem_cons_self
  rw [hc.read] at htoken
  refine ⟨c, ?_⟩
  rw [htoken]
  dsimp only
  split
  · exact Or.inl rfl
  · exact Or.inr ⟨rfl, hc.2.2.2⟩

theorem indices_lexemesFrom (h : ∀ c ∈ cs, IsPrintable c) (index : Nat) :
    (lexemesFrom 0 index cs).map (·.index) = List.range' index cs.length := by
  induction cs generalizing index with
  | nil => rfl
  | cons c cs ih =>
    have hrest := ih (fun d hd => h d (List.mem_cons_of_mem c hd)) (index + 1)
    rw [lexemesFrom, (h c List.mem_cons_self).read, List.map_cons, hrest]
    rfl

theorem indices_signs {ls : List Lexeme} (h : Prose ls) (images : Registry Image) :
    (ls.flatMap (Lexeme.signs images)).map (·.index) = ls.map (·.index) := by
  induction ls with
  | nil => rfl
  | cons l ls ih =>
    have hrest := ih fun k hk => h k (List.mem_cons_of_mem l hk)
    have hl : (l.signs images).map (·.index) = [l.index] := by
      obtain ⟨c, hc⟩ := h l List.mem_cons_self
      obtain ⟨index, token⟩ := l
      rcases hc with rfl | ⟨rfl, -⟩
      · rfl
      · rfl
    rw [List.flatMap_cons, List.map_append, hl, hrest]
    rfl

/-- Each code point of a printable text has a glyph, and so has the end of the text. -/
theorem indices_layout (h : ∀ c ∈ cs, IsPrintable c) (job : Job) (font : Font) :
    (events (job.layoutWith font cs)).map (·.index) = List.range (cs.length + 1) := by
  have haccounted := LayoutState.accounted_run job font cs
  obtain ⟨before, last, hevents, hreports, -, -, hlast⟩ :=
    LayoutState.finish_events job haccounted cs.length
  have hsigns : (signsOf job.printer.images cs).map (·.index) = List.range cs.length := by
    rw [signsOf, indices_signs (prose_of_printable h), lexemes, indices_lexemesFrom h,
      List.range_eq_range']
  change (events (((LayoutState.initial job font).run job (lexemes cs)).finish job
    cs.length)).map _ = _
  rw [hevents, List.map_append, indices_of_reports hreports, hsigns, List.map_singleton, hlast,
    List.range_succ]

/-- Where the positions are those from zero on, each glyph has its own as its place. -/
theorem index_of_getElem? {gs : List Glyph} {n : Nat} (h : gs.map (·.index) = List.range n)
    {i : Nat} {g : Glyph} (hg : gs[i]? = some g) : g.index = i := by
  have hindex : (gs.map (·.index))[i]? = some g.index := by
    rw [List.getElem?_map, hg]
    rfl
  rw [h] at hindex
  obtain ⟨hlt, hi⟩ := List.getElem?_eq_some_iff.1 hindex
  rw [← hi, List.getElem_range]

theorem index_of_append {before after : List Glyph} {g : Glyph} {n : Nat}
    (h : (before ++ g :: after).map (·.index) = List.range n) :
    g.index = before.length ∧ ∀ k ∈ before, k.index < g.index := by
  have hplace : g.index = before.length := by
    apply index_of_getElem? h
    rw [List.getElem?_append_right (Nat.le_refl _), Nat.sub_self]
    rfl
  refine ⟨hplace, ?_⟩
  intro k hk
  obtain ⟨i, hi⟩ := List.mem_iff_getElem?.1 hk
  obtain ⟨hlt, -⟩ := List.getElem?_eq_some_iff.1 hi
  have hindex : k.index = i := by
    apply index_of_getElem? h
    rw [List.getElem?_append_left hlt]
    exact hi
  omega

/-! ### Traversals of glyphs -/

namespace Traversal

variable {σ : Type} {t : Traversal σ}

/-- The traversal passes by all items but the glyphs. -/
def GlyphsOnly (t : Traversal σ) : Prop := ∀ s i, i.glyph? = none → t s i = .more s

theorem items_glyphs (ht : t.GlyphsOnly) (s : σ) (is : List Item) :
    t.items s is = t.items s ((is.filterMap Item.glyph?).map Item.glyph) := by
  induction is generalizing s with
  | nil => rfl
  | cons i is ih =>
    cases i with
    | glyph g =>
      have hsome : (Item.glyph g).glyph? = some g := rfl
      rw [List.filterMap_cons_some hsome, List.map_cons, items, items]
      cases t s (.glyph g) with
      | more s => exact ih s
      | done s => rfl
    | box bounds background border color =>
      rw [List.filterMap_cons_none rfl, ← ih, items, ht s _ rfl]
    | rule left right y thickness color =>
      rw [List.filterMap_cons_none rfl, ← ih, items, ht s _ rfl]
    | image index image bounds tint fit =>
      rw [List.filterMap_cons_none rfl, ← ih, items, ht s _ rfl]

/-- Of lines such a traversal sees the glyphs that are reported of them. -/
theorem lines_glyphs (ht : t.GlyphsOnly) (s : σ) (ls : List Line) :
    (t.lines s ls).1 = (t.items s ((events ls).map Item.glyph)).state := by
  rw [lines_state, items_glyphs ht, List.filterMap_flatMap]
  rfl

end Traversal

namespace Glyph

/-- The cell of a glyph, as high as its line. -/
def cell (g : Glyph) : Rect :=
  ⟨g.location.x, g.lineTop, g.location.x + g.advance, g.lineBottom⟩

/-- The place from which on a point counts as behind the glyph. -/
def middle (g : Glyph) : Int := g.location.x + g.advance.tdiv 2

/-- Among the glyphs of a layout this is the last one of the content of its line: the next
    one is the end of a line, or has been left over, or stands on another line. -/
def EndsContent (gs : List Glyph) (g : Glyph) : Prop :=
  g.lineEnd = false ∧ ∃ k ∈ gs, k.index = g.index + 1 ∧
    (k.lineEnd = true ∨ k.wrapped = true ∨ k.lineTop ≠ g.lineTop)

instance (gs : List Glyph) (g : Glyph) : Decidable (g.EndsContent gs) :=
  inferInstanceAs (Decidable (_ ∧ _))

/-- A glyph that a point has passed: its line is above the point, or its middle is to the left
    on the line that starts at `top`. -/
inductive PassedBy (p : Point) (top : Int) (g : Glyph) : Prop
  | above (h : g.lineBottom ≤ p.y)
  | left (line : g.lineTop = top) (height : p.y < g.lineBottom) (inside : g.lineEnd = false)
      (set : g.wrapped = false) (middle : g.middle ≤ p.x)

theorem middle_le_right {g : Glyph} (h : 0 ≤ g.advance) : g.middle ≤ g.location.x + g.advance := by
  rw [middle, Int.tdiv_eq_ediv_of_nonneg h]
  omega

theorem left_le_middle {g : Glyph} (h : 0 ≤ g.advance) : g.location.x ≤ g.middle := by
  rw [middle, Int.tdiv_eq_ediv_of_nonneg h]
  omega

/-- On its line a glyph lets the points on its cell pass by the glyphs before it. -/
theorem Precedes.passedBy {g k : Glyph} (h : g.Precedes k) (hset : k.wrapped = false)
    (hadvance : 0 ≤ g.advance) {p : Point} (htop : k.lineTop ≤ p.y) (hbottom : p.y < k.lineBottom)
    (hleft : k.location.x ≤ p.x) : g.PassedBy p k.lineTop := by
  cases h with
  | above h =>
    apply PassedBy.above
    omega
  | beside top bottom inside wrapped apart =>
    have hmiddle := middle_le_right hadvance
    have hapart := apart hset
    refine .left top.symm (bottom ▸ hbottom) inside ?_ (by omega)
    cases hwrapped : g.wrapped with
    | false => rfl
    | true => exact absurd (wrapped hwrapped) (hset ▸ Bool.false_ne_true)

end Glyph

namespace Query

/-! ### The search for a position -/

theorem glyphsOnly_locate (target : Nat) : (locate target).GlyphsOnly := by
  intro r i hi
  cases i with
  | glyph g => cases hi
  | _ => rfl

/-- The search stops at the first glyph that has the position. -/
theorem items_locate {before after : List Glyph} {g : Glyph}
    (h : ∀ k ∈ before, k.index < g.index) (r : Option Rect) :
    (locate g.index).items r ((before ++ g :: after).map Item.glyph) = .done (some g.cell) := by
  induction before generalizing r with
  | nil =>
    have hstop : locate g.index r (.glyph g) = .done (some g.cell) :=
      if_neg (Nat.lt_irrefl g.index)
    rw [List.nil_append, List.map_cons, Traversal.items, hstop]
  | cons k before ih =>
    have hmore : locate g.index r (.glyph k) = .more r := if_pos (h k List.mem_cons_self)
    rw [List.cons_append, List.map_cons, Traversal.items, hmore]
    exact ih (fun j hj => h j (List.mem_cons_of_mem k hj)) r

/-! ### The search for a point -/

variable {p : Point} {s : Hit} {g : Glyph} {top : Int}

theorem glyphsOnly_hit (p : Point) : (hit p).GlyphsOnly := by
  intro s i hi
  cases i with
  | glyph g => cases hi
  | _ => rfl

/-- No other line has been found than the one that starts at `top`. -/
def Hit.Within (top : Int) (s : Hit) : Prop := s.lineTop = none ∨ s.lineTop = some top

theorem Hit.Within.any (hs : s.Within top) : s.lineTop.any (· != top) = false := by
  rcases hs with hs | hs
  · rw [hs]
    rfl
  · rw [hs, Option.any_some, bne_self_eq_false]

theorem hit_stops (hs : s.Within g.lineTop) (hheight : p.y < g.lineBottom)
    (hstop : g.lineEnd = true ∨ g.wrapped = true ∨ p.x < g.middle) :
    hit p s (.glyph g) = .done ⟨g.index, some g.lineTop⟩ := by
  have hcond :
      (g.lineEnd || g.wrapped || decide (p.x < g.location.x + g.advance.tdiv 2)) = true := by
    rw [Bool.or_eq_true, Bool.or_eq_true, decide_eq_true_iff]
    rcases hstop with hstop | hstop | hstop
    · exact Or.inl (Or.inl hstop)
    · exact Or.inl (Or.inr hstop)
    · exact Or.inr hstop
  simp only [hit, if_neg (Int.not_le.2 hheight), hs.any, hcond, Bool.false_eq_true, if_false,
    if_true]

theorem hit_continues (hs : s.Within g.lineTop) (hheight : p.y < g.lineBottom)
    (hinside : g.lineEnd = false) (hset : g.wrapped = false) (hmiddle : g.middle ≤ p.x) :
    hit p s (.glyph g) = .more ⟨g.index + 1, some g.lineTop⟩ := by
  have hcond : (g.lineEnd || g.wrapped || decide (p.x < g.location.x + g.advance.tdiv 2)) =
      false := by
    rw [hinside, hset, Bool.false_or, Bool.false_or]
    exact decide_eq_false (Int.not_lt.2 hmiddle)
  simp only [hit, if_neg (Int.not_le.2 hheight), hs.any, hcond, Bool.false_eq_true, if_false]

theorem hit_passes (hs : s.Within top) (h : g.PassedBy p top) :
    ∃ s' : Hit, s'.Within top ∧ hit p s (.glyph g) = .more s' := by
  cases h with
  | above h =>
    exact ⟨{ s with index := if g.lineEnd then g.index else g.index + 1 }, hs, if_pos h⟩
  | left line height inside set middle =>
    subst line
    exact ⟨_, Or.inr rfl, hit_continues hs height inside set middle⟩

theorem items_hit_before {before : List Glyph} (h : ∀ k ∈ before, k.PassedBy p top)
    (hs : s.Within top) (rest : List Glyph) :
    ∃ s' : Hit, s'.Within top ∧
      (hit p).items s ((before ++ rest).map Item.glyph) =
        (hit p).items s' (rest.map Item.glyph) := by
  induction before generalizing s with
  | nil => exact ⟨s, hs, rfl⟩
  | cons k before ih =>
    obtain ⟨s', hs', hmore⟩ := hit_passes hs (h k List.mem_cons_self)
    rw [List.cons_append, List.map_cons, Traversal.items, hmore]
    exact ih (fun j hj => h j (List.mem_cons_of_mem k hj)) hs'

/-- Behind the middle of a glyph the search stops at the next one, whether that is on another
    line, ends this one or begins behind the point. -/
theorem items_hit_after {after : List Glyph} (hheight : p.y < g.lineBottom)
    (h : ∀ k ∈ after.head?, k.index = g.index + 1 ∧ k.Upright ∧ g.Precedes k ∧
      (k.lineTop = g.lineTop → k.lineEnd = true ∨ k.wrapped = true ∨ p.x < k.middle))
    (htop : g.lineTop ≤ p.y) :
    ((hit p).items ⟨g.index + 1, some g.lineTop⟩ (after.map Item.glyph)).state.index =
      g.index + 1 := by
  cases after with
  | nil => rfl
  | cons k after =>
    obtain ⟨hindex, hupright, hprecedes, hstop⟩ := h k rfl
    rw [List.map_cons, Traversal.items]
    cases hprecedes with
    | above habove =>
      have hkheight : p.y < k.lineBottom := by
        have hk := hupright.height
        omega
      have hother : (some g.lineTop).any (· != k.lineTop) = true := by
        rw [Option.any_some, bne_iff_ne]
        omega
      have hdone : hit p ⟨g.index + 1, some g.lineTop⟩ (.glyph k) =
          .done ⟨g.index + 1, some g.lineTop⟩ := by
        simp only [hit, if_neg (Int.not_le.2 hkheight), hother, if_true]
      rw [hdone]
      rfl
    | beside top bottom inside wrapped apart =>
      have hdone : hit p ⟨g.index + 1, some g.lineTop⟩ (.glyph k) =
          .done ⟨k.index, some k.lineTop⟩ := by
        refine hit_stops (Or.inr ?_) (bottom ▸ hheight) (hstop top)
        rw [top]
      rw [hdone]
      exact hindex

/-- Where a point on the line of a glyph, not to the left of it, is found: at the glyph, if it
    is before the middle, and else behind it, if the next glyph does not begin before the
    point. -/
theorem index_of_hit {gs : List Glyph} {n : Nat} (hchain : gs.IsChain Glyph.Precedes)
    (hupright : ∀ g ∈ gs, g.Upright) (hadvance : ∀ g ∈ gs, 0 ≤ g.advance)
    (hindices : gs.map (·.index) = List.range n) (hg : g ∈ gs) (hset : g.wrapped = false)
    (htop : g.lineTop ≤ p.y) (hbottom : p.y < g.lineBottom) (hleft : g.location.x ≤ p.x) :
    let index := ((hit p).items ⟨0, none⟩ (gs.map Item.glyph)).state.index
    (g.lineEnd = true ∨ p.x < g.middle → index = g.index) ∧
      (g.lineEnd = false → g.middle ≤ p.x →
        p.x < g.location.x + g.advance ∨ g.EndsContent gs → index = g.index + 1) := by
  intro index
  have hpairs := pairwise_precedes hchain hupright hadvance
  obtain ⟨before, after, hgs⟩ := List.append_of_mem hg
  have hbefore : g.index = before.length := (index_of_append (hgs ▸ hindices)).1
  have hnext : ∀ k ∈ after.head?, k ∈ gs ∧ gs[g.index + 1]? = some k ∧ g.Precedes k := by
    intro k hk
    obtain ⟨rest, rfl⟩ : ∃ rest, after = k :: rest := by
      cases after with
      | nil => cases hk
      | cons j rest =>
        cases hk
        exact ⟨rest, rfl⟩
    rw [hgs, List.pairwise_append] at hpairs
    refine ⟨?_, ?_, ?_⟩
    · rw [hgs]
      exact List.mem_append_right _ (List.mem_cons_of_mem g List.mem_cons_self)
    · rw [hgs, hbefore, List.getElem?_append_right (Nat.le_add_right _ 1),
        Nat.add_sub_cancel_left]
      rfl
    · exact (List.pairwise_cons.1 hpairs.2.1).1 k List.mem_cons_self
  have hpassed : ∀ k ∈ before, k.PassedBy p g.lineTop := by
    intro k hk
    have hmem : k ∈ gs := by
      rw [hgs]
      exact List.mem_append_left _ hk
    rw [hgs, List.pairwise_append] at hpairs
    have hprecedes : k.Precedes g := hpairs.2.2 k hk g List.mem_cons_self
    exact hprecedes.passedBy hset (hadvance k hmem) htop hbottom hleft
  obtain ⟨s, hs, hitems⟩ := items_hit_before hpassed (Or.inl rfl : Hit.Within g.lineTop ⟨0, none⟩)
    (g :: after)
  have hindex : index = ((hit p).items s ((g :: after).map Item.glyph)).state.index := by
    rw [← hitems, ← hgs]
  rw [hindex, List.map_cons, Traversal.items]
  constructor
  · intro hstop
    have hdone : hit p s (.glyph g) = .done ⟨g.index, some g.lineTop⟩ := by
      apply hit_stops hs hbottom
      rcases hstop with hstop | hstop
      · exact Or.inl hstop
      · exact Or.inr (Or.inr hstop)
    rw [hdone]
    rfl
  · intro hinside hmiddle hwhere
    rw [hit_continues hs hbottom hinside hset hmiddle]
    refine items_hit_after hbottom ?_ htop
    intro k hk
    obtain ⟨hmem, hget, hprecedes⟩ := hnext k hk
    refine ⟨index_of_getElem? hindices hget, hupright k hmem, hprecedes, ?_⟩
    intro hline
    rcases hwhere with hright | ⟨-, j, hj, hjindex, hends⟩
    · cases hwrapped : k.wrapped with
      | true => exact Or.inr (Or.inl rfl)
      | false =>
        right
        right
        cases hprecedes with
        | above habove => omega
        | beside _ _ _ _ apart =>
          have hapart := apart hwrapped
          have hkleft := Glyph.left_le_middle (hadvance k hmem)
          omega
    · obtain ⟨i, hi⟩ := List.mem_iff_getElem?.1 hj
      obtain rfl : j.index = i := index_of_getElem? hindices hi
      rw [hjindex, hget] at hi
      obtain rfl : k = j := Option.some.inj hi
      rcases hends with hends | hends | hends
      · exact Or.inl hends
      · exact Or.inr (Or.inl hends)
      · exact absurd hline hends

end Query

namespace Printer

variable {p : Printer} {font : Font} {markup : List UInt8} {width : Int} {lines : List Line}

theorem hitTestWrapped_eq (h : (Job.mk p .zero width).layout markup = .ok lines) (point : Point) :
    p.hitTestWrapped markup width point =
      .ok ((Query.hit point).items ⟨0, none⟩ ((events lines).map Item.glyph)).state.index := by
  rw [hitTestWrapped, query, h, ← Traversal.lines_glyphs (Query.glyphsOnly_hit point)]
  rfl

theorem locateWrapped_eq (h : (Job.mk p .zero width).layout markup = .ok lines) (target : Nat) :
    p.locateWrapped markup width target =
      .ok ((Query.locate target).items none ((events lines).map Item.glyph)).state := by
  rw [locateWrapped, query, h, ← Traversal.lines_glyphs (Query.glyphsOnly_locate target)]
  rfl

/-- **A point on the cell of a glyph hits the glyph.**  Take a printable text in one font of
    the default style, with some height and without kerning, wrapped at any width. Each of its
    code points has a glyph, and so has its end. Where no glyph goes back, let the cell be
    located of any of them that is not left over at a wrap. At the height of the cell a point
    on its left half hits the glyph, and so does one at the left edge of a line end. A point on
    the right half hits the position behind, and so does one farther to the right of the last
    glyph of the content of a line. -/
theorem hit_test_inverts_locate {p : Printer} {face : Face} {markup : List UInt8}
    (hfont : p.fonts.get? p.defaultFont = some (Font.ofFace face)) (hheight : 0 < face.height)
    (hkerning : ∀ c d, face.kerning c d = 0)
    (htext : ∀ c ∈ Codec.decode markup, CodePoint.IsPrintable c) (width : Int) :
    ∃ (items : List Item) (regions : List Region),
      p.layout markup .zero width none = .ok (items, regions) ∧
      (∀ i ≤ (Codec.decode markup).length, ∃ g ∈ items.filterMap Item.glyph?, g.index = i) ∧
      ((∀ g ∈ items.filterMap Item.glyph?, g.lineEnd = false → 0 ≤ g.advance) →
        ∀ g ∈ items.filterMap Item.glyph?, g.wrapped = false →
          ∃ cell, p.locateWrapped markup width g.index = .ok (some cell) ∧
            ∀ x y, cell.top ≤ y → y < cell.bottom →
              (cell.left ≤ x → x < cell.left + (cell.right - cell.left).tdiv 2 →
                p.hitTestWrapped markup width ⟨x, y⟩ = .ok g.index) ∧
              (g.lineEnd = true → x = cell.left →
                p.hitTestWrapped markup width ⟨x, y⟩ = .ok g.index) ∧
              (cell.left + (cell.right - cell.left).tdiv 2 ≤ x → x < cell.right →
                p.hitTestWrapped markup width ⟨x, y⟩ = .ok (g.index + 1)) ∧
              (g.EndsContent (items.filterMap Item.glyph?) → cell.right ≤ x →
                p.hitTestWrapped markup width ⟨x, y⟩ = .ok (g.index + 1))) := by
  have hlayout : (Job.mk p .zero width).layout markup =
      .ok ((Job.mk p .zero width).layoutWith (Font.ofFace face) (Codec.decode markup)) :=
    Job.layout_eq hfont markup
  have hindices := indices_layout htext ⟨p, .zero, width⟩ (Font.ofFace face)
  obtain ⟨hchain, hupright⟩ :=
    LayoutState.rows_layout hheight hkerning (prose_of_printable htext) ⟨p, .zero, width⟩
  refine ⟨_, _, layout_eq hfont markup .zero width, ?_⟩
  rw [List.filterMap_flatMap]
  change (∀ i ≤ (Codec.decode markup).length, ∃ g ∈ events _, g.index = i) ∧
    ((∀ g ∈ events _, _) → ∀ g ∈ events _, _)
  generalize (Job.mk p .zero width).layoutWith (Font.ofFace face) (Codec.decode markup) = lines at *
  constructor
  · intro i hi
    have hmem : i ∈ (events lines).map (·.index) := by
      rw [hindices, List.mem_range]
      omega
    obtain ⟨g, hg, hindex⟩ := List.mem_map.1 hmem
    exact ⟨g, hg, hindex⟩
  · intro hwidths g hg hset
    have hadvance : ∀ k ∈ events lines, 0 ≤ k.advance := by
      intro k hk
      cases hend : k.lineEnd with
      | true => exact Int.le_of_eq ((hupright k hk).lineEnd hend).symm
      | false => exact hwidths k hk hend
    obtain ⟨before, after, hgs⟩ := List.append_of_mem hg
    refine ⟨g.cell, ?_, ?_⟩
    · rw [hgs] at hindices
      obtain ⟨hplace, hbefore⟩ := index_of_append hindices
      rw [locateWrapped_eq hlayout, hgs, Query.items_locate hbefore]
      rfl
    · intro x y htop hbottom
      have hcell : g.cell.left + (g.cell.right - g.cell.left).tdiv 2 = g.middle := by
        have hwidth : g.cell.right - g.cell.left = g.advance := by
          simp only [Glyph.cell]
          omega
        rw [hwidth]
        rfl
      have hhit := fun hleft => Query.index_of_hit (p := ⟨x, y⟩) hchain hupright hadvance
        hindices hg hset htop hbottom hleft
      have hstart := Glyph.left_le_middle (hadvance g hg)
      have hstop := Glyph.middle_le_right (hadvance g hg)
      rw [hcell, hitTestWrapped_eq hlayout]
      refine ⟨?_, ?_, ?_, ?_⟩
      · intro hleft hmiddle
        exact congrArg Except.ok ((hhit hleft).1 (Or.inr hmiddle))
      · intro hend hx
        exact congrArg Except.ok ((hhit (Int.le_of_eq hx.symm)).1 (Or.inl hend))
      · intro hmiddle hright
        have hinside : g.lineEnd = false := by
          cases hend : g.lineEnd with
          | false => rfl
          | true =>
            have hnone := (hupright g hg).lineEnd hend
            simp only [Glyph.cell] at hright
            omega
        exact congrArg Except.ok
          ((hhit (Int.le_trans hstart hmiddle)).2 hinside hmiddle (Or.inl hright))
      · intro hends hright
        have hmiddle : g.middle ≤ x := Int.le_trans hstop hright
        exact congrArg Except.ok
          ((hhit (Int.le_trans hstart hmiddle)).2 hends.1 hmiddle (Or.inr hends))

/-- The space after two letters is left over where the line is wrapped at 20. -/
theorem hit_test_inverts_locate_boxes :
    boxes.locateWrapped [0x61, 0x62, 0x20, 0x63] 20 1 = .ok (some ⟨10, 0, 20, 20⟩) ∧
      boxes.hitTestWrapped [0x61, 0x62, 0x20, 0x63] 20 ⟨14, 5⟩ = .ok 1 ∧
      boxes.hitTestWrapped [0x61, 0x62, 0x20, 0x63] 20 ⟨15, 5⟩ = .ok 2 ∧
      boxes.hitTestWrapped [0x61, 0x62, 0x20, 0x63] 20 ⟨500, 5⟩ = .ok 2 := by
  have hfont : boxes.fonts.get? boxes.defaultFont = some (Font.ofFace BoxFace.standard.face) := rfl
  have htext : ∀ c ∈ Codec.decode [0x61, 0x62, 0x20, 0x63], CodePoint.IsPrintable c := by decide
  obtain ⟨items, regions, hlayout, hpresent, hcells⟩ :=
    hit_test_inverts_locate hfont (by decide) (fun _ _ => rfl) htext 20
  obtain ⟨g, hg, hindex⟩ := hpresent 1 (by decide)
  have hglyphs : ∀ r ∈ (boxes.layout [0x61, 0x62, 0x20, 0x63] .zero 20 none).toOption,
      (∀ g ∈ r.1.filterMap Item.glyph?, g.lineEnd = false → 0 ≤ g.advance) ∧
        ∀ g ∈ r.1.filterMap Item.glyph?, g.index = 1 →
          g.wrapped = false ∧ g.EndsContent (r.1.filterMap Item.glyph?) := by
    decide +kernel
  rw [hlayout] at hglyphs
  obtain ⟨hwidths, hsecond⟩ := hglyphs _ rfl
  obtain ⟨hset, hends⟩ := hsecond g hg hindex
  obtain ⟨cell, hlocate, hhits⟩ := hcells hwidths g hg hset
  rw [hindex] at hlocate hhits
  have hcell : boxes.locateWrapped [0x61, 0x62, 0x20, 0x63] 20 1 = .ok (some ⟨10, 0, 20, 20⟩) := by
    decide +kernel
  obtain rfl : (⟨10, 0, 20, 20⟩ : Rect) = cell :=
    Option.some.inj (Except.ok.inj (hcell.symm.trans hlocate))
  refine ⟨hlocate, ?_, ?_, ?_⟩
  · exact (hhits 14 5 (by decide) (by decide)).1 (by decide) (by decide)
  · exact (hhits 15 5 (by decide) (by decide)).2.2.1 (by decide) (by decide)
  · exact (hhits 500 5 (by decide) (by decide)).2.2.2 hends (by decide)

end Printer

end RichText
