/-
  RichText/Proofs/Query/Stopping.lean
  ===================================
  **What a traversal has seen when it stops.**

  A traversal of lines goes through their items one after another; where it stops it has
  seen some first items, and knows some first regions (`Traversal.lines_state`,
  `Traversal.regions_prefix`).  A record that is kept up to some glyph ends with that glyph
  (`Query.items_record`).
-/
import RichText.Proofs.Layout.Events

namespace RichText

variable {σ : Type}

def Flow.state : Flow σ → σ
  | .more s => s
  | .done s => s

/-! ### Items and regions -/

namespace Traversal

variable (t : Traversal σ)

theorem items_append (s : σ) (is js : List Item) :
    t.items s (is ++ js) =
      match t.items s is with
      | .more s => t.items s js
      | .done s => .done s := by
  induction is generalizing s with
  | nil => rfl
  | cons i is ih =>
    rw [List.cons_append, items, items]
    cases t s i with
    | more s => exact ih s
    | done s => rfl

theorem items_line (s : σ) (l : Line) (is : List Item) :
    t.items s (l.items ++ is) =
      match t.items s (l.boxes ++ l.glyphs) with
      | .more s =>
        match t.items s l.rules with
        | .more s => t.items s is
        | .done s => .done s
      | .done s => .done s := by
  rw [items_append, Line.items, items_append t s (l.boxes ++ l.glyphs)]
  cases t.items s (l.boxes ++ l.glyphs) <;> rfl

/-- Lines are traversed as their items are, one after another. -/
theorem lines_state (s : σ) (ls : List Line) :
    (t.lines s ls).1 = (t.items s (ls.flatMap Line.items)).state := by
  induction ls generalizing s with
  | nil => rfl
  | cons l ls ih =>
    rw [List.flatMap_cons, lines, items_line]
    cases t.items s (l.boxes ++ l.glyphs) with
    | done s => rfl
    | more s =>
      dsimp only
      cases t.items s l.rules with
      | done s => rfl
      | more s => exact ih s

theorem regions_prefix (s : σ) (ls : List Line) :
    (t.lines s ls).2 <+: ls.flatMap Line.regions := by
  induction ls generalizing s with
  | nil => exact List.prefix_rfl
  | cons l ls ih =>
    rw [List.flatMap_cons, lines]
    cases t.items s (l.boxes ++ l.glyphs) with
    | done s => exact List.nil_prefix
    | more s =>
      dsimp only
      cases t.items s l.rules with
      | done s => exact List.prefix_append _ _
      | more s => exact (List.prefix_append_right_inj _).2 (ih s)

/-- A traversal that does not stop knows all regions. -/
theorem regions_of_items {s u : σ} {ls : List Line}
    (h : t.items s (ls.flatMap Line.items) = .more u) :
    (t.lines s ls).2 = ls.flatMap Line.regions := by
  induction ls generalizing s with
  | nil => rfl
  | cons l ls ih =>
    rw [List.flatMap_cons, items_line] at h
    rw [List.flatMap_cons, lines]
    cases hfirst : t.items s (l.boxes ++ l.glyphs) with
    | done s =>
      rw [hfirst] at h
      cases h
    | more s =>
      rw [hfirst] at h
      dsimp only at h ⊢
      cases hrules : t.items s l.rules with
      | done s =>
        rw [hrules] at h
        cases h
      | more s =>
        rw [hrules] at h
        exact congrArg (l.regions ++ ·) (ih h)

end Traversal

/-! ### Records -/

namespace Query

/-- A record of everything. -/
theorem items_record_none (seen : List Item) (m : Nat) (is : List Item) :
    ∃ n, (record none).items (seen, m) is = .more (is.reverse ++ seen, n) := by
  induction is generalizing seen m with
  | nil => exact ⟨m, rfl⟩
  | cons i is ih =>
    have hstep : ∃ m', record none (seen, m) i = .more (i :: seen, m') := by
      cases i <;> exact ⟨_, rfl⟩
    obtain ⟨m', hm'⟩ := hstep
    obtain ⟨n, hn⟩ := ih (i :: seen) m'
    refine ⟨n, ?_⟩
    rw [Traversal.items, hm', List.reverse_cons, List.append_assoc, List.singleton_append]
    exact hn

/-- A record up to the `n`-th glyph has either everything, with less than `n` glyphs in it, or
    what comes before that glyph, and the glyph. -/
theorem items_record {n m : Nat} (hm : m < n) (seen is : List Item) :
    (m + (is.filterMap Item.glyph?).length < n ∧
      ∃ m', (record (some n)).items (seen, m) is = .more (is.reverse ++ seen, m')) ∨
    ∃ before g rest, is = before ++ .glyph g :: rest ∧
      m + (before.filterMap Item.glyph?).length + 1 = n ∧
      (record (some n)).items (seen, m) is = .done (.glyph g :: (before.reverse ++ seen), n) := by
  induction is generalizing seen m with
  | nil => exact Or.inl ⟨hm, m, rfl⟩
  | cons i is ih =>
    -- One item further, whether it counts or not.
    have hmore : ∀ m', m' < n → record (some n) (seen, m) i = .more (i :: seen, m') →
        m' = m + ([i].filterMap Item.glyph?).length →
        (m + ((i :: is).filterMap Item.glyph?).length < n ∧
          ∃ m', (record (some n)).items (seen, m) (i :: is) =
            .more ((i :: is).reverse ++ seen, m')) ∨
        ∃ before g rest, i :: is = before ++ .glyph g :: rest ∧
          m + (before.filterMap Item.glyph?).length + 1 = n ∧
          (record (some n)).items (seen, m) (i :: is) =
            .done (.glyph g :: (before.reverse ++ seen), n) := by
      intro m' hm' hstep hcount
      have hlength : ∀ js : List Item, m + ((i :: js).filterMap Item.glyph?).length =
          m' + (js.filterMap Item.glyph?).length := by
        intro js
        rw [← List.singleton_append, List.filterMap_append, List.length_append, hcount]
        omega
      have hreverse : ∀ js : List Item, (i :: js).reverse ++ seen = js.reverse ++ i :: seen := by
        intro js
        rw [List.reverse_cons, List.append_assoc, List.singleton_append]
      rw [Traversal.items, hstep, hlength, hreverse]
      rcases ih hm' (i :: seen) with ⟨hlt, hall⟩ | ⟨before, g, rest, rfl, hn, hstop⟩
      · exact Or.inl ⟨hlt, hall⟩
      · refine Or.inr ⟨i :: before, g, rest, rfl, ?_, ?_⟩
        · rw [hlength]
          exact hn
        · rw [hreverse]
          exact hstop
    cases i with
    | glyph g =>
      by_cases hlast : n ≤ m + 1
      · have hstop : record (some n) (seen, m) (.glyph g) = .done (.glyph g :: seen, m + 1) := by
          simp only [record, Option.any_some, decide_eq_true hlast, if_true]
        obtain rfl : n = m + 1 := by omega
        refine Or.inr ⟨[], g, is, rfl, rfl, ?_⟩
        rw [Traversal.items, hstop]
        rfl
      · refine hmore (m + 1) (by omega) ?_ rfl
        simp only [record, Option.any_some, decide_eq_false hlast, Bool.false_eq_true, if_false]
    | box bounds background border color => exact hmore m hm rfl rfl
    | rule left right y thickness color => exact hmore m hm rfl rfl
    | image index i bounds tint fit => exact hmore m hm rfl rfl

end Query

end RichText
