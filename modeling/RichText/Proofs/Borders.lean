/-
  RichText/Proofs/Borders.lean
  ============================
  **A border that fits strokes the inside of its bounds once.**

  A border is filled in four strips.  Within the bounds they cover what lies within the
  thickness of an edge, whatever the thickness (`covered_within`).  But no strip is cut off
  where another one has been or where the bounds end: strips meet if the border takes more
  than half of the bounds, and run over if it takes more than all of them.
  `border_strokes_once_iff` says when a border is as it should be.
-/
import Mathlib.Tactic.ByContra
import Mathlib.Tactic.SplitIfs
import RichText.Surface

namespace RichText.DrawOp

variable {r : Rect} {t : Int} {color : Color}

/-! ### Pixels of fills -/

/-- Whether a fill paints a pixel. -/
def paints (p : Point) : DrawOp → Bool
  | fill bounds _ => bounds.contains p
  | _ => false

/-- How often a pixel is painted by the fills that make up an operation. -/
def coverage (op : DrawOp) (p : Point) : Nat := op.fills.countP (paints p)

/-- The pixels within the thickness `t` of an edge of `r`. -/
def InRing (r : Rect) (t : Int) (p : Point) : Prop :=
  r.contains p = true ∧ (r.inflate (Margin.all (-t))).contains p = false

theorem coverage_border (ht : 0 < t) (p : Point) :
    (border r t color).coverage p = (borderStrips r t).countP (·.contains p) := by
  simp only [coverage, fills, if_neg (Int.not_le.2 ht), List.countP_map]
  rfl

theorem covered_iff (ht : 0 < t) {p : Point} :
    0 < (border r t color).coverage p ↔ ∃ s ∈ borderStrips r t, s.contains p = true := by
  rw [coverage_border ht, List.countP_pos_iff]

theorem inRing_iff {p : Point} :
    InRing r t p ↔ r.contains p = true ∧
      ¬ ((r.left + t ≤ p.x ∧ p.x < r.right - t) ∧ (r.top + t ≤ p.y ∧ p.y < r.bottom - t)) := by
  rw [InRing, ← Bool.not_eq_true, Rect.contains_iff (r.inflate _)]
  simp only [Rect.inflate, Margin.all, Int.sub_neg, ← Int.sub_eq_add_neg]

/-- Within the bounds no pixel of the ring is left out, and none beyond it is painted. -/
theorem covered_within (ht : 0 < t) {p : Point} (hp : r.contains p = true) :
    0 < (border r t color).coverage p ↔ InRing r t p := by
  rw [covered_iff ht, inRing_iff]
  simp only [hp, true_and, borderStrips, List.mem_cons, List.not_mem_nil, or_false,
    exists_eq_or_imp, exists_eq_left, Rect.contains_iff]
  rw [Rect.contains_iff] at hp
  omega

/-! ### Thick borders -/

/-- The strips of a border neither meet nor leave its bounds: top and bottom share the bounds
    between them, or leave room for the sides, and these do not meet. -/
def BorderFits (r : Rect) (t : Int) : Prop :=
  2 * t = r.height ∨ 2 * t < r.height ∧ 2 * t ≤ r.width

theorem contains_of_covered (ht : 0 < t) (hfits : BorderFits r t) {p : Point}
    (h : 0 < (border r t color).coverage p) : r.contains p = true := by
  rw [covered_iff ht] at h
  simp only [borderStrips, List.mem_cons, List.not_mem_nil, or_false, exists_eq_or_imp,
    exists_eq_left, Rect.contains_iff] at h
  simp only [BorderFits, Rect.height, Rect.width] at hfits
  rw [Rect.contains_iff]
  omega

theorem coverage_le_one (ht : 0 < t) (hfits : BorderFits r t) (p : Point) :
    (border r t color).coverage p ≤ 1 := by
  rw [coverage_border ht]
  simp only [BorderFits, Rect.height, Rect.width] at hfits
  simp only [borderStrips, List.countP_cons, List.countP_nil, Rect.contains_iff]
  split_ifs <;> omega

theorem two_le_coverage (color : Color) (ht : 0 < t) {a b : Rect}
    (hstrips : List.Sublist [a, b] (borderStrips r t)) {p : Point} (ha : a.contains p = true)
    (hb : b.contains p = true) : 2 ≤ (border r t color).coverage p := by
  have hpair : [a, b].countP (·.contains p) = 2 := by simp [ha, hb]
  rw [coverage_border ht, ← hpair]
  exact hstrips.countP_le

/-- Where top and bottom meet, and where the sides do, a pixel is painted twice. -/
theorem exists_painted_twice (color : Color) (hw : 0 < r.width) (hh : 0 < r.height) (ht : 0 < t)
    (hfits : ¬ BorderFits r t) : ∃ p, 2 ≤ (border r t color).coverage p := by
  simp only [Rect.height, Rect.width] at hw hh
  simp only [BorderFits, Rect.height, Rect.width, not_or, not_and] at hfits
  obtain ⟨hhalf, hsides⟩ := hfits
  rcases Int.lt_or_gt_of_ne hhalf with hthin | hthick
  · -- There are sides, and they are wider together than the bounds.
    have hwide := hsides hthin
    refine ⟨⟨max r.left (r.right - t), r.top + t⟩,
      two_le_coverage color ht (.cons _ (.cons _ (.refl _))) ?_ ?_⟩
    · rw [Rect.contains_iff]
      dsimp only
      omega
    · rw [Rect.contains_iff]
      dsimp only
      omega
  · refine ⟨⟨r.left, max r.top (r.bottom - t)⟩,
      two_le_coverage color ht (.cons_cons _ (.cons_cons _ (List.nil_sublist _))) ?_ ?_⟩
    · rw [Rect.contains_iff]
      dsimp only
      omega
    · rw [Rect.contains_iff]
      dsimp only
      omega

/-- **A border strokes the inside of its bounds, and once, exactly if it fits.**  Then each
    pixel is painted at most once, and it is if it lies in the bounds but not in what is left
    of them when every edge moves inwards by the thickness.  A border that does not fit paints
    some pixel twice. -/
theorem border_strokes_once_iff (hw : 0 < r.width) (hh : 0 < r.height) (ht : 0 < t) :
    (∀ p : Point, (border r t color).coverage p ≤ 1 ∧
      (0 < (border r t color).coverage p ↔
        r.contains p = true ∧ (r.inflate (Margin.all (-t))).contains p = false)) ↔
      2 * t = r.height ∨ 2 * t < r.height ∧ 2 * t ≤ r.width := by
  constructor
  · intro honce
    by_contra hfits
    obtain ⟨p, htwice⟩ := exists_painted_twice color hw hh ht hfits
    have hle := (honce p).1
    omega
  · intro hfits p
    refine ⟨coverage_le_one ht hfits p, fun hcovered => ?_, fun hring => ?_⟩
    · exact (covered_within ht (contains_of_covered ht hfits hcovered)).1 hcovered
    · exact (covered_within ht hring.1).2 hring

/-- One pixel all around a line of one glyph. -/
theorem border_strokes_once_iff_boxes :
    (0 < (⟨0, 0, 10, 20⟩ : Rect).width ∧ 0 < (⟨0, 0, 10, 20⟩ : Rect).height ∧ (0 : Int) < 1) ∧
      ∀ p : Point, (border ⟨0, 0, 10, 20⟩ 1 .black).coverage p ≤ 1 := by
  have hw : 0 < (⟨0, 0, 10, 20⟩ : Rect).width := by decide
  have hh : 0 < (⟨0, 0, 10, 20⟩ : Rect).height := by decide
  have ht : (0 : Int) < 1 := by decide
  have honce : ∀ p : Point, (border ⟨0, 0, 10, 20⟩ 1 .black).coverage p ≤ 1 ∧ _ :=
    (border_strokes_once_iff hw hh ht).2 (by decide)
  exact ⟨⟨hw, hh, ht⟩, fun p => (honce p).1⟩

/-- A border thicker than the line: it goes on below the line, and within the line its top and
    its bottom paint the same pixels. -/
theorem thick_border_leaves_bounds :
    (0 < (⟨0, 0, 10, 20⟩ : Rect).width ∧ 0 < (⟨0, 0, 10, 20⟩ : Rect).height ∧ (0 : Int) < 25) ∧
      ((⟨0, 0, 10, 20⟩ : Rect).contains ⟨0, 22⟩ = false ∧
        (border ⟨0, 0, 10, 20⟩ 25 .black).coverage ⟨0, 22⟩ = 1) ∧
      (border ⟨0, 0, 10, 20⟩ 25 .black).coverage ⟨0, 10⟩ = 2 := by
  decide

end RichText.DrawOp
