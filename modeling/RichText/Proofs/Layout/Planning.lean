/-
  RichText/Proofs/Layout/Planning.lean
  ====================================
  **A justification keeps to its caps, and is given up only where they leave no choice.**

  A plan has three passes.  Spaces that can do with the first cap take all that is missing,
  and no gap opens (`plan?_of_lt`).  Otherwise each of them takes the whole cap, the gaps
  take their share of the rest (`letterGap`), and what these leave goes to the spaces once
  more, now up to the second cap (`plan?_of_le`).  The bounds of a plan (`WithinCaps`) and the
  reasons for giving up are read off these two and off the plan of a line without spaces.
-/
import RichText.Proofs.Layout.Justifying

namespace RichText.Justification

variable {spaces gaps target cap digitWidth height : Int}

/-! ### Spaces -/

/-- A share exceeds a cap if the spaces take one pixel more each. -/
theorem lt_share_iff (hs : 0 < spaces) (ht : 0 ≤ target) :
    cap < target.tdiv spaces ↔ (cap + 1) * spaces ≤ target := by
  rw [Int.tdiv_eq_ediv_of_nonneg ht, ← Int.add_one_le_iff, Int.le_ediv_iff_mul_le hs]

theorem fillSpaces_of_lt (hs : 0 < spaces) (ht : 0 ≤ target) (h : target < (cap + 1) * spaces) :
    fillSpaces spaces target cap =
      (target.tdiv spaces, target - target.tdiv spaces * spaces, 0) := by
  have hshare : ¬ cap < target.tdiv spaces :=
    fun hlt => Int.not_le.2 h ((lt_share_iff hs ht).1 hlt)
  simp only [fillSpaces, if_neg hshare]

theorem fillSpaces_of_le (hs : 0 < spaces) (ht : 0 ≤ target) (h : (cap + 1) * spaces ≤ target) :
    fillSpaces spaces target cap = (cap, 0, target - cap * spaces) := by
  simp only [fillSpaces, if_pos ((lt_share_iff hs ht).2 h)]

/-- Pixels that do not divide evenly are less than one for each space. -/
theorem remainder_lt (hs : 0 < spaces) : target - target.tdiv spaces * spaces < spaces := by
  rw [Int.tdiv_mul_self]
  have hmod := Int.tmod_lt_of_pos target hs
  omega

/-! ### Gaps -/

/-- What the spaces leave to the gaps. -/
def leftForGaps (spaces target digitWidth : Int) : Int :=
  if 0 < spaces then (fillSpaces spaces target digitWidth).2.2 else target

/-- The gap that a plan chooses, whether or not it is carried out. -/
def letterGap (spaces gaps target digitWidth height : Int) : Int :=
  gapShare gaps (leftForGaps spaces target digitWidth) height

theorem gapShare_zero : gapShare gaps 0 height = 0 := by
  simp [gapShare]

theorem gapShare_le : gapShare gaps target height ≤ max 1 (height.tdiv 3) := by
  simp only [gapShare]
  split
  · split <;> omega
  · omega

/-! ### The passes -/

theorem plan?_of_no_spaces (ht : 0 < target) :
    plan? 0 gaps target digitWidth height =
      if target = letterGap 0 gaps target digitWidth height * gaps then
        some ⟨0, 0, letterGap 0 gaps target digitWidth height⟩
      else none := by
  have hpos : ¬ target ≤ 0 := Int.not_le.2 ht
  simp only [plan?, letterGap, leftForGaps, if_neg hpos, Int.lt_irrefl, if_false, false_and,
    Int.sub_eq_zero]

/-- Spaces that can do with the first cap take everything. -/
theorem plan?_of_lt (hs : 0 < spaces) (ht : 0 < target)
    (h : target < (digitWidth + 1) * spaces) :
    letterGap spaces gaps target digitWidth height = 0 ∧
      plan? spaces gaps target digitWidth height =
        some ⟨target.tdiv spaces, target - target.tdiv spaces * spaces, 0⟩ := by
  have hpos : ¬ target ≤ 0 := Int.not_le.2 ht
  have hfill := fillSpaces_of_lt hs (Int.le_of_lt ht) h
  constructor
  · simp only [letterGap, leftForGaps, if_pos hs, hfill, gapShare_zero]
  · simp only [plan?, if_neg hpos, if_pos hs, hfill, gapShare_zero]
    simp

/-- Where the first cap does not do, the gaps take their share of the rest, and the spaces what
    these leave, if the second cap allows it. -/
theorem plan?_of_le (hs : 0 < spaces) (hd : 0 ≤ digitWidth) (hh : 0 ≤ height)
    (ht : 0 < target) (h : (digitWidth + 1) * spaces ≤ target) {g : Int}
    (hg : letterGap spaces gaps target digitWidth height = g) :
    plan? spaces gaps target digitWidth height =
      if target - g * gaps = digitWidth * spaces then some ⟨digitWidth, 0, g⟩
      else if target - g * gaps < (2 * height + 1) * spaces then
        some ⟨(target - g * gaps).tdiv spaces,
          target - g * gaps - (target - g * gaps).tdiv spaces * spaces, g⟩
      else none := by
  have hpos : ¬ target ≤ 0 := Int.not_le.2 ht
  have hfill := fillSpaces_of_le hs (Int.le_of_lt ht) h
  simp only [letterGap, leftForGaps, if_pos hs, hfill] at hg
  have hcapped : 0 ≤ digitWidth * spaces := Int.mul_nonneg hd (Int.le_of_lt hs)
  have hgap : g * gaps ≤ target - digitWidth * spaces := by
    rw [Int.add_mul] at h
    rw [← hg]
    exact (gapShare_spec (by omega) hh).2
  have hback : target - digitWidth * spaces - g * gaps + digitWidth * spaces =
      target - g * gaps := by omega
  simp only [plan?, if_neg hpos, if_pos hs, hfill, hg, hback, Int.mul_comm height 2]
  by_cases hall : target - g * gaps = digitWidth * spaces
  · have hnone : target - digitWidth * spaces - g * gaps = 0 := by omega
    simp [hnone, hall]
  have hagain : 0 < spaces ∧ 0 < target - digitWidth * spaces - g * gaps := ⟨hs, by omega⟩
  rw [if_neg hall, if_pos hagain]
  by_cases hcap : target - g * gaps < (2 * height + 1) * spaces
  · rw [if_pos hcap, fillSpaces_of_lt hs (by omega) hcap]
    rfl
  · rw [if_neg hcap, fillSpaces_of_le hs (by omega) (Int.not_lt.1 hcap)]
    refine if_neg ?_
    rw [Int.add_mul] at hcap
    dsimp only
    omega

/-! ### Bounds -/

/-- What is given out keeps to the caps: a space grows by the width of a digit or by twice the
    height, a gap by a third of the height or by one pixel, and gaps open only if the spaces
    cannot do with the first cap, even if all but one of them take one pixel more. -/
structure WithinCaps (j : Justification) (spaces gaps target digitWidth height : Int) : Prop
    extends j.GivesOut spaces gaps target where
  extra_lt : j.extraSpaces < spaces ∨ j.extraSpaces = 0
  space_le : j.space ≤ max digitWidth (2 * height)
  gap_le : j.gap ≤ max 1 (height.tdiv 3)
  gap_last : 0 < j.gap → digitWidth * spaces + (spaces - 1) < target

/-- A space keeps to a cap within which everything can be given out. -/
theorem GivesOut.space_le {j : Justification} (h : j.GivesOut spaces gaps target)
    (hs : 0 ≤ spaces) (hcap : target - j.gap * gaps < (cap + 1) * spaces) : j.space ≤ cap := by
  have htotal := h.total
  have hextra := h.extra.1
  have hlt : j.space * spaces < (cap + 1) * spaces := by omega
  exact Int.lt_add_one_iff.1 (Int.lt_of_mul_lt_mul_right hlt hs)

theorem withinCaps_of_plan? (hs : 0 ≤ spaces) (hg : 0 ≤ gaps) (hd : 0 ≤ digitWidth)
    (hh : 0 ≤ height) {j : Justification}
    (h : plan? spaces gaps target digitWidth height = some j) :
    j.gap = letterGap spaces gaps target digitWidth height ∧
      j.WithinCaps spaces gaps target digitWidth height := by
  obtain ⟨ht, hgives⟩ := givesOut_of_plan? hs hg hd hh h
  have hgap : letterGap spaces gaps target digitWidth height ≤ max 1 (height.tdiv 3) :=
    gapShare_le
  rcases Int.le_iff_eq_or_lt.1 hs with rfl | hpos
  · rw [plan?_of_no_spaces ht, Option.ite_none_right_eq_some, Option.some.injEq] at h
    obtain ⟨-, rfl⟩ := h
    refine ⟨rfl, hgives, .inr rfl, ?_, hgap, fun _ => ?_⟩
    · dsimp only
      omega
    · rw [Int.mul_zero]
      omega
  rcases Int.lt_or_le target ((digitWidth + 1) * spaces) with hlt | hle
  · have hfirst : letterGap spaces gaps target digitWidth height = 0 ∧ _ :=
      plan?_of_lt hpos ht hlt
    obtain ⟨hzero, hplan⟩ := hfirst
    rw [hplan, Option.some.injEq] at h
    subst h
    refine ⟨hzero.symm, hgives, .inl (remainder_lt hpos), ?_, hzero ▸ hgap, ?_⟩
    · have hcap := hgives.space_le hs (by simpa using hlt)
      exact Int.le_trans hcap (Int.le_max_left _ _)
    · intro hopen
      exact absurd hopen (Int.lt_irrefl 0)
  · have hlast : digitWidth * spaces + (spaces - 1) < target := by
      rw [Int.add_mul] at hle
      omega
    rw [plan?_of_le hpos hd hh ht hle rfl] at h
    split at h
    · cases h
      exact ⟨rfl, hgives, .inr rfl, Int.le_max_left _ _, hgap, fun _ => hlast⟩
    split at h
    · next hcap =>
      cases h
      refine ⟨rfl, hgives, .inl (remainder_lt hpos), ?_, hgap, fun _ => hlast⟩
      exact Int.le_trans (hgives.space_le hs hcap) (Int.le_max_right _ _)
    · cases h

/-- A plan is given up only if gaps alone do not meet the width, or if the spaces cannot take
    within the second cap what the gaps leave. -/
theorem plan?_eq_none (hs : 0 ≤ spaces) (hd : 0 ≤ digitWidth) (hh : 0 ≤ height) (ht : 0 < target)
    {g : Int} (hg : letterGap spaces gaps target digitWidth height = g)
    (h : plan? spaces gaps target digitWidth height = none) :
    spaces = 0 ∧ g * gaps ≠ target ∨
      0 < spaces ∧ (2 * height + 1) * spaces ≤ target - g * gaps := by
  rcases Int.le_iff_eq_or_lt.1 hs with rfl | hpos
  · rw [plan?_of_no_spaces ht, hg] at h
    split at h
    · cases h
    · next hne => exact .inl ⟨rfl, Ne.symm hne⟩
  rcases Int.lt_or_le target ((digitWidth + 1) * spaces) with hlt | hle
  · rw [(plan?_of_lt hpos ht hlt).2] at h
    cases h
  · rw [plan?_of_le hpos hd hh ht hle hg] at h
    split at h
    · cases h
    split at h
    · cases h
    · next hcap => exact .inr ⟨hpos, Int.not_lt.1 hcap⟩

/-- **A plan is exact, keeps to its caps, and is given up only if these force it.**  What a plan
    gives out is what is missing, within the caps of `WithinCaps`, and its gap is the one that
    it had chosen.  Without a plan there are either no spaces, and the gaps alone do not meet
    the width; or the spaces would have to take at least one pixel each above the second cap,
    whatever is given to the gaps. -/
theorem plan_exact_within_caps (hs : 0 ≤ spaces) (hg : 0 ≤ gaps) (hd : 0 ≤ digitWidth)
    (hh : 0 ≤ height) (ht : 0 < target) :
    (∀ j, plan? spaces gaps target digitWidth height = some j →
      j.gap = letterGap spaces gaps target digitWidth height ∧
        j.WithinCaps spaces gaps target digitWidth height) ∧
    (plan? spaces gaps target digitWidth height = none →
      spaces = 0 ∧ letterGap spaces gaps target digitWidth height * gaps ≠ target ∨
        0 < spaces ∧ (2 * height + 1) * spaces ≤
          target - letterGap spaces gaps target digitWidth height * gaps) :=
  ⟨fun _ h => withinCaps_of_plan? hs hg hd hh h, plan?_eq_none hs hd hh ht rfl⟩

/-- Two spaces and four gaps at thirty pixels need all three passes; four gaps alone cannot
    take nine. -/
theorem plan_exact_within_caps_thirty :
    (plan? 2 4 30 8 12 = some ⟨9, 0, 3⟩ ∧ (⟨9, 0, 3⟩ : Justification).WithinCaps 2 4 30 8 12) ∧
    plan? 0 4 9 8 30 = none ∧ letterGap 0 4 9 8 30 * 4 ≠ 9 := by
  have hplan : plan? 2 4 30 8 12 = some ⟨9, 0, 3⟩ := by decide
  have hnone : plan? 0 4 9 8 30 = none := by decide
  have hthirty := plan_exact_within_caps (by decide : (0 : Int) ≤ 2) (by decide : (0 : Int) ≤ 4)
    (by decide : (0 : Int) ≤ 8) (by decide : (0 : Int) ≤ 12) (by decide : (0 : Int) < 30)
  have hnine := plan_exact_within_caps (by decide : (0 : Int) ≤ 0) (by decide : (0 : Int) ≤ 4)
    (by decide : (0 : Int) ≤ 8) (by decide : (0 : Int) ≤ 30) (by decide : (0 : Int) < 9)
  refine ⟨⟨hplan, (hthirty.1 _ hplan).2⟩, hnone, ?_⟩
  rcases hnine.2 hnone with ⟨-, hne⟩ | ⟨hpos, -⟩
  · exact hne
  · exact absurd hpos (Int.lt_irrefl 0)

end RichText.Justification
