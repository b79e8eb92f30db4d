/-
  RichText/Proofs/Layout/Justifying.lean
  ======================================
  **How far justification moves the glyphs of a line.**

  A plan gives out all that is missing to the spaces and gaps that were counted
  (`Justification.GivesOut`), so that the last glyph should move by just that.  It does
  if every gap that is opened in front of it was counted.  But `countGaps` has no gap
  before a tab and none after a space of explicit width, while `shifts` opens one after
  every code point that stretches: for each such pair of neighbours (`uncounted`) the
  line goes on past the wrap width by one gap.  `Printer.justified_lines` says this of
  all lines that a layout wraps.
-/
import RichText.Proofs.Layout.Steps

namespace RichText

namespace Justification

open CodePoint

/-! ### Plans -/

/-- What is given out to a number of spaces and gaps. -/
structure GivesOut (j : Justification) (spaces gaps target : Int) : Prop where
  total : j.space * spaces + j.extraSpaces + j.gap * gaps = target
  space : 0 ≤ j.space
  extra : 0 ≤ j.extraSpaces ∧ j.extraSpaces ≤ spaces
  gap : 0 ≤ j.gap

/-- Spaces take up to their cap, and leave the rest. Pixels that do not divide evenly are
    given out only if nothing is left. -/
theorem fillSpaces_spec {spaces target cap : Int} (hs : 0 < spaces) (ht : 0 ≤ target)
    (hc : 0 ≤ cap) {space extra left : Int}
    (h : fillSpaces spaces target cap = (space, extra, left)) :
    space * spaces + extra + left = target ∧ 0 ≤ space ∧ (0 ≤ extra ∧ extra ≤ spaces) ∧
      0 ≤ left ∧ (0 < left → extra = 0) := by
  have hdiv := Int.mul_tdiv_add_tmod target spaces
  have hmod := Int.tmod_nonneg spaces ht
  have hlt := Int.tmod_lt_of_pos target hs
  have hshare := Int.tdiv_nonneg ht (Int.le_of_lt hs)
  have hcomm := Int.mul_comm spaces (target.tdiv spaces)
  simp only [fillSpaces] at h
  split at h
  · next hcap =>
    simp only [Prod.mk.injEq] at h
    obtain ⟨rfl, rfl, rfl⟩ := h
    have hle := Int.mul_le_mul_of_nonneg_right (Int.le_of_lt hcap) (Int.le_of_lt hs)
    omega
  · simp only [Prod.mk.injEq] at h
    obtain ⟨rfl, rfl, rfl⟩ := h
    omega

/-- Gaps take no more than what is left. -/
theorem gapShare_spec {gaps target height : Int} (ht : 0 ≤ target) (hh : 0 ≤ height) :
    0 ≤ gapShare gaps target height ∧ gapShare gaps target height * gaps ≤ target := by
  simp only [gapShare]
  split
  · next hgaps =>
    obtain ⟨hpos, hone⟩ := hgaps
    have hdiv := Int.mul_tdiv_add_tmod target gaps
    have hmod := Int.tmod_nonneg gaps ht
    have hcomm := Int.mul_comm gaps (target.tdiv gaps)
    split
    · next hcap =>
      have hle := Int.mul_le_mul_of_nonneg_right (Int.le_of_lt hcap.2) (Int.le_of_lt hpos)
      have hthird : 0 ≤ height.tdiv 3 := Int.tdiv_nonneg hh (by decide)
      omega
    · omega
  · simpa using ht

/-- A plan gives out exactly what is missing. -/
theorem givesOut_of_plan? {spaces gaps target digitWidth height : Int} (hs : 0 ≤ spaces)
    (hg : 0 ≤ gaps) (hd : 0 ≤ digitWidth) (hh : 0 ≤ height) {j : Justification}
    (h : plan? spaces gaps target digitWidth height = some j) :
    0 < target ∧ j.GivesOut spaces gaps target := by
  by_cases ht : target ≤ 0
  · simp [plan?, ht] at h
  refine ⟨by omega, ?_⟩
  simp only [plan?, if_neg ht] at h
  by_cases hpos : 0 < spaces
  · simp only [if_pos hpos] at h
    rcases hfill : fillSpaces spaces target digitWidth with ⟨space, extra, left⟩
    rw [hfill] at h
    obtain ⟨htotal, hspace, hextra, hleft, heven⟩ := fillSpaces_spec hpos (by omega) hd hfill
    have hshare : 0 ≤ gapShare gaps left height ∧ _ := gapShare_spec hleft hh
    obtain ⟨hgap, hrest⟩ := hshare
    dsimp only at h
    generalize gapShare gaps left height = gap at h hgap hrest
    by_cases hagain : 0 < spaces ∧ 0 < left - gap * gaps
    · -- The spaces grow once more; the first time they took no extra pixel.
      simp only [if_pos hagain] at h
      rcases hmore : fillSpaces spaces (left - gap * gaps + space * spaces) (height * 2) with
        ⟨space', extra', left'⟩
      rw [hmore] at h
      have hprod := Int.mul_nonneg hspace hs
      obtain ⟨htotal', hspace', hextra', -⟩ :=
        fillSpaces_spec hpos (by omega) (by omega) hmore
      simp only [Option.ite_none_right_eq_some, Option.some.injEq] at h
      obtain ⟨hdone, rfl⟩ := h
      have hgaps := Int.mul_nonneg hgap hg
      have hnone : extra = 0 := heven (by omega)
      refine ⟨?_, hspace', hextra', hgap⟩
      dsimp only
      omega
    · simp only [if_neg hagain, Option.ite_none_right_eq_some, Option.some.injEq] at h
      obtain ⟨hdone, rfl⟩ := h
      refine ⟨?_, hspace, hextra, hgap⟩
      dsimp only
      omega
  · simp only [hpos, false_and, if_false, Option.ite_none_right_eq_some, Option.some.injEq] at h
    obtain ⟨hdone, rfl⟩ := h
    have hgap : 0 ≤ gapShare gaps target height := (gapShare_spec (by omega) hh).1
    refine ⟨?_, Int.le_refl 0, ⟨Int.le_refl 0, hs⟩, hgap⟩
    dsimp only
    omega

/-! ### Gaps that are opened without being counted -/

/-- Between these neighbours a gap is opened that no count has: the first one stretches,
    but is a space of explicit width, or a tab follows. -/
def opensUncounted (c d : Nat) : Bool := stretches c && (c == 0 || d == tab)

/-- How many pairs of neighbours have a gap that is not counted. -/
def uncounted : List Nat → Nat
  | c :: d :: cs => (opensUncounted c d).toNat + uncounted (d :: cs)
  | _ => 0

theorem ne_tab_of_stretches {c : Nat} (h : stretches c = true) : c ≠ tab := by
  simp only [stretches, Bool.and_eq_true, bne_iff_ne] at h
  exact h.1

/-- Every code point that stretches opens a gap before its successor, counted or not. -/
theorem countP_stretches_dropLast (c : Nat) (cs : List Nat) :
    (c :: cs).dropLast.countP stretches =
      countGapsAfter (if c = tab then none else some c) cs + uncounted (c :: cs) := by
  induction cs generalizing c with
  | nil => rfl
  | cons d cs ih =>
    rw [List.dropLast_cons_cons, List.countP_cons, ih d, countGapsAfter, uncounted]
    cases hc : stretches c with
    | false =>
      -- Nothing is opened here, and nothing counted.
      have hnone : ((if c = tab then none else some c).any fun p => p != 0 && stretches p) =
          false := by
        split <;> simp [hc]
      by_cases hd : d = tab <;> simp [hd, hc, hnone, opensUncounted]
    | true =>
      have hsome : ((if c = tab then none else some c).any fun p => p != 0 && stretches p) =
          (c != 0) := by
        simp [ne_tab_of_stretches hc, hc]
      by_cases hd : d = tab
      · simp [hd, hc, opensUncounted]
        omega
      · have hafter : (d == tab) = false := by simpa using hd
        simp only [if_neg hd, hsome, opensUncounted, hc, hafter, Bool.or_false, Bool.true_and]
        cases hzero : c == 0 with
        | false =>
          rw [show (c != 0) = true by simpa using hzero]
          simp
          omega
        | true =>
          rw [show (c != 0) = false by simpa using hzero]
          simp
          omega

/-! ### Shifts -/

/-- The last glyph moves by all that is given out before it. -/
theorem getLast?_shiftsFrom (j : Justification) (offset extra : Int) (he : 0 ≤ extra) (c : Nat)
    (cs : List Nat) :
    (j.shiftsFrom offset extra (c :: cs)).getLast? = some (offset +
      j.space * (c :: cs).dropLast.countP isAdjustableSpace +
      min extra ((c :: cs).dropLast.countP isAdjustableSpace) +
      j.gap * (c :: cs).dropLast.countP stretches) := by
  induction cs generalizing c offset extra with
  | nil => simp [shiftsFrom]; omega
  | cons d cs ih =>
    have hstep : ∀ (extra' : Int) (room : Int), 0 ≤ extra' →
        (offset :: j.shiftsFrom (offset + room) extra' (d :: cs)).getLast? =
          some (offset + room + j.space * (d :: cs).dropLast.countP isAdjustableSpace +
            min extra' ((d :: cs).dropLast.countP isAdjustableSpace) +
            j.gap * (d :: cs).dropLast.countP stretches) := by
      intro extra' room he'
      rw [List.getLast?_cons, ih (offset + room) extra' he' d, Option.getD_some]
    rw [shiftsFrom, Int.add_assoc, hstep _ _ (by split <;> omega)]
    simp only [List.dropLast_cons_cons, List.countP_cons]
    generalize (d :: cs).dropLast.countP isAdjustableSpace = spaces
    generalize (d :: cs).dropLast.countP stretches = gaps
    rw [Option.some_inj]
    cases isAdjustableSpace c with
    | false =>
      cases stretches c with
      | false => simp
      | true =>
        simp [Int.mul_add]
        omega
    | true =>
      by_cases hextra : 0 < extra
      · cases stretches c <;> simp [Int.mul_add, hextra] <;> omega
      · cases stretches c <;> simp [Int.mul_add, hextra] <;> omega

/-- Each glyph moves at least as far as the one before it. -/
theorem pairwise_shiftsFrom {j : Justification} (hspace : 0 ≤ j.space) (hgap : 0 ≤ j.gap)
    (offset extra : Int) (cs : List Nat) :
    (∀ dx ∈ j.shiftsFrom offset extra cs, offset ≤ dx) ∧
      (j.shiftsFrom offset extra cs).Pairwise (· ≤ ·) := by
  induction cs generalizing offset extra with
  | nil => exact ⟨fun _ h => (nomatch h), List.Pairwise.nil⟩
  | cons c cs ih =>
    have hspaces : 0 ≤ if isAdjustableSpace c then j.space + (if 0 < extra then 1 else 0) else 0 := by
      split
      · split <;> omega
      · exact Int.le_refl 0
    have hgaps : 0 ≤ if stretches c then j.gap else 0 := by
      split <;> omega
    rw [shiftsFrom]
    obtain ⟨hmin, hpairs⟩ := ih
      (offset + (if isAdjustableSpace c then j.space + (if 0 < extra then 1 else 0) else 0) +
        if stretches c then j.gap else 0)
      (if isAdjustableSpace c ∧ 0 < extra then extra - 1 else extra)
    constructor
    · intro dx hdx
      rcases List.mem_cons.1 hdx with rfl | hdx
      · exact Int.le_refl _
      · have := hmin dx hdx
        omega
    · rw [List.pairwise_cons]
      refine ⟨?_, hpairs⟩
      intro dx hdx
      have := hmin dx hdx
      omega

theorem countP_dropLast_of_last (p : Nat → Bool) (c : Nat) (cs : List Nat)
    (h : ∀ d, (c :: cs).getLast? = some d → p d = false) :
    (c :: cs).dropLast.countP p = (c :: cs).countP p := by
  obtain ⟨before, d, hsplit⟩ : ∃ before d, c :: cs = before ++ [d] :=
    ⟨_, _, (List.dropLast_concat_getLast (List.cons_ne_nil c cs)).symm⟩
  have hd := h d (by rw [hsplit, List.getLast?_concat])
  rw [hsplit, List.dropLast_concat, List.countP_append, List.countP_singleton, hd]
  rfl

/-- A plan moves the first glyph not at all, no glyph less than the one before it, and
    the last one by what is missing and by the gaps that were not counted. -/
theorem shifts_of_plan? {cs : List Nat} {target digitWidth height : Int} (hd : 0 ≤ digitWidth)
    (hh : 0 ≤ height) {j : Justification}
    (hplan : plan? (countSpaces cs) (countGaps cs) target digitWidth height = some j)
    (hlast : ∀ c, cs.getLast? = some c → isAdjustableSpace c = false) :
    0 ≤ j.gap ∧ (j.shifts cs).head? = some 0 ∧ (j.shifts cs).Pairwise (· ≤ ·) ∧
      (j.shifts cs).getLast? = some (target + j.gap * uncounted cs) := by
  have hspaces : 0 ≤ countSpaces cs := Int.natCast_nonneg _
  have hgaps : 0 ≤ countGaps cs := Int.natCast_nonneg _
  obtain ⟨hpos, htotal, hspace, ⟨hextra, hle⟩, hgap⟩ :=
    givesOut_of_plan? hspaces hgaps hd hh hplan
  cases cs with
  | nil =>
    simp [countSpaces, countGaps, countGapsAfter] at htotal hle
    omega
  | cons c cs =>
    refine ⟨hgap, rfl, (pairwise_shiftsFrom hspace hgap 0 j.extraSpaces (c :: cs)).2, ?_⟩
    have hcount : countGaps (c :: cs) =
        countGapsAfter (if c = tab then none else some c) cs := by
      simp only [countGaps, countGapsAfter]
      split <;> simp
    rw [shifts, getLast?_shiftsFrom j 0 j.extraSpaces hextra, countP_stretches_dropLast,
      countP_dropLast_of_last isAdjustableSpace c cs hlast]
    rw [hcount] at htotal
    simp only [countSpaces] at htotal hle
    simp only [Option.some_inj, Int.natCast_add, Int.mul_add]
    omega

/-! ### The room behind a code point -/

/-- The room that is given out behind the code point `c`, with the code points `before` on the
    line before it. -/
def behind (j : Justification) (before : List Nat) (c : Nat) : Int :=
  (if isAdjustableSpace c then j.space + (if countSpaces before < j.extraSpaces then 1 else 0)
    else 0) + if stretches c then j.gap else 0

theorem shiftsFrom_append (j : Justification) (offset extra : Int) (before cs : List Nat) :
    ∃ offset' extra', j.shiftsFrom offset extra (before ++ cs) =
      j.shiftsFrom offset extra before ++ j.shiftsFrom offset' extra' cs ∧
        (0 < extra' ↔ countSpaces before < extra) := by
  induction before generalizing offset extra with
  | nil => exact ⟨offset, extra, rfl, Iff.rfl⟩
  | cons c before ih =>
    obtain ⟨offset', extra', happend, hiff⟩ := ih
      (offset + (if isAdjustableSpace c then j.space + (if 0 < extra then 1 else 0) else 0) +
        if stretches c then j.gap else 0)
      (if isAdjustableSpace c ∧ 0 < extra then extra - 1 else extra)
    refine ⟨offset', extra', ?_, hiff.trans ?_⟩
    · rw [List.cons_append, shiftsFrom, shiftsFrom, happend, List.cons_append]
    · have hnonneg : 0 ≤ countSpaces before := Int.natCast_nonneg _
      have hcount : countSpaces (c :: before) =
          countSpaces before + if isAdjustableSpace c then 1 else 0 := by
        simp only [countSpaces, List.countP_cons]
        split <;> simp
      rw [hcount]
      cases isAdjustableSpace c with
      | false => simp only [Bool.false_eq_true, false_and, if_false, Int.add_zero]
      | true =>
        simp only [true_and, if_true]
        split <;> omega

/-- Two neighbours are shifted apart by the room behind the first. -/
theorem shifts_neighbours (j : Justification) (before : List Nat) (c d : Nat) (after : List Nat) :
    ∃ early dx late, j.shifts (before ++ c :: d :: after) =
      early ++ dx :: (dx + j.behind before c) :: late ∧ early.length = before.length := by
  obtain ⟨offset, extra, happend, hiff⟩ :=
    j.shiftsFrom_append 0 j.extraSpaces before (c :: d :: after)
  simp only [shiftsFrom, hiff, Int.add_assoc] at happend
  exact ⟨_, offset, _, happend, j.length_shiftsFrom 0 j.extraSpaces before⟩

end Justification

/-! ### Lines -/

/-- Content that is as wide as the line is not moved to align it. -/
theorem TextAlign.shift_of_le (a : TextAlign) {available used : Int} (h : available ≤ used) :
    a.shift available used = 0 := by
  have hfree : max (available - used) 0 = 0 := by omega
  cases a <;> simp [shift, hfree]

namespace Mark

/-- The right edge of marks that move by amounts of their own. -/
theorem getLast?_zipWith_shift {ms : List Mark} {shifts : List Int}
    (hlen : ms.length = shifts.length) {m : Mark} {dx : Int} (hm : ms.getLast? = some m)
    (hdx : shifts.getLast? = some dx) :
    (ms.zipWith (fun m dx => m.shift dx) shifts).getLast? = some (m.shift dx) := by
  obtain ⟨ms', rfl⟩ := List.getLast?_eq_some_iff.1 hm
  obtain ⟨shifts', rfl⟩ := List.getLast?_eq_some_iff.1 hdx
  have hfront : ms'.length = shifts'.length := by simpa using hlen
  rw [List.zipWith_append hfront, List.zipWith_cons_cons, List.zipWith_nil_left,
    List.getLast?_concat]

/-- Marks past the content have no part in a justification. -/
theorem take_justify (plan : Justification) (content : Nat) (ms : List Mark) :
    (justify plan content ms).take content = justify plan content (ms.take content) := by
  have hlen : ((ms.take content).zipWith (fun m dx => m.shift dx)
      (plan.shifts (codes (ms.take content)))).length = min content ms.length := by
    simp [codes]
  have hrest : (ms.drop content).take (content - min content ms.length) = [] := by
    rcases Nat.le_total content ms.length with hle | hle
    · rw [Nat.min_eq_left hle, Nat.sub_self, List.take_zero]
    · rw [List.drop_eq_nil_of_le hle, List.take_nil]
  have hnone : (ms.take content).drop content = [] :=
    List.drop_eq_nil_of_le (List.length_take_le content ms)
  rw [justify, justify, List.take_take, Nat.min_self, hnone, List.append_nil, List.take_append,
    hlen, hrest, List.append_nil, List.take_of_length_le]
  rw [hlen]
  exact Nat.min_le_left _ _

theorem shift_shift (m : Mark) (a b : Int) : (m.shift a).shift b = m.shift (a + b) := by
  simp only [shift, Int.add_assoc]

theorem zipWith_shift_neighbours {before : List Mark} {early : List Int}
    (hlength : early.length = before.length) (m n : Mark) (a b : Int) (after : List Mark)
    (late : List Int) :
    (before ++ m :: n :: after).zipWith (fun m dx => m.shift dx) (early ++ a :: b :: late) =
      before.zipWith (fun m dx => m.shift dx) early ++
        m.shift a :: n.shift b :: after.zipWith (fun m dx => m.shift dx) late := by
  rw [List.zipWith_append hlength.symm]
  rfl

end Mark

namespace LayoutState

open Justification

variable {job : Job} {s : LayoutState}

/-- A wrapped line does not end in a space. -/
theorem not_space_of_trimSpaces (marks : Array Mark) (n : Nat) {k : Nat}
    (hk : trimSpaces marks n = k + 1) {m : Mark} (hm : marks[k]? = some m) :
    CodePoint.isSpace m.code = false := by
  induction n with
  | zero => cases hk
  | succ n ih =>
    rw [trimSpaces] at hk
    split at hk
    · exact ih hk
    · next hspace =>
      obtain rfl : n = k := by omega
      simpa [hm] using hspace

theorem not_space_of_last_content (hb : s.BreakWithin) {m : Mark}
    (h : s.wrappedContent.getLast? = some m) : CodePoint.isSpace m.code = false := by
  have hle := breakAt_le hb
  rw [wrappedContent] at h
  cases hat : s.breakAt with
  | zero =>
    rw [hat, List.take_zero] at h
    cases h
  | succ k =>
    rw [hat] at hle h
    have hk : k < s.marks.toList.length := by
      rw [Array.length_toList]
      omega
    rw [List.getLast?_take, if_neg (Nat.succ_ne_zero k), Nat.add_sub_cancel,
      List.getElem?_eq_getElem hk, Option.some_or, ← List.getElem?_eq_getElem hk,
      Array.getElem?_toList] at h
    exact not_space_of_trimSpaces s.marks _ hat h

theorem not_adjustable_of_last_content (hb : s.BreakWithin) {c : Nat}
    (h : (Mark.codes s.wrappedContent).getLast? = some c) :
    CodePoint.isAdjustableSpace c = false := by
  rw [Mark.codes, List.getLast?_map, Option.map_eq_some_iff] at h
  obtain ⟨m, hm, rfl⟩ := h
  have hspace := not_space_of_last_content hb hm
  cases hadjust : CodePoint.isAdjustableSpace m.code with
  | false => rfl
  | true =>
    rw [CodePoint.isSpace_of_isAdjustableSpace hadjust] at hspace
    cases hspace

theorem take_justified (job : Job) (s : LayoutState) (content : Nat) (reason : LineEnd)
    (ms : List Mark) :
    (s.justified job content reason ms).take content =
      s.justified job content reason (ms.take content) := by
  simp only [justified, List.take_take, Nat.min_self]
  cases s.justification? job (ms.take content) reason with
  | some plan => exact Mark.take_justify plan content ms
  | none => rfl

/-- The content of a wrapped line as it is before it is aligned. -/
def justifiedContent (job : Job) (s : LayoutState) : List Mark :=
  match s.justification? job s.wrappedContent .wrap with
  | some j => s.wrappedContent.zipWith (fun m dx => m.shift dx) (j.shifts (Mark.codes s.wrappedContent))
  | none => s.wrappedContent

/-- The content of a wrapped line is justified, and then aligned as a whole. -/
theorem content_wrappedLine (job : Job) (ht : s.table = none) :
    (s.wrappedLine job).marks.take s.breakAt =
      (s.justifiedContent job).map (Mark.shift (s.alignShift job (s.justifiedContent job))) := by
  have hle : s.breakAt ≤ s.cut s.breakAt .wrap := Nat.le_add_right _ _
  have hcut : (s.marks.toList.take (s.cut s.breakAt .wrap)).take s.breakAt = s.wrappedContent := by
    rw [List.take_take, Nat.min_eq_left hle, wrappedContent]
  have htake : s.wrappedContent.take s.breakAt = s.wrappedContent := by
    rw [wrappedContent, List.take_take, Nat.min_self]
  have hdrop : s.wrappedContent.drop s.breakAt = [] :=
    List.drop_eq_nil_of_le (List.length_take_le _ _)
  have hmoved : s.justified job s.breakAt .wrap s.wrappedContent = s.justifiedContent job := by
    simp only [justified, justifiedContent, htake]
    cases s.justification? job s.wrappedContent .wrap with
    | some j => simp only [Mark.justify, htake, hdrop, List.append_nil]
    | none => rfl
  simp only [wrappedLine, setLine, ht, ← List.map_take, take_justified, hcut, hmoved]

/-- With a plan the content is moved by its shifts, and ends at the wrap width but for the
    gaps that were not counted. -/
theorem wrappedLine_of_plan (hb : s.BreakWithin) (hwrap : s.Overflows job)
    (hd : 0 ≤ s.font.face.digitWidth) (hh : 0 ≤ s.font.face.height) {j : Justification}
    (hj : s.justification? job s.wrappedContent .wrap = some j) :
    let shifts := j.shifts (Mark.codes s.wrappedContent)
    (s.wrappedLine job).marks.take s.breakAt =
        s.wrappedContent.zipWith (fun m dx => m.shift dx) shifts ∧
      shifts.head? = some 0 ∧ shifts.Pairwise (· ≤ ·) ∧
      ∃ last, ((s.wrappedLine job).marks.take s.breakAt).getLast? = some last ∧
        last.right =
          job.origin.x + s.wrapWidth + j.gap * uncounted (Mark.codes s.wrappedContent) := by
  have hplan := hj
  simp only [justification?, Option.ite_none_right_eq_some] at hplan
  obtain ⟨-, hplan⟩ := hplan
  have hlast : ∀ c, (Mark.codes s.wrappedContent).getLast? = some c →
      CodePoint.isAdjustableSpace c = false := fun _ => not_adjustable_of_last_content hb
  have htable : s.table = none := by simpa using hwrap.2.2.1
  have hcontent := content_wrappedLine job htable
  simp only [justifiedContent, hj] at hcontent
  generalize s.wrappedContent = placed at *
  obtain ⟨hgap, hhead, hpairs, hend⟩ := shifts_of_plan? hd hh hplan hlast
  generalize hshifts : j.shifts (Mark.codes placed) = shifts at *
  have hlen : placed.length = shifts.length := by
    rw [← hshifts, length_shifts, Mark.codes, List.length_map]
  obtain ⟨m, hm⟩ : ∃ m, placed.getLast? = some m := by
    rw [← Option.isSome_iff_exists, List.getLast?_isSome]
    intro hnil
    rw [hnil] at hlen
    rw [List.length_eq_zero_iff.1 hlen.symm] at hhead
    cases hhead
  have hmoved := Mark.getLast?_zipWith_shift hlen hm hend
  rw [Mark.lastRight, hm, Option.elim_some] at hmoved
  generalize hdx : job.origin.x + s.wrapWidth - m.right + j.gap * uncounted (Mark.codes placed) =
    dx at hmoved
  have hright : (m.shift dx).right =
      job.origin.x + s.wrapWidth + j.gap * uncounted (Mark.codes placed) := by
    rw [Mark.right_shift]
    omega
  -- The line reaches the wrap width, and so there is nothing to be aligned.
  have hshift : s.alignShift job (placed.zipWith (fun m dx => m.shift dx) shifts) = 0 := by
    have hover := Int.mul_nonneg hgap (Int.natCast_nonneg (uncounted (Mark.codes placed)))
    rw [alignShift, Mark.lastRight, hmoved, Option.elim_some, hright]
    split
    · rfl
    · exact TextAlign.shift_of_le _ (by omega)
  rw [hshift, Mark.map_shift_zero] at hcontent
  rw [hcontent]
  exact ⟨rfl, hhead, hpairs, _, hmoved, hright⟩

end LayoutState

/-! ### Layouts -/

open LayoutState Justification

/-- **Justification is exact but for gaps that are not counted.**  A plan moves the first
    glyph of a list not at all, no glyph less than the one before it, and the last one by
    what is missing, and by a gap more for each pair of neighbours whose gap is not
    counted.  So the content of a line that is wrapped is aligned as a whole, or ends at
    the wrap width exactly if no gaps are opened or all of them are counted. -/
theorem Printer.justified_lines {p : Printer} (h : p.fonts.contains p.defaultFont = true)
    (hfonts : ∀ id font, p.fonts.get? id = some font →
      0 ≤ font.face.digitWidth ∧ 0 ≤ font.face.height)
    (markup : List UInt8) (origin : Point) (width : Int) :
    let job := Job.mk p origin width
    (∀ cs target digitWidth height j, 0 ≤ digitWidth → 0 ≤ height →
      (∀ c, cs.getLast? = some c → CodePoint.isAdjustableSpace c = false) →
      plan? (countSpaces cs) (countGaps cs) target digitWidth height = some j →
      (j.shifts cs).head? = some 0 ∧ (j.shifts cs).Pairwise (· ≤ ·) ∧
        (j.shifts cs).getLast? = some (target + j.gap * uncounted cs)) ∧
    ∃ font lines, p.fonts.get? p.defaultFont = some font ∧ job.layout markup = .ok lines ∧
      ∀ s, WrapsAt job font (Codec.decode markup) s →
        let line := s.wrappedLine job
        let codes := Mark.codes s.wrappedContent
        line.line s p.images ∈ lines ∧ line.content = s.breakAt ∧
        ((s.justification? job s.wrappedContent .wrap = none ∧
            line.marks.take line.content =
              s.wrappedContent.map (Mark.shift (s.alignShift job s.wrappedContent))) ∨
          ∃ j last, s.justification? job s.wrappedContent .wrap = some j ∧
            line.marks.take line.content =
              s.wrappedContent.zipWith (fun m dx => m.shift dx) (j.shifts codes) ∧
            (j.shifts codes).head? = some 0 ∧ (j.shifts codes).Pairwise (· ≤ ·) ∧
            (line.marks.take line.content).getLast? = some last ∧
            last.right = origin.x + s.wrapWidth + j.gap * uncounted codes ∧
            (last.right = origin.x + s.wrapWidth ↔ j.gap = 0 ∨ uncounted codes = 0)) := by
  intro job
  constructor
  · intro cs target digitWidth height j hd hh hlast hplan
    exact (shifts_of_plan? hd hh hplan hlast).2
  obtain ⟨font, hfont⟩ := (Registry.contains_iff p.fonts p.defaultFont).1 h
  have hlayout : job.layout markup = .ok (job.layoutWith font (Codec.decode markup)) :=
    Job.layout_eq hfont markup
  refine ⟨font, _, hfont, hlayout, ?_⟩
  intro s hs line codes
  have hover : s.Overflows job := by
    obtain ⟨_, _, _, _, _, hover⟩ := hs
    exact hover
  obtain ⟨id, hid⟩ := hs.registered hfont
  obtain ⟨hd, hh⟩ := hfonts id s.font hid
  refine ⟨hs.line_mem, rfl, ?_⟩
  cases hj : s.justification? job s.wrappedContent .wrap with
  | none =>
    have htable : s.table = none := by simpa using hover.2.2.1
    have hcontent := content_wrappedLine job htable
    simp only [justifiedContent, hj] at hcontent
    exact Or.inl ⟨rfl, hcontent⟩
  | some j =>
    obtain ⟨hcontent, hhead, hpairs, last, hlast, hright⟩ :=
      wrappedLine_of_plan hs.breakWithin hover hd hh hj
    refine Or.inr ⟨j, last, rfl, hcontent, hhead, hpairs, hlast, hright, ?_⟩
    have hzero : j.gap * uncounted codes = 0 ↔ j.gap = 0 ∨ uncounted codes = 0 := by
      rw [Int.mul_eq_zero, Int.natCast_eq_zero]
    rw [← hzero, hright]
    change job.origin.x + s.wrapWidth + j.gap * uncounted codes = job.origin.x + s.wrapWidth ↔ _
    omega

/-! ### A tab in a justified line -/

/-- The bytes of a justified text with a tab in its first line. -/
def Printer.tabbed : List UInt8 := [0xC2, 0x9A, 0x20, 0x61, 0x62, 0x09, 0x63, 0x20, 0x64]

/-- Justification moves the glyphs of that line, and the last one past the wrap width. -/
theorem Printer.tab_past_width :
    ∃ font s last, boxes.fonts.get? boxes.defaultFont = some font ∧
      WrapsAt (Job.mk boxes .zero 80) font (Codec.decode tabbed) s ∧ s.wrapWidth = 80 ∧
      s.wrappedContent.map (·.x) = [0, 10, 20, 64] ∧
      ((s.wrappedLine (Job.mk boxes .zero 80)).marks.take s.breakAt).map (·.x) =
        [0, 16, 32, 76] ∧
      ((s.wrappedLine (Job.mk boxes .zero 80)).marks.take s.breakAt).getLast? = some last ∧
      last.right = 0 + 86 := by
  refine ⟨_, _, _, rfl, ⟨(lexemes (Codec.decode tabbed)).take 5, ⟨6, .text 0x20⟩,
    [⟨7, .text 0x64⟩], ?_, rfl, ?_⟩, rfl, ?_, ?_, rfl, rfl⟩
  · decide +kernel
  · decide +kernel
  · decide +kernel
  · decide +kernel

theorem Printer.metrics_boxes (id : Nat) (font : Font) (h : boxes.fonts.get? id = some font) :
    0 ≤ font.face.digitWidth ∧ 0 ≤ font.face.height := by
  rcases font_of_boxes h with rfl | rfl
  · decide
  · decide

/-- The gap before the tab is opened, but was not counted. -/
theorem Printer.justified_lines_tabbed :
    ∃ font lines s last, boxes.fonts.get? boxes.defaultFont = some font ∧
      (Job.mk boxes .zero 80).layout tabbed = .ok lines ∧
      WrapsAt (Job.mk boxes .zero 80) font (Codec.decode tabbed) s ∧
      (s.wrappedLine (Job.mk boxes .zero 80)).line s boxes.images ∈ lines ∧
      ((s.wrappedLine (Job.mk boxes .zero 80)).marks.take s.breakAt).getLast? = some last ∧
      last.right = 0 + 80 + 6 * 1 := by
  obtain ⟨-, font, lines, hfont, hlayout, hlines⟩ :=
    justified_lines rfl metrics_boxes tabbed .zero 80
  cases hfont
  have hs : ∃ s, WrapsAt (Job.mk boxes .zero 80) (Font.ofFace BoxFace.standard.face)
      (Codec.decode tabbed) s ∧ s.wrapWidth = 80 ∧
      Mark.codes s.wrappedContent = [0x61, 0x62, 0x09, 0x63] ∧
      s.justification? (Job.mk boxes .zero 80) s.wrappedContent .wrap = some ⟨0, 0, 6⟩ := by
    refine ⟨_, ⟨(lexemes (Codec.decode tabbed)).take 5, ⟨6, .text 0x20⟩, [⟨7, .text 0x64⟩], ?_,
      rfl, ?_⟩, rfl, ?_, ?_⟩
    · decide +kernel
    · decide +kernel
    · decide +kernel
    · decide +kernel
  obtain ⟨s, hs, hwidth, hcodes, hplan⟩ := hs
  obtain ⟨hline, hcontent, ⟨hnone, -⟩ | ⟨j, last, hj, -, -, -, hlast, hright, -⟩⟩ := hlines s hs
  · rw [hplan] at hnone
    cases hnone
  · rw [hplan] at hj
    cases hj
    rw [hwidth, hcodes] at hright
    exact ⟨_, lines, s, last, rfl, hlayout, hs, hline, hlast, hright⟩

end RichText
