/-
  RichText/Proofs/Layout/TabStops.lean
  ====================================
  **Tab stops by number, and the nearest one.**

  Tab stops are a list that is edited in place: a stop that is set anew keeps its place in it
  (`TabStops.numbers_set`).  What the list holds is nevertheless told by the changes alone.  No
  number comes twice, and a number has the position that the last change of it has set
  (`TabStops.Recorded`).  In a layout these changes are those that the markup asks for, since no
  reset and no end of a line touches tab stops (`LayoutState.tabStops_run`).

  A tab ends at the least position of a stop to the right of the pen.  Where there is none it ends
  at the least multiple of the tab width there, also to the left of the origin, where the quotient
  has to be rounded down (`LayoutState.isLeast_nextMultiple`).
-/
import Mathlib.Data.List.Induction
import Mathlib.Order.Bounds.Basic
import RichText.Proofs.Layout.Plain
import RichText.Proofs.Layout.Steps

namespace RichText

/-! ### Changes of tab stops -/

namespace TabStops

/-- A tab stop is set, or the one of a number is removed. -/
inductive Change where
  | set (id : Nat) (position : Length)
  | remove (id : Nat)
deriving DecidableEq, Repr

/-- The number of the stop that changes. -/
def Change.id : Change → Nat
  | .set id _ => id
  | .remove id => id

def change (stops : TabStops) : Change → TabStops
  | .set id position => stops.set id position
  | .remove id => stops.remove id

/-- The last of some changes that is about a number. -/
def last? (id : Nat) (changes : List Change) : Option Change :=
  (changes.filter (·.id = id)).getLast?

variable {stops : TabStops} {changes : List Change} {id i : Nat} {p q : Length}

theorem last?_concat (id : Nat) (changes : List Change) (c : Change) :
    last? id (changes ++ [c]) = if c.id = id then some c else last? id changes := by
  rw [last?, List.filter_append, List.getLast?_append, List.filter_singleton]
  by_cases hc : c.id = id
  · simp only [hc, decide_true, cond_true, if_true, List.getLast?_singleton, Option.some_or]
  · simp only [hc, decide_false, cond_false, if_false, List.getLast?_nil, Option.none_or, last?]

/-! ### One change -/

/-- A stop that is set anew keeps its place, and a new one comes last. -/
theorem numbers_set (id : Nat) (p : Length) (stops : TabStops) :
    (stops.set id p).map Prod.fst =
      if id ∈ stops.map Prod.fst then stops.map Prod.fst else stops.map Prod.fst ++ [id] := by
  induction stops with
  | nil => rfl
  | cons stop rest ih =>
    obtain ⟨j, old⟩ := stop
    by_cases hj : j = id
    · subst hj
      simp only [set, if_true, List.map_cons, List.mem_cons_self]
    · simp only [set, if_neg hj, List.map_cons, ih, List.mem_cons, Ne.symm hj, false_or]
      split <;> rfl

theorem nodup_set (h : (stops.map Prod.fst).Nodup) (id : Nat) (p : Length) :
    ((stops.set id p).map Prod.fst).Nodup := by
  rw [numbers_set]
  split
  · exact h
  · next hid =>
    refine List.nodup_append.2 ⟨h, List.pairwise_singleton _ _, ?_⟩
    rintro i hi j hj rfl
    exact hid (List.mem_singleton.1 hj ▸ hi)

/-- Only the stop that is set changes.  A second one of its number would be left as it was, if the
    list could hold one. -/
theorem mem_set (h : (stops.map Prod.fst).Nodup) :
    (i, q) ∈ stops.set id p ↔ id = i ∧ p = q ∨ id ≠ i ∧ (i, q) ∈ stops := by
  induction stops with
  | nil =>
    simp only [set, List.mem_singleton, Prod.mk.injEq, List.not_mem_nil, and_false, or_false,
      eq_comm]
  | cons stop rest ih =>
    obtain ⟨j, old⟩ := stop
    obtain ⟨hj, hrest⟩ := List.nodup_cons.1 h
    have hfirst : ∀ r, (j, r) ∉ rest := fun r hr => hj (List.mem_map.2 ⟨_, hr, rfl⟩)
    by_cases hid : j = id
    · subst hid
      by_cases hi : j = i
      · subst hi
        simp only [set, if_true, List.mem_cons, hfirst, Prod.mk.injEq, true_and, or_false,
          ne_eq, not_true, false_and, eq_comm]
      · simp only [set, if_true, List.mem_cons, Prod.mk.injEq, hi, Ne.symm hi, false_and, false_or,
          ne_eq, not_false_eq_true, true_and]
    · simp only [set, if_neg hid, List.mem_cons, ih hrest, Prod.mk.injEq]
      by_cases hi : id = i
      · subst hi
        simp only [Ne.symm hid, false_and, false_or, true_and, ne_eq, not_true, or_false]
      · simp only [hi, false_and, false_or, ne_eq, not_false_eq_true, true_and]

theorem mem_remove : (i, q) ∈ stops.remove id ↔ id ≠ i ∧ (i, q) ∈ stops := by
  rw [remove, List.mem_filter, bne_iff_ne, and_comm, ne_comm]

theorem nodup_change (h : (stops.map Prod.fst).Nodup) (c : Change) :
    ((stops.change c).map Prod.fst).Nodup := by
  cases c with
  | set id position => exact nodup_set h id position
  | remove id => exact h.sublist (List.filter_sublist.map Prod.fst)

theorem mem_change (h : (stops.map Prod.fst).Nodup) (c : Change) :
    (i, q) ∈ stops.change c ↔ c = .set i q ∨ c.id ≠ i ∧ (i, q) ∈ stops := by
  cases c with
  | set id position =>
    rw [change, mem_set h, Change.set.injEq, Change.id]
  | remove id =>
    rw [change, mem_remove, Change.id]
    simp only [reduceCtorEq, false_or]

/-! ### Many changes -/

/-- No number comes twice, and each has the position that the last of the changes of it has
    set. -/
structure Recorded (changes : List Change) (stops : TabStops) : Prop where
  nodup : (stops.map Prod.fst).Nodup
  mem_iff : ∀ id position, (id, position) ∈ stops ↔ last? id changes = some (.set id position)

theorem Recorded.change (h : Recorded changes stops) (c : Change) :
    Recorded (changes ++ [c]) (stops.change c) where
  nodup := nodup_change h.nodup c
  mem_iff := by
    intro id position
    rw [mem_change h.nodup, last?_concat, h.mem_iff]
    by_cases hc : c.id = id
    · rw [if_pos hc, Option.some.injEq]
      exact or_iff_left fun hother => hother.1 hc
    · rw [if_neg hc]
      have hset : c ≠ .set id position := by
        rintro rfl
        exact hc rfl
      simp only [hset, hc, false_or, ne_eq, not_false_eq_true, true_and]

theorem recorded_foldl (changes : List Change) : Recorded changes (changes.foldl change []) := by
  induction changes using List.reverseRecOn with
  | nil => exact ⟨.nil, fun id position => iff_of_false List.not_mem_nil nofun⟩
  | append_singleton changes c ih =>
    rw [List.foldl_concat]
    exact ih.change c

end TabStops

/-- The change of a tab stop that a token asks for; a stop that is set to nothing is removed. -/
def Token.stopChange? : Token → Option TabStops.Change
  | .instruction (.setting (.addTabStop id (some position))) => some (.set id.val position)
  | .instruction (.setting (.addTabStop id none)) => some (.remove id.val)
  | .instruction (.setting (.removeTabStop id)) => some (.remove id.val)
  | _ => none

namespace LayoutState

variable {job : Job} {s : LayoutState}

/-! ### The tab stops of a layout -/

theorem tabStops_switchFont (job : Job) (s : LayoutState) :
    (s.switchFont job).format.tabStops = s.format.tabStops :=
  congrArg Format.tabStops (switchFont_frame job s).1

theorem tabStops_applySetting (job : Job) (s : LayoutState) (index : Nat) (setting : Setting) :
    (s.applySetting job index setting).format.tabStops =
      ((Token.instruction (.setting setting)).stopChange?).elim s.format.tabStops
        s.format.tabStops.change := by
  cases setting with
  | color target c => cases target <;> rfl
  | length target l =>
    cases target with
    | horizontalSpace =>
      cases l with
      | none => rfl
      | some l => exact congrArg Format.tabStops (sameStyle_addMark job s _ _ _ index).format
    | verticalSpace =>
      cases l with
      | none => rfl
      | some l =>
        simp only [applySetting, applyLength, Option.elim_some, addVerticalSpace]
        split <;> rfl
    | _ => rfl
  | image i =>
    simp only [applySetting, placeImage]
    cases job.printer.images.get? i.index.val with
    | none => rfl
    | some image => exact congrArg Format.tabStops (sameStyle_addMark job s _ _ _ index).format
  | font id => exact tabStops_switchFont job _
  | lineSettings line change => cases line <;> rfl
  | beginTable border width columns =>
    exact congrArg Format.tabStops (sameStyle_finishLine job s (.newline false)).format
  | addTabStop id position => cases position <;> rfl
  | _ => rfl

/-- A token makes the change that it asks for, and no other. -/
theorem tabStops_step (job : Job) (s : LayoutState) (l : Lexeme) :
    (s.step job l).format.tabStops =
      l.token.stopChange?.elim s.format.tabStops s.format.tabStops.change := by
  obtain ⟨index, token⟩ := l
  cases token with
  | instruction i =>
    cases i with
    | toggle t =>
      cases t with
      | startSelection => rfl
      | endSelection => rfl
      | _ => exact tabStops_switchFont job _
    | switch w =>
      cases w with
      | resetFormatting => exact tabStops_switchFont job _
      | script kind => exact tabStops_switchFont job _
      | decorate line shown => cases line <;> rfl
      | endTable => exact congrArg Format.tabStops (sameStyle_endTable job s).format
      | _ => rfl
    | setting setting => exact tabStops_applySetting job s index setting
  | _ => exact congrArg Format.tabStops (sameStyle_step job s fun _ => Token.noConfusion).format

theorem tabStops_run (job : Job) (s : LayoutState) (ls : List Lexeme) :
    (s.run job ls).format.tabStops =
      (ls.filterMap (·.token.stopChange?)).foldl TabStops.change s.format.tabStops := by
  induction ls generalizing s with
  | nil => rfl
  | cons l ls ih =>
    have hrun : s.run job (l :: ls) = (s.step job l).run job ls := rfl
    rw [hrun, ih, tabStops_step, List.filterMap_cons]
    cases l.token.stopChange? with
    | none => rfl
    | some c => rfl

/-! ### Where a tab ends -/

/-- The positions of tab stops to the right of the pen, seen from the origin. -/
def stopsAhead (job : Job) (s : LayoutState) : Set Int :=
  {x | s.penX - job.origin.x < x ∧
    ∃ stop ∈ s.format.tabStops, stop.2.resolveWith s.font.face.em s.wrapWidth = x}

/-- The multiples of the tab width to the right of the pen, seen from the origin; a tab is at
    least one pixel wide. -/
def multiplesAhead (job : Job) (s : LayoutState) : Set Int :=
  {x | s.penX - job.origin.x < x ∧ max (s.format.tabWidth.getD s.font.style.tabWidth) 1 ∣ x}

theorem isLeast_nextMultiple (pen : Int) {width : Int} (hwidth : 0 < width) :
    IsLeast {x | pen < x ∧ width ∣ x} ((pen / width + 1) * width) := by
  refine ⟨⟨Int.lt_ediv_add_one_mul_self pen hwidth, Int.dvd_mul_left _ _⟩, ?_⟩
  -- The quotient is rounded down whatever the sign of the pen is, so it is less than any factor
  -- of the width that gives a multiple to the right of the pen.
  rintro x ⟨hlt, n, rfl⟩
  rw [Int.mul_comm width n] at hlt ⊢
  have hquotient : pen / width < n := Int.ediv_lt_of_lt_mul hwidth hlt
  exact Int.mul_le_mul_of_nonneg_right hquotient (Int.le_of_lt hwidth)

theorem isLeast_stopsAhead (h : (s.stopsAhead job).Nonempty) :
    IsLeast (s.stopsAhead job) (s.penX - job.origin.x + s.tabAdvance job) := by
  rcases tabAdvance_cases job s with ⟨stop, hstop, hbehind, hends, hnearest⟩ | ⟨hpassed, _⟩
  · rw [hends]
    refine ⟨⟨hbehind, stop, hstop, rfl⟩, ?_⟩
    rintro x ⟨hlt, other, hother, rfl⟩
    exact hnearest other hother hlt
  · obtain ⟨x, hlt, stop, hstop, rfl⟩ := h
    exact absurd hlt (Int.not_lt.2 (hpassed stop hstop))

theorem isLeast_multiplesAhead (h : s.stopsAhead job = ∅) :
    IsLeast (s.multiplesAhead job) (s.penX - job.origin.x + s.tabAdvance job) := by
  rcases tabAdvance_cases job s with ⟨stop, hstop, hbehind, _⟩ | ⟨_, hends⟩
  · have hahead : stop.2.resolveWith s.font.face.em s.wrapWidth ∈ s.stopsAhead job :=
      ⟨hbehind, stop, hstop, rfl⟩
    rw [h] at hahead
    exact hahead.elim
  · rw [hends]
    refine isLeast_nextMultiple _ ?_
    omega

/-- **Tab stops are kept by number, and a tab goes to the nearest one.**  After any changes no
    number comes twice, and a number has a position exactly if the last change of it has set that
    one; the tab stops of a layout are those after the changes that its tokens ask for.  In each
    state with such stops, wherever the pen is and whatever the font and the wrap width are, a tab
    is at least one pixel wide.  It ends at the least position of a stop to the right of the pen
    or, if there is none, at the least multiple of the tab width there. -/
theorem tab_to_nearest (changes : List TabStops.Change) :
    let stops := changes.foldl TabStops.change []
    (stops.map Prod.fst).Nodup ∧
    (∀ id position, (id, position) ∈ stops ↔
      (changes.filter (·.id = id)).getLast? = some (.set id position)) ∧
    (∀ (job : Job) (font : Font) (ls : List Lexeme),
      ls.filterMap (·.token.stopChange?) = changes →
        ((initial job font).run job ls).format.tabStops = stops) ∧
    ∀ (job : Job) (s : LayoutState), s.format.tabStops = stops →
      let pen := s.penX - job.origin.x
      let ahead := {x | pen < x ∧
        ∃ stop ∈ stops, stop.2.resolveWith s.font.face.em s.wrapWidth = x}
      let width := max (s.format.tabWidth.getD s.font.style.tabWidth) 1
      1 ≤ s.tabAdvance job ∧
      (ahead.Nonempty → IsLeast ahead (pen + s.tabAdvance job)) ∧
      (ahead = ∅ → IsLeast {x | pen < x ∧ width ∣ x} (pen + s.tabAdvance job)) := by
  intro stops
  have hrecorded := TabStops.recorded_foldl changes
  refine ⟨hrecorded.nodup, hrecorded.mem_iff, ?_, ?_⟩
  · rintro job font ls rfl
    exact tabStops_run job (initial job font) ls
  · intro job s hstops pen ahead width
    have hahead : ahead = s.stopsAhead job := by
      rw [stopsAhead, hstops]
    rw [hahead]
    exact ⟨tabAdvance_pos job s, isLeast_stopsAhead, isLeast_multiplesAhead⟩

/-- Tokens that set one tab stop, add another, move the first to the left of the origin and remove
    the second. -/
def movedStop : List Lexeme :=
  [⟨0, .instruction (.setting (.addTabStop .one (some ⟨40, 0, 0⟩)))⟩,
    ⟨6, .instruction (.setting (.addTabStop .zero (some ⟨0, 0, 5000⟩)))⟩,
    ⟨12, .instruction (.setting (.addTabStop .one (some ⟨-100, 0, 0⟩)))⟩,
    ⟨18, .instruction (.setting (.removeTabStop .zero))⟩]

/-- The pen is to the left of the origin, before the stop that is left and behind it. -/
theorem tab_to_nearest_movedStop :
    let job : Job := ⟨.boxes, ⟨200, 0⟩, 300⟩
    let s := (initial job (Font.ofFace BoxFace.standard.face)).run job movedStop
    let ahead := fun pen : Int => {x | pen < x ∧
      ∃ stop ∈ s.format.tabStops, stop.2.resolveWith s.font.face.em s.wrapWidth = x}
    s.format.tabStops = [(1, ⟨-100, 0, 0⟩)] ∧
    ({ s with penX := 70 }.tabAdvance job = 30 ∧ (ahead (70 - 200)).Nonempty ∧
      IsLeast (ahead (70 - 200)) (70 - 200 + 30)) ∧
    ({ s with penX := 125 }.tabAdvance job = 11 ∧ ahead (125 - 200) = ∅ ∧
      IsLeast {x : Int | 125 - 200 < x ∧ 64 ∣ x} (125 - 200 + 11)) := by
  intro job s ahead
  obtain ⟨-, -, hrun, htab⟩ := tab_to_nearest (movedStop.filterMap (·.token.stopChange?))
  have hs := hrun job (Font.ofFace BoxFace.standard.face) movedStop rfl
  obtain ⟨-, hstop, -⟩ := htab job { s with penX := 70 } hs
  obtain ⟨-, -, hgrid⟩ := htab job { s with penX := 125 } hs
  rw [← hs] at hstop hgrid
  have hthirty : { s with penX := 70 }.tabAdvance job = 30 := by decide +kernel
  have heleven : { s with penX := 125 }.tabAdvance job = 11 := by decide +kernel
  rw [hthirty] at hstop
  rw [heleven] at hgrid
  have hone : s.format.tabStops = [(1, ⟨-100, 0, 0⟩)] := by decide +kernel
  have hposition : (⟨-100, 0, 0⟩ : Length).resolveWith s.font.face.em s.wrapWidth = -100 := by
    decide +kernel
  have hahead : (ahead (70 - 200)).Nonempty := by
    refine ⟨-100, by decide, (1, ⟨-100, 0, 0⟩), ?_, hposition⟩
    rw [hone]
    exact List.mem_cons_self
  have hnone : ahead (125 - 200) = ∅ := by
    refine Set.eq_empty_iff_forall_notMem.2 ?_
    rintro x ⟨hlt, stop, hstop, rfl⟩
    rw [hone, List.mem_singleton] at hstop
    rw [hstop, hposition] at hlt
    exact absurd hlt (by decide)
  have hwidth : max (s.format.tabWidth.getD s.font.style.tabWidth) 1 = 64 := by decide +kernel
  have hleast := hgrid hnone
  dsimp only at hleast
  rw [hwidth] at hleast
  exact ⟨hone, ⟨hthirty, hahead, hstop hahead⟩, ⟨heleven, hnone, hleast⟩⟩

end LayoutState

end RichText
