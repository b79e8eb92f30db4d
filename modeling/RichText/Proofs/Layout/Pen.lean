/-
  RichText/Proofs/Layout/Pen.lean
  ===============================
  **Marks in order, and the pen after the last of them.**

  Where no advance is negative the marks of a line begin one after the other (`Rightward`), and
  between two tokens the pen stands at the right edge of the last one (`PenAfter`).  So no mark
  begins after the place of the next glyph, whether it follows the last mark or goes back over
  it (`PenAfter.behind_beforeMark`).
-/
import RichText.Proofs.Layout.Plain

namespace RichText

/-! ### Marks in order -/

section Rightward

variable {job : Job} {ms : List Mark} {m : Mark} {x y : Int}

/-- A mark that begins at `x` or farther to the right, takes no negative room and is reported
    where it stands. -/
structure Mark.Ahead (x : Int) (m : Mark) : Prop where
  left : x ≤ m.x
  advance : 0 ≤ m.advance
  offset : m.offset.x = 0

theorem Mark.Ahead.le_right (h : m.Ahead x) : m.x ≤ m.right := by
  have hadvance := h.advance
  unfold Mark.right
  omega

theorem Mark.Ahead.shift (h : m.Ahead x) (dx : Int) : (m.shift dx).Ahead (x + dx) where
  left := Int.add_le_add_right h.left dx
  advance := h.advance
  offset := h.offset

theorem Mark.Ahead.shift_of_nonneg (h : m.Ahead x) {dx : Int} (hdx : 0 ≤ dx) :
    (m.shift dx).Ahead x where
  left := by
    have hleft := h.left
    change x ≤ m.x + dx
    omega
  advance := h.advance
  offset := h.offset

/-- Marks from `x` on, each of which begins at the one before it or farther to the right. -/
structure Rightward (x : Int) (ms : List Mark) : Prop where
  ahead : ∀ m ∈ ms, m.Ahead x
  ordered : ms.Pairwise fun m n => m.x ≤ n.x

/-- No mark begins after `x`. -/
def Behind (job : Job) (ms : List Mark) (x : Int) : Prop :=
  job.origin.x ≤ x ∧ ∀ m ∈ ms, m.x ≤ x

theorem Behind.mono {y : Int} (h : Behind job ms x) (hxy : x ≤ y) : Behind job ms y :=
  ⟨Int.le_trans h.1 hxy, fun m hm => Int.le_trans (h.2 m hm) hxy⟩

theorem forall_mem_append {P : Mark → Prop} (h : ∀ n ∈ ms, P n) (hm : P m) :
    ∀ n ∈ ms ++ [m], P n := by
  intro n hn
  rcases List.mem_append.1 hn with hn | hn
  · exact h n hn
  · rw [List.mem_singleton.1 hn]
    exact hm

theorem rightward_nil : Rightward x [] where
  ahead := fun _ hm => nomatch hm
  ordered := .nil

theorem Rightward.append (h : Rightward job.origin.x ms) (hbehind : Behind job ms m.x)
    (hadvance : 0 ≤ m.advance) (hoffset : m.offset.x = 0) :
    Rightward job.origin.x (ms ++ [m]) where
  ahead := forall_mem_append h.ahead ⟨hbehind.1, hadvance, hoffset⟩
  ordered := by
    rw [List.pairwise_append]
    refine ⟨h.ordered, List.pairwise_singleton _ _, ?_⟩
    intro n hn k hk
    rw [List.mem_singleton.1 hk]
    exact hbehind.2 n hn

theorem Rightward.drop (h : Rightward x ms) (n : Nat) : Rightward x (ms.drop n) where
  ahead := fun m hm => h.ahead m (List.mem_of_mem_drop hm)
  ordered := h.ordered.sublist (List.drop_sublist n ms)

theorem Rightward.of_le (h : Rightward x ms) (hy : ∀ m ∈ ms, y ≤ m.x) : Rightward y ms where
  ahead := fun m hm => ⟨hy m hm, (h.ahead m hm).advance, (h.ahead m hm).offset⟩
  ordered := h.ordered

/-- The first mark is the one farthest to the left. -/
theorem Rightward.of_cons (h : Rightward x (m :: ms)) : Rightward m.x (m :: ms) := by
  refine h.of_le ?_
  intro n hn
  rcases List.mem_cons.1 hn with rfl | hn
  · exact Int.le_refl _
  · exact (List.pairwise_cons.1 h.ordered).1 n hn

/-- The marks are moved so that those from `x` on are then from `y` on. -/
theorem Rightward.shift (h : Rightward x ms) (y : Int) :
    Rightward y (ms.map (Mark.shift (y - x))) where
  ahead := by
    intro n hn
    obtain ⟨m, hm, rfl⟩ := List.mem_map.1 hn
    have hmoved := (h.ahead m hm).shift (y - x)
    rwa [show x + (y - x) = y by omega] at hmoved
  ordered := by
    rw [List.pairwise_map]
    exact h.ordered.imp fun hmn => Int.add_le_add_right hmn _

theorem Rightward.behind_last (h : Rightward job.origin.x ms) {last : Mark}
    (hlast : ms.getLast? = some last) : Behind job ms last.x := by
  obtain ⟨rest, rfl⟩ := List.getLast?_eq_some_iff.1 hlast
  refine ⟨(h.ahead last (List.mem_append_right rest (List.mem_singleton_self last))).left, ?_⟩
  refine forall_mem_append ?_ (Int.le_refl last.x)
  intro m hm
  exact (List.pairwise_append.1 h.ordered).2.2 m hm last (List.mem_singleton_self last)

end Rightward

namespace LayoutState

variable {job : Job} {s t : LayoutState} {content : Nat} {reason : LineEnd}

/-! ### Taking a mark -/

theorem toList_pushMark (job : Job) (s : LayoutState) (code : Nat) (kind : MarkKind)
    (advance : Int) (index : Nat) :
    (s.pushMark job code kind advance index).marks.toList =
      s.marks.toList ++ [newMark job s code kind advance index] := by
  rw [marks_pushMark, Array.toList_push]

theorem pen_pushMark (job : Job) (s : LayoutState) (code : Nat) (kind : MarkKind) (advance : Int)
    (index : Nat) :
    let t := s.pushMark job code kind advance index
    t.penX = (s.beginLine job).penX + advance ∧ t.lastAdvance = advance ∧
      t.lineStarted = true := by
  refine ⟨rfl, rfl, ?_⟩
  change (s.beginLine job).lineStarted = true
  unfold beginLine
  split
  · next h => exact h
  · rfl

/-! ### The pen -/

/-- The pen stands after the last mark. -/
structure PenAfter (s : LayoutState) : Prop where
  started : s.lineStarted = true ↔ s.marks.toList ≠ []
  pen : ∀ last, s.marks.toList.getLast? = some last → s.penX = last.right
  prev : s.prev ≠ none →
    ∃ last, s.marks.toList.getLast? = some last ∧ s.lastAdvance = last.advance

theorem penAfter_of_last {last : Mark} (hlast : s.marks.toList.getLast? = some last)
    (hs : s.lineStarted = true) (hpen : s.penX = last.right)
    (hback : s.lastAdvance = last.advance) : s.PenAfter where
  started := by
    refine iff_of_true hs ?_
    intro hempty
    rw [hempty] at hlast
    cases hlast
  pen := by
    intro other hother
    cases hlast.symm.trans hother
    exact hpen
  prev := fun _ => ⟨last, hlast, hback⟩

/-- Nothing has been put on the line. -/
theorem penAfter_of_empty (hm : s.marks = #[]) (hs : s.lineStarted = false) (hp : s.prev = none) :
    s.PenAfter where
  started := by
    rw [hs, hm]
    exact iff_of_false Bool.false_ne_true (fun h => h rfl)
  pen := by
    rw [hm]
    exact fun _ hlast => nomatch hlast
  prev := fun h => absurd hp h

theorem penAfter_pushMark (job : Job) (s : LayoutState) (code : Nat) (kind : MarkKind)
    (advance : Int) (index : Nat) : (s.pushMark job code kind advance index).PenAfter := by
  obtain ⟨hpen, hback, hstarted⟩ := pen_pushMark job s code kind advance index
  have hlast : (s.pushMark job code kind advance index).marks.toList.getLast? =
      some (newMark job s code kind advance index) := by
    rw [toList_pushMark, List.getLast?_concat]
  exact penAfter_of_last hlast hstarted hpen hback

theorem PenAfter.quiet (h : s.PenAfter) (hq : Quiet s t) : t.PenAfter where
  started := by
    rw [hq.lineStarted, hq.marks]
    exact h.started
  pen := by
    rw [hq.marks, hq.penX]
    exact h.pen
  prev := by
    intro hp
    rw [hq.marks, hq.lastAdvance]
    rcases hq.prev with hprev | hprev
    · exact h.prev (hprev ▸ hp)
    · exact absurd hprev hp

theorem PenAfter.noteBreak (h : s.PenAfter) (p : Bool) : (s.noteBreak p).PenAfter := by
  cases p with
  | true => exact ⟨h.started, h.pen, h.prev⟩
  | false => exact h

/-- After a commit the pen stands after what is left over. -/
theorem PenAfter.commit (h : s.PenAfter) {x : Int}
    (hleft : ∀ u, SameSettings s u → u.paragraph = (reason == .newline true) → u.leftEdge job = x)
    (hr : reason ≠ .row) : (s.commit job content reason).PenAfter := by
  cases hrest : s.marks.toList.drop (s.cut content reason) with
  | nil =>
    obtain ⟨hm, hs, hp⟩ := commit_all job hrest
    exact penAfter_of_empty hm hs hp
  | cons first rest =>
    obtain ⟨hm, hs, hpen, hprev, hback⟩ := commit_rest hleft hr hrest
    refine ⟨?_, hpen, ?_⟩
    · rw [hm, hs]
      simp
    · intro hp
      obtain ⟨last, hlast, hadvance⟩ := h.prev (hprev ▸ hp)
      have hkept : (first :: rest).getLast? = some last := by
        rw [← hrest, List.getLast?_drop, hlast, if_neg]
        intro hle
        rw [List.drop_eq_nil_of_le hle] at hrest
        cases hrest
      refine ⟨last.shift (x - first.x), ?_, hback.trans hadvance⟩
      rw [hm, List.getLast?_map, hkept]
      rfl

/-- No mark begins after the pen, nor would one that goes back over the last mark. -/
theorem PenAfter.behind (h : s.PenAfter) (hmarks : Rightward job.origin.x s.marks.toList)
    (hleft : s.leftEdge job = job.origin.x) :
    Behind job s.marks.toList (s.beginLine job).penX ∧
      (s.prev ≠ none → Behind job s.marks.toList ((s.beginLine job).penX - s.lastAdvance)) := by
  unfold LayoutState.beginLine
  by_cases hstarted : s.lineStarted = true
  · rw [if_pos hstarted]
    obtain ⟨last, hlast⟩ : ∃ last, s.marks.toList.getLast? = some last :=
      List.getLast?_isSome.2 (h.started.1 hstarted) |> Option.isSome_iff_exists.1
    have hbehind := hmarks.behind_last hlast
    have hadvance := (hmarks.ahead last (List.mem_of_getLast? hlast)).advance
    have hpen := h.pen last hlast
    unfold Mark.right at hpen
    constructor
    · exact hbehind.mono (by omega)
    · intro hprev
      obtain ⟨_, hlast', hback⟩ := h.prev hprev
      cases hlast.symm.trans hlast'
      exact hbehind.mono (by omega)
  · rw [if_neg hstarted]
    have hempty : s.marks.toList = [] := by
      rw [h.started] at hstarted
      exact Classical.not_not.1 hstarted
    change Behind job s.marks.toList (s.leftEdge job) ∧ _
    rw [hleft]
    constructor
    · refine ⟨Int.le_refl _, ?_⟩
      rw [hempty]
      exact fun _ hm => nomatch hm
    · intro hprev
      obtain ⟨last, hlast, -⟩ := h.prev hprev
      rw [hempty] at hlast
      cases hlast

/-- Noting a place for a break and starting the line leave the pen to the left edge. -/
private theorem beginLine_noteBreak_frame (job : Job) (s : LayoutState) (c : Nat) :
    let u := (s.beginLine job).noteBreak (CodePoint.isBreaking c)
    u.penX = (s.beginLine job).penX ∧ u.prev = s.prev ∧ u.lastAdvance = s.lastAdvance ∧
      u.lineStarted = true := by
  have hnote : ∀ (v : LayoutState) (p : Bool), (v.noteBreak p).penX = v.penX ∧
      (v.noteBreak p).prev = v.prev ∧ (v.noteBreak p).lastAdvance = v.lastAdvance ∧
      (v.noteBreak p).lineStarted = v.lineStarted := by
    intro v p
    cases p with
    | true => exact ⟨rfl, rfl, rfl, rfl⟩
    | false => exact ⟨rfl, rfl, rfl, rfl⟩
  obtain ⟨hx, hp, ha, hs⟩ := hnote (s.beginLine job) (CodePoint.isBreaking c)
  have hbegin : (s.beginLine job).prev = s.prev ∧ (s.beginLine job).lastAdvance = s.lastAdvance ∧
      (s.beginLine job).lineStarted = true := by
    unfold beginLine
    split
    · next h => exact ⟨rfl, rfl, h⟩
    · exact ⟨rfl, rfl, rfl⟩
  exact ⟨hx, hp.trans hbegin.1, ha.trans hbegin.2.1, hs.trans hbegin.2.2⟩

theorem beginLine_beforeMark (job : Job) (s : LayoutState) (c : Nat) :
    (beforeMark job s c).beginLine job = beforeMark job s c := by
  obtain ⟨-, -, -, hs⟩ := beginLine_noteBreak_frame job s c
  exact if_pos hs

/-- A glyph is put where no mark begins after it, if the room before it is not negative or just
    takes the pen back over the last mark. -/
theorem PenAfter.behind_beforeMark (h : s.PenAfter)
    (hmarks : Rightward job.origin.x s.marks.toList) (hleft : s.leftEdge job = job.origin.x)
    {c : Nat}
    (hroom : let u := (s.beginLine job).noteBreak (CodePoint.isBreaking c)
      0 ≤ u.roomBefore c ∨ (u.prev ≠ none ∧ u.roomBefore c = -u.lastAdvance)) :
    Behind job (beforeMark job s c).marks.toList ((beforeMark job s c).beginLine job).penX := by
  obtain ⟨hpen, hback⟩ := h.behind hmarks hleft
  obtain ⟨hx, hp, ha, -⟩ := beginLine_noteBreak_frame job s c
  obtain ⟨hm, -⟩ := beforeMark_frame job s c
  rw [beginLine_beforeMark, hm]
  change Behind job s.marks.toList
    (((s.beginLine job).noteBreak (CodePoint.isBreaking c)).penX +
      ((s.beginLine job).noteBreak (CodePoint.isBreaking c)).roomBefore c)
  rw [hx]
  rcases hroom with hroom | ⟨hprev, hroom⟩
  · exact hpen.mono (by omega)
  · rw [hroom, ha]
    exact hback (hp ▸ hprev)

end LayoutState

end RichText
