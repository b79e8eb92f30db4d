/-
  RichText/Proofs/Layout/Wrapping.lean
  ====================================
  **What a wrap leaves on the line, and what it carries on.**

  The marks of a plain layout stand in order from the origin on.  When one of them goes
  past the wrap width the line is broken before it, and what follows the break moves to
  the origin.  Marks that fitted still do then; the new one need not.  `Placed.addMark`
  keeps account of the marks that stand past the wrap width: these are the marks in
  `wide`, if `wide` holds the new one exactly when the line is still too wide
  (`Overfull`) after it has been taken.
-/
import RichText.Proofs.Layout.Pen

namespace RichText

/-! ### Marks in place -/

section InPlace

variable {job : Job} {wide : Nat → Prop} {ms : List Mark} {m : Mark} {x : Int}

/-- Marks in order from the origin on, of which those in `wide` stand past the wrap width. -/
structure InPlace (wide : Nat → Prop) (job : Job) (ms : List Mark) : Prop where
  fromOrigin : ∀ m ∈ ms, job.origin.x ≤ m.x
  ordered : ms.Pairwise fun m n => m.x ≤ n.x
  advance : ∀ m ∈ ms, 0 ≤ m.advance
  offset : ∀ m ∈ ms, m.offset.x = 0
  told : ∀ m ∈ ms, job.origin.x + job.width < m.right ↔ wide m.index

theorem InPlace.rightward (h : InPlace wide job ms) : Rightward job.origin.x ms where
  ahead := fun m hm => ⟨h.fromOrigin m hm, h.advance m hm, h.offset m hm⟩
  ordered := h.ordered

theorem Rightward.inPlace (h : Rightward job.origin.x ms)
    (htold : ∀ m ∈ ms, job.origin.x + job.width < m.right ↔ wide m.index) :
    InPlace wide job ms where
  fromOrigin := fun m hm => (h.ahead m hm).left
  ordered := h.ordered
  advance := fun m hm => (h.ahead m hm).advance
  offset := fun m hm => (h.ahead m hm).offset
  told := htold

theorem inPlace_nil : InPlace wide job [] := rightward_nil.inPlace fun _ hm => nomatch hm

theorem InPlace.append (h : InPlace wide job ms) (hbehind : Behind job ms m.x)
    (hadvance : 0 ≤ m.advance) (hoffset : m.offset.x = 0)
    (htold : job.origin.x + job.width < m.right ↔ wide m.index) :
    InPlace wide job (ms ++ [m]) :=
  (h.rightward.append hbehind hadvance hoffset).inPlace (forall_mem_append h.told htold)

theorem InPlace.drop (h : InPlace wide job ms) (n : Nat) : InPlace wide job (ms.drop n) :=
  (h.rightward.drop n).inPlace fun m hm => h.told m (List.mem_of_mem_drop hm)

/-- Marks that fit are moved to the left, so that the first one is at the origin. -/
theorem InPlace.shift (h : InPlace wide job ms)
    (hfit : ∀ m ∈ ms, m.right ≤ job.origin.x + job.width) (hx : job.origin.x ≤ x)
    (hfirst : ∀ m ∈ ms, x ≤ m.x) :
    InPlace wide job (ms.map (Mark.shift (job.origin.x - x))) := by
  refine ((h.rightward.of_le hfirst).shift job.origin.x).inPlace ?_
  intro n hn
  obtain ⟨m, hm, rfl⟩ := List.mem_map.1 hn
  have hright := hfit m hm
  have hnot : ¬ wide m.index := by
    intro hwide
    have hpast := (h.told m hm).2 hwide
    omega
  refine iff_of_false ?_ hnot
  change ¬ job.origin.x + job.width < m.x + (job.origin.x - x) + m.advance
  unfold Mark.right at hright
  omega

end InPlace

/-- Of the glyphs on a line with others, those in `wide` stand past the wrap width. -/
def Line.Told (wide : Nat → Prop) (job : Job) (l : Line) : Prop :=
  2 ≤ l.content.length →
    ∀ g ∈ l.content, job.origin.x + job.width < g.location.x + g.advance ↔ wide g.index

namespace LayoutState

variable {job : Job} {s t : LayoutState} {wide : Nat → Prop}

/-! ### The place of the break -/

private theorem isBlank_of_isSpace {m : Mark} (h : CodePoint.isSpace m.code = true) :
    m.isBlank = true := by
  unfold Mark.isBlank
  rw [h, Bool.true_or]

theorem isBlank_of_trimSpaces_le (marks : Array Mark) (n : Nat) {i : Nat}
    (hi : trimSpaces marks n ≤ i) (hn : i < n) {m : Mark} (hm : marks[i]? = some m) :
    m.isBlank = true := by
  induction n with
  | zero => exact absurd hn (Nat.not_lt_zero i)
  | succ n ih =>
    unfold trimSpaces at hi
    by_cases hspace : (marks[n]?).any (CodePoint.isSpace ·.code) = true
    · rw [if_pos hspace] at hi
      rcases Nat.lt_or_eq_of_le (Nat.le_of_lt_succ hn) with hlt | rfl
      · exact ih hi hlt
      · rw [hm] at hspace
        exact isBlank_of_isSpace hspace
    · rw [if_neg hspace] at hi
      omega

/-- The blanks that are trimmed before a break stay on the line, with those after it. -/
theorem cut_trimSpaces {n : Nat} (hn : n ≤ s.marks.size) :
    s.cut (trimSpaces s.marks n) .wrap =
      n + ((s.marks.toList.drop n).takeWhile Mark.isBlank).length := by
  generalize hc : trimSpaces s.marks n = content
  have hle : content ≤ n := hc ▸ trimSpaces_le s.marks n
  have hblank : ∀ m ∈ (s.marks.toList.drop content).take (n - content), m.isBlank = true := by
    intro m hm
    obtain ⟨i, hi⟩ := List.mem_iff_getElem?.1 hm
    rw [List.getElem?_take, List.getElem?_drop] at hi
    split at hi
    · next hlt =>
      refine isBlank_of_trimSpaces_le s.marks n (i := content + i) ?_ ?_ ?_
      · omega
      · omega
      · rw [← Array.getElem?_toList]
        exact hi
    · cases hi
  have hdrop : (s.marks.toList.drop content).drop (n - content) = s.marks.toList.drop n := by
    rw [List.drop_drop, Nat.add_sub_of_le hle]
  have htake : ((s.marks.toList.drop content).takeWhile Mark.isBlank).length =
      n - content + ((s.marks.toList.drop n).takeWhile Mark.isBlank).length := by
    rw [← List.take_append_drop (n - content) (s.marks.toList.drop content),
      List.takeWhile_append_of_pos hblank, List.length_append, hdrop, List.length_take,
      List.length_drop, Array.length_toList]
    omega
  simp only [cut, htake]
  omega

theorem le_cut_trimSpaces {n : Nat} (hn : n ≤ s.marks.size) :
    n ≤ s.cut (trimSpaces s.marks n) .wrap := by
  rw [cut_trimSpaces hn]
  exact Nat.le_add_right n _

/-- Where a line of `size` marks is broken, but for the blanks around: at the noted place,
    unless that is the start of the line, or else before the last mark. -/
def breakPos (noted : Option Nat) (size : Nat) : Nat :=
  match noted with
  | some pos => if 0 < pos then pos else if size ≤ 1 then size else size - 1
  | none => if size ≤ 1 then size else size - 1

theorem breakPos_le {noted : Option Nat} {size : Nat} (h : ∀ pos, noted = some pos → pos ≤ size) :
    breakPos noted size ≤ size := by
  cases noted with
  | none =>
    simp only [breakPos]
    split <;> omega
  | some pos =>
    have hpos := h pos rfl
    simp only [breakPos]
    split_ifs <;> omega

theorem breakPos_pos (noted : Option Nat) {size : Nat} (h : 0 < size) : 0 < breakPos noted size := by
  cases noted with
  | none =>
    simp only [breakPos]
    split <;> omega
  | some pos =>
    simp only [breakPos]
    split_ifs <;> omega

theorem cut_breakAt (h : s.BreakWithin) :
    s.cut s.breakAt .wrap = breakPos s.lastBreak s.marks.size +
      ((s.marks.toList.drop (breakPos s.lastBreak s.marks.size)).takeWhile Mark.isBlank).length :=
  cut_trimSpaces (breakPos_le h)

/-- A line that is wrapped takes at least one mark. -/
theorem cut_breakAt_pos (h : s.BreakWithin) (hsize : 0 < s.marks.size) :
    0 < s.cut s.breakAt .wrap := by
  rw [cut_breakAt h]
  exact Nat.lt_of_lt_of_le (breakPos_pos s.lastBreak hsize) (Nat.le_add_right _ _)

/-- A line of several marks is broken before the last one at the latest. No mark from
    there on stands past a limit, if none did from the noted place on. -/
theorem breakAt_spec {limit : Int} {ms : List Mark} {m : Mark} (hm : s.marks.toList = ms ++ [m])
    (hbreak : ∀ pos, s.lastBreak = some pos →
      pos ≤ ms.length ∧ ∀ n ∈ ms.drop pos, n.right ≤ limit) :
    ∃ pos, s.breakAt = trimSpaces s.marks pos ∧ pos ≤ s.marks.size ∧
      (ms = [] ∨ pos ≤ ms.length) ∧ ∀ n ∈ ms.drop pos, n.right ≤ limit := by
  have hsize : s.marks.size = ms.length + 1 := by
    rw [← Array.length_toList, hm, List.length_append, List.length_singleton]
  have hemergency : ∃ pos, pos = breakAt.emergency s ∧ pos ≤ s.marks.size ∧
      (ms = [] ∨ pos ≤ ms.length) ∧ ∀ n ∈ ms.drop pos, n.right ≤ limit := by
    refine ⟨_, rfl, ?_, ?_, ?_⟩
    · unfold breakAt.emergency
      split <;> omega
    · unfold breakAt.emergency
      cases ms with
      | nil => exact Or.inl rfl
      | cons n ns =>
        right
        rw [List.length_cons] at hsize ⊢
        split <;> omega
    · have hnone : ms.drop (breakAt.emergency s) = [] := by
        rw [List.drop_eq_nil_iff]
        unfold breakAt.emergency
        split <;> omega
      rw [hnone]
      intro n hn
      cases hn
  unfold breakAt
  cases hb : s.lastBreak with
  | none =>
    obtain ⟨pos, rfl, h⟩ := hemergency
    exact ⟨_, rfl, h⟩
  | some pos =>
    by_cases hpos : 0 < pos
    · obtain ⟨hle, hfit⟩ := hbreak pos hb
      refine ⟨pos, ?_, ?_, Or.inr hle, hfit⟩
      · simp only [if_pos hpos]
      · omega
    · obtain ⟨_, rfl, h⟩ := hemergency
      refine ⟨_, ?_, h⟩
      simp only [if_neg hpos]

/-! ### The line being filled -/

/-- The line being filled goes past the wrap width. -/
def Overfull (job : Job) (s : LayoutState) : Prop :=
  s.lineStarted = true ∧ job.origin.x + s.wrapWidth < s.penX

/-- The marks of a plain layout are in place, and all of them fit from the last place for a
    break on. -/
structure Placed (wide : Nat → Prop) (job : Job) (s : LayoutState) : Prop where
  plain : s.Plain job
  marks : InPlace wide job s.marks.toList
  lastBreak : ∀ pos, s.lastBreak = some pos → pos ≤ s.marks.toList.length ∧
    ∀ m ∈ s.marks.toList.drop pos, m.right ≤ job.origin.x + job.width
  lines : ∀ l ∈ s.lines.toList, l.Told wide job

/-- Between two tokens the pen stands after the last mark. -/
structure Filling (wide : Nat → Prop) (job : Job) (s : LayoutState) : Prop
    extends Placed wide job s where
  started : s.lineStarted = true ↔ s.marks.toList ≠ []
  pen : ∀ last, s.marks.toList.getLast? = some last → s.penX = last.right
  prev : s.prev ≠ none →
    ∃ last, s.marks.toList.getLast? = some last ∧ s.lastAdvance = last.advance

theorem Placed.congr (h : s.Placed wide job) (hplain : t.Plain job) (hm : t.marks = s.marks)
    (hl : t.lines = s.lines) (hb : t.lastBreak = s.lastBreak) : t.Placed wide job where
  plain := hplain
  marks := hm ▸ h.marks
  lastBreak := by
    rw [hm, hb]
    exact h.lastBreak
  lines := hl ▸ h.lines

theorem Placed.filling (h : s.Placed wide job) (hpen : s.PenAfter) : s.Filling wide job where
  toPlaced := h
  started := hpen.started
  pen := hpen.pen
  prev := hpen.prev

theorem Filling.penAfter (h : s.Filling wide job) : s.PenAfter := ⟨h.started, h.pen, h.prev⟩

/-- Nothing has been put on the line. -/
theorem filling_of_empty (hplain : s.Plain job) (hm : s.marks = #[]) (hs : s.lineStarted = false)
    (hp : s.prev = none) (hb : s.lastBreak = none) (hl : ∀ l ∈ s.lines.toList, l.Told wide job) :
    s.Filling wide job := by
  have hplaced : s.Placed wide job := by
    refine ⟨hplain, ?_, ?_, hl⟩
    · rw [hm]
      exact inPlace_nil
    · rw [hb]
      exact fun _ hpos => nomatch hpos
  exact hplaced.filling (penAfter_of_empty hm hs hp)

theorem Filling.quiet (h : s.Filling wide job) (hplain : t.Plain job) (hq : Quiet s t) :
    t.Filling wide job :=
  (h.toPlaced.congr hplain hq.marks hq.lines hq.lastBreak).filling (h.penAfter.quiet hq)

theorem Placed.noteBreak (h : s.Placed wide job) (p : Bool) :
    (s.noteBreak p).Placed wide job := by
  cases p with
  | false => exact h
  | true =>
    refine { h with plain := h.plain.congr {}, lastBreak := ?_ }
    intro pos hpos
    cases hpos
    refine ⟨Nat.le_of_eq Array.length_toList.symm, ?_⟩
    have hnone : (s.noteBreak true).marks.toList.drop s.marks.size = [] := by
      change s.marks.toList.drop s.marks.size = []
      rw [← Array.length_toList, List.drop_length]
    rw [hnone]
    intro m hm
    cases hm

theorem Filling.noteBreak (h : s.Filling wide job) (p : Bool) :
    (s.noteBreak p).Filling wide job :=
  (h.toPlaced.noteBreak p).filling (h.penAfter.noteBreak p)

/-! ### Taking a mark -/

section PushMark

variable {code : Nat} {kind : MarkKind} {advance : Int} {index : Nat}

theorem Placed.pushMark (h : s.Placed wide job) (hadvance : 0 ≤ advance)
    (hbehind : Behind job s.marks.toList (s.beginLine job).penX)
    (hfits : (s.beginLine job).penX + advance ≤ job.origin.x + job.width) (hwide : ¬ wide index) :
    (s.pushMark job code kind advance index).Filling wide job := by
  have hlist := toList_pushMark job s code kind advance index
  have hoffset : (newMark job s code kind advance index).offset.x = 0 :=
    (h.plain.congr (sameSettings_beginLine job s)).letterOffset
  obtain ⟨hl, hb, -⟩ := pushMark_frame job s code kind advance index
  have hplaced : (s.pushMark job code kind advance index).Placed wide job := by
    constructor
    · exact h.plain.congr (sameSettings_pushMark job s code kind advance index)
    · rw [hlist]
      exact h.marks.append hbehind hadvance hoffset (iff_of_false (Int.not_lt.2 hfits) hwide)
    · rw [hb, hlist]
      intro pos hpos
      obtain ⟨hle, hfit⟩ := h.lastBreak pos hpos
      rw [List.length_append, List.drop_append_of_le_length hle]
      exact ⟨Nat.le_add_right_of_le hle, forall_mem_append hfit hfits⟩
    · rw [hl]
      exact h.lines
  exact hplaced.filling (penAfter_pushMark job s code kind advance index)

/-- A line of the marks so far, or of these and its end, tells of its glyphs. -/
theorem Placed.told_line (h : s.Placed wide job) {u : LayoutState} (hu : u.Plain job) {m : Mark}
    (hlist : u.marks.toList = s.marks.toList ++ [m]) {content : Nat} {reason : LineEnd}
    (hc : content ≤ u.cut content reason)
    (hm : content ≤ s.marks.toList.length ∨ content ≤ 1 ∨ m.kind.isEnd = true) :
    ((u.setLine job content (u.cut content reason) reason).line u job.printer.images).Told
      wide job := by
  obtain ⟨hlen, hmarks⟩ := hu.content_commit hc
  intro hmany g hg
  obtain ⟨n, hn, hkind, hindex, hright⟩ := hmarks g hg
  have hold : n ∈ s.marks.toList := by
    have hall := List.mem_of_mem_take hn
    rw [hlist] at hn hall
    rcases hm with hle | hone | hend
    · rw [List.take_append_of_le_length hle] at hn
      exact List.mem_of_mem_take hn
    · exact absurd (Nat.le_trans hmany (Nat.le_trans hlen hone)) (by decide)
    · rcases List.mem_append.1 hall with hall | hall
      · exact hall
      · rw [List.mem_singleton.1 hall, hend] at hkind
        cases hkind
  rw [hright, h.marks.offset n hold, Int.add_zero, hindex]
  exact h.marks.told n hold

/-- What goes on to the next line are marks that fitted before and the new one, which
    fits now if the pen does. -/
private theorem Placed.carry (h : s.Placed wide job) {m : Mark} (hadvance : 0 ≤ m.advance)
    (hoffset : m.offset.x = 0) (hbehind : Behind job s.marks.toList m.x) {cut : Nat}
    (hfit : ∀ n ∈ s.marks.toList.drop cut, n.right ≤ job.origin.x + job.width)
    {first : Mark} {rest : List Mark} (hrest : s.marks.toList.drop cut ++ [m] = first :: rest)
    (hplain : t.Plain job)
    (hm : t.marks.toList = (first :: rest).map (Mark.shift (job.origin.x - first.x)))
    (hs : t.lineStarted = true) (hafter : t.PenAfter) (hb : t.lastBreak = none)
    (hl : ∀ l ∈ t.lines.toList, l.Told wide job) (hwide : Overfull job t ↔ wide m.index) :
    t.Filling wide job := by
  have hdrop := h.marks.drop cut
  -- The first mark of the next line is the new one if nothing else is left over.
  have hfirst : job.origin.x ≤ first.x ∧ (∀ n ∈ s.marks.toList.drop cut, first.x ≤ n.x) ∧
      first.x ≤ m.x := by
    cases hkept : s.marks.toList.drop cut with
    | nil =>
      rw [hkept] at hrest
      cases hrest
      exact ⟨hbehind.1, (fun _ hn => nomatch hn), Int.le_refl _⟩
    | cons d ds =>
      rw [hkept] at hrest hdrop
      cases hrest
      have hmem : first ∈ s.marks.toList := by
        apply List.mem_of_mem_drop
        rw [hkept]
        exact List.mem_cons_self
      refine ⟨h.marks.fromOrigin first hmem, ?_, hbehind.2 first hmem⟩
      intro n hn
      rcases List.mem_cons.1 hn with rfl | hn
      · exact Int.le_refl _
      · exact (List.pairwise_cons.1 hdrop.ordered).1 n hn
  obtain ⟨horigin, hleft, hnew⟩ := hfirst
  rw [← hrest, List.map_append, List.map_singleton] at hm
  have hlast : t.marks.toList.getLast? = some (m.shift (job.origin.x - first.x)) := by
    rw [hm, List.getLast?_concat]
  have hplaced : t.Placed wide job := by
    constructor
    · exact hplain
    · rw [hm]
      refine (hdrop.shift hfit horigin hleft).append ⟨?_, ?_⟩ hadvance hoffset ?_
      · change job.origin.x ≤ m.x + (job.origin.x - first.x)
        omega
      · intro n hn
        obtain ⟨k, hk, rfl⟩ := List.mem_map.1 hn
        exact Int.add_le_add_right (hbehind.2 k (List.mem_of_mem_drop hk)) _
      · refine Iff.trans ?_ hwide
        rw [← hafter.pen _ hlast, Overfull, hplain.wrapWidth, hs]
        exact (and_iff_right rfl).symm
    · rw [hb]
      exact fun _ hpos => nomatch hpos
    · exact hl
  exact hplaced.filling hafter

/-- A mark that does not fit wraps the line. -/
theorem Placed.wrap (h : s.Placed wide job) (hadvance : 0 ≤ advance)
    (hbehind : Behind job s.marks.toList (s.beginLine job).penX) :
    let u := s.pushMark job code kind advance index
    let t := u.commit job u.breakAt .wrap
    (Overfull job t ↔ wide index) → t.Filling wide job := by
  intro u t hwide
  have hlist : u.marks.toList = s.marks.toList ++ [newMark job s code kind advance index] :=
    toList_pushMark job s code kind advance index
  have hplain : u.Plain job := h.plain.congr (sameSettings_pushMark job s code kind advance index)
  have hoffset : (newMark job s code kind advance index).offset.x = 0 :=
    (h.plain.congr (sameSettings_beginLine job s)).letterOffset
  obtain ⟨hul, hub, -⟩ := pushMark_frame job s code kind advance index
  have hbreak : ∀ pos, u.lastBreak = some pos → pos ≤ s.marks.toList.length ∧
      ∀ n ∈ s.marks.toList.drop pos, n.right ≤ job.origin.x + job.width := by
    intro pos hpos
    exact h.lastBreak pos (hub ▸ hpos)
  obtain ⟨pos, hat, hpos, hbefore, hfit⟩ := breakAt_spec hlist hbreak
  have hcut : pos ≤ u.cut u.breakAt .wrap := by
    rw [hat]
    exact le_cut_trimSpaces hpos
  have hle : u.breakAt ≤ pos := by
    rw [hat]
    exact trimSpaces_le u.marks pos
  obtain ⟨-, htl, htb, -⟩ := commit_frame job u u.breakAt .wrap
  have htplain : t.Plain job := hplain.congr (sameSettings_commit job u u.breakAt (by decide))
  have hlines : ∀ l ∈ t.lines.toList, l.Told wide job := by
    rw [htl, Array.toList_push]
    intro l hl
    rcases List.mem_append.1 hl with hl | hl
    · rw [hul] at hl
      exact h.lines l hl
    · rw [List.mem_singleton.1 hl]
      refine h.told_line hplain hlist (Nat.le_trans hle hcut) ?_
      rcases hbefore with hnil | hbefore
      · right
        left
        have hsize : u.marks.size = 1 := by
          rw [← Array.length_toList, hlist, hnil]
          rfl
        omega
      · exact Or.inl (Nat.le_trans hle hbefore)
  cases hrest : u.marks.toList.drop (u.cut u.breakAt .wrap) with
  | nil =>
    obtain ⟨hm, hs, hp⟩ := commit_all job hrest
    exact filling_of_empty htplain hm hs hp htb hlines
  | cons first rest =>
    obtain ⟨hm, hs, -⟩ := hplain.commit_rest (by decide) hrest
    have hafter : t.PenAfter := (penAfter_pushMark job s code kind advance index).commit
      (fun v hv _ => (hplain.congr hv).leftEdge) (by decide)
    have hcarried : ∀ n ∈ s.marks.toList.drop (u.cut u.breakAt .wrap),
        n.right ≤ job.origin.x + job.width := by
      intro n hn
      exact hfit n (List.drop_subset_drop_left _ hcut hn)
    have hlen : u.cut u.breakAt .wrap ≤ s.marks.toList.length := by
      have hrest := congrArg List.length hrest
      rw [hlist, List.length_drop, List.length_append, List.length_singleton,
        List.length_cons] at hrest
      omega
    rw [hlist, List.drop_append_of_le_length hlen] at hrest
    exact h.carry hadvance hoffset hbehind hcarried hrest htplain hm hs hafter htb hlines hwide

theorem Placed.addMark (h : s.Placed wide job) (hjob : job.Plain) (hadvance : 0 ≤ advance)
    (hbehind : Behind job s.marks.toList (s.beginLine job).penX)
    (hwide : Overfull job (s.addMark job code kind advance index) ↔ wide index) :
    (s.addMark job code kind advance index).Filling wide job := by
  have hplain : (s.pushMark job code kind advance index).Plain job :=
    h.plain.congr (sameSettings_pushMark job s code kind advance index)
  obtain ⟨hpen, -, -⟩ := pen_pushMark job s code kind advance index
  unfold LayoutState.addMark checkWrap at hwide ⊢
  rw [hplain.wordWrap, hplain.wrapWidth, hplain.table, hpen] at hwide ⊢
  by_cases hpast : job.origin.x + job.width < (s.beginLine job).penX + advance
  · rw [if_pos ⟨rfl, hjob.width, rfl, hpast⟩] at hwide ⊢
    exact h.wrap hadvance hbehind hwide
  · rw [if_neg fun hc => hpast hc.2.2.2] at hwide ⊢
    have hnot : ¬ Overfull job (s.pushMark job code kind advance index) := by
      intro hfull
      apply hpast
      rw [← hpen, ← hplain.wrapWidth]
      exact hfull.2
    exact h.pushMark hadvance hbehind (Int.not_lt.1 hpast) (fun hi => hnot (hwide.2 hi))

end PushMark

end LayoutState

end RichText
