/-
  RichText/Proofs/Layout/Cells.lean
  =================================
  **Cells of a row do not overlap.**

  While a table is open the marks of the row stand side by side, none of them to the left of
  its cell (`LayoutState.RowSoFar`): a mark is put at the pen, and where a cell is started the
  pen goes to its left edge, but never back.  When the row is committed its cells are aligned one
  by one, each of them within its extent.  A later cell stays clear of an earlier one unless that
  goes past the right edge of the table and no column is left for the later one
  (`Printer.cells_apart`).
-/
import RichText.Proofs.Layout.Closing
import RichText.Proofs.Layout.Decorated
import RichText.Proofs.Layout.Extents

namespace RichText

/-! ### Plain text in cells -/

/-- Whether nothing but text comes on the line with a token, and no combining mark. -/
def Token.isCellText : Token → Bool
  | .text c => CodePoint.isSpaced c
  | .placeholder => false
  | .instruction (.setting (.length .horizontalSpace (some _))) => false
  | .instruction (.setting (.image _)) => false
  | _ => true

/-- No font goes back to the left.  While a table is open its cells hold plain text, letters are
    not put closer together and not moved aside. -/
structure Job.PlainCells (job : Job) (font : Font) (cs : List Nat) : Prop where
  kerning : ∀ id f, job.printer.fonts.get? id = some f → ∀ c d, f.face.kerning c d = 0
  advance : ∀ id f, job.printer.fonts.get? id = some f → ∀ c, 0 ≤ f.advanceOf c
  spacing : ∀ seen rest, lexemes cs = seen ++ rest →
    let s := (LayoutState.initial job font).run job seen
    s.table.isSome → 0 ≤ s.letterSpacing
  offset : ∀ seen rest, lexemes cs = seen ++ rest →
    let s := (LayoutState.initial job font).run job seen
    s.table.isSome → s.letterOffset.x = 0
  text : ∀ seen l rest, lexemes cs = seen ++ l :: rest →
    ((LayoutState.initial job font).run job seen).table.isSome → l.token.isCellText = true

namespace LayoutState

variable {job : Job} {font : Font} {cs : List Nat} {s u v : LayoutState} {t : Table} {l : Lexeme}
  {seen rest : List Lexeme} {content : Nat} {reason : LineEnd}

/-! ### The row so far -/

/-- The marks on the line stand side by side, each of them in its cell or to the right of it, and
    the pen stands behind them. -/
structure RowSoFar (t : Table) (s : LayoutState) : Prop where
  tiled : t.Tiled
  coherent : t.Coherent s.marks.size
  apart : s.marks.toList.Pairwise fun m k => m.right ≤ k.x
  marks : ∀ m ∈ s.marks.toList, 0 ≤ m.advance ∧ m.offset.x = 0
  behind : ∀ m ∈ s.marks.toList, s.lineStarted = true ∧ m.right ≤ s.penX
  pen : s.lineStarted = true → t.cellLeft ≤ s.penX
  begun : ∀ i m c, s.marks.toList[i]? = some m → t.cellAt i = some c → (t.extent c).1 ≤ m.x

/-- If a table is open the line is a row of it. -/
def InRows (s : LayoutState) : Prop := ∀ t, s.table = some t → s.RowSoFar t

theorem inRows_of_no_table (h : s.table = none) : s.InRows := by
  intro t ht
  rw [h] at ht
  cases ht

theorem rowSoFar_of_empty (hmarks : s.marks = #[]) (hs : s.lineStarted = false) (htiled : t.Tiled)
    (hcoherent : t.Coherent 0) : s.RowSoFar t := by
  refine ⟨htiled, ?_, ?_, ?_, ?_, fun h => absurd (hs.symm.trans h) Bool.false_ne_true, ?_⟩ <;>
    rw [hmarks]
  · exact hcoherent
  · exact .nil
  · exact fun _ hm => nomatch hm
  · exact fun _ hm => nomatch hm
  · exact fun _ _ _ hm => nomatch hm

/-- The pen may go to the right. -/
theorem RowSoFar.congr (h : s.RowSoFar t) (hmarks : v.marks = s.marks)
    (hstarted : v.lineStarted = s.lineStarted) (hpen : s.penX ≤ v.penX) : v.RowSoFar t := by
  refine ⟨h.tiled, hmarks ▸ h.coherent, hmarks ▸ h.apart, hmarks ▸ h.marks, ?_, ?_,
    hmarks ▸ h.begun⟩
  · intro m hm
    obtain ⟨hs, hright⟩ := h.behind m (hmarks ▸ hm)
    exact ⟨hstarted.trans hs, Int.le_trans hright hpen⟩
  · intro hs
    exact Int.le_trans (h.pen (hstarted.symm.trans hs)) hpen

theorem RowSoFar.beginLine (h : s.RowSoFar t) (hs : s.table = some t) (job : Job) :
    (s.beginLine job).RowSoFar t ∧ (s.beginLine job).lineStarted = true := by
  simp only [LayoutState.beginLine]
  split
  · next hstarted => exact ⟨h, hstarted⟩
  · next hstarted =>
    have hempty : s.marks.toList = [] :=
      List.eq_nil_iff_forall_not_mem.2 fun m hm => hstarted (h.behind m hm).1
    have hleft : s.leftEdge job = t.cellLeft := by simp only [leftEdge, hs]
    refine ⟨⟨h.tiled, h.coherent, h.apart, h.marks, ?_, fun _ => Int.le_of_eq hleft.symm, h.begun⟩,
      rfl⟩
    intro m hm
    exact absurd (hempty ▸ hm) List.not_mem_nil

/-- A mark is put behind the others, and in the last cell. -/
theorem RowSoFar.pushMark (h : s.RowSoFar t) (hs : s.table = some t)
    (hoffset : s.letterOffset.x = 0) (job : Job) (code : Nat) (kind : MarkKind) {advance : Int}
    (hadvance : 0 ≤ advance) (index : Nat) :
    (s.pushMark job code kind advance index).RowSoFar t := by
  obtain ⟨hbegun, hstarted⟩ := h.beginLine hs job
  obtain ⟨hpen, -, hpushed⟩ := pen_pushMark job s code kind advance index
  have hmarks := (sameLine_beginLine job s).marks
  have hlist := toList_pushMark job s code kind advance index
  have hplace : (newMark job s code kind advance index).x = (s.beginLine job).penX := rfl
  have hlength : (newMark job s code kind advance index).advance = advance := rfl
  have haside : (newMark job s code kind advance index).offset.x = 0 := by
    change (s.beginLine job).letterOffset.x = 0
    rw [letterOffset_congr (sameStyle_beginLine job s)]
    exact hoffset
  generalize newMark job s code kind advance index = k at hlist hplace hlength haside
  have hright : k.right = (s.pushMark job code kind advance index).penX := by
    rw [Mark.right, hplace, hlength, hpen]
  have hbefore : ∀ m ∈ s.marks.toList, m.right ≤ (s.beginLine job).penX := by
    intro m hm
    exact (hbegun.behind m (hmarks.symm ▸ hm)).2
  refine ⟨h.tiled, ?_, ?_, ?_, ?_, ?_, ?_⟩
  · rw [size_pushMark]
    exact h.coherent.mono (Nat.le_succ _)
  · rw [hlist, List.pairwise_append]
    refine ⟨h.apart, List.pairwise_singleton _ _, ?_⟩
    intro m hm n hn
    rw [List.mem_singleton.1 hn, hplace]
    exact hbefore m hm
  · rw [hlist]
    exact forall_mem_append h.marks ⟨hlength ▸ hadvance, haside⟩
  · rw [hlist]
    refine forall_mem_append ?_ ⟨hpushed, Int.le_of_eq hright⟩
    intro m hm
    have hm := hbefore m hm
    exact ⟨hpushed, by omega⟩
  · intro _
    have hleft := hbegun.pen hstarted
    omega
  · intro i m c hi hc
    rw [hlist] at hi
    rcases Nat.lt_or_ge i s.marks.toList.length with hlt | hge
    · rw [List.getElem?_append_left hlt] at hi
      exact h.begun i m c hi hc
    · rw [List.getElem?_append_right hge, List.getElem?_singleton] at hi
      split at hi
      · next hend =>
        cases hi
        have hsize : i = s.marks.size := by
          rw [Array.length_toList] at hend hge
          omega
        have hhead := Table.cellAt_end h.coherent (hsize ▸ hc)
        have hleft := hbegun.pen hstarted
        rw [Table.cellLeft, hhead, Option.elim_some] at hleft
        rw [hplace]
        exact hleft
      · cases hi

theorem RowSoFar.beforeMark (h : s.RowSoFar t) (hs : s.table = some t)
    (hspacing : 0 ≤ s.letterSpacing) (hkerning : ∀ c d, s.font.face.kerning c d = 0) {c : Nat}
    (hc : CodePoint.isSpaced c = true) : (beforeMark job s c).RowSoFar t := by
  have hstyle : SameStyle s ((s.beginLine job).noteBreak (CodePoint.isBreaking c)) :=
    (sameStyle_beginLine job s).trans (sameStyle_noteBreak _ _)
  have hroom := roomBefore_nonneg (letterSpacing_congr hstyle ▸ hspacing)
    (hstyle.font ▸ hkerning) hc
  have hnoted : ((s.beginLine job).noteBreak (CodePoint.isBreaking c)).RowSoFar t := by
    have hbegun := (h.beginLine hs job).1
    cases CodePoint.isBreaking c
    · exact hbegun
    · exact hbegun.congr rfl rfl (Int.le_refl _)
  refine hnoted.congr rfl rfl ?_
  exact Int.le_add_of_nonneg_right hroom

/-- The next cell begins at the pen or to the right of it. -/
theorem RowSoFar.nextCell (h : s.RowSoFar t) (hs : s.table = some t) (job : Job) :
    (s.nextCell job).RowSoFar (t.nextCell s.marks.size) := by
  have hline := sameLine_beginLine job { s with table := some (t.nextCell s.marks.size) }
  have hbegun : ∀ m ∈ s.marks.toList,
      m.right ≤ ({ s with table := some (t.nextCell s.marks.size) }.beginLine job).penX := by
    intro m hm
    obtain ⟨hstarted, hright⟩ := h.behind m hm
    have hsame : { s with table := some (t.nextCell s.marks.size) }.beginLine job =
        { s with table := some (t.nextCell s.marks.size) } := if_pos hstarted
    rw [hsame]
    exact hright
  have hstarted : ({ s with table := some (t.nextCell s.marks.size) }.beginLine job).lineStarted =
      true := by
    simp only [LayoutState.beginLine]
    split
    · next hstarted => exact hstarted
    · rfl
  simp only [LayoutState.nextCell, hs]
  generalize { s with table := some (t.nextCell s.marks.size) }.beginLine job = v at *
  have hmarks : v.marks = s.marks := hline.marks
  refine ⟨h.tiled.nextCell _, ?_, ?_, ?_, ?_, fun _ => Int.le_max_right _ _, ?_⟩ <;>
    dsimp only <;> rw [hmarks]
  · exact h.coherent.nextCell
  · exact h.apart
  · exact h.marks
  · intro m hm
    exact ⟨hstarted, Int.le_trans (hbegun m hm) (Int.le_max_left _ _)⟩
  · intro i m c hi hc
    have hlt := (List.getElem?_eq_some_iff.1 hi).1
    rw [Array.length_toList] at hlt
    rw [Table.cellAt_nextCell hlt] at hc
    exact h.begun i m c hi hc

theorem RowSoFar.span (h : s.RowSoFar t) (columns : Nat) (align : TextAlign) :
    s.RowSoFar (t.span columns align) where
  tiled := h.tiled.span columns align
  coherent := h.coherent.span columns align
  apart := h.apart
  marks := h.marks
  behind := h.behind
  pen := by
    rw [Table.cellLeft_span]
    exact h.pen
  begun := by
    intro i m c hi hc
    obtain ⟨d, hd, hleft⟩ := Table.cellAt_span hc
    rw [hleft]
    exact h.begun i m d hi hd

/-! ### Steps in a table -/

/-- A line is committed whole, and in a table a row begins. -/
theorem InRows.commitAll (h : s.InRows) (hreason : reason ≠ .wrap)
    (hrow : reason = .row ∨ s.table = none) (job : Job) : (s.commitAll job reason).InRows := by
  obtain ⟨-, -, -, -, -, -, -, htable⟩ := commit_frame job s s.marks.size reason
  obtain ⟨hmarks, hstarted, -⟩ := commitAll_empty job s hreason
  intro t ht
  have ht : (s.commit job s.marks.size reason).table = some t := ht
  rw [htable] at ht
  rcases hrow with rfl | hnone
  · rw [if_pos rfl, Option.map_eq_some_iff] at ht
    obtain ⟨old, hold, rfl⟩ := ht
    exact rowSoFar_of_empty hmarks hstarted (Table.tiled_startRow (h old hold).tiled.columns)
      (Table.coherent_startRow 0 old)
  · rw [hnone, Option.map_none, ite_self] at ht
    cases ht

/-- After a row the next one begins, and at its end a table is left. -/
theorem InRows.close (hu : u.InRows) (hclose : s.closed? job l = some (u, reason)) :
    (s.step job l).InRows := by
  obtain ⟨hreason, -⟩ := step_of_closed hclose
  rcases closed_cases hclose with ⟨c, -, rfl, rfl, hstep⟩ | ⟨-, -, rfl, hstep⟩ |
    ⟨_, ⟨border, width, columns, rfl⟩, -, -, rfl, hstep⟩ | ⟨-, -, -, rfl, hstep⟩
  · rw [hstep]
    refine hu.commitAll hreason ?_ job
    rw [table_pushMark]
    cases s.table with
    | none => exact Or.inr rfl
    | some t => exact Or.inl rfl
  · rw [hstep]
    exact hu.commitAll hreason (Or.inl rfl) job
  · obtain ⟨hmarks, hstarted, -⟩ := commitAll_empty job u hreason
    rw [hstep]
    intro t ht
    obtain rfl : s.newTable job border width columns = t := Option.some.inj ht
    exact rowSoFar_of_empty hmarks hstarted (Table.tiled_ofColumns columns _ _ border)
      (Table.coherent_startRow 0 _)
  · rw [hstep]
    exact inRows_of_no_table rfl

/-- Without a mark and without the end of a line the row goes on. -/
theorem InRows.idle (h : s.InRows) (hidle : IdleStep job s v) : v.InRows := by
  intro t ht
  cases hidle with
  | quiet hquiet htable =>
    exact (h t (htable ▸ ht)).congr hquiet.marks hquiet.lineStarted (Int.le_of_eq hquiet.penX.symm)
  | cell =>
    obtain ⟨-, -, -, -, -, -, -, hframe⟩ := nextCell_frame job s
    rw [hframe, Option.map_eq_some_iff] at ht
    obtain ⟨old, hold, rfl⟩ := ht
    exact (h old hold).nextCell hold job
  | span columns align =>
    obtain ⟨old, hold, rfl⟩ := Option.map_eq_some_iff.1 ht
    exact ((h old hold).span columns align).congr rfl rfl (Int.le_refl _)
  | beginTable hempty border width columns =>
    obtain rfl : s.newTable job border width columns = t := Option.some.inj ht
    simp only [lineIsEmpty, Bool.and_eq_true, Bool.not_eq_true', Array.isEmpty_iff] at hempty
    exact rowSoFar_of_empty hempty.2 hempty.1 (Table.tiled_ofColumns columns _ _ border)
      (Table.coherent_startRow 0 _)
  | endTable => cases ht

section PlainCells

variable (hjob : job.PlainCells font cs)
  (hfont : job.printer.fonts.get? job.printer.defaultFont = some font)
include hjob hfont

/-- A letter comes to the row where nothing stands after it. -/
theorem inRows_marked (hsplit : lexemes cs = seen ++ l :: rest)
    (h : ((initial job font).run job seen).InRows)
    (hmark : ((initial job font).run job seen).marked? job l = some u) : u.InRows := by
  intro t ht
  have hs : ((initial job font).run job seen).table = some t := (lines_marked hmark).2 ▸ ht
  have hopen : ((initial job font).run job seen).table.isSome := Option.isSome_of_eq_some hs
  have hspacing := hjob.spacing seen (l :: rest) hsplit hopen
  have hoffset := hjob.offset seen (l :: rest) hsplit hopen
  have htext := hjob.text seen l rest hsplit hopen
  obtain ⟨id, hid⟩ : ((initial job font).run job seen).Registered job :=
    Registered.run ⟨_, hfont⟩ seen
  have hkerning := hjob.kerning id _ hid
  have hadvance := hjob.advance id _ hid
  have hrow := h t hs
  generalize (initial job font).run job seen = s at *
  obtain ⟨index, token⟩ := l
  cases token with
  | text c =>
    obtain rfl : (beforeMark job s c).pushMark job c (.glyph _) _ index = u := Option.some.inj hmark
    have hstyle : SameStyle s ((s.beginLine job).noteBreak (CodePoint.isBreaking c)) :=
      (sameStyle_beginLine job s).trans (sameStyle_noteBreak _ _)
    refine (hrow.beforeMark hs hspacing hkerning htext).pushMark ?_ ?_ job c _ ?_ index
    · exact (beforeMark_frame job s c).2.2.2.2.trans hs
    · rw [letterOffset_congr (sameStyle_beforeMark job s c)]
      exact hoffset
    · exact textAdvance_nonneg job (hstyle.font ▸ hadvance c)
  | placeholder => cases htext
  | instruction i =>
    cases i with
    | setting setting =>
      cases setting with
      | image image => cases htext
      | length target length =>
        cases target with
        | horizontalSpace =>
          cases length with
          | none => cases hmark
          | some length => cases htext
        | _ => cases hmark
      | _ => cases hmark
    | _ => cases hmark
  | _ => cases hmark

omit hfont in
/-- What closes a line stands behind the others in a row. -/
theorem inRows_closed (hsplit : lexemes cs = seen ++ l :: rest)
    (h : ((initial job font).run job seen).InRows)
    (hclose : ((initial job font).run job seen).closed? job l = some (u, reason)) : u.InRows := by
  intro t ht
  have hs : ((initial job font).run job seen).table = some t :=
    (marks_of_closed hclose).2.2.1 ▸ ht
  have hoffset := hjob.offset seen (l :: rest) hsplit (Option.isSome_of_eq_some hs)
  rcases closed_cases hclose with ⟨c, -, rfl, -⟩ | ⟨-, rfl, -⟩ | ⟨_, -, rfl, -⟩ | ⟨-, rfl, -⟩
  · exact (h t hs).pushMark hs hoffset job c .lineEnd (Int.le_refl 0) l.index
  · exact ((h t hs).beginLine hs job).1
  · exact h t hs
  · exact h t hs

/-- Between any two tokens the line is a row if a table is open. -/
theorem inRows_run (hsplit : lexemes cs = seen ++ rest) :
    ((initial job font).run job seen).InRows := by
  refine run_induction (P := InRows) (inRows_of_no_table rfl) ?_ hsplit
  intro seen l rest hsplit h
  refine step_preserves ?_ ?_ ?_ ?_ h.idle
  · intro u hmark _
    exact inRows_marked hjob hfont hsplit h hmark
  · intro u _ hover
    obtain ⟨-, -, -, -, -, -, -, htable⟩ := commit_frame job u u.breakAt .wrap
    refine inRows_of_no_table (htable.trans ?_)
    rw [if_neg LineEnd.noConfusion]
    exact Option.isNone_iff_eq_none.1 hover.2.2.1
  · exact fun t ht table htable => (ht table htable).congr rfl rfl (Int.le_refl _)
  · intro u reason hclose
    exact (inRows_closed hjob hsplit h hclose).close hclose

/-- A line that is committed while a table is open is a row of it, and goes as a whole. -/
theorem CommitsAt.row (h : CommitsAt job font cs u content reason) (ht : u.table = some t) :
    u.RowSoFar t ∧ content = u.marks.size ∧ reason ≠ .wrap := by
  cases h with
  | wrap hwraps =>
    obtain ⟨-, -, -, -, -, -, -, hnone, -⟩ := hwraps
    rw [ht] at hnone
    cases hnone
  | close hsplit hclose =>
    have hrun := inRows_run hjob hfont hsplit
    exact ⟨inRows_closed hjob hsplit hrun hclose t ht, rfl, (step_of_closed hclose).1⟩
  | text hs hnone hu =>
    subst hs hu
    have hall : lexemes cs = lexemes cs ++ [] := (List.append_nil _).symm
    rw [table_pushMark] at ht
    have hrow := inRows_run hjob hfont hall t ht
    have hoffset := hjob.offset _ [] hall (Option.isSome_of_eq_some ht)
    exact ⟨hrow.pushMark ht hoffset job 0 .textEnd (Int.le_refl 0) cs.length, rfl,
      LineEnd.noConfusion⟩

end PlainCells

/-! ### The row that is committed -/

/-- In a table the cells of a line are aligned, and nothing else is moved. -/
theorem marks_setLine_of_table (ht : u.table = some t) (hreason : reason ≠ .wrap) (job : Job) :
    (u.setLine job u.marks.size (u.cut u.marks.size reason) reason).marks =
      Mark.alignCells t t.cells.reverse u.marks.toList := by
  have hall : u.marks.toList.take u.marks.size = u.marks.toList :=
    List.take_of_length_le (Nat.le_of_eq Array.length_toList)
  have hnone : ∀ ms, u.justification? job ms reason = none :=
    fun ms => if_neg fun h => hreason h.1
  simp only [setLine, cut_of_ne_wrap hreason, hall, justified, hnone, ht]

/-- A mark is reported where it was put or to the right of that, and not past its cell. -/
theorem RowSoFar.exists_mark (h : u.RowSoFar t) (ht : u.table = some t) (hreason : reason ≠ .wrap)
    {i : Nat} {g : Glyph} (hg : (u.committedLine job u.marks.size reason).events[i]? = some g) :
    ∃ m c, u.marks.toList[i]? = some m ∧ t.cellAt i = some c ∧ m.x ≤ g.location.x ∧
      g.location.x + g.advance ≤ max m.right (t.cellRight c) := by
  have hmarks := marks_setLine_of_table ht hreason job
  have hcontent : (u.setLine job u.marks.size (u.cut u.marks.size reason) reason).content =
      u.marks.size := rfl
  rw [committedLine, SetLine.events_line] at hg
  generalize u.setLine job u.marks.size (u.cut u.marks.size reason) reason = line at *
  have hall : line.marks.length ≤ line.content := by
    rw [hmarks, Mark.length_alignCells, hcontent, Array.length_toList]
  rw [List.take_of_length_le hall, List.drop_eq_nil_of_le hall, List.map_nil, List.append_nil,
    List.getElem?_map, Option.map_eq_some_iff, hmarks] at hg
  obtain ⟨k, hk, rfl⟩ := hg
  have hlt : i < u.marks.toList.length := by
    have hlt := (List.getElem?_eq_some_iff.1 hk).1
    rwa [Mark.length_alignCells] at hlt
  have hm := List.getElem?_eq_getElem hlt
  -- The row begins with its first cell.
  obtain ⟨first, hfirst, hzero⟩ := h.coherent.starts
  obtain ⟨rest, hrow⟩ : ∃ rest, t.cells.reverse = first :: rest := by
    rw [← List.head?_reverse, List.head?_eq_some_iff] at hfirst
    exact hfirst
  have hright : u.marks.toList.Pairwise fun m k => m.right ≤ k.right := by
    refine h.apart.imp_of_mem fun {m k} _ hk hle => ?_
    have hadvance := (h.marks k hk).1
    rw [Mark.right] at hle ⊢
    unfold Mark.right
    omega
  obtain ⟨c, dx, hc, hnonneg, hle, hmoved⟩ := Mark.getElem?_alignCells (t := t) hrow
    (List.pairwise_reverse.2 h.coherent.ordered) hright hm
  rw [hk, Option.some.injEq] at hmoved
  rw [List.reverse_reverse, hzero, Nat.zero_add] at hc
  have hoffset := (h.marks _ (List.getElem_mem hlt)).2
  have hx : (line.glyph false k).location.x = u.marks.toList[i].x + dx := by
    rw [hmoved]
    change u.marks.toList[i].x + dx + u.marks.toList[i].offset.x = _
    rw [hoffset, Int.add_zero]
  have hadvance : (line.glyph false k).advance = u.marks.toList[i].advance := by
    rw [hmoved]
    rfl
  refine ⟨_, c, hm, hc, ?_, ?_⟩
  · omega
  · rw [Mark.right] at hle ⊢
    omega

/-- The last row is committed where the table ends. -/
theorem commitsAt_endTable (job : Job) (font : Font) (seen : List Lexeme) (index : Nat)
    (rest : List Lexeme)
    (hsplit : lexemes cs = seen ++ ⟨index, .instruction (.switch .endTable)⟩ :: rest)
    (htable : ((initial job font).run job seen).table.isSome = true)
    (hempty : ((initial job font).run job seen).lineIsEmpty = false) :
    CommitsAt job font cs ((initial job font).run job seen)
      ((initial job font).run job seen).marks.size .row := by
  refine .close hsplit ?_
  simp only [closed?, htable, hempty, Bool.not_false, Bool.and_self, if_true]

end LayoutState

open LayoutState in
/-- **Cells of a row do not overlap.**  No font goes back to the left, and the cells of tables
    hold plain text.  When a row is committed the extent of a cell ends where that of a later cell
    begins or to the left of that, unless columns go past the right edge of the table and no
    column is left for the later cell.  With the same exception each glyph of a cell ends where any
    glyph of a later cell begins or to the left of that; in any case it ends there or within its
    own cell. -/
theorem Printer.cells_apart {p : Printer} {font : Font}
    (hfont : p.fonts.get? p.defaultFont = some font) (markup : List UInt8) (origin : Point)
    (width : Int)
    (hplain : Job.PlainCells ⟨p, origin, width⟩ font (Codec.decode markup)) :
    let job : Job := ⟨p, origin, width⟩
    ∃ lines, job.layout markup = .ok lines ∧
      ∀ u content reason, CommitsAt job font (Codec.decode markup) u content reason →
        ∀ t, u.table = some t →
          ∃ row, lines[u.lines.size]? = some row ∧
            (∀ c ∈ t.cells, ∀ d ∈ t.cells, c.column < d.column →
              ((t.extent c).1 + (t.extent c).2 ≤ (t.extent d).1 ↔ ¬ t.Overhangs c d)) ∧
            ∀ i k g e c d, row.events[i]? = some g → row.events[k]? = some e →
              t.cellAt i = some c → t.cellAt k = some d → c.column < d.column →
                g.location.x + g.advance ≤
                  max e.location.x ((t.extent c).1 + (t.extent c).2) ∧
                (¬ t.Overhangs c d → g.location.x + g.advance ≤ e.location.x) := by
  intro job
  refine ⟨_, Job.layout_eq hfont markup, ?_⟩
  intro u content reason hcommits t ht
  obtain ⟨hrow, rfl, hreason⟩ := hcommits.row hplain hfont ht
  have hextents : ∀ c ∈ t.cells, ∀ d ∈ t.cells, c.column < d.column →
      (t.cellRight c ≤ (t.extent d).1 ↔ ¬ t.Overhangs c d) := by
    intro c hc d hd hlt
    exact hrow.tiled.right_le_iff (hrow.coherent.span_pos c hc)
      (hrow.tiled.column_add_span_le hc hd hlt)
  refine ⟨_, hcommits.getElem?, hextents, ?_⟩
  intro i k g e c d hg he hc hd hlt
  obtain ⟨m, _, hm, hcell, -, hright⟩ := hrow.exists_mark ht hreason hg
  obtain rfl := Option.some.inj (hc.symm.trans hcell)
  obtain ⟨n, _, hn, -, hleft, -⟩ := hrow.exists_mark ht hreason he
  have hik : i < k := by
    refine Nat.lt_of_not_le fun hki => ?_
    have hle := hrow.tiled.column_le hki hd hc
    omega
  have hapart : m.right ≤ n.x := by
    obtain ⟨hi, rfl⟩ := List.getElem?_eq_some_iff.1 hm
    obtain ⟨hk, rfl⟩ := List.getElem?_eq_some_iff.1 hn
    exact List.pairwise_iff_getElem.1 hrow.apart i k hi hk hik
  have hbegun := hrow.begun k n d hn hd
  have hbounds : g.location.x + g.advance ≤ max e.location.x (t.cellRight c) := by omega
  refine ⟨hbounds, fun hover => ?_⟩
  have hcd := (hextents c (Table.mem_of_cellAt hc) d (Table.mem_of_cellAt hd) hlt).2 hover
  omega

/-- The bytes of a table of some width with two columns of another, the second one aligned to the
    right, and of a row of three letters in it. -/
def Printer.threeCells (width column : UInt8) : List UInt8 :=
  [0xC2, 0x9B, 0x20, 0x00, 0x01, width, 0xC2, 0x8E, 0x00, 0x01, column, 0xC2, 0x8E, 0x02, 0x01,
    column, 0xC2, 0x9C, 0x61, 0xC2, 0x8F, 0x62, 0xC2, 0x8F, 0x63, 0xC2, 0x9A, 0x33]

open LayoutState in
/-- The columns are twice as wide as the table: the third letter is put behind the second one,
    which then goes to the right end of its column. -/
theorem Printer.cells_overlap :
    ∃ font lines u t b c, boxes.fonts.get? boxes.defaultFont = some font ∧
      (Job.mk boxes .zero 300).layout (threeCells 50 100) = .ok lines ∧
      CommitsAt ⟨boxes, .zero, 300⟩ font (Codec.decode (threeCells 50 100)) u u.marks.size .row ∧
      u.lines.size = 0 ∧ u.table = some t ∧ t.cellAt 1 = some b ∧ t.cellAt 2 = some c ∧
      b.column < c.column ∧ t.extent b = (100, 100) ∧ t.extent c = (50, 0) ∧
      lines.map (fun l => l.events.map fun g => (g.index, g.location.x, g.advance)) =
        [[(14, 0, 10), (16, 190, 10), (18, 110, 10)], [(21, 0, 0)]] := by
  refine ⟨_, _, _, ⟨[⟨0, 100, .left⟩, ⟨100, 100, .right⟩], 0, 50, false,
    [⟨2, 2, 1, .left⟩, ⟨1, 1, 1, .right⟩, ⟨0, 0, 1, .left⟩]⟩, ⟨1, 1, 1, .right⟩, ⟨2, 2, 1, .left⟩,
    rfl, rfl, commitsAt_endTable _ _ ((lexemes (Codec.decode (threeCells 50 100))).take 6) 19 []
      (by decide +kernel) (by decide +kernel) (by decide +kernel), ?_⟩
  decide +kernel

open LayoutState in
/-- In a table that is as wide as its columns the third letter stands right behind them. -/
theorem Printer.cells_apart_boxes :
    ∃ font lines u t row g e, boxes.fonts.get? boxes.defaultFont = some font ∧
      (Job.mk boxes .zero 300).layout (threeCells 100 50) = .ok lines ∧
      CommitsAt ⟨boxes, .zero, 300⟩ font (Codec.decode (threeCells 100 50)) u u.marks.size .row ∧
      u.table = some t ∧ lines[u.lines.size]? = some row ∧ row.events[1]? = some g ∧
      row.events[2]? = some e ∧ g.location.x + g.advance ≤ e.location.x := by
  have hplain : Job.PlainCells ⟨boxes, .zero, 300⟩ (Font.ofFace BoxFace.standard.face)
      (Codec.decode (threeCells 100 50)) := by
    have hseen : ∀ {seen rest : List Lexeme},
        lexemes (Codec.decode (threeCells 100 50)) = seen ++ rest →
        ∃ n < 8, seen = (lexemes (Codec.decode (threeCells 100 50))).take n := by
      intro seen rest hsplit
      refine ⟨seen.length, ?_, ?_⟩
      · have hlength : (lexemes (Codec.decode (threeCells 100 50))).length = 7 := by decide +kernel
        rw [hsplit, List.length_append] at hlength
        omega
      · rw [hsplit, List.take_left]
    have hsettings : ∀ n < 8,
        let s := (initial ⟨boxes, .zero, 300⟩ (Font.ofFace BoxFace.standard.face)).run
          ⟨boxes, .zero, 300⟩ ((lexemes (Codec.decode (threeCells 100 50))).take n)
        0 ≤ s.letterSpacing ∧ s.letterOffset.x = 0 := by
      decide +kernel
    have htext : ∀ l ∈ lexemes (Codec.decode (threeCells 100 50)), l.token.isCellText = true := by
      decide +kernel
    refine ⟨?_, ?_, ?_, ?_, ?_⟩
    · intro id f hf c d
      rcases font_of_boxes hf with rfl | rfl <;> rfl
    · intro id f hf c
      have hten : (0 : Int) ≤ 10 := by decide
      have htwelve : (0 : Int) ≤ 12 := by decide
      rcases font_of_boxes hf with rfl | rfl
      · exact Font.advanceOf_nonneg (by decide) (by decide) hten
      · exact Font.advanceOf_nonneg (by decide) (by decide) htwelve
    · intro seen rest hsplit s _
      obtain ⟨n, hn, rfl⟩ := hseen hsplit
      exact (hsettings n hn).1
    · intro seen rest hsplit s _
      obtain ⟨n, hn, rfl⟩ := hseen hsplit
      exact (hsettings n hn).2
    · intro seen l rest hsplit _
      refine htext l ?_
      rw [hsplit]
      exact List.mem_append_cons_self
  obtain ⟨lines, hlayout, hcells⟩ := cells_apart rfl (threeCells 100 50) .zero 300 hplain
  obtain ⟨u, hcommits, ht, hfirst⟩ : ∃ u, CommitsAt ⟨boxes, .zero, 300⟩
      (Font.ofFace BoxFace.standard.face) (Codec.decode (threeCells 100 50)) u u.marks.size .row ∧
      u.table = some ⟨[⟨0, 50, .left⟩, ⟨50, 50, .right⟩], 0, 100, false,
        [⟨2, 2, 1, .left⟩, ⟨1, 1, 1, .right⟩, ⟨0, 0, 1, .left⟩]⟩ ∧ u.lines.size = 0 := by
    refine ⟨_, commitsAt_endTable _ _ ((lexemes (Codec.decode (threeCells 100 50))).take 6) 19 []
      (by decide +kernel) (by decide +kernel) (by decide +kernel), ?_⟩
    decide +kernel
  obtain ⟨row, hrow, -, hapart⟩ := hcells u _ _ hcommits _ ht
  obtain rfl : Job.layoutWith ⟨boxes, .zero, 300⟩ (Font.ofFace BoxFace.standard.face)
      (Codec.decode (threeCells 100 50)) = lines :=
    Except.ok.inj ((Job.layout_eq rfl _).symm.trans hlayout)
  have hcount := congrArg (Option.map fun row : Line => row.events.length) hrow
  have hlength : row.events.length = 3 := by
    refine Option.some.inj (hcount.symm.trans ?_)
    rw [hfirst]
    decide +kernel
  have hg : row.events[1]? = some row.events[1] := List.getElem?_eq_getElem _
  have he : row.events[2]? = some row.events[2] := List.getElem?_eq_getElem _
  refine ⟨_, _, u, _, row, _, _, rfl, hlayout, hcommits, ht, hrow, hg, he, ?_⟩
  refine (hapart 1 2 _ _ ⟨1, 1, 1, .right⟩ ⟨2, 2, 1, .left⟩ hg he rfl rfl (by decide)).2 ?_
  rintro ⟨-, hover⟩
  revert hover
  decide

end RichText
