/-
  RichText/Proofs/Layout/Extents.lean
  ===================================
  **The cells of a row, and marks aligned in cells.**

  The columns of a table stand side by side, and each cell of a row covers columns behind those
  of the cells before it (`Table.Tiled`).  So cells share no room, but for those that no column
  is left for: these stand at the right edge of the table, which columns may go past
  (`Table.Overhangs`).  Alignment moves a mark to the right, and not past the cell that holds it
  unless it stood there before (`Mark.getElem?_alignCells`).
-/
import RichText.Proofs.Layout.Coherence
import RichText.Proofs.Layout.Columns

namespace RichText

/-! ### Cells -/

namespace Table

variable {t : Table} {c d : Cell} {n i : Nat}

/-- The right edge of a cell. -/
def cellRight (t : Table) (c : Cell) : Int := (t.extent c).1 + (t.extent c).2

/-- The cell that holds the mark at a position of the row: the last one that begins there or
    before. -/
def cellAt (t : Table) (i : Nat) : Option Cell := t.cells.find? (·.first ≤ i)

/-- Columns stand side by side, and each cell begins behind the columns of those before it. -/
structure Tiled (t : Table) : Prop where
  columns : t.columns.Pairwise fun a b => a.left + a.width ≤ b.left
  /-- The cells are listed from the last one back. -/
  cells : t.cells.Pairwise fun d c => c.column + c.span ≤ d.column

theorem tiled_startRow (h : t.columns.Pairwise fun a b => a.left + a.width ≤ b.left) :
    t.startRow.Tiled := ⟨h, List.pairwise_singleton _ _⟩

theorem tiled_ofColumns (cs : List ColumnSetting) (left width : Int) (border : Bool) :
    (ofColumns cs left width border).Tiled :=
  tiled_startRow (Column.pairwise_layout cs left width)

theorem Tiled.nextCell (h : t.Tiled) (n : Nat) : (t.nextCell n).Tiled where
  columns := h.columns
  cells := by
    refine List.pairwise_cons.2 ⟨?_, h.cells⟩
    have hpairs := h.cells
    cases hcells : t.cells with
    | nil => exact fun _ hc => nomatch hc
    | cons last rest =>
      rw [hcells] at hpairs
      intro c hc
      rcases List.mem_cons.1 hc with rfl | hc
      · exact Nat.le_refl _
      · have hbefore := (List.pairwise_cons.1 hpairs).1 c hc
        exact Nat.le_trans hbefore (Nat.le_add_right _ _)

/-- The last cell may cover more columns, since none follows it yet. -/
theorem Tiled.span (h : t.Tiled) (columns : Nat) (align : TextAlign) :
    (t.span columns align).Tiled := by
  unfold Table.span
  split
  · exact h
  · next last rest hcells =>
    have hpairs := h.cells
    rw [hcells] at hpairs
    exact ⟨h.columns, List.pairwise_cons.2 (List.pairwise_cons.1 hpairs)⟩

/-- A later cell begins behind all columns of an earlier one. -/
theorem Tiled.column_add_span_le (h : t.Tiled) (hc : c ∈ t.cells) (hd : d ∈ t.cells)
    (hlt : c.column < d.column) : c.column + c.span ≤ d.column := by
  have hpairs := List.pairwise_iff_getElem.1 h.cells
  obtain ⟨i, hi, rfl⟩ := List.getElem_of_mem hc
  obtain ⟨k, hk, rfl⟩ := List.getElem_of_mem hd
  rcases Nat.lt_trichotomy i k with hik | rfl | hki
  · have hafter := hpairs i k hi hk hik
    omega
  · exact absurd hlt (Nat.lt_irrefl _)
  · exact hpairs k i hk hi hki

/-! ### Extents -/

theorem extent_left (t : Table) (c : Cell) :
    (t.extent c).1 = (t.columns[c.column]?).elim (t.left + max t.width 0) (·.left) := by
  unfold extent
  split <;> simp_all

/-- A cell ends with the last column that it covers. -/
theorem cellRight_eq {column : Column} (h : t.columns[c.column]? = some column) :
    ∃ last, t.columns[min (c.column + c.span - 1) (t.columns.length - 1)]? = some last ∧
      t.cellRight c = last.left + last.width := by
  obtain ⟨hlt, -⟩ := List.getElem?_eq_some_iff.1 h
  have hlast : min (c.column + c.span - 1) (t.columns.length - 1) < t.columns.length := by omega
  refine ⟨_, List.getElem?_eq_getElem hlast, ?_⟩
  simp only [cellRight, extent, h, List.getElem?_eq_getElem hlast, Option.getD_some]
  omega

/-- A later cell is one that no column is left for, and columns of an earlier one go past the
    right edge of the table, where it stands. -/
def Overhangs (t : Table) (c d : Cell) : Prop :=
  t.columns[d.column]? = none ∧ t.left + max t.width 0 < t.cellRight c

/-- A cell ends where a later one begins or to the left of that, unless it overhangs it. -/
theorem Tiled.right_le_iff (h : t.Tiled) (hspan : 1 ≤ c.span)
    (hcolumn : c.column + c.span ≤ d.column) :
    t.cellRight c ≤ (t.extent d).1 ↔ ¬ t.Overhangs c d := by
  rw [Overhangs, extent_left]
  cases hd : t.columns[d.column]? with
  | none => simp only [Option.elim_none, true_and, Int.not_lt]
  | some column =>
    refine iff_of_true ?_ (fun hover => nomatch hover.1)
    obtain ⟨hdlt, rfl⟩ := List.getElem?_eq_some_iff.1 hd
    have hclt : c.column < t.columns.length := by omega
    obtain ⟨last, hlast, hright⟩ := cellRight_eq (List.getElem?_eq_getElem hclt)
    obtain ⟨hllt, rfl⟩ := List.getElem?_eq_some_iff.1 hlast
    rw [hright]
    exact List.pairwise_iff_getElem.1 h.columns _ _ hllt hdlt (by omega)

/-! ### The cell of a mark -/

theorem mem_of_cellAt (h : t.cellAt i = some c) : c ∈ t.cells := List.mem_of_find?_eq_some h

/-- A mark that comes to the end of the row is one of the last cell. -/
theorem cellAt_end (h : t.Coherent n) (hc : t.cellAt n = some c) : t.cells.head? = some c := by
  have hfirst := h.first_le
  unfold cellAt at hc
  cases hcells : t.cells with
  | nil =>
    rw [hcells] at hc
    cases hc
  | cons last rest =>
    rw [hcells] at hc hfirst
    have hlast := hfirst last List.mem_cons_self
    rwa [List.find?_cons_of_pos (by exact decide_eq_true hlast)] at hc

/-- What stands before a mark is in its cell or in one before that. -/
theorem Tiled.column_le (h : t.Tiled) {k : Nat} (hle : k ≤ i) (hd : t.cellAt k = some d)
    (hc : t.cellAt i = some c) : d.column ≤ c.column := by
  have hpairs := h.cells
  unfold cellAt at hd hc
  generalize t.cells = cells at hpairs hd hc
  induction cells with
  | nil => cases hd
  | cons e rest ih =>
    rw [List.find?_cons] at hd hc
    obtain ⟨hlast, hrest⟩ := List.pairwise_cons.1 hpairs
    by_cases hi : e.first ≤ i
    · simp only [hi, decide_true, Option.some.injEq] at hc
      subst hc
      split at hd
      · cases hd
        exact Nat.le_refl _
      · have hbefore := hlast d (List.mem_of_find?_eq_some hd)
        omega
    · have hk : ¬ e.first ≤ k := by omega
      simp only [hi, decide_false] at hc
      simp only [hk, decide_false] at hd
      exact ih hrest hd hc

theorem cellAt_nextCell (h : i < n) : (t.nextCell n).cellAt i = t.cellAt i := by
  have hn : ¬ n ≤ i := Nat.not_le.2 h
  exact List.find?_cons_of_neg (by simpa using hn)

/-- A cell begins where it did, however many columns it covers. -/
theorem cellAt_span {columns : Nat} {align : TextAlign}
    (h : (t.span columns align).cellAt i = some c) :
    ∃ d, t.cellAt i = some d ∧ ((t.span columns align).extent c).1 = (t.extent d).1 := by
  unfold Table.span at h ⊢
  split at h
  · next hcells =>
    rw [cellAt, hcells] at h
    cases h
  · next last rest hcells =>
    simp only [extent_left]
    rw [cellAt, hcells]
    rw [cellAt, List.find?_cons] at h
    rw [List.find?_cons]
    split at h
    · next hfirst =>
      cases h
      simp only [hfirst]
      exact ⟨last, rfl, rfl⟩
    · next hfirst =>
      simp only [hfirst]
      exact ⟨c, h, rfl⟩

theorem cellLeft_span (t : Table) (columns : Nat) (align : TextAlign) :
    (t.span columns align).cellLeft = t.cellLeft := by
  unfold Table.span
  split
  · rfl
  · next last rest hcells =>
    simp only [cellLeft, hcells, List.head?_cons, Option.elim_some, extent_left]

end Table

/-! ### Alignment -/

theorem TextAlign.shift_le (a : TextAlign) (available used : Int) :
    a.shift available used ≤ max (available - used) 0 := by
  have hfree : 0 ≤ max (available - used) 0 := Int.le_max_right _ _
  cases a with
  | left => exact hfree
  | center => exact Int.tdiv_le_self 2 hfree
  | right => exact Int.le_refl _

namespace Mark

variable {t : Table} {c : Cell} {ms : List Mark} {m : Mark} {i : Nat}

/-- The marks of a cell are moved to the right, and not past the cell. -/
theorem getElem?_alignCell (hright : ms.Pairwise fun m k => m.right ≤ k.right)
    (hm : ms[i]? = some m) :
    ∃ dx, 0 ≤ dx ∧ m.right + dx ≤ max m.right (t.cellRight c) ∧
      (alignCell t c ms)[i]? = some (m.shift dx) := by
  have hmem := List.mem_of_getElem? hm
  obtain ⟨last, hlast⟩ := Option.isSome_iff_exists.1
    (List.getLast?_isSome.2 (List.ne_nil_of_mem hmem))
  have hbehind : m.right ≤ last.right := by
    obtain ⟨rest, rfl⟩ := List.getLast?_eq_some_iff.1 hlast
    rcases List.mem_append.1 hmem with hinit | hend
    · exact (List.pairwise_append.1 hright).2.2 m hinit last List.mem_cons_self
    · exact Int.le_of_eq (congrArg right (List.mem_singleton.1 hend))
  simp only [alignCell, hlast, List.getElem?_map, hm, Option.map_some]
  refine ⟨_, TextAlign.shift_nonneg _ _ _, ?_, rfl⟩
  have hshift := c.align.shift_le (t.extent c).2 (last.right - (t.extent c).1)
  rw [Table.cellRight]
  omega

/-- Cells are aligned one by one: a mark is moved to the right, and not past its cell. -/
theorem getElem?_alignCells {row : List Cell} {first : Cell} {rest : List Cell}
    (hrow : row = first :: rest) (hordered : row.Pairwise fun c d => c.first ≤ d.first)
    (hright : ms.Pairwise fun m k => m.right ≤ k.right) (hm : ms[i]? = some m) :
    ∃ c dx, row.reverse.find? (·.first ≤ first.first + i) = some c ∧ 0 ≤ dx ∧
      m.right + dx ≤ max m.right (t.cellRight c) ∧
      (alignCells t row ms)[i]? = some (m.shift dx) := by
  induction row generalizing first rest ms i with
  | nil => cases hrow
  | cons c row ih =>
    obtain ⟨rfl, rfl⟩ := List.cons_eq_cons.1 hrow
    obtain ⟨hfirst, hpairs⟩ := List.pairwise_cons.1 hordered
    cases row with
    | nil =>
      obtain ⟨dx, hmoved⟩ := getElem?_alignCell (t := t) (c := c) hright hm
      refine ⟨c, dx, ?_, hmoved⟩
      simp
    | cons d rest =>
      have hcd := hfirst d List.mem_cons_self
      rw [List.reverse_cons, List.find?_append, alignCells]
      rcases Nat.lt_or_ge i (d.first - c.first) with hlt | hge
      · -- The mark stands before the second cell.
        have hnone : (d :: rest).reverse.find? (·.first ≤ c.first + i) = none := by
          rw [List.find?_eq_none]
          intro e he
          have hde : d.first ≤ e.first := by
            rcases List.mem_cons.1 (List.mem_reverse.1 he) with rfl | he
            · exact Nat.le_refl _
            · exact (List.pairwise_cons.1 hpairs).1 e he
          simp only [decide_eq_true_eq]
          omega
        have hrun : (ms.take (d.first - c.first))[i]? = some m := by
          rw [List.getElem?_take_of_lt hlt, hm]
        obtain ⟨dx, hnonneg, hle, hmoved⟩ :=
          getElem?_alignCell (t := t) (c := c) (hright.sublist (List.take_sublist _ _)) hrun
        refine ⟨c, dx, ?_, hnonneg, hle, ?_⟩
        · rw [hnone]
          simp
        · rw [List.getElem?_append_left (List.getElem?_eq_some_iff.1 hmoved).1, hmoved]
      · have hrun : (ms.drop (d.first - c.first))[i - (d.first - c.first)]? = some m := by
          rw [List.getElem?_drop, Nat.add_sub_cancel' hge, hm]
        obtain ⟨e, dx, hfind, hnonneg, hle, hmoved⟩ :=
          ih rfl hpairs (hright.sublist (List.drop_sublist _ _)) hrun
        have hposition : d.first + (i - (d.first - c.first)) = c.first + i := by omega
        rw [hposition] at hfind
        refine ⟨e, dx, ?_, hnonneg, hle, ?_⟩
        · rw [hfind, Option.some_or]
        · have hi := (List.getElem?_eq_some_iff.1 hm).1
          have hlength : (alignCell t c (ms.take (d.first - c.first))).length =
              d.first - c.first := by
            rw [length_alignCell, List.length_take_of_le (by omega)]
          rw [List.getElem?_append_right (by omega), hlength, hmoved]

end Mark

end RichText
