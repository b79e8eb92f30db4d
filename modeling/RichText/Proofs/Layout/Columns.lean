/-
  RichText/Proofs/Layout/Columns.lean
  ===================================
  **Columns tile their table.**

  Columns are put side by side, each where the one before it ends (`Column.Tiles`).  A column
  with a width of its own has that width; the others have one width in common, their share of
  what is left of the table (`Column.map_width_layout`).  The columns do not go past the right edge
  of the table unless the widths that are set do so by themselves; and as shares are whole pixels,
  automatic columns may end before it, by less than one pixel for each (`Column.layout_tiles`).
-/
import RichText.Layout.Table

namespace RichText.Column

variable {settings : List ColumnSetting} {cs : List Column} {left right tableWidth : Int}

/-! ### Side by side -/

/-- Columns fill the room from one place to another, each from where the one before it ends. -/
def Tiles : Int → List Column → Int → Prop
  | left, [], right => left = right
  | left, c :: cs, right => c.left = left ∧ Tiles (left + c.width) cs right

/-- No column stands to the left of where the first one begins. -/
theorem Tiles.le_left (h : Tiles left cs right) (hwidth : ∀ c ∈ cs, 0 ≤ c.width) :
    ∀ c ∈ cs, left ≤ c.left := by
  induction cs generalizing left with
  | nil => exact fun _ hc => nomatch hc
  | cons first cs ih =>
    obtain ⟨hfirst, hrest⟩ := h
    obtain ⟨hnonneg, hwidth⟩ := List.forall_mem_cons.1 hwidth
    refine List.forall_mem_cons.2 ⟨Int.le_of_eq hfirst.symm, fun c hc => ?_⟩
    have hbehind := ih hrest hwidth c hc
    omega

theorem Tiles.pairwise (h : Tiles left cs right) (hwidth : ∀ c ∈ cs, 0 ≤ c.width) :
    cs.Pairwise fun c d => c.left + c.width ≤ d.left := by
  induction cs generalizing left with
  | nil => exact .nil
  | cons first cs ih =>
    obtain ⟨hfirst, hrest⟩ := h
    have hwidth := (List.forall_mem_cons.1 hwidth).2
    refine List.pairwise_cons.2 ⟨?_, ih hrest hwidth⟩
    rw [hfirst]
    exact hrest.le_left hwidth

/-! ### Widths -/

/-- The width of a column for its setting, where automatic ones are `share` wide. -/
def widthFor (tableWidth share : Int) (c : ColumnSetting) : Int :=
  if setWidth tableWidth c = 0 then share else setWidth tableWidth c

theorem setWidth_nonneg (tableWidth : Int) (c : ColumnSetting) : 0 ≤ setWidth tableWidth c :=
  Int.le_max_right _ _

theorem map_width_place (tableWidth share left : Int) (settings : List ColumnSetting) :
    (place tableWidth share left settings).map (·.width) =
      settings.map (widthFor tableWidth share) := by
  induction settings generalizing left with
  | nil => rfl
  | cons c settings ih =>
    rw [place, List.map_cons, List.map_cons, ih]
    rfl

theorem map_align_place (tableWidth share left : Int) (settings : List ColumnSetting) :
    (place tableWidth share left settings).map (·.align) = settings.map (·.align) := by
  induction settings generalizing left with
  | nil => rfl
  | cons c settings ih => rw [place, List.map_cons, List.map_cons, ih]

theorem tiles_place (tableWidth share left : Int) (settings : List ColumnSetting) :
    Tiles left (place tableWidth share left settings)
      (left + total ((place tableWidth share left settings).map (·.width))) := by
  induction settings generalizing left with
  | nil => exact (Int.add_zero left).symm
  | cons c settings ih =>
    refine ⟨rfl, ?_⟩
    have hrest := ih (left + widthFor tableWidth share c)
    rw [Int.add_assoc] at hrest
    exact hrest

/-! ### The share of an automatic column -/

/-- How many columns are automatic. -/
def automatic (tableWidth : Int) (settings : List ColumnSetting) : Nat :=
  (settings.map (setWidth tableWidth)).count 0

/-- What the set widths leave of the table. -/
def room (tableWidth : Int) (settings : List ColumnSetting) : Int :=
  max (tableWidth - total (settings.map (setWidth tableWidth))) 0

theorem room_nonneg (tableWidth : Int) (settings : List ColumnSetting) :
    0 ≤ room tableWidth settings := Int.le_max_right _ _

/-- All automatic columns together are as many shares wide as there are of them. -/
theorem total_map_widthFor (tableWidth share : Int) (settings : List ColumnSetting) :
    total (settings.map (widthFor tableWidth share)) =
      total (settings.map (setWidth tableWidth)) + share * automatic tableWidth settings := by
  induction settings with
  | nil => simp [total, automatic]
  | cons c settings ih =>
    simp only [total, automatic, List.map_cons, List.foldr_cons, List.count_cons,
      beq_iff_eq] at ih ⊢
    rw [ih, widthFor]
    split
    · next hauto =>
      rw [hauto, Int.natCast_add, Int.mul_add]
      omega
    · rw [Nat.add_zero]
      omega

theorem share_eq (h : 0 < automatic tableWidth settings) :
    share tableWidth settings =
      room tableWidth settings / (automatic tableWidth settings : Int) := by
  have hcount : 0 < (settings.map (setWidth tableWidth)).countP (· == 0) := h
  simp only [share, if_pos hcount]
  exact Int.tdiv_eq_ediv_of_nonneg (room_nonneg tableWidth settings)

theorem share_nonneg (tableWidth : Int) (settings : List ColumnSetting) :
    0 ≤ share tableWidth settings := by
  simp only [share]
  split
  · exact Int.tdiv_nonneg (Int.le_max_right _ _) (Int.natCast_nonneg _)
  · exact Int.le_refl 0

/-- The shares together take no more room than there is. -/
theorem share_mul_automatic_le (tableWidth : Int) (settings : List ColumnSetting) :
    share tableWidth settings * automatic tableWidth settings ≤ room tableWidth settings := by
  rcases Nat.eq_zero_or_pos (automatic tableWidth settings) with hnone | hpos
  · rw [hnone, Int.natCast_zero, Int.mul_zero]
    exact room_nonneg tableWidth settings
  · rw [share_eq hpos]
    exact Int.ediv_mul_le _ (Int.natCast_ne_zero.2 (Nat.ne_of_gt hpos))

/-- With one pixel more for each automatic column there would not be room for them. -/
theorem room_lt (h : 0 < automatic tableWidth settings) :
    room tableWidth settings < share tableWidth settings * automatic tableWidth settings +
      automatic tableWidth settings := by
  have hlt := Int.lt_ediv_add_one_mul_self (room tableWidth settings) (Int.natCast_pos.2 h)
  rw [share_eq h]
  rwa [Int.add_mul, Int.one_mul] at hlt

/-! ### The columns of a table -/

theorem map_width_layout (settings : List ColumnSetting) (left tableWidth : Int) :
    (layout settings left tableWidth).map (·.width) =
      settings.map (widthFor tableWidth (share tableWidth settings)) :=
  map_width_place tableWidth (share tableWidth settings) left settings

theorem width_nonneg (settings : List ColumnSetting) (left tableWidth : Int) :
    ∀ c ∈ layout settings left tableWidth, 0 ≤ c.width := by
  intro c hc
  have hwidth := List.mem_map_of_mem (f := Column.width) hc
  rw [map_width_layout] at hwidth
  obtain ⟨setting, -, hsetting⟩ := List.mem_map.1 hwidth
  rw [← hsetting, widthFor]
  split
  · exact share_nonneg tableWidth settings
  · exact setWidth_nonneg tableWidth setting

theorem tiles_layout (settings : List ColumnSetting) (left tableWidth : Int) :
    Tiles left (layout settings left tableWidth)
      (left + total ((layout settings left tableWidth).map (·.width))) :=
  tiles_place tableWidth (share tableWidth settings) left settings

theorem pairwise_layout (settings : List ColumnSetting) (left tableWidth : Int) :
    (layout settings left tableWidth).Pairwise fun c d => c.left + c.width ≤ d.left :=
  (tiles_layout settings left tableWidth).pairwise (width_nonneg settings left tableWidth)

/-- **Columns tile their table.**  There is one column for each setting, in order, and each begins
    where the one before it ends.  No width is negative; one that is set is kept, and automatic
    columns are all of one width.  Together the columns are not wider than the table, or than
    the set widths if these are wider; and where the set widths leave room and some column is
    automatic, less than one pixel for each automatic column is lost. -/
theorem layout_tiles (settings : List ColumnSetting) (left width : Int) :
    let columns := layout settings left width
    let widths := columns.map (·.width)
    let set := settings.map (setWidth width)
    columns.map (·.align) = settings.map (·.align) ∧
    Tiles left columns (left + total widths) ∧
    (∀ w ∈ widths, 0 ≤ w) ∧
    (∀ (i : Nat) (w : Int), set[i]? = some w → 0 < w → widths[i]? = some w) ∧
    (∀ i k : Nat, set[i]? = some 0 → set[k]? = some 0 → widths[i]? = widths[k]?) ∧
    total widths ≤ max width (total set) ∧
    (0 ∈ set → total set ≤ width → width - total widths < set.count 0) := by
  intro columns widths set
  have hwidths : widths = settings.map (widthFor width (share width settings)) :=
    map_width_layout settings left width
  have htotal : total widths = total set + share width settings * automatic width settings := by
    rw [hwidths]
    exact total_map_widthFor width _ settings
  have hroom : room width settings = max (width - total set) 0 := rfl
  have hwidth : ∀ (i : Nat) (w : Int), set[i]? = some w →
      widths[i]? = some (if w = 0 then share width settings else w) := by
    intro i w hi
    obtain ⟨setting, hsetting, rfl⟩ := Option.map_eq_some_iff.1 (List.getElem?_map.symm.trans hi)
    rw [hwidths, List.getElem?_map, hsetting]
    rfl
  refine ⟨map_align_place _ _ left settings, tiles_layout settings left width,
    List.forall_mem_map.2 (width_nonneg settings left width), ?_, ?_, ?_, ?_⟩
  · intro i w hi hpos
    rw [hwidth i w hi, if_neg (Int.ne_of_gt hpos)]
  · intro i k hi hk
    rw [hwidth i 0 hi, hwidth k 0 hk]
  · have hle := share_mul_automatic_le width settings
    omega
  · intro hauto hle
    have hlt : room width settings < _ := room_lt (List.count_pos_iff.2 hauto)
    have hcount : set.count 0 = automatic width settings := rfl
    omega

/-- Widths of 40 pixels, a quarter of the table and less than nothing, beside two columns without
    one: the three automatic columns lose two of the 35 pixels that are left. -/
theorem layout_tiles_mixed :
    let settings : List ColumnSetting :=
      [⟨.left, some ⟨40, 0, 0⟩⟩, ⟨.center, none⟩, ⟨.left, some ⟨0, 25, 0⟩⟩,
        ⟨.right, some ⟨-5, 0, 0⟩⟩, ⟨.left, some .zero⟩]
    let widths := (layout settings (-10) 100).map (·.width)
    let set := settings.map (setWidth 100)
    (set[2]? = some 25 ∧ (0 : Int) < 25 ∧ widths[2]? = some 25) ∧
      (set[1]? = some 0 ∧ set[3]? = some 0 ∧ widths[1]? = widths[3]?) ∧
      (0 ∈ set ∧ total set ≤ 100 ∧ 100 - total widths < set.count 0) := by
  intro settings widths set
  obtain ⟨-, -, -, hset, hauto, -, hrest⟩ := layout_tiles settings (-10) 100
  have hquarter : set[2]? = some 25 := by decide +kernel
  have hone : set[1]? = some 0 := by decide +kernel
  have hthree : set[3]? = some 0 := by decide +kernel
  have hmem : 0 ∈ set := List.mem_of_getElem? hone
  have hroom : total set ≤ 100 := by decide +kernel
  exact ⟨⟨hquarter, by decide, hset 2 25 hquarter (by decide)⟩,
    ⟨hone, hthree, hauto 1 3 hone hthree⟩, ⟨hmem, hroom, hrest hmem hroom⟩⟩

end RichText.Column
