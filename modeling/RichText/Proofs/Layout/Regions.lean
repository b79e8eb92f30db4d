/-
  RichText/Proofs/Layout/Regions.lean
  ===================================
  **Which lines have a part of a region.**

  Between two tokens the spans that are kept are those of the regions started so far, and the
  lines so far have the parts that these show there (`Regional`).  A mark that is put on the
  line, a line that goes, and the tokens that start and end regions keep this; outside tables
  there is nothing else (`Regional.step`).  So `Job.regions_layout` tells the regions of each
  line of a layout.
-/
import RichText.Proofs.Layout.Stretches

namespace RichText

/-- Whether a setting concerns neither regions nor tables. -/
def Setting.isApart : Setting → Bool
  | .startRegion _ | .endRegion _ | .beginTable _ _ _ => false
  | _ => true

/-- Whether a token begins a table. -/
def Token.beginsTable : Token → Bool
  | .instruction (.setting (.beginTable _ _ _)) => true
  | _ => false

/-! ### Regions over a run -/

namespace LayoutState

variable {job : Job} {font : Font} {s t u : LayoutState} {content : Nat} {reason : LineEnd}
  {rs : List Stretch} {n : Nat}

open Stretch (Increasing AllPlaced)

/-- Between two tokens, of which the next one stands at position `n` or behind it, the spans are
    those of the regions, and so are the parts on the lines so far. -/
structure Regional (rs : List Stretch) (n : Nat) (s : LayoutState) : Prop where
  table : s.table = none
  increasing : Increasing s
  bound : ∀ i ∈ s.reported ++ s.waiting, i < n
  placed : AllPlaced s
  stretches : ∀ r ∈ rs, r.Within n s
  regions : s.regions = rs.filterMap (·.span? s)
  lines : ∀ j l, s.lines[j]? = some l →
    l.regions.map Region.id = ((rs.filter (·.ShownOn s.lines.toList j)).map (·.id)).reverse

theorem regional_initial (job : Job) (font : Font) : (initial job font).Regional [] 0 where
  table := rfl
  increasing := .nil
  bound := fun _ h => nomatch h
  placed := fun _ h => nomatch h
  stretches := fun _ h => nomatch h
  regions := rfl
  lines := fun _ _ h => nomatch h

namespace Regional

theorem mono (h : s.Regional rs n) {m : Nat} (hm : n ≤ m) : s.Regional rs m where
  table := h.table
  increasing := h.increasing
  bound := fun i hi => Nat.lt_of_lt_of_le (h.bound i hi) hm
  placed := h.placed
  stretches := by
    intro r hr
    obtain ⟨hstart, hending⟩ := h.stretches r hr
    refine ⟨Nat.lt_of_lt_of_le hstart hm, ?_⟩
    intro e he
    exact ⟨Nat.lt_of_lt_of_le (hending e he).1 hm, (hending e he).2⟩
  regions := h.regions
  lines := h.lines

theorem congr (h : s.Regional rs n) (hmarks : t.marks = s.marks) (hlines : t.lines = s.lines)
    (hregions : t.regions = s.regions) (htable : t.table = s.table) : t.Regional rs n where
  table := htable.trans h.table
  increasing := by
    rw [Increasing, reported_congr hlines, waiting_congr hmarks]
    exact h.increasing
  bound := by
    rw [reported_congr hlines, waiting_congr hmarks]
    exact h.bound
  placed := by
    unfold AllPlaced
    rw [hlines]
    exact h.placed
  stretches := by
    intro r hr
    obtain ⟨hstart, hending⟩ := h.stretches r hr
    exact ⟨hstart, by rwa [hlines]⟩
  regions := by
    rw [hregions, h.regions]
    have hbefore : ∀ i, t.before i = s.before i := by
      intro i
      rw [before, waiting_congr hmarks, before]
    refine List.filterMap_congr fun r _ => ?_
    exact (Stretch.span?_congr (reported_congr hlines) (congrArg Array.size hlines)
      (hbefore (r.start + 1)) fun e _ => hbefore e.index).symm
  lines := by
    rw [hlines]
    exact h.lines

/-- A mark behind the others belongs to no region that has ended, and begins none. -/
theorem pushMark (h : s.Regional rs n) (job : Job) (code : Nat) (kind : MarkKind) (advance : Int)
    {index : Nat} (hindex : n ≤ index) :
    (s.pushMark job code kind advance index).Regional rs (index + 1) := by
  obtain ⟨hlines, -, -, hregions, htable, -⟩ := pushMark_frame job s code kind advance index
  have hreported : (s.pushMark job code kind advance index).reported = s.reported :=
    reported_congr hlines
  have hlt : ∀ i ∈ s.reported ++ s.waiting, i < index := (h.mono hindex).bound
  refine ⟨htable.trans h.table, ?_, ?_, ?_, ?_, ?_, ?_⟩
  · rw [Increasing, hreported, waiting_pushMark, ← List.append_assoc, List.pairwise_append]
    refine ⟨h.increasing, List.pairwise_singleton _ _, ?_⟩
    intro i hi k hk
    rw [List.mem_singleton.1 hk]
    exact hlt i hi
  · rw [hreported, waiting_pushMark, ← List.append_assoc]
    intro i hi
    rcases List.mem_append.1 hi with hi | hi
    · exact Nat.lt_succ_of_lt (hlt i hi)
    · rw [List.mem_singleton.1 hi]
      exact Nat.lt_succ_self index
  · unfold AllPlaced
    rw [hlines]
    exact h.placed
  · have hmono := (h.mono (Nat.le_succ_of_le hindex)).stretches
    intro r hr
    exact ⟨(hmono r hr).start, by rw [hlines]; exact (hmono r hr).ending⟩
  · rw [hregions, h.regions]
    refine List.filterMap_congr fun r hr => ?_
    exact (Stretch.span?_pushMark (h.stretches r hr) job code kind advance hindex).symm
  · rw [hlines]
    exact h.lines

/-- A line that is committed has the parts of the regions that are shown on it, and the spans
    that are carried on are those of the regions. -/
theorem commit (h : s.Regional rs n) (job : Job) (hc : content ≤ s.marks.size)
    (hpos : 0 < s.cut content reason)
    (hplaced : ((s.setLine job content (s.cut content reason) reason).line s
      job.printer.images).placed =
        ((s.setLine job content (s.cut content reason) reason).line s job.printer.images).events) :
    (s.commit job content reason).Regional rs n := by
  obtain ⟨-, hlines, -, -, -, -, hregions, htable⟩ := commit_frame job s content reason
  have hpositions : (s.commit job content reason).reported ++
      (s.commit job content reason).waiting = s.reported ++ s.waiting := by
    rw [reported_commit, waiting_commit, List.append_assoc, List.take_append_drop]
  have hlist : (s.commit job content reason).lines.toList = s.lines.toList ++
      [(s.setLine job content (s.cut content reason) reason).line s job.printer.images] := by
    rw [hlines, Array.toList_push]
  refine ⟨?_, ?_, ?_, ?_, ?_, ?_, ?_⟩
  · rw [htable, h.table]
    split <;> rfl
  · rw [Increasing, hpositions]
    exact h.increasing
  · rw [hpositions]
    exact h.bound
  · intro l hl
    rw [hlist] at hl
    rcases List.mem_append.1 hl with hl | hl
    · exact h.placed l hl
    · rw [List.mem_singleton.1 hl]
      exact hplaced
  · intro r hr
    obtain ⟨hstart, hending⟩ := h.stretches r hr
    refine ⟨hstart, ?_⟩
    intro e he
    rw [Stretch.size_lines_commit]
    exact ⟨(hending e he).1, Nat.le_succ_of_le (hending e he).2⟩
  · rw [hregions, h.regions, List.filterMap_filterMap]
    refine List.filterMap_congr fun r hr => ?_
    exact (Stretch.span?_commit h.increasing (h.stretches r hr) job hc reason).symm
  · intro j l hl
    rw [hlines, Array.getElem?_push] at hl
    rw [hlist]
    split at hl
    · next hj =>
      cases hl
      subst hj
      have hle := cut_le hc reason
      have hcut := length_marks_setLine job s content hle reason
      change List.map Region.id (List.filterMap _ s.regions.reverse) = _
      rw [List.filterMap_reverse, List.map_reverse, h.regions, List.filterMap_filterMap,
        List.map_filterMap, map_filter_eq_filterMap]
      refine congrArg List.reverse (List.filterMap_congr fun r _ => ?_)
      exact Stretch.region?_span? h.increasing h.placed hplaced
        (hcut.symm ▸ indices_setLine job s content _ reason) (hcut.symm ▸ hpos) (hcut.symm ▸ hle) r
    · have hj : j < s.lines.toList.length := by
        rw [Array.length_toList]
        exact (Array.getElem?_eq_some_iff.1 hl).1
      rw [h.lines j l hl]
      simp only [Stretch.shownOn_append hj]

/-- A region begins behind all that has been put on a line. -/
theorem startRegion (h : s.Regional rs n) (id : Nat) {index : Nat} (hindex : n ≤ index) :
    { s with regions := Span.opening s.marks.size id :: s.regions }.Regional
      (⟨id, index, none⟩ :: rs) (index + 1) := by
  have hlt : ∀ i ∈ s.reported ++ s.waiting, i < index := (h.mono hindex).bound
  have hmono := h.mono (Nat.le_succ_of_le hindex)
  refine ⟨h.table, h.increasing, hmono.bound, h.placed, ?_, ?_, ?_⟩
  · intro r hr
    rcases List.mem_cons.1 hr with rfl | hr
    · exact ⟨Nat.lt_succ_self index, fun e he => nomatch he⟩
    · exact ⟨(hmono.stretches r hr).start, (hmono.stretches r hr).ending⟩
  · have hnot : ¬ Stretch.Begun s ⟨id, index, none⟩ := by
      rintro ⟨i, hi, hstart⟩
      exact absurd (hlt i (List.mem_append_left _ hi)) (Nat.not_lt.2 (Nat.le_of_lt hstart))
    have hbefore : s.before (index + 1) = s.marks.size :=
      before_of_forall_lt fun k hk => Nat.lt_succ_of_lt (hlt k (List.mem_append_right _ hk))
    have hspan := Stretch.span?_of_not_begun hnot
    change _ :: s.regions = List.filterMap (Stretch.span? s) _
    rw [List.filterMap_cons_some hspan, hbefore, h.regions]
    rfl
  · intro j l hl
    have hnot : ¬ Stretch.ShownOn s.lines.toList ⟨id, index, none⟩ j := by
      rintro ⟨⟨g, hg, hstart⟩, -⟩
      have hbehind := hlt g.index (List.mem_append_left _ (mem_reported hg))
      exact absurd hbehind (Nat.not_lt.2 (Nat.le_of_lt hstart))
    change l.regions.map Region.id =
      (((Stretch.mk id index none :: rs).filter (·.ShownOn s.lines.toList j)).map (·.id)).reverse
    rw [List.filter_cons_of_neg (by simpa using hnot)]
    exact h.lines j l hl

/-- The region that ends is the one whose span is closed. -/
theorem endRegion (h : s.Regional rs n) (id : Nat) {index : Nat} (hindex : n ≤ index) :
    { s with regions := closeFirst (·.data == id) s.marks.size s.regions }.Regional
      (Stretch.endLast id ⟨index, s.lines.size⟩ rs) (index + 1) := by
  have hlt : ∀ i ∈ s.reported ++ s.waiting, i < index := (h.mono hindex).bound
  have hmono := h.mono (Nat.le_succ_of_le hindex)
  refine ⟨h.table, h.increasing, hmono.bound, h.placed, ?_, ?_, ?_⟩
  · intro r hr
    rcases Stretch.mem_endLast hr with hr | ⟨q, hq, -, rfl⟩
    · exact ⟨(hmono.stretches r hr).start, (hmono.stretches r hr).ending⟩
    · refine ⟨(hmono.stretches q hq).start, ?_⟩
      intro e he
      cases he
      exact ⟨Nat.lt_succ_self index, Nat.le_refl s.lines.size⟩
  · change closeFirst _ s.marks.size s.regions = List.filterMap (Stretch.span? s) _
    rw [h.regions]
    exact Stretch.closeFirst_span? fun k hk => hlt k (List.mem_append_right _ hk)
  · intro j l hl
    change l.regions.map Region.id = (((Stretch.endLast id ⟨index, s.lines.size⟩ rs).filter
      (·.ShownOn s.lines.toList j)).map (·.id)).reverse
    rw [h.lines j l hl, Stretch.map_id_filter_endLast]
    intro r _ hopen
    have hj : j < s.lines.size := (Array.getElem?_eq_some_iff.1 hl).1
    exact decide_eq_decide.2
      (Stretch.shownOn_ended hopen (fun k hk => hlt k (List.mem_append_left _ hk)) hj)

end Regional

/-! ### Lines that are committed -/

/-- No end of a line waits. -/
def Inside (s : LayoutState) : Prop := ∀ m ∈ s.marks.toList, m.kind.isEnd = false

theorem Inside.congr (h : s.Inside) (hmarks : t.marks = s.marks) : t.Inside := by
  unfold Inside
  rw [hmarks]
  exact h

theorem Inside.commit (h : s.Inside) (job : Job) (content : Nat) (reason : LineEnd) :
    (s.commit job content reason).Inside := by
  obtain ⟨⟨dx, hmarks⟩, -⟩ := commit_frame job s content reason
  intro m hm
  rw [hmarks] at hm
  obtain ⟨k, hk, rfl⟩ := List.mem_map.1 hm
  exact h k (List.mem_of_mem_drop hk)

/-- What is left over at a wrap is no end, and elsewhere nothing is. -/
theorem placed_setLine (job : Job) (reason : LineEnd) {cut : Nat}
    (h : s.Inside ∨ cut ≤ content) :
    ((s.setLine job content cut reason).line s job.printer.images).placed =
      ((s.setLine job content cut reason).line s job.printer.images).events := by
  have hkinds := map_setLine (f := Mark.kind) (fun _ _ => rfl) job s content cut reason
  rw [Line.placed, List.filter_eq_self]
  intro g hg
  rw [SetLine.events_line] at hg
  rcases List.mem_append.1 hg with hg | hg
  · obtain ⟨m, -, rfl⟩ := List.mem_map.1 hg
    simp [SetLine.glyph]
  · obtain ⟨m, hm, rfl⟩ := List.mem_map.1 hg
    rcases h with h | hle
    · have hkind : m.kind ∈ (s.marks.toList.take cut).map Mark.kind :=
        hkinds ▸ List.mem_map_of_mem (List.mem_of_mem_drop hm)
      obtain ⟨k, hk, hsame⟩ := List.mem_map.1 hkind
      have hinside := h k (List.mem_of_mem_take hk)
      rw [hsame] at hinside
      have hend : (m.kind == .lineEnd || m.kind == .textEnd) = false := hinside
      simp [SetLine.glyph, hend]
    · have hlength := congrArg List.length hkinds
      rw [List.length_map, List.length_map, List.length_take] at hlength
      have hnil : (s.setLine job content cut reason).marks.drop content = [] :=
        List.drop_eq_nil_of_le (by omega)
      change m ∈ (s.setLine job content cut reason).marks.drop content at hm
      rw [hnil] at hm
      cases hm

theorem Regional.checkWrap (h : s.Regional rs n) (hinside : s.Inside) (hb : s.BreakWithin)
    (hsize : 0 < s.marks.size) :
    (s.checkWrap job).Regional rs n ∧ (s.checkWrap job).Inside := by
  by_cases hover : s.Overflows job
  · rw [checkWrap_of_overflows hover]
    refine ⟨?_, hinside.commit job s.breakAt .wrap⟩
    exact h.commit job (breakAt_le hb) (cut_breakAt_pos hb hsize)
      (placed_setLine job .wrap (Or.inl hinside))
  · rw [checkWrap_of_not_overflows hover]
    exact ⟨h, hinside⟩

/-- A mark for the end of a line or of the text takes the whole line with it. -/
theorem Regional.close (h : s.Regional rs n) (job : Job) (code : Nat) (kind : MarkKind)
    {index : Nat} (hindex : n ≤ index) (hreason : reason ≠ .wrap) :
    ((s.pushMark job code kind 0 index).commitAll job reason).Regional rs (index + 1) ∧
      ((s.pushMark job code kind 0 index).commitAll job reason).Inside := by
  have hpush := h.pushMark job code kind 0 hindex
  generalize hu : s.pushMark job code kind 0 index = u at hpush
  have hsize : u.marks.size = s.marks.size + 1 := hu ▸ size_pushMark job s code kind 0 index
  have hcut : u.cut u.marks.size reason = u.marks.size := cut_of_ne_wrap hreason
  constructor
  · refine hpush.commit job (Nat.le_refl _) (by omega) (placed_setLine job reason (Or.inr ?_))
    exact Nat.le_of_eq hcut
  · intro m hm
    rw [(commitAll_empty job u hreason).1] at hm
    cases hm

/-! ### Steps -/

/-- The spans of regions are as they were, and no table has begun. -/
def KeepsRegions (s t : LayoutState) : Prop := t.regions = s.regions ∧ t.table = none

theorem keepsRegions_switchFont (job : Job) (hs : s.table = none) (format : Format) :
    KeepsRegions s ({ s with format := format }.switchFont job) := by
  have huse : ∀ id font, KeepsRegions s ({ s with format := format }.useFont id font) := by
    intro id font
    simp only [useFont]
    split <;> exact ⟨rfl, hs⟩
  simp only [switchFont, updateWrapWidth]
  cases job.printer.fonts.get? ({ s with format := format }.wantedFont job) with
  | none => exact ⟨rfl, hs⟩
  | some font => exact huse _ font

theorem keepsRegions_applyToggle (job : Job) (hs : s.table = none) (t : Toggle) :
    KeepsRegions s (s.applyToggle job t) := by
  cases t with
  | startSelection => exact ⟨rfl, hs⟩
  | endSelection => exact ⟨rfl, hs⟩
  | _ => exact keepsRegions_switchFont job hs _

theorem keepsRegions_applySwitch (job : Job) (hs : s.table = none) (w : Switch) :
    KeepsRegions s (s.applySwitch job w) := by
  cases w with
  | resetFormatting => exact keepsRegions_switchFont job hs _
  | script kind => exact keepsRegions_switchFont job hs _
  | endTable =>
    change KeepsRegions s (s.endTable job)
    rw [endTable_of_no_table job hs]
    exact ⟨rfl, hs⟩
  | _ => exact ⟨rfl, hs⟩

theorem keepsRegions_applySetting (job : Job) (hs : s.table = none) {index : Nat}
    {setting : Setting} (hmark : s.marked? job ⟨index, .instruction (.setting setting)⟩ = none)
    (hapart : setting.isApart = true) : KeepsRegions s (s.applySetting job index setting) := by
  cases setting with
  | font id => exact keepsRegions_switchFont job hs _
  | image i =>
    simp only [marked?, Option.map_eq_none_iff] at hmark
    simp only [applySetting, placeImage, hmark, Option.elim_none]
    exact ⟨rfl, hs⟩
  | length target l =>
    cases target with
    | horizontalSpace =>
      cases l with
      | none => exact ⟨rfl, hs⟩
      | some l => cases hmark
    | verticalSpace =>
      cases l with
      | none => exact ⟨rfl, hs⟩
      | some l =>
        simp only [applySetting, applyLength, Option.elim_some, addVerticalSpace]
        split <;> exact ⟨rfl, hs⟩
    | _ => exact ⟨rfl, hs⟩
  | columnSpan columns align => exact ⟨rfl, by simp [applySetting, hs]⟩
  | startRegion id => cases hapart
  | endRegion id => cases hapart
  | beginTable border width columns => cases hapart
  | addTabStop id position => cases position <;> exact ⟨rfl, hs⟩
  | _ => exact ⟨rfl, hs⟩

/-- A token that puts no mark on the line, and concerns neither regions nor tables, keeps
    them. -/
theorem keepsRegions_step (job : Job) (hs : s.table = none) {l : Lexeme}
    (hmark : s.marked? job l = none) (hnewline : ∀ c, l.token ≠ .newline c)
    (hapart : ∀ setting, l.token = .instruction (.setting setting) → setting.isApart = true) :
    KeepsRegions s (s.step job l) := by
  obtain ⟨index, token⟩ := l
  cases token with
  | text c => cases hmark
  | newline c => exact absurd rfl (hnewline c)
  | placeholder => cases hmark
  | row =>
    change KeepsRegions s (s.endRow job)
    rw [endRow_of_no_table job hs]
    exact ⟨rfl, hs⟩
  | cell =>
    change KeepsRegions s (s.nextCell job)
    rw [nextCell_of_no_table job hs]
    exact ⟨rfl, hs⟩
  | nothing => exact ⟨rfl, hs⟩
  | instruction i =>
    cases i with
    | toggle t => exact keepsRegions_applyToggle job hs t
    | switch w => exact keepsRegions_applySwitch job hs w
    | setting setting => exact keepsRegions_applySetting job hs hmark (hapart setting rfl)

theorem stretches_of_marked {l : Lexeme} (h : s.marked? job l = some u) (line : Nat) :
    l.stretches line rs = rs := by
  simp only [Lexeme.stretches]
  split
  · next htoken =>
    simp only [marked?, htoken] at h
    cases h
  · next htoken =>
    simp only [marked?, htoken] at h
    cases h
  · rfl

/-- A mark is put behind the others, and may wrap the line. -/
theorem Regional.marked (h : s.Regional rs n) (hinside : s.Inside) (hb : s.BreakWithin)
    {l : Lexeme} (hindex : n ≤ l.index) (hmark : s.marked? job l = some u) :
    (s.step job l).Regional rs (l.index + 1) ∧ (s.step job l).Inside := by
  have hbreak : u.BreakWithin := breakWithin_marked hb hmark
  obtain ⟨v, code, kind, advance, p, hv, hkind, rfl, hstep⟩ := marked_cases hmark
  have hbefore : v.Regional rs n ∧ v.Inside := by
    rcases hv with rfl | ⟨rfl, -⟩
    · exact ⟨h, hinside⟩
    · obtain ⟨hmarks, hlines, -, hregions, htable⟩ := beforeMark_frame job s code
      exact ⟨h.congr hmarks hlines hregions htable, hinside.congr hmarks⟩
  have hpushed : (v.pushMark job code kind advance l.index).Inside := by
    intro m hm
    rw [toList_pushMark] at hm
    rcases List.mem_append.1 hm with hm | hm
    · exact hbefore.2 m hm
    · rw [List.mem_singleton.1 hm]
      exact hkind
  obtain ⟨hregional, hinside⟩ := (hbefore.1.pushMark job code kind advance hindex).checkWrap
    hpushed hbreak (by rw [size_pushMark]; exact Nat.succ_pos _)
  rw [hstep]
  obtain ⟨hmarks, hlines, -, hregions, htable⟩ := noteBreak_frame
    ((v.pushMark job code kind advance l.index).checkWrap job) p
  exact ⟨hregional.congr hmarks hlines hregions htable, hinside.congr hmarks⟩

theorem stretches_of_apart {l : Lexeme}
    (h : ∀ setting, l.token = .instruction (.setting setting) → setting.isApart = true)
    (line : Nat) : l.stretches line rs = rs := by
  simp only [Lexeme.stretches]
  split
  · next htoken => cases h _ htoken
  · next htoken => cases h _ htoken
  · rfl

/-- A token that puts no mark on the line, and concerns neither regions nor tables, is passed
    over. -/
theorem Regional.keep (h : s.Regional rs n) (hinside : s.Inside) {l : Lexeme}
    (hindex : n ≤ l.index) (hmark : s.marked? job l = none) (hnewline : ∀ c, l.token ≠ .newline c)
    (hapart : ∀ setting, l.token = .instruction (.setting setting) → setting.isApart = true) :
    (s.step job l).Regional (l.stretches s.lines.size rs) (l.index + 1) ∧
      (s.step job l).Inside := by
  obtain ⟨hregions, htable⟩ := keepsRegions_step job h.table hmark hnewline hapart
  have hidle := idle_step h.table hmark hnewline htable
  rw [stretches_of_apart hapart]
  constructor
  · apply (h.mono (Nat.le_succ_of_le hindex)).congr hidle.marks hidle.lines hregions
    rw [htable, h.table]
  · exact hinside.congr hidle.marks

theorem Regional.step (h : s.Regional rs n) (hinside : s.Inside) (hb : s.BreakWithin)
    {l : Lexeme} (hindex : n ≤ l.index)
    (hl : l.token.beginsTable = false) :
    (s.step job l).Regional (l.stretches s.lines.size rs) (l.index + 1) ∧
      (s.step job l).Inside := by
  cases hmark : s.marked? job l with
  | some u =>
    rw [stretches_of_marked hmark]
    exact h.marked hinside hb hindex hmark
  | none =>
    obtain ⟨index, token⟩ := l
    cases token with
    | newline c =>
      rw [step_newline h.table]
      exact h.close job c .lineEnd hindex fun hr => nomatch hr
    | instruction i =>
      cases i with
      | setting setting =>
        cases setting with
        | startRegion id => exact ⟨h.startRegion id.val hindex, hinside⟩
        | endRegion id => exact ⟨h.endRegion id.val hindex, hinside⟩
        | beginTable border width columns => cases hl
        | _ =>
          apply h.keep hinside hindex hmark (fun _ hc => nomatch hc)
          rintro setting ⟨⟩
          rfl
      | _ => exact h.keep hinside hindex hmark (fun _ hc => nomatch hc) fun _ hs => nomatch hs
    | _ => exact h.keep hinside hindex hmark (fun _ hc => nomatch hc) fun _ hs => nomatch hs

/-- The regions of the tokens taken so far have the spans that are kept. -/
theorem regional_run (job : Job) (font : Font) {cs : List Nat} {seen rest : List Lexeme}
    (hsplit : lexemes cs = seen ++ rest) (h : ∀ l ∈ lexemes cs, l.token.beginsTable = false) :
    ∃ n, ((initial job font).run job seen).Regional ((initial job font).stretches job [] seen) n ∧
      ((initial job font).run job seen).Inside ∧ n ≤ cs.length ∧ ∀ l ∈ rest, n ≤ l.index := by
  induction seen using List.reverseRecOn generalizing rest with
  | nil =>
    refine ⟨0, regional_initial job font, ?_, Nat.zero_le _, fun l _ => Nat.zero_le l.index⟩
    intro m hm
    cases hm
  | append_singleton seen l ih =>
    rw [List.append_assoc, List.singleton_append] at hsplit
    obtain ⟨n, hregional, hinside, -, hrest⟩ := ih hsplit
    have hmem : l ∈ lexemes cs := hsplit ▸ List.mem_append_right seen List.mem_cons_self
    have hb := breakWithin_run job font seen
    obtain ⟨hstep, hstepped⟩ :=
      hregional.step hinside hb (hrest l List.mem_cons_self) (h l hmem)
    have hrun : (initial job font).run job (seen ++ [l]) =
        ((initial job font).run job seen).step job l := List.foldl_append ..
    rw [hrun, stretches_append]
    refine ⟨l.index + 1, hstep, hstepped, index_lt_of_mem_lexemes hmem, ?_⟩
    have hpairs := pairwise_lexemes cs
    rw [hsplit, List.pairwise_append] at hpairs
    intro k hk
    exact (List.pairwise_cons.1 hpairs.2.1).1 k hk

/-- The end of the text closes the last line, or stands behind it and has no part of a
    region. -/
theorem Regional.finish (h : s.Regional rs n) (job : Job) {total : Nat} (hn : n ≤ total) {j : Nat}
    {l : Line} (hl : (s.finish job total)[j]? = some l) :
    l.regions.map Region.id =
      ((rs.filter (·.ShownOn (s.finish job total) j)).map (·.id)).reverse := by
  cases hwrapped : s.wrapped.filter fun _ => s.lineIsEmpty with
  | some w =>
    have hfinish : s.finish job total =
        s.lines.toList ++ [⟨[], [.glyph (s.wrappedEnd w total)], [], []⟩] := by
      simp only [LayoutState.finish, hwrapped]
    rw [hfinish] at hl ⊢
    rcases Nat.lt_or_ge j s.lines.toList.length with hj | hj
    · rw [List.getElem?_append_left hj, Array.getElem?_toList] at hl
      rw [h.lines j l hl]
      simp only [Stretch.shownOn_append hj]
    · rw [List.getElem?_append_right hj, List.getElem?_singleton] at hl
      split at hl
      · next hlast =>
        cases hl
        have hnone : ∀ r : Stretch, ¬ r.ShownOn (s.lines.toList ++
            [⟨[], [.glyph (s.wrappedEnd w total)], [], []⟩]) j := by
          rintro r ⟨⟨g, hg, -⟩, -⟩
          rw [placedOn, List.getElem?_append_right hj, hlast] at hg
          cases hg
        rw [List.filter_eq_nil_iff.2 fun r _ => by simpa using hnone r]
        rfl
      · cases hl
  | none =>
    have hfinish : s.finish job total =
        ((s.pushMark job 0 .textEnd 0 total).commitAll job .text).lines.toList := by
      simp only [LayoutState.finish, hwrapped]
    have hclose : ((s.pushMark job 0 .textEnd 0 total).commitAll job .text).Regional rs
        (total + 1) := (h.close job 0 .textEnd hn LineEnd.noConfusion).1
    rw [hfinish] at hl ⊢
    exact hclose.lines j l (by rwa [← Array.getElem?_toList])

end LayoutState

/-- The parts of regions that are reported on a line are those of the regions shown there, in
    the order in which these start. -/
theorem Job.regions_layout (job : Job) (font : Font) {cs : List Nat}
    (h : ∀ l ∈ lexemes cs, l.token.beginsTable = false) {j : Nat} {l : Line}
    (hl : (job.layoutWith font cs)[j]? = some l) :
    l.regions.map Region.id =
      ((job.stretches font cs).filter (·.ShownOn (job.layoutWith font cs) j)).map (·.id) := by
  obtain ⟨n, hregional, -, hn, -⟩ := LayoutState.regional_run job font (List.append_nil _).symm h
  rw [hregional.finish job hn hl, Job.stretches, List.filter_reverse, List.map_reverse]
  rfl

end RichText
