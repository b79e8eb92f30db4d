/-
  RichText/Proofs/Layout/Segments.lean
  ====================================
  **Without wrapping, lines are what newlines separate.**

  Where no line is wrapped and no table begins, a line is committed by a newline or by the end
  of the text alone.  So the marks that wait between two tokens end nothing
  (`LayoutState.Segmented`), and each line ends with its last glyph and has no other end
  (`Line.EndsOnce`).  Since positions increase over the lines, two of them are on one line
  exactly if no end lies between them (`Job.together_iff`).

  Which code points are newlines is decided by the tokens: one that an instruction takes as a
  parameter is none, and neither is a carriage return before a line feed (`mem_newlines_iff`).
  The ends that are reported of any layout are the newlines and the end of the text
  (`Job.lineEnds_layoutWith`).
-/
import RichText.Proofs.Layout.Exhausted
import RichText.Proofs.Layout.Indents
import RichText.Proofs.Layout.Regions

namespace RichText

/-! ### Newlines of a text -/

def Token.isNewline : Token → Bool
  | .newline _ => true
  | _ => false

/-- The positions of the newlines that are read as such. -/
def newlines (cs : List Nat) : List Nat :=
  ((lexemes cs).filter (·.token.isNewline)).map (·.index)

/-- A token that starts with a code point is a newline if that is one, unless a line feed comes
    after a carriage return. -/
theorem Token.isNewline_read (c : Nat) (rest : List Nat) :
    (read c rest).1.isNewline = true ↔ CodePoint.isNewline c = true ∧
      ¬ (c = CodePoint.carriageReturn ∧ rest.head? = some CodePoint.lineFeed) := by
  by_cases hpair : c = CodePoint.carriageReturn ∧ rest.head? = some CodePoint.lineFeed
  · have hread : read c rest = (.nothing, 0) := by
      unfold read
      rw [if_pos hpair, hpair.1]
      rfl
    rw [hread]
    exact iff_of_false Bool.false_ne_true fun h => h.2 hpair
  by_cases hc : CodePoint.isNewline c = true
  · rw [read_newline hc hpair]
    exact iff_of_true rfl ⟨hc, hpair⟩
  · refine iff_of_false ?_ fun h => hc h.1
    unfold read
    split
    · exact Bool.false_ne_true
    split
    · cases rest with
      | nil => exact Bool.false_ne_true
      | cons command rest =>
        dsimp only
        cases (Setting.read command rest).1 <;> exact Bool.false_ne_true
    split
    · cases rest with
      | nil => exact Bool.false_ne_true
      | cons command rest =>
        dsimp only
        cases Switch.ofCommand? command <;> exact Bool.false_ne_true
    split
    · exact Bool.false_ne_true
    split
    · exact Bool.false_ne_true
    split
    · exact Bool.false_ne_true
    · unfold single
      cases Toggle.ofCode? c with
      | some t => exact Bool.false_ne_true
      | none =>
        simp only [if_neg hc]
        exact Bool.false_ne_true

/-- The newlines are the code points of that kind at which a token starts, but for a carriage
    return before a line feed. -/
theorem mem_newlines_iff {cs : List Nat} {i : Nat} :
    i ∈ newlines cs ↔ (∃ l ∈ lexemes cs, l.index = i) ∧
      ∃ c rest, cs.drop i = c :: rest ∧ CodePoint.isNewline c = true ∧
        ¬ (c = CodePoint.carriageReturn ∧ rest.head? = some CodePoint.lineFeed) := by
  rw [newlines, List.mem_map]
  constructor
  · rintro ⟨l, hl, rfl⟩
    obtain ⟨hl, hnewline⟩ := List.mem_filter.1 hl
    obtain ⟨c, rest, hdrop, htoken⟩ := exists_of_mem_lexemes hl
    rw [htoken, Token.isNewline_read] at hnewline
    exact ⟨⟨l, hl, rfl⟩, c, rest, hdrop, hnewline⟩
  · rintro ⟨⟨l, hl, rfl⟩, c, rest, hdrop, hnewline⟩
    obtain ⟨d, tail, hdrop', htoken⟩ := exists_of_mem_lexemes hl
    obtain ⟨rfl, rfl⟩ := List.cons_eq_cons.1 (hdrop.symm.trans hdrop')
    exact ⟨l, List.mem_filter.2 ⟨hl, by rw [htoken, Token.isNewline_read]; exact hnewline⟩, rfl⟩

theorem pairwise_newlines (cs : List Nat) : (newlines cs).Pairwise (· < ·) :=
  List.pairwise_map.2 ((pairwise_lexemes cs).sublist List.filter_sublist)

/-! ### Ends that are reported -/

/-- The positions at which lines end. -/
def lineEnds (ls : List Line) : List Nat := ((events ls).filter (·.lineEnd)).map (·.index)

theorem lineEnds_signs (images : Registry Image) (l : Lexeme) :
    ((l.signs images).filter (·.lineEnd)).map (·.index) =
      if l.token.isNewline then [l.index] else [] := by
  obtain ⟨index, token⟩ := l
  cases token with
  | instruction i =>
    cases i with
    | setting setting =>
      cases setting with
      | length target l =>
        cases target with
        | horizontalSpace => cases l <;> rfl
        | _ => rfl
      | image i =>
        simp only [Lexeme.signs]
        split <;> rfl
      | _ => rfl
    | _ => rfl
  | _ => rfl

/-- Of the signs of a text the newlines end a line. -/
theorem lineEnds_signsOf (images : Registry Image) (cs : List Nat) :
    ((signsOf images cs).filter (·.lineEnd)).map (·.index) = newlines cs := by
  rw [signsOf, newlines, List.filter_flatMap, List.map_flatMap]
  simp only [lineEnds_signs]
  induction lexemes cs with
  | nil => rfl
  | cons l ls ih =>
    rw [List.flatMap_cons, ih, List.filter_cons]
    split <;> rfl

theorem lineEnds_of_reports {signs : List Sign} {gs : List Glyph}
    (h : List.Forall₂ Reports signs gs) :
    (gs.filter (·.lineEnd)).map (·.index) = (signs.filter (·.lineEnd)).map (·.index) := by
  induction h with
  | nil => rfl
  | cons hr _ ih =>
    simp only [List.filter_cons, hr.lineEnd]
    split
    · rw [List.map_cons, List.map_cons, ih, hr.index]
    · exact ih

/-- **Each newline and the end of the text end one line.** -/
theorem Job.lineEnds_layoutWith (job : Job) (font : Font) (cs : List Nat) :
    lineEnds (job.layoutWith font cs) = newlines cs ++ [cs.length] := by
  obtain ⟨before, last, hevents, hreports, hend, -, hlast⟩ :=
    LayoutState.finish_events job (LayoutState.accounted_run job font cs) cs.length
  rw [lineEnds, Job.layoutWith, hevents, List.filter_append, List.map_append,
    lineEnds_of_reports hreports, lineEnds_signsOf, List.filter_cons_of_pos hend, List.map_cons,
    hlast]
  rfl

/-! ### Lines that end once -/

/-- The last glyph of a line ends it, no other one does, and none is left over at a wrap. -/
structure Line.EndsOnce (l : Line) : Prop where
  ends : ∃ before last, l.events = before ++ [last] ∧ last.lineEnd = true ∧
    ∀ g ∈ before, g.lineEnd = false
  kept : ∀ g ∈ l.events, g.wrapped = false

/-- What ends such a line is behind all of it, and is its only end. -/
theorem Line.EndsOnce.exists_last {l : Line} (h : l.EndsOnce)
    (hline : l.events.Pairwise fun g k => g.index < k.index) :
    ∃ last ∈ l.events, last.lineEnd = true ∧ (∀ g ∈ l.events, g.index ≤ last.index) ∧
      ∀ g ∈ l.events, g.lineEnd = true → g = last := by
  obtain ⟨before, last, hevents, hend, hbefore⟩ := h.ends
  rw [hevents] at hline ⊢
  refine ⟨last, List.mem_append_right _ List.mem_cons_self, hend, ?_, ?_⟩
  · intro g hg
    rcases List.mem_append.1 hg with hg | hg
    · exact Nat.le_of_lt ((List.pairwise_append.1 hline).2.2 g hg last List.mem_cons_self)
    · rw [List.mem_singleton.1 hg]
  · intro g hg hgend
    rcases List.mem_append.1 hg with hg | hg
    · rw [hbefore g hg] at hgend
      cases hgend
    · exact List.mem_singleton.1 hg

/-- Positions that increase over the lines are, seen from one of them, smaller above it and
    larger below it. -/
theorem increasing_apart {above below : List Line} {l : Line}
    (h : (events (above ++ l :: below)).Pairwise fun g k => g.index < k.index) :
    l.events.Pairwise (fun g k => g.index < k.index) ∧
      (∀ g ∈ events above, ∀ k ∈ l.events, g.index < k.index) ∧
      ∀ g ∈ l.events, ∀ k ∈ events below, g.index < k.index := by
  have hevents : events (above ++ l :: below) = events above ++ (l.events ++ events below) := by
    rw [events, List.flatMap_append, List.flatMap_cons]
    rfl
  rw [hevents, List.pairwise_append, List.pairwise_append] at h
  obtain ⟨-, ⟨hline, -, hbelow⟩, habove⟩ := h
  exact ⟨hline, fun g hg k hk => habove g hg k (List.mem_append_left _ hk), hbelow⟩

theorem mem_lineEnds {ls : List Line} {i : Nat} :
    i ∈ lineEnds ls ↔ ∃ g ∈ events ls, g.lineEnd = true ∧ g.index = i := by
  simp only [lineEnds, List.mem_map, List.mem_filter, and_assoc]

/-- **Two positions are on one line exactly if no end of a line lies between them.**  An end
    belongs to the line that it ends. -/
theorem Job.together_iff {lines : List Line} (hends : ∀ l ∈ lines, l.EndsOnce)
    (hincreasing : (events lines).Pairwise fun g k => g.index < k.index) {e g : Glyph}
    (he : e ∈ events lines) (hg : g ∈ events lines) (hle : e.index ≤ g.index) :
    Together lines e.index g.index ↔
      ∀ k ∈ lineEnds lines, ¬ (e.index ≤ k ∧ k < g.index) := by
  constructor
  · rintro ⟨l, hl, hel, hgl⟩ i hi ⟨hek, hkg⟩
    obtain ⟨k, hk, hend, rfl⟩ := mem_lineEnds.1 hi
    obtain ⟨e', he', hindex⟩ := List.mem_map.1 hel
    obtain ⟨g', hg', hindex'⟩ := List.mem_map.1 hgl
    obtain ⟨above, below, rfl⟩ := List.append_of_mem hl
    obtain ⟨hline, habove, hbelow⟩ := increasing_apart hincreasing
    rw [events, List.flatMap_append, List.flatMap_cons, List.mem_append, List.mem_append] at hk
    rcases hk with hk | hk | hk
    · have := habove k hk e' he'
      omega
    · obtain ⟨last, -, -, hbehind, honly⟩ := (hends l hl).exists_last hline
      obtain rfl := honly k hk hend
      have := hbehind g' hg'
      omega
    · have := hbelow g' hg' k hk
      omega
  · intro hnone
    obtain ⟨l, hl, hel⟩ := List.mem_flatMap.1 he
    obtain ⟨above, below, rfl⟩ := List.append_of_mem hl
    obtain ⟨hline, habove, hbelow⟩ := increasing_apart hincreasing
    rw [events, List.flatMap_append, List.flatMap_cons, List.mem_append, List.mem_append] at hg
    rcases hg with hg | hg | hg
    · exact absurd (habove g hg e hel) (Nat.not_lt.2 hle)
    · exact ⟨l, hl, List.mem_map_of_mem hel, List.mem_map_of_mem hg⟩
    · -- The end of the line lies between the two.
      obtain ⟨last, hlast, hend, hbehind, -⟩ := (hends l hl).exists_last hline
      have hmem : last.index ∈ lineEnds (above ++ l :: below) :=
        mem_lineEnds.2 ⟨last, List.mem_flatMap.2 ⟨l, hl, hlast⟩, hend, rfl⟩
      exact absurd ⟨hbehind e hel, hbelow last hlast g hg⟩ (hnone _ hmem)

/-! ### Inputs without wrapping -/

/-- Whether a token neither begins a table nor lets lines be wrapped.  Where wrapping has been
    switched off it must stay so; elsewhere no width may be set. -/
def Token.keepsUnwrapped (off : Bool) : Token → Bool
  | .instruction (.setting (.beginTable _ _ _)) => false
  | .instruction (.setting (.length .wrapWidth _)) => off
  | .instruction (.switch (.wordWrap on)) => !(off && on)
  | _ => true

/-- There is no width at which lines would be wrapped, or wrapping is switched off at the
    start. -/
def Unwrapped (width : Int) (cs : List Nat) : Prop :=
  (width ≤ 0 ∧ ∀ l ∈ lexemes cs, l.token.keepsUnwrapped false = true) ∨
    ∃ i rest, lexemes cs = ⟨i, .instruction (.switch (.wordWrap false))⟩ :: rest ∧
      ∀ l ∈ rest, l.token.keepsUnwrapped true = true

/-- The markup of an author who switches wrapping off, and neither on again nor begins a table,
    is not wrapped at any width. -/
theorem unwrapped_of_switchedOff {text : List UInt8}
    (h : ∀ l ∈ lexemes (Codec.decode text), l.token.keepsUnwrapped true = true) (width : Int) :
    Unwrapped width
      (Codec.decode ((Markup.ofCommands [.switch (.wordWrap false)]).bytes ++ text)) := by
  have hread : lexemes ((Command.switch (.wordWrap false)).codePoints ++ Codec.decode text) =
      ⟨0, .instruction (.switch (.wordWrap false))⟩ :: lexemesFrom 0 (0 + 2) (Codec.decode text) :=
    lexemesFrom_codePoints (i := .switch (.wordWrap false)) trivial 0 _
  refine Or.inr ⟨0, lexemesFrom 0 (0 + 2) (Codec.decode text), ?_, ?_⟩
  · rw [Command.decode_append, List.flatMap_singleton, hread]
  · rw [lexemesFrom_eq_map]
    intro l hl
    obtain ⟨k, hk, rfl⟩ := List.mem_map.1 hl
    exact h k hk

namespace LayoutState

variable {job : Job} {font : Font} {cs : List Nat} {s t u : LayoutState} {l : Lexeme}
  {reason : LineEnd} {off : Bool}

/-- There is no table, no line has been wrapped, and none will be. -/
structure Unwrapping (job : Job) (off : Bool) (s : LayoutState) : Prop where
  table : s.table = none
  wrapped : s.wrapped = none
  switched : off = true → s.wordWrap = false
  unset : off = false → job.width ≤ 0 ∧ s.wrapOverride = none ∧ s.wrapWidth ≤ 0

namespace Unwrapping

theorem congr (h : s.Unwrapping job off) (hstyle : SameStyle s t) (htable : t.table = s.table)
    (hwrapped : t.wrapped = s.wrapped) : t.Unwrapping job off where
  table := htable.trans h.table
  wrapped := hwrapped.trans h.wrapped
  switched := fun hoff => hstyle.wordWrap.trans (h.switched hoff)
  unset := fun hoff => by
    obtain ⟨hwidth, hnone, hzero⟩ := h.unset hoff
    exact ⟨hwidth, hstyle.wrapOverride.trans hnone, hstyle.wrapWidth ▸ hzero⟩

theorem not_overflows (h : s.Unwrapping job off) : ¬ s.Overflows job := by
  rintro ⟨hon, hpositive, -⟩
  cases off with
  | true =>
    rw [h.switched rfl] at hon
    cases hon
  | false => exact absurd hpositive (Int.not_lt.2 (h.unset rfl).2.2)

theorem marked (h : s.Unwrapping job off) (hmark : s.marked? job l = some u) :
    u.Unwrapping job off :=
  h.congr (sameStyle_marked hmark) (lines_marked hmark).2 (sameRows_marked hmark).wrapped

theorem newline (h : s.Unwrapping job off) (index c : Nat) :
    (s.step job ⟨index, .newline c⟩).Unwrapping job off := by
  rw [step_newline h.table]
  have hpushed : (s.pushMark job c .lineEnd 0 index).Unwrapping job off :=
    h.congr (sameStyle_pushMark job s c .lineEnd 0 index) (table_pushMark job s c .lineEnd 0 index)
      (sameRows_pushMark job s c .lineEnd 0 index).wrapped
  obtain ⟨top, line, hcommit⟩ := commitAll_newline job (s.pushMark job c .lineEnd 0 index)
    (CodePoint.startsParagraph c)
  rw [hcommit]
  exact ⟨hpushed.table, rfl, hpushed.switched, hpushed.unset⟩

theorem switchFont (h : s.Unwrapping job off) (format : Format) :
    ({ s with format := format }.switchFont job).Unwrapping job off := by
  have huse : ∀ id font, ({ s with format := format }.useFont id font).Unwrapping job off := by
    intro id font
    simp only [useFont]
    split <;> exact ⟨h.table, h.wrapped, h.switched, h.unset⟩
  have hupdate : ∀ {t : LayoutState}, t.Unwrapping job off →
      (t.updateWrapWidth job).Unwrapping job off := by
    intro t ht
    refine ⟨ht.table, ht.wrapped, ht.switched, fun hoff => ?_⟩
    obtain ⟨hwidth, hnone, -⟩ := ht.unset hoff
    refine ⟨hwidth, hnone, ?_⟩
    simp only [updateWrapWidth, hnone, Option.elim_none]
    omega
  simp only [LayoutState.switchFont]
  cases job.printer.fonts.get? ({ s with format := format }.wantedFont job) with
  | none => exact hupdate ⟨h.table, h.wrapped, h.switched, h.unset⟩
  | some font => exact hupdate (huse _ font)

theorem applySetting (h : s.Unwrapping job off) {index : Nat} {setting : Setting}
    (hmark : s.marked? job ⟨index, .instruction (.setting setting)⟩ = none)
    (hl : (Token.instruction (.setting setting)).keepsUnwrapped off = true) :
    (s.applySetting job index setting).Unwrapping job off := by
  have hsame := h
  obtain ⟨htable, hwrapped, hswitched, hunset⟩ := h
  cases setting with
  | font id => exact hsame.switchFont _
  | length target l =>
    cases target with
    | wrapWidth =>
      -- A width may be set where wrapping is switched off.
      obtain rfl : off = true := hl
      exact ⟨htable, hwrapped, hswitched, fun hoff => Bool.noConfusion hoff⟩
    | horizontalSpace =>
      cases l with
      | none => exact hsame
      | some l => cases hmark
    | verticalSpace =>
      cases l with
      | none => exact hsame
      | some l =>
        simp only [LayoutState.applySetting, applyLength, Option.elim_some, addVerticalSpace]
        split <;> exact ⟨htable, hwrapped, hswitched, hunset⟩
    | _ => exact ⟨htable, hwrapped, hswitched, hunset⟩
  | image i =>
    simp only [marked?, Option.map_eq_none_iff] at hmark
    simp only [LayoutState.applySetting, placeImage, hmark, Option.elim_none]
    exact hsame
  | beginTable border width columns => cases hl
  | columnSpan columns align =>
    refine ⟨?_, hwrapped, hswitched, hunset⟩
    simp only [LayoutState.applySetting, htable, Option.map_none]
  | addTabStop id position => cases position <;> exact ⟨htable, hwrapped, hswitched, hunset⟩
  | rowSpan rows => exact hsame
  | _ => exact ⟨htable, hwrapped, hswitched, hunset⟩

theorem applySwitch (h : s.Unwrapping job off) {w : Switch}
    (hl : (Token.instruction (.switch w)).keepsUnwrapped off = true) :
    (s.applySwitch job w).Unwrapping job off := by
  have hsame := h
  obtain ⟨htable, hwrapped, hswitched, hunset⟩ := h
  cases w with
  | resetFormatting => exact hsame.switchFont _
  | script kind => exact hsame.switchFont _
  | wordWrap on =>
    refine ⟨htable, hwrapped, fun hoff => ?_, hunset⟩
    subst hoff
    cases on with
    | true => cases hl
    | false => rfl
  | endTable =>
    simp only [LayoutState.applySwitch, endTable_of_no_table job htable]
    exact hsame
  | _ => exact ⟨htable, hwrapped, hswitched, hunset⟩

theorem step (h : s.Unwrapping job off) (hl : l.token.keepsUnwrapped off = true) :
    (s.step job l).Unwrapping job off := by
  cases hmark : s.marked? job l with
  | some u =>
    obtain ⟨p, hstep⟩ := step_of_marked hmark
    have hu := h.marked hmark
    rw [hstep, checkWrap_of_not_overflows hu.not_overflows]
    cases p with
    | true => exact ⟨hu.table, hu.wrapped, hu.switched, hu.unset⟩
    | false => exact hu
  | none =>
    obtain ⟨index, token⟩ := l
    cases token with
    | text c => cases hmark
    | newline c => exact h.newline index c
    | placeholder => cases hmark
    | row =>
      simp only [LayoutState.step, endRow_of_no_table job h.table]
      exact h
    | cell =>
      simp only [LayoutState.step, nextCell_of_no_table job h.table]
      exact h
    | nothing => exact h
    | instruction i =>
      cases i with
      | toggle toggle =>
        cases toggle with
        | startSelection => exact ⟨h.table, h.wrapped, h.switched, h.unset⟩
        | endSelection => exact ⟨h.table, h.wrapped, h.switched, h.unset⟩
        | _ => exact h.switchFont _
      | switch w => exact h.applySwitch hl
      | setting setting => exact h.applySetting hmark hl

end Unwrapping

/-! ### Lines that newlines end -/

/-- The marks that wait end nothing, and each line so far ends once. -/
structure Segmented (s : LayoutState) : Prop where
  inside : s.Inside
  lines : ∀ l ∈ s.lines.toList, l.EndsOnce

/-- A line that goes as a whole ends once if its last mark does and no other one. -/
theorem endsOnce_committedLine (job : Job) (hreason : reason ≠ .wrap) {ms : List Mark} {m : Mark}
    (hmarks : u.marks.toList = ms ++ [m]) (hend : m.kind.isEnd = true)
    (hinside : ∀ k ∈ ms, k.kind.isEnd = false) :
    (u.committedLine job u.marks.size reason).EndsOnce := by
  have hcut : u.cut u.marks.size reason = u.marks.size := cut_of_ne_wrap hreason
  have hall : u.marks.toList.take u.marks.size = ms ++ [m] := by
    rw [← hmarks, ← Array.length_toList, List.take_length]
  rw [committedLine, hcut]
  generalize hset : u.setLine job u.marks.size u.marks.size reason = set
  have hkinds : set.marks.map Mark.kind = ms.map Mark.kind ++ [m.kind] := by
    rw [← hset, map_setLine (fun _ _ => rfl), hall, List.map_append, List.map_singleton]
  have hevents : (set.line u job.printer.images).events = set.marks.map (set.glyph false) := by
    have hcontent : set.content = u.marks.size := by
      rw [← hset]
      rfl
    have hlength : set.marks.length ≤ set.content := by
      rw [hcontent, ← Array.length_toList, hmarks, ← List.length_map (f := Mark.kind), hkinds]
      simp
    rw [SetLine.events_line, List.take_of_length_le hlength, List.drop_eq_nil_of_le hlength,
      List.map_nil, List.append_nil]
  obtain ⟨before, tail, hsplit, hbefore, htail⟩ := List.map_eq_append_iff.1 hkinds
  obtain ⟨last, rfl, hlast⟩ := List.map_eq_singleton_iff.1 htail
  constructor
  · rw [hevents, hsplit, List.map_append]
    refine ⟨before.map (set.glyph false), set.glyph false last, rfl, ?_, ?_⟩
    · change last.kind.isEnd = true
      rw [hlast]
      exact hend
    · intro g hg
      obtain ⟨k, hk, rfl⟩ := List.mem_map.1 hg
      have hkind : k.kind ∈ ms.map Mark.kind := hbefore ▸ List.mem_map_of_mem hk
      obtain ⟨n, hn, hsame⟩ := List.mem_map.1 hkind
      change k.kind.isEnd = false
      rw [← hsame]
      exact hinside n hn
  · intro g hg
    rw [hevents] at hg
    obtain ⟨k, -, rfl⟩ := List.mem_map.1 hg
    rfl

namespace Segmented

/-- The end of a line or of the text takes all marks that wait with it. -/
theorem close (h : s.Segmented) (job : Job) (code index : Nat) {kind : MarkKind}
    (hkind : kind.isEnd = true) (hreason : reason ≠ .wrap) :
    ((s.pushMark job code kind 0 index).commitAll job reason).Segmented := by
  obtain ⟨hlines, -⟩ := pushMark_frame job s code kind 0 index
  have hmarks := toList_pushMark job s code kind 0 index
  generalize s.pushMark job code kind 0 index = u at hlines hmarks
  constructor
  · intro m hm
    rw [(commitAll_empty job u hreason).1] at hm
    cases hm
  · intro l hl
    rw [commitAll, (commit_frame job u u.marks.size reason).2.1, Array.toList_push, hlines] at hl
    rcases List.mem_append.1 hl with hl | hl
    · exact h.lines l hl
    · rw [List.mem_singleton.1 hl]
      exact endsOnce_committedLine job hreason hmarks hkind h.inside

theorem step (h : s.Segmented) (hs : s.Unwrapping job off)
    (hl : l.token.keepsUnwrapped off = true) : (s.step job l).Segmented := by
  refine step_preserves (P := Segmented) ?_ ?_ ?_ ?_ ?_
  · intro u hmark _
    obtain ⟨v, code, kind, advance, p, hv, hkind, rfl, -⟩ := marked_cases hmark
    have hmarks : v.marks = s.marks := by
      rcases hv with rfl | ⟨rfl, -⟩
      · rfl
      · exact (beforeMark_frame job s code).1
    refine ⟨fun m hm => ?_, (lines_marked hmark).1 ▸ h.lines⟩
    rw [toList_pushMark, hmarks] at hm
    rcases List.mem_append.1 hm with hm | hm
    · exact h.inside m hm
    · rw [List.mem_singleton.1 hm]
      exact hkind
  · intro u hmark hover
    exact absurd hover (hs.marked hmark).not_overflows
  · exact fun t ht => ⟨ht.inside, ht.lines⟩
  · intro u reason hclose
    obtain ⟨hreason, -⟩ := step_of_closed hclose
    rcases closed_cases hclose with ⟨c, -, rfl, -, hstep⟩ | ⟨htable, -⟩ |
      ⟨t, -, -, -, -, hstep⟩ | ⟨htable, -⟩
    · rw [hstep]
      exact h.close job c l.index rfl hreason
    · rw [hs.table] at htable
      cases htable
    · -- No table begins.
      have htable := (hs.step hl).table
      rw [hstep] at htable
      cases htable
    · rw [hs.table] at htable
      cases htable
  · intro hidle
    exact ⟨h.inside.congr hidle.waits.marks, hidle.waits.lines ▸ h.lines⟩

theorem run (h : s.Segmented) (hs : s.Unwrapping job off) {ls : List Lexeme}
    (hls : ∀ l ∈ ls, l.token.keepsUnwrapped off = true) :
    (s.run job ls).Segmented ∧ (s.run job ls).Unwrapping job off := by
  induction ls generalizing s with
  | nil => exact ⟨h, hs⟩
  | cons l ls ih =>
    have hl := hls l List.mem_cons_self
    exact ih (h.step hs hl) (hs.step hl) fun k hk => hls k (List.mem_cons_of_mem l hk)

theorem finish (h : s.Segmented) (hs : s.Unwrapping job off) (total : Nat) :
    ∀ l ∈ s.finish job total, l.EndsOnce := by
  simp only [LayoutState.finish, hs.wrapped, Option.filter_none]
  exact (h.close job 0 total rfl LineEnd.noConfusion).lines

end Segmented

/-- Without wrapping every line ends once. -/
theorem endsOnce_of_unwrapped (job : Job) (font : Font) (h : Unwrapped job.width cs) :
    ∀ l ∈ job.layoutWith font cs, l.EndsOnce := by
  have hinitial : (initial job font).Segmented :=
    ⟨fun _ hm => (nomatch hm), fun _ hl => (nomatch hl)⟩
  rcases h with ⟨hwidth, htokens⟩ | ⟨i, rest, hcs, htokens⟩
  · have hunwrapping : (initial job font).Unwrapping job false := by
      refine ⟨rfl, rfl, Bool.noConfusion, fun _ => ⟨hwidth, rfl, ?_⟩⟩
      change max job.width 0 ≤ 0
      omega
    obtain ⟨hrun, hend⟩ := hinitial.run hunwrapping htokens
    exact hrun.finish hend cs.length
  · -- The first token leaves the state as it is but for the switch.
    have hswitched : ((initial job font).step job
        ⟨i, .instruction (.switch (.wordWrap false))⟩).Unwrapping job true :=
      ⟨rfl, rfl, fun _ => rfl, Bool.noConfusion⟩
    have hsegmented : ((initial job font).step job
        ⟨i, .instruction (.switch (.wordWrap false))⟩).Segmented :=
      ⟨hinitial.inside, hinitial.lines⟩
    obtain ⟨hrun, hend⟩ := hsegmented.run hswitched htokens
    rw [Job.layoutWith, hcs]
    exact hrun.finish hend cs.length

end LayoutState

/-- **Without wrapping, lines are exactly what newlines separate.**  Of a markup that begins no
    table and sets no wrap width, at a width that is not positive, or at any width with wrapping
    switched off, nothing is reported as wrapped.  Each newline that is read as such, but for a
    carriage return before a line feed, ends one line, and so does the end of the text; there
    are no other ends.  Two glyphs are reported with one line exactly if no end lies between
    them, where a newline belongs to the line that it ends. -/
theorem Printer.lines_of_newlines {p : Printer} {font : Font}
    (hfont : p.fonts.get? p.defaultFont = some font) {markup : List UInt8} {width : Int}
    (h : Unwrapped width (Codec.decode markup)) (origin : Point) :
    ∃ lines, (Job.mk p origin width).layout markup = .ok lines ∧
      (∀ g ∈ events lines, g.wrapped = false) ∧
      (∀ i, i ∈ newlines (Codec.decode markup) ↔
        (∃ l ∈ lexemes (Codec.decode markup), l.index = i) ∧
          ∃ c rest, (Codec.decode markup).drop i = c :: rest ∧ CodePoint.isNewline c = true ∧
            ¬ (c = CodePoint.carriageReturn ∧ rest.head? = some CodePoint.lineFeed)) ∧
      (newlines (Codec.decode markup)).Pairwise (· < ·) ∧
      lineEnds lines = newlines (Codec.decode markup) ++ [(Codec.decode markup).length] ∧
      ∀ e ∈ events lines, ∀ g ∈ events lines, e.index ≤ g.index →
        (Job.Together lines e.index g.index ↔
          ∀ k ∈ lineEnds lines, ¬ (e.index ≤ k ∧ k < g.index)) := by
  have hends := LayoutState.endsOnce_of_unwrapped ⟨p, origin, width⟩ font h
  refine ⟨_, Job.layout_eq hfont markup, ?_, fun i => mem_newlines_iff, pairwise_newlines _,
    Job.lineEnds_layoutWith _ _ _, ?_⟩
  · intro g hg
    obtain ⟨l, hl, hg⟩ := List.mem_flatMap.1 hg
    exact (hends l hl).kept g hg
  · intro e he g hg
    exact Job.together_iff hends (List.pairwise_map.1 (Job.pairwise_layoutWith _ font _)) he hg

/-- The bytes that switch wrapping off, and two lines of which the first one is too long. -/
def Printer.longLine : List UInt8 :=
  (Markup.ofCommands [.switch (.wordWrap false)]).bytes ++ [0x61, 0x62, 0x20, 0x63, 0x0A, 0x64]

/-- The space in the first line, at a width of two glyphs, is no place for a break. -/
theorem Printer.lines_of_newlines_boxes :
    ∃ lines, (Job.mk boxes .zero 20).layout longLine = .ok lines ∧
      (∀ g ∈ events lines, g.wrapped = false) ∧ lineEnds lines = [6, 8] ∧
      ¬ Job.Together lines 6 8 := by
  have hunwrapped : Unwrapped 20 (Codec.decode longLine) :=
    unwrapped_of_switchedOff (by decide) 20
  obtain ⟨lines, hlayout, hkept, -, -, hends, htogether⟩ :=
    lines_of_newlines (p := boxes) rfl hunwrapped .zero
  have hends : lineEnds lines = [6, 8] := hends.trans (by decide)
  refine ⟨lines, hlayout, hkept, hends, ?_⟩
  -- The two positions are those of the ends of the lines.
  have hevent : ∀ i ∈ lineEnds lines, ∃ g ∈ events lines, g.index = i := by
    intro i hi
    obtain ⟨g, hg, -, hindex⟩ := mem_lineEnds.1 hi
    exact ⟨g, hg, hindex⟩
  rw [hends] at hevent htogether
  obtain ⟨e, he, hnewline⟩ := hevent 6 (by decide)
  obtain ⟨g, hg, hend⟩ := hevent 8 (by decide)
  have hiff := htogether e he g hg (by omega)
  rw [hnewline, hend] at hiff
  exact fun h => hiff.1 h 6 (by decide) ⟨Nat.le_refl 6, by decide⟩

end RichText
