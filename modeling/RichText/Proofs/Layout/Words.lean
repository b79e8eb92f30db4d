/-
  RichText/Proofs/Layout/Words.lean
  =================================
  **Which words are broken.**

  In a text of letters and spaces a word that fits on a line is taken over whole if there
  is a place for a break before it, and that place is not the start of the line: a space
  that stands alone before the word is none (`word_whole_iff`).  In a font whose letters
  are equally wide this can be read off the lines (`Printer.words_whole_iff`).
-/
import Mathlib.Data.List.Pairwise
import RichText.Proofs.Layout.Typeset

namespace RichText

/-! ### Positions on the lines of a layout -/

/-- The positions of what is reported of a line. -/
def Line.positions (l : Line) : List Nat := l.events.map (·.index)

/-- The positions of the layout increase. -/
theorem Job.pairwise_layoutWith (job : Job) (font : Font) (cs : List Nat) :
    ((events (job.layoutWith font cs)).map (·.index)).Pairwise (· < ·) := by
  obtain ⟨before, last, hevents, hreports, -, -, hlast⟩ :=
    LayoutState.finish_events job (LayoutState.accounted_run job font cs) cs.length
  rw [layoutWith, hevents, List.map_append, List.pairwise_append, indices_of_reports hreports]
  refine ⟨List.pairwise_map.2 (pairwise_signsOf _ cs), List.pairwise_singleton _ _, ?_⟩
  intro i hi k hk
  obtain ⟨σ, hσ, rfl⟩ := List.mem_map.1 hi
  have hend : k = cs.length := (List.mem_singleton.1 hk).trans hlast
  rw [hend]
  exact index_lt_of_mem_signsOf hσ

/-- No position is on two lines. -/
theorem Job.line_unique {job : Job} {font : Font} {cs : List Nat} {l k : Line}
    (hl : l ∈ job.layoutWith font cs) (hk : k ∈ job.layoutWith font cs) {i : Nat}
    (hil : i ∈ l.positions) (hik : i ∈ k.positions) : l = k := by
  have hpairs := job.pairwise_layoutWith font cs
  rw [events, List.map_flatMap, List.pairwise_flatMap] at hpairs
  have hdisjoint := hpairs.2.imp (S := fun l k : Line => ∀ i ∈ l.positions, i ∉ k.positions)
    fun h i hil hik => Nat.lt_irrefl i (h i hil i hik)
  have hsymm : Std.Symm fun l k : Line => ∀ i ∈ l.positions, i ∉ k.positions :=
    ⟨fun l k h i hik hil => h i hil hik⟩
  by_contra hne
  exact hdisjoint.forall hl hk hne i hil hik

/-- All that is reported of a line has one top. -/
theorem Job.lineTop_eq {job : Job} {font : Font} {cs : List Nat} {l : Line}
    (hl : l ∈ job.layoutWith font cs) : ∃ top, ∀ g ∈ l.events, g.lineTop = top := by
  rcases LayoutState.line_cases job font cs hl with ⟨set, u, rfl⟩ | ⟨g, rfl⟩
  · refine ⟨set.top, ?_⟩
    rw [SetLine.events_line]
    intro g hg
    rcases List.mem_append.1 hg with hg | hg
    · obtain ⟨m, -, rfl⟩ := List.mem_map.1 hg
      rfl
    · obtain ⟨m, -, rfl⟩ := List.mem_map.1 hg
      rfl
  · exact ⟨g.lineTop, fun k hk => by rw [List.mem_singleton.1 hk]⟩

namespace LayoutState

variable {job : Job} {font : Font} {seen after line : List Nat} {start : Nat} {s : LayoutState}

theorem mem_layout_of_mem (h : OfWords (seen ++ after)) {l : Line}
    (hl : l ∈ (stateAfter job font seen).lines.toList) : l ∈ job.layoutWith font (seen ++ after) :=
  (lines_prefix_layout job font h.lexemes_append).subset hl

/-- A state and its text determine the line being filled. -/
theorem Typeset.unique (h : s.Typeset job font start line) {start' : Nat} {line' : List Nat}
    (h' : s.Typeset job font start' line') : start = start' ∧ line = line' := by
  refine ⟨?_, h.codes.symm.trans h'.codes⟩
  have hlength := congrArg List.length (h.reported.symm.trans h'.reported)
  rwa [List.length_range, List.length_range] at hlength

/-- The positions of a line that is wholly set. -/
theorem positions_commitAll (job : Job) (s : LayoutState) (reason : LineEnd) :
    ∃ l, (s.commitAll job reason).lines = s.lines.push l ∧
      l.positions = s.marks.toList.map (·.index) := by
  obtain ⟨-, hlines, -⟩ := commit_frame job s s.marks.size reason
  have hcut : s.marks.toList.take (s.cut s.marks.size reason) = s.marks.toList :=
    List.take_of_length_le (Array.length_toList ▸ le_cut (Nat.le_refl _) reason)
  have hreports : List.Forall₂ Reports _ ((s.setLine job s.marks.size
      (s.cut s.marks.size reason) reason).line s job.printer.images).events :=
    reports_commit (Or.inr rfl)
  refine ⟨_, hlines, (indices_of_reports hreports).trans ?_⟩
  rw [hcut, List.map_map]
  rfl

/-- What waits at the end of the text is reported on one line. -/
theorem Typeset.finish (h : s.Typeset job font start line) (hline : line ≠ []) :
    ∃ l ∈ s.finish job (start + line.length),
      l.positions = List.range' start (line.length + 1) := by
  have hempty : s.lineIsEmpty = false := by
    have hpos := List.length_pos_iff.2 hline
    rw [← h.size] at hpos
    simp only [lineIsEmpty, Bool.and_eq_false_iff]
    refine Or.inr ?_
    rw [Array.isEmpty_eq_false_iff_exists_mem]
    exact ⟨_, Array.getElem_mem hpos⟩
  have hfinish : s.finish job (start + line.length) =
      ((s.pushMark job 0 .textEnd 0 (start + line.length)).commitAll job .text).lines.toList := by
    have hnone : (s.wrapped.filter fun _ => s.lineIsEmpty) = none := by
      rw [hempty]
      cases s.wrapped <;> rfl
    simp only [LayoutState.finish, hnone]
  obtain ⟨l, hlines, hpositions⟩ :=
    positions_commitAll job (s.pushMark job 0 .textEnd 0 (start + line.length)) .text
  refine ⟨l, ?_, hpositions.trans ?_⟩
  · rw [hfinish, hlines, Array.toList_push]
    exact List.mem_append_right _ List.mem_cons_self
  · rw [toList_pushMark, List.map_append, h.indices, List.range'_1_concat]
    rfl

/-! ### What stays together -/

theorem le_lineCut {n : Nat} (h : 0 < n) (line : List Nat) : n ≤ lineCut (some n) line := by
  simp only [lineCut, breakPos, if_pos h]
  exact Nat.le_add_right _ _

/-- The place noted once a code point has come, before the line is tested. -/
def notedBefore (line : List Nat) (noted : Option Nat) (c : Nat) : Option Nat :=
  if CodePoint.isBreaking c then some line.length else noted

/-- What waits is reported on one line, with the first `q` code points from its start, if no
    break comes between them. -/
theorem exists_line_of_guarded (hwidth : 0 < job.width) {q : Nat} (hpos : 0 < q)
    (htext : OfWords (seen ++ after)) (hlength : start + line.length = seen.length)
    (htypeset : (stateAfter job font seen).Typeset job font start line)
    (hq : q ≤ (line ++ after.take 1).length)
    (hguard : ∀ c, after.head? = some c → ∀ ds,
      q ≤ lineCut (notedBefore line (stateAfter job font seen).lastBreak c) (line ++ c :: ds)) :
    ∃ l ∈ job.layoutWith font (seen ++ after), ∃ n, q ≤ n ∧
      l.positions = List.range' start n := by
  induction after generalizing seen line with
  | nil =>
    rw [List.take_nil, List.append_nil] at hq
    have hline : line ≠ [] := List.length_pos_iff.1 (Nat.lt_of_lt_of_le hpos hq)
    obtain ⟨l, hl, hpositions⟩ := htypeset.finish hline
    rw [hlength] at hl
    rw [List.append_nil]
    exact ⟨l, hl, line.length + 1, Nat.le_succ_of_le hq, hpositions⟩
  | cons c after ih =>
    have hassoc : seen ++ c :: after = seen ++ [c] ++ after := by
      rw [List.append_assoc, List.singleton_append]
    rw [hassoc] at htext ⊢
    have hc := htext c (List.mem_append_left _ (List.mem_append_right _ List.mem_cons_self))
    have hseen : OfWords (seen ++ [c]) := fun d hd => htext d (List.mem_append_left _ hd)
    have hguarded := hguard c rfl
    have hstep := htypeset.step hwidth hc
    rw [hlength, ← stateAfter_append_singleton hseen] at hstep
    rcases hstep with ⟨-, ht, -, hbreak⟩ | ⟨-, -, -, ⟨l, hl, hpositions⟩, -⟩
    · refine ih htext ?_ ht ?_ ?_
      · rw [List.length_append, List.length_append, ← Nat.add_assoc, hlength]
      · refine Nat.le_trans hq ?_
        rw [List.take_succ_cons, List.take_zero]
        exact (List.sublist_append_left _ _).length_le
      · -- A place noted from now on stands behind them.
        have hlater : ∀ ds, q ≤ lineCut (some (line ++ [c]).length) ds := by
          intro ds
          refine Nat.le_trans ?_ (le_lineCut ?_ ds)
          · rw [List.take_succ_cons, List.take_zero] at hq
            exact hq
          · rw [List.length_append]
            exact Nat.succ_pos _
        intro d _ ds
        rw [notedBefore, hbreak]
        split
        · exact hlater _
        · split
          · exact hlater _
          · rw [List.append_assoc, List.singleton_append]
            exact hguarded (d :: ds)
    · refine ⟨l, ?_, _, hguarded [], hpositions⟩
      refine mem_layout_of_mem htext ?_
      rw [hl, Array.toList_push]
      exact List.mem_append_right _ List.mem_cons_self

/-- What waits before a space is reported on one line with it. -/
theorem exists_line_of_space (hwidth : 0 < job.width)
    (htext : OfWords (seen ++ CodePoint.space :: after)) (hlength : start + line.length = seen.length)
    (htypeset : (stateAfter job font seen).Typeset job font start line) (hline : line ≠ []) :
    ∃ l ∈ job.layoutWith font (seen ++ CodePoint.space :: after), ∃ n, line.length + 1 ≤ n ∧
      l.positions = List.range' start n := by
  have hbreaking : CodePoint.isBreaking CodePoint.space = true := by decide
  have hpos := List.length_pos_iff.2 hline
  have hall : line.length + 1 ≤ (line ++ (CodePoint.space :: after).take 1).length := by
    rw [List.length_append]
    exact Nat.le_refl _
  refine exists_line_of_guarded hwidth (Nat.succ_pos line.length) htext hlength htypeset hall ?_
  intro c hc ds
  obtain rfl : CodePoint.space = c := Option.some.inj hc
  rw [notedBefore, if_pos hbreaking]
  simp only [lineCut, breakPos, if_pos hpos, List.drop_left,
    List.takeWhile_cons_of_pos isBlankCode_space, List.length_cons]
  omega

end LayoutState

/-! ### Words -/

/-- All the positions are on the line. -/
def Line.Holds (l : Line) (start count : Nat) : Prop :=
  ∀ i, start ≤ i → i < start + count → i ∈ l.positions

/-- A word stands between two places for a break, without one inside. -/
structure IsWord (breaking before word after : List Nat) : Prop where
  nonempty : word ≠ []
  letters : ∀ c ∈ word, c ≠ CodePoint.space
  inside : ∀ c ∈ word.dropLast, breaking.contains c = false
  left : ∀ c, before.getLast? = some c → c = CodePoint.space ∨ breaking.contains c = true
  right : ∀ c, after.head? = some c →
    c = CodePoint.space ∨ ∃ d, word.getLast? = some d ∧ breaking.contains d = true

theorem IsWord.isLetter {breaking before word after : List Nat}
    (h : IsWord breaking before word after) (htext : OfWords (before ++ word)) {c : Nat}
    (hc : c ∈ word) : IsLetter c :=
  (htext c (List.mem_append_right before hc)).resolve_left (h.letters c hc)

/-- Every beginning of the word fits on a line. -/
def Font.Fits (f : Font) (width : Int) (word : List Nat) : Prop :=
  ∀ n ≤ word.length, f.room (word.take n) ≤ width

namespace LayoutState

variable {job : Job} {font : Font} {before word after : List Nat}

/-- The word begins on a line on which a space stands alone, and does not end on it. -/
structure Stuck (job : Job) (font : Font) (before word : List Nat) : Prop where
  space : before.getLast? = some CodePoint.space
  noBreak : job.printer.breakingLetters.contains CodePoint.space = false
  alone : (stateAfter job font before).marks.size = 1
  first : font.room (CodePoint.space :: word.take 1) ≤ job.width
  past : ∃ n, 1 < n ∧ n ≤ word.length ∧ job.width < font.room (CodePoint.space :: word.take n)

theorem Stuck.length_pos (h : Stuck job font before word) : 0 < before.length := by
  rw [List.length_pos_iff]
  rintro rfl
  exact nomatch h.space

/-- A letter inside a word notes no place for a break. -/
theorem noted_inside {breaking : List Nat} (hinside : ∀ c ∈ word.dropLast, breaking.contains c = false)
    {n : Nat} (hn : n + 1 < word.length) : breaking.contains word[n] = false := by
  refine hinside _ ?_
  rw [List.dropLast_eq_take]
  refine List.mem_take_iff_getElem.2 ⟨n, ?_, rfl⟩
  omega

/-- The first `n` letters of the word stand behind the end of the text before it, which fits
    with them and ends in a place for a break. -/
structure Joins (job : Job) (font : Font) (before word : List Nat) (n start : Nat)
    (line : List Nat) : Prop where
  suffix : line <:+ before
  began : (stateAfter job font before).Typeset job font start line
  noted : ∃ o, (stateAfter job font before).lastBreak = some o ∧ o ≤ line.length ∧
    (∀ d ∈ line.drop o, d = CodePoint.space) ∧
    (o = 0 → line = [CodePoint.space] ∧
      job.printer.breakingLetters.contains CodePoint.space = false)
  same : n < word.length → (stateAfter job font (before ++ word.take n)).lastBreak =
    (stateAfter job font before).lastBreak
  fits : ∀ k, 0 < k → k ≤ n → font.room (line ++ word.take k) ≤ job.width

/-- The first `n` letters of the word are on one line, at its start or behind what was there. -/
def Entered (job : Job) (font : Font) (before word : List Nat) (n : Nat) : Prop :=
  ∃ start line, start + line.length = before.length ∧
    (stateAfter job font (before ++ word.take n)).Typeset job font start (line ++ word.take n) ∧
    (line = [] ∨ Joins job font before word n start line)

theorem entered_zero (hwidth : 0 < job.width)
    (hword : IsWord job.printer.breakingLetters before word after) (hbefore : OfWords before) :
    Entered job font before word 0 := by
  obtain ⟨start, line, hlength, hsuffix, htypeset, hnoted⟩ := typeset_stateAfter font hwidth hbefore
  refine ⟨start, line, hlength, ?_, ?_⟩
  · rw [List.take_zero, List.append_nil, List.append_nil]
    exact htypeset
  · cases hlast : line.getLast? with
    | none => exact Or.inl (List.getLast?_eq_none_iff.1 hlast)
    | some c =>
      have hbeforeLast : before.getLast? = some c := by
        obtain ⟨earlier, rfl⟩ := hsuffix
        rw [List.getLast?_append, hlast]
        rfl
      refine Or.inr ⟨hsuffix, htypeset, hnoted.spaces hlast (hword.left c hbeforeLast), ?_, ?_⟩
      · rw [List.take_zero, List.append_nil]
        exact fun _ => rfl
      · intro k hk hk0
        omega

/-- A step within the word. -/
theorem stateAfter_take_succ (htext : OfWords (before ++ word)) {n : Nat} (hn : n < word.length)
    {start : Nat} {line : List Nat} (hlength : start + line.length = before.length) :
    stateAfter job font (before ++ word.take (n + 1)) =
      (stateAfter job font (before ++ word.take n)).step job
        ⟨start + (line ++ word.take n).length, .text word[n]⟩ := by
  have htake : word.take (n + 1) = word.take n ++ [word[n]] := (List.take_append_getElem hn).symm
  have hwords : OfWords (before ++ word.take n ++ [word[n]]) := by
    rw [List.append_assoc, ← htake]
    intro c hc
    refine htext c ?_
    rcases List.mem_append.1 hc with hc | hc
    · exact List.mem_append_left _ hc
    · exact List.mem_append_right _ (List.mem_of_mem_take hc)
  rw [htake, ← List.append_assoc, stateAfter_append_singleton hwords, List.length_append,
    List.length_append, ← hlength, Nat.add_assoc]

/-- With a letter that does not fit any more the line is broken before the word. -/
theorem Joins.lineCut_eq (hword : IsWord job.printer.breakingLetters before word after)
    (htext : OfWords (before ++ word)) (hstuck : ¬ Stuck job font before word) {n start : Nat}
    {line : List Nat} (h : Joins job font before word n start line) (hn : n < word.length)
    (hover : job.width < font.room (line ++ word.take (n + 1))) :
    lineCut (stateAfter job font before).lastBreak (line ++ word.take (n + 1)) = line.length := by
  have htake : word.take (n + 1) = word.take n ++ [word[n]] := (List.take_append_getElem hn).symm
  obtain ⟨o, ho, hle, hspaces, hzero⟩ := h.noted
  rw [ho]
  rcases Nat.eq_zero_or_pos o with rfl | hpos
  · obtain ⟨rfl, hspace⟩ := hzero rfl
    rcases Nat.eq_zero_or_pos n with rfl | hn0
    · rw [htake]
      exact lineCut_of_start (List.cons_ne_nil _ _) (hword.isLetter htext (List.getElem_mem hn))
    · -- The first letter fits behind the space, but this one does not.
      obtain ⟨earlier, hearlier⟩ := h.suffix
      refine absurd ⟨?_, hspace, h.began.size, h.fits 1 Nat.one_pos hn0, n + 1, ?_, hn, hover⟩ hstuck
      · rw [← hearlier, List.getLast?_concat]
      · omega
  · cases hfirst : word.take (n + 1) with
    | nil =>
      rw [htake] at hfirst
      exact absurd hfirst (List.append_ne_nil_of_right_ne_nil _ (List.cons_ne_nil _ _))
    | cons c rest =>
      have hmem : c ∈ word := List.mem_of_mem_take (hfirst ▸ List.mem_cons_self)
      exact lineCut_of_noted hpos hle hspaces (hword.isLetter htext hmem) rest

theorem Entered.succ (hwidth : 0 < job.width)
    (hword : IsWord job.printer.breakingLetters before word after)
    (htext : OfWords (before ++ word)) (hfits : font.Fits job.width word)
    (hstuck : ¬ Stuck job font before word) {n : Nat} (hn : n < word.length)
    (h : Entered job font before word n) : Entered job font before word (n + 1) := by
  have hc : IsLetter word[n] := hword.isLetter htext (List.getElem_mem hn)
  have htake : word.take (n + 1) = word.take n ++ [word[n]] := (List.take_append_getElem hn).symm
  obtain ⟨start, line, hlength, htypeset, hline⟩ := h
  have hstep := htypeset.step hwidth (Or.inr hc)
  rw [← stateAfter_take_succ htext hn hlength] at hstep
  simp only [isBreaking_letter hc, Bool.false_eq_true, if_false] at hstep
  rw [List.append_assoc, ← htake] at hstep
  rcases hline with rfl | hjoin
  · rw [List.nil_append] at hstep
    rcases hstep with ⟨-, ht, -⟩ | ⟨hover, -⟩
    · exact ⟨start, [], hlength, ht, Or.inl rfl⟩
    · exact absurd (hfits (n + 1) hn) (Int.not_le.2 hover)
  rw [hjoin.same hn] at hstep
  rcases hstep with ⟨hroom, ht, -, hbreak⟩ | ⟨hover, -, ht, -⟩
  · refine ⟨start, line, hlength, ht, Or.inr ⟨hjoin.suffix, hjoin.began, hjoin.noted, ?_, ?_⟩⟩
    · intro hlt
      rw [hbreak, noted_inside hword.inside hlt]
      rfl
    · intro k hk hkn
      rcases Nat.lt_or_eq_of_le hkn with hlt | rfl
      · exact hjoin.fits k hk (Nat.le_of_lt_succ hlt)
      · exact hroom
  · rw [hjoin.lineCut_eq hword htext hstuck hn hover, List.drop_left] at ht
    exact ⟨start + line.length, [], hlength, ht, Or.inl rfl⟩

/-- The whole word comes to stand on one line. -/
theorem entered_word (hwidth : 0 < job.width)
    (hword : IsWord job.printer.breakingLetters before word after)
    (htext : OfWords (before ++ word)) (hfits : font.Fits job.width word)
    (hstuck : ¬ Stuck job font before word) {n : Nat} (hn : n ≤ word.length) :
    Entered job font before word n := by
  induction n with
  | zero => exact entered_zero hwidth hword fun c hc => htext c (List.mem_append_left _ hc)
  | succ n ih => exact (ih (Nat.le_of_lt hn)).succ hwidth hword htext hfits hstuck hn

/-! ### Words that are taken over whole -/

theorem Typeset.noted (hwidth : 0 < job.width) {cs line : List Nat} {start : Nat} (h : OfWords cs)
    (htypeset : (stateAfter job font cs).Typeset job font start line) :
    Noted job.printer.breakingLetters line (stateAfter job font cs).lastBreak := by
  obtain ⟨start', line', -, -, ht, hnoted⟩ := typeset_stateAfter font hwidth h
  rw [(htypeset.unique ht).2]
  exact hnoted

theorem exists_line_of_not_stuck (hwidth : 0 < job.width)
    (hword : IsWord job.printer.breakingLetters before word after)
    (htext : OfWords (before ++ word ++ after)) (hfits : font.Fits job.width word)
    (hstuck : ¬ Stuck job font before word) :
    ∃ l ∈ job.layoutWith font (before ++ word ++ after), l.Holds before.length word.length := by
  have hseen : OfWords (before ++ word) := fun c hc => htext c (List.mem_append_left _ hc)
  obtain ⟨start, line, hlength, htypeset, -⟩ :=
    entered_word hwidth hword hseen hfits hstuck (Nat.le_refl word.length)
  rw [List.take_length] at htypeset
  have hpos : 0 < (line ++ word).length :=
    List.length_pos_iff.2 (List.append_ne_nil_of_right_ne_nil _ hword.nonempty)
  have hnoted := htypeset.noted hwidth hseen
  have hend : start + (line ++ word).length = (before ++ word).length := by
    rw [List.length_append, List.length_append, ← hlength, Nat.add_assoc]
  have hall : (line ++ word).length ≤ (line ++ word ++ after.take 1).length :=
    (List.sublist_append_left _ _).length_le
  -- The end of the word is noted behind it or before the space that follows.
  have hguard : ∀ c, after.head? = some c → ∀ ds, (line ++ word).length ≤
      lineCut (notedBefore (line ++ word) (stateAfter job font (before ++ word)).lastBreak c)
        (line ++ word ++ c :: ds) := by
    intro c hc ds
    rw [notedBefore]
    split
    · exact le_lineCut hpos _
    · next hbreaking =>
      rcases hword.right c hc with rfl | ⟨d, hd, hafter⟩
      · exact absurd (by decide) hbreaking
      · have hlast : (line ++ word).getLast? = some d := by
          rw [List.getLast?_append, hd]
          rfl
        rw [(hnoted d hlast).1 hafter]
        exact le_lineCut hpos _
  obtain ⟨l, hl, n, hn, hpositions⟩ :=
    exists_line_of_guarded hwidth hpos htext hend htypeset hall hguard
  refine ⟨l, hl, ?_⟩
  intro i hi hlt
  rw [List.length_append] at hn
  rw [hpositions, List.mem_range'_1]
  omega

/-! ### Words that are broken -/

/-- The first `k` letters of the word stand on the line behind the space. -/
structure BehindSpace (job : Job) (font : Font) (before word : List Nat) (k : Nat) : Prop where
  typeset : (stateAfter job font (before ++ word.take k)).Typeset job font (before.length - 1)
    (CodePoint.space :: word.take k)
  noted : k < word.length → (stateAfter job font (before ++ word.take k)).lastBreak = some 0
  fits : 0 < k → font.room (CodePoint.space :: word.take k) ≤ job.width

theorem Stuck.behind_zero (hwidth : 0 < job.width) (hbefore : OfWords before)
    (h : Stuck job font before word) : BehindSpace job font before word 0 := by
  obtain ⟨start, line, hlength, hsuffix, htypeset, hnoted⟩ := typeset_stateAfter font hwidth hbefore
  have hsize : line.length = 1 := htypeset.size.symm.trans h.alone
  obtain ⟨c, rfl⟩ := List.length_eq_one_iff.1 hsize
  obtain ⟨earlier, rfl⟩ := hsuffix
  obtain rfl : CodePoint.space = c := by
    have hspace := h.space
    rw [List.getLast?_concat] at hspace
    exact (Option.some.inj hspace).symm
  have hstart : start = (earlier ++ [CodePoint.space]).length - 1 := by
    rw [← hlength]
    rfl
  rw [hstart] at htypeset
  refine ⟨?_, ?_, fun h0 => absurd h0 (Nat.lt_irrefl 0)⟩
  · rw [List.take_zero, List.append_nil]
    exact htypeset
  · intro _
    rw [List.take_zero, List.append_nil]
    exact (hnoted CodePoint.space rfl).2 rfl h.noBreak

/-- The next letter stands behind the space as well, or the line is broken before it. -/
theorem BehindSpace.succ (hwidth : 0 < job.width)
    (hword : IsWord job.printer.breakingLetters before word after)
    (htext : OfWords (before ++ word)) (h : Stuck job font before word) {k : Nat}
    (hk : k < word.length) (hbehind : BehindSpace job font before word k) :
    BehindSpace job font before word (k + 1) ∨
      0 < k ∧ ∃ l ∈ (stateAfter job font (before ++ word.take (k + 1))).lines.toList,
        l.positions = List.range' (before.length - 1) (k + 1) := by
  have hc : IsLetter word[k] := hword.isLetter htext (List.getElem_mem hk)
  have htake : word.take (k + 1) = word.take k ++ [word[k]] := (List.take_append_getElem hk).symm
  have hlength : before.length - 1 + [CodePoint.space].length = before.length :=
    Nat.sub_add_cancel h.length_pos
  have hstep := hbehind.typeset.step hwidth (Or.inr hc)
  rw [← List.singleton_append, ← stateAfter_take_succ htext hk hlength, List.append_assoc,
    ← htake, isBreaking_letter hc, hbehind.noted hk] at hstep
  simp only [Bool.false_eq_true, if_false] at hstep
  rcases hstep with ⟨hroom, ht, -, hbreak⟩ | ⟨hover, -, -, ⟨l, hl, hpositions⟩, -⟩
  · refine Or.inl ⟨ht, ?_, fun _ => hroom⟩
    intro hlt
    rw [hbreak, noted_inside hword.inside hlt]
    rfl
  · refine Or.inr ⟨?_, l, ?_, ?_⟩
    · refine Nat.pos_of_ne_zero ?_
      rintro rfl
      exact absurd h.first (Int.not_le.2 hover)
    · rw [hl, Array.toList_push]
      exact List.mem_append_right _ List.mem_cons_self
    · have hcut : lineCut (some 0) (CodePoint.space :: word.take (k + 1)) = k + 1 := by
        rw [htake, ← List.cons_append, lineCut_of_start (List.cons_ne_nil _ _) hc,
          List.length_cons, List.length_take_of_le (Nat.le_of_lt hk)]
      rw [List.singleton_append, hcut] at hpositions
      exact hpositions

/-- The line that the space begins ends inside the word. -/
theorem Stuck.broken (hwidth : 0 < job.width)
    (hword : IsWord job.printer.breakingLetters before word after)
    (htext : OfWords (before ++ word ++ after)) (h : Stuck job font before word) :
    ∃ l ∈ job.layoutWith font (before ++ word ++ after), ∃ n, 1 < n ∧ n ≤ word.length ∧
      l.positions = List.range' (before.length - 1) n := by
  have hseen : OfWords (before ++ word) := fun c hc => htext c (List.mem_append_left _ hc)
  have hbefore : OfWords before := fun c hc => hseen c (List.mem_append_left _ hc)
  have hrun : ∀ k ≤ word.length, BehindSpace job font before word k ∨
      ∃ l ∈ job.layoutWith font (before ++ word ++ after), ∃ n, 1 < n ∧ n ≤ word.length ∧
        l.positions = List.range' (before.length - 1) n := by
    intro k
    induction k with
    | zero => exact fun _ => Or.inl (h.behind_zero hwidth hbefore)
    | succ k ih =>
      intro hk
      rcases ih (Nat.le_of_lt hk) with hbehind | hbroken
      · rcases hbehind.succ hwidth hword hseen h hk with hbehind | ⟨hpos, l, hl, hpositions⟩
        · exact Or.inl hbehind
        · have hsplit : before ++ word ++ after =
              before ++ word.take (k + 1) ++ (word.drop (k + 1) ++ after) := by
            rw [List.append_assoc, List.append_assoc, ← List.append_assoc (word.take (k + 1)),
              List.take_append_drop]
          rw [hsplit] at htext ⊢
          exact Or.inr ⟨l, mem_layout_of_mem htext hl, k + 1, Nat.succ_lt_succ hpos, hk, hpositions⟩
      · exact Or.inr hbroken
  obtain ⟨n, hn, hle, hpast⟩ := h.past
  refine (hrun n hle).resolve_left fun hbehind => ?_
  exact absurd (hbehind.fits (Nat.lt_trans Nat.one_pos hn)) (Int.not_le.2 hpast)

/-- A word that fits on a line is on one line exactly if it is not stuck behind a space. -/
theorem word_whole_iff (hwidth : 0 < job.width)
    (hword : IsWord job.printer.breakingLetters before word after)
    (htext : OfWords (before ++ word ++ after)) (hfits : font.Fits job.width word) :
    (∃ l ∈ job.layoutWith font (before ++ word ++ after), l.Holds before.length word.length) ↔
      ¬ Stuck job font before word := by
  constructor
  · rintro ⟨l, hl, hholds⟩ hstuck
    obtain ⟨k, hk, n, hn, hle, hpositions⟩ := hstuck.broken hwidth hword htext
    have hpos : 0 < word.length := List.length_pos_iff.2 hword.nonempty
    -- The first letter is on that line, but the last one is not.
    have hfirst : before.length ∈ k.positions := by
      rw [hpositions, List.mem_range'_1]
      omega
    obtain rfl : l = k := Job.line_unique hl hk (hholds _ (Nat.le_refl _) (by omega)) hfirst
    have hlast := hholds (before.length + word.length - 1) (by omega) (by omega)
    rw [hpositions, List.mem_range'_1] at hlast
    have hbefore := hstuck.length_pos
    omega
  · exact exists_line_of_not_stuck hwidth hword htext hfits

/-- Where a line begins with a space, that stands there alone once it has been taken. -/
theorem size_of_leading_space (hwidth : 0 < job.width)
    (hroom : font.room [CodePoint.space] ≤ job.width)
    (htext : OfWords (before ++ CodePoint.space :: after)) {l : Line}
    (hl : l ∈ job.layoutWith font (before ++ CodePoint.space :: after))
    (hleading : l.positions.head? = some before.length) :
    (stateAfter job font (before ++ [CodePoint.space])).marks.size = 1 := by
  have hbefore : OfWords before := fun c hc => htext c (List.mem_append_left _ hc)
  have hseen : OfWords (before ++ [CodePoint.space]) := by
    intro c hc
    rcases List.mem_append.1 hc with hc | hc
    · exact hbefore c hc
    · exact Or.inl (List.mem_singleton.1 hc)
  obtain ⟨start, line, hlength, -, htypeset, -⟩ := typeset_stateAfter font hwidth hbefore
  have hline : line = [] := by
    by_contra hne
    have hpos := List.length_pos_iff.2 hne
    obtain ⟨k, hk, n, hn, hpositions⟩ := exists_line_of_space hwidth htext hlength htypeset hne
    obtain rfl : l = k := by
      refine Job.line_unique hl hk (List.mem_of_mem_head? hleading) ?_
      rw [hpositions, List.mem_range'_1]
      omega
    rw [hpositions, List.head?_range', if_neg (by omega), Option.some.injEq] at hleading
    omega
  subst hline
  have hstep := htypeset.step hwidth (Or.inl rfl)
  rw [hlength, ← stateAfter_append_singleton hseen] at hstep
  rcases hstep with ⟨-, ht, -⟩ | ⟨hover, -⟩
  · exact ht.size
  · exact absurd hroom (Int.not_le.2 hover)

end LayoutState

/-! ### Letters that are equally wide -/

theorem Font.Uniform.fits_iff {font : Font} {a width : Int} (hfont : font.Uniform a)
    {word : List Nat} (htext : OfWords word) : font.Fits width word ↔ word.length * a ≤ width := by
  have hroom : ∀ n ≤ word.length, font.room (word.take n) = n * a := by
    intro n hn
    rw [hfont.room fun c hc => htext c (List.mem_of_mem_take hc), List.length_take_of_le hn]
  constructor
  · intro hfits
    have hall := hfits word.length (Nat.le_refl _)
    rwa [hroom _ (Nat.le_refl _)] at hall
  · intro hwidth n hn
    rw [hroom n hn]
    refine Int.le_trans ?_ hwidth
    exact Int.mul_le_mul_of_nonneg_right (Int.ofNat_le.2 hn) (Int.le_of_lt hfont.pos)

/-- The word stands behind a space that begins a line and is no breaking letter. There is
    room for a letter behind it, but not for the word. -/
structure BehindLeadingSpace (breaking : List Nat) (lines : List Line) (a width : Int)
    (before word : List Nat) : Prop where
  space : before.getLast? = some CodePoint.space
  noBreak : breaking.contains CodePoint.space = false
  leading : ∃ l ∈ lines, l.positions.head? = some (before.length - 1)
  first : 2 * a ≤ width
  past : width < (word.length + 1) * a

open LayoutState in
theorem stuck_iff_of_uniform {job : Job} {font : Font} {a : Int} (hfont : font.Uniform a)
    (hwidth : a ≤ job.width) {before word after : List Nat}
    (hword : IsWord job.printer.breakingLetters before word after)
    (htext : OfWords (before ++ word ++ after)) :
    Stuck job font before word ↔ BehindLeadingSpace job.printer.breakingLetters
      (job.layoutWith font (before ++ word ++ after)) a job.width before word := by
  have hpos : 0 < job.width := Int.lt_of_lt_of_le hfont.pos hwidth
  have hroom : ∀ n ≤ word.length,
      font.room (CodePoint.space :: word.take n) = (n + 1 : Nat) * a := by
    intro n hn
    have hcs : OfWords (CodePoint.space :: word.take n) := by
      intro c hc
      rcases List.mem_cons.1 hc with rfl | hc
      · exact Or.inl rfl
      · exact htext c (List.mem_append_left _ (List.mem_append_right _ (List.mem_of_mem_take hc)))
    rw [hfont.room hcs, List.length_cons, List.length_take_of_le hn]
  have hletters : 1 ≤ word.length := List.length_pos_iff.2 hword.nonempty
  have hone := hroom 1 hletters
  have hall := hroom word.length (Nat.le_refl _)
  rw [List.take_length] at hall
  constructor
  · intro h
    obtain ⟨l, hl, n, hn, -, hpositions⟩ := h.broken hpos hword htext
    refine ⟨h.space, h.noBreak, ⟨l, hl, ?_⟩, ?_, ?_⟩
    · rw [hpositions, List.head?_range', if_neg (by omega)]
    · refine Int.le_trans (Int.le_of_eq ?_) h.first
      exact hone.symm
    · obtain ⟨n, -, hle, hpast⟩ := h.past
      refine Int.lt_of_lt_of_le hpast ?_
      rw [hroom n hle]
      exact Int.mul_le_mul_of_nonneg_right (by omega) (Int.le_of_lt hfont.pos)
  · rintro ⟨hspace, hnoBreak, ⟨l, hl, hleading⟩, hfirst, hpast⟩
    obtain ⟨earlier, rfl⟩ := List.getLast?_eq_some_iff.1 hspace
    have hsplit : earlier ++ [CodePoint.space] ++ word ++ after =
        earlier ++ CodePoint.space :: (word ++ after) := by
      rw [List.append_assoc, List.append_assoc, List.singleton_append]
    rw [List.length_append, List.length_singleton, Nat.add_sub_cancel] at hleading
    rw [hsplit] at hl htext
    refine ⟨hspace, hnoBreak, ?_, ?_, word.length, ?_, Nat.le_refl _, ?_⟩
    · refine size_of_leading_space hpos ?_ htext hl hleading
      have hsingle := hroom 0 (Nat.zero_le _)
      rw [List.take_zero] at hsingle
      omega
    · rw [hone]
      exact hfirst
    · by_contra hshort
      obtain hlength : word.length = 1 := by omega
      rw [hlength] at hpast
      exact absurd hfirst (Int.not_le.2 hpast)
    · rw [List.take_length, hall]
      exact hpast

/-- **Words are not broken needlessly, but for one.**  In a text of letters, spaces and
    breaking letters that are equally wide, a word that fits on a line is on one line, unless
    it stands behind a space that begins a line on which there is room for some of its letters
    and not for all. -/
theorem Printer.words_whole_iff {p : Printer} {font : Font}
    (hfont : p.fonts.get? p.defaultFont = some font) {a : Int} (huniform : font.Uniform a)
    {markup : List UInt8} (htext : OfWords (Codec.decode markup)) (origin : Point) {width : Int}
    (hwidth : a ≤ width) :
    ∃ lines, (Job.mk p origin width).layout markup = .ok lines ∧
      (∀ l ∈ lines, ∃ top, ∀ g ∈ l.events, g.lineTop = top) ∧
      ∀ before word after, Codec.decode markup = before ++ word ++ after →
        IsWord p.breakingLetters before word after → word.length * a ≤ width →
          ((∃ l ∈ lines, l.Holds before.length word.length) ↔
            ¬ BehindLeadingSpace p.breakingLetters lines a width before word) := by
  have hpos : 0 < width := Int.lt_of_lt_of_le huniform.pos hwidth
  refine ⟨_, Job.layout_eq hfont markup, fun l => Job.lineTop_eq, ?_⟩
  intro before word after hsplit hword hfits
  rw [hsplit] at htext ⊢
  have hletters : OfWords word := fun c hc =>
    htext c (List.mem_append_left _ (List.mem_append_right _ hc))
  have hstuck : LayoutState.Stuck ⟨p, origin, width⟩ font before word ↔ _ :=
    stuck_iff_of_uniform huniform hwidth hword htext
  rw [← hstuck]
  exact LayoutState.word_whole_iff hpos hword htext ((huniform.fits_iff hletters).2 hfits)

theorem Font.uniform_box {b : BoxFace} (hkerning : b.kerning = []) (hadvance : 0 < b.advance) :
    (Font.ofFace b.face).Uniform b.advance where
  pos := hadvance
  advance := by
    intro c hc
    refine if_neg ?_
    rcases hc with rfl | hletter
    · exact Bool.false_ne_true
    · rw [hletter.notSpace]
      exact Bool.false_ne_true
  kerning := by
    intro c d
    change b.kern c d = 0
    rw [BoxFace.kern, hkerning]
    rfl
  spacing := rfl

/-- Three letters that fit on a line are broken behind a space that begins one. -/
theorem Printer.word_broken_behind_space :
    ∃ font lines, boxes.fonts.get? boxes.defaultFont = some font ∧ font.Uniform 10 ∧
      OfWords (Codec.decode [0x20, 0x61, 0x62, 0x63]) ∧
      Codec.decode [0x20, 0x61, 0x62, 0x63] = [0x20] ++ [0x61, 0x62, 0x63] ++ [] ∧
      IsWord boxes.breakingLetters [0x20] [0x61, 0x62, 0x63] [] ∧
      ([0x61, 0x62, 0x63] : List Nat).length * (10 : Int) ≤ 30 ∧
      (Job.mk boxes .zero 30).layout [0x20, 0x61, 0x62, 0x63] = .ok lines ∧
      (lines.flatMap Line.events).map (fun g => (g.index, g.lineTop)) =
        [(0, 0), (1, 0), (2, 0), (3, 20), (4, 20)] ∧
      ¬ ∃ l ∈ lines, l.Holds 1 3 := by
  refine ⟨_, _, rfl, Font.uniform_box rfl (by decide), by decide, by decide, ?_, by decide, rfl,
    ?_, ?_⟩
  · exact ⟨by decide, by decide, by decide, fun c hc => Or.inl (Option.some.inj hc).symm,
      fun c hc => nomatch hc⟩
  · decide +kernel
  · rintro ⟨l, hl, hholds⟩
    have hlines : ∀ l ∈ Job.layoutWith ⟨boxes, .zero, 30⟩ (Font.ofFace BoxFace.standard.face)
        (Codec.decode [0x20, 0x61, 0x62, 0x63]), 1 ∈ l.positions → 3 ∉ l.positions := by
      decide +kernel
    exact hlines l hl (hholds 1 (by decide) (by decide)) (hholds 3 (by decide) (by decide))

/-- A space behind a letter begins no line: the three letters go to the next one. -/
theorem Printer.words_whole_iff_boxes :
    ∃ lines, (Job.mk boxes .zero 30).layout [0x61, 0x20, 0x62, 0x63, 0x64] = .ok lines ∧
      ∃ l ∈ lines, l.Holds 2 3 := by
  have hcs : Codec.decode [0x61, 0x20, 0x62, 0x63, 0x64] =
      [0x61, 0x20] ++ [0x62, 0x63, 0x64] ++ [] := by decide
  have hword : IsWord boxes.breakingLetters [0x61, 0x20] [0x62, 0x63, 0x64] [] :=
    ⟨by decide, by decide, by decide, fun c hc => Or.inl (Option.some.inj hc).symm,
      fun c hc => nomatch hc⟩
  have htext : OfWords (Codec.decode [0x61, 0x20, 0x62, 0x63, 0x64]) := by decide
  obtain ⟨lines, hlayout, -, hiff⟩ := words_whole_iff (p := boxes) rfl
    (Font.uniform_box rfl (by decide)) htext .zero (by decide : (10 : Int) ≤ 30)
  refine ⟨lines, hlayout, (hiff _ _ _ hcs hword (by decide)).2 ?_⟩
  rintro ⟨-, -, ⟨l, hl, hleading⟩, -, -⟩
  have hlines : lines = Job.layoutWith ⟨boxes, .zero, 30⟩ (Font.ofFace BoxFace.standard.face)
      (Codec.decode [0x61, 0x20, 0x62, 0x63, 0x64]) :=
    Except.ok.inj (hlayout.symm.trans (Job.layout_eq rfl _))
  have hheads : ∀ l ∈ Job.layoutWith ⟨boxes, .zero, 30⟩ (Font.ofFace BoxFace.standard.face)
      (Codec.decode [0x61, 0x20, 0x62, 0x63, 0x64]), l.positions.head? ≠ some 1 := by
    decide +kernel
  exact hheads l (hlines ▸ hl) hleading

end RichText
