/-
  RichText/Proofs/Layout/Exhausted.lean
  =====================================
  **What follows where a line is taken whole.**

  A space that goes past the wrap width is reported with all that waits on the line, and so
  is a letter that stands there alone: the line is exhausted (`Job.Exhausts`).  Nothing is
  carried over then, and what comes next begins a line of its own, be it another space of
  the same run (`Printer.trailing_spaces_iff`) or the newline that ends the line
  (`Printer.newlines_join_iff`).  Otherwise both join the code point before them.
-/
import RichText.Proofs.Layout.Paragraphs
import RichText.Proofs.Layout.Words
import RichText.Proofs.Markup.Pieces

namespace RichText

/-! ### Lines that are exhausted -/

namespace Job

variable (job : Job) (font : Font)

/-- The code points that wait on the line being filled once the text so far has been taken. -/
def waiting (seen : List Nat) : List Nat :=
  Mark.codes (LayoutState.stateAfter job font seen).marks.toList

/-- With the code point `c` the line goes past the wrap width, and nothing is left of it: `c`
    is a space, or stands there alone. -/
structure Exhausts (seen : List Nat) (c : Nat) : Prop where
  past : job.width < font.room (job.waiting font seen ++ [c])
  whole : c = CodePoint.space ∨ job.waiting font seen = []

/-- The two positions are on one line. -/
def Together (lines : List Line) (i k : Nat) : Prop := ∃ l ∈ lines, i ∈ l.positions ∧ k ∈ l.positions

end Job

namespace LayoutState

variable {job : Job} {font : Font} {seen after line : List Nat} {start : Nat} {s : LayoutState}

theorem LineOf.waiting_eq (h : (stateAfter job font seen).LineOf job font line) :
    job.waiting font seen = line := h.codes

/-! ### Spaces -/

/-- A space joins the code point before it if that still waits: what waits ends with it. -/
theorem together_of_waiting (hwidth : 0 < job.width) {c : Nat} {rest : List Nat}
    (htext : OfWords (seen ++ [c] ++ CodePoint.space :: rest))
    (hlength : start + line.length = seen.length + 1)
    (h : (stateAfter job font (seen ++ [c])).Typeset job font start line) (hne : line ≠ []) :
    Job.Together (job.layoutWith font (seen ++ [c] ++ CodePoint.space :: rest)) seen.length
      (seen.length + 1) := by
  have hpos := List.length_pos_iff.2 hne
  have hsize : (seen ++ [c]).length = seen.length + 1 := List.length_append
  obtain ⟨l, hl, n, hn, hpositions⟩ :=
    exists_line_of_space hwidth htext (hlength.trans hsize.symm) h hne
  refine ⟨l, hl, ?_, ?_⟩
  · rw [hpositions, List.mem_range'_1]
    omega
  · rw [hpositions, List.mem_range'_1]
    omega

/-- A space joins the code point before it unless that exhausts the line. -/
theorem space_joins_iff (hwidth : 0 < job.width) {c : Nat} {rest : List Nat}
    (htext : OfWords (seen ++ c :: CodePoint.space :: rest)) :
    Job.Together (job.layoutWith font (seen ++ c :: CodePoint.space :: rest)) seen.length
      (seen.length + 1) ↔ ¬ job.Exhausts font seen c := by
  have hsplit : seen ++ c :: CodePoint.space :: rest = seen ++ [c] ++ CodePoint.space :: rest := by
    rw [List.append_assoc, List.singleton_append]
  rw [hsplit] at htext ⊢
  have hseen : OfWords (seen ++ [c]) := fun d hd => htext d (List.mem_append_left _ hd)
  have hc : c = CodePoint.space ∨ IsLetter c := hseen c (List.mem_append_right _ List.mem_cons_self)
  obtain ⟨start, line, hlength, -, htypeset, -⟩ :=
    typeset_stateAfter font hwidth fun d hd => hseen d (List.mem_append_left _ hd)
  have hwaiting := htypeset.lineOf.waiting_eq
  have hnoted : ∀ pos, (stateAfter job font seen).lastBreak = some pos → pos ≤ line.length :=
    fun pos hpos => htypeset.size ▸ htypeset.within pos hpos
  have hnil := drop_lineCut_eq_nil_iff hnoted hc
  have hend : (line ++ [c]).length = line.length + 1 := List.length_append
  have hstep := htypeset.step hwidth hc
  rw [hlength, ← stateAfter_append_singleton hseen] at hstep
  rcases hstep with ⟨hfits, ht, -⟩ | ⟨hover, hle, ht, ⟨l, hl, hpositions⟩, -⟩
  · refine iff_of_true (together_of_waiting hwidth htext ?_ ht ?_) ?_
    · rw [hend, ← Nat.add_assoc, hlength]
    · exact List.append_ne_nil_of_right_ne_nil _ (List.cons_ne_nil _ _)
    · intro hexhausts
      have hpast := hexhausts.past
      rw [hwaiting] at hpast
      exact absurd hfits (Int.not_le.2 hpast)
  · by_cases hwhole : c = CodePoint.space ∨ line = []
    · refine iff_of_false ?_ (not_not_intro ⟨hwaiting ▸ hover, hwaiting ▸ hwhole⟩)
      change l.positions = _ at hpositions
      rintro ⟨k, hk, hcode, hspace⟩
      have hcut := List.drop_eq_nil_iff.1 (hnil.2 hwhole)
      have hl : l ∈ job.layoutWith font (seen ++ [c] ++ CodePoint.space :: rest) := by
        refine mem_layout_of_mem htext ?_
        rw [hl, Array.toList_push]
        exact List.mem_append_right _ List.mem_cons_self
      obtain rfl : k = l := by
        refine Job.line_unique hk hl hcode ?_
        rw [hpositions, List.mem_range'_1]
        omega
      rw [hpositions, List.mem_range'_1] at hspace
      omega
    · refine iff_of_true (together_of_waiting hwidth htext ?_ ht fun h => hwhole (hnil.1 h)) ?_
      · rw [List.length_drop]
        omega
      · exact fun hexhausts => hwhole (hwaiting ▸ hexhausts.whole)

end LayoutState

/-! ### Events of a text of words -/

section Words

variable {job : Job} {font : Font} {cs : List Nat}

theorem OfWords.signsOf (h : OfWords cs) (images : Registry Image) :
    RichText.signsOf images cs = cs.zipIdx.map fun (c, i) => ⟨c, false, i⟩ := by
  rw [RichText.signsOf, lexemes, h.lexemesFrom, List.flatMap_map]
  exact List.map_eq_flatMap.symm

/-- Each position is reported, in order, and then the end of the text. -/
theorem OfWords.positions (h : OfWords cs) (job : Job) (font : Font) :
    (job.layoutWith font cs).flatMap Line.positions = List.range' 0 (cs.length + 1) := by
  obtain ⟨before, last, hevents, hreports, -, -, hlast⟩ :=
    LayoutState.finish_events job (LayoutState.accounted_run job font cs) cs.length
  have hmap : (job.layoutWith font cs).flatMap Line.positions =
      (events (job.layoutWith font cs)).map (·.index) := (List.map_flatMap ..).symm
  rw [hmap, Job.layoutWith, hevents, List.map_append, indices_of_reports hreports, h.signsOf,
    List.map_map, List.map_singleton, hlast, List.range'_1_concat, Nat.zero_add]
  congr 1
  exact List.zipIdx_map_snd 0 cs

/-- What is reported of a position within the text. Only spaces are left over at a wrap. -/
theorem OfWords.event (h : OfWords cs) {l : Line} (hl : l ∈ job.layoutWith font cs) {e : Glyph}
    (he : e ∈ l.events) (hi : e.index < cs.length) :
    e.lineEnd = false ∧ (e.wrapped = true → cs[e.index]? = some CodePoint.space) := by
  obtain ⟨before, last, hevents, hreports, -, -, hlast⟩ :=
    LayoutState.finish_events job (LayoutState.accounted_run job font cs) cs.length
  have hmem : e ∈ events (job.layoutWith font cs) := List.mem_flatMap.2 ⟨l, hl, he⟩
  rw [Job.layoutWith, hevents] at hmem
  rcases List.mem_append.1 hmem with hmem | hmem
  · obtain ⟨σ, hσ, hreport⟩ := exists_of_forall₂ hreports hmem
    rw [h.signsOf] at hσ
    obtain ⟨⟨c, i⟩, hci, rfl⟩ := List.mem_map.1 hσ
    have hcode : cs[i]? = some c := List.mem_zipIdx_iff_getElem?.1 hci
    refine ⟨hreport.lineEnd, fun hwrapped => ?_⟩
    rw [hreport.index]
    rcases h c (List.mem_of_getElem? hcode) with rfl | hletter
    · exact hcode
    · rcases hreport.wrapped hwrapped with hspace | htab
      · exact absurd (hletter.notSpace.symm.trans hspace) Bool.false_ne_true
      · exact absurd htab hletter.notTab
  · rw [List.mem_singleton.1 hmem, hlast] at hi
    exact absurd hi (Nat.lt_irrefl _)

/-- Behind the last glyph of the content there are those left over at a wrap, undrawn. -/
theorem OfWords.left_over (h : OfWords cs) {l : Line} (hl : l ∈ job.layoutWith font cs) {g e : Glyph}
    (hg : l.content.getLast? = some g) (he : e ∈ l.events) (hlt : g.index < e.index)
    (hi : e.index < cs.length) : e.wrapped = true ∧ e.code = none := by
  have hwrapped : e.wrapped = true := by
    by_contra hnot
    have hcontent : e ∈ l.content := by
      refine List.mem_filter.2 ⟨he, ?_⟩
      rw [(h.event hl he hi).1, Bool.eq_false_iff.2 hnot]
      rfl
    -- The content is reported in the order of the text.
    have hpairs := job.pairwise_layoutWith font cs
    rw [events, List.map_flatMap, List.pairwise_flatMap] at hpairs
    have hline : l.content.Pairwise fun g k => g.index < k.index :=
      (List.pairwise_map.1 (hpairs.1 l hl)).sublist List.filter_sublist
    obtain ⟨init, hinit⟩ := List.getLast?_eq_some_iff.1 hg
    rw [hinit] at hline hcontent
    rcases List.mem_append.1 hcontent with hmem | hmem
    · have hle := (List.pairwise_append.1 hline).2.2 e hmem g List.mem_cons_self
      omega
    · rw [List.mem_singleton.1 hmem] at hlt
      exact absurd hlt (Nat.lt_irrefl _)
  refine ⟨hwrapped, ?_⟩
  rcases LayoutState.line_cases job font cs hl with ⟨set, u, rfl⟩ | ⟨k, rfl⟩
  · rw [SetLine.events_line] at he
    rcases List.mem_append.1 he with he | he
    · obtain ⟨m, -, rfl⟩ := List.mem_map.1 he
      cases hwrapped
    · obtain ⟨m, -, rfl⟩ := List.mem_map.1 he
      simp only [SetLine.glyph]
      cases m.kind with
      | glyph visible => exact if_neg (by rw [Bool.not_true, Bool.and_false]; exact Bool.false_ne_true)
      | _ => rfl
  · -- The end of the text alone has no content but itself.
    have hmem : g ∈ [k].filter _ := List.mem_of_getLast? hg
    have hgk : g = k := List.mem_singleton.1 (List.mem_of_mem_filter hmem)
    have hek : e = k := List.mem_singleton.1 he
    rw [hgk, hek] at hlt
    exact absurd hlt (Nat.lt_irrefl _)

end Words

/-! ### Runs of spaces -/

/-- Position `k` holds a space of the run that follows position `i`. -/
def InRun (cs : List Nat) (i k : Nat) : Prop :=
  i < k ∧ ∀ j, i < j → j ≤ k → cs[j]? = some CodePoint.space

theorem InRun.lt_length {cs : List Nat} {i k : Nat} (h : InRun cs i k) : k < cs.length :=
  (List.getElem?_eq_some_iff.1 (h.2 k h.1 (Nat.le_refl k))).1

theorem InRun.mono {cs : List Nat} {i j k : Nat} (h : InRun cs i k) (hij : i < j) (hjk : j ≤ k) :
    InRun cs i j := ⟨hij, fun n hn hnj => h.2 n hn (Nat.le_trans hnj hjk)⟩

/-- The line is exhausted within the run of spaces that follows position `i`, or just before
    it. -/
def Job.ExhaustedIn (job : Job) (font : Font) (cs : List Nat) (i : Nat) : Prop :=
  ∃ seen c rest, cs = seen ++ c :: rest ∧ i ≤ seen.length ∧ InRun cs i (seen.length + 1) ∧
    job.Exhausts font seen c

section Runs

variable {job : Job} {font : Font} {cs : List Nat} {l : Line} {i : Nat}

/-- The run is on the line of the position before it unless the line is exhausted. -/
theorem run_mem_iff (hwidth : 0 < job.width) (h : OfWords cs) (hl : l ∈ job.layoutWith font cs)
    (hi : i ∈ l.positions) :
    (∀ k, InRun cs i k → k ∈ l.positions) ↔ ¬ job.ExhaustedIn font cs i := by
  -- The next space is together with the code point before it, or that exhausts the line.
  have hjoins : ∀ {seen c rest}, cs = seen ++ c :: rest → InRun cs i (seen.length + 1) →
      (Job.Together (job.layoutWith font cs) seen.length (seen.length + 1) ↔
        ¬ job.Exhausts font seen c) := by
    intro seen c rest hcs hrun
    have hnext := hrun.2 _ hrun.1 (Nat.le_refl _)
    rw [hcs, List.getElem?_append_right (Nat.le_add_right _ 1), Nat.add_sub_cancel_left,
      List.getElem?_cons_succ] at hnext
    cases rest with
    | nil => cases hnext
    | cons d rest =>
      obtain rfl : d = CodePoint.space := Option.some.inj hnext
      rw [hcs] at h ⊢
      exact LayoutState.space_joins_iff hwidth h
  constructor
  · rintro hall ⟨seen, c, rest, hcs, hle, hrun, hexhausts⟩
    refine (hjoins hcs hrun).1 ⟨l, hl, ?_, hall _ hrun⟩ hexhausts
    rcases Nat.lt_or_eq_of_le hle with hlt | rfl
    · exact hall _ (hrun.mono hlt (Nat.le_succ _))
    · exact hi
  · intro hnone k hrun
    have hnext : ∀ j, i ≤ j → j ∈ l.positions → InRun cs i (j + 1) → j + 1 ∈ l.positions := by
      intro j hij hj hrun
      have hlt := Nat.lt_of_succ_lt hrun.lt_length
      have hcs : cs = cs.take j ++ cs[j] :: cs.drop (j + 1) := by
        rw [List.getElem_cons_drop, List.take_append_drop]
      have hlength : (cs.take j).length = j := List.length_take_of_le (Nat.le_of_lt hlt)
      have htogether := hjoins hcs (hlength.symm ▸ hrun)
      rw [hlength] at htogether
      obtain ⟨k, hk, hjk, hmem⟩ := htogether.2 fun hexhausts =>
        hnone ⟨_, _, _, hcs, hlength.symm ▸ hij, hlength.symm ▸ hrun, hexhausts⟩
      rwa [Job.line_unique hl hk hj hjk]
    obtain ⟨n, rfl⟩ := Nat.exists_eq_add_of_lt hrun.1
    induction n with
    | zero => exact hnext i (Nat.le_refl i) hi hrun
    | succ n ih =>
      refine hnext (i + n + 1) ?_ (ih (hrun.mono ?_ (Nat.le_succ _))) hrun
      · omega
      · omega

/-- A line takes up where the one before it ends. -/
theorem OfWords.next_position (h : OfWords cs) {k : Line} {above below : List Line}
    (hlines : job.layoutWith font cs = above ++ l :: k :: below) (hi : i ∈ l.positions) {j : Nat}
    (hj : k.positions.head? = some j) :
    i < j ∧ j ∉ l.positions ∧ ∀ n, i ≤ n → n < j → n ∈ l.positions := by
  have hpositions := h.positions job font
  rw [hlines, List.flatMap_append, List.flatMap_cons, List.flatMap_cons] at hpositions
  obtain ⟨a, -, -, hrest⟩ := List.range'_eq_append_iff.1 hpositions.symm
  obtain ⟨b, -, hline, hrest⟩ := List.range'_eq_append_iff.1 hrest.symm
  obtain ⟨c, -, hnext, -⟩ := List.range'_eq_append_iff.1 hrest.symm
  rw [hnext, List.head?_range'] at hj
  split at hj
  · cases hj
  · obtain rfl := Option.some.inj hj
    simp only [hline, List.mem_range'_1, Nat.mul_one] at hi ⊢
    refine ⟨by omega, by omega, fun n hin hn => by omega⟩

/-- The line below begins with a space if the run goes on there, and only then. -/
theorem next_space_iff (hwidth : 0 < job.width) (h : OfWords cs) {k : Line}
    {above below : List Line} (hlines : job.layoutWith font cs = above ++ l :: k :: below)
    {g : Glyph} (hg : l.content.getLast? = some g) {j : Nat}
    (hj : k.positions.head? = some j) :
    cs[j]? = some CodePoint.space ↔ job.ExhaustedIn font cs g.index := by
  have hl : l ∈ job.layoutWith font cs := by
    rw [hlines]
    exact List.mem_append_right _ List.mem_cons_self
  have hi : g.index ∈ l.positions :=
    List.mem_map_of_mem (List.mem_of_mem_filter (List.mem_of_getLast? hg))
  obtain ⟨hlt, hnot, hbetween⟩ := h.next_position hlines hi hj
  rw [← not_iff_not, ← run_mem_iff hwidth h hl hi]
  constructor
  · intro hletter n hrun
    by_contra hmem
    have hle : j ≤ n := Nat.le_of_not_lt fun hn => hmem (hbetween n (Nat.le_of_lt hrun.1) hn)
    exact hletter (hrun.2 j hlt hle)
  · intro hall hspace
    refine hnot (hall j ⟨hlt, fun n hn hle => ?_⟩)
    rcases Nat.lt_or_eq_of_le hle with hle | rfl
    · -- What the line still reports behind its content is left over, so it is a space.
      obtain ⟨e, he, rfl⟩ := List.mem_map.1 (hbetween n (Nat.le_of_lt hn) hle)
      have hlength := Nat.lt_trans hle (List.getElem?_eq_some_iff.1 hspace).1
      exact (h.event hl he hlength).2 (h.left_over hl hg he hn hlength).1
    · exact hspace

end Runs

/-- **Which spaces stay on the line that was wrapped.**  In a text of letters and spaces, the
    run of spaces behind the last glyph of a line is reported there, wrapped and undrawn,
    unless one of them, or that glyph, exhausts the line. Only then the line below begins
    with a space. -/
theorem Printer.trailing_spaces_iff {p : Printer} {font : Font}
    (hfont : p.fonts.get? p.defaultFont = some font) {markup : List UInt8}
    (htext : OfWords (Codec.decode markup)) (origin : Point) {width : Int} (hwidth : 0 < width) :
    ∃ lines, (Job.mk p origin width).layout markup = .ok lines ∧
      (∀ l ∈ lines, ∃ top, ∀ g ∈ l.events, g.lineTop = top) ∧
      ∀ above l below, lines = above ++ l :: below → ∀ g, l.content.getLast? = some g →
        ((∀ k, InRun (Codec.decode markup) g.index k →
            ∃ e ∈ l.events, e.index = k ∧ e.wrapped = true ∧ e.code = none) ↔
          ¬ (Job.mk p origin width).ExhaustedIn font (Codec.decode markup) g.index) ∧
        ∀ k ∈ below.head?, ∀ e ∈ k.events.head?,
          ((Codec.decode markup)[e.index]? = some CodePoint.space ↔
            (Job.mk p origin width).ExhaustedIn font (Codec.decode markup) g.index) := by
  refine ⟨_, Job.layout_eq hfont markup, fun l => Job.lineTop_eq, ?_⟩
  intro above l below hlines g hg
  have hl : l ∈ (Job.mk p origin width).layoutWith font (Codec.decode markup) := by
    rw [hlines]
    exact List.mem_append_right _ List.mem_cons_self
  have hi : g.index ∈ l.positions :=
    List.mem_map_of_mem (List.mem_of_mem_filter (List.mem_of_getLast? hg))
  refine ⟨?_, fun k hk e he => ?_⟩
  · rw [← run_mem_iff hwidth htext hl hi]
    refine forall_congr' fun k => imp_congr_right fun hrun => ⟨?_, fun hk => ?_⟩
    · rintro ⟨e, he, rfl, -⟩
      exact List.mem_map_of_mem he
    · obtain ⟨e, he, rfl⟩ := List.mem_map.1 hk
      exact ⟨e, he, rfl, htext.left_over hl hg he hrun.1 hrun.lt_length⟩
  · obtain ⟨rest, rfl⟩ := List.head?_eq_some_iff.1 hk
    refine next_space_iff hwidth htext hlines hg ?_
    rw [Line.positions, List.head?_map, Option.mem_def.1 he]
    rfl

/-- The first space exhausts the line, and the second one begins the next. -/
theorem Printer.space_begins_line :
    ∃ font lines, boxes.fonts.get? boxes.defaultFont = some font ∧ font.Uniform 10 ∧
      OfWords (Codec.decode [0x61, 0x62, 0x63, 0x20, 0x20, 0x64]) ∧
      InRun (Codec.decode [0x61, 0x62, 0x63, 0x20, 0x20, 0x64]) 2 4 ∧
      (Job.mk boxes .zero 30).layout [0x61, 0x62, 0x63, 0x20, 0x20, 0x64] = .ok lines ∧
      lines.map (fun l => l.events.map fun g => (g.index, g.lineTop, g.wrapped)) =
        [[(0, 0, false), (1, 0, false), (2, 0, false), (3, 0, true)],
         [(4, 20, false), (5, 20, false), (6, 20, false)]] := by
  refine ⟨_, _, rfl, Font.uniform_box rfl (by decide), by decide, ⟨by decide, ?_⟩, rfl, ?_⟩
  · intro j hj hle
    obtain rfl | rfl : j = 3 ∨ j = 4 := by omega
    · decide
    · decide
  · decide +kernel

/-- Two spaces that do not exhaust the line stay on it. -/
theorem Printer.trailing_spaces_iff_boxes :
    ∃ lines, (Job.mk boxes .zero 30).layout [0x61, 0x62, 0x20, 0x20, 0x63] = .ok lines ∧
      ∃ l ∈ lines, ∀ k, InRun (Codec.decode [0x61, 0x62, 0x20, 0x20, 0x63]) 1 k →
        ∃ e ∈ l.events, e.index = k ∧ e.wrapped = true ∧ e.code = none := by
  have htext : OfWords (Codec.decode [0x61, 0x62, 0x20, 0x20, 0x63]) := by decide
  obtain ⟨lines, hlayout, -, hiff⟩ :=
    trailing_spaces_iff (p := boxes) rfl htext .zero (by decide : (0 : Int) < 30)
  refine ⟨lines, hlayout, ?_⟩
  have hlines : lines = Job.layoutWith ⟨boxes, .zero, 30⟩ (Font.ofFace BoxFace.standard.face)
      (Codec.decode [0x61, 0x62, 0x20, 0x20, 0x63]) :=
    Except.ok.inj (hlayout.symm.trans (Job.layout_eq rfl _))
  have hfirst : (lines.head?.bind (·.content.getLast?)).map (·.index) = some 1 := by
    rw [hlines]
    decide +kernel
  obtain ⟨g, hg, hindex⟩ := Option.map_eq_some_iff.1 hfirst
  obtain ⟨l, hl, hlast⟩ := Option.bind_eq_some_iff.1 hg
  obtain ⟨below, rfl⟩ := List.head?_eq_some_iff.1 hl
  have hrun := (hiff [] l below rfl g hlast).1
  rw [hindex] at hrun
  refine ⟨l, List.mem_cons_self, hrun.2 ?_⟩
  rintro ⟨seen, c, rest, hcs, hle, hin, hexhausts⟩
  have hlt : seen.length < 3 := Nat.lt_of_not_le fun h =>
    absurd (hin.2 4 (by decide) (Nat.succ_le_succ h)) (by decide)
  have hseen : seen = (Codec.decode [0x61, 0x62, 0x20, 0x20, 0x63]).take seen.length := by
    rw [hcs, List.take_left]
  have hc : (Codec.decode [0x61, 0x62, 0x20, 0x20, 0x63])[seen.length]? = some c := by
    rw [hcs, List.getElem?_append_right (Nat.le_refl _), Nat.sub_self]
    rfl
  have hpast := hexhausts.past
  revert hpast
  obtain hone | htwo : seen.length = 1 ∨ seen.length = 2 := by omega
  · rw [hone] at hc hseen
    obtain rfl := Option.some.inj hc
    rw [hseen]
    decide +kernel
  · rw [htwo] at hc hseen
    obtain rfl := Option.some.inj hc
    rw [hseen]
    decide +kernel

/-! ### Newlines -/

/-- Words on lines of their own. -/
def OfLines (cs : List Nat) : Prop :=
  ∀ c ∈ cs, c = CodePoint.space ∨ IsLetter c ∨ CodePoint.isNewline c = true

instance (cs : List Nat) : Decidable (OfLines cs) :=
  inferInstanceAs (Decidable (∀ c ∈ cs, _))

/-- A code point of a word, a newline, or a carriage return that is none. -/
def Token.OfLines : Token → Prop
  | .text c => c = CodePoint.space ∨ IsLetter c
  | .newline _ | .nothing => True
  | _ => False

theorem Token.read_newline {c : Nat} (h : CodePoint.isNewline c = true) {cs : List Nat}
    (hpair : ¬ (c = CodePoint.carriageReturn ∧ cs.head? = some CodePoint.lineFeed)) :
    read c cs = (.newline c, 0) := by
  have hc : c = CodePoint.lineFeed ∨ c = CodePoint.carriageReturn ∨ c = CodePoint.lineBreak ∨
      c = CodePoint.lineSeparator ∨ c = CodePoint.paragraphSeparator := by
    simpa only [CodePoint.isNewline, Bool.or_eq_true, beq_iff_eq, or_assoc] using h
  unfold read
  rw [if_neg hpair]
  rcases hc with rfl | rfl | rfl | rfl | rfl <;> rfl

namespace OfLines

variable {cs ds : List Nat}

theorem left (h : OfLines (cs ++ ds)) : OfLines cs := fun c hc => h c (List.mem_append_left _ hc)

theorem read (h : OfLines cs) {c : Nat} (hc : c ∈ cs) (ds : List Nat) :
    ∃ token : Token, Token.read c ds = (token, 0) ∧ token.OfLines := by
  rcases or_assoc.2 (h c hc) with hword | hnewline
  · exact ⟨_, Token.read_of_word hword ds, hword⟩
  by_cases hpair : c = CodePoint.carriageReturn ∧ ds.head? = some CodePoint.lineFeed
  · obtain ⟨rfl, hfeed⟩ := hpair
    refine ⟨.nothing, ?_, trivial⟩
    have hpair := And.intro (rfl : CodePoint.carriageReturn = _) hfeed
    unfold Token.read
    rw [if_pos hpair]
    rfl
  · exact ⟨_, Token.read_newline hnewline hpair, trivial⟩

theorem ofLines_of_mem (h : OfLines cs) {index : Nat} {l : Lexeme}
    (hl : l ∈ lexemesFrom 0 index cs) : l.token.OfLines := by
  induction cs generalizing index with
  | nil => cases hl
  | cons c cs ih =>
    obtain ⟨token, hread, htoken⟩ := h.read List.mem_cons_self cs
    simp only [lexemesFrom, hread] at hl
    rcases List.mem_cons.1 hl with rfl | hl
    · exact htoken
    · exact ih (fun d hd => h d (List.mem_cons_of_mem c hd)) hl

theorem selfContained (h : OfLines cs) : SelfContained cs := by
  refine selfContained_text fun c hc => ?_
  obtain ⟨token, hread, -⟩ := h.read hc [Control.terminator]
  have hused : (Token.read c [Control.terminator]).2 = 0 := congrArg Prod.snd hread
  refine ⟨?_, ?_⟩
  · rintro rfl
    exact absurd hused (by decide)
  · rintro rfl
    exact absurd hused (by decide)

/-- The tokens up to a newline that follows a code point of a word. -/
theorem lexemes_newline {before after : List Nat} {c n : Nat}
    (h : OfLines (before ++ c :: n :: after)) (hc : c = CodePoint.space ∨ IsLetter c)
    (hn : CodePoint.isNewline n = true)
    (hpair : ¬ (n = CodePoint.carriageReturn ∧ after.head? = some CodePoint.lineFeed)) :
    lexemes (before ++ c :: n :: after) =
      lexemes before ++ [⟨before.length, .text c⟩, ⟨before.length + 1, .newline n⟩] ++
        lexemesFrom 0 (before.length + 2) after := by
  have hread := Token.read_of_word hc
  have hfeed : (c :: n :: after).head? ≠ some CodePoint.lineFeed := by
    intro hfeed
    obtain rfl : c = CodePoint.lineFeed := Option.some.inj hfeed
    exact absurd (hread []) (by decide)
  rw [lexemes, h.left.selfContained.lexemesFrom_append fun _ => hfeed, Nat.zero_add, lexemes,
    List.append_assoc]
  simp only [lexemesFrom, hread, Token.read_newline hn hpair, List.cons_append, List.nil_append]

end OfLines

namespace LayoutState

variable {job : Job} {font : Font} {cs line : List Nat} {s : LayoutState}

/-- The line below a newline is empty. -/
theorem LineOf.newline (h : s.LineOf job font line) (index c : Nat) :
    (s.step job ⟨index, .newline c⟩).LineOf job font [] := by
  rw [step_newline h.table]
  have hstyle := sameStyle_pushMark job s c .lineEnd 0 index
  have htable := (table_pushMark job s c .lineEnd 0 index).trans h.table
  generalize s.pushMark job c .lineEnd 0 index = u at hstyle htable
  obtain ⟨top, l, hcommit⟩ := commitAll_newline job u (CodePoint.startsParagraph c)
  refine ⟨(h.style.trans hstyle).trans (sameStyle_commit job u _ _), ?_, ?_, ?_, ?_, ?_,
    breakWithin_commit job u _ _⟩
  · rw [hcommit]
    exact htable
  · rw [hcommit]
    rfl
  · rw [hcommit]
    trivial
  · rw [hcommit]
    rfl
  · rw [hcommit]
    rfl

/-- The code points that wait stand side by side. -/
theorem lineOf_stateAfter (font : Font) (hwidth : 0 < job.width) (h : OfLines cs) :
    (stateAfter job font cs).LineOf job font (job.waiting font cs) := by
  have hrun : ∀ (ls : List Lexeme) (s : LayoutState) (line : List Nat),
      (∀ l ∈ ls, l.token.OfLines) → s.LineOf job font line →
        ∃ line', (s.run job ls).LineOf job font line' := by
    intro ls
    induction ls with
    | nil => exact fun s line _ hs => ⟨line, hs⟩
    | cons l ls ih =>
      intro s line hls hs
      have htoken := hls l List.mem_cons_self
      have hrest := fun s line => ih s line fun k hk => hls k (List.mem_cons_of_mem l hk)
      obtain ⟨index, token⟩ := l
      cases token with
      | text c =>
        obtain ⟨line', hs', -⟩ := hs.step hwidth htoken index
        exact hrest _ line' hs'
      | newline c => exact hrest _ [] (hs.newline index c)
      | nothing => exact hrest s line hs
      | _ => exact htoken.elim
  obtain ⟨line, hline⟩ := hrun _ _ _ (fun l => h.ofLines_of_mem) (typeset_initial job font).lineOf
  exact (LineOf.waiting_eq hline).symm ▸ hline

/-- A newline joins the code point before it unless that exhausts the line. -/
theorem newline_joins_iff (hwidth : 0 < job.width) {before after : List Nat} {c n : Nat}
    (htext : OfLines (before ++ c :: n :: after)) (hc : c = CodePoint.space ∨ IsLetter c)
    (hn : CodePoint.isNewline n = true)
    (hpair : ¬ (n = CodePoint.carriageReturn ∧ after.head? = some CodePoint.lineFeed)) :
    Job.Together (job.layoutWith font (before ++ c :: n :: after)) before.length
      (before.length + 1) ↔ ¬ job.Exhausts font before c := by
  have hline := lineOf_stateAfter font hwidth htext.left
  obtain ⟨rest, ht, hrest, hmark⟩ := hline.step hwidth hc before.length
  have hexhausts : rest = [] ↔ job.Exhausts font before c :=
    hrest.trans ⟨fun h => ⟨h.1, h.2⟩, fun h => ⟨h.past, h.whole⟩⟩
  -- The newline is reported with what waits, and that is all that is reported then.
  have hprefix := lines_prefix_layout job font (htext.lexemes_newline hc hn hpair)
  rw [run, List.foldl_append] at hprefix
  change (((stateAfter job font before).step job ⟨before.length, .text c⟩).step job
    ⟨before.length + 1, .newline n⟩).lines.toList <+: _ at hprefix
  generalize (stateAfter job font before).step job ⟨before.length, .text c⟩ = t at ht hmark hprefix
  rw [step_newline ht.table] at hprefix
  obtain ⟨l, hlines, hpositions⟩ := positions_commitAll job
    (t.pushMark job n .lineEnd 0 (before.length + 1)) (.newline (CodePoint.startsParagraph n))
  have hl : l ∈ job.layoutWith font (before ++ c :: n :: after) := by
    refine hprefix.subset ?_
    rw [hlines, Array.toList_push]
    exact List.mem_append_right _ List.mem_cons_self
  rw [toList_pushMark, List.map_append, List.map_singleton] at hpositions
  change l.positions = t.marks.toList.map (·.index) ++ [before.length + 1] at hpositions
  have hnewline : before.length + 1 ∈ l.positions := by
    rw [hpositions]
    exact List.mem_append_right _ List.mem_cons_self
  rw [← hexhausts]
  constructor
  · rintro ⟨k, hk, hcode, hend⟩ rfl
    obtain rfl := Job.line_unique hk hl hend hnewline
    have hempty : t.marks.toList = [] := List.map_eq_nil_iff.1 ht.codes
    rw [hpositions, hempty, List.map_nil, List.nil_append, List.mem_singleton] at hcode
    omega
  · intro hne
    obtain ⟨m, hm, hindex⟩ := hmark hne
    refine ⟨l, hl, ?_, hnewline⟩
    rw [hpositions, ← hindex]
    exact List.mem_append_left _ (List.mem_map_of_mem hm)

end LayoutState

/-- **Which newlines end the line of the code point before them.**  In a text of letters,
    spaces and newlines, a newline is on the line of the letter or space directly before it,
    unless that one exhausts the line. -/
theorem Printer.newlines_join_iff {p : Printer} {font : Font}
    (hfont : p.fonts.get? p.defaultFont = some font) {markup : List UInt8}
    (htext : OfLines (Codec.decode markup)) (origin : Point) {width : Int} (hwidth : 0 < width) :
    ∃ lines, (Job.mk p origin width).layout markup = .ok lines ∧
      (∀ l ∈ lines, ∃ top, ∀ g ∈ l.events, g.lineTop = top) ∧
      ∀ before c n after, Codec.decode markup = before ++ c :: n :: after →
        (c = CodePoint.space ∨ IsLetter c) → CodePoint.isNewline n = true →
          ¬ (n = CodePoint.carriageReturn ∧ after.head? = some CodePoint.lineFeed) →
            (Job.Together lines before.length (before.length + 1) ↔
              ¬ (Job.mk p origin width).Exhausts font before c) := by
  refine ⟨_, Job.layout_eq hfont markup, fun l => Job.lineTop_eq, ?_⟩
  intro before c n after hsplit hc hn hpair
  rw [hsplit] at htext ⊢
  exact LayoutState.newline_joins_iff hwidth htext hc hn hpair

/-- The space exhausts the line, and the newline behind it takes a line of its own. -/
theorem Printer.newline_takes_line :
    ∃ font lines, boxes.fonts.get? boxes.defaultFont = some font ∧ font.Uniform 10 ∧
      OfLines (Codec.decode [0x61, 0x62, 0x63, 0x20, 0x0A, 0x64]) ∧
      Codec.decode [0x61, 0x62, 0x63, 0x20, 0x0A, 0x64] =
        [0x61, 0x62, 0x63] ++ CodePoint.space :: CodePoint.lineFeed :: [0x64] ∧
      (Job.mk boxes .zero 30).layout [0x61, 0x62, 0x63, 0x20, 0x0A, 0x64] = .ok lines ∧
      lines.map (fun l => l.events.map fun g => (g.index, g.lineTop)) =
        [[(0, 0), (1, 0), (2, 0), (3, 0)], [(4, 20)], [(5, 40), (6, 40)]] := by
  refine ⟨_, _, rfl, Font.uniform_box rfl (by decide), by decide, by decide, rfl, ?_⟩
  decide +kernel

/-- A newline behind a word that does not exhaust the line is on the line of that word. -/
theorem Printer.newlines_join_iff_boxes :
    ∃ lines, (Job.mk boxes .zero 30).layout [0x61, 0x62, 0x63, 0x0A, 0x64] = .ok lines ∧
      Job.Together lines 2 3 := by
  have htext : OfLines (Codec.decode [0x61, 0x62, 0x63, 0x0A, 0x64]) := by decide
  obtain ⟨lines, hlayout, -, hiff⟩ :=
    newlines_join_iff (p := boxes) rfl htext .zero (by decide : (0 : Int) < 30)
  have hsplit : Codec.decode [0x61, 0x62, 0x63, 0x0A, 0x64] =
      [0x61, 0x62] ++ 0x63 :: CodePoint.lineFeed :: [0x64] := by decide
  have hjoins := hiff [0x61, 0x62] 0x63 CodePoint.lineFeed [0x64] hsplit (by decide) (by decide)
    (by decide)
  refine ⟨lines, hlayout, hjoins.2 fun hexhausts => absurd hexhausts.past ?_⟩
  decide +kernel

end RichText
