/-
  RichText/Proofs/Layout/Paragraphs.lean
  ======================================
  **Paragraphs are laid out on their own.**

  After a text without instructions and a line feed, a layout has come back to where it
  began, but for its place on the page and in the text, and for two edges of an empty
  line that nothing reads before they are set (`Alike`).  So it goes on as another layout
  does that begins there (`Printer.layout_paragraphs`).
-/
import RichText.Proofs.Codec
import RichText.Proofs.Layout.Coherence
import RichText.Proofs.Layout.Displaced
import RichText.Proofs.Layout.Events
import RichText.Proofs.Layout.Steps
import RichText.Proofs.Markup.Pieces

namespace RichText

/-! ### Text without instructions -/

/-- No code point is an introducer or a toggle. -/
def NoInstructions (cs : List Nat) : Prop :=
  ∀ c ∈ cs, c ≠ Control.complexIntroducer ∧ c ≠ Control.simpleIntroducer ∧ Toggle.ofCode? c = none

instance (cs : List Nat) : Decidable (NoInstructions cs) :=
  inferInstanceAs (Decidable (∀ c ∈ cs, _))

namespace Token

theorem read_ne_instruction {c : Nat} (hcomplex : c ≠ Control.complexIntroducer)
    (hsimple : c ≠ Control.simpleIntroducer) (htoggle : Toggle.ofCode? c = none) (cs : List Nat)
    (i : Instruction) : (read c cs).1 ≠ .instruction i := by
  simp only [read, if_neg hcomplex, if_neg hsimple, single, htoggle]
  split_ifs <;> exact Token.noConfusion

end Token

theorem lexemesFrom_reindex (skip index n : Nat) (cs : List Nat) :
    lexemesFrom skip (index + n) cs =
      (lexemesFrom skip index cs).map (Lexeme.reindex (· + n)) := by
  induction cs generalizing skip index with
  | nil => simp only [lexemesFrom_nil, List.map_nil]
  | cons c cs ih =>
    have hindex : index + n + 1 = index + 1 + n := by omega
    cases skip with
    | zero =>
      simp only [lexemesFrom, List.map_cons, hindex, ih]
      rfl
    | succ skip => simp only [lexemesFrom, hindex, ih]

/-- The tokens of a text that has `n` code points before it. -/
theorem lexemesFrom_eq_map (n : Nat) (cs : List Nat) :
    lexemesFrom 0 n cs = (lexemes cs).map (Lexeme.reindex (· + n)) := by
  have hreindex := lexemesFrom_reindex 0 0 n cs
  rwa [Nat.zero_add] at hreindex

private theorem lexemesFrom_paragraph {cs : List Nat} (h : NoInstructions cs) (index : Nat) :
    ∃ ls : List Lexeme, (∀ l ∈ ls, ∀ i, l.token ≠ .instruction i) ∧ ∀ ds,
      lexemesFrom 0 index (cs ++ CodePoint.lineFeed :: ds) =
        ls ++ ⟨index + cs.length, .newline CodePoint.lineFeed⟩ ::
          lexemesFrom 0 (index + cs.length + 1) ds := by
  induction cs generalizing index with
  | nil =>
    refine ⟨[], fun l hl => (nomatch hl), ?_⟩
    intro ds
    rfl
  | cons c cs ih =>
    obtain ⟨hcomplex, hsimple, htoggle⟩ := h c List.mem_cons_self
    obtain ⟨ls, hls, hlexemes⟩ := ih (fun d hd => h d (List.mem_cons_of_mem c hd)) (index + 1)
    have hread : ∀ ds, Token.read c (cs ++ CodePoint.lineFeed :: ds) =
        ((Token.read c (cs ++ [CodePoint.lineFeed])).1, 0) := by
      intro ds
      refine Token.read_of_text hcomplex hsimple fun _ => ?_
      rw [List.head?_append, List.head?_append]
      exact Iff.rfl
    refine ⟨⟨index, (Token.read c (cs ++ [CodePoint.lineFeed])).1⟩ :: ls, ?_, ?_⟩
    · intro l hl
      rcases List.mem_cons.1 hl with rfl | hl
      · exact Token.read_ne_instruction hcomplex hsimple htoggle _
      · exact hls l hl
    · intro ds
      have hlength : index + (c :: cs).length = index + 1 + cs.length := by
        rw [List.length_cons]
        omega
      have hfirst : lexemesFrom 0 index (c :: (cs ++ CodePoint.lineFeed :: ds)) =
          ⟨index, (Token.read c (cs ++ [CodePoint.lineFeed])).1⟩ ::
            lexemesFrom 0 (index + 1) (cs ++ CodePoint.lineFeed :: ds) := by
        rw [lexemesFrom, hread]
      rw [List.cons_append, hfirst, hlexemes, hlength, List.cons_append]

/-- The tokens of a text without instructions, of the line feed after it, and of what
    comes then. -/
theorem lexemes_paragraph {cs : List Nat} (h : NoInstructions cs) :
    ∃ ls : List Lexeme, (∀ l ∈ ls, ∀ i, l.token ≠ .instruction i) ∧ ∀ ds,
      lexemes (cs ++ CodePoint.lineFeed :: ds) =
        ls ++ ⟨cs.length, .newline CodePoint.lineFeed⟩ ::
          (lexemes ds).map (Lexeme.reindex (· + (cs.length + 1))) := by
  obtain ⟨ls, hls, hlexemes⟩ := lexemesFrom_paragraph h 0
  refine ⟨ls, hls, ?_⟩
  intro ds
  rw [lexemes, hlexemes, Nat.zero_add, lexemesFrom_eq_map]

namespace LayoutState

variable {job : Job} {s t : LayoutState}

/-! ### Edges of an empty line -/

/-- The states differ at most in the edges of a line on which nothing is yet. -/
def Alike (s t : LayoutState) : Prop :=
  t = s ∨ s.lineIsEmpty = true ∧ ∃ left pen, t = { s with lineLeft := left, penX := pen }

theorem Alike.of_eq (h : t = s) : Alike s t := Or.inl h

theorem Alike.map {f : LayoutState → LayoutState} (h : Alike s t)
    (hf : ∀ left pen, f { s with lineLeft := left, penX := pen } =
      { f s with lineLeft := left, penX := pen })
    (hempty : s.lineIsEmpty = true → (f s).lineIsEmpty = true) : Alike (f s) (f t) := by
  rcases h with rfl | ⟨he, left, pen, rfl⟩
  · exact .of_eq rfl
  · exact Or.inr ⟨hempty he, left, pen, hf left pen⟩

theorem Alike.beginLine (h : Alike s t) : t.beginLine job = s.beginLine job := by
  rcases h with rfl | ⟨he, left, pen, rfl⟩
  · rfl
  · simp only [lineIsEmpty, Bool.and_eq_true, Bool.not_eq_true'] at he
    simp only [LayoutState.beginLine, he.1]
    rfl

theorem Alike.pushMark (h : Alike s t) (code : Nat) (kind : MarkKind) (advance : Int)
    (index : Nat) :
    t.pushMark job code kind advance index = s.pushMark job code kind advance index := by
  simp only [LayoutState.pushMark, h.beginLine]

theorem Alike.addMark (h : Alike s t) (code : Nat) (kind : MarkKind) (advance : Int)
    (index : Nat) :
    Alike (s.addMark job code kind advance index) (t.addMark job code kind advance index) := by
  refine .of_eq ?_
  simp only [LayoutState.addMark, h.pushMark]

theorem Alike.place (h : Alike s t) (c index : Nat) :
    Alike (s.place job c index) (t.place job c index) := by
  refine .of_eq ?_
  simp only [LayoutState.place, h.beginLine]

theorem Alike.newline (h : Alike s t) (c index : Nat) :
    Alike (s.newline job c index) (t.newline job c index) := by
  refine .of_eq ?_
  simp only [LayoutState.newline, h.pushMark]

theorem Alike.table (h : Alike s t) : t.table = s.table := by
  rcases h with rfl | ⟨-, left, pen, rfl⟩ <;> rfl

theorem Alike.endRow (h : Alike s t) : Alike (s.endRow job) (t.endRow job) := by
  simp only [LayoutState.endRow, h.table, h.beginLine]
  split
  · exact .of_eq rfl
  · exact h

theorem Alike.nextCell (h : Alike s t) : Alike (s.nextCell job) (t.nextCell job) := by
  rcases h with rfl | ⟨he, left, pen, rfl⟩
  · exact .of_eq rfl
  · have hstarted : s.lineStarted = false := by
      simp only [lineIsEmpty, Bool.and_eq_true, Bool.not_eq_true'] at he
      exact he.1
    cases htable : s.table with
    | none =>
      simp only [LayoutState.nextCell, htable]
      exact Or.inr ⟨he, left, pen, htable ▸ rfl⟩
    | some table =>
      refine .of_eq ?_
      simp only [LayoutState.nextCell, htable, LayoutState.beginLine, hstarted]
      rfl

/-- A line is set only if there is something on it. -/
theorem Alike.finishLine (h : Alike s t) (reason : LineEnd) :
    Alike (s.finishLine job reason) (t.finishLine job reason) := by
  rcases h with rfl | ⟨he, left, pen, rfl⟩
  · exact .of_eq rfl
  · have he' : ({ s with lineLeft := left, penX := pen } : LayoutState).lineIsEmpty = true := he
    simp only [LayoutState.finishLine, if_pos he, if_pos he']
    exact Or.inr ⟨he, left, pen, rfl⟩

theorem Alike.beginTable (h : Alike s t) (table : Table) :
    Alike (s.beginTable job table) (t.beginTable job table) :=
  (h.finishLine (.newline false)).map (f := fun s => { s with table := some table })
    (fun _ _ => rfl) id

theorem Alike.endTable (h : Alike s t) : Alike (s.endTable job) (t.endTable job) := by
  simp only [LayoutState.endTable, h.table]
  split
  · refine (h.finishLine .row).map
      (f := fun s => { s with table := none, lineStarted := false }) (fun _ _ => rfl) ?_
    intro he
    simp only [lineIsEmpty, Bool.and_eq_true] at he ⊢
    exact ⟨rfl, he.2⟩
  · exact h

theorem Alike.switchFont (h : Alike s t) : Alike (s.switchFont job) (t.switchFont job) := by
  refine h.map ?_ ?_
  · intro left pen
    have hwanted : wantedFont job { s with lineLeft := left, penX := pen } = s.wantedFont job := rfl
    simp only [LayoutState.switchFont, hwanted]
    cases job.printer.fonts.get? (s.wantedFont job) with
    | none => rfl
    | some font =>
      simp only [Option.elim_some, useFont]
      split <;> rfl
  · intro he
    simp only [LayoutState.switchFont]
    cases job.printer.fonts.get? (s.wantedFont job) with
    | none => exact he
    | some font =>
      simp only [Option.elim_some, useFont]
      split <;> exact he

theorem Alike.switchFont_format (h : Alike s t) (f : Format → Format) :
    Alike ({ s with format := f s.format }.switchFont job)
      ({ t with format := f t.format }.switchFont job) :=
  (h.map (f := fun s => { s with format := f s.format }) (fun _ _ => rfl) id).switchFont

theorem Alike.applyLength (h : Alike s t) (index : Nat) (target : LengthTarget)
    (l : Option Length) :
    Alike (s.applyLength job index target l) (t.applyLength job index target l) := by
  have hsame : t.font = s.font ∧ t.wrapWidth = s.wrapWidth := by
    rcases h with rfl | ⟨-, left, pen, rfl⟩ <;> exact ⟨rfl, rfl⟩
  cases target with
  | horizontalSpace =>
    cases l with
    | none => exact h
    | some l =>
      simp only [LayoutState.applyLength, hsame, Option.elim_some, placeSpace]
      exact h.addMark _ _ _ _
  | verticalSpace =>
    cases l with
    | none => exact h
    | some l =>
      rcases h with rfl | ⟨he, left, pen, rfl⟩
      · exact .of_eq rfl
      · have he' : ({ s with lineLeft := left, penX := pen } : LayoutState).lineIsEmpty = true := he
        simp only [LayoutState.applyLength, Option.elim_some, addVerticalSpace, if_pos he, if_pos he']
        exact Or.inr ⟨he, left, pen, rfl⟩
  | _ => exact h.map (f := fun s => s.applyLength job index _ l) (fun _ _ => rfl) id

theorem Alike.placeImage (h : Alike s t) (i : ImageSetting) (index : Nat) :
    Alike (s.placeImage job i index) (t.placeImage job i index) := by
  have hmark : t.imageMark i = s.imageMark i := by
    rcases h with rfl | ⟨-, left, pen, rfl⟩ <;> rfl
  simp only [LayoutState.placeImage, hmark]
  cases job.printer.images.get? i.index.val with
  | none => exact h
  | some image => exact h.addMark _ _ _ _

theorem Alike.applySetting (h : Alike s t) (index : Nat) (setting : Setting) :
    Alike (s.applySetting job index setting) (t.applySetting job index setting) := by
  cases setting with
  | length target l => exact h.applyLength index target l
  | image i => exact h.placeImage i index
  | font id =>
    exact h.switchFont_format ({ · with font := id.elim job.printer.defaultFont Fin.val })
  | beginTable border width columns =>
    have htable : t.newTable job border width columns = s.newTable job border width columns := by
      rcases h with rfl | ⟨-, left, pen, rfl⟩ <;> rfl
    simp only [LayoutState.applySetting, htable]
    exact h.beginTable _
  | addTabStop stop position =>
    cases position <;> exact h.map (f := fun s => s.applySetting job index _) (fun _ _ => rfl) id
  | _ => exact h.map (f := fun s => s.applySetting job index _) (fun _ _ => rfl) id

theorem Alike.applySwitch (h : Alike s t) (w : Switch) :
    Alike (s.applySwitch job w) (t.applySwitch job w) := by
  cases w with
  | resetFormatting => exact h.switchFont_format (·.reset job.printer.defaultFont)
  | script kind => exact h.switchFont_format ({ · with script := kind })
  | endTable => exact h.endTable
  | _ => exact h.map (f := fun s => s.applySwitch job _) (fun _ _ => rfl) id

theorem Alike.applyToggle (h : Alike s t) (toggle : Toggle) :
    Alike (s.applyToggle job toggle) (t.applyToggle job toggle) := by
  cases toggle with
  | startSelection => exact h.map (f := fun s => s.startSelection job) (fun _ _ => rfl) id
  | endSelection => exact h.map (f := fun s => s.endSelection) (fun _ _ => rfl) id
  | _ => exact h.switchFont_format ({ · with font := FontRole.id _ })

theorem Alike.step (h : Alike s t) (l : Lexeme) : Alike (s.step job l) (t.step job l) := by
  obtain ⟨index, token⟩ := l
  cases token with
  | text c => exact h.place c index
  | newline c => exact h.newline c index
  | placeholder =>
    have hwidth : t.placeholder = s.placeholder := by
      rcases h with rfl | ⟨-, left, pen, rfl⟩ <;> rfl
    simp only [LayoutState.step, placePlaceholder, hwidth]
    exact h.addMark _ _ _ _
  | row => exact h.endRow
  | cell => exact h.nextCell
  | nothing => exact h
  | instruction i =>
    cases i with
    | toggle toggle => exact h.applyToggle toggle
    | switch w => exact h.applySwitch w
    | setting setting => exact h.applySetting index setting

theorem Alike.run (h : Alike s t) (ls : List Lexeme) : Alike (s.run job ls) (t.run job ls) := by
  induction ls generalizing s t with
  | nil => exact h
  | cons l ls ih => exact ih (h.step l)

theorem Alike.finish (h : Alike s t) (total : Nat) : t.finish job total = s.finish job total := by
  have hpush : t.pushMark job 0 .textEnd 0 total = s.pushMark job 0 .textEnd 0 total :=
    h.pushMark 0 .textEnd 0 total
  rcases h with rfl | ⟨-, left, pen, rfl⟩
  · rfl
  · simp only [LayoutState.finish, hpush]
    rfl

/-! ### After a line feed -/

/-- Nothing but marks and rules has been put on the lines. -/
structure Bare (s : LayoutState) : Prop where
  selections : s.selections = []
  regions : s.regions = []
  table : s.table = none
  lines : ∀ l ∈ s.lines.toList, l.regions = []

theorem bare_initial (job : Job) (font : Font) : (initial job font).Bare :=
  ⟨rfl, rfl, rfl, fun _ hl => (nomatch hl)⟩

theorem Bare.congr (h : s.Bare) (hsel : t.selections = s.selections) (hreg : t.regions = s.regions)
    (htable : t.table = s.table) (hlines : t.lines = s.lines) : t.Bare where
  selections := hsel.trans h.selections
  regions := hreg.trans h.regions
  table := htable.trans h.table
  lines := hlines ▸ h.lines

theorem Bare.pushMark (h : s.Bare) (code : Nat) (kind : MarkKind) (advance : Int) (index : Nat) :
    (s.pushMark job code kind advance index).Bare := by
  obtain ⟨hlines, -, hsel, hreg, htable, -⟩ := pushMark_frame job s code kind advance index
  exact h.congr hsel hreg htable hlines

theorem Bare.commit (h : s.Bare) (content : Nat) (reason : LineEnd) :
    (s.commit job content reason).Bare := by
  obtain ⟨-, hlines, -, -, -, hsel, hreg, htable⟩ := commit_frame job s content reason
  refine ⟨?_, ?_, ?_, ?_⟩
  · rw [hsel, h.selections, List.filterMap_nil]
  · rw [hreg, h.regions, List.filterMap_nil]
  · rw [htable, h.table, Option.map_none, ite_self]
  · intro l hl
    rw [hlines, Array.toList_push] at hl
    rcases List.mem_append.1 hl with hl | hl
    · exact h.lines l hl
    · rw [List.mem_singleton.1 hl]
      simp only [SetLine.line, SetLine.regions, h.regions, List.reverse_nil, List.filterMap_nil]

theorem Bare.addMark (h : s.Bare) (code : Nat) (kind : MarkKind) (advance : Int) (index : Nat) :
    (s.addMark job code kind advance index).Bare := by
  have hpush : (s.pushMark job code kind advance index).Bare := h.pushMark code kind advance index
  simp only [LayoutState.addMark, checkWrap]
  split
  · exact hpush.commit _ .wrap
  · exact hpush

theorem Bare.noteBreak (h : s.Bare) (p : Bool) : (s.noteBreak p).Bare := by
  cases p <;> exact h.congr rfl rfl rfl rfl

theorem Bare.place (h : s.Bare) (c index : Nat) : (s.place job c index).Bare := by
  obtain ⟨-, hlines, hsel, hreg, htable⟩ := beforeMark_frame job s c
  have hbefore : (beforeMark job s c).Bare := h.congr hsel hreg htable hlines
  rw [place_eq]
  exact (hbefore.addMark c _ _ index).noteBreak _

theorem Bare.step (h : s.Bare) {l : Lexeme} (hl : ∀ i, l.token ≠ .instruction i) :
    (s.step job l).Bare := by
  obtain ⟨index, token⟩ := l
  cases token with
  | text c => exact h.place c index
  | newline c => exact (h.pushMark c .lineEnd 0 index).commit _ _
  | placeholder => exact h.addMark _ _ _ _
  | row =>
    simp only [LayoutState.step, LayoutState.endRow, h.table]
    exact h
  | cell =>
    simp only [LayoutState.step, LayoutState.nextCell, h.table]
    exact h
  | nothing => exact h
  | instruction i => exact absurd rfl (hl i)

/-- The mark that ends a line has no rule. -/
theorem pushMark_end (job : Job) (s : LayoutState) (code : Nat) {kind : MarkKind}
    (hkind : kind = .lineEnd ∨ kind = .textEnd) (advance : Int) (index : Nat) :
    (s.pushMark job code kind advance index).underline = s.underline.close s.marks.size ∧
      (s.pushMark job code kind advance index).strike = s.strike.close s.marks.size := by
  have hbegin := sameLine_beginLine job s
  have hbare : ∀ format shown descends, covers format shown code kind descends = false := by
    intro format shown descends
    rcases hkind with rfl | rfl <;> exact Bool.and_false _
  simp only [LayoutState.pushMark, decorate, hbare, Bool.false_eq_true, if_false,
    Decorations.update, hbegin.underline, hbegin.strike, hbegin.marks]
  exact ⟨trivial, trivial⟩

end LayoutState

/-- Rules that have been closed do not go on after a cut. -/
theorem Decorations.Coherent.carry_close {n : Nat} {d : Decorations} (h : d.Coherent n) :
    (d.close n).carry (n + 1) = .empty := by
  have hspans : (d.close n).spans.filterMap (Span.carry (n + 1)) = [] := by
    rw [List.filterMap_eq_nil_iff]
    intro r hr
    obtain ⟨start, stop, rule⟩ := r
    obtain ⟨hstart, hstop, -⟩ := h.close.within _ hr
    have hclosed := h.closed_close _ hr
    cases stop with
    | none => cases hclosed
    | some j =>
      have hj : j ≤ n + 1 := Nat.le_succ_of_le (hstop j rfl)
      have hpast : Span.carry.past (n + 1) ⟨start, some j, rule⟩ = none := by
        simp only [Span.carry.past, Option.any_some, decide_eq_true hj, if_true]
      cases start with
      | continued => exact hpast
      | glyph i =>
        have hi := hstart i rfl
        rw [← hpast]
        exact if_neg (by omega)
  simp only [Decorations.carry, hspans, openAt_close]
  rfl

namespace LayoutState

variable {job : Job} {s t : LayoutState}

/-- A line that is wholly set leaves an empty one below it. -/
theorem commitAll_newline (job : Job) (s : LayoutState) (paragraph : Bool) :
    ∃ top line, s.commitAll job (.newline paragraph) =
      { s with
        marks := #[], lineStarted := false, paragraph := paragraph, top := top, wrapped := none,
        lastBreak := none, prev := none, verticalSpace := 0,
        underline := s.underline.carry s.marks.size, strike := s.strike.carry s.marks.size,
        selections := s.selections.filterMap (Span.carry s.marks.size),
        regions := s.regions.filterMap (Span.carry s.marks.size), lines := s.lines.push line } := by
  have hdrop : s.marks.toList.drop s.marks.size = [] := by
    rw [← Array.length_toList, List.drop_length]
  refine ⟨(s.commitAll job (.newline paragraph)).top,
    (s.setLine job s.marks.size s.marks.size (.newline paragraph)).line s job.printer.images, ?_⟩
  simp only [commitAll, commit, cut, carryMarks, nextLine, carrySpans, hdrop, reduceCtorEq, if_false,
    false_and]
  cases paragraph <;> rfl

theorem lineIsEmpty_initial (job : Job) (font : Font) : (initial job font).lineIsEmpty = true := rfl

/-- Where text without instructions has been taken since the beginning, a line feed leads to
    where another layout begins, at another place of the page and of the text. -/
theorem alike_newline {font : Font} (hstyle : SameStyle (initial job font) s) (hbare : s.Bare)
    (hcoherent : s.Coherent) (index later : Nat) :
    let t := s.newline job CodePoint.lineFeed index
    Alike ((initial { job with origin := ⟨job.origin.x, t.top⟩ } font).displace ⟨0, 0, later⟩ t.lines)
      t := by
  generalize hu : s.pushMark job CodePoint.lineFeed .lineEnd 0 index = u
  have hpushed : u.Bare := hu ▸ hbare.pushMark CodePoint.lineFeed .lineEnd 0 index
  have hsize : u.marks.size = s.marks.size + 1 := hu ▸ size_pushMark job s _ _ _ _
  have hlast : u.lastAdvance = 0 := by
    rw [← hu]
    rfl
  obtain ⟨hclosed, hclosed'⟩ := pushMark_end job s CodePoint.lineFeed (Or.inl rfl) 0 index
  rw [hu] at hclosed hclosed'
  have hstyle : SameStyle (initial job font) u :=
    hu ▸ hstyle.trans (sameStyle_pushMark job s _ _ _ _)
  obtain ⟨top, line, hcommit⟩ := commitAll_newline job u true
  rw [hclosed, hclosed', hsize, hcoherent.underline.carry_close, hcoherent.strike.carry_close,
    hpushed.selections, hpushed.regions, List.filterMap_nil, List.filterMap_nil] at hcommit
  have ht : s.newline job CodePoint.lineFeed index = u.commitAll job (.newline true) := by
    simp only [LayoutState.newline, hu, hpushed.table]
    rfl
  rw [ht, hcommit]
  refine Or.inr ⟨?_, u.lineLeft, u.penX, ?_⟩
  · rw [lineIsEmpty_displace, lineIsEmpty_initial]
  · simp only [displace, initial, hstyle.format, hstyle.fontId, hstyle.font, hstyle.wrapOverride,
      hstyle.wrapWidth, hstyle.wordWrap, hstyle.breaking, hstyle.placeholder, hlast, hpushed.table,
      Array.map_empty, Array.append_empty, Int.add_zero, Option.map_none]

theorem bare_run (job : Job) (font : Font) {ls : List Lexeme}
    (hls : ∀ l ∈ ls, ∀ i, l.token ≠ .instruction i) :
    SameStyle (initial job font) ((initial job font).run job ls) ∧
      ((initial job font).run job ls).Bare := by
  have hrun : ∀ s : LayoutState, SameStyle (initial job font) s → s.Bare →
      SameStyle (initial job font) (s.run job ls) ∧ (s.run job ls).Bare := by
    induction ls with
    | nil => exact fun s hstyle hbare => ⟨hstyle, hbare⟩
    | cons l ls ih =>
      intro s hstyle hbare
      have hl := hls l List.mem_cons_self
      exact ih (fun k hk => hls k (List.mem_cons_of_mem l hk)) (s.step job l)
        (hstyle.trans (sameStyle_step job s hl)) (hbare.step hl)
  exact hrun _ (.refl _) (bare_initial job font)

end LayoutState

/-- The end of the text alone is reported where there is no text. -/
theorem Job.layoutWith_nil (job : Job) (font : Font) :
    ∃ last : Glyph, job.layoutWith font [] = [⟨[], [.glyph last], [], []⟩] ∧
      last.lineTop = job.origin.y ∧ last.lineEnd = true ∧ last.code = none ∧ last.index = 0 := by
  generalize hu : (LayoutState.initial job font).pushMark job 0 .textEnd 0 0 = u
  have hline : job.layoutWith font [] = [(u.setLine job 1 1 .text).line u job.printer.images] := by
    rw [← hu]
    rfl
  obtain ⟨hunder, hstrike⟩ :=
    LayoutState.pushMark_end job (LayoutState.initial job font) 0 (Or.inr rfl) 0 0
  have hrules : (u.setLine job 1 1 .text).rules u = [] := by
    rw [← hu]
    simp only [SetLine.rules, hunder, hstrike]
    rfl
  refine ⟨(u.setLine job 1 1 .text).glyph false
    ((LayoutState.newMark job (LayoutState.initial job font) 0 .textEnd 0 0).shift
      (u.alignShift job u.marks.toList)), ?_, ?_, rfl, rfl, rfl⟩
  · rw [hline, SetLine.line, hrules, ← hu]
    rfl
  · rw [← hu]
    rfl

/-- After a text without instructions and a line feed come the lines of what follows, set
    from some place below on. -/
theorem Job.layoutWith_paragraphs (job : Job) (font : Font) {cs : List Nat}
    (h : NoInstructions cs) :
    ∃ (above : List Line) (top : Int), (∀ l ∈ above, l.regions = []) ∧
      ∀ ds, job.layoutWith font (cs ++ CodePoint.lineFeed :: ds) =
        above ++ (({ job with origin := ⟨job.origin.x, top⟩ } : Job).layoutWith font ds).map
          (Line.displace ⟨0, 0, cs.length + 1⟩) := by
  obtain ⟨ls, hls, hlexemes⟩ := lexemes_paragraph h
  obtain ⟨hstyle, hbare⟩ := LayoutState.bare_run job font hls
  have hcoherent := LayoutState.coherent_run job font ls
  generalize hs : (LayoutState.initial job font).run job ls = s at hstyle hbare hcoherent
  have halike := LayoutState.alike_newline hstyle hbare hcoherent cs.length (cs.length + 1)
  have hafter : (s.newline job CodePoint.lineFeed cs.length).Bare :=
    hbare.step (l := ⟨cs.length, .newline CodePoint.lineFeed⟩) fun _ => Token.noConfusion
  have hlayout : ∀ ds, job.layoutWith font (cs ++ CodePoint.lineFeed :: ds) =
      ((s.newline job CodePoint.lineFeed cs.length).run job
        ((lexemes ds).map (Lexeme.reindex (· + (cs.length + 1))))).finish job
          (ds.length + (cs.length + 1)) := by
    intro ds
    have hlength : (cs ++ CodePoint.lineFeed :: ds).length = ds.length + (cs.length + 1) := by
      rw [List.length_append, List.length_cons]
      omega
    rw [layoutWith, hlexemes, hlength, LayoutState.run, List.foldl_append, List.foldl_cons]
    simp only [LayoutState.run] at hs
    rw [hs]
    rfl
  generalize s.newline job CodePoint.lineFeed cs.length = t at halike hafter hlayout
  refine ⟨t.lines.toList, t.top, hafter.lines, ?_⟩
  intro ds
  -- The layout that begins below, displaced in the text alone, has the same job.
  have hjob : job = Job.displace ⟨0, 0, cs.length + 1⟩ job.origin.y
      { job with origin := ⟨job.origin.x, t.top⟩ } := by
    simp only [Job.displace, Int.add_zero]
  have hrun := LayoutState.run_displace ⟨0, 0, cs.length + 1⟩ job.origin.y t.lines
    { job with origin := ⟨job.origin.x, t.top⟩ }
    (LayoutState.initial { job with origin := ⟨job.origin.x, t.top⟩ } font) (lexemes ds)
  have hfinish := LayoutState.finish_displace ⟨0, 0, cs.length + 1⟩ job.origin.y t.lines
    { job with origin := ⟨job.origin.x, t.top⟩ }
    ((LayoutState.initial { job with origin := ⟨job.origin.x, t.top⟩ } font).run
      { job with origin := ⟨job.origin.x, t.top⟩ } (lexemes ds)) ds.length
  rw [← hjob] at hrun hfinish
  rw [hlayout, (halike.run _).finish]
  rw [← hrun] at hfinish
  exact hfinish

/-! ### Items and regions -/

/-- A layout that is never stopped gives the items and the regions of its lines. -/
theorem Printer.layout_eq {p : Printer} {font : Font} (h : p.fonts.get? p.defaultFont = some font)
    (markup : List UInt8) (origin : Point) (width : Int) :
    p.layout markup origin width none =
      .ok (((Job.mk p origin width).layoutWith font (Codec.decode markup)).flatMap Line.items,
        ((Job.mk p origin width).layoutWith font (Codec.decode markup)).flatMap Line.regions) := by
  have hrecord : Query.record none = fun s i =>
      .more (i :: s.1, s.2 + (i.glyph?.elim 0 fun _ => 1)) := by
    funext s i
    cases i <;> rfl
  have hitems : ∀ (items : List Item) (s : List Item × Nat),
      (items.foldl (fun s i => (i :: s.1, s.2 + (i.glyph?.elim 0 fun _ => 1))) s).1.reverse =
        s.1.reverse ++ items := by
    intro items
    induction items with
    | nil => exact fun s => (List.append_nil _).symm
    | cons i items ih =>
      intro s
      rw [List.foldl_cons, ih, List.reverse_cons, List.append_assoc, List.singleton_append]
  have hlayout : (Job.mk p origin width).layout markup =
      .ok ((Job.mk p origin width).layoutWith font (Codec.decode markup)) := Job.layout_eq h markup
  rw [layout, query, hlayout, hrecord]
  simp only [Except.map, Traversal.lines_of_more, hitems, List.reverse_nil, List.nil_append]

/-- **Paragraphs are laid out independently.**  A text without instructions and a line feed
    are laid out as they are without what follows, but for the end of the text; what
    follows is laid out as it is on its own, from where the last line begins, and `n` code
    points later.  No region is known of the text before it. -/
theorem Printer.layout_paragraphs {p : Printer} (h : p.fonts.contains p.defaultFont = true)
    {first : List UInt8} (hfirst : NoInstructions (Codec.decode first)) (rest : List UInt8)
    (origin : Point) (width : Int) :
    let n := (Codec.decode (first ++ [0x0A])).length
    ∃ (before items : List Item) (last : Glyph) (regions : List Region),
      p.layout (first ++ [0x0A]) origin width none = .ok (before ++ [.glyph last], []) ∧
      last.lineEnd = true ∧ last.code = none ∧ last.index = n ∧
      p.layout rest ⟨origin.x, last.lineTop⟩ width none = .ok (items, regions) ∧
      p.layout (first ++ 0x0A :: rest) origin width none =
        .ok (before ++ items.map (Item.reindex (· + n)), regions) := by
  intro n
  obtain ⟨font, hfont⟩ := (Registry.contains_iff p.fonts p.defaultFont).1 h
  have hdecode : ∀ bs, Codec.decode (first ++ 0x0A :: bs) =
      Codec.decode first ++ CodePoint.lineFeed :: Codec.decode bs :=
    Codec.decode_append (by decide) first
  have hn : n = (Codec.decode first).length + 1 := by
    simp only [n, hdecode, List.length_append]
    rfl
  obtain ⟨above, top, hregions, hlines⟩ :=
    Job.layoutWith_paragraphs ⟨p, origin, width⟩ font hfirst
  obtain ⟨last, hlast, htop, hend, hcode, hindex⟩ :=
    Job.layoutWith_nil ⟨p, ⟨origin.x, top⟩, width⟩ font
  have habove : above.flatMap Line.regions = [] := List.flatMap_eq_nil_iff.2 hregions
  have hitems : ∀ ls : List Line, (ls.map (Line.displace ⟨0, 0, n⟩)).flatMap Line.items =
      (ls.flatMap Line.items).map (Item.reindex (· + n)) := by
    intro ls
    have hitem : Item.displace ⟨0, 0, n⟩ = Item.reindex (· + n) :=
      (Item.displace_eq _).trans (Item.transfer_still _ n)
    simp only [List.flatMap_map, List.map_flatMap, Line.items_displace, hitem]
  have hregion : ∀ ls : List Line, (ls.map (Line.displace ⟨0, 0, n⟩)).flatMap Line.regions =
      ls.flatMap Line.regions := by
    intro ls
    have hregion := funext (Region.displace_still n)
    simp only [List.flatMap_map, Line.displace, hregion, List.map_id']
  have hstill : (last.displace ⟨0, 0, n⟩).lineTop = top := (Int.add_zero _).trans htop
  have hlater : (last.displace ⟨0, 0, n⟩).index = n := by
    simp only [Glyph.displace, hindex, Nat.zero_add]
  refine ⟨above.flatMap Line.items, _, last.displace ⟨0, 0, n⟩, _, ?_, hend, hcode, hlater,
    layout_eq hfont rest _ width, ?_⟩
  · rw [layout_eq hfont, hdecode, Codec.decode_nil, hlines, hlast, ← hn, List.flatMap_append,
      List.flatMap_append, habove]
    rfl
  · rw [layout_eq hfont, hdecode, hlines, ← hn, List.flatMap_append, List.flatMap_append, habove,
      hitems, hregion, List.nil_append, hstill]

/-- Two lines of text, and a bold letter on the third one. -/
theorem Printer.layout_paragraphs_boxes :
    ∃ (before items : List Item) (last : Glyph) (regions : List Region),
      boxes.layout [0x61, 0x20, 0x62, 0x0A] .zero 20 none = .ok (before ++ [.glyph last], []) ∧
      last.index = 4 ∧
      boxes.layout [0x0E, 0x63] ⟨0, last.lineTop⟩ 20 none = .ok (items, regions) ∧
      boxes.layout [0x61, 0x20, 0x62, 0x0A, 0x0E, 0x63] .zero 20 none =
        .ok (before ++ items.map (Item.reindex (· + 4)), regions) := by
  have hn : (Codec.decode [0x61, 0x20, 0x62, 0x0A]).length = 4 := by decide
  have htext : NoInstructions (Codec.decode [0x61, 0x20, 0x62]) := by decide
  have hfont : boxes.fonts.contains boxes.defaultFont = true := rfl
  obtain ⟨before, items, last, regions, hfirst, -, -, hindex, hrest, hboth⟩ :=
    layout_paragraphs hfont htext [0x0E, 0x63] .zero 20
  simp only [List.cons_append, List.nil_append, hn] at hfirst hindex hboth
  exact ⟨before, items, last, regions, hfirst, hindex, hrest, hboth⟩

end RichText
