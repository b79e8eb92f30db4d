/-
  RichText/Proofs/Layout/Indents.lean
  ===================================
  **Every line starts at its indent.**

  A line begins with a mark that is put at its left edge, since nothing before the pen kerns
  with it or is to be stood over, or with a mark that is carried there from a wrapped line.
  While text is set, the marks that wait therefore begin at the indent, and at the hanging
  indent too if the line is the first of a paragraph (`LayoutState.Begun`).

  Whether it is that is kept in the state, and can be told from the lines above as well
  (`FollowsParagraph`): nothing is above, or the line above ends with a newline after which a
  paragraph starts.  So wraps, line breaks and line separators give no hanging indent.  A
  carriage return before a line feed ends no line and is not reported.
-/
import RichText.Proofs.Layout.Paragraphs
import RichText.Proofs.Layout.Tabs
import RichText.Proofs.Layout.Tops

namespace RichText

open CodePoint (carriageReturn lineFeed paragraphSeparator startsParagraph)

/-! ### Texts with indents -/

/-- Both indents are set at the start, in one order or the other, and then there is text
    alone. -/
def IndentedText (cs : List Nat) (indent hanging : Option Length) : Prop :=
  ∃ i j text, (lexemes cs = ⟨i, .instruction (.setting (.length .indent indent))⟩ ::
      ⟨j, .instruction (.setting (.length .hangingIndent hanging))⟩ :: text ∨
    lexemes cs = ⟨i, .instruction (.setting (.length .hangingIndent hanging))⟩ ::
      ⟨j, .instruction (.setting (.length .indent indent))⟩ :: text) ∧
    ∀ l ∈ text, ∀ c, l.token ≠ .instruction c

/-- The markup of an author who asks for the indents and goes on with text is such a text. -/
theorem indentedText_ofCommands {text : List UInt8} (h : NoInstructions (Codec.decode text))
    (indent hanging : Option Length) :
    IndentedText (Codec.decode ((Markup.ofCommands [.length .indent indent,
      .length .hangingIndent hanging]).bytes ++ text)) indent hanging := by
  have hread : ∀ (target : LengthTarget) (l : Option Length) (index : Nat) (rest : List Nat),
      lexemesFrom 0 index ((Command.length target l).codePoints ++ rest) =
        ⟨index, .instruction (.setting (.length target l))⟩ ::
          lexemesFrom 0 (index + (Command.length target l).codePoints.length) rest := by
    intro target l
    have hcs : (Command.length target l).codePoints = (Setting.length target l).codePoints :=
      List.append_nil _
    rw [hcs]
    exact lexemesFrom_setting trivial
  have hlexemes := Command.decode_append
    [.length .indent indent, .length .hangingIndent hanging] text
  rw [List.flatMap_cons, List.flatMap_singleton, List.append_assoc] at hlexemes
  have hlexemes := congrArg lexemes hlexemes
  rw [lexemes, lexemes, hread, hread] at hlexemes
  refine ⟨_, _, _, Or.inl hlexemes, ?_⟩
  intro l hl c
  obtain ⟨n, d, rest, hdrop, rfl⟩ := exists_of_mem_lexemesFrom hl
  have hd : d ∈ Codec.decode text := by
    refine List.mem_of_mem_drop (i := n) ?_
    rw [hdrop]
    exact List.mem_cons_self
  obtain ⟨hcomplex, hsimple, htoggle⟩ := h d hd
  exact Token.read_ne_instruction hcomplex hsimple htoggle rest c

/-- The line at a position is the first one, or the one before it ends with a newline that ends
    a paragraph. -/
def FollowsParagraph (cs : List Nat) (lines : List Line) (k : Nat) : Prop :=
  k = 0 ∨ ∃ line g c, lines[k - 1]? = some line ∧ line.events.getLast? = some g ∧
    g.lineEnd = true ∧ cs[g.index]? = some c ∧
      (c = lineFeed ∨ c = carriageReturn ∨ c = paragraphSeparator)

theorem CodePoint.startsParagraph_iff {c : Nat} :
    startsParagraph c = true ↔ c = lineFeed ∨ c = carriageReturn ∨ c = paragraphSeparator := by
  simp only [startsParagraph, isNewline, Bool.and_eq_true, Bool.or_eq_true, beq_iff_eq, bne_iff_ne,
    lineFeed, carriageReturn, lineBreak, lineSeparator, paragraphSeparator]
  omega

/-- The lines above decide. -/
theorem followsParagraph_of_prefix {cs : List Nat} {lines all : List Line} (h : lines <+: all)
    {k : Nat} (hk : k ≤ lines.length) :
    FollowsParagraph cs lines k ↔ FollowsParagraph cs all k := by
  by_cases hzero : k = 0
  · exact iff_of_true (Or.inl hzero) (Or.inl hzero)
  · have hlt : k - 1 < lines.length := by omega
    have hsame : lines[k - 1]? = all[k - 1]? := by
      obtain ⟨below, rfl⟩ := h
      exact (List.getElem?_append_left hlt).symm
    rw [FollowsParagraph, FollowsParagraph, hsame]

/-- Of the line behind some others the last of these decides. -/
theorem followsParagraph_concat {cs : List Nat} {lines : List Line} {line : Line} :
    FollowsParagraph cs (lines ++ [line]) (lines.length + 1) ↔
      ∃ g c, line.events.getLast? = some g ∧ g.lineEnd = true ∧ cs[g.index]? = some c ∧
        startsParagraph c = true := by
  have hlast : (lines ++ [line])[lines.length + 1 - 1]? = some line := by
    rw [Nat.add_sub_cancel, List.getElem?_concat_length]
  simp only [FollowsParagraph, hlast, Nat.add_one_ne_zero, false_or, Option.some.injEq,
    CodePoint.startsParagraph_iff]
  constructor
  · rintro ⟨_, g, c, rfl, hg⟩
    exact ⟨g, c, hg⟩
  · rintro ⟨g, c, hg⟩
    exact ⟨line, g, c, rfl, hg⟩

/-- What is told of the glyphs of a line and of its marks alike is told in their order. -/
theorem SetLine.map_events {β : Type} {l : SetLine} {f : Glyph → β} {label : Mark → β}
    (hlabel : ∀ wrapped m, f (l.glyph wrapped m) = label m) (s : LayoutState)
    (images : Registry Image) : (l.line s images).events.map f = l.marks.map label := by
  have hglyph : ∀ wrapped, f ∘ l.glyph wrapped = label := fun wrapped => funext (hlabel wrapped)
  rw [events_line, List.map_append, List.map_map, List.map_map, hglyph, hglyph, ← List.map_append,
    List.take_append_drop]

namespace LayoutState

variable {job : Job} {font : Font} {cs : List Nat} {r s t u v : LayoutState} {l : Lexeme}
  {content : Nat} {reason : LineEnd}

/-! ### The start of a paragraph -/

theorem paragraph_beginLine (job : Job) (s : LayoutState) :
    (s.beginLine job).paragraph = s.paragraph := by
  simp only [beginLine]
  split <;> rfl

theorem paragraph_noteBreak (s : LayoutState) (p : Bool) :
    (s.noteBreak p).paragraph = s.paragraph := by
  cases p <;> rfl

theorem paragraph_pushMark (job : Job) (s : LayoutState) (code : Nat) (kind : MarkKind)
    (advance : Int) (index : Nat) :
    (s.pushMark job code kind advance index).paragraph = s.paragraph := paragraph_beginLine job s

theorem paragraph_beforeMark (job : Job) (s : LayoutState) (c : Nat) :
    (beforeMark job s c).paragraph = s.paragraph :=
  (paragraph_noteBreak _ _).trans (paragraph_beginLine job s)

theorem paragraph_carryMarks (job : Job) (s : LayoutState) (cut : Nat) :
    (s.carryMarks job cut).paragraph = s.paragraph := by
  simp only [carryMarks]
  split
  · rfl
  · exact paragraph_beginLine job s

/-- A paragraph starts after a newline that ends one. -/
theorem paragraph_commit (job : Job) (s : LayoutState) (content : Nat) (reason : LineEnd) :
    (s.commit job content reason).paragraph = (reason == .newline true) := by
  unfold commit
  cases reason with
  | wrap | newline _ | row | text => exact paragraph_carryMarks job _ _

/-! ### The start of a line -/

/-- Where lines start while the formatting is that of a state. -/
def lineStart (job : Job) (r : LayoutState) (paragraph : Bool) : Int :=
  job.origin.x + r.format.indent + if paragraph then r.format.hangingIndent else 0

theorem leftEdge_eq_lineStart (htable : s.table = none) (hformat : s.format = r.format) :
    s.leftEdge job = lineStart job r s.paragraph := by
  simp only [leftEdge, htable, hformat, lineStart]

/-- What has been put on the line begins at its indent, and whether the line is the first of a
    paragraph can be told from the lines above. -/
structure Begun (job : Job) (cs : List Nat) (r s : LayoutState) : Prop where
  style : SameStyle r s
  table : s.table = none
  offset : ∀ m ∈ s.marks.toList, m.offset.x = 0
  first : ∀ m, s.marks.toList.head? = some m → m.x = lineStart job r s.paragraph
  paragraph : s.paragraph = true ↔ FollowsParagraph cs s.lines.toList s.lines.size
  wrapped : ∀ w, s.wrapped = some w →
    ∃ before above, s.lines.toList = before ++ [above] ∧ above.BeginsAt w.top

/-- Between two tokens the line is open, and a line without marks has not been started. -/
structure Indented (job : Job) (cs : List Nat) (r s : LayoutState) : Prop
    extends Begun job cs r s where
  empty : s.marks.toList = [] → s.lineStarted = false ∧ s.prev = none
  ends : ∀ m ∈ s.marks.toList, m.kind.isEnd = false

/-- With nothing before it the pen is at the left edge, also for a combining mark. -/
theorem penX_beforeMark (hstarted : s.lineStarted = false) (hprev : s.prev = none) (c : Nat) :
    (beforeMark job s c).penX = s.leftEdge job := by
  have hroom : ∀ u : LayoutState, u.prev = none → u.roomBefore c = 0 := by
    intro u hu
    simp only [roomBefore, hu]
    exact ite_self 0
  have hbegin : s.beginLine job =
      { s with lineStarted := true, lineLeft := s.leftEdge job, penX := s.leftEdge job } :=
    if_neg (Bool.eq_false_iff.1 hstarted)
  have hroom := hroom ((s.beginLine job).noteBreak (CodePoint.isBreaking c)) (by
    rw [hbegin]
    cases CodePoint.isBreaking c <;> exact hprev)
  change ((s.beginLine job).noteBreak (CodePoint.isBreaking c)).penX + _ = _
  rw [hroom, Int.add_zero, hbegin]
  cases CodePoint.isBreaking c <;> rfl

/-- A mark that is put on the line begins it at its indent, or stands behind others. -/
theorem Indented.push (h : Indented job cs r s) (hr : r.format.letterOffsetX = none) {code : Nat}
    (hv : v = s ∨ v = beforeMark job s code) (kind : MarkKind) (advance : Int) (index : Nat) :
    Begun job cs r (v.pushMark job code kind advance index) := by
  have hframe : SameStyle s v ∧ SameRows s v ∧ v.marks = s.marks ∧ v.table = s.table ∧
      v.paragraph = s.paragraph := by
    rcases hv with rfl | rfl
    · exact ⟨.refl _, {}, rfl, rfl, rfl⟩
    · obtain ⟨hmarks, -, -, -, htable⟩ := beforeMark_frame job s code
      exact ⟨sameStyle_beforeMark job s code, sameRows_beforeMark job s code, hmarks, htable,
        paragraph_beforeMark job s code⟩
  obtain ⟨hstyle, hrows, hmarks, htable, hparagraph⟩ := hframe
  have hrows' := hrows.trans (sameRows_pushMark job v code kind advance index)
  have hbegun := hstyle.trans (sameStyle_beginLine job v)
  have hlist : (v.pushMark job code kind advance index).marks.toList =
      s.marks.toList ++ [newMark job v code kind advance index] := by
    rw [toList_pushMark, hmarks]
  have hparagraph' : (v.pushMark job code kind advance index).paragraph = s.paragraph :=
    (paragraph_pushMark job v code kind advance index).trans hparagraph
  refine ⟨(h.style.trans hstyle).trans (sameStyle_pushMark job v code kind advance index), ?_, ?_,
    ?_, ?_, ?_⟩
  · rw [table_pushMark, htable, h.table]
  · intro m hm
    rw [hlist] at hm
    rcases List.mem_append.1 hm with hm | hm
    · exact h.offset m hm
    · obtain rfl := List.mem_singleton.1 hm
      refine letterOffset_of_unset ?_
      rw [hbegun.format, h.style.format, hr]
  · intro m hm
    rw [hparagraph']
    rw [hlist] at hm
    cases hempty : s.marks.toList with
    | cons k ks =>
      rw [hempty] at hm
      exact h.first m (by rw [hempty]; exact hm)
    | nil =>
      rw [hempty] at hm
      obtain rfl := Option.some.inj hm
      obtain ⟨hstarted, hprev⟩ := h.empty hempty
      rw [← leftEdge_eq_lineStart h.table h.style.format]
      rcases hv with rfl | rfl
      · change (LayoutState.beginLine job _).penX = _
        rw [beginLine, if_neg (Bool.eq_false_iff.1 hstarted)]
      · change ((beforeMark job s code).beginLine job).penX = _
        rw [beginLine_beforeMark, penX_beforeMark hstarted hprev]
  · rw [hparagraph', hrows'.lines]
    exact h.paragraph
  · rw [hrows'.wrapped, hrows'.lines]
    exact h.wrapped

/-- What is carried over goes to the indent of the next line. -/
theorem Begun.commit (h : Begun job cs r u) (hreason : reason ≠ .row)
    (hends : ∀ m ∈ u.marks.toList.drop (u.cut content reason), m.kind.isEnd = false)
    (hparagraph : (reason == .newline true) = true ↔ ∃ g c,
      (u.committedLine job content reason).events.getLast? = some g ∧ g.lineEnd = true ∧
        cs[g.index]? = some c ∧ startsParagraph c = true) :
    Indented job cs r (u.commit job content reason) := by
  obtain ⟨-, hlines, -, -, -, -, -, htable⟩ := commit_frame job u content reason
  have hstyle := h.style.trans (sameStyle_commit job u content reason)
  have htable : (u.commit job content reason).table = none := by
    rw [htable, if_neg hreason, h.table]
  have hlines : (u.commit job content reason).lines.toList = u.lines.toList ++
      [u.committedLine job content reason] := by
    rw [hlines, Array.toList_push]
    rfl
  have hfollows : (u.commit job content reason).paragraph = true ↔ FollowsParagraph cs
      (u.commit job content reason).lines.toList (u.commit job content reason).lines.size := by
    rw [paragraph_commit, hparagraph, ← Array.length_toList, hlines, List.length_append,
      List.length_singleton, followsParagraph_concat]
  have hwrapped : ∀ w, (u.commit job content reason).wrapped = some w → ∃ before above,
      (u.commit job content reason).lines.toList = before ++ [above] ∧ above.BeginsAt w.top := by
    intro w hw
    obtain ⟨-, -, htop, -⟩ := (startsBelow_commit job u content reason).wrapped w hw
    exact ⟨_, _, hlines, htop ▸ committedLine_beginsAt job u content reason⟩
  cases hrest : u.marks.toList.drop (u.cut content reason) with
  | nil =>
    obtain ⟨hmarks, hstarted, hprev⟩ := commit_all job hrest
    refine ⟨⟨hstyle, htable, ?_, ?_, hfollows, hwrapped⟩, fun _ => ⟨hstarted, hprev⟩, ?_⟩ <;>
      intro m hm <;> rw [hmarks] at hm <;> cases hm
  | cons first rest =>
    have hleft : ∀ v, SameSettings u v → v.paragraph = (reason == .newline true) →
        v.leftEdge job = lineStart job r (reason == .newline true) := by
      intro v hv hpar
      rw [← hpar]
      exact leftEdge_eq_lineStart (hv.table.trans h.table) (hv.format.trans h.style.format)
    obtain ⟨hmarks, -⟩ := commit_rest hleft hreason hrest
    have hcarried : ∀ m ∈ (u.commit job content reason).marks.toList,
        ∃ k ∈ u.marks.toList.drop (u.cut content reason), m.offset = k.offset ∧
          m.kind = k.kind := by
      intro m hm
      rw [hmarks] at hm
      obtain ⟨k, hk, rfl⟩ := List.mem_map.1 hm
      exact ⟨k, hrest ▸ hk, rfl, rfl⟩
    refine ⟨⟨hstyle, htable, ?_, ?_, hfollows, hwrapped⟩, ?_, ?_⟩
    · intro m hm
      obtain ⟨k, hk, hoffset, -⟩ := hcarried m hm
      rw [hoffset]
      exact h.offset k (List.mem_of_mem_drop hk)
    · intro m hm
      rw [hmarks] at hm
      obtain rfl := Option.some.inj hm
      rw [paragraph_commit]
      simp only [Mark.shift]
      omega
    · intro hempty
      rw [hmarks] at hempty
      cases hempty
    · intro m hm
      obtain ⟨k, hk, -, hkind⟩ := hcarried m hm
      rw [hkind]
      exact hends k hk

/-! ### Lines and their ends -/

/-- The glyphs of a line end it as its marks do. -/
theorem map_events_committed (job : Job) (u : LayoutState) (content : Nat) (reason : LineEnd) :
    (u.committedLine job content reason).events.map (fun g => (g.index, g.lineEnd)) =
      (u.marks.toList.take (u.cut content reason)).map fun m => (m.index, m.kind.isEnd) := by
  have hlabel : ∀ wrapped m, (m.index,
      ((u.setLine job content (u.cut content reason) reason).glyph wrapped m).lineEnd) =
        (m.index, m.kind.isEnd) := fun _ _ => rfl
  rw [committedLine, SetLine.map_events (f := fun g => (g.index, g.lineEnd)) hlabel]
  exact map_setLine (fun _ _ => rfl) job u content _ reason

/-- A wrapped line ends without a newline. -/
theorem Begun.wrap (h : Begun job cs r u) (hends : ∀ m ∈ u.marks.toList, m.kind.isEnd = false) :
    Indented job cs r (u.commit job u.breakAt .wrap) := by
  refine h.commit LineEnd.noConfusion (fun m hm => hends m (List.mem_of_mem_drop hm)) ?_
  refine iff_of_false Bool.false_ne_true ?_
  rintro ⟨g, c, hg, hend, -⟩
  have hpair : (g.index, g.lineEnd) ∈ (u.marks.toList.take (u.cut u.breakAt .wrap)).map
      fun m => (m.index, m.kind.isEnd) := by
    rw [← map_events_committed job]
    exact List.mem_map_of_mem (List.mem_of_getLast? hg)
  obtain ⟨m, hm, hsame⟩ := List.mem_map.1 hpair
  have hopen := hends m (List.mem_of_mem_take hm)
  rw [(Prod.mk.inj hsame).2, hend] at hopen
  cases hopen

/-- A newline is the last that is reported of its line. -/
theorem Indented.newline (h : Indented job cs r s) (hr : r.format.letterOffsetX = none)
    (hl : l ∈ lexemes cs) {c : Nat} (hnewline : l.token = .newline c) :
    Indented job cs r (s.step job l) := by
  obtain ⟨index, token⟩ := l
  obtain rfl : token = .newline c := hnewline
  have hcode := getElem?_of_newline hl rfl
  rw [step_newline h.table]
  generalize hu : s.pushMark job c .lineEnd 0 index = u
  have hbegun : Begun job cs r u := hu ▸ h.push hr (Or.inl rfl) .lineEnd 0 index
  have hmarks : u.marks.toList = s.marks.toList ++ [newMark job s c .lineEnd 0 index] := by
    rw [← hu, toList_pushMark]
  have hcut : u.cut u.marks.size (.newline (startsParagraph c)) = u.marks.toList.length :=
    Array.length_toList.symm
  refine hbegun.commit LineEnd.noConfusion ?_ ?_
  · intro m hm
    rw [hcut, List.drop_length] at hm
    cases hm
  · have hevents := map_events_committed job u u.marks.size (.newline (startsParagraph c))
    rw [hcut, List.take_length, hmarks, List.map_append, List.map_singleton] at hevents
    have hlast := congrArg List.getLast? hevents
    rw [List.getLast?_map, List.getLast?_concat, Option.map_eq_some_iff] at hlast
    obtain ⟨g, hg, hsame⟩ := hlast
    obtain ⟨hindex, hend⟩ := Prod.mk.inj hsame
    have hparagraph : (LineEnd.newline (startsParagraph c) == .newline true) =
        startsParagraph c := by
      cases startsParagraph c <;> rfl
    rw [hparagraph]
    constructor
    · intro hc
      exact ⟨g, c, hg, hend, by rw [hindex]; exact hcode, hc⟩
    · rintro ⟨e, d, he, -, hd, hstarts⟩
      obtain rfl := Option.some.inj (hg.symm.trans he)
      rw [hindex] at hd
      obtain rfl := Option.some.inj (hcode.symm.trans hd)
      exact hstarts

/-! ### Text -/

theorem Indented.noteBreak (h : Indented job cs r s) (p : Bool) :
    Indented job cs r (s.noteBreak p) := by
  cases p with
  | true =>
    exact ⟨⟨h.style.trans {}, h.table, h.offset, h.first, h.paragraph, h.wrapped⟩, h.empty, h.ends⟩
  | false => exact h

/-- A token that has a mark puts it on the line that has begun, and leaves the line open. -/
theorem Indented.marked (h : Indented job cs r s) (hr : r.format.letterOffsetX = none)
    (hmark : s.marked? job l = some u) :
    Begun job cs r u ∧ u.marks.toList ≠ [] ∧ ∀ m ∈ u.marks.toList, m.kind.isEnd = false := by
  obtain ⟨v, code, kind, advance, p, hv, hkind, rfl, -⟩ := marked_cases hmark
  have hv : v = s ∨ v = beforeMark job s code := hv.imp_right And.left
  have hmarks : (v.pushMark job code kind advance l.index).marks.toList =
      s.marks.toList ++ [newMark job v code kind advance l.index] := by
    rw [toList_pushMark]
    rcases hv with rfl | rfl
    · rfl
    · rw [(beforeMark_frame job s code).1]
  refine ⟨h.push hr hv kind advance l.index, ?_, ?_⟩
  · rw [hmarks]
    exact List.concat_ne_nil _ _
  · intro m hm
    rw [hmarks] at hm
    rcases List.mem_append.1 hm with hm | hm
    · exact h.ends m hm
    · obtain rfl := List.mem_singleton.1 hm
      exact hkind

/-- Text keeps lines at their indents. -/
theorem Indented.step (h : Indented job cs r s) (hr : r.format.letterOffsetX = none)
    (hl : l ∈ lexemes cs) (htext : ∀ c, l.token ≠ .instruction c) :
    Indented job cs r (s.step job l) := by
  cases hmark : s.marked? job l with
  | some u =>
    obtain ⟨hbegun, hne, hends⟩ := h.marked hr hmark
    obtain ⟨p, hstep⟩ := step_of_marked hmark
    rw [hstep]
    refine Indented.noteBreak ?_ p
    by_cases hover : u.Overflows job
    · rw [checkWrap_of_overflows hover]
      exact hbegun.wrap hends
    · rw [checkWrap_of_not_overflows hover]
      exact ⟨hbegun, fun hempty => absurd hempty hne, hends⟩
  | none =>
    obtain ⟨index, token⟩ := l
    cases token with
    | text c => cases hmark
    | placeholder => cases hmark
    | newline c => exact h.newline hr hl rfl
    | row =>
      change Indented job cs r (s.endRow job)
      rwa [endRow_of_no_table job h.table]
    | cell =>
      change Indented job cs r (s.nextCell job)
      rwa [nextCell_of_no_table job h.table]
    | nothing => exact h
    | instruction c => exact absurd rfl (htext c)

/-! ### Whole texts -/

/-- A layout that begins with both indents set. -/
def withIndents (job : Job) (font : Font) (indent hanging : Option Length) : LayoutState :=
  { initial job font with
    format.indent := Length.resolveOr indent font.face.em 0
    format.hangingIndent := Length.resolveOr hanging font.face.em 0 }

theorem indented_withIndents (job : Job) (font : Font) (cs : List Nat)
    (indent hanging : Option Length) :
    Indented job cs (withIndents job font indent hanging) (withIndents job font indent hanging) :=
  ⟨⟨.refl _, rfl, (fun _ hm => nomatch hm), (fun _ hm => nomatch hm),
    iff_of_true rfl (Or.inl rfl), (fun _ hw => nomatch hw)⟩, fun _ => ⟨rfl, rfl⟩,
    fun _ hm => nomatch hm⟩

variable {indent hanging : Option Length}

/-- The settings at the start come to the same in either order, and the text behind them keeps
    lines at their indents. -/
theorem indented_run (job : Job) (font : Font) (h : IndentedText cs indent hanging) :
    ∃ early text, lexemes cs = early ++ text ∧
      (∀ l ∈ early, ∀ s, marked? job s l = none ∧ closed? job s l = none) ∧
      ∀ seen rest, text = seen ++ rest → Indented job cs (withIndents job font indent hanging)
        ((initial job font).run job (early ++ seen)) := by
  have hrun : ∀ early text, lexemes cs = early ++ text →
      (∀ l ∈ text, ∀ c, l.token ≠ .instruction c) →
      (initial job font).run job early = withIndents job font indent hanging →
      ∀ seen rest, text = seen ++ rest → Indented job cs (withIndents job font indent hanging)
        ((initial job font).run job (early ++ seen)) := by
    rintro early _ hcs htext hstart seen rest rfl
    rw [← List.append_assoc] at hcs
    refine run_induction_from (P := Indented job cs (withIndents job font indent hanging)) early
      ?_ ?_ hcs
    · rw [hstart]
      exact indented_withIndents job font cs indent hanging
    · intro seen' l rest' hsplit ih
      have hl : l ∈ seen ++ rest := by
        rw [hcs, List.append_assoc, List.append_assoc, List.append_cancel_left_eq] at hsplit
        rw [hsplit]
        exact List.mem_append_cons_self
      refine ih.step rfl ?_ (htext l hl)
      rw [hsplit]
      exact List.mem_append_cons_self
  obtain ⟨i, j, text, hcs | hcs, htext⟩ := h
  · refine ⟨[_, _], text, hcs, ?_, hrun _ text hcs htext rfl⟩
    simp only [List.forall_mem_cons, List.not_mem_nil, false_imp_iff, implies_true, and_true]
    exact ⟨fun _ => ⟨rfl, rfl⟩, fun _ => ⟨rfl, rfl⟩⟩
  · refine ⟨[_, _], text, hcs, ?_, hrun _ text hcs htext rfl⟩
    simp only [List.forall_mem_cons, List.not_mem_nil, false_imp_iff, implies_true, and_true]
    exact ⟨fun _ => ⟨rfl, rfl⟩, fun _ => ⟨rfl, rfl⟩⟩

/-- A token is among the first ones or behind them. -/
private theorem mem_or_split {early text seen rest : List Lexeme} (h : lexemes cs = early ++ text)
    (hsplit : lexemes cs = seen ++ l :: rest) :
    l ∈ early ∨ ∃ mid, seen = early ++ mid ∧ text = mid ++ l :: rest := by
  rcases List.append_eq_append_iff.1 (h.symm.trans hsplit) with ⟨mid, hseen, htext⟩ |
    ⟨mid, hearly, hrest⟩
  · exact Or.inr ⟨mid, hseen, htext⟩
  · cases mid with
    | nil =>
      rw [List.append_nil] at hearly
      exact Or.inr ⟨[], by rw [List.append_nil, hearly], hrest.symm⟩
    | cons k mid =>
      obtain ⟨rfl, -⟩ := List.cons_eq_cons.1 hrest
      rw [hearly]
      exact Or.inl List.mem_append_cons_self

/-- Whenever a line of such a text is committed, it begins at its indent. -/
theorem CommitsAt.begun (h : CommitsAt job font cs u content reason)
    (htext : IndentedText cs indent hanging) :
    Begun job cs (withIndents job font indent hanging) u := by
  obtain ⟨early, text, hcs, hquiet, hrun⟩ := indented_run job font htext
  cases h with
  | wrap hwraps =>
    obtain ⟨seen, l, rest, hsplit, hmark, -⟩ := hwraps
    rcases mem_or_split hcs hsplit with hearly | ⟨mid, rfl, hmid⟩
    · rw [(hquiet l hearly _).1] at hmark
      cases hmark
    · exact ((hrun mid _ hmid).marked rfl hmark).1
  | @close seen rest l _ _ hsplit hclose =>
    rcases mem_or_split hcs hsplit with hearly | ⟨mid, rfl, hmid⟩
    · rw [(hquiet l hearly _).2] at hclose
      cases hclose
    · have hbefore := hrun mid _ hmid
      rcases closed_cases hclose with ⟨c, -, rfl, -⟩ | ⟨htable, -⟩ | ⟨t, -, rfl, -⟩ | ⟨-, rfl, -⟩
      · exact hbefore.push rfl (Or.inl rfl) .lineEnd 0 l.index
      · rw [hbefore.table] at htable
        cases htable
      · exact hbefore.toBegun
      · exact hbefore.toBegun
  | text hs hnone hu =>
    subst hs hu
    have hbefore := hrun text [] (List.append_nil text).symm
    rw [← hcs] at hbefore
    exact hbefore.push rfl (Or.inl rfl) .textEnd 0 cs.length

/-- The first glyph of a line that is aligned to the left is where its first mark is. -/
theorem exists_first (hmarks : (u.setLine job content (u.cut content reason) reason).marks =
      u.marks.toList.take (u.cut content reason)) {g : Glyph}
    (hg : (u.committedLine job content reason).events.head? = some g) :
    ∃ m, u.marks.toList.head? = some m ∧ g.location.x = m.x + m.offset.x := by
  have hlabel : ∀ wrapped m,
      ((u.setLine job content (u.cut content reason) reason).glyph wrapped m).location.x =
        m.x + m.offset.x := fun _ _ => rfl
  have hevents := congrArg List.head?
    (SetLine.map_events (f := fun g => g.location.x) hlabel u job.printer.images)
  rw [← committedLine, hmarks, List.head?_map, List.head?_map, hg, List.head?_take] at hevents
  split at hevents
  · cases hevents
  · obtain ⟨m, hm, hx⟩ := Option.map_eq_some_iff.1 hevents.symm
    exact ⟨m, hm, hx.symm⟩

end LayoutState

/-- A glyph that marks the end of the text is behind all lines, since the last of them has been
    wrapped with nothing left, and stands on that line. -/
def EndsAbove (lines : List Line) (g : Glyph) : Prop :=
  ∃ before above, lines = before ++ [above, ⟨[], [.glyph g], [], []⟩] ∧ g.code = none ∧
    g.wrapped = true ∧ above.BeginsAt g.lineTop

open LayoutState in
/-- **Every line starts at its indent.**  Both indents are set once, and the text behind them is
    laid out in a font that is aligned to the left.  The first glyph of a line is at the indent,
    and the first of a paragraph at the hanging indent as well.  The end of a text that has been
    wrapped with nothing left starts no line. -/
theorem Printer.line_starts {p : Printer} {font : Font}
    (hfont : p.fonts.get? p.defaultFont = some font) (halign : font.style.align = .left)
    (hjustify : font.style.justify = false) {markup : List UInt8}
    {indent hanging : Option Length} (htext : IndentedText (Codec.decode markup) indent hanging)
    (origin : Point) (width : Int) :
    ∃ lines, (Job.mk p origin width).layout markup = .ok lines ∧
      ∀ k line g, lines[k]? = some line → line.events.head? = some g → ¬ EndsAbove lines g →
        (FollowsParagraph (Codec.decode markup) lines k →
          g.location.x = origin.x + Length.resolveOr indent font.face.em 0 +
            Length.resolveOr hanging font.face.em 0) ∧
        (¬ FollowsParagraph (Codec.decode markup) lines k →
          g.location.x = origin.x + Length.resolveOr indent font.face.em 0) := by
  refine ⟨_, Job.layout_eq hfont markup, ?_⟩
  intro k line g hline hhead hends
  rcases mem_layout_ends (List.mem_of_getElem? hline) with
    ⟨u, content, reason, hcommits, rfl⟩ | ⟨s, w, hs, hw, hlines, rfl⟩
  · have hg : g.index ∈ (u.committedLine ⟨p, origin, width⟩ content reason).positions :=
      List.mem_map_of_mem (List.mem_of_head? hhead)
    obtain rfl := place_unique hline hcommits.getElem? hg hg
    have hbegun := hcommits.begun htext
    have hfont : u.font = font := hbegun.style.font
    have hformat : u.format = (withIndents ⟨p, origin, width⟩ font indent hanging).format :=
      hbegun.style.format
    have hmarks := marks_setLine_of_left hbegun.table (by rw [hformat, hfont]; exact halign)
      (by rw [hformat, hfont]; exact hjustify) ⟨p, origin, width⟩ content
      (u.cut content reason) reason
    obtain ⟨m, hm, hx⟩ := exists_first hmarks hhead
    have hfirst := hbegun.first m hm
    have hoffset := hbegun.offset m (List.mem_of_head? hm)
    rw [hx, hfirst, hoffset, Int.add_zero, ← followsParagraph_of_prefix
      ((List.prefix_append _ _).trans hcommits.lines_prefix) (Nat.le_of_eq Array.length_toList.symm),
      ← hbegun.paragraph]
    constructor
    · intro hparagraph
      rw [hparagraph]
      rfl
    · intro hparagraph
      rw [Bool.eq_false_iff.2 hparagraph]
      exact Int.add_zero _
  · -- The line above is the last one that has been committed.
    obtain rfl := Option.some.inj hhead
    obtain ⟨early, text, hcs, -, hrun⟩ := indented_run ⟨p, origin, width⟩ font htext
    have hbefore := hrun text [] (List.append_nil text).symm
    rw [← hcs, ← hs] at hbefore
    obtain ⟨before, above, habove, htop⟩ := hbefore.wrapped w hw
    refine absurd ⟨before, above, ?_, rfl, rfl, htop⟩ hends
    rw [hlines, habove, List.append_assoc]
    rfl

/-- The bytes of an indent of twenty pixels and a hanging one of ten, and of three words. -/
def Printer.indentedWords : List UInt8 :=
  (Markup.ofCommands [.length .indent (some ⟨20, 0, 0⟩),
    .length .hangingIndent (some ⟨10, 0, 0⟩)]).bytes ++ [0x61, 0x20, 0x62, 0x0A, 0x63]

/-- The second word is on a wrapped line, and the third one begins a paragraph. -/
theorem Printer.line_starts_boxes :
    ∃ lines, (Job.mk boxes .zero 40).layout indentedWords = .ok lines ∧
      lines.map (fun l => l.events.head?.map (·.location.x)) =
        [some (0 + 20 + 10), some (0 + 20), some (0 + 20 + 10)] := by
  have htext : IndentedText (Codec.decode indentedWords) (some ⟨20, 0, 0⟩) (some ⟨10, 0, 0⟩) :=
    indentedText_ofCommands (by decide) _ _
  obtain ⟨lines, hlayout, hstarts⟩ := line_starts (p := boxes) rfl rfl rfl htext .zero 40
  refine ⟨lines, hlayout, ?_⟩
  obtain rfl : Job.layoutWith ⟨boxes, .zero, 40⟩ (Font.ofFace BoxFace.standard.face)
      (Codec.decode indentedWords) = lines :=
    Except.ok.inj ((Job.layout_eq rfl _).symm.trans hlayout)
  obtain ⟨a, b, c, hlines, x, y, z, hx, hy, hz, hcodes, hopen, e, he, hend, hcode⟩ :
      ∃ a b c, Job.layoutWith ⟨boxes, .zero, 40⟩ (Font.ofFace BoxFace.standard.face)
        (Codec.decode indentedWords) = [a, b, c] ∧
      ∃ x y z, a.events.head? = some x ∧ b.events.head? = some y ∧ c.events.head? = some z ∧
        (∀ g ∈ [x, y, z], g.code ≠ none) ∧ (∀ g ∈ a.events, g.lineEnd = false) ∧
        ∃ e, b.events.getLast? = some e ∧ e.lineEnd = true ∧
          (Codec.decode indentedWords)[e.index]? = some CodePoint.lineFeed := by
    refine ⟨_, _, _, rfl, _, _, _, rfl, rfl, rfl, ?_, ?_, _, rfl, ?_, ?_⟩ <;> decide +kernel
  rw [hlines] at hstarts ⊢
  have hends : ∀ g ∈ [x, y, z], ¬ EndsAbove [a, b, c] g :=
    fun g hg ⟨_, _, _, hnone, _⟩ => hcodes g hg hnone
  have hwrapped : ¬ FollowsParagraph (Codec.decode indentedWords) [a, b, c] 1 := by
    rintro (hzero | ⟨line, g, d, hline, hg, hgend, -⟩)
    · cases hzero
    · obtain rfl := Option.some.inj hline
      rw [hopen g (List.mem_of_getLast? hg)] at hgend
      cases hgend
  have hparagraph : FollowsParagraph (Codec.decode indentedWords) [a, b, c] 2 :=
    Or.inr ⟨b, e, CodePoint.lineFeed, rfl, he, hend, hcode, Or.inl rfl⟩
  have hfirst := (hstarts 0 a x rfl hx (hends x (by simp))).1 (Or.inl rfl)
  have hsecond := (hstarts 1 b y rfl hy (hends y (by simp))).2 hwrapped
  have hthird := (hstarts 2 c z rfl hz (hends z (by simp))).1 hparagraph
  simp only [List.map_cons, List.map_nil, hx, hy, hz, Option.map_some, hfirst, hsecond, hthird]
  decide +kernel

end RichText
