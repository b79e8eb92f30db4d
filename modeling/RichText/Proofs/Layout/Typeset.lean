/-
  RichText/Proofs/Layout/Typeset.lean
  ===================================
  **Letters and spaces set in one font.**

  The code points of a text of letters and spaces stand side by side, those since the last
  break on the line being filled (`Typeset`).  A code point stays on that line if there is
  room for it, and otherwise the line is broken at a place that follows from its code points
  and the last place noted for a break (`Typeset.step`).
-/
import Mathlib.Data.List.Induction
import RichText.Proofs.Layout.Steps
import RichText.Proofs.Layout.Wrapping

namespace RichText

/-! ### Text of words -/

def CodePoint.space : Nat := 0x20

/-- Set as a glyph with room of its own, and no blank. -/
structure IsLetter (c : Nat) : Prop where
  text : Token.read c [] = (.text c, 0)
  notSpace : CodePoint.isSpace c = false
  notTab : c ≠ CodePoint.tab
  spaced : CodePoint.isSpaced c = true

instance (c : Nat) : Decidable (IsLetter c) :=
  decidable_of_iff (Token.read c [] = (.text c, 0) ∧ CodePoint.isSpace c = false ∧
      c ≠ CodePoint.tab ∧ CodePoint.isSpaced c = true)
    ⟨fun ⟨h, k, l, m⟩ => ⟨h, k, l, m⟩, fun h => ⟨h.text, h.notSpace, h.notTab, h.spaced⟩⟩

def OfWords (cs : List Nat) : Prop := ∀ c ∈ cs, c = CodePoint.space ∨ IsLetter c

instance (cs : List Nat) : Decidable (OfWords cs) :=
  inferInstanceAs (Decidable (∀ c ∈ cs, _))

/-- A code point that is text on its own is text whatever follows. -/
theorem Token.read_text {c : Nat} (h : Token.read c [] = (.text c, 0)) (cs : List Nat) :
    Token.read c cs = (.text c, 0) := by
  have hcomplex : c ≠ Control.complexIntroducer := by
    rintro rfl
    exact absurd h (by decide)
  have hsimple : c ≠ Control.simpleIntroducer := by
    rintro rfl
    exact absurd h (by decide)
  have hreturn : c ≠ CodePoint.carriageReturn := by
    rintro rfl
    exact absurd h (by decide)
  simp only [Token.read, if_neg hcomplex, if_neg hsimple, hreturn, false_and, if_false] at h ⊢
  exact h

theorem Token.read_of_word {c : Nat} (hc : c = CodePoint.space ∨ IsLetter c) (cs : List Nat) :
    Token.read c cs = (.text c, 0) := by
  rcases hc with rfl | hletter
  · exact Token.read_text (by decide) cs
  · exact Token.read_text hletter.text cs

theorem OfWords.read {cs : List Nat} (h : OfWords cs) {c : Nat} (hc : c ∈ cs) (ds : List Nat) :
    Token.read c ds = (.text c, 0) := Token.read_of_word (h c hc) ds

/-- Each code point is a token. -/
theorem OfWords.lexemesFrom {cs : List Nat} (h : OfWords cs) (index : Nat) :
    RichText.lexemesFrom 0 index cs = (cs.zipIdx index).map fun (c, i) => ⟨i, .text c⟩ := by
  induction cs generalizing index with
  | nil => rfl
  | cons c cs ih =>
    have hcs : OfWords cs := fun d hd => h d (List.mem_cons_of_mem c hd)
    have hread := h.read List.mem_cons_self cs
    simp only [RichText.lexemesFrom, hread, ih hcs, List.zipIdx_cons, List.map_cons]

theorem OfWords.lexemes_append {cs ds : List Nat} (h : OfWords (cs ++ ds)) :
    lexemes (cs ++ ds) = lexemes cs ++ RichText.lexemesFrom 0 cs.length ds := by
  have hcs : OfWords cs := fun c hc => h c (List.mem_append_left ds hc)
  have hds : OfWords ds := fun c hc => h c (List.mem_append_right cs hc)
  rw [lexemes, lexemes, h.lexemesFrom, hcs.lexemesFrom, hds.lexemesFrom, List.zipIdx_append,
    List.map_append, Nat.zero_add]

/-! ### Room -/

namespace Font

variable (f : Font)

/-- The room between a code point and the one before it. -/
def gap (prev : Option Nat) (c : Nat) : Int :=
  prev.elim 0 fun p => f.face.kerning p c + f.style.letterSpacing

/-- The room that code points take behind another one. -/
def roomAfter : Option Nat → List Nat → Int
  | _, [] => 0
  | prev, c :: cs => f.gap prev c + f.advanceOf c + roomAfter (some c) cs

/-- The room that code points take on a line of their own. -/
def room (cs : List Nat) : Int := f.roomAfter none cs

theorem roomAfter_append_singleton (prev : Option Nat) (cs : List Nat) (c : Nat) :
    f.roomAfter prev (cs ++ [c]) =
      f.roomAfter prev cs + f.gap (cs.getLast?.or prev) c + f.advanceOf c := by
  induction cs generalizing prev with
  | nil => simp only [List.nil_append, roomAfter, List.getLast?_nil, Option.none_or]; omega
  | cons d cs ih =>
    have hlast : (d :: cs).getLast?.or prev = cs.getLast?.or (some d) := by
      rw [List.getLast?_cons]
      cases cs.getLast? <;> rfl
    rw [List.cons_append, roomAfter, roomAfter, ih, hlast]
    omega

theorem room_append_singleton (cs : List Nat) (c : Nat) :
    f.room (cs ++ [c]) = f.room cs + f.gap cs.getLast? c + f.advanceOf c := by
  rw [room, roomAfter_append_singleton, Option.or_none]
  rfl

/-- Letters and spaces are equally wide, with nothing between them. -/
structure Uniform (a : Int) : Prop where
  pos : 0 < a
  advance : ∀ c, c = CodePoint.space ∨ IsLetter c → f.advanceOf c = a
  kerning : ∀ c d, f.face.kerning c d = 0
  spacing : f.style.letterSpacing = 0

variable {f}

theorem Uniform.room {a : Int} (h : f.Uniform a) {cs : List Nat} (hcs : OfWords cs) :
    f.room cs = cs.length * a := by
  have hgap : ∀ prev c, f.gap prev c = 0 := by
    intro prev c
    cases prev with
    | none => rfl
    | some p =>
      change f.face.kerning p c + f.style.letterSpacing = 0
      rw [h.kerning, h.spacing]
      rfl
  have hafter : ∀ prev, f.roomAfter prev cs = cs.length * a := by
    induction cs with
    | nil => exact fun _ => (Int.zero_mul a).symm
    | cons c cs ih =>
      intro prev
      have hrest := ih (fun d hd => hcs d (List.mem_cons_of_mem c hd)) (some c)
      rw [roomAfter, hgap, h.advance c (hcs c List.mem_cons_self), hrest, List.length_cons,
        Int.natCast_succ, Int.add_mul]
      omega
  exact hafter none

end Font

/-! ### Marks side by side -/

/-- The marks stand side by side from a place on, behind some code point. -/
def Laid (f : Font) : Int → Option Nat → List Mark → Prop
  | _, _, [] => True
  | x, prev, m :: ms =>
    m.x = x + f.gap prev m.code ∧ m.advance = f.advanceOf m.code ∧ Laid f m.right (some m.code) ms

namespace Laid

variable {f : Font} {x : Int} {prev : Option Nat} {ms : List Mark}

theorem lastRight (h : Laid f x prev ms) :
    Mark.lastRight x ms = x + f.roomAfter prev (Mark.codes ms) := by
  induction ms generalizing x prev with
  | nil => exact (Int.add_zero x).symm
  | cons m ms ih =>
    obtain ⟨hx, hadvance, hms⟩ := h
    have hlast : Mark.lastRight x (m :: ms) = Mark.lastRight m.right ms := by
      simp only [Mark.lastRight, List.getLast?_cons]
      cases ms.getLast? <;> rfl
    have hroom : f.roomAfter prev (Mark.codes (m :: ms)) =
        f.gap prev m.code + f.advanceOf m.code + f.roomAfter (some m.code) (Mark.codes ms) := rfl
    rw [hlast, ih hms, hroom, Mark.right, hx, hadvance]
    omega

theorem append_singleton (h : Laid f x prev ms) {m : Mark}
    (hx : m.x = Mark.lastRight x ms + f.gap ((Mark.codes ms).getLast?.or prev) m.code)
    (hadvance : m.advance = f.advanceOf m.code) : Laid f x prev (ms ++ [m]) := by
  induction ms generalizing x prev with
  | nil => exact ⟨hx, hadvance, trivial⟩
  | cons n ms ih =>
    obtain ⟨hn, hna, hms⟩ := h
    refine ⟨hn, hna, ih hms ?_⟩
    have hlast : Mark.lastRight x (n :: ms) = Mark.lastRight n.right ms := by
      simp only [Mark.lastRight, List.getLast?_cons]
      cases ms.getLast? <;> rfl
    have hcode : (Mark.codes (n :: ms)).getLast?.or prev =
        (Mark.codes ms).getLast?.or (some n.code) := by
      simp only [Mark.codes, List.map_cons, List.getLast?_cons]
      cases (ms.map (·.code)).getLast? <;> rfl
    rw [hx, hlast, hcode]

theorem shift (h : Laid f x prev ms) (dx : Int) : Laid f (x + dx) prev (ms.map (Mark.shift dx)) := by
  induction ms generalizing x prev with
  | nil => trivial
  | cons m ms ih =>
    obtain ⟨hx, hadvance, hms⟩ := h
    refine ⟨?_, hadvance, ?_⟩
    · change m.x + dx = x + dx + f.gap prev m.code
      omega
    · rw [Mark.right_shift]
      exact ih hms

/-- What comes after the first marks stands side by side on its own. -/
theorem drop (h : Laid f x prev ms) {n : Nat} {first : Mark} {rest : List Mark}
    (hdrop : ms.drop n = first :: rest) : Laid f first.x none (first :: rest) := by
  induction n generalizing x prev ms with
  | zero =>
    rw [List.drop_zero] at hdrop
    subst hdrop
    obtain ⟨hx, hadvance, hms⟩ := h
    exact ⟨(Int.add_zero _).symm, hadvance, hms⟩
  | succ n ih =>
    cases ms with
    | nil => cases hdrop
    | cons m ms => exact ih h.2.2 hdrop

end Laid

namespace LayoutState

variable {job : Job} {font : Font} {start : Nat} {line : List Nat} {s t u : LayoutState}

/-! ### The line being filled -/

/-- The code points `line` stand side by side on the line being filled, in the style of the
    start. -/
structure LineOf (job : Job) (font : Font) (line : List Nat) (s : LayoutState) : Prop where
  style : SameStyle (initial job font) s
  table : s.table = none
  codes : Mark.codes s.marks.toList = line
  laid : Laid font job.origin.x none s.marks.toList
  pen : if s.lineStarted then s.penX = job.origin.x + font.room line else line = []
  prev : s.prev = line.getLast?
  within : s.BreakWithin

/-- In the layout of a text of words the code points `line`, of which the first one has
    position `start`, stand side by side on the line, and those before it have been
    reported. -/
structure Typeset (job : Job) (font : Font) (start : Nat) (line : List Nat) (s : LayoutState) :
    Prop where
  style : SameStyle (initial job font) s
  table : s.table = none
  codes : Mark.codes s.marks.toList = line
  indices : s.marks.toList.map (·.index) = List.range' start line.length
  laid : Laid font job.origin.x none s.marks.toList
  pen : if s.lineStarted then s.penX = job.origin.x + font.room line else line = []
  prev : s.prev = line.getLast?
  within : s.BreakWithin
  reported : (events s.lines.toList).map (·.index) = List.range start

theorem typeset_initial (job : Job) (font : Font) :
    (initial job font).Typeset job font 0 [] where
  style := .refl _
  table := rfl
  codes := rfl
  indices := rfl
  laid := trivial
  pen := rfl
  prev := rfl
  within := breakWithin_initial job font
  reported := rfl

theorem Typeset.lineOf (h : s.Typeset job font start line) : s.LineOf job font line :=
  ⟨h.style, h.table, h.codes, h.laid, h.pen, h.prev, h.within⟩

theorem LineOf.typeset (h : s.LineOf job font line)
    (hindices : s.marks.toList.map (·.index) = List.range' start line.length)
    (hreported : (events s.lines.toList).map (·.index) = List.range start) :
    s.Typeset job font start line :=
  ⟨h.style, h.table, h.codes, hindices, h.laid, h.pen, h.prev, h.within, hreported⟩

theorem LineOf.size (h : s.LineOf job font line) : s.marks.size = line.length := by
  rw [← Array.length_toList, ← h.codes, Mark.codes, List.length_map]

theorem Typeset.size (h : s.Typeset job font start line) : s.marks.size = line.length :=
  h.lineOf.size

theorem LineOf.leftEdge (h : s.LineOf job font line) : s.leftEdge job = job.origin.x := by
  simp only [LayoutState.leftEdge, h.table, h.style.format]
  simp [initial, Format.initial]

/-- The state differs in the noted place for a break alone. -/
theorem LineOf.noteBreak (h : s.LineOf job font line) (p : Bool) :
    (s.noteBreak p).LineOf job font line := by
  have hmoves : Moves job s [] (s.noteBreak p) := noteBreak_moves s p
  have hwithin := hmoves.preserves Move.breakWithin h.within
  cases p with
  | true => exact ⟨h.style.trans {}, h.table, h.codes, h.laid, h.pen, h.prev, hwithin⟩
  | false => exact h

theorem Typeset.noteBreak (h : s.Typeset job font start line) (p : Bool) :
    (s.noteBreak p).Typeset job font start line := by
  refine (h.lineOf.noteBreak p).typeset ?_ ?_
  · cases p <;> exact h.indices
  · cases p <;> exact h.reported

theorem lastBreak_noteBreak (s : LayoutState) (p : Bool) :
    (s.noteBreak p).lastBreak = if p then some s.marks.size else s.lastBreak := by
  cases p <;> rfl

theorem penX_beginLine (h : s.LineOf job font line) :
    (s.beginLine job).lineStarted = true ∧ (s.beginLine job).prev = line.getLast? ∧
      (s.beginLine job).penX = job.origin.x + font.room line := by
  have hpen := h.pen
  have hleft := h.leftEdge
  simp only [beginLine]
  split
  · next hs =>
    rw [if_pos hs] at hpen
    exact ⟨hs, h.prev, hpen⟩
  · next hs =>
    rw [if_neg hs] at hpen
    refine ⟨rfl, h.prev, ?_⟩
    rw [hpen]
    exact hleft.trans (Int.add_zero _).symm

/-- Before a glyph the pen moves by the gap to the glyph before. -/
theorem roomBefore_of_style (h : SameStyle (initial job font) s) {c : Nat}
    (htab : c ≠ CodePoint.tab) (hspaced : CodePoint.isSpaced c = true) :
    s.roomBefore c = font.gap s.prev c := by
  have hspacing : s.letterSpacing = font.style.letterSpacing := letterSpacing_congr h
  simp only [roomBefore, if_neg htab, hspaced, if_true, hspacing, h.font, Font.gap]
  cases s.prev <;> rfl

theorem textAdvance_of_style (h : SameStyle (initial job font) s) {c : Nat}
    (htab : c ≠ CodePoint.tab) : (s.textAdvance job c).1 = font.advanceOf c := by
  rw [textAdvance_of_ne_tab job s htab, h.font]
  rfl

/-- Before a code point is put on the line, that has begun, and a place for a break may have
    been noted. -/
theorem LineOf.beforeMark (h : s.LineOf job font line) {c : Nat}
    (htab : c ≠ CodePoint.tab) (hspaced : CodePoint.isSpaced c = true) :
    let t := LayoutState.beforeMark job s c
    SameStyle (initial job font) t ∧ t.marks = s.marks ∧ t.lines = s.lines ∧ t.table = none ∧
      t.lineStarted = true ∧ t.penX = job.origin.x + font.room line + font.gap line.getLast? c ∧
      t.lastBreak = if CodePoint.isBreaking c then some line.length else s.lastBreak := by
  have hbegin := sameLine_beginLine job s
  obtain ⟨hstarted, hprev, hpen⟩ := penX_beginLine h
  generalize hu : (s.beginLine job).noteBreak (CodePoint.isBreaking c) = u
  have hstyle : SameStyle (initial job font) u :=
    hu ▸ (h.style.trans (sameStyle_beginLine job s)).trans (sameStyle_noteBreak _ _)
  have hbreak : u.lastBreak = if CodePoint.isBreaking c then some line.length else s.lastBreak := by
    rw [← hu, lastBreak_noteBreak, hbegin.lastBreak, hbegin.marks, h.size]
  have hsame : u.marks = s.marks ∧ u.lines = s.lines ∧ u.table = none ∧ u.lineStarted = true ∧
      u.prev = line.getLast? ∧ u.penX = job.origin.x + font.room line := by
    rw [← hu, ← hbegin.marks, ← hbegin.lines, ← h.table, ← hbegin.table]
    cases CodePoint.isBreaking c <;> exact ⟨rfl, rfl, rfl, hstarted, hprev, hpen⟩
  obtain ⟨hmarks, hlines, htable, hstart, hlast, hx⟩ := hsame
  have hbefore : LayoutState.beforeMark job s c = { u with penX := u.penX + u.roomBefore c } := by
    rw [← hu]
    rfl
  rw [hbefore]
  refine ⟨hstyle.trans {}, hmarks, hlines, htable, hstart, ?_, hbreak⟩
  change u.penX + u.roomBefore c = _
  rw [roomBefore_of_style hstyle htab hspaced, hlast, hx]

/-- With the pen at its gap behind the line, a mark for a code point is put there. -/
theorem LineOf.pushMark (h : s.LineOf job font line) {v : LayoutState} {c : Nat}
    (hstyle : SameStyle (initial job font) v) (hmarks : v.marks = s.marks)
    (htable : v.table = none) (hstarted : v.lineStarted = true)
    (hx : v.penX = job.origin.x + font.room line + font.gap line.getLast? c)
    (hwithin : v.BreakWithin) (p : Bool) (index : Nat) :
    (v.pushMark job c (.glyph p) (font.advanceOf c) index).LineOf job font (line ++ [c]) := by
  have hbegin : v.beginLine job = v := if_pos hstarted
  obtain ⟨-, -, -, -, hutable, -⟩ := pushMark_frame job v c (.glyph p) (font.advanceOf c) index
  obtain ⟨hupen, -, hustarted⟩ := pen_pushMark job v c (.glyph p) (font.advanceOf c) index
  have hmx : (newMark job v c (.glyph p) (font.advanceOf c) index).x = v.penX :=
    congrArg LayoutState.penX hbegin
  have hlast : Mark.lastRight job.origin.x s.marks.toList = job.origin.x + font.room line := by
    rw [h.laid.lastRight, h.codes]
    rfl
  have hlist := toList_pushMark job v c (.glyph p) (font.advanceOf c) index
  rw [hmarks] at hlist
  refine ⟨hstyle.trans (sameStyle_pushMark job v _ _ _ _), hutable.trans htable, ?_, ?_, ?_, ?_, ?_⟩
  · rw [hlist, Mark.codes, List.map_append, List.map_singleton, ← h.codes]
    rfl
  · rw [hlist]
    refine h.laid.append_singleton ?_ rfl
    rw [hmx, hx, hlast, h.codes, Option.or_none]
    rfl
  · rw [if_pos hustarted, hupen, hbegin, hx, Font.room_append_singleton]
    omega
  · rw [List.getLast?_concat]
    rfl
  · have hmove : Move job v [_] (v.pushMark job c (.glyph p) (font.advanceOf c) index) :=
      .mark v c (.glyph p) (font.advanceOf c) index
    exact hmove.breakWithin hwithin

/-- A code point is put behind those on the line; then the line is tested. -/
theorem LineOf.glyph (h : s.LineOf job font line) {c : Nat}
    (hc : c = CodePoint.space ∨ IsLetter c) (index : Nat) :
    ∃ (u : LayoutState) (m : Mark), u.LineOf job font (line ++ [c]) ∧ u.lineStarted = true ∧
      u.lastBreak = (if CodePoint.isBreaking c then some line.length else s.lastBreak) ∧
      u.lines = s.lines ∧ u.marks.toList = s.marks.toList ++ [m] ∧ m.index = index ∧
      s.step job ⟨index, .text c⟩ =
        (u.checkWrap job).noteBreak (job.printer.breakingLetters.contains c) := by
  have htab : c ≠ CodePoint.tab := by
    rcases hc with rfl | hletter
    · decide
    · exact hletter.notTab
  have hspaced : CodePoint.isSpaced c = true := by
    rcases hc with rfl | hletter
    · decide
    · exact hletter.spaced
  obtain ⟨hstyle, hmarks, hlines, htable, hstarted, hx, hbreak⟩ := h.beforeMark htab hspaced
  have hadvance := textAdvance_of_style ((h.style.trans (sameStyle_beginLine job s)).trans
    (sameStyle_noteBreak _ (CodePoint.isBreaking c))) htab
  have hplace := place_eq job s c index
  generalize ((s.beginLine job).noteBreak (CodePoint.isBreaking c)).textAdvance job c = room
    at hadvance hplace
  have hwithin := (beforeMark_moves job s c).preserves Move.breakWithin h.within
  generalize LayoutState.beforeMark job s c = v at *
  have hline := h.pushMark hstyle hmarks htable hstarted hx hwithin room.2 index
  rw [← hadvance] at hline
  obtain ⟨hulines, hubreak, -⟩ := pushMark_frame job v c (.glyph room.2) room.1 index
  obtain ⟨-, -, hustarted⟩ := pen_pushMark job v c (.glyph room.2) room.1 index
  have hlist := toList_pushMark job v c (.glyph room.2) room.1 index
  rw [hmarks] at hlist
  refine ⟨_, _, hline, hustarted, hubreak.trans hbreak, hulines.trans hlines, hlist, rfl, ?_⟩
  have hbreaking : (v.addMark job c (.glyph room.2) room.1 index).breaking =
      job.printer.breakingLetters := (hstyle.trans (sameStyle_addMark job v _ _ _ _)).breaking
  dsimp only at hplace
  rw [hbreaking, addMark] at hplace
  exact hplace

theorem Typeset.glyph (h : s.Typeset job font start line) {c : Nat}
    (hc : c = CodePoint.space ∨ IsLetter c) :
    ∃ u : LayoutState, u.Typeset job font start (line ++ [c]) ∧ u.lineStarted = true ∧
      u.lastBreak = (if CodePoint.isBreaking c then some line.length else s.lastBreak) ∧
      u.lines = s.lines ∧
      s.step job ⟨start + line.length, .text c⟩ =
        (u.checkWrap job).noteBreak (job.printer.breakingLetters.contains c) := by
  obtain ⟨u, m, hu, hstarted, hbreak, hlines, hlist, hindex, hstep⟩ :=
    h.lineOf.glyph hc (start + line.length)
  refine ⟨u, hu.typeset ?_ ?_, hstarted, hbreak, hlines, hstep⟩
  · rw [hlist, List.map_append, List.map_singleton, h.indices, hindex, List.length_append,
      List.length_singleton, List.range'_1_concat]
  · rw [hlines]
    exact h.reported

/-! ### Where a line is broken -/

def isBlankCode (c : Nat) : Bool := CodePoint.isSpace c || c == CodePoint.tab

/-- How many code points of a line are reported where it is broken. -/
def lineCut (noted : Option Nat) (codes : List Nat) : Nat :=
  let pos := breakPos noted codes.length
  pos + ((codes.drop pos).takeWhile isBlankCode).length

theorem LineOf.cut_eq (h : s.LineOf job font line) :
    s.cut s.breakAt .wrap = lineCut s.lastBreak line := by
  have hcodes : Mark.isBlank = isBlankCode ∘ Mark.code := rfl
  rw [cut_breakAt h.within, lineCut, ← h.size, ← h.codes, Mark.codes, ← List.map_drop,
    List.takeWhile_map, List.length_map, hcodes]

/-- The positions of what a commit reports. -/
theorem Typeset.indices_commit (h : s.Typeset job font start line) :
    ((s.setLine job s.breakAt (s.cut s.breakAt .wrap) .wrap).line s job.printer.images).events.map
      (·.index) = List.range' start (s.cut s.breakAt .wrap) := by
  have hle : s.cut s.breakAt .wrap ≤ line.length := h.size ▸ cut_le (breakAt_le h.within) .wrap
  rw [indices_of_reports (reports_commit (Or.inl rfl)), List.map_map]
  change (s.marks.toList.take _).map (·.index) = _
  rw [List.map_take, h.indices, List.take_range'_of_length_ge hle]

/-- Where the line is wrapped, what comes after the break stands at the start of the next
    one. -/
theorem LineOf.laid_wrap (h : s.LineOf job font line) :
    let t := s.commit job s.breakAt .wrap
    let rest := line.drop (s.cut s.breakAt .wrap)
    Laid font job.origin.x none t.marks.toList ∧ t.prev = rest.getLast? ∧
      if t.lineStarted then t.penX = job.origin.x + font.room rest else rest = [] := by
  have hcodes : Mark.codes (s.marks.toList.drop (s.cut s.breakAt .wrap)) =
      line.drop (s.cut s.breakAt .wrap) := by
    rw [Mark.codes, List.map_drop, ← h.codes]
    rfl
  cases hrest : s.marks.toList.drop (s.cut s.breakAt .wrap) with
  | nil =>
    obtain ⟨hmarks, hstarted, hprev⟩ := commit_all job hrest
    rw [hrest] at hcodes
    dsimp only
    rw [hmarks, hstarted, hprev, ← hcodes]
    exact ⟨trivial, rfl, rfl⟩
  | cons first rest =>
    have hleft : ∀ u, SameSettings s u → u.paragraph = (LineEnd.wrap == .newline true) →
        u.leftEdge job = job.origin.x := by
      intro u hu _
      rw [← h.leftEdge]
      simp only [LayoutState.leftEdge, hu.table, hu.format, h.table, h.style.format]
      simp [initial, Format.initial]
    obtain ⟨hmarks, hstarted, hpen, hprev, -⟩ := commit_rest hleft LineEnd.noConfusion hrest
    have hlaid := (h.laid.drop hrest).shift (job.origin.x - first.x)
    have hx : first.x + (job.origin.x - first.x) = job.origin.x := by omega
    rw [hx, ← hmarks] at hlaid
    have hshifted : Mark.codes (s.commit job s.breakAt .wrap).marks.toList =
        line.drop (s.cut s.breakAt .wrap) := by
      rw [← hcodes, hrest, hmarks, Mark.codes, List.map_map]
      rfl
    have hlast := hlaid.lastRight
    rw [hshifted] at hlast
    have hlt : ¬ line.length ≤ s.cut s.breakAt .wrap := by
      intro hle
      rw [List.drop_eq_nil_of_le hle, hrest] at hcodes
      cases hcodes
    refine ⟨hlaid, ?_, ?_⟩
    · rw [hprev, h.prev, List.getLast?_drop, if_neg hlt]
    · rw [if_pos hstarted]
      refine Eq.trans ?_ hlast
      cases hend : (s.commit job s.breakAt .wrap).marks.toList.getLast? with
      | none =>
        rw [List.getLast?_eq_none_iff, hmarks] at hend
        cases hend
      | some last =>
        rw [hpen last hend, Mark.lastRight, hend]
        rfl

/-- Where the line is wrapped, what comes after the break begins the next one. -/
theorem LineOf.wrap (h : s.LineOf job font line) :
    let t := s.commit job s.breakAt .wrap
    let cut := lineCut s.lastBreak line
    cut ≤ line.length ∧ t.LineOf job font (line.drop cut) ∧ t.lastBreak = none := by
  have hle : s.cut s.breakAt .wrap ≤ line.length := h.size ▸ cut_le (breakAt_le h.within) .wrap
  obtain ⟨⟨dx, hmarks⟩, -, hbreak, -, -, -, -, htable⟩ := commit_frame job s s.breakAt .wrap
  obtain ⟨hlaid, hprev, hpen⟩ := h.laid_wrap
  rw [← h.cut_eq]
  refine ⟨hle, ⟨h.style.trans (sameStyle_commit job s _ _), ?_, ?_, hlaid, hpen, hprev,
    breakWithin_commit job s _ _⟩, hbreak⟩
  · rw [htable, h.table]
    rfl
  · rw [hmarks, Mark.codes, List.map_map, ← h.codes, Mark.codes, ← List.map_drop]
    rfl

theorem Typeset.wrap (h : s.Typeset job font start line) :
    let t := s.commit job s.breakAt .wrap
    let cut := lineCut s.lastBreak line
    cut ≤ line.length ∧ t.Typeset job font (start + cut) (line.drop cut) ∧ t.lastBreak = none ∧
      ∃ l, t.lines = s.lines.push l ∧ l.events.map (·.index) = List.range' start cut := by
  have hindices := h.indices_commit
  obtain ⟨⟨dx, hmarks⟩, hlines, -⟩ := commit_frame job s s.breakAt .wrap
  obtain ⟨hle, hline, hbreak⟩ := h.lineOf.wrap
  rw [← h.lineOf.cut_eq] at hle hline ⊢
  refine ⟨hle, hline.typeset ?_ ?_, hbreak, _, hlines, hindices⟩
  · rw [hmarks, List.map_map]
    change (s.marks.toList.drop _).map (·.index) = _
    rw [List.map_drop, h.indices, List.drop_range', List.length_drop, Nat.mul_one]
  · rw [hlines, Array.toList_push, events, List.flatMap_append, List.flatMap_singleton,
      List.map_append, hindices]
    have hreported := h.reported
    rw [events] at hreported
    rw [hreported, List.range_eq_range', List.range_eq_range']
    have happend := List.range'_append_1 (s := 0) (m := start) (n := s.cut s.breakAt .wrap)
    rwa [Nat.zero_add] at happend

/-- The line is wrapped exactly if its code points do not fit on it. -/
theorem LineOf.overflows_iff (h : s.LineOf job font line) (hs : s.lineStarted = true)
    (hwidth : 0 < job.width) : s.Overflows job ↔ job.width < font.room line := by
  have hpen := h.pen
  have hwrap : s.wrapWidth = job.width := by
    rw [h.style.wrapWidth]
    exact Int.max_eq_left (Int.le_of_lt hwidth)
  have hword : s.wordWrap = true := h.style.wordWrap
  rw [if_pos hs] at hpen
  simp only [Overflows, hword, hwrap, h.table, hpen, Option.isNone_none, true_and]
  omega

/-- A code point stays on the line if the line fits with it, and otherwise some of the line
    is reported. -/
theorem Typeset.step (h : s.Typeset job font start line) (hwidth : 0 < job.width) {c : Nat}
    (hc : c = CodePoint.space ∨ IsLetter c) :
    let t := s.step job ⟨start + line.length, .text c⟩
    let noted := if CodePoint.isBreaking c then some line.length else s.lastBreak
    let after := job.printer.breakingLetters.contains c
    (font.room (line ++ [c]) ≤ job.width ∧ t.Typeset job font start (line ++ [c]) ∧
      t.lines = s.lines ∧ t.lastBreak = if after then some (line ++ [c]).length else noted) ∨
    (job.width < font.room (line ++ [c]) ∧ lineCut noted (line ++ [c]) ≤ (line ++ [c]).length ∧
      let rest := (line ++ [c]).drop (lineCut noted (line ++ [c]))
      t.Typeset job font (start + lineCut noted (line ++ [c])) rest ∧
      (∃ l, t.lines = s.lines.push l ∧
        l.events.map (·.index) = List.range' start (lineCut noted (line ++ [c]))) ∧
      t.lastBreak = if after then some rest.length else none) := by
  obtain ⟨u, hu, hstarted, hbreak, hlines, hstep⟩ := h.glyph hc
  have hiff := hu.lineOf.overflows_iff hstarted hwidth
  have hnote : ∀ (v : LayoutState) (p : Bool), (v.noteBreak p).lines = v.lines := by
    intro v p
    cases p <;> rfl
  dsimp only
  rw [hstep, ← hbreak]
  by_cases hover : u.Overflows job
  · rw [checkWrap_of_overflows hover]
    obtain ⟨hle, htypeset, hnone, l, hpush, hl⟩ := hu.wrap
    refine Or.inr ⟨hiff.1 hover, hle, htypeset.noteBreak _, ⟨l, ?_, hl⟩, ?_⟩
    · rw [hnote, hpush, hlines]
    · rw [lastBreak_noteBreak, htypeset.size, hnone]
  · rw [checkWrap_of_not_overflows hover]
    refine Or.inl ⟨Int.not_lt.1 fun hlt => hover (hiff.2 hlt), hu.noteBreak _, ?_, ?_⟩
    · rw [hnote, hlines]
    · rw [lastBreak_noteBreak, hu.size]

/-! ### Places for a break -/

theorem isBlankCode_space : isBlankCode CodePoint.space = true := by decide

theorem isBlankCode_letter {c : Nat} (h : IsLetter c) : isBlankCode c = false := by
  simp only [isBlankCode, h.notSpace, Bool.false_or, beq_eq_false_iff_ne]
  exact h.notTab

theorem isBreaking_letter {c : Nat} (h : IsLetter c) : CodePoint.isBreaking c = false := by
  simp only [CodePoint.isBreaking, h.notSpace, Bool.false_and]

/-- A line is broken behind the spaces after the noted place. -/
theorem lineCut_of_noted {o : Nat} {line : List Nat} (ho : 0 < o) (hle : o ≤ line.length)
    (hspaces : ∀ d ∈ line.drop o, d = CodePoint.space) {c : Nat} (hc : IsLetter c)
    (rest : List Nat) : lineCut (some o) (line ++ c :: rest) = line.length := by
  have hblank : ∀ d ∈ line.drop o, isBlankCode d = true := by
    intro d hd
    rw [hspaces d hd]
    exact isBlankCode_space
  have hletter : ¬ isBlankCode c = true := by
    rw [isBlankCode_letter hc]
    exact Bool.false_ne_true
  simp only [lineCut, breakPos, if_pos ho, List.drop_append_of_le_length hle,
    List.takeWhile_append_of_pos hblank, List.takeWhile_cons_of_neg hletter, List.append_nil,
    List.length_drop]
  omega

/-- Where the start of the line alone is noted, the line is broken before the letter that does
    not fit. -/
theorem lineCut_of_start {line : List Nat} (hline : line ≠ []) {c : Nat} (hc : IsLetter c) :
    lineCut (some 0) (line ++ [c]) = line.length := by
  have hletter : ¬ isBlankCode c = true := by
    rw [isBlankCode_letter hc]
    exact Bool.false_ne_true
  have hpos := List.length_pos_iff.2 hline
  have hsize : ¬ line.length + 1 ≤ 1 := by omega
  simp only [lineCut, breakPos, Nat.lt_irrefl, if_false, List.length_append, List.length_singleton,
    if_neg hsize, Nat.add_sub_cancel, List.drop_left, List.takeWhile_cons_of_neg hletter,
    List.length_nil, Nat.add_zero]

/-- A space that does not fit is reported with all before it. -/
theorem drop_lineCut_space (line : List Nat) :
    (line ++ [CodePoint.space]).drop
      (lineCut (some line.length) (line ++ [CodePoint.space])) = [] := by
  refine List.drop_eq_nil_of_le ?_
  cases line with
  | nil => decide
  | cons c line =>
    have hpos : 0 < (c :: line).length := Nat.succ_pos _
    simp only [lineCut, breakPos, if_pos hpos, List.drop_left, List.length_append,
      List.takeWhile_cons_of_pos isBlankCode_space]
    exact Nat.le_refl _

theorem breakPos_succ_le {noted : Option Nat} {n : Nat} (hn : 0 < n)
    (h : ∀ pos, noted = some pos → pos ≤ n) : breakPos noted (n + 1) ≤ n := by
  cases noted with
  | none =>
    simp only [breakPos]
    split <;> omega
  | some pos =>
    have hpos := h pos rfl
    simp only [breakPos]
    split_ifs <;> omega

/-- Of a line that is broken nothing is left exactly if the code point that does not fit is a
    space, or stands there alone. -/
theorem drop_lineCut_eq_nil_iff {line : List Nat} {noted : Option Nat}
    (hnoted : ∀ pos, noted = some pos → pos ≤ line.length) {c : Nat}
    (hc : c = CodePoint.space ∨ IsLetter c) :
    (line ++ [c]).drop (lineCut (if CodePoint.isBreaking c then some line.length else noted)
      (line ++ [c])) = [] ↔ c = CodePoint.space ∨ line = [] := by
  have hbreaking : CodePoint.isBreaking CodePoint.space = true := by decide
  rcases hc with rfl | hletter
  · rw [if_pos hbreaking]
    exact iff_of_true (drop_lineCut_space line) (Or.inl rfl)
  have hspace : c ≠ CodePoint.space := by
    rintro rfl
    exact absurd hletter.notSpace (by decide)
  rw [isBreaking_letter hletter, if_neg Bool.false_ne_true, or_iff_right hspace]
  have hsize : (line ++ [c]).length = line.length + 1 := List.length_append
  constructor
  · -- Behind a break within the line the letter stands, which is no blank.
    intro hnil
    by_contra hline
    have hpos : breakPos noted (line ++ [c]).length ≤ line.length :=
      hsize ▸ breakPos_succ_le (List.length_pos_iff.2 hline) hnoted
    have hrest : ((line ++ [c]).drop (breakPos noted (line ++ [c]).length)).length ≤
        (((line ++ [c]).drop (breakPos noted (line ++ [c]).length)).takeWhile isBlankCode).length := by
      have hle := List.drop_eq_nil_iff.1 hnil
      rw [lineCut] at hle
      rw [List.length_drop]
      omega
    have hsame := (List.takeWhile_prefix isBlankCode).eq_of_length_le hrest
    have hall : ((line ++ [c]).drop (breakPos noted (line ++ [c]).length)).all isBlankCode = true :=
      hsame ▸ List.all_takeWhile
    rw [List.drop_append_of_le_length hpos, List.all_eq_true] at hall
    have hblank := hall c (List.mem_append_right _ List.mem_cons_self)
    rw [isBlankCode_letter hletter] at hblank
    cases hblank
  · rintro rfl
    have hpos := breakPos_pos noted Nat.one_pos
    refine List.drop_eq_nil_of_le ?_
    rw [lineCut]
    exact Nat.le_trans hpos (Nat.le_add_right _ _)

/-- A code point comes to stand behind the others. Nothing is left of the line exactly if it
    does not fit, and is a space or alone there. -/
theorem LineOf.step (h : s.LineOf job font line) (hwidth : 0 < job.width) {c : Nat}
    (hc : c = CodePoint.space ∨ IsLetter c) (index : Nat) :
    let t := s.step job ⟨index, .text c⟩
    ∃ rest, t.LineOf job font rest ∧
      (rest = [] ↔ job.width < font.room (line ++ [c]) ∧ (c = CodePoint.space ∨ line = [])) ∧
      (rest ≠ [] → ∃ m ∈ t.marks.toList, m.index = index) := by
  obtain ⟨u, m, hu, hstarted, hbreak, -, hlist, hindex, hstep⟩ := h.glyph hc index
  have hiff := hu.overflows_iff hstarted hwidth
  have hne : line ++ [c] ≠ [] := List.append_ne_nil_of_right_ne_nil _ (List.cons_ne_nil _ _)
  have hmarks : ∀ (v : LayoutState) (p : Bool), (v.noteBreak p).marks = v.marks := by
    intro v p
    cases p <;> rfl
  dsimp only
  rw [hstep, hmarks]
  by_cases hover : u.Overflows job
  · rw [checkWrap_of_overflows hover]
    obtain ⟨-, hline, -⟩ := hu.wrap
    obtain ⟨⟨dx, hrest⟩, -⟩ := commit_frame job u u.breakAt .wrap
    have hnoted : ∀ pos, s.lastBreak = some pos → pos ≤ line.length :=
      fun pos hpos => h.size ▸ h.within pos hpos
    rw [hbreak] at hline
    refine ⟨_, hline.noteBreak _, ?_, ?_⟩
    · rw [drop_lineCut_eq_nil_iff hnoted hc]
      exact (and_iff_right (hiff.1 hover)).symm
    · intro hleft
      have hcut : u.cut u.breakAt .wrap ≤ s.marks.toList.length := by
        have hlength : s.marks.toList.length = line.length := Array.length_toList.trans h.size
        rw [hu.cut_eq, hbreak, hlength]
        by_contra hlt
        refine hleft (List.drop_eq_nil_of_le ?_)
        rw [List.length_append, List.length_singleton]
        omega
      refine ⟨m.shift dx, ?_, hindex⟩
      rw [hrest, hlist, List.drop_append_of_le_length hcut, List.map_append]
      exact List.mem_append_right _ List.mem_cons_self
  · rw [checkWrap_of_not_overflows hover]
    refine ⟨_, hu.noteBreak _, ?_, fun _ => ⟨m, ?_, hindex⟩⟩
    · exact iff_of_false hne fun hpast => hover (hiff.2 hpast.1)
    · rw [hlist]
      exact List.mem_append_right _ List.mem_cons_self

/-- Behind a breaking letter the end of the line is noted, and behind a space the place before
    it. -/
def Noted (breaking : List Nat) (line : List Nat) (noted : Option Nat) : Prop :=
  ∀ c, line.getLast? = some c →
    (breaking.contains c = true → noted = some line.length) ∧
      (c = CodePoint.space → breaking.contains c = false → noted = some (line.length - 1))

/-- From the noted place on there are spaces alone. It is the start of the line only before a
    space that stands there alone. -/
theorem Noted.spaces {breaking : List Nat} {noted : Option Nat} (h : Noted breaking line noted)
    {c : Nat} (hlast : line.getLast? = some c)
    (hplace : c = CodePoint.space ∨ breaking.contains c = true) :
    ∃ o, noted = some o ∧ o ≤ line.length ∧ (∀ d ∈ line.drop o, d = CodePoint.space) ∧
      (o = 0 → line = [CodePoint.space] ∧ breaking.contains CodePoint.space = false) := by
  obtain ⟨init, rfl⟩ := List.getLast?_eq_some_iff.1 hlast
  obtain ⟨hafter, hbefore⟩ := h c hlast
  rw [List.length_append, List.length_singleton] at hafter hbefore
  cases hbreaking : breaking.contains c with
  | true =>
    have hlength : (init ++ [c]).length = init.length + 1 := List.length_append
    rw [← hlength] at hafter
    refine ⟨_, hafter hbreaking, Nat.le_refl _, ?_, fun h0 => nomatch hlength ▸ h0⟩
    rw [List.drop_length]
    exact fun d hd => nomatch hd
  | false =>
    obtain rfl : c = CodePoint.space := hplace.resolve_right fun h => nomatch hbreaking ▸ h
    refine ⟨init.length, hbefore rfl hbreaking, ?_, ?_, ?_⟩
    · rw [List.length_append]
      exact Nat.le_add_right _ _
    · rw [List.drop_left]
      exact fun d hd => List.mem_singleton.1 hd
    · intro h0
      rw [List.length_eq_zero_iff.1 h0]
      exact ⟨rfl, hbreaking⟩

theorem Typeset.noted_step (h : s.Typeset job font start line) (hwidth : 0 < job.width) {c : Nat}
    (hc : c = CodePoint.space ∨ IsLetter c) :
    ∃ start' line', start' + line'.length = start + line.length + 1 ∧ line' <:+ line ++ [c] ∧
      (s.step job ⟨start + line.length, .text c⟩).Typeset job font start' line' ∧
      Noted job.printer.breakingLetters line'
        (s.step job ⟨start + line.length, .text c⟩).lastBreak := by
  rcases h.step hwidth hc with ⟨-, ht, -, hbreak⟩ | ⟨-, hle, ht, -, hbreak⟩
  · refine ⟨start, line ++ [c], ?_, List.suffix_rfl, ht, ?_⟩
    · rw [List.length_append, List.length_singleton, Nat.add_assoc]
    · intro d hd
      rw [List.getLast?_concat, Option.some.injEq] at hd
      subst hd
      rw [hbreak]
      constructor
      · exact fun hafter => if_pos hafter
      · rintro rfl hafter
        rw [hafter, if_neg Bool.false_ne_true, List.length_append]
        rfl
  · refine ⟨_, _, ?_, List.drop_suffix _ _, ht, ?_⟩
    · rw [List.length_append, List.length_singleton] at hle
      rw [List.length_drop, List.length_append, List.length_singleton]
      omega
    · intro d hd
      have hlast := hd
      rw [List.getLast?_drop, List.getLast?_concat] at hlast
      obtain rfl : c = d := Option.some.inj (Option.ite_none_left_eq_some.1 hlast).2
      rw [hbreak]
      constructor
      · exact fun hafter => if_pos hafter
      · -- A space would have gone with the line.
        rintro rfl -
        have hbreaking : CodePoint.isBreaking CodePoint.space = true := by decide
        rw [if_pos hbreaking, drop_lineCut_space] at hd
        cases hd

/-! ### Runs over a text of words -/

/-- The state after the code points `cs`. -/
def stateAfter (job : Job) (font : Font) (cs : List Nat) : LayoutState :=
  (initial job font).run job (lexemes cs)

theorem stateAfter_append_singleton {cs : List Nat} {c : Nat} (h : OfWords (cs ++ [c])) :
    stateAfter job font (cs ++ [c]) =
      (stateAfter job font cs).step job ⟨cs.length, .text c⟩ := by
  have hread := h.read (List.mem_append_right cs List.mem_cons_self) []
  simp only [stateAfter, h.lexemes_append, lexemesFrom, hread]
  exact List.foldl_append ..

/-- The line being filled is the end of the text so far. -/
theorem typeset_stateAfter (font : Font) (hwidth : 0 < job.width) {cs : List Nat} (h : OfWords cs) :
    ∃ start line, start + line.length = cs.length ∧ line <:+ cs ∧
      (stateAfter job font cs).Typeset job font start line ∧
      Noted job.printer.breakingLetters line (stateAfter job font cs).lastBreak := by
  induction cs using List.reverseRecOn with
  | nil => exact ⟨0, [], rfl, List.suffix_rfl, typeset_initial job font, fun _ h => nomatch h⟩
  | append_singleton cs c ih =>
    have hcs : OfWords cs := fun d hd => h d (List.mem_append_left _ hd)
    obtain ⟨start, line, hlength, hsuffix, htypeset, -⟩ := ih hcs
    obtain ⟨start', line', hlength', hsuffix', h'⟩ :=
      htypeset.noted_step hwidth (h c (List.mem_append_right cs List.mem_cons_self))
    have hline : line ++ [c] <:+ cs ++ [c] := by
      obtain ⟨earlier, rfl⟩ := hsuffix
      exact ⟨earlier, (List.append_assoc ..).symm⟩
    rw [stateAfter_append_singleton h, ← hlength]
    refine ⟨start', line', ?_, hsuffix'.trans hline, h'⟩
    rw [hlength', hlength, List.length_append, List.length_singleton]

end LayoutState

end RichText
