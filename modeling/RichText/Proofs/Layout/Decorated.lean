/-
  RichText/Proofs/Layout/Decorated.lean
  =====================================
  **Underlines and strikethroughs run along the glyphs that they were meant for.**

  Between two tokens the rules of the line being filled cover the marks that were covered
  when they were put there (`Decorated`), and the marks stand side by side (`Ruled`).  Both
  are kept where a mark is put behind the others and where a line goes, and so they hold
  wherever one is committed (`CommitsAt.settable`).  On the lines a glyph has the rule that it
  should have, and besides it a rule that went on over a wrap and was closed when nothing had
  come after it: that one is drawn along the first glyph of the line all the same
  (`Printer.rules_along_glyphs`).
-/
import Mathlib.Data.List.Chain
import RichText.Proofs.Layout.Closing
import RichText.Proofs.Layout.Coverage

namespace RichText

/-- Where a relation goes on over the members of a chain, each of them is related to all that
    come after it. -/
theorem pairwise_of_isChain_of_trans {α : Type} {R : α → α → Prop} {P : α → Prop}
    (htrans : ∀ a b c, P b → R a b → R b c → R a c) {as : List α} (h : as.IsChain R)
    (hall : ∀ a ∈ as, P a) : as.Pairwise R := by
  induction as with
  | nil => exact .nil
  | cons a as ih =>
    have has := ih h.tail fun b hb => hall b (List.mem_cons_of_mem a hb)
    refine List.pairwise_cons.2 ⟨?_, has⟩
    cases as with
    | nil => exact fun _ h => nomatch h
    | cons b as =>
      have hab : R a b := (List.isChain_cons_cons.1 h).1
      have hb := hall b (List.mem_cons_of_mem a List.mem_cons_self)
      intro c hc
      rcases List.mem_cons.1 hc with rfl | hc
      · exact hab
      · exact htrans a b c hb hab ((List.pairwise_cons.1 has).1 c hc)

/-! ### What covers a glyph -/

namespace LayoutState

def decorations (s : LayoutState) : Decoration → Decorations
  | .underline => s.underline
  | .strike => s.strike

/-- Whether a decoration covers a mark, as the formatting and the font are. -/
def coversMark (s : LayoutState) (d : Decoration) (m : Mark) : Bool :=
  match d with
  | .underline =>
    covers s.format.underline s.font.style.underline m.code m.kind
      (m.kind == .glyph true && s.font.face.descends m.code)
  | .strike => covers s.format.strike s.font.style.strike m.code m.kind false

/-- Whether a decoration covers the mark that was put on the line last. -/
def coversLast (u : LayoutState) (d : Decoration) : Bool := u.marks.back?.any (u.coversMark d)

/-- How many rules stop before the mark that was put on the line last, which is the first
    there. -/
def leftOvers (u : LayoutState) (d : Decoration) : Nat :=
  if u.marks.size = 1 then (u.decorations d).leftOvers else 0

/-- The state in which the token at a position has put its mark on the line. -/
def markedAt (job : Job) (i : Nat) : LayoutState → List Lexeme → Option LayoutState
  | _, [] => none
  | s, l :: ls => if l.index = i then s.marked? job l else markedAt job i (s.step job l) ls

theorem markedAt_append {job : Job} {s : LayoutState} {seen rest : List Lexeme} {l : Lexeme}
    (h : ∀ k ∈ seen, k.index ≠ l.index) :
    s.markedAt job l.index (seen ++ l :: rest) = (s.run job seen).marked? job l := by
  induction seen generalizing s with
  | nil => exact if_pos rfl
  | cons k seen ih =>
    refine (if_neg (h k List.mem_cons_self)).trans ?_
    exact ih fun m hm => h m (List.mem_cons_of_mem k hm)

end LayoutState

/-- The state in the layout of `cs` in which the token at a position has put its mark on the
    line. -/
def Job.markedAt (job : Job) (font : Font) (cs : List Nat) (i : Nat) : Option LayoutState :=
  (LayoutState.initial job font).markedAt job i (lexemes cs)

theorem Job.markedAt_of_split {job : Job} {font : Font} {cs : List Nat} {seen rest : List Lexeme}
    {l : Lexeme} (h : lexemes cs = seen ++ l :: rest) :
    job.markedAt font cs l.index =
      ((LayoutState.initial job font).run job seen).marked? job l := by
  have hpairs := pairwise_lexemes cs
  rw [h, List.pairwise_append] at hpairs
  rw [Job.markedAt, h]
  refine LayoutState.markedAt_append fun k hk => ?_
  exact Nat.ne_of_lt (hpairs.2.2 k hk l List.mem_cons_self)

/-! ### Rules of the line being filled -/

/-- The rules of one kind cover the marks as they were covered when they were put on the
    line, and what was left over by then is there for the first mark. -/
structure Decorated (placed : Nat → Option LayoutState) (d : Decoration) (ms : List Mark)
    (r : Decorations) : Prop where
  begun : r.Begun ms.length
  marks : ∀ i m, ms[i]? = some m → ∃ u, placed m.index = some u ∧
    (r.count i = if u.coversLast d then 1 else 0) ∧
    u.leftOvers d = if i = 0 then r.leftOvers else 0

namespace Decorated

variable {placed : Nat → Option LayoutState} {d : Decoration} {ms : List Mark} {r : Decorations}

theorem of_empty (h : r.Begun 0) : Decorated placed d [] r :=
  ⟨h, fun _ _ h => nomatch h⟩

theorem close (h : Decorated placed d ms r) : Decorated placed d ms (r.close ms.length) := by
  refine ⟨h.begun.close, ?_⟩
  intro i m hm
  obtain ⟨hi, -⟩ := List.getElem?_eq_some_iff.1 hm
  rw [r.count_close hi, r.leftOvers_close (Nat.zero_lt_of_lt hi)]
  exact h.marks i m hm

/-- A mark is put behind the others with the rules for it. -/
theorem push (h : Decorated placed d ms r) {m : Mark} {u : LayoutState}
    {rule : Option (Rule × Int)} (hplaced : placed m.index = some u)
    (hsize : u.marks.size = ms.length + 1) (hrules : u.decorations d = r.update ms.length rule)
    (hcovers : u.coversLast d = rule.isSome) (hgaps : ∀ r ∈ rule, r.1.gaps = false) :
    Decorated placed d (ms ++ [m]) (r.update ms.length rule) := by
  refine ⟨?_, ?_⟩
  · rw [List.length_append]
    exact h.begun.update hgaps
  · intro i k hk
    rcases Nat.lt_or_ge i ms.length with hi | hi
    · rw [List.getElem?_append_left hi] at hk
      rw [r.count_update rule hi, r.leftOvers_update (Nat.zero_lt_of_lt hi)]
      exact h.marks i k hk
    · rw [List.getElem?_append_right hi, List.getElem?_singleton] at hk
      split at hk
      · next hlast =>
        cases hk
        obtain rfl : i = ms.length := by omega
        refine ⟨u, hplaced, ?_, ?_⟩
        · rw [h.begun.count_update_self, hcovers]
        · simp only [LayoutState.leftOvers, hsize, Nat.add_eq_right, hrules]
      · cases hk

/-- Where a line goes the marks behind it keep their rules, and nothing is left over. -/
theorem carry (h : Decorated placed d ms r) {cut : Nat} (hcut : 0 < cut) (dx : Int) :
    Decorated placed d ((ms.drop cut).map (Mark.shift dx)) (r.carry cut) := by
  refine ⟨?_, ?_⟩
  · rw [List.length_map, List.length_drop]
    exact h.begun.carry cut
  · intro i m hm
    rw [List.getElem?_map, List.getElem?_drop, Option.map_eq_some_iff] at hm
    obtain ⟨k, hk, rfl⟩ := hm
    obtain ⟨u, hplaced, hcount, hleft⟩ := h.marks (cut + i) k hk
    refine ⟨u, hplaced, ?_, ?_⟩
    · rw [r.count_carry, Nat.add_comm, hcount]
    · rw [hleft, if_neg (by omega), h.begun.leftOvers_carry, ite_self]

theorem shown (h : Decorated placed d ms r) {i : Nat} {m : Mark} (hm : ms[i]? = some m) :
    ∃ u, placed m.index = some u ∧
      r.shown i = (if u.coversLast d then 1 else 0) + u.leftOvers d := by
  obtain ⟨u, hplaced, hcount, hleft⟩ := h.marks i m hm
  refine ⟨u, hplaced, ?_⟩
  cases i with
  | zero => rw [h.begun.shown_zero, hcount, hleft, if_pos rfl]
  | succ i => rw [r.shown_succ, hcount, hleft, if_neg (Nat.succ_ne_zero i), Nat.add_zero]

end Decorated

namespace LayoutState

variable {job : Job} {font : Font} {s t u v : LayoutState} {placed : Nat → Option LayoutState}
  {content : Nat} {reason : LineEnd}

/-! ### Settings under which marks stand side by side -/

/-- No table, no offset of letters, no negative spacing, no justification and no gaps in
    decorations. -/
structure Steady (s : LayoutState) : Prop where
  table : s.table = none
  offset : s.letterOffset.x = 0
  spacing : 0 ≤ s.letterSpacing
  justify : s.format.justify.getD s.font.style.justify = false
  noGaps : ∀ d, (s.format.line d).settings.gaps = false

theorem Steady.congr (h : s.Steady) (hstyle : SameStyle s t) (htable : t.table = s.table) :
    t.Steady where
  table := htable.trans h.table
  offset := letterOffset_congr hstyle ▸ h.offset
  spacing := letterSpacing_congr hstyle ▸ h.spacing
  justify := by
    rw [hstyle.format, hstyle.font]
    exact h.justify
  noGaps := by
    rw [hstyle.format]
    exact h.noGaps

/-! ### Marks side by side, with their rules -/

/-- The marks of the line being filled stand side by side with the rules that they should
    have. -/
structure Ruled (placed : Nat → Option LayoutState) (s : LayoutState) : Prop where
  chain : s.marks.toList.IsChain fun m k => m.right ≤ k.x
  pen : ∀ last, s.marks.toList.getLast? = some last → s.lineStarted = true ∧ last.right ≤ s.penX
  offset : ∀ m ∈ s.marks.toList, m.offset.x = 0
  kind : ∀ m ∈ s.marks.toList, m.kind.isEnd = false
  decorated : ∀ d, Decorated placed d s.marks.toList (s.decorations d)

theorem ruled_of_empty (hmarks : s.marks.toList = []) (h : ∀ d, (s.decorations d).Begun 0) :
    s.Ruled placed := by
  refine ⟨?_, ?_, ?_, ?_, ?_⟩ <;> rw [hmarks]
  · exact .nil
  · exact fun _ h => nomatch h
  · exact fun _ h => nomatch h
  · exact fun _ h => nomatch h
  · exact fun d => .of_empty (h d)

theorem ruled_initial (job : Job) (font : Font) : (initial job font).Ruled placed := by
  refine ruled_of_empty rfl fun d => ?_
  cases d <;> exact Decorations.begun_empty 0

theorem Ruled.idle (h : s.Ruled placed) (hst : Idle s t) : t.Ruled placed := by
  refine ⟨?_, ?_, ?_, ?_, ?_⟩ <;> rw [hst.marks]
  · exact h.chain
  · rw [hst.lineStarted, hst.penX]
    exact h.pen
  · exact h.offset
  · exact h.kind
  · intro d
    have hsize : s.marks.size = s.marks.toList.length := Array.length_toList.symm
    have hd := h.decorated d
    rcases hst.rules with ⟨hunder, hstrike⟩ | ⟨hunder, hstrike⟩
    · have hsame : t.decorations d = s.decorations d := by
        cases d
        · exact hunder
        · exact hstrike
      rw [hsame]
      exact hd
    · have hclosed : t.decorations d = (s.decorations d).close s.marks.toList.length := by
        rw [← hsize]
        cases d
        · exact hunder
        · exact hstrike
      rw [hclosed]
      exact hd.close

/-- Before a glyph the pen moves on by the room between letters. -/
theorem roomBefore_nonneg (hspacing : 0 ≤ s.letterSpacing)
    (hkerning : ∀ c d, s.font.face.kerning c d = 0) {c : Nat} (hc : CodePoint.isSpaced c = true) :
    0 ≤ s.roomBefore c := by
  simp only [roomBefore, hc, if_true, hkerning]
  split
  · exact Int.le_refl 0
  · cases s.prev with
    | none => exact Int.le_refl 0
    | some p =>
      dsimp only
      omega

theorem Ruled.beginLine (h : s.Ruled placed) (job : Job) : (s.beginLine job).Ruled placed := by
  simp only [LayoutState.beginLine]
  split
  · exact h
  · next hstarted =>
    have hmarks : s.marks.toList = [] := by
      cases hlast : s.marks.toList.getLast? with
      | none => exact List.getLast?_eq_none_iff.1 hlast
      | some last => exact absurd (h.pen last hlast).1 hstarted
    refine ruled_of_empty hmarks fun d => ?_
    have hbegun := (h.decorated d).begun
    rw [hmarks] at hbegun
    exact hbegun

theorem Ruled.noteBreak (h : s.Ruled placed) (p : Bool) : (s.noteBreak p).Ruled placed := by
  refine h.idle ?_
  cases p <;> exact {}

theorem Ruled.movePen (h : s.Ruled placed) {x : Int} (hx : s.penX ≤ x) :
    { s with penX := x }.Ruled placed := by
  refine ⟨h.chain, ?_, h.offset, h.kind, h.decorated⟩
  intro last hlast
  obtain ⟨hstarted, hpen⟩ := h.pen last hlast
  exact ⟨hstarted, Int.le_trans hpen hx⟩

theorem Ruled.beforeMark (h : s.Ruled placed) (hs : s.Steady)
    (hkerning : ∀ c d, s.font.face.kerning c d = 0) {c : Nat} (hc : CodePoint.isSpaced c = true) :
    (beforeMark job s c).Ruled placed := by
  have hstyle : SameStyle s ((s.beginLine job).noteBreak (CodePoint.isBreaking c)) :=
    (sameStyle_beginLine job s).trans (sameStyle_noteBreak _ _)
  have hruled := (h.beginLine job).noteBreak (CodePoint.isBreaking c)
  refine hruled.movePen ?_
  have hspacing : 0 ≤ ((s.beginLine job).noteBreak (CodePoint.isBreaking c)).letterSpacing :=
    letterSpacing_congr hstyle ▸ hs.spacing
  have hroom := roomBefore_nonneg hspacing (hstyle.font ▸ hkerning) hc
  omega

/-- The rules for a mark are those that are open for it, or a new one. -/
theorem decorations_pushMark (job : Job) (s : LayoutState) (code : Nat) (kind : MarkKind)
    (advance : Int) (index : Nat) (d : Decoration) :
    let t := s.pushMark job code kind advance index
    ∃ rule, t.decorations d = (s.decorations d).update s.marks.toList.length rule ∧
      t.coversLast d = rule.isSome ∧ ∀ r ∈ rule, r.1.gaps = (s.format.line d).settings.gaps := by
  intro t
  have hline := sameLine_beginLine job s
  have hstyle := sameStyle_beginLine job s
  have hback : t.marks.back? = some (newMark job s code kind advance index) := by
    rw [marks_pushMark, Array.back?_push]
  have hsome : ∀ {p : Bool} {r : Rule × Int}, p = (if p = true then some r else none).isSome := by
    intro p r
    cases p <;> rfl
  have hgaps : ∀ {p : Bool} {r : Rule × Int} {gaps : Bool}, r.1.gaps = gaps →
      ∀ q ∈ (if p = true then some r else none), q.1.gaps = gaps := by
    intro p r gaps hr q hq
    cases p with
    | false => cases hq
    | true =>
      cases hq
      exact hr
  rw [Array.length_toList, coversLast, hback, ← hline.marks, ← hstyle.format]
  cases d with
  | underline =>
    change ∃ rule, t.underline = s.underline.update _ rule ∧ _
    rw [← hline.underline]
    exact ⟨_, rfl, hsome, hgaps rfl⟩
  | strike =>
    change ∃ rule, t.strike = s.strike.update _ rule ∧ _
    rw [← hline.strike]
    exact ⟨_, rfl, hsome, hgaps rfl⟩

/-- A mark is put behind the others, at the pen or to the right of it. -/
theorem Ruled.chain_pushMark (h : s.Ruled placed) (job : Job) (code : Nat) (kind : MarkKind)
    (advance : Int) (index : Nat) :
    (s.pushMark job code kind advance index).marks.toList.IsChain fun m k => m.right ≤ k.x := by
  rw [toList_pushMark, List.isChain_append]
  refine ⟨h.chain, List.isChain_singleton _, ?_⟩
  intro last hlast m hm
  obtain rfl : newMark job s code kind advance index = m := Option.some.inj hm
  obtain ⟨hstarted, hpen⟩ := h.pen last hlast
  have hbegin : s.beginLine job = s := if_pos hstarted
  have hx : (newMark job s code kind advance index).x = s.penX :=
    congrArg LayoutState.penX hbegin
  rw [hx]
  exact hpen

theorem Ruled.offset_pushMark (h : s.Ruled placed) (hs : s.Steady) (job : Job) (code : Nat)
    (kind : MarkKind) (advance : Int) (index : Nat) :
    ∀ m ∈ (s.pushMark job code kind advance index).marks.toList, m.offset.x = 0 := by
  intro m hm
  rw [toList_pushMark] at hm
  rcases List.mem_append.1 hm with hm | hm
  · exact h.offset m hm
  · have hstyle := sameStyle_beginLine job s
    have hoffset : (newMark job s code kind advance index).offset = s.letterOffset := by
      simp only [newMark, letterOffset, hstyle.format, hstyle.font]
    rw [List.mem_singleton.1 hm, hoffset]
    exact hs.offset

theorem Ruled.pushMark (h : s.Ruled placed) (hs : s.Steady) {code : Nat} {kind : MarkKind}
    {advance : Int} {index : Nat} (hkind : kind.isEnd = false)
    (hplaced : placed index = some (s.pushMark job code kind advance index)) :
    (s.pushMark job code kind advance index).Ruled placed := by
  have hlist := toList_pushMark job s code kind advance index
  refine ⟨h.chain_pushMark job code kind advance index, ?_,
    h.offset_pushMark hs job code kind advance index, ?_, ?_⟩
  · obtain ⟨hpen, -, hstarted⟩ := pen_pushMark job s code kind advance index
    intro last hlast
    rw [hlist, List.getLast?_concat] at hlast
    obtain rfl : newMark job s code kind advance index = last := Option.some.inj hlast
    exact ⟨hstarted, Int.le_of_eq hpen.symm⟩
  · intro m hm
    rw [hlist] at hm
    rcases List.mem_append.1 hm with hm | hm
    · exact h.kind m hm
    · rw [List.mem_singleton.1 hm]
      exact hkind
  · intro d
    obtain ⟨rule, hrules, hcovers, hgaps⟩ := decorations_pushMark job s code kind advance index d
    have hsize :
        (s.pushMark job code kind advance index).marks.size = s.marks.toList.length + 1 := by
      rw [size_pushMark, Array.length_toList]
    rw [hlist, hrules]
    refine (h.decorated d).push hplaced hsize hrules hcovers ?_
    intro r hr
    rw [hgaps r hr]
    exact hs.noGaps d

/-- No end waits on the line but the one that is put there to close it, which takes no
    room. -/
theorem Ruled.ends (h : s.Ruled placed) :
    ∀ m ∈ s.marks.toList, m.kind.isEnd = true → m.advance = 0 := by
  intro m hm hend
  rw [h.kind m hm] at hend
  cases hend

theorem Ruled.ends_pushMark (h : s.Ruled placed) (job : Job) (code : Nat) (kind : MarkKind)
    (index : Nat) : ∀ m ∈ (s.pushMark job code kind 0 index).marks.toList,
      m.kind.isEnd = true → m.advance = 0 := by
  intro m hm
  rw [toList_pushMark] at hm
  rcases List.mem_append.1 hm with hm | hm
  · exact h.ends m hm
  · rw [List.mem_singleton.1 hm]
    exact fun _ => rfl

/-! ### A line goes -/

/-- Marks that are moved as one stay apart. -/
theorem isChain_map_shift {ms : List Mark} (h : ms.IsChain fun m k => m.right ≤ k.x) (dx : Int) :
    (ms.map (Mark.shift dx)).IsChain fun m k => m.right ≤ k.x := by
  rw [List.isChain_map]
  refine h.imp ?_
  intro m k hmk
  rw [Mark.right_shift]
  exact Int.add_le_add_right hmk dx

theorem decorations_commit (job : Job) (s : LayoutState) (content : Nat) (reason : LineEnd)
    (d : Decoration) :
    (s.commit job content reason).decorations d =
      (s.decorations d).carry (s.cut content reason) := by
  obtain ⟨-, -, -, hunder, hstrike, -⟩ := commit_frame job s content reason
  cases d
  · exact hunder
  · exact hstrike

/-- Where all marks of a line go the rules that are open go on. -/
theorem ruled_commitAll (job : Job) (s : LayoutState) {reason : LineEnd} (hr : reason ≠ .wrap)
    (h : ∀ d, (s.decorations d).Begun s.marks.size) : (s.commitAll job reason).Ruled placed := by
  have hcut : s.cut s.marks.size reason = s.marks.size := cut_of_ne_wrap hr
  refine ruled_of_empty ?_ fun d => ?_
  · rw [(commitAll_empty job s hr).1]
  · rw [commitAll, decorations_commit, hcut]
    have hcarry := (h d).carry s.marks.size
    rwa [Nat.sub_self] at hcarry

/-- Where a line is wrapped the marks behind it stay side by side. -/
theorem Ruled.wrap (h : s.Ruled placed) (hb : s.BreakWithin) (hsize : 0 < s.marks.size) :
    (s.commit job s.breakAt .wrap).Ruled placed := by
  have hcut := cut_breakAt_pos hb hsize
  cases hrest : s.marks.toList.drop (s.cut s.breakAt .wrap) with
  | nil =>
    obtain ⟨hmarks, -, -⟩ := commit_all job hrest
    refine ruled_of_empty (congrArg Array.toList hmarks) fun d => ?_
    have hcarry := (h.decorated d).begun.carry (s.cut s.breakAt .wrap)
    rw [← List.length_drop, hrest] at hcarry
    rw [decorations_commit]
    exact hcarry
  | cons first rest =>
    have hleft : ∀ u, SameSettings s u → u.paragraph = (LineEnd.wrap == .newline true) →
        u.leftEdge job = LayoutState.leftEdge job { s with paragraph := false } := by
      intro u hu hparagraph
      simp only [leftEdge, hu.table, hu.format, hparagraph]
      rfl
    obtain ⟨hmarks, hstarted, hpen, -⟩ := commit_rest hleft LineEnd.noConfusion hrest
    generalize LayoutState.leftEdge job { s with paragraph := false } - first.x = dx at hmarks
    rw [← hrest] at hmarks
    refine ⟨?_, ?_, ?_, ?_, ?_⟩
    · rw [hmarks]
      exact isChain_map_shift (h.chain.drop _) dx
    · intro last hlast
      exact ⟨hstarted, Int.le_of_eq (hpen last hlast).symm⟩
    · rw [hmarks]
      intro m hm
      obtain ⟨k, hk, rfl⟩ := List.mem_map.1 hm
      exact h.offset k (List.mem_of_mem_drop hk)
    · rw [hmarks]
      intro m hm
      obtain ⟨k, hk, rfl⟩ := List.mem_map.1 hm
      exact h.kind k (List.mem_of_mem_drop hk)
    · intro d
      rw [hmarks, decorations_commit]
      exact (h.decorated d).carry hcut dx

theorem Ruled.checkWrap (h : s.Ruled placed) (hb : s.BreakWithin) (hsize : 0 < s.marks.size) :
    (s.checkWrap job).Ruled placed := by
  by_cases hover : s.Overflows job
  · rw [checkWrap_of_overflows hover]
    exact h.wrap hb hsize
  · rw [checkWrap_of_not_overflows hover]
    exact h

/-! ### The line that is set -/

/-- Without justification and tables the marks of a line are moved as one. -/
theorem marks_setLine_of_steady (htable : s.table = none)
    (hjustify : s.format.justify.getD s.font.style.justify = false) (job : Job)
    (content cut : Nat) (reason : LineEnd) :
    ∃ dx, (s.setLine job content cut reason).marks =
      (s.marks.toList.take cut).map (Mark.shift dx) := by
  have hjustified : ∀ ms, s.justified job content reason ms = ms := by
    intro ms
    have hnone : s.justification? job (ms.take content) reason = none := by
      simp only [justification?, hjustify, Bool.false_eq_true, false_and, and_false, if_false]
    simp only [justified, hnone]
  simp only [setLine, htable, hjustified]
  exact ⟨_, rfl⟩

/-- Marks that follow one another and do not go back stand apart. -/
theorem pairwise_of_isChain {ms : List Mark} (h : ms.IsChain fun m k => m.right ≤ k.x)
    (hadvance : ∀ m ∈ ms, 0 ≤ m.advance) : ms.Pairwise fun m k => m.right ≤ k.x := by
  refine pairwise_of_isChain_of_trans ?_ h hadvance
  intro m n k hn hmn hnk
  rw [Mark.right] at hnk
  omega

/-- What is needed of the marks that wait for their line to be set. -/
structure Settable (placed : Nat → Option LayoutState) (u : LayoutState) : Prop where
  table : u.table = none
  justify : u.format.justify.getD u.font.style.justify = false
  chain : u.marks.toList.IsChain fun m k => m.right ≤ k.x
  offset : ∀ m ∈ u.marks.toList, m.offset.x = 0
  ends : ∀ m ∈ u.marks.toList, m.kind.isEnd = true → m.advance = 0
  begun : ∀ d, (u.decorations d).Begun u.marks.size
  shown : ∀ d i m, u.marks.toList[i]? = some m → m.kind.isEnd = false → ∃ v,
    placed m.index = some v ∧
      (u.decorations d).shown i = (if v.coversLast d then 1 else 0) + v.leftOvers d

/-- Where the glyphs of a line have some room its marks stand apart. -/
theorem Settable.apart (h : u.Settable placed) (hc : content ≤ u.marks.size) {l : SetLine}
    (hcontent : l.content = content)
    (hright : l.right = Mark.lastRight l.left (l.marks.take l.content)) {dx : Int}
    (hmarks : l.marks = (u.marks.toList.take (u.cut content reason)).map (Mark.shift dx))
    {images : Registry Image}
    (hpositive : ∀ g ∈ (l.line u images).events, g.lineEnd = false → 0 < g.advance) : l.Apart := by
  have hadvance : ∀ m ∈ l.marks, 0 ≤ m.advance := by
    intro m hm
    cases hend : m.kind.isEnd with
    | true =>
      rw [hmarks] at hm
      obtain ⟨k, hk, rfl⟩ := List.mem_map.1 hm
      exact Int.le_of_eq (h.ends k (List.mem_of_mem_take hk) hend).symm
    | false =>
      have hevent : ∃ wrapped, l.glyph wrapped m ∈ (l.line u images).events := by
        rw [SetLine.events_line]
        rw [← List.take_append_drop l.content l.marks] at hm
        rcases List.mem_append.1 hm with hm | hm
        · exact ⟨false, List.mem_append_left _ (List.mem_map_of_mem hm)⟩
        · exact ⟨true, List.mem_append_right _ (List.mem_map_of_mem hm)⟩
      obtain ⟨wrapped, hevent⟩ := hevent
      exact Int.le_of_lt (hpositive _ hevent hend)
  refine ⟨?_, ?_, hadvance, hright⟩
  · rw [hcontent, hmarks, List.length_map, List.length_take_of_le]
    · exact le_cut hc reason
    · rw [Array.length_toList]
      exact cut_le hc reason
  · refine pairwise_of_isChain ?_ hadvance
    rw [hmarks]
    exact isChain_map_shift (h.chain.take _) dx

/-- The end of a line or of the text takes no room behind the other marks. -/
theorem Ruled.settable_end (h : s.Ruled placed) (hs : s.Steady) (job : Job) (code : Nat)
    {kind : MarkKind} (hkind : kind.isEnd = true) (index : Nat) :
    (s.pushMark job code kind 0 index).Settable placed := by
  have hsteady : (s.pushMark job code kind 0 index).Steady :=
    hs.congr (sameStyle_pushMark job s _ _ _ _) (table_pushMark job s _ _ _ _)
  have hlist := toList_pushMark job s code kind 0 index
  refine ⟨hsteady.table, hsteady.justify, h.chain_pushMark job code kind 0 index,
    h.offset_pushMark hs job code kind 0 index, h.ends_pushMark job code kind index, ?_, ?_⟩
  · intro d
    obtain ⟨rule, hrules, -, hgaps⟩ := decorations_pushMark job s code kind 0 index d
    rw [hrules, size_pushMark, ← Array.length_toList]
    exact (h.decorated d).begun.update fun r hr => (hgaps r hr).trans (hs.noGaps d)
  · intro d i m hm hend
    obtain ⟨rule, hrules, -, hgaps⟩ := decorations_pushMark job s code kind 0 index d
    rw [hlist] at hm
    rcases Nat.lt_or_ge i s.marks.toList.length with hi | hi
    · rw [List.getElem?_append_left hi] at hm
      rw [hrules, (h.decorated d).begun.shown_update (fun r hr => (hgaps r hr).trans (hs.noGaps d)) hi]
      exact (h.decorated d).shown hm
    · rw [List.getElem?_append_right hi, List.getElem?_singleton] at hm
      split at hm
      · cases hm
        rw [show (newMark job s code kind 0 index).kind.isEnd = true from hkind] at hend
        cases hend
      · cases hm

/-! ### The lines of a layout -/

end LayoutState

/-- At no time in the layout of `cs` do the settings move marks apart or over one another, and
    no combining mark is set. -/
structure Job.Steady (job : Job) (font : Font) (cs : List Nat) : Prop where
  registered : job.printer.fonts.get? job.printer.defaultFont = some font
  kerning : ∀ id f, job.printer.fonts.get? id = some f → ∀ c d, f.face.kerning c d = 0
  spaced : ∀ l ∈ lexemes cs, ∀ c, l.token = .text c → CodePoint.isSpaced c = true
  settings : ∀ seen rest, lexemes cs = seen ++ rest →
    ((LayoutState.initial job font).run job seen).Steady

/-- The same of the fonts that come into use in the layout of `cs`, whatever others there
    are. -/
structure Job.SideBySide (job : Job) (font : Font) (cs : List Nat) : Prop where
  kerning : ∀ seen rest, lexemes cs = seen ++ rest →
    ∀ c d, ((LayoutState.initial job font).run job seen).font.face.kerning c d = 0
  spaced : ∀ l ∈ lexemes cs, ∀ c, l.token = .text c → CodePoint.isSpaced c = true
  settings : ∀ seen rest, lexemes cs = seen ++ rest →
    ((LayoutState.initial job font).run job seen).Steady

namespace LayoutState

variable {job : Job} {font : Font} {cs : List Nat} {seen rest : List Lexeme} {l : Lexeme}
  {u : LayoutState} {content : Nat} {reason : LineEnd}

/-- A token puts its mark behind the others. -/
theorem Ruled.marked (hjob : job.SideBySide font cs) (hsplit : lexemes cs = seen ++ l :: rest)
    (h : ((initial job font).run job seen).Ruled (job.markedAt font cs))
    (hmark : ((initial job font).run job seen).marked? job l = some u) :
    u.Ruled (job.markedAt font cs) ∧ u.Steady := by
  have hs := hjob.settings seen (l :: rest) hsplit
  have hplaced : job.markedAt font cs l.index =
      ((initial job font).run job seen).marked? job l := Job.markedAt_of_split hsplit
  have hkerning := hjob.kerning seen (l :: rest) hsplit
  generalize (initial job font).run job seen = s at *
  rw [hmark] at hplaced
  obtain ⟨v, code, kind, advance, _, hv, hkind, rfl, -⟩ := marked_cases hmark
  have hbefore : v.Ruled (job.markedAt font cs) ∧ v.Steady := by
    rcases hv with rfl | ⟨rfl, htoken⟩
    · exact ⟨h, hs⟩
    · have hmem : l ∈ lexemes cs := hsplit ▸ List.mem_append_right seen List.mem_cons_self
      obtain ⟨-, -, -, -, htable⟩ := beforeMark_frame job s code
      exact ⟨h.beforeMark hs hkerning (hjob.spaced l hmem code htoken),
        hs.congr (sameStyle_beforeMark job s code) htable⟩
  obtain ⟨hruled, hsteady⟩ := hbefore
  exact ⟨hruled.pushMark hsteady hkind hplaced,
    hsteady.congr (sameStyle_pushMark job v _ _ _ _) (table_pushMark job v _ _ _ _)⟩

theorem Ruled.step (hjob : job.SideBySide font cs) (hsplit : lexemes cs = seen ++ l :: rest)
    (h : ((initial job font).run job seen).Ruled (job.markedAt font cs)) :
    (((initial job font).run job seen).step job l).Ruled (job.markedAt font cs) := by
  have hs := hjob.settings seen (l :: rest) hsplit
  cases hmark : ((initial job font).run job seen).marked? job l with
  | some u =>
    obtain ⟨hu, -⟩ := h.marked hjob hsplit hmark
    have hb := breakWithin_marked (breakWithin_run job font seen) hmark
    have hsize : 0 < u.marks.size := by
      obtain ⟨m, hmarks, -⟩ := toList_marked hmark
      rw [← Array.length_toList, hmarks, List.length_append]
      exact Nat.succ_pos _
    obtain ⟨p, hstep⟩ := step_of_marked hmark
    rw [hstep]
    exact (hu.checkWrap hb hsize).noteBreak p
  | none =>
    by_cases hnewline : ∃ c, l.token = .newline c
    · obtain ⟨c, hc⟩ := hnewline
      obtain ⟨index, token⟩ := l
      obtain rfl : token = .newline c := hc
      rw [step_newline hs.table]
      exact ruled_commitAll job _ LineEnd.noConfusion (h.settable_end hs job c rfl index).begun
    · have hnext := (hjob.settings (seen ++ [l]) rest
        (by rw [hsplit, List.append_assoc, List.singleton_append])).table
      rw [run_concat] at hnext
      exact h.idle (idle_step hs.table hmark (fun c hc => hnewline ⟨c, hc⟩) hnext)

/-- Between two tokens the line that is being filled has its rules. -/
theorem ruled_run (hjob : job.SideBySide font cs) (hsplit : lexemes cs = seen ++ rest) :
    ((initial job font).run job seen).Ruled (job.markedAt font cs) :=
  run_induction (ruled_initial job font) (fun _ _ _ hsplit h => h.step hjob hsplit) hsplit

end LayoutState

namespace LayoutState

instance (s : LayoutState) : Decidable s.Steady :=
  decidable_of_iff (s.table.isNone = true ∧ s.letterOffset.x = 0 ∧ 0 ≤ s.letterSpacing ∧
      s.format.justify.getD s.font.style.justify = false ∧
      s.format.underline.settings.gaps = false ∧ s.format.strike.settings.gaps = false) <| by
    constructor
    · rintro ⟨htable, hoffset, hspacing, hjustify, hunder, hstrike⟩
      refine ⟨Option.isNone_iff_eq_none.1 htable, hoffset, hspacing, hjustify, ?_⟩
      intro d
      cases d
      · exact hunder
      · exact hstrike
    · intro h
      exact ⟨Option.isNone_iff_eq_none.2 h.table, h.offset, h.spacing, h.justify,
        h.noGaps .underline, h.noGaps .strike⟩

end LayoutState

end RichText
