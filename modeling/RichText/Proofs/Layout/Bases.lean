/-
  RichText/Proofs/Layout/Bases.lean
  =================================
  **Combining marks on the line of their base.**

  A combining mark is put back over the glyph before it, its base, and waits on the line
  behind it (`Joined`).  From there on one thing alone takes the two apart, a line that is
  wrapped right behind the base (`Job.BrokenBehind`); and where a line is justified, the room
  that opens behind the base comes between them (`LayoutState.roomBehind`).
-/
import RichText.Proofs.Layout.Closing
import RichText.Proofs.Layout.Exhausted
import RichText.Proofs.Layout.Justifying

namespace RichText

/-- The code points of which a line may be left over, or that end it, are spaced. -/
theorem CodePoint.not_blank_of_not_spaced {c : Nat} (h : isSpaced c = false) :
    isSpace c = false ∧ c ≠ tab := by
  simp only [isSpaced, Bool.not_eq_false', Bool.or_eq_true, Bool.and_eq_true, decide_eq_true_eq]
    at h
  refine ⟨?_, ?_⟩
  · simp only [isSpace, Bool.or_eq_false_iff, beq_eq_false_iff_ne, Bool.and_eq_false_iff,
      decide_eq_false_iff_not]
    omega
  · rintro rfl
    simp only [tab] at h
    omega

/-- The token `k` is a combining mark `d` that comes right after `l`, which puts a glyph for `c`
    on the line. -/
structure Combines (images : Registry Image) (cs : List Nat) (seen : List Lexeme) (l k : Lexeme)
    (rest : List Lexeme) (c d : Nat) : Prop where
  split : lexemes cs = seen ++ l :: k :: rest
  base : l.signs images = [⟨c, false, l.index⟩]
  mark : k.token = .text d
  combining : CodePoint.isSpaced d = false

theorem Combines.split_mark {images : Registry Image} {cs : List Nat} {seen rest : List Lexeme}
    {l k : Lexeme} {c d : Nat} (h : Combines images cs seen l k rest c d) :
    lexemes cs = seen ++ [l] ++ k :: rest := by
  rw [h.split, List.append_assoc, List.singleton_append]

theorem Combines.index_lt {images : Registry Image} {cs : List Nat} {seen rest : List Lexeme}
    {l k : Lexeme} {c d : Nat} (h : Combines images cs seen l k rest c d) : l.index < k.index := by
  have hpairs := pairwise_lexemes cs
  rw [h.split, List.pairwise_append] at hpairs
  exact List.rel_of_pairwise_cons hpairs.2.1 List.mem_cons_self

/-! ### What takes a mark from its base -/

namespace Job

variable (job : Job) (font : Font) (cs : List Nat)

/-- A line is wrapped right behind the glyph at a position. -/
def BrokenBehind (i : Nat) : Prop :=
  ∃ u, LayoutState.WrapsAt job font cs u ∧
    ∃ m, (u.marks.toList.take (u.cut u.breakAt .wrap)).getLast? = some m ∧ m.index = i

end Job

namespace LayoutState

/-- The room that a line gives out behind one of its marks. -/
def roomBehind (job : Job) (u : LayoutState) (content : Nat) (reason : LineEnd)
    (before : List Mark) (m : Mark) : Int :=
  (u.justification? job (u.marks.toList.take content) reason).elim 0
    (·.behind (Mark.codes before) m.code)

variable {job : Job} {font : Font} {cs : List Nat} {s t u : LayoutState} {l k : Lexeme}
  {seen rest : List Lexeme} {c d i j : Nat} {content : Nat} {reason : LineEnd}

/-! ### The base on its line -/

/-- A token with a sign puts a mark with its code point on the line. -/
theorem marked_of_signs (hsigns : l.signs job.printer.images = [⟨c, false, i⟩])
    (s : LayoutState) :
    ∃ v kind advance p, (v = s ∨ v = beforeMark job s c ∧ l.token = .text c) ∧
      s.marked? job l = some (v.pushMark job c kind advance l.index) ∧
      s.step job l = ((v.pushMark job c kind advance l.index).checkWrap job).noteBreak p := by
  obtain ⟨index, token⟩ := l
  cases token with
  | text c =>
    cases hsigns
    exact ⟨_, _, _, _, Or.inr ⟨rfl, rfl⟩, rfl, place_eq job s _ index⟩
  | placeholder =>
    cases hsigns
    exact ⟨s, _, _, false, Or.inl rfl, rfl, rfl⟩
  | instruction instr =>
    cases instr with
    | setting setting =>
      cases setting with
      | length target l =>
        cases target with
        | horizontalSpace =>
          cases l with
          | none => cases hsigns
          | some l =>
            cases hsigns
            exact ⟨s, _, _, false, Or.inl rfl, rfl, rfl⟩
        | _ => cases hsigns
      | image image =>
        simp only [Lexeme.signs] at hsigns
        split at hsigns
        · next hregistered =>
          cases hsigns
          obtain ⟨found, hfound⟩ := Option.isSome_iff_exists.1 hregistered
          refine ⟨s, .image (s.imageMark image found), (s.imageMark image found).advance, false,
            Or.inl rfl, ?_, ?_⟩
          · simp only [marked?, hfound, Option.map_some]
          · simp only [LayoutState.step, apply, applySetting, placeImage, hfound, Option.elim_some]
            rfl
        · cases hsigns
      | _ => cases hsigns
    | switch w => cases hsigns
    | toggle t => cases hsigns
  | newline c => cases hsigns
  | _ => cases hsigns

/-- The last mark that waits is the one of a position, and the next one would be put right
    behind it. -/
structure Poised (c i : Nat) (m : Mark) (s : LayoutState) : Prop where
  last : s.marks.toList.getLast? = some m
  index : m.index = i
  code : m.code = c
  started : s.lineStarted = true
  pen : s.penX = m.right
  prev : s.prev ≠ none
  back : s.lastAdvance = m.advance
  offset : m.offset = s.letterOffset

theorem Poised.noteBreak {m : Mark} (h : s.Poised c i m) (p : Bool) :
    (s.noteBreak p).Poised c i m := by
  cases p with
  | true => exact ⟨h.last, h.index, h.code, h.started, h.pen, h.prev, h.back, h.offset⟩
  | false => exact h

theorem poised_pushMark (job : Job) (s : LayoutState) (code : Nat) (kind : MarkKind)
    (advance : Int) (index : Nat) :
    (s.pushMark job code kind advance index).Poised code index
      (newMark job s code kind advance index) := by
  obtain ⟨hpen, hback, hstarted⟩ := pen_pushMark job s code kind advance index
  refine ⟨?_, rfl, rfl, hstarted, hpen, Option.some_ne_none _, hback, ?_⟩
  · rw [toList_pushMark, List.getLast?_concat]
  · rw [letterOffset_congr (sameStyle_pushMark job s code kind advance index)]
    exact letterOffset_congr (sameStyle_beginLine job s)

/-- The last mark stays the last one where a line is wrapped before it. -/
theorem Poised.wrap {m : Mark} (h : s.Poised c i m)
    (hne : (s.commit job content .wrap).marks ≠ #[]) :
    ∃ n, (s.commit job content .wrap).Poised c i n ∧ n.advance = m.advance := by
  have hstyle := sameStyle_commit job s content .wrap
  cases hrest : s.marks.toList.drop (s.cut content .wrap) with
  | nil => exact absurd (commit_all job hrest).1 hne
  | cons first rest =>
    have hleft : ∀ u, SameSettings s u → u.paragraph = (LineEnd.wrap == .newline true) →
        u.leftEdge job = LayoutState.leftEdge job { s with paragraph := false } := by
      intro u hu hparagraph
      simp only [leftEdge, hu.table, hu.format, hparagraph]
      rfl
    obtain ⟨hmarks, hstarted, hpen, hprev, hback⟩ := commit_rest hleft LineEnd.noConfusion hrest
    generalize LayoutState.leftEdge job { s with paragraph := false } - first.x = dx at hmarks
    have hkept : (first :: rest).getLast? = some m := by
      rw [← hrest, List.getLast?_drop, h.last, if_neg]
      intro hle
      rw [List.drop_eq_nil_of_le hle] at hrest
      cases hrest
    have hlast : (s.commit job content .wrap).marks.toList.getLast? = some (m.shift dx) := by
      rw [hmarks, List.getLast?_map, hkept]
      rfl
    refine ⟨m.shift dx, ⟨hlast, h.index, h.code, hstarted, hpen _ hlast, ?_, ?_, ?_⟩, rfl⟩
    · rw [hprev]
      exact h.prev
    · rw [hback]
      exact h.back
    · rw [letterOffset_congr hstyle]
      exact h.offset

/-- After its token the base is the last mark on the line, unless nothing is left there. -/
theorem poised_step (hsigns : l.signs job.printer.images = [⟨c, false, i⟩])
    (hne : (s.step job l).marks ≠ #[]) :
    ∃ u m, s.marked? job l = some u ∧ (s.step job l).Poised c l.index m ∧
      m.advance = u.lastAdvance := by
  obtain ⟨v, kind, advance, p, -, hmark, hstep⟩ := marked_of_signs hsigns s
  have hpushed := poised_pushMark job v c kind advance l.index
  rw [hstep] at hne ⊢
  by_cases hover : (v.pushMark job c kind advance l.index).Overflows job
  · rw [checkWrap_of_overflows hover] at hne ⊢
    rw [(noteBreak_frame _ p).1] at hne
    obtain ⟨n, hn, hadvance⟩ := hpushed.wrap hne
    exact ⟨_, n, hmark, hn.noteBreak p, hadvance⟩
  · rw [checkWrap_of_not_overflows hover]
    exact ⟨_, _, hmark, hpushed.noteBreak p, rfl⟩

/-- A combining mark is put over the glyph before it. -/
theorem Poised.newMark {m : Mark} (h : s.Poised c i m)
    (hkerning : ∀ c d, s.font.face.kerning c d = 0) (hd : CodePoint.isSpaced d = false)
    (kind : MarkKind) (advance : Int) (index : Nat) :
    (newMark job (beforeMark job s d) d kind advance index).x = m.x ∧
      (newMark job (beforeMark job s d) d kind advance index).offset = m.offset := by
  obtain ⟨hspace, htab⟩ := CodePoint.not_blank_of_not_spaced hd
  have hbegin : s.beginLine job = s := if_pos h.started
  have hnote : CodePoint.isBreaking d = false := by
    simp only [CodePoint.isBreaking, hspace, Bool.false_and]
  have hroom : s.roomBefore d = -m.advance := by
    obtain ⟨p, hp⟩ := Option.ne_none_iff_exists'.1 h.prev
    simp only [roomBefore, if_neg htab, hp, hkerning, hd, Bool.false_eq_true, if_false, h.back,
      Int.zero_add]
  constructor
  · change ((beforeMark job s d).beginLine job).penX = m.x
    rw [beginLine_beforeMark]
    change ((s.beginLine job).noteBreak (CodePoint.isBreaking d)).penX +
      ((s.beginLine job).noteBreak (CodePoint.isBreaking d)).roomBefore d = m.x
    rw [hbegin, hnote]
    change s.penX + s.roomBefore d = m.x
    rw [h.pen, hroom, Mark.right]
    omega
  · change ((beforeMark job s d).beginLine job).letterOffset = m.offset
    rw [beginLine_beforeMark, letterOffset_congr (sameStyle_beforeMark job s d), h.offset]

/-! ### The mark behind its base -/

/-- The mark for `d` at position `j` waits behind its base, the mark for `c` at position `i`,
    and at the same place. -/
def Joined (c i d j : Nat) (s : LayoutState) : Prop :=
  ∀ before n after, s.marks.toList = before ++ n :: after → n.index = j →
    ∃ early m, before = early ++ [m] ∧ m.index = i ∧ m.code = c ∧ n.code = d ∧ n.x = m.x ∧
      n.offset = m.offset

theorem joined_of_empty (h : s.marks = #[]) : s.Joined c i d j := by
  intro before n after hmarks
  rw [h] at hmarks
  exact absurd hmarks.symm (List.append_ne_nil_of_right_ne_nil _ (List.cons_ne_nil _ _))

theorem Joined.congr (h : s.Joined c i d j) (hmarks : t.marks = s.marks) : t.Joined c i d j := by
  intro before n after hsplit
  rw [hmarks] at hsplit
  exact h before n after hsplit

/-- A mark is put behind the others, which does no harm unless it is itself the one at `j`. -/
theorem Joined.append (h : s.Joined c i d j) {n : Mark}
    (hmarks : t.marks.toList = s.marks.toList ++ [n])
    (hn : n.index = j → ∃ m, s.marks.toList.getLast? = some m ∧ m.index = i ∧ m.code = c ∧
      n.code = d ∧ n.x = m.x ∧ n.offset = m.offset) : t.Joined c i d j := by
  intro before k after hsplit hk
  rw [hmarks] at hsplit
  rcases split_concat hsplit with ⟨rfl, rfl, -⟩ | ⟨init, hinit, -⟩
  · obtain ⟨m, hlast, hm⟩ := hn hk
    obtain ⟨early, hearly⟩ := List.getLast?_eq_some_iff.1 hlast
    exact ⟨early, m, hearly, hm⟩
  · exact h before k init hinit hk

/-- Where a line is wrapped the two stay together, unless it is broken between them. -/
theorem Joined.wrap (h : s.Joined c i d j)
    (hbreak : ∀ m, (s.marks.toList.take (s.cut s.breakAt .wrap)).getLast? = some m → m.index ≠ i) :
    (s.commit job s.breakAt .wrap).Joined c i d j := by
  obtain ⟨⟨dx, hmarks⟩, -⟩ := commit_frame job s s.breakAt .wrap
  intro before n after hsplit hn
  rw [hmarks] at hsplit
  obtain ⟨before, n, after, -, hall, rfl, rfl, rfl⟩ := split_shifted_drop hsplit
  obtain ⟨early, m, hearly, hm, hc, hd, hx, hoffset⟩ := h _ n after hall hn
  rcases List.eq_nil_or_concat before with rfl | ⟨init, last, rfl⟩
  · rw [List.append_nil] at hearly
    exact absurd hm (hbreak m (List.getLast?_eq_some_iff.2 ⟨early, hearly⟩))
  · rw [List.concat_eq_append, ← List.append_assoc] at hearly
    obtain ⟨rfl, hlast⟩ := List.append_inj' hearly rfl
    obtain rfl : last = m := List.singleton_inj.1 hlast
    refine ⟨init.map (Mark.shift dx), last.shift dx, ?_, hm, hc, hd, ?_, hoffset⟩
    · rw [List.concat_eq_append, List.map_append, List.map_singleton]
    · change n.x + dx = last.x + dx
      rw [hx]

/-! ### The two on a line -/

section Pairs

variable (h : Combines job.printer.images cs seen l k rest c d)
include h

/-- Where nothing is left on the line of the base it has been broken off behind it. -/
theorem brokenBehind_of_empty
    (hempty : (((initial job font).run job seen).step job l).marks = #[]) :
    job.BrokenBehind font cs l.index := by
  obtain ⟨v, kind, advance, p, -, hmark, hstep⟩ :=
    marked_of_signs h.base ((initial job font).run job seen)
  have hlist := toList_pushMark job v c kind advance l.index
  rw [hstep, (noteBreak_frame _ p).1] at hempty
  by_cases hover : (v.pushMark job c kind advance l.index).Overflows job
  · refine ⟨_, ⟨seen, l, k :: rest, h.split, hmark, hover⟩, newMark job v c kind advance l.index,
      ?_, rfl⟩
    rw [checkWrap_of_overflows hover] at hempty
    obtain ⟨⟨dx, hmarks⟩, -⟩ := commit_frame job (v.pushMark job c kind advance l.index)
      (v.pushMark job c kind advance l.index).breakAt .wrap
    rw [hempty] at hmarks
    have hdrop := List.map_eq_nil_iff.1 hmarks.symm
    rw [List.take_of_length_le (List.drop_eq_nil_iff.1 hdrop), hlist, List.getLast?_concat]
  · rw [checkWrap_of_not_overflows hover] at hempty
    rw [hempty] at hlist
    exact absurd hlist.symm (List.append_ne_nil_of_right_ne_nil _ (List.cons_ne_nil _ _))

variable (hfont : job.printer.fonts.get? job.printer.defaultFont = some font)
  (hkerning : ∀ id f, job.printer.fonts.get? id = some f → ∀ c d, f.face.kerning c d = 0)
  (hbreak : ¬ job.BrokenBehind font cs l.index)
include hfont hkerning hbreak

theorem joined_marked {seen' rest' : List Lexeme} {l' : Lexeme}
    (hsplit : lexemes cs = seen' ++ l' :: rest')
    (ih : ((initial job font).run job seen').Joined c l.index d k.index)
    (hmark : ((initial job font).run job seen').marked? job l' = some u) :
    u.Joined c l.index d k.index := by
  by_cases hindex : l'.index = k.index
  · -- The mark itself is put over its base, which is the last one on the line.
    obtain ⟨rfl, rfl, rfl⟩ := split_unique h.split_mark hsplit hindex
    obtain ⟨-, m, -, hm, -⟩ := poised_step (s := (initial job font).run job seen) h.base
      fun hempty => hbreak (brokenBehind_of_empty h hempty)
    rw [← run_concat] at hm
    obtain ⟨id, hid⟩ : ((initial job font).run job (seen ++ [l])).Registered job :=
      Registered.run ⟨_, hfont⟩ (seen ++ [l])
    obtain ⟨kind, advance, rfl⟩ : ∃ kind advance, u = (beforeMark job ((initial job font).run job
        (seen ++ [l])) d).pushMark job d kind advance l'.index := by
      simp only [marked?, h.mark] at hmark
      exact ⟨_, _, (Option.some.inj hmark).symm⟩
    have hlist := toList_pushMark job (beforeMark job ((initial job font).run job (seen ++ [l])) d)
      d kind advance l'.index
    rw [(beforeMark_frame job _ d).1] at hlist
    exact ih.append hlist fun _ => ⟨m, hm.last, hm.index, hm.code, rfl,
      hm.newMark (hkerning id _ hid) h.combining kind advance l'.index⟩
  · obtain ⟨n, hlist, hn⟩ := toList_marked hmark
    exact ih.append hlist fun hnew => absurd (hn.symm.trans hnew) hindex

/-- Unless a line is broken behind the base the mark waits there, as long as it waits. -/
theorem joined_run {seen' rest' : List Lexeme} (hsplit : lexemes cs = seen' ++ rest') :
    ((initial job font).run job seen').Joined c l.index d k.index := by
  refine run_induction (P := (Joined c l.index d k.index)) (joined_of_empty rfl) ?_ hsplit
  intro seen' l' rest' hsplit ih
  refine step_preserves ?_ ?_ (fun _ ht => ht) ?_ fun hidle => ih.congr hidle.waits.marks
  · intro u hmark _
    exact joined_marked h hfont hkerning hbreak hsplit ih hmark
  · intro u hmark hover
    refine (joined_marked h hfont hkerning hbreak hsplit ih hmark).wrap fun m hm hindex => ?_
    exact hbreak ⟨u, ⟨seen', l', rest', hsplit, hmark, hover⟩, m, hm, hindex⟩
  · intro u reason hclose
    exact joined_of_empty (lines_of_closed hclose).1

theorem CommitsAt.joined (hcommits : CommitsAt job font cs u content reason) :
    u.Joined c l.index d k.index := by
  have hrun := fun {seen' rest'} (hsplit : lexemes cs = seen' ++ rest') =>
    joined_run h hfont hkerning hbreak hsplit
  rcases hcommits.marks_cases with ⟨seen', l', rest', hsplit, hmark⟩ |
    ⟨seen', rest', hsplit, -, -, -, hmarks | ⟨n, hmarks, hn⟩⟩
  · exact joined_marked h hfont hkerning hbreak hsplit (hrun hsplit) hmark
  · exact (hrun hsplit).congr hmarks
  · refine (hrun hsplit).append hmarks fun hindex => ?_
    have hk : k ∈ lexemes cs := by
      rw [h.split_mark]
      exact List.mem_append_cons_self
    obtain ⟨e, hnewline⟩ := hn k hk hindex.symm
    rw [h.mark] at hnewline
    cases hnewline

/-- The line that reports the mark has its base before it. -/
theorem joined_line {line : Line} (hline : line ∈ job.layoutWith font cs)
    (hmem : k.index ∈ line.positions) :
    ∃ u content reason, CommitsAt job font cs u content reason ∧
      line = u.committedLine job content reason ∧
      ∃ before m n after, u.marks.toList.take content = before ++ m :: n :: after ∧
        (m.index = l.index ∧ m.code = c) ∧ (n.index = k.index ∧ n.code = d) ∧
        n.x = m.x ∧ n.offset = m.offset := by
  rcases mem_layout_cases hline with ⟨u, content, reason, hcommits, rfl⟩ | ⟨g, hg, rfl⟩
  · refine ⟨u, content, reason, hcommits, rfl, ?_⟩
    have hle := le_cut hcommits.content_le reason
    rw [Line.positions, hcommits.indices] at hmem
    obtain ⟨n, hn, hindex⟩ := List.mem_map.1 hmem
    obtain ⟨before, after, htake⟩ := List.append_of_mem hn
    have hall : u.marks.toList = before ++ n ::
        (after ++ u.marks.toList.drop (u.cut content reason)) := by
      rw [← List.cons_append, ← List.append_assoc, ← htake, List.take_append_drop]
    obtain ⟨early, m, rfl, hm, hc, hcode, hx, hoffset⟩ :=
      hcommits.joined h hfont hkerning hbreak _ _ _ hall hindex
    -- The mark is no blank, so that it is not among those left over.
    have hlt : (early ++ [m]).length < content := by
      by_contra hge
      have hdrop : n ∈ (u.marks.toList.take (u.cut content reason)).drop content := by
        rw [htake, List.drop_append_of_le_length (Nat.le_of_not_lt hge)]
        exact List.mem_append_cons_self
      have hblank := blank_of_mem_drop hcommits.content_cases hdrop
      obtain ⟨hspace, htab⟩ := CodePoint.not_blank_of_not_spaced h.combining
      rw [Mark.isBlank, hcode, hspace, Bool.false_or, beq_iff_eq] at hblank
      exact htab hblank
    refine ⟨early, m, n, after.take (content - (early ++ [m]).length - 1), ?_, ⟨hm, hc⟩,
      ⟨hindex, hcode⟩, hx, hoffset⟩
    have hcontent : u.marks.toList.take content =
        (u.marks.toList.take (u.cut content reason)).take content := by
      rw [List.take_take, Nat.min_eq_left hle]
    rw [hcontent, htake, List.take_append, List.take_of_length_le (Nat.le_of_lt hlt),
      ← Nat.sub_add_cancel (Nat.sub_pos_of_lt hlt), List.take_succ_cons, Nat.add_sub_cancel,
      List.append_assoc, List.singleton_append]
  · have hlt : k.index < cs.length := by
      refine index_lt_of_mem_lexemes ?_
      rw [h.split_mark]
      exact List.mem_append_cons_self
    have hlast : k.index = g.index := List.mem_singleton.1 hmem
    omega

/-- The mark is on the line of its base unless a line is broken between them. -/
theorem together_of_not_broken :
    Job.Together (job.layoutWith font cs) l.index k.index := by
  have hsign : ⟨d, false, k.index⟩ ∈ signsOf job.printer.images cs := by
    refine List.mem_flatMap.2 ⟨k, ?_, ?_⟩
    · rw [h.split_mark]
      exact List.mem_append_cons_self
    · rw [Lexeme.signs, h.mark]
      exact List.mem_singleton_self _
  obtain ⟨line, hline, hmem⟩ := exists_line_of_mem_signs job font hsign
  obtain ⟨u, content, reason, hcommits, rfl, before, m, n, after, htake, ⟨hm, -⟩, -⟩ :=
    joined_line h hfont hkerning hbreak hline hmem
  refine ⟨_, hline, ?_, hmem⟩
  rw [Line.positions, hcommits.indices, ← hm]
  refine List.mem_map_of_mem ?_
  have hsub := List.take_subset_take_left u.marks.toList (le_cut hcommits.content_le reason)
  refine hsub ?_
  rw [htake]
  exact List.mem_append_cons_self

end Pairs

/-- Where a line is broken behind the base what follows is not on its line. -/
theorem not_together_of_broken (hbreak : job.BrokenBehind font cs i) (hlt : i < j) :
    ¬ Job.Together (job.layoutWith font cs) i j := by
  rintro ⟨line, hline, hi, hj⟩
  obtain ⟨u, hwraps, m, hlast, rfl⟩ := hbreak
  have hcommits : CommitsAt job font cs u u.breakAt .wrap := .wrap hwraps
  obtain ⟨init, hinit⟩ := List.getLast?_eq_some_iff.1 hlast
  have hpositions : (u.committedLine job u.breakAt .wrap).positions =
      init.map (·.index) ++ [m.index] := by
    rw [Line.positions, hcommits.indices, hinit, List.map_append, List.map_singleton]
  obtain rfl : u.committedLine job u.breakAt .wrap = line := by
    refine Job.line_unique hcommits.line_mem hline ?_ hi
    rw [hpositions]
    exact List.mem_append_cons_self
  -- The positions of a line increase, and that of the base is the last one.
  have hpairs := job.pairwise_layoutWith font cs
  rw [events, List.map_flatMap, List.pairwise_flatMap] at hpairs
  have hordered : (u.committedLine job u.breakAt .wrap).positions.Pairwise (· < ·) :=
    hpairs.1 _ hline
  rw [hpositions, List.pairwise_append] at hordered
  rw [hpositions] at hj
  rcases List.mem_append.1 hj with hj | hj
  · have hle := hordered.2.2 j hj m.index List.mem_cons_self
    omega
  · have heq := List.mem_singleton.1 hj
    omega

/-! ### Where the mark stands -/

/-- Two neighbours on a line that is justified are moved apart by the room behind the first. -/
theorem neighbours_justified (job : Job) {before after : List Mark} {m n : Mark}
    (htake : s.marks.toList.take content = before ++ m :: n :: after) (reason : LineEnd) :
    ∃ left dx right, s.justified job content reason (s.marks.toList.take content) =
      left ++ m.shift dx :: n.shift (dx + s.roomBehind job content reason before m) :: right := by
  have hself : (s.marks.toList.take content).take content = s.marks.toList.take content := by
    rw [List.take_take, Nat.min_self]
  have hrest : (s.marks.toList.take content).drop content = [] :=
    List.drop_eq_nil_of_le (List.length_take_le _ _)
  simp only [justified, roomBehind, hself]
  cases s.justification? job (s.marks.toList.take content) reason with
  | none =>
    refine ⟨before, 0, after, ?_⟩
    simp only [Option.elim_none, Int.add_zero, Mark.shift]
    exact htake
  | some plan =>
    obtain ⟨early, dx, late, hshifts, hlength⟩ :=
      plan.shifts_neighbours (Mark.codes before) m.code n.code (Mark.codes after)
    rw [Mark.codes, List.length_map] at hlength
    have hcodes : Mark.codes (before ++ m :: n :: after) =
        Mark.codes before ++ m.code :: n.code :: Mark.codes after := by
      simp only [Mark.codes, List.map_append, List.map_cons]
    have hmoved := Mark.zipWith_shift_neighbours hlength m n dx
      (dx + plan.behind (Mark.codes before) m.code) after late
    rw [← htake, ← hshifts, ← hcodes, ← htake] at hmoved
    refine ⟨_, dx, _, Eq.trans ?_ hmoved⟩
    change Mark.justify plan content (s.marks.toList.take content) = _
    rw [Mark.justify, hself, hrest, List.append_nil]

/-- Outside tables a line is then aligned as a whole. -/
theorem neighbours_setLine (job : Job) (htable : s.table = none) {before after : List Mark}
    {m n : Mark} (htake : s.marks.toList.take content = before ++ m :: n :: after)
    (hle : content ≤ s.cut content reason) :
    ∃ left dx right,
      (s.setLine job content (s.cut content reason) reason).marks.take content =
        left ++ m.shift dx :: n.shift (dx + s.roomBehind job content reason before m) :: right := by
  obtain ⟨left, dx, right, hjustified⟩ := neighbours_justified job htake reason
  have hcut : (s.marks.toList.take (s.cut content reason)).take content =
      s.marks.toList.take content := by
    rw [List.take_take, Nat.min_eq_left hle]
  simp only [setLine, htable, ← List.map_take, take_justified, hcut, hjustified]
  generalize s.alignShift job _ = shift
  refine ⟨left.map (Mark.shift shift), dx + shift, right.map (Mark.shift shift), ?_⟩
  rw [List.map_append, List.map_cons, List.map_cons, Mark.shift_shift, Mark.shift_shift,
    Int.add_right_comm]

/-- On the line of its base the mark stands at the place of that, but for the room behind it. -/
theorem location_of_together (h : Combines job.printer.images cs seen l k rest c d)
    (hfont : job.printer.fonts.get? job.printer.defaultFont = some font)
    (hkerning : ∀ id f, job.printer.fonts.get? id = some f → ∀ c d, f.face.kerning c d = 0)
    {line : Line} (hline : line ∈ job.layoutWith font cs) {g e : Glyph} (hg : g ∈ line.events)
    (he : e ∈ line.events) (hgi : g.index = l.index) (hei : e.index = k.index) :
    ∃ u content reason, CommitsAt job font cs u content reason ∧
      line = u.committedLine job content reason ∧
      ∃ before m after, u.marks.toList = before ++ m :: after ∧ m.index = l.index ∧ m.code = c ∧
        (u.table = none →
          e.location.x = g.location.x + u.roomBehind job content reason before m) := by
  have hbreak : ¬ job.BrokenBehind font cs l.index := fun hbreak =>
    not_together_of_broken hbreak h.index_lt ⟨line, hline, hgi ▸ List.mem_map_of_mem hg,
      hei ▸ List.mem_map_of_mem he⟩
  obtain ⟨u, content, reason, hcommits, hcommitted, before, m, n, after, htake, ⟨hm, hc⟩,
    ⟨hn, -⟩, hx, hoffset⟩ :=
      joined_line h hfont hkerning hbreak hline (hei ▸ List.mem_map_of_mem he)
  refine ⟨u, content, reason, hcommits, hcommitted, before, m,
    n :: after ++ u.marks.toList.drop content, ?_, hm, hc, fun htable => ?_⟩
  · rw [← List.cons_append, ← List.append_assoc, ← htake, List.take_append_drop]
  · obtain ⟨left, dx, right, hmarks⟩ :=
      neighbours_setLine job htable htake (le_cut hcommits.content_le reason)
    generalize hset : u.setLine job content (u.cut content reason) reason = set at hmarks
    have hcontent : set.content = content := by
      rw [← hset]
      rfl
    have hevents : ∀ q ∈ set.marks.take content, set.glyph false q ∈ line.events := by
      intro q hq
      rw [hcommitted, committedLine, hset, SetLine.events_line, hcontent]
      exact List.mem_append_left _ (List.mem_map_of_mem hq)
    rw [hmarks] at hevents
    have hbase := hevents (m.shift dx) (List.mem_append_cons_self)
    have hmark := hevents _
      (List.mem_append_right left (List.mem_cons_of_mem _ List.mem_cons_self))
    rw [event_unique hline hg hbase (hgi.trans hm.symm),
      event_unique hline he hmark (hei.trans hn.symm)]
    change n.x + (dx + _) + n.offset.x = m.x + dx + m.offset.x + _
    rw [hx, hoffset]
    omega

end LayoutState

end RichText
