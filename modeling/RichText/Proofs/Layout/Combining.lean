/-
  RichText/Proofs/Layout/Combining.lean
  =====================================
  **Which combining marks stay on their base.**

  A line is broken behind the base of a combining mark where that is a blank or a place for a
  break.  Any other base is held to its mark (`Bonded`) and broken off only where it uses up its
  line, so that nothing is left there or the line does not fit even then
  (`LayoutState.Spent`).  `Printer.combining_marks_iff` says when the two are on one line, and
  how far they are apart there.
-/
import RichText.Proofs.Layout.Bases

namespace RichText

namespace LayoutState

/-- Nothing is left on the line, or not even what is left there fits. -/
def Spent (job : Job) (s : LayoutState) : Prop := s.marks = #[] ∨ s.Overflows job

instance (job : Job) (s : LayoutState) : Decidable (s.Spent job) :=
  inferInstanceAs (Decidable (_ ∨ _))

variable {job : Job} {font : Font} {cs : List Nat} {s t u : LayoutState} {l k : Lexeme}
  {seen rest : List Lexeme} {c d i j : Nat} {content : Nat} {reason : LineEnd}

/-! ### Where the base is broken off -/

/-- A wrapped line does not take a mark that is no blank with those left over. -/
theorem cut_le_of_not_blank {before after : List Mark} {m : Mark}
    (hmarks : s.marks.toList = before ++ m :: after) (hblank : m.isBlank = false)
    (hle : content ≤ before.length) : s.cut content .wrap ≤ before.length := by
  have hstop : ((before.drop content ++ m :: after).takeWhile Mark.isBlank).length ≤
      (before.drop content).length := by
    rw [List.takeWhile_append]
    split
    · refine Nat.le_of_eq (congrArg List.length ?_)
      rw [List.takeWhile_cons_of_neg (by rw [hblank]; exact Bool.false_ne_true), List.append_nil]
    · exact (List.takeWhile_prefix _).length_le
  rw [List.length_drop] at hstop
  simp only [cut, hmarks, List.drop_append_of_le_length hle]
  omega

/-- A line is not broken between two marks, neither of them blank, unless that is the place
    noted. -/
theorem cut_ne {before after : List Mark} {m n : Mark}
    (hmarks : s.marks.toList = before ++ m :: n :: after) (hafter : after ≠ [])
    (hm : m.isBlank = false) (hn : CodePoint.isSpace n.code = false)
    (hnoted : ∀ q, s.lastBreak = some q → q ≠ before.length + 1) :
    s.cut s.breakAt .wrap ≠ before.length + 1 := by
  have hpos := List.length_pos_iff.2 hafter
  have hsize : s.marks.size = before.length + after.length + 2 := by
    rw [← Array.length_toList, hmarks, List.length_append, List.length_cons, List.length_cons]
    omega
  obtain ⟨place, hplace, hne⟩ : ∃ place, s.breakAt = trimSpaces s.marks place ∧
      place ≠ before.length + 1 := by
    have hemergency : breakAt.emergency s ≠ before.length + 1 := by
      simp only [breakAt.emergency]
      split <;> omega
    simp only [breakAt]
    cases hlast : s.lastBreak with
    | none => exact ⟨_, rfl, hemergency⟩
    | some q =>
      by_cases hq : 0 < q
      · exact ⟨q, by simp only [if_pos hq], hnoted q hlast⟩
      · exact ⟨_, by simp only [if_neg hq], hemergency⟩
  intro hcut
  have hle : s.breakAt ≤ s.cut s.breakAt .wrap := Nat.le_add_right _ _
  rcases Nat.lt_or_ge before.length s.breakAt with hlt | hge
  · -- The content would have been shortened by the second mark, which is no space.
    have hat : trimSpaces s.marks place = before.length + 1 := by omega
    have htrim := trimSpaces_le s.marks place
    have hsplit : s.marks.toList = (before ++ [m]) ++ n :: after := by
      rw [hmarks, List.append_assoc, List.singleton_append]
    have hkept := lt_trimSpaces hsplit hn (n := place)
    rw [List.length_append, List.length_singleton] at hkept
    omega
  · have hcutle := cut_le_of_not_blank hmarks hm hge
    omega

/-- The mark at a position is no blank, has a mark behind it that is no space, and the place
    between them has not been noted for a break. -/
def Bonded (i : Nat) (s : LayoutState) : Prop :=
  ∀ before m after, s.marks.toList = before ++ m :: after → m.index = i →
    m.isBlank = false ∧ (∃ n late, after = n :: late ∧ CodePoint.isSpace n.code = false) ∧
      ∀ q, s.lastBreak = some q → q ≠ before.length + 1

theorem bonded_of_empty (h : s.marks = #[]) : s.Bonded i := by
  intro before m after hmarks
  rw [h] at hmarks
  exact absurd hmarks.symm (List.append_ne_nil_of_right_ne_nil _ (List.cons_ne_nil _ _))

theorem Bonded.waits (h : s.Bonded i) (hst : Waits s t) : t.Bonded i := by
  intro before m after hmarks hm
  rw [hst.marks] at hmarks
  obtain ⟨hblank, hnext, hnoted⟩ := h before m after hmarks hm
  exact ⟨hblank, hnext, hst.noted hnoted⟩

theorem Bonded.noteBreak (h : s.Bonded i) : (s.noteBreak true).Bonded i := by
  intro before m after hmarks hm
  have hmarks : s.marks.toList = before ++ m :: after := hmarks
  obtain ⟨hblank, ⟨n, late, rfl, hn⟩, -⟩ := h before m after hmarks hm
  refine ⟨hblank, ⟨n, late, rfl, hn⟩, fun q hq => ?_⟩
  have hsize : s.marks.size = q := Option.some.inj hq
  rw [← Array.length_toList, hmarks, List.length_append, List.length_cons, List.length_cons]
    at hsize
  omega

/-- Another mark comes behind the two, and does not break them apart. -/
theorem Bonded.marked (h : s.Bonded i) (hb : u.BreakWithin) (hmark : s.marked? job l = some u)
    (hl : l.index ≠ i) :
    u.Bonded i ∧
      ∀ m, (u.marks.toList.take (u.cut u.breakAt .wrap)).getLast? = some m → m.index ≠ i := by
  obtain ⟨x, hlist, hx⟩ := toList_marked hmark
  have hwithin : ∀ before m after, u.marks.toList = before ++ m :: after → m.index = i →
      m.isBlank = false ∧ (∃ n late, after = n :: late ∧ late ≠ [] ∧
        CodePoint.isSpace n.code = false) ∧ ∀ q, u.lastBreak = some q → q ≠ before.length + 1 := by
    intro before m after hmarks hm
    rw [hlist] at hmarks
    rcases split_concat hmarks with ⟨-, rfl, -⟩ | ⟨init, hinit, rfl⟩
    · exact absurd (hx.symm.trans hm) hl
    · obtain ⟨hblank, ⟨n, late, rfl, hn⟩, hnoted⟩ := h before m init hinit hm
      refine ⟨hblank, ⟨n, late ++ [x], rfl, ?_, hn⟩, fun q hq => ?_⟩
      · exact List.append_ne_nil_of_right_ne_nil _ (List.cons_ne_nil _ _)
      · rcases lastBreak_marked hmark with hsame | hend
        · exact hnoted q (hsame ▸ hq)
        · rw [hend, Option.some.injEq, ← Array.length_toList, hinit, List.length_append,
            List.length_cons, List.length_cons] at hq
          omega
  refine ⟨fun before m after hmarks hm => ?_, fun m hlast hm => ?_⟩
  · obtain ⟨hblank, ⟨n, late, hafter, -, hn⟩, hnoted⟩ := hwithin before m after hmarks hm
    exact ⟨hblank, ⟨n, late, hafter, hn⟩, hnoted⟩
  · obtain ⟨before, hbefore⟩ := List.getLast?_eq_some_iff.1 hlast
    have hall : u.marks.toList =
        before ++ m :: u.marks.toList.drop (u.cut u.breakAt .wrap) := by
      rw [← List.singleton_append, ← List.append_assoc, ← hbefore, List.take_append_drop]
    obtain ⟨hblank, ⟨n, late, hafter, hlate, hn⟩, hnoted⟩ := hwithin before m _ hall hm
    have hlength := congrArg List.length hbefore
    rw [List.length_take, Array.length_toList, Nat.min_eq_left (cut_le (breakAt_le hb) .wrap),
      List.length_append, List.length_singleton] at hlength
    rw [hafter] at hall
    exact cut_ne hall hlate hblank hn hnoted hlength

/-- A line may be broken elsewhere. -/
theorem Bonded.wrap (h : s.Bonded i) : (s.commit job s.breakAt .wrap).Bonded i := by
  obtain ⟨⟨dx, hmarks⟩, -, hnone, -⟩ := commit_frame job s s.breakAt .wrap
  intro before m after hsplit hm
  rw [hmarks] at hsplit
  obtain ⟨before, m, after, -, hall, rfl, rfl, rfl⟩ := split_shifted_drop hsplit
  obtain ⟨hblank, ⟨n, late, rfl, hn⟩, -⟩ := h _ m after hall hm
  refine ⟨hblank, ⟨n.shift dx, late.map (Mark.shift dx), rfl, hn⟩, fun q hq => ?_⟩
  rw [hnone] at hq
  cases hq

/-- The two stay together when another token is taken. -/
theorem Bonded.step (h : ((initial job font).run job seen).Bonded i) (hl : l.index ≠ i) :
    (((initial job font).run job seen).step job l).Bonded i := by
  have hbonded : ∀ u, ((initial job font).run job seen).marked? job l = some u → u.Bonded i := by
    intro u hmark
    exact (h.marked (breakWithin_marked (breakWithin_run job font seen) hmark) hmark hl).1
  refine step_preserves (fun u hmark _ => hbonded u hmark) (fun u hmark _ => (hbonded u hmark).wrap)
    (fun _ ht => ht.noteBreak) ?_ fun hidle => h.waits hidle.waits
  intro u reason hclose
  exact bonded_of_empty (lines_of_closed hclose).1

/-- Before a code point that is no blank no place for a break is noted, and its mark has the
    advance of the font. -/
theorem marked_letter (htoken : l.token = .text c) (hspace : CodePoint.isSpace c = false)
    (htab : c ≠ CodePoint.tab) (job : Job) (s : LayoutState) :
    ∃ kind u, u = (beforeMark job s c).pushMark job c kind (s.font.advanceOf c) l.index ∧
      s.marked? job l = some u ∧ u.lastBreak = s.lastBreak ∧
      s.step job l = (u.checkWrap job).noteBreak (s.breaking.contains c) := by
  obtain ⟨index, token⟩ := l
  obtain rfl : token = .text c := htoken
  have hnote : CodePoint.isBreaking c = false := by
    simp only [CodePoint.isBreaking, hspace, Bool.false_and]
  have hstyle := (sameStyle_beginLine job s).trans
    (sameStyle_noteBreak (s.beginLine job) (CodePoint.isBreaking c))
  have hadvance : (((s.beginLine job).noteBreak (CodePoint.isBreaking c)).textAdvance job c).1 =
      s.font.advanceOf c := by
    rw [textAdvance_of_ne_tab job _ htab, hstyle.font]
  rw [← hadvance]
  refine ⟨_, _, rfl, rfl, ?_, ?_⟩
  · rw [(pushMark_frame job _ c _ _ index).2.1]
    change ((s.beginLine job).noteBreak (CodePoint.isBreaking c)).lastBreak = s.lastBreak
    rw [hnote]
    exact (sameLine_beginLine job s).lastBreak
  · refine (place_eq job s c index).trans ?_
    have hsame : ∀ kind advance, ((beforeMark job s c).addMark job c kind advance index).breaking =
        s.breaking := fun kind advance =>
      ((sameStyle_beforeMark job s c).trans (sameStyle_addMark job _ c kind advance index)).breaking
    rw [hsame]
    rfl

/-- Behind the base nothing has been noted, and nothing at all if its line was wrapped and what
    is left does not fit even then. -/
theorem lastBreak_base (htoken : l.token = .text c) (hspace : CodePoint.isSpace c = false)
    (htab : c ≠ CodePoint.tab)
    (hbreaking : ((initial job font).run job seen).breaking.contains c = false) :
    (∀ q, ((initial job font).run job (seen ++ [l])).lastBreak = some q →
      q < ((initial job font).run job (seen ++ [l])).marks.size) ∧
    (((initial job font).run job (seen ++ [l])).Overflows job →
      ((initial job font).run job (seen ++ [l])).lastBreak = none) := by
  have hwithin := breakWithin_run job font seen
  rw [run_concat]
  generalize (initial job font).run job seen = s at *
  obtain ⟨kind, u, -, hmark, hlast, hstep⟩ := marked_letter htoken hspace htab job s
  rw [hstep, hbreaking]
  change (∀ q, (u.checkWrap job).lastBreak = some q → q < (u.checkWrap job).marks.size) ∧
    ((u.checkWrap job).Overflows job → (u.checkWrap job).lastBreak = none)
  by_cases hover : u.Overflows job
  · have hnone := (commit_frame job u u.breakAt .wrap).2.2.1
    rw [checkWrap_of_overflows hover]
    refine ⟨fun q hq => ?_, fun _ => hnone⟩
    rw [hnone] at hq
    cases hq
  · rw [checkWrap_of_not_overflows hover]
    refine ⟨fun q hq => ?_, fun h => absurd h hover⟩
    obtain ⟨x, hlist, -⟩ := toList_marked hmark
    have hsize := congrArg List.length hlist
    rw [List.length_append, Array.length_toList, Array.length_toList, List.length_singleton]
      at hsize
    have hle := hwithin q (hlast ▸ hq)
    omega

section Letters

variable (h : Combines job.printer.images cs seen l k rest c d) (htoken : l.token = .text c)
  (hspace : CodePoint.isSpace c = false) (htab : c ≠ CodePoint.tab)
  (hadvance : ((initial job font).run job seen).font.advanceOf c =
    ((initial job font).run job seen).font.advanceOf d)
  (hfont : job.printer.fonts.get? job.printer.defaultFont = some font)
  (hkerning : ∀ id f, job.printer.fonts.get? id = some f → ∀ c d, f.face.kerning c d = 0)
include h htoken hspace htab hadvance hfont hkerning

/-- The mark goes past the wrap width exactly if its base does, and no place for a break is
    noted for it. -/
theorem marked_mark (hne : ((initial job font).run job (seen ++ [l])).marks ≠ #[]) :
    ∃ u m n, ((initial job font).run job (seen ++ [l])).marked? job k = some u ∧
      ((initial job font).run job (seen ++ [l])).Poised c l.index m ∧
      u.marks.toList = ((initial job font).run job (seen ++ [l])).marks.toList ++ [n] ∧
      n.code = d ∧
      u.lastBreak = ((initial job font).run job (seen ++ [l])).lastBreak ∧
      (u.Overflows job ↔ ((initial job font).run job (seen ++ [l])).Overflows job) := by
  obtain ⟨hdspace, hdtab⟩ := CodePoint.not_blank_of_not_spaced h.combining
  obtain ⟨id, hid⟩ : ((initial job font).run job (seen ++ [l])).Registered job :=
    Registered.run ⟨_, hfont⟩ (seen ++ [l])
  have hnokerning := hkerning id _ hid
  have hsame : ((initial job font).run job (seen ++ [l])).font =
      ((initial job font).run job seen).font := by
    rw [run_concat]
    refine (sameStyle_step job _ fun i hi => ?_).font
    rw [htoken] at hi
    cases hi
  rw [run_concat] at hne
  obtain ⟨base, m, hbase, hm, hback⟩ := poised_step h.base hne
  obtain ⟨kind, base', hpush, hbase', -, -⟩ :=
    marked_letter htoken hspace htab job ((initial job font).run job seen)
  have hlength : m.advance = ((initial job font).run job (seen ++ [l])).font.advanceOf d := by
    obtain rfl : base = base' := Option.some.inj (hbase.symm.trans hbase')
    rw [hback, hpush, (pen_pushMark job _ c kind _ l.index).2.1, hsame, hadvance]
  rw [← run_concat] at hm
  generalize (initial job font).run job (seen ++ [l]) = s at *
  obtain ⟨kind, u, rfl, hmark, hlast, -⟩ := marked_letter h.mark hdspace hdtab job s
  have hlist := toList_pushMark job (beforeMark job s d) d kind (s.font.advanceOf d) k.index
  rw [(beforeMark_frame job s d).1] at hlist
  refine ⟨_, m, _, hmark, hm, hlist, rfl, hlast, ?_⟩
  -- The pen is back where it was behind the base.
  have hpen : ((beforeMark job s d).pushMark job d kind (s.font.advanceOf d) k.index).penX =
      s.penX := by
    have hx : (newMark job (beforeMark job s d) d kind (s.font.advanceOf d) k.index).x = m.x :=
      (hm.newMark hnokerning h.combining kind (s.font.advanceOf d) k.index).1
    rw [(pen_pushMark job _ d kind _ k.index).1, hm.pen, Mark.right, hlength, ← hx]
    rfl
  have hstyle := (sameStyle_beforeMark job s d).trans
    (sameStyle_pushMark job _ d kind (s.font.advanceOf d) k.index)
  have htable : ((beforeMark job s d).pushMark job d kind (s.font.advanceOf d) k.index).table =
      s.table := (table_pushMark job _ d kind _ k.index).trans (beforeMark_frame job s d).2.2.2.2
  simp only [Overflows, hstyle.wordWrap, hstyle.wrapWidth, htable, hpen]

variable (hbreaking : ((initial job font).run job seen).breaking.contains c = false)
include hbreaking

/-- A base that uses up its line is broken off. -/
theorem brokenBehind_of_spent (hspent : ((initial job font).run job (seen ++ [l])).Spent job) :
    job.BrokenBehind font cs l.index := by
  by_cases hempty : ((initial job font).run job (seen ++ [l])).marks = #[]
  · rw [run_concat] at hempty
    exact brokenBehind_of_empty h hempty
  have hover := hspent.resolve_left hempty
  have hnone := (lastBreak_base htoken hspace htab hbreaking).2 hover
  obtain ⟨u, m, n, hmark, hm, hlist, hn, hlast, hiff⟩ :=
    marked_mark h htoken hspace htab hadvance hfont hkerning hempty
  obtain ⟨hdspace, hdtab⟩ := CodePoint.not_blank_of_not_spaced h.combining
  have hblank : n.isBlank = false := by
    rw [Mark.isBlank, hn, hdspace, Bool.false_or, beq_eq_false_iff_ne]
    exact hdtab
  obtain ⟨before, hbefore⟩ := List.getLast?_eq_some_iff.1 hm.last
  refine ⟨u, ⟨seen ++ [l], k, rest, h.split_mark, hmark, hiff.2 hover⟩, m, ?_, hm.index⟩
  rw [hlast.symm.trans rfl] at hnone
  rw [hbefore] at hlist
  have hsize : u.marks.size = before.length + 2 := by
    rw [← Array.length_toList, hlist, List.length_append, List.length_append,
      List.length_singleton, List.length_singleton]
  -- The line is broken before the mark, and its base is no space to be trimmed.
  have hat : u.breakAt = before.length + 1 := by
    have hemergency : breakAt.emergency u = before.length + 1 := by
      simp only [breakAt.emergency, hsize]
      exact if_neg (by omega)
    have hget : u.marks[before.length]? = some m := by
      rw [← Array.getElem?_toList, hlist, List.append_assoc, List.getElem?_append_right
        (Nat.le_refl _), Nat.sub_self, List.singleton_append, List.getElem?_cons_zero]
    simp only [breakAt, hnone, hemergency, trimSpaces, hget, Option.any_some, hm.code, hspace,
      Bool.false_eq_true, if_false]
  have hfirst : (before ++ [m]).length = before.length + 1 := List.length_append
  have hcut : u.cut u.breakAt .wrap = (before ++ [m]).length := by
    have hrest : u.marks.toList.drop (before ++ [m]).length = [n] := by
      rw [hlist, List.drop_left]
    rw [hat, ← hfirst, cut, hrest, List.takeWhile_cons_of_neg (by rw [hblank]; exact
      Bool.false_ne_true), List.length_nil, Nat.add_zero]
  rw [hcut, hlist, List.take_left, List.getLast?_concat]

/-- The base and the mark wait together once the mark has come. -/
theorem bonded_step (hspent : ¬ ((initial job font).run job (seen ++ [l])).Spent job) :
    (((initial job font).run job (seen ++ [l])).step job k).Bonded l.index := by
  have hempty := fun hempty => hspent (Or.inl hempty)
  have hfits := fun hover => hspent (Or.inr hover)
  have hnoted := (lastBreak_base htoken hspace htab hbreaking).1
  obtain ⟨u, m, n, hmark, hm, hlist, hn, hlast, hiff⟩ :=
    marked_mark h htoken hspace htab hadvance hfont hkerning hempty
  obtain ⟨p, hstep⟩ := step_of_marked hmark
  rw [hstep, checkWrap_of_not_overflows fun hover => hfits (hiff.1 hover)]
  suffices hbonded : u.Bonded l.index by
    cases p with
    | true => exact hbonded.noteBreak
    | false => exact hbonded
  obtain ⟨hdspace, -⟩ := CodePoint.not_blank_of_not_spaced h.combining
  obtain ⟨last, hlast', hlastIndex⟩ := toList_marked hmark
  intro before b after hsplit hb
  rw [hlist] at hsplit
  rcases split_concat hsplit with ⟨-, rfl, -⟩ | ⟨init, hinit, rfl⟩
  · have hlt := h.index_lt
    rw [hlist] at hlast'
    obtain rfl := List.singleton_inj.1 (List.append_cancel_left hlast')
    omega
  · -- Of the marks that waited the base is the last, and the only one at its position.
    have hordered := pairwise_run job font h.split_mark
    rw [hinit, List.map_append, List.map_cons, List.pairwise_append] at hordered
    obtain rfl : init = [] := by
      by_contra hne
      have hmem : m ∈ init := by
        have hlast := hm.last
        rw [hinit, List.getLast?_append, List.getLast?_cons_of_ne_nil hne] at hlast
        exact List.mem_of_getLast? (by simpa [List.getLast?_eq_some_getLast hne] using hlast)
      have hlt := List.rel_of_pairwise_cons hordered.2.1 (List.mem_map_of_mem hmem)
      have hsame := hm.index
      omega
    have hbm : b = m := by
      have hlast := hm.last
      rw [hinit, List.getLast?_concat] at hlast
      exact Option.some.inj hlast
    have hsize := congrArg List.length hinit
    rw [Array.length_toList, List.length_append, List.length_singleton] at hsize
    refine ⟨?_, ⟨n, [], rfl, hn ▸ hdspace⟩, fun q hq => ?_⟩
    · rw [Mark.isBlank, hbm, hm.code, hspace, Bool.false_or, beq_eq_false_iff_ne]
      exact htab
    · have hlt := hnoted q (hlast ▸ hq)
      omega

/-- Unless it uses up its line the base is not broken off. -/
theorem not_brokenBehind_of_not_spent
    (hspent : ¬ ((initial job font).run job (seen ++ [l])).Spent job) :
    ¬ job.BrokenBehind font cs l.index := by
  rintro ⟨u, hwraps, m, hlast, hm⟩
  have hb := hwraps.breakWithin
  obtain ⟨seen', l', rest', hsplit', hmark, hover⟩ := hwraps
  obtain ⟨n, hlist, hn⟩ := toList_marked hmark
  obtain ⟨before, hbefore⟩ := List.getLast?_eq_some_iff.1 hlast
  have hall : ((initial job font).run job seen').marks.toList ++ [n] =
      before ++ m :: u.marks.toList.drop (u.cut u.breakAt .wrap) := by
    rw [← hlist, ← List.singleton_append, ← List.append_assoc, ← hbefore, List.take_append_drop]
  -- The base is the mark of the token, or has come before it.
  rcases split_concat hall with ⟨-, rfl, hdrop⟩ | ⟨init, hinit, -⟩
  · obtain ⟨rfl, rfl, -⟩ := split_unique h.split hsplit' (hn.symm.trans hm)
    obtain ⟨p, hstep⟩ := step_of_marked hmark
    obtain ⟨⟨dx, hmarks⟩, -⟩ := commit_frame job u u.breakAt .wrap
    refine hspent (Or.inl ?_)
    rw [run_concat, hstep, (noteBreak_frame _ p).1, checkWrap_of_overflows hover]
    rw [hdrop, List.map_nil] at hmarks
    exact Array.toList_eq_nil_iff.1 hmarks
  · have hwaits : m ∈ ((initial job font).run job seen').marks.toList := by
      rw [hinit]
      exact List.mem_append_cons_self
    have hlt := index_lt_of_mem_run hsplit' hwaits
    rw [hm] at hlt
    obtain ⟨mid, rfl, hrest⟩ := split_after h.split hsplit' hlt
    cases mid with
    | nil =>
      -- The mark does not go past the wrap width.
      obtain ⟨rfl, -⟩ := List.cons_eq_cons.1 hrest
      obtain ⟨v, -, -, hv, -, -, -, -, hiff⟩ := marked_mark h htoken hspace htab hadvance hfont
        hkerning fun hempty => hspent (Or.inl hempty)
      obtain rfl : v = u := Option.some.inj (hv.symm.trans hmark)
      exact hspent (Or.inr (hiff.1 hover))
    | cons x mid =>
      obtain ⟨rfl, rfl⟩ := List.cons_eq_cons.1 hrest
      have hmid : seen ++ l :: k :: mid = seen ++ [l] ++ [k] ++ mid := by
        simp only [List.append_assoc, List.cons_append, List.nil_append]
      rw [hmid] at hsplit' hmark
      have hbonded : ((initial job font).run job (seen ++ [l] ++ [k] ++ mid)).Bonded l.index := by
        refine run_induction_from (P := (Bonded l.index)) (seen ++ [l] ++ [k]) ?_ ?_ hsplit'
        · rw [run_concat]
          exact bonded_step h htoken hspace htab hadvance hfont hkerning hbreaking hspent
        · intro mid x later hx hmid
          refine hmid.step ?_
          have hpairs := pairwise_lexemes cs
          rw [hx, List.pairwise_append] at hpairs
          refine Nat.ne_of_gt (hpairs.2.2 l ?_ x List.mem_cons_self)
          simp only [List.append_assoc, List.singleton_append]
          exact List.mem_append_cons_self
      exact (hbonded.marked hb hmark (Nat.ne_of_gt hlt)).2 m hlast hm

/-- A base that is no blank and no place for a break is broken off exactly where it uses up its
    line. -/
theorem brokenBehind_iff_spent :
    job.BrokenBehind font cs l.index ↔ ((initial job font).run job (seen ++ [l])).Spent job := by
  constructor
  · intro hbroken
    by_contra hspent
    exact not_brokenBehind_of_not_spent h htoken hspace htab hadvance hfont hkerning hbreaking
      hspent hbroken
  · exact brokenBehind_of_spent h htoken hspace htab hadvance hfont hkerning hbreaking

end Letters

end LayoutState

open LayoutState in
/-- **Which combining marks stay on their base.**  Without kerning a mark is on the line of the
    glyph before it unless the line is broken right behind that one, which happens to a base
    that is no blank and no place for a break only where it uses up its line.  Outside tables
    the two are apart by the room that justification opens behind the base, and by nothing
    else. -/
theorem Printer.combining_marks_iff {p : Printer} {font : Font}
    (hfont : p.fonts.get? p.defaultFont = some font)
    (hkerning : ∀ id f, p.fonts.get? id = some f → ∀ c d, f.face.kerning c d = 0)
    (markup : List UInt8) (origin : Point) (width : Int) :
    let job : Job := ⟨p, origin, width⟩
    ∃ lines, job.layout markup = .ok lines ∧
      (∀ line ∈ lines, ∃ top, ∀ g ∈ line.events, g.lineTop = top) ∧
      ∀ seen l k rest c d, Combines p.images (Codec.decode markup) seen l k rest c d →
        (Job.Together lines l.index k.index ↔
          ¬ job.BrokenBehind font (Codec.decode markup) l.index) ∧
        (∀ line ∈ lines, ∀ g ∈ line.events, ∀ e ∈ line.events, g.index = l.index →
          e.index = k.index →
            ∃ u content reason, CommitsAt job font (Codec.decode markup) u content reason ∧
              line = u.committedLine job content reason ∧
              ∃ before m after, u.marks.toList = before ++ m :: after ∧ m.index = l.index ∧
                m.code = c ∧ (u.table = none →
                  e.location.x = g.location.x + u.roomBehind job content reason before m)) ∧
        (l.token = .text c → CodePoint.isSpace c = false → c ≠ CodePoint.tab →
          ((initial job font).run job seen).breaking.contains c = false →
          ((initial job font).run job seen).font.advanceOf c =
            ((initial job font).run job seen).font.advanceOf d →
          (job.BrokenBehind font (Codec.decode markup) l.index ↔
            ((initial job font).run job (seen ++ [l])).Spent job)) := by
  intro job
  refine ⟨_, Job.layout_eq hfont markup, fun line => Job.lineTop_eq, ?_⟩
  intro seen l k rest c d h
  refine ⟨⟨?_, ?_⟩, ?_, ?_⟩
  · intro htogether hbroken
    exact not_together_of_broken hbroken h.index_lt htogether
  · exact together_of_not_broken h hfont hkerning
  · intro line hline g hg e he hgi hei
    exact location_of_together h hfont hkerning hline hg he hgi hei
  · intro htoken hspace htab hbreaking hadvance
    exact brokenBehind_iff_spent h htoken hspace htab hadvance hfont hkerning hbreaking

/-- The hyphen goes past the wrap width with the mark that stands over it, and the line is
    broken between them. -/
theorem Printer.mark_leaves_hyphen :
    ∃ font lines, boxes.fonts.get? boxes.defaultFont = some font ∧
      (∀ c d, font.face.advance c = 10 ∧ font.face.kerning c d = 0) ∧
      Codec.decode [0x61, 0x62, 0x2D, 0xCC, 0x81, 0x63] = [0x61, 0x62, 0x2D, 0x301, 0x63] ∧
      CodePoint.isSpaced 0x301 = false ∧
      (Job.mk boxes .zero 30).layout [0x61, 0x62, 0x2D, 0xCC, 0x81, 0x63] = .ok lines ∧
      lines.map (fun l => l.events.map fun g => (g.index, g.location.x, g.lineTop)) =
        [[(0, 0, 0), (1, 10, 0), (2, 20, 0)], [(3, 0, 20), (4, 10, 20), (5, 20, 20)]] := by
  refine ⟨_, _, rfl, fun c d => ⟨rfl, rfl⟩, by decide, by decide, rfl, ?_⟩
  decide +kernel

/-- The mark over the first letter of a line that is not full stays there. -/
theorem Printer.combining_marks_iff_boxes :
    ∃ lines, (Job.mk boxes .zero 30).layout [0x65, 0xCC, 0x81] = .ok lines ∧
      Job.Together lines 0 1 := by
  obtain ⟨lines, hlayout, -, hmarks⟩ := combining_marks_iff (p := boxes) rfl
    (fun id f hf c d => by rcases font_of_boxes hf with rfl | rfl <;> rfl)
    [0x65, 0xCC, 0x81] .zero 30
  have hcombines : Combines boxes.images (Codec.decode [0x65, 0xCC, 0x81]) [] ⟨0, .text 0x65⟩
      ⟨1, .text 0x301⟩ [] 0x65 0x301 :=
    ⟨by decide, rfl, rfl, by decide⟩
  obtain ⟨htogether, -, hspent⟩ := hmarks _ _ _ _ _ _ hcombines
  refine ⟨lines, hlayout, htogether.2 fun hbroken => ?_⟩
  have hspent := (hspent rfl (by decide) (by decide) (by decide) rfl).1 hbroken
  revert hspent
  decide +kernel

end RichText
