/-
  RichText/Proofs/Layout/Coverage.lean
  ====================================
  **Which glyphs a rule covers, and where it is drawn.**

  A rule covers the glyphs from where it starts up to where it stops, and how often a
  position is covered changes as one would think where the next glyph is put behind the
  others and where a line is taken away (`count_update`, `count_carry`).  On a line whose
  marks stand apart a rule is drawn along the glyphs that it covers, but a rule that stops at
  the start of the line, and so covers none of them, is drawn along the first one
  (`any_rule?`).
-/
import RichText.Proofs.Layout.Coherence

namespace RichText

/-! ### Covered positions -/

namespace Span

variable {α : Type} {s t : Span α} {cut n i : Nat}

/-- The first position that the span covers. -/
def first (s : Span α) : Nat :=
  match s.start with
  | .glyph i => i
  | .continued => 0

def covers (s : Span α) (i : Nat) : Bool := decide (s.first ≤ i) && s.stop.all (i < ·)

/-- Whether the span stops at the start of the line. -/
def leftOver (s : Span α) : Bool := s.stop == some 0

/-- Whether a rule for the span is drawn along the glyph at a position. -/
def shows (s : Span α) (i : Nat) : Bool := decide (s.first ≤ i) && s.stop.all (i < max · 1)

private theorem covers_past (hfirst : s.first ≤ cut) (i : Nat) :
    (carry.past cut s).any (·.covers i) = s.covers (i + cut) := by
  obtain ⟨start, stop, data⟩ := s
  have hle : decide (first ⟨start, stop, data⟩ ≤ i + cut) = true := decide_eq_true (by omega)
  rw [covers, hle, Bool.true_and]
  cases stop with
  | none => rfl
  | some j =>
    simp only [carry.past, Option.any_some, decide_eq_true_eq, Option.all_some]
    split
    · next hj =>
      refine (decide_eq_false ?_).symm
      omega
    · next hj =>
      simp only [Option.any_some, covers, first, Option.map_some, Option.all_some, Nat.zero_le,
        decide_true, Bool.true_and, decide_eq_decide]
      omega

/-- What is left of a span behind a cut covers what it covered there. -/
theorem covers_carry (s : Span α) (cut i : Nat) :
    (s.carry cut).any (·.covers i) = s.covers (i + cut) := by
  obtain ⟨start, stop, data⟩ := s
  cases start with
  | continued => exact covers_past (Nat.zero_le cut) i
  | glyph k =>
    by_cases hk : cut ≤ k
    · have hcarry : carry cut ⟨.glyph k, stop, data⟩ =
          some ⟨.glyph (k - cut), stop.map (· - cut), data⟩ := if_pos hk
      have hfirst : decide (k - cut ≤ i) = decide (k ≤ i + cut) := by
        rw [decide_eq_decide]
        omega
      rw [hcarry]
      change (decide (k - cut ≤ i) && (stop.map (· - cut)).all (i < ·)) =
        (decide (k ≤ i + cut) && stop.all (i + cut < ·))
      rw [hfirst]
      cases stop with
      | none => rfl
      | some j =>
        have hstop : decide (i < j - cut) = decide (i + cut < j) := by
          rw [decide_eq_decide]
          omega
        exact congrArg (_ && ·) hstop
    · have hcarry : carry cut ⟨.glyph k, stop, data⟩ = carry.past cut ⟨.glyph k, stop, data⟩ :=
        if_neg hk
      rw [hcarry]
      exact covers_past (Nat.le_of_lt (Nat.not_le.1 hk)) i

/-- A span behind a cut has the start and the stop that it had, seen from there, or goes on
    from the line before and stops behind the cut. -/
theorem carry_cases (h : s.carry cut = some t) :
    t.data = s.data ∧ t.stop = s.stop.map (· - cut) ∧
      ((∃ k, s.start = .glyph (k + cut) ∧ t.start = .glyph k) ∨
        t.start = .continued ∧ ∀ j, s.stop = some j → cut < j) := by
  obtain ⟨start, stop, data⟩ := s
  have hpast : carry.past cut ⟨start, stop, data⟩ = some t →
      t.data = data ∧ t.stop = stop.map (· - cut) ∧ t.start = .continued ∧
        ∀ j, stop = some j → cut < j := by
    intro h
    simp only [carry.past] at h
    split at h
    · cases h
    · next hstop =>
      cases h
      refine ⟨rfl, rfl, rfl, ?_⟩
      rintro j rfl
      rw [Option.any_some, decide_eq_true_eq] at hstop
      exact Nat.not_le.1 hstop
  cases start with
  | continued =>
    obtain ⟨hdata, hstop, hcontinued⟩ := hpast h
    exact ⟨hdata, hstop, Or.inr hcontinued⟩
  | glyph k =>
    simp only [carry] at h
    split at h
    · next hk =>
      cases h
      refine ⟨rfl, rfl, Or.inl ⟨k - cut, ?_, rfl⟩⟩
      rw [Nat.sub_add_cancel hk]
    · obtain ⟨hdata, hstop, hcontinued⟩ := hpast h
      exact ⟨hdata, hstop, Or.inr hcontinued⟩

theorem covers_of_isOpen (h : s.Within n) (hopen : s.isOpen = true) : s.covers n = true := by
  obtain ⟨start, stop, data⟩ := s
  cases stop with
  | some j => cases hopen
  | none =>
    simp only [covers, Option.all_none, Bool.and_true, decide_eq_true_eq]
    cases start with
    | continued => exact Nat.zero_le n
    | glyph k => exact h.1 k rfl

/-- A span that has been closed does not cover what comes after. -/
theorem not_covers_of_closed (h : s.Within n) (hclosed : s.isOpen = false) :
    s.covers n = false := by
  obtain ⟨start, stop, data⟩ := s
  cases stop with
  | none => cases hclosed
  | some j =>
    have hj : ¬ n < j := Nat.not_lt.2 (h.2.1 j rfl)
    simp only [covers, Option.all_some, hj, decide_false, Bool.and_false]

theorem covers_close (hopen : s.isOpen = true) (hi : i < n) : (s.close n).covers i = s.covers i := by
  obtain ⟨start, stop, data⟩ := s
  cases stop with
  | some j => cases hopen
  | none =>
    simp only [covers, close, Option.all_some, Option.all_none, hi, decide_true]
    rfl

theorem shows_zero (h : ∀ k, s.start = .glyph k → ∀ j, s.stop = some j → k < j) :
    (if s.shows 0 then 1 else 0) = (if s.covers 0 then 1 else 0) + if s.leftOver then 1 else 0 := by
  obtain ⟨start, stop, data⟩ := s
  cases stop with
  | none => rfl
  | some j =>
    cases j with
    | succ j =>
      have hmax : max (j + 1) 1 = j + 1 := Nat.max_eq_left (Nat.succ_pos j)
      simp only [shows, covers, leftOver, Option.all_some, hmax]
      rfl
    | zero =>
      cases start with
      | glyph k => exact absurd (h k rfl 0 rfl) (Nat.not_lt_zero k)
      | continued => rfl

theorem shows_succ (s : Span α) (i : Nat) : s.shows (i + 1) = s.covers (i + 1) := by
  obtain ⟨start, stop, data⟩ := s
  cases stop with
  | none => rfl
  | some j =>
    simp only [shows, covers, Option.all_some, ← Bool.decide_and, decide_eq_decide]
    omega

end Span

namespace Decorations

variable {d : Decorations} {n i : Nat}

/-- How many rules cover the glyph at a position. -/
def count (d : Decorations) (i : Nat) : Nat := d.spans.countP (·.covers i)

def leftOvers (d : Decorations) : Nat := d.spans.countP Span.leftOver

def shown (d : Decorations) (i : Nat) : Nat := d.spans.countP (·.shows i)

theorem count_carry (d : Decorations) (cut i : Nat) : (d.carry cut).count i = d.count (i + cut) := by
  simp only [count, carry, List.countP_filterMap]
  refine List.countP_congr fun s _ => ?_
  rw [← s.covers_carry cut i]
  cases s.carry cut <;> rfl

/-- Among rules that are closed none covers the next glyph. -/
theorem countP_of_closed {spans : List (Span Rule)} (h : SpansWithin n spans)
    (hclosed : ∀ s ∈ spans, s.isOpen = false) : spans.countP (·.covers n) = 0 := by
  rw [List.countP_eq_zero]
  intro s hs
  rw [Span.not_covers_of_closed (h s hs) (hclosed s hs)]
  exact Bool.false_ne_true

/-- What closing a rule does not change of it is counted as before. -/
theorem countP_close {p : Span Rule → Bool} {pos : Nat}
    (hp : ∀ s : Span Rule, s.isOpen = true → p (s.close pos) = p s) (d : Decorations) :
    (d.close pos).spans.countP p = d.spans.countP p := by
  obtain ⟨spans, openAt⟩ := d
  cases openAt with
  | none => cases spans <;> rfl
  | some height =>
    cases spans with
    | nil => rfl
    | cons s rest =>
      simp only [close, List.countP_cons]
      split
      · next hs => rw [hp s hs]
      · rfl

theorem countP_update {p : Span Rule → Bool} {pos : Nat}
    (hp : ∀ s : Span Rule, s.isOpen = true → p (s.close pos) = p s)
    (hopening : ∀ rule, p (Span.opening pos rule) = false) (d : Decorations)
    (rule : Option (Rule × Int)) : (d.update pos rule).spans.countP p = d.spans.countP p := by
  rcases rule with _ | ⟨rule, height⟩
  · exact countP_close hp d
  · simp only [update, cover]
    split
    · rfl
    · rw [List.countP_cons, hopening, countP_close hp]
      rfl

theorem Coherent.count_close_self (h : d.Coherent n) : (d.close n).count n = 0 :=
  countP_of_closed h.close.within h.closed_close

/-- Where an open rule goes on, it alone covers the next glyph. -/
theorem Coherent.count_of_open (h : d.Coherent n) (hopen : d.openAt.isSome = true) :
    d.count n = 1 := by
  obtain ⟨spans, openAt⟩ := d
  cases spans with
  | nil =>
    have hnone := h.openAt
    rw [hopen] at hnone
    cases hnone
  | cons s rest =>
    have hs : s.isOpen = true := h.openAt.trans hopen
    have hrest : rest.countP (·.covers n) = 0 :=
      countP_of_closed (fun t ht => h.within t (List.mem_cons_of_mem s ht)) h.closed
    simp only [count, List.countP_cons, hrest, Span.covers_of_isOpen (h.within s List.mem_cons_self) hs,
      if_true]

theorem openAt_of_continues {rule : Rule} {height : Int} (h : d.continues rule height = true) :
    d.openAt.isSome = true := by
  have hopen : d.openAt = some height := beq_iff_eq.1 (Bool.and_eq_true_iff.1 h).1
  rw [hopen]
  rfl

/-- The glyphs before keep the rules that they have. -/
theorem count_update (d : Decorations) (rule : Option (Rule × Int)) (hi : i < n) :
    (d.update n rule).count i = d.count i := by
  refine countP_update (fun s hs => Span.covers_close hs hi) ?_ d rule
  intro rule
  have hlt : ¬ n ≤ i := Nat.not_le.2 hi
  simp only [Span.covers, Span.opening, Span.first, hlt, decide_false, Bool.false_and]

theorem count_close (d : Decorations) (hi : i < n) : (d.close n).count i = d.count i :=
  d.count_update none hi

/-- The next glyph is covered once, or not at all. -/
theorem Coherent.count_update_self (h : d.Coherent n) (rule : Option (Rule × Int)) :
    (d.update n rule).count n = if rule.isSome then 1 else 0 := by
  rcases rule with _ | ⟨rule, height⟩
  · exact h.count_close_self
  · change (d.cover n rule height).count n = 1
    by_cases hc : d.continues rule height = true
    · rw [Decorations.cover, if_pos hc]
      exact h.count_of_open (openAt_of_continues hc)
    · refine (h.cover rule height).count_of_open ?_
      rw [Decorations.cover, if_neg hc]
      rfl

/-! ### Rules as they are between two tokens -/

/-- Each rule has begun before a glyph that waits, and no rule covers gaps. -/
structure Begun (n : Nat) (d : Decorations) : Prop extends d.Coherent n where
  starts : ∀ s ∈ d.spans, ∀ k, s.start = .glyph k → k < n ∧ ∀ j, s.stop = some j → k < j
  noGaps : ∀ s ∈ d.spans, s.data.gaps = false

theorem begun_empty (n : Nat) : empty.Begun n where
  toCoherent := coherent_empty n
  starts := fun _ h => nomatch h
  noGaps := fun _ h => nomatch h

theorem mem_close {s : Span Rule} {pos : Nat} (h : s ∈ (d.close pos).spans) :
    s ∈ d.spans ∨ ∃ t ∈ d.spans, t.isOpen = true ∧ s = t.close pos := by
  obtain ⟨spans, openAt⟩ := d
  cases openAt with
  | none => cases spans <;> exact Or.inl h
  | some height =>
    cases spans with
    | nil => exact Or.inl h
    | cons t rest =>
      simp only [close] at h
      split at h
      · next ht =>
        rcases List.mem_cons.1 h with rfl | h
        · exact Or.inr ⟨t, List.mem_cons_self, ht, rfl⟩
        · exact Or.inl (List.mem_cons_of_mem t h)
      · exact Or.inl h

theorem Begun.close (h : d.Begun n) : (d.close n).Begun n := by
  refine ⟨h.toCoherent.close, ?_, ?_⟩
  · intro s hs k hk
    rcases mem_close hs with hs | ⟨t, ht, -, rfl⟩
    · exact h.starts s hs k hk
    · have hkn := (h.starts t ht k hk).1
      refine ⟨hkn, ?_⟩
      intro j hj
      cases hj
      exact hkn
  · intro s hs
    rcases mem_close hs with hs | ⟨t, ht, -, rfl⟩
    · exact h.noGaps s hs
    · exact h.noGaps t ht

/-- A rule that opens begins before the next glyph. -/
theorem Begun.update (h : d.Begun n) {rule : Option (Rule × Int)}
    (hgaps : ∀ r ∈ rule, r.1.gaps = false) : (d.update n rule).Begun (n + 1) := by
  have hmono : ∀ {d : Decorations}, d.Begun n → ∀ s ∈ d.spans, ∀ k, s.start = .glyph k →
      k < n + 1 ∧ ∀ j, s.stop = some j → k < j := by
    intro d h s hs k hk
    obtain ⟨hkn, hstop⟩ := h.starts s hs k hk
    exact ⟨Nat.lt_succ_of_lt hkn, hstop⟩
  refine ⟨(h.toCoherent.update rule).mono (Nat.le_succ n), ?_, ?_⟩ <;>
    rcases rule with _ | ⟨rule, height⟩
  · exact hmono h.close
  · simp only [Decorations.update, Decorations.cover]
    split
    · exact hmono h
    · intro s hs k hk
      rcases List.mem_cons.1 hs with rfl | hs
      · cases hk
        exact ⟨Nat.lt_succ_self n, fun j hj => nomatch hj⟩
      · exact hmono h.close s hs k hk
  · exact h.close.noGaps
  · simp only [Decorations.update, Decorations.cover]
    split
    · exact h.noGaps
    · intro s hs
      rcases List.mem_cons.1 hs with rfl | hs
      · exact hgaps _ rfl
      · exact h.close.noGaps s hs

theorem Begun.carry (h : d.Begun n) (cut : Nat) : (d.carry cut).Begun (n - cut) := by
  refine ⟨h.toCoherent.carry cut, ?_, ?_⟩
  · intro t ht k hk
    obtain ⟨s, hs, hst⟩ := List.mem_filterMap.1 ht
    obtain ⟨-, hstop, ⟨i, hstart, hi⟩ | ⟨hcontinued, -⟩⟩ := Span.carry_cases hst
    · obtain rfl : i = k := SpanStart.glyph.inj (hi.symm.trans hk)
      obtain ⟨hin, hlt⟩ := h.starts s hs _ hstart
      refine ⟨Nat.lt_sub_of_add_lt hin, ?_⟩
      intro j hj
      rw [hstop] at hj
      obtain ⟨m, hm, rfl⟩ := Option.map_eq_some_iff.1 hj
      exact Nat.lt_sub_of_add_lt (hlt m hm)
    · cases hcontinued.symm.trans hk
  · intro t ht
    obtain ⟨s, hs, hst⟩ := List.mem_filterMap.1 ht
    rw [(Span.carry_cases hst).1]
    exact h.noGaps s hs

/-- No rule stops at the start of a line that has just begun. -/
theorem Begun.leftOvers_carry (h : d.Begun n) (cut : Nat) : (d.carry cut).leftOvers = 0 := by
  rw [leftOvers, List.countP_eq_zero]
  intro t ht hleft
  have hzero : t.stop = some 0 := beq_iff_eq.1 hleft
  obtain ⟨s, hs, hst⟩ := List.mem_filterMap.1 ht
  obtain ⟨-, hstop, hstart⟩ := Span.carry_cases hst
  rw [hstop] at hzero
  obtain ⟨j, hj, hle⟩ := Option.map_eq_some_iff.1 hzero
  rcases hstart with ⟨i, hi, -⟩ | ⟨-, hlt⟩
  · have hij := (h.starts s hs _ hi).2 j hj
    omega
  · have hcut := hlt j hj
    omega

theorem leftOvers_update (d : Decorations) (hn : 0 < n) (rule : Option (Rule × Int)) :
    (d.update n rule).leftOvers = d.leftOvers := by
  refine countP_update ?_ (fun _ => rfl) d rule
  intro s hs
  obtain ⟨start, stop, data⟩ := s
  cases stop with
  | some j => cases hs
  | none =>
    refine beq_false_of_ne ?_
    intro h
    rw [Option.some.inj h] at hn
    exact Nat.lt_irrefl 0 hn

theorem leftOvers_close (d : Decorations) (hn : 0 < n) : (d.close n).leftOvers = d.leftOvers :=
  d.leftOvers_update hn none

/-- Along the first glyph the rules that stop before it are drawn as well. -/
theorem Begun.shown_zero (h : d.Begun n) : d.shown 0 = d.count 0 + d.leftOvers := by
  have hspans : ∀ spans : List (Span Rule), (∀ s ∈ spans, s ∈ d.spans) →
      spans.countP (·.shows 0) = spans.countP (·.covers 0) + spans.countP Span.leftOver := by
    intro spans hsub
    induction spans with
    | nil => rfl
    | cons s rest ih =>
      have hshows := Span.shows_zero fun k hk => (h.starts s (hsub s List.mem_cons_self) k hk).2
      have hrest := ih fun t ht => hsub t (List.mem_cons_of_mem s ht)
      rw [List.countP_cons, List.countP_cons, List.countP_cons, hrest, hshows]
      exact Nat.add_add_add_comm ..
  exact hspans d.spans fun _ hs => hs

theorem shown_succ (d : Decorations) (i : Nat) : d.shown (i + 1) = d.count (i + 1) := by
  simp only [shown, count, Span.shows_succ]

theorem Begun.shown_update (h : d.Begun n) {rule : Option (Rule × Int)}
    (hgaps : ∀ r ∈ rule, r.1.gaps = false) (hi : i < n) :
    (d.update n rule).shown i = d.shown i := by
  cases i with
  | zero =>
    rw [(h.update hgaps).shown_zero, h.shown_zero, d.count_update rule hi, d.leftOvers_update hi]
  | succ i => rw [shown_succ, shown_succ, d.count_update rule hi]

end Decorations

/-! ### Rules on a line -/

namespace Item

/-- A rule along all of a glyph. -/
def contains (g : Glyph) : Item → Bool
  | .rule left right _ _ _ => left ≤ g.location.x && g.location.x + g.advance ≤ right
  | _ => false

end Item

namespace SetLine

variable {l : SetLine} {span : Span Rule} {i : Nat} {m : Mark}

/-- The marks stand apart, and the content ends with the last of it. -/
structure Apart (l : SetLine) : Prop where
  content : l.content ≤ l.marks.length
  marks : l.marks.Pairwise fun m k => m.right ≤ k.x
  advance : ∀ m ∈ l.marks, 0 ≤ m.advance
  right : l.right = Mark.lastRight l.left (l.marks.take l.content)

/-- The last position along which a rule for the span is drawn. -/
def lastShown (l : SetLine) (span : Span Rule) : Nat :=
  (span.stopGlyph? l.content).elim (l.content - 1) fun j => max j 1 - 1

/-- The rule ends with the last glyph that it is drawn along. -/
theorem Apart.ruleRight_eq (h : l.Apart) (hcontent : 0 < l.content)
    (hgaps : span.data.gaps = false) :
    ∃ k, l.marks[l.lastShown span]? = some k ∧ l.ruleRight span = k.right := by
  have hsize := h.content
  simp only [lastShown, ruleRight]
  cases hstop : span.stopGlyph? l.content with
  | none =>
    rw [Option.elim_none]
    obtain ⟨k, hk⟩ : ∃ k, l.marks[l.content - 1]? = some k :=
      ⟨_, List.getElem?_eq_getElem (by omega)⟩
    refine ⟨k, hk, ?_⟩
    have hlast : (l.marks.take l.content).getLast? = some k := by
      rw [List.getLast?_take, if_neg (by omega), hk]
      rfl
    rw [h.right, Mark.lastRight, hlast]
    rfl
  | some j =>
    have hj : j < l.content := by
      obtain ⟨-, hj⟩ := Option.filter_eq_some_iff.1 hstop
      exact of_decide_eq_true hj
    rw [Option.elim_some]
    obtain ⟨k, hk⟩ : ∃ k, l.marks[max j 1 - 1]? = some k :=
      ⟨_, List.getElem?_eq_getElem (by omega)⟩
    refine ⟨k, hk, ?_⟩
    simp only [hgaps, Bool.false_eq_true, if_false, hk, Option.elim_some]

end SetLine

end RichText
