/-
  RichText/Layout/Span.lean
  =========================
  **Stretches of glyphs that are not reported yet.**

  Underlines, strikethroughs, selections and regions open and close between
  glyphs, and are known by positions among those that wait for their line.  When
  the glyphs before a cut are reported, each span either ends with them or is
  taken over by the line that follows (`Span.carry`).

  Lists of spans hold the one that opened last at their head.
-/

namespace RichText

/-- Where a span starts: at a glyph of the line, or on an earlier line. -/
inductive SpanStart where
  | glyph (pos : Nat)
  | continued
deriving DecidableEq, Repr

/-- A span with what it stands for. -/
structure Span (α : Type) where
  start : SpanStart
  /-- The first glyph that is not covered, once known. -/
  stop : Option Nat
  data : α
deriving DecidableEq, Repr

namespace Span

variable {α : Type}

/-- A span that opens before the glyph at a position. -/
def opening (pos : Nat) (data : α) : Span α := ⟨.glyph pos, none, data⟩

def isOpen (s : Span α) : Bool := s.stop.isNone

def close (s : Span α) (pos : Nat) : Span α := { s with stop := some pos }

/-- The first covered glyph of a line that ends at `cut`. -/
def firstGlyph? (s : Span α) (cut : Nat) : Option Nat :=
  match s.start with
  | .glyph i => if i < cut then some i else none
  | .continued => if 0 < cut then some 0 else none

/-- The glyph before which the span stops, if it is one of a line that ends at `cut`. -/
def stopGlyph? (s : Span α) (cut : Nat) : Option Nat := s.stop.filter (· < cut)

/-- What is left of a span once the glyphs before `cut` are reported. -/
def carry (cut : Nat) (s : Span α) : Option (Span α) :=
  match s.start with
  | .glyph i =>
    if cut ≤ i then some { s with start := .glyph (i - cut), stop := s.stop.map (· - cut) }
    else past
  | .continued => past
where
  /-- A span that starts before the cut. -/
  past : Option (Span α) :=
    if s.stop.any (· ≤ cut) then none
    else some { s with start := .continued, stop := s.stop.map (· - cut) }

/-- A position or start is within the first `n` glyphs, and a span does not stop
    before it starts. -/
def Within (n : Nat) (s : Span α) : Prop :=
  (∀ i, s.start = .glyph i → i ≤ n) ∧ (∀ j, s.stop = some j → j ≤ n) ∧
    (∀ i j, s.start = .glyph i → s.stop = some j → i ≤ j)

theorem within_opening (n : Nat) (data : α) : (opening n data).Within n :=
  ⟨fun i h => by cases h; exact Nat.le_refl n, fun j h => (by cases h), fun i j _ h => (by cases h)⟩

/-- What is carried over a cut lies within the glyphs that are left. -/
theorem Within.carry {n cut : Nat} {s t : Span α} (h : s.Within n)
    (ht : s.carry cut = some t) : t.Within (n - cut) := by
  obtain ⟨start, stop, data⟩ := s
  obtain ⟨h1, h2, h3⟩ := h
  have past : ∀ t, Span.carry.past cut ⟨start, stop, data⟩ = some t → t.Within (n - cut) := by
    intro t ht
    simp only [Span.carry.past] at ht
    split at ht
    · cases ht
    · cases ht
      refine ⟨fun i hi => (by cases hi), fun j hj => ?_, fun i j hi => (by cases hi)⟩
      obtain ⟨k, hk, rfl⟩ := Option.map_eq_some_iff.1 hj
      exact Nat.sub_le_sub_right (h2 k hk) cut
  cases start with
  | continued => exact past t ht
  | glyph i =>
    simp only [Span.carry] at ht
    split at ht
    · next hi =>
      cases ht
      refine ⟨fun k hk => ?_, fun j hj => ?_, fun k j hk hj => ?_⟩
      · cases hk
        exact Nat.sub_le_sub_right (h1 i rfl) cut
      · obtain ⟨m, hm, rfl⟩ := Option.map_eq_some_iff.1 hj
        exact Nat.sub_le_sub_right (h2 m hm) cut
      · cases hk
        obtain ⟨m, hm, rfl⟩ := Option.map_eq_some_iff.1 hj
        exact Nat.sub_le_sub_right (h3 i m rfl hm) cut
    · exact past t ht

end Span

/-- Closes the first span of a list that is open and satisfies `p`. -/
def closeFirst {α : Type} (p : Span α → Bool) (pos : Nat) : List (Span α) → List (Span α)
  | [] => []
  | s :: rest => if s.isOpen && p s then s.close pos :: rest else s :: closeFirst p pos rest

theorem length_closeFirst {α : Type} (p : Span α → Bool) (pos : Nat) (spans : List (Span α)) :
    (closeFirst p pos spans).length = spans.length := by
  induction spans with
  | nil => rfl
  | cons s rest ih =>
    simp only [closeFirst]
    split <;> simp [ih]

end RichText
