/-
  RichText/Proofs/Rounding.lean
  =============================
  **Rounding takes no number below one, none below zero, and no number of the format elsewhere.**

  A fraction of at least one whose denominator is a power of two has a mantissa with all its
  bits and an exponent that leaves its last bit at or above the last one before the point
  (`BinaryFormat.full_of_roundMagnitude`).  So the products of numbers of at least one are
  such numbers, and the integer nearest to them is positive (`Binary32.round_pos`).  A result
  keeps the sign that it is rounded with, so that a product of numbers without a sign has none
  (`Binary32.isNegative_mul`).

  A fraction that is a number of the format is rounded to itself
  (`BinaryFormat.roundMagnitude_of_eq`).  So one is neutral (`Binary32.one_mul_ofInt`), and the
  integers of at most 24 bits are exact (`Binary32.exact_of_natAbs_lt`).
-/
import Mathlib.Tactic.SplitIfs
import RichText.Binary32

namespace RichText

theorem pow2_add (k l : Nat) : pow2 (k + l) = pow2 k * pow2 l := Nat.pow_add 2 k l

theorem pow2_pos (k : Nat) : 0 < pow2 k := Nat.pow_pos (by decide)

theorem pow2_le_pow2 {k l : Nat} (h : k ≤ l) : pow2 k ≤ pow2 l :=
  Nat.pow_le_pow_right (by decide) h

theorem lt_of_pow2_lt {k l : Nat} (h : pow2 k < pow2 l) : k < l :=
  (Nat.pow_lt_pow_iff_right (by decide)).1 h

theorem nearestEven_mul (m : Nat) {d : Nat} (hd : 0 < d) : nearestEven (m * d) d = m := by
  have hhalf : 2 * (m * d % d) < d := by
    rw [Nat.mul_mod_left]
    exact hd
  simp only [nearestEven, if_pos hhalf, Nat.mul_div_cancel m hd]

theorem nearestEven_le (n d : Nat) : nearestEven n d ≤ n / d + 1 := by
  simp only [nearestEven]
  split_ifs <;> omega

theorem div_le_nearestEven (n d : Nat) : n / d ≤ nearestEven n d := by
  simp only [nearestEven]
  split_ifs <;> omega

namespace BinaryFormat

variable {f : BinaryFormat} {n k m : Nat} {e : Int}

/-- The estimate of the exponent by bit lengths is not too large for such a fraction. -/
theorem le_div_inUnits (h : pow2 k ≤ n) (p : Nat) (he : e = (n.log2 : Int) - k - p) :
    pow2 p ≤ (inUnits n (pow2 k) e).1 / (inUnits n (pow2 k) e).2 := by
  have hn : n ≠ 0 := Nat.ne_of_gt (Nat.lt_of_lt_of_le (pow2_pos k) h)
  have hlog : pow2 n.log2 ≤ n := Nat.log2_self_le hn
  simp only [inUnits]
  split
  · next hnonneg =>
    have hpos : 0 < pow2 k * pow2 e.toNat := Nat.mul_pos (pow2_pos k) (pow2_pos _)
    have hsum : p + (k + e.toNat) = n.log2 := by omega
    refine (Nat.le_div_iff_mul_le hpos).2 ?_
    calc pow2 p * (pow2 k * pow2 e.toNat) = pow2 n.log2 := by
          rw [← pow2_add, ← pow2_add, hsum]
      _ ≤ n := hlog
  · next hneg =>
    have hsum : p + k = n.log2 + (-e).toNat := by omega
    refine (Nat.le_div_iff_mul_le (pow2_pos k)).2 ?_
    calc pow2 p * pow2 k = pow2 n.log2 * pow2 (-e).toNat := by
          rw [← pow2_add, ← pow2_add, hsum]
      _ ≤ n * pow2 (-e).toNat := Nat.mul_le_mul_right _ hlog

/-- The mantissa has all its bits, and the last one does not stand below its place in one. -/
theorem full_of_roundMagnitude (hmin : f.minExponent ≤ -((f.precision - 1 : Nat) : Int))
    (h : pow2 k ≤ n) (hr : f.roundMagnitude? n (pow2 k) = some (m, e)) :
    pow2 (f.precision - 1) ≤ m ∧ -((f.precision - 1 : Nat) : Int) ≤ e := by
  have hn : n ≠ 0 := Nat.ne_of_gt (Nat.lt_of_lt_of_le (pow2_pos k) h)
  have hk : k ≤ n.log2 := (Nat.le_log2 hn).2 h
  have hlogk : (pow2 k).log2 = k := Nat.log2_two_pow
  have hfull := le_div_inUnits h (f.precision - 1) rfl
  have hexponent : f.exponentOf n (pow2 k) = (n.log2 : Int) - k - (f.precision - 1 : Nat) := by
    simp only [exponentOf, hlogk, if_neg (Nat.not_lt.2 hfull)]
    omega
  simp only [roundMagnitude?, if_neg hn, hexponent] at hr
  have hnear := Nat.le_trans hfull (div_le_nearestEven _ _)
  -- A mantissa that is rounded up to one bit more loses the last one.
  split_ifs at hr with hcarry hlarge hlarge
  · cases hr
    exact ⟨Nat.le_refl _, by omega⟩
  · cases hr
    exact ⟨hnear, by omega⟩

/-! ### Numbers of the format -/

/-- The estimate of the exponent by bit lengths is not too small for such a fraction. -/
theorem div_inUnits_lt (p : Nat) (he : e = (n.log2 : Int) - k - p) :
    (inUnits n (pow2 k) e).1 / (inUnits n (pow2 k) e).2 < pow2 (p + 1) := by
  have hlog : n < pow2 (n.log2 + 1) := Nat.lt_log2_self
  simp only [inUnits]
  split
  · next hnonneg =>
    have hpos : 0 < pow2 k * pow2 e.toNat := Nat.mul_pos (pow2_pos k) (pow2_pos _)
    have hsum : n.log2 + 1 = p + 1 + (k + e.toNat) := by omega
    refine (Nat.div_lt_iff_lt_mul hpos).2 ?_
    rwa [← pow2_add, ← pow2_add, ← hsum]
  · next hneg =>
    have hsum : n.log2 + 1 + (-e).toNat = p + 1 + k := by omega
    refine (Nat.div_lt_iff_lt_mul (pow2_pos k)).2 ?_
    calc n * pow2 (-e).toNat < pow2 (n.log2 + 1) * pow2 (-e).toNat :=
          Nat.mul_lt_mul_of_pos_right hlog (pow2_pos _)
      _ = pow2 (p + 1) * pow2 k := by rw [← pow2_add, ← pow2_add, hsum]

/-- The bit length of a fraction that is a number `m * 2 ^ e`. -/
theorem log2_of_eq {p i j : Nat} (hfull : pow2 p ≤ m) (hlt : m < pow2 (p + 1))
    (heq : n * pow2 i = m * pow2 j) : n.log2 + i = p + j := by
  have hn : n ≠ 0 := by
    rintro rfl
    rw [Nat.zero_mul] at heq
    have hpos : 0 < m := Nat.lt_of_lt_of_le (pow2_pos p) hfull
    exact absurd heq (Nat.ne_of_lt (Nat.mul_pos hpos (pow2_pos j)))
  have hlow : pow2 n.log2 ≤ n := Nat.log2_self_le hn
  have hhigh : n < pow2 (n.log2 + 1) := Nat.lt_log2_self
  have hupper : pow2 (n.log2 + i) < pow2 (p + 1 + j) := by
    calc pow2 (n.log2 + i) = pow2 n.log2 * pow2 i := pow2_add _ _
      _ ≤ n * pow2 i := Nat.mul_le_mul_right _ hlow
      _ = m * pow2 j := heq
      _ < pow2 (p + 1) * pow2 j := Nat.mul_lt_mul_of_pos_right hlt (pow2_pos j)
      _ = pow2 (p + 1 + j) := (pow2_add _ _).symm
  have hlower : pow2 (p + j) < pow2 (n.log2 + 1 + i) := by
    calc pow2 (p + j) = pow2 p * pow2 j := pow2_add _ _
      _ ≤ m * pow2 j := Nat.mul_le_mul_right _ hfull
      _ = n * pow2 i := heq.symm
      _ < pow2 (n.log2 + 1) * pow2 i := Nat.mul_lt_mul_of_pos_right hhigh (pow2_pos i)
      _ = pow2 (n.log2 + 1 + i) := (pow2_add _ _).symm
  have := lt_of_pow2_lt hupper
  have := lt_of_pow2_lt hlower
  omega

/-- In units of its own last bit such a fraction is a whole number. -/
theorem inUnits_of_eq (heq : n * pow2 (-e).toNat = m * pow2 (k + e.toNat)) :
    ∃ b, 0 < b ∧ inUnits n (pow2 k) e = (m * b, b) := by
  simp only [inUnits]
  split
  · next hnonneg =>
    have hzero : (-e).toNat = 0 := by omega
    rw [hzero, show pow2 0 = 1 from rfl, Nat.mul_one] at heq
    exact ⟨pow2 (k + e.toNat), pow2_pos _, by rw [← pow2_add, heq]⟩
  · next hneg =>
    have hzero : e.toNat = 0 := by omega
    rw [hzero, Nat.add_zero] at heq
    exact ⟨pow2 k, pow2_pos k, by rw [heq]⟩

/-- A number of the format is rounded to itself. -/
theorem roundMagnitude_of_eq {p : Nat} (hp : f.precision = p + 1) (hfull : pow2 p ≤ m)
    (hlt : m < pow2 (p + 1)) (hmin : f.minExponent ≤ e) (hmax : e ≤ f.maxExponent)
    (heq : n * pow2 (-e).toNat = m * pow2 (k + e.toNat)) :
    f.roundMagnitude? n (pow2 k) = some (m, e) := by
  have hlog := log2_of_eq hfull hlt heq
  have hpos : 0 < m := Nat.lt_of_lt_of_le (pow2_pos p) hfull
  have hn : n ≠ 0 := by
    rintro rfl
    rw [Nat.zero_mul] at heq
    exact absurd heq (Nat.ne_of_lt (Nat.mul_pos hpos (pow2_pos _)))
  obtain ⟨b, hb, hunits⟩ := inUnits_of_eq heq
  have hlogk : (pow2 k).log2 = k := Nat.log2_two_pow
  have hestimate : (n.log2 : Int) - k - p = e := by omega
  have hexponent : f.exponentOf n (pow2 k) = e := by
    simp only [exponentOf, hp, Nat.add_sub_cancel, hlogk, hestimate, hunits,
      Nat.mul_div_cancel m hb, if_neg (Nat.not_lt.2 hfull)]
    omega
  simp only [roundMagnitude?, if_neg hn, hexponent, hunits, nearestEven_mul m hb, hp,
    if_neg (Nat.ne_of_lt hlt), if_neg (Int.not_lt.2 hmax)]

/-- What a fraction of at least one is rounded to is a number of the format. -/
theorem lt_of_roundMagnitude {p : Nat} (hp : f.precision = p + 1)
    (hmin : f.minExponent ≤ -(p : Int)) (h : pow2 k ≤ n)
    (hr : f.roundMagnitude? n (pow2 k) = some (m, e)) : m < pow2 (p + 1) ∧ e ≤ f.maxExponent := by
  have hn : n ≠ 0 := Nat.ne_of_gt (Nat.lt_of_lt_of_le (pow2_pos k) h)
  have hk : k ≤ n.log2 := (Nat.le_log2 hn).2 h
  have hlogk : (pow2 k).log2 = k := Nat.log2_two_pow
  have hexponent : f.exponentOf n (pow2 k) = (n.log2 : Int) - k - p := by
    simp only [exponentOf, hp, Nat.add_sub_cancel, hlogk,
      if_neg (Nat.not_lt.2 (le_div_inUnits h p rfl))]
    omega
  simp only [roundMagnitude?, if_neg hn, hexponent, hp, Nat.add_sub_cancel] at hr
  have hnear := nearestEven_le (inUnits n (pow2 k) ((n.log2 : Int) - k - p)).1
    (inUnits n (pow2 k) ((n.log2 : Int) - k - p)).2
  have hbelow := div_inUnits_lt (n := n) (k := k) p rfl
  have hcarried : pow2 p < pow2 (p + 1) := Nat.pow_lt_pow_right (by decide) (Nat.lt_succ_self p)
  split_ifs at hr with hcarry hlarge hlarge
  · cases hr
    exact ⟨hcarried, by omega⟩
  · cases hr
    exact ⟨by omega, by omega⟩

end BinaryFormat

namespace Binary32

open BinaryFormat

/-- A number of at least one. -/
def AtLeastOne : Binary32 → Prop
  | .finite negative m e => negative = false ∧ pow2 (-e).toNat ≤ m
  | .infinite negative => negative = false
  | .undefined => False

theorem atLeastOne_round {n k : Nat} (h : pow2 k ≤ n) :
    AtLeastOne (single.round false n (pow2 k)) := by
  simp only [BinaryFormat.round]
  cases hr : single.roundMagnitude? n (pow2 k) with
  | none => rfl
  | some r =>
    obtain ⟨m, e⟩ := r
    obtain ⟨hfull, hplace⟩ := full_of_roundMagnitude (by decide) h hr
    have hle : (-e).toNat ≤ single.precision - 1 := by omega
    exact ⟨rfl, Nat.le_trans (pow2_le_pow2 hle) hfull⟩

theorem atLeastOne_roundScaled {m : Nat} {e : Int} (h : pow2 (-e).toNat ≤ m) :
    AtLeastOne (single.roundScaled false m e) := by
  simp only [roundScaled]
  split
  · refine atLeastOne_round (k := 0) ?_
    exact Nat.mul_pos (Nat.lt_of_lt_of_le (pow2_pos _) h) (pow2_pos _)
  · exact atLeastOne_round h

theorem atLeastOne_ofInt {n : Int} (h : 0 < n) : AtLeastOne (ofInt n) := by
  have hsign : decide (n < 0) = false := decide_eq_false (by omega)
  have hpos : pow2 0 ≤ n.natAbs := Int.natAbs_pos.2 (Int.ne_of_gt h)
  rw [ofInt, ofRatio, hsign]
  exact atLeastOne_round (k := 0) hpos

theorem atLeastOne_one : AtLeastOne one := atLeastOne_ofInt (by decide)

theorem AtLeastOne.isZero {x : Binary32} (h : x.AtLeastOne) : x.isZero = false := by
  cases x with
  | finite negative m e =>
    have hpos : 0 < m := Nat.lt_of_lt_of_le (pow2_pos _) h.2
    exact beq_eq_false_iff_ne.2 (Nat.ne_of_gt hpos)
  | infinite negative => rfl
  | undefined => rfl

theorem AtLeastOne.isNegative {x : Binary32} (h : x.AtLeastOne) : x.isNegative = false := by
  cases x with
  | finite negative m e => exact h.1
  | infinite negative => exact h
  | undefined => rfl

/-- A product is rounded once, which keeps it at or above one. -/
theorem AtLeastOne.mul {x y : Binary32} (hx : x.AtLeastOne) (hy : y.AtLeastOne) :
    (x.mul y).AtLeastOne := by
  have hzero : (x.isZero || y.isZero) = false := by rw [hx.isZero, hy.isZero, Bool.or_self]
  have hsign : (x.isNegative != y.isNegative) = false := by
    rw [hx.isNegative, hy.isNegative, bne_self_eq_false]
  cases x with
  | finite a m e =>
    cases y with
    | finite b n f =>
      obtain ⟨rfl, hm⟩ := hx
      obtain ⟨rfl, hn⟩ := hy
      have hplaces : (-(e + f)).toNat ≤ (-e).toNat + (-f).toNat := by omega
      refine atLeastOne_roundScaled ?_
      calc pow2 (-(e + f)).toNat ≤ pow2 ((-e).toNat + (-f).toNat) := pow2_le_pow2 hplaces
        _ = pow2 (-e).toNat * pow2 (-f).toNat := pow2_add _ _
        _ ≤ m * n := Nat.mul_le_mul hm hn
    | infinite b =>
      simp only [Binary32.mul, hzero, hsign]
      rfl
    | undefined => cases hy
  | infinite a =>
    cases y with
    | finite b n f =>
      simp only [Binary32.mul, hzero, hsign]
      rfl
    | infinite b =>
      simp only [Binary32.mul, hzero, hsign]
      rfl
    | undefined => cases hy
  | undefined => cases hx

/-- The integer nearest to a number of at least one is positive. -/
theorem AtLeastOne.round_pos {x : Binary32} (h : x.AtLeastOne) : 0 < x.round := by
  cases x with
  | finite negative m e =>
    obtain ⟨rfl, hm⟩ := h
    have hnear : 0 < nearestAway m e := by
      simp only [nearestAway]
      split
      · exact Nat.mul_pos (Nat.lt_of_lt_of_le (pow2_pos _) hm) (pow2_pos _)
      · have hpos := pow2_pos (-e).toNat
        refine Nat.div_pos ?_ ?_ <;> omega
    simp only [Binary32.round, saturate, signed, Bool.false_eq_true, if_false]
    omega
  | infinite negative =>
    obtain rfl : negative = false := h
    decide
  | undefined => cases h

/-! ### Signs -/

theorem isNegative_single_round (negative : Bool) (n d : Nat) :
    isNegative (single.round negative n d) = negative := by
  simp only [BinaryFormat.round]
  cases single.roundMagnitude? n d <;> rfl

theorem isNegative_roundScaled (negative : Bool) (m : Nat) (e : Int) :
    isNegative (single.roundScaled negative m e) = negative := by
  simp only [roundScaled]
  split <;> exact isNegative_single_round _ _ _

theorem isNegative_ofRatio {n : Int} (h : 0 ≤ n) (d : Nat) : (ofRatio n d).isNegative = false := by
  rw [ofRatio, isNegative_single_round, decide_eq_false (Int.not_lt.2 h)]

theorem isNegative_mul {x y : Binary32} (hx : x.isNegative = false) (hy : y.isNegative = false) :
    (x.mul y).isNegative = false := by
  have hsign : (x.isNegative != y.isNegative) = false := by rw [hx, hy, bne_self_eq_false]
  cases x with
  | finite a m e =>
    cases y with
    | finite b n f =>
      simp only [Binary32.mul, isNegative_roundScaled]
      exact hsign
    | infinite b =>
      simp only [Binary32.mul, hsign]
      split <;> rfl
    | undefined => rfl
  | infinite a =>
    cases y with
    | undefined => rfl
    | _ =>
      simp only [Binary32.mul, hsign]
      split <;> rfl
  | undefined => cases y <;> rfl

theorem round_nonneg {x : Binary32} (h : x.isNegative = false) : 0 ≤ x.round := by
  cases x with
  | finite negative m e =>
    obtain rfl : negative = false := h
    simp only [Binary32.round, saturate, signed, Bool.false_eq_true, if_false]
    omega
  | infinite negative =>
    obtain rfl : negative = false := h
    decide
  | undefined => exact Int.le_refl 0

/-! ### Exact integers -/

/-- An integer that is a number of single precision. -/
def Exact (n : Int) : Prop := (ofInt n).round = n

instance (n : Int) : Decidable (Exact n) := inferInstanceAs (Decidable (_ = _))

theorem one_eq : one = .finite false (pow2 23) (-23) := by decide +kernel

/-- A number of the format times one is itself. -/
theorem one_mul_finite {negative : Bool} {m : Nat} {e : Int} (hfull : pow2 23 ≤ m)
    (hlt : m < pow2 24) (hmin : -149 ≤ e) (hmax : e ≤ 104) :
    one.mul (.finite negative m e) = .finite negative m e := by
  have hround : ∀ {n k : Nat}, n * pow2 (-e).toNat = m * pow2 (k + e.toNat) →
      single.round negative n (pow2 k) = .finite negative m e := by
    intro n k heq
    rw [BinaryFormat.round, roundMagnitude_of_eq (p := 23) rfl hfull hlt hmin hmax heq]
  simp only [one_eq, mul, Bool.false_bne, roundScaled]
  split
  · refine hround (k := 0) ?_
    have hplaces : 23 + (-23 + e).toNat + (-e).toNat = 0 + e.toNat := by omega
    rw [← hplaces, Nat.mul_assoc, ← pow2_add, Nat.mul_comm (pow2 23), Nat.mul_assoc, ← pow2_add]
    congr 2
    omega
  · refine hround ?_
    rw [Nat.mul_comm (pow2 23), Nat.mul_assoc, ← pow2_add]
    congr 2
    omega

theorem one_mul_ofInt (n : Int) : one.mul (ofInt n) = ofInt n := by
  by_cases hn : n = 0
  · subst hn
    decide +kernel
  · have hpos : pow2 0 ≤ n.natAbs := Int.natAbs_pos.2 hn
    simp only [ofInt, ofRatio, BinaryFormat.round]
    cases hr : single.roundMagnitude? n.natAbs 1 with
    | none =>
      simp only [one_eq, mul]
      cases decide (n < 0) <;> rfl
    | some r =>
      obtain ⟨m, e⟩ := r
      obtain ⟨hfull, hplace⟩ := full_of_roundMagnitude (k := 0) (by decide) hpos hr
      obtain ⟨hlt, hmax⟩ := lt_of_roundMagnitude (k := 0) (p := 23) rfl (by decide) hpos hr
      exact one_mul_finite hfull hlt (Int.le_trans (by decide) hplace) hmax

/-- The exact product by one. -/
theorem Exact.round_one_mul {n : Int} (h : Exact n) : (one.mul (ofInt n)).round = n := by
  rw [one_mul_ofInt, h]

theorem nearestAway_mul_pow2 (n j : Nat) : nearestAway (n * pow2 j) (-(j : Int)) = n := by
  have hplaces : (-(-(j : Int))).toNat = j := by omega
  have hpos := pow2_pos j
  simp only [nearestAway]
  split
  · have hzero : j = 0 := by omega
    subst hzero
    exact (Nat.mul_one _).trans (Nat.mul_one _)
  · have hhalf : pow2 j / (2 * pow2 j) = 0 := Nat.div_eq_of_lt (by omega)
    rw [hplaces, Nat.mul_left_comm, Nat.mul_comm, Nat.mul_add_div (by omega), hhalf, Nat.add_zero]

/-- Every integer of at most 24 bits is exact. -/
theorem exact_of_natAbs_lt {n : Int} (h : n.natAbs < pow2 24) : Exact n := by
  by_cases hn : n = 0
  · subst hn
    decide +kernel
  · have hne : n.natAbs ≠ 0 := Int.natAbs_ne_zero.2 hn
    have hlog : n.natAbs.log2 < 24 := (Nat.log2_lt hne).2 h
    generalize hj : 23 - n.natAbs.log2 = j
    have hsum : n.natAbs.log2 + j = 23 := by omega
    have hfull : pow2 23 ≤ n.natAbs * pow2 j := by
      rw [← hsum, pow2_add]
      exact Nat.mul_le_mul_right _ (Nat.log2_self_le hne)
    have hlt : n.natAbs * pow2 j < pow2 24 := by
      have hhigh : n.natAbs < pow2 (n.natAbs.log2 + 1) := Nat.lt_log2_self
      rw [show 24 = n.natAbs.log2 + 1 + j by omega, pow2_add]
      exact Nat.mul_lt_mul_of_pos_right hhigh (pow2_pos j)
    have hround : single.roundMagnitude? n.natAbs 1 = some (n.natAbs * pow2 j, -(j : Int)) := by
      refine roundMagnitude_of_eq (k := 0) (p := 23) rfl hfull hlt ?_ ?_ ?_
      · change (-149 : Int) ≤ _
        omega
      · change _ ≤ (104 : Int)
        omega
      · have hj' : (-(-(j : Int))).toNat = j := by omega
        have hzero : (-(j : Int)).toNat = 0 := by omega
        rw [hj', hzero]
        exact (Nat.mul_one _).symm
    have hnear := nearestAway_mul_pow2 n.natAbs j
    have hbound : n.natAbs < 16777216 := h
    rw [Exact, ofInt, ofRatio, BinaryFormat.round, hround]
    simp only [Binary32.round, hnear, saturate, signed]
    by_cases hneg : n < 0
    · rw [decide_eq_true hneg, if_pos rfl]
      omega
    · rw [decide_eq_false hneg, if_neg Bool.false_ne_true]
      omega

end Binary32

end RichText
