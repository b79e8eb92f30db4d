/-
  RichText/Binary32.lean
  ======================
  **Single-precision arithmetic in exact integers.**

  Relative lengths are computed in binary32: each operation is carried out
  exactly and its result is rounded once, to the nearest number of 24
  significant bits, a tie going to the even one.  A finite number is held as a
  sign and a magnitude `mantissa * 2 ^ exponent` over the integers, so that an
  operation is an equation between integers.

  Zero has a sign like every other number, which it keeps from what is rounded
  to it.  No length depends on that sign; the encoding of a number shows it.
-/

namespace RichText

/-! ### Rounding a ratio to a number of significant bits -/

/-- Powers of two. -/
def pow2 (n : Nat) : Nat := Nat.pow 2 n

/-- The integer nearest to `n / d`, the even one of two. -/
def nearestEven (n d : Nat) : Nat :=
  let q := n / d
  let r := n % d
  if 2 * r < d then q else if d < 2 * r then q + 1 else q + q % 2

/-- A grid of binary numbers: how many bits are significant, and between which
    exponents the last of them lies. -/
structure BinaryFormat where
  precision : Nat
  minExponent : Int
  maxExponent : Int
deriving DecidableEq, Repr

namespace BinaryFormat

def single : BinaryFormat := ⟨24, -149, 104⟩

def double : BinaryFormat := ⟨53, -1074, 971⟩

/-- The fraction `n / d` in units of `2 ^ e`, as numerator and denominator. -/
def inUnits (n d : Nat) (e : Int) : Nat × Nat :=
  if 0 ≤ e then (n, d * pow2 e.toNat) else (n * pow2 (-e).toNat, d)

/-- The exponent of the last significant bit of `n / d`. The estimate by bit
    lengths is right or one too large. -/
def exponentOf (f : BinaryFormat) (n d : Nat) : Int :=
  let e : Int := (n.log2 : Int) - d.log2 - (f.precision - 1 : Nat)
  let (a, b) := inUnits n d e
  max (if a / b < pow2 (f.precision - 1) then e - 1 else e) f.minExponent

end BinaryFormat

/-- A number of a binary format, or the outcome of an operation that leaves it. -/
inductive Binary where
  /-- The magnitude `mantissa * 2 ^ exponent` with a sign. -/
  | finite (negative : Bool) (mantissa : Nat) (exponent : Int)
  | infinite (negative : Bool)
  | undefined
deriving DecidableEq, Repr

/-- A magnitude with a sign as an integer. -/
def signed (negative : Bool) (m : Nat) : Int := if negative then -m else m

theorem natAbs_signed (negative : Bool) (m : Nat) : (signed negative m).natAbs = m := by
  cases negative <;> simp [signed]

namespace BinaryFormat

/-- Rounds a magnitude `n / d`, as mantissa and exponent; none past the largest
    number of the format. -/
def roundMagnitude? (f : BinaryFormat) (n d : Nat) : Option (Nat × Int) :=
  if n = 0 then some (0, 0)
  else
    let e := f.exponentOf n d
    let (a, b) := inUnits n d e
    let m := nearestEven a b
    let (m, e) := if m = pow2 f.precision then (pow2 (f.precision - 1), e + 1) else (m, e)
    if f.maxExponent < e then none else some (m, e)

/-- Rounds `n / d` with a sign, which the result keeps. -/
def round (f : BinaryFormat) (negative : Bool) (n d : Nat) : Binary :=
  match f.roundMagnitude? n d with
  | some (m, e) => .finite negative m e
  | none => .infinite negative

/-- Rounds `m * 2 ^ e` with a sign. -/
def roundScaled (f : BinaryFormat) (negative : Bool) (m : Nat) (e : Int) : Binary :=
  if 0 ≤ e then f.round negative (m * pow2 e.toNat) 1 else f.round negative m (pow2 (-e).toNat)

end BinaryFormat

/-! ### Single precision -/

/-- A number of the single-precision format. -/
abbrev Binary32 := Binary

namespace Binary32

open BinaryFormat

/-- The number nearest to `n / d`. -/
def ofRatio (n : Int) (d : Nat) : Binary32 := single.round (n < 0) n.natAbs d

def ofInt (n : Int) : Binary32 := ofRatio n 1

/-- The number nearest to the decimal `m / 10 ^ k` with a sign, which is read in
    double precision first. -/
def ofDecimal (negative : Bool) (m k : Nat) : Binary32 :=
  match double.round negative m (Nat.pow 10 k) with
  | .finite negative m e => single.roundScaled negative m e
  | other => other

def one : Binary32 := ofInt 1

def isNegative : Binary32 → Bool
  | .finite negative _ _ => negative
  | .infinite negative => negative
  | .undefined => false

def isZero : Binary32 → Bool
  | .finite _ m _ => m == 0
  | _ => false

/-- A product is negative if one of its factors is. -/
def mul : Binary32 → Binary32 → Binary32
  | .finite a m e, .finite b n f => single.roundScaled (a != b) (m * n) (e + f)
  | .undefined, _ => .undefined
  | _, .undefined => .undefined
  | x, y =>
    if x.isZero || y.isZero then .undefined else .infinite (x.isNegative != y.isNegative)

/-- A sum of zero is negative only if both of its terms are. -/
def add : Binary32 → Binary32 → Binary32
  | .finite a m e, .finite b n f =>
    let g := min e f
    let sum := signed a (m * pow2 (e - g).toNat) + signed b (n * pow2 (f - g).toNat)
    single.roundScaled (if sum = 0 then a && b else sum < 0) sum.natAbs g
  | .undefined, _ => .undefined
  | _, .undefined => .undefined
  | .infinite a, .infinite b => if a = b then .infinite a else .undefined
  | .infinite a, .finite _ _ _ => .infinite a
  | .finite _ _ _, .infinite b => .infinite b

/-- Brings an integer into the range of 32-bit words. -/
def saturate (n : Int) : Int := max (-0x80000000) (min n 0x7FFFFFFF)

/-- The integer nearest to `m * 2 ^ e`, the greater one of two. -/
def nearestAway (m : Nat) (e : Int) : Nat :=
  if 0 ≤ e then m * pow2 e.toNat
  else
    let d := pow2 (-e).toNat
    (2 * m + d) / (2 * d)

/-- The nearest integer, halves going away from zero, within the range of 32-bit
    words; what is no number counts as zero. -/
def round : Binary32 → Int
  | .finite negative m e => saturate (signed negative (nearestAway m e))
  | .infinite negative => if negative then -0x80000000 else 0x7FFFFFFF
  | .undefined => 0

/-- The bit of the sign. -/
def signBit (negative : Bool) : Nat := if negative then 0x80000000 else 0

/-- The interchange encoding as a 32-bit word: sign, biased exponent, fraction. -/
def bits : Binary32 → Nat
  | .finite negative m e =>
    -- Below `0x800000` units of the smallest exponent the biased exponent is zero.
    signBit negative +
      (if m < 0x800000 then m else (e + 150).toNat * 0x800000 + (m - 0x800000))
  | .infinite negative => signBit negative + 0x7F800000
  | .undefined => 0x7FC00000

/-- The two zeros differ in their sign alone. -/
theorem bits_zero (negative : Bool) (e : Int) :
    bits (.finite negative 0 e) = signBit negative := by
  simp [bits]

/-- Reading a decimal of zero keeps its sign. -/
theorem ofDecimal_zero (negative : Bool) (k : Nat) :
    ofDecimal negative 0 k = .finite negative 0 0 := by
  simp [ofDecimal, BinaryFormat.round, roundScaled, roundMagnitude?]

end Binary32

end RichText
