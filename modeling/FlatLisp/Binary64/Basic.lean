/-
FlatLisp.Binary64.Basic — doubles as signed multiples of powers of two.

A double is a sign bit and the pattern of its magnitude, a natural number.
Patterns below `infinityBits` are the finite magnitudes in increasing order:
the pattern of `q · 2 ^ e` is `q + (e + 1074) · 2 ^ 52`, for subnormal and
normal numbers alike, and a significand that rounds up to `2 ^ 53` carries
into the exponent by itself. Taking a magnitude apart and rounding a quotient
of naturals to the nearest one are done on patterns, in exact integer
arithmetic.
-/
namespace FlatLisp.Binary64

/-! ## Bit patterns -/

/-- The place of the bit that a normal significand has and its fraction has
not, `2 ^ 52`; also the place of the exponent field. -/
def hiddenBit : Nat := 0x10000000000000

/-- The number of exponent fields, `2 ^ 11`. -/
def fieldCount : Nat := 0x800

/-- The place of the sign bit, `2 ^ 63`. -/
def signBit : Nat := 0x8000000000000000

/-- The pattern of infinity. Patterns above it are not numbers. -/
def infinityBits : Nat := 0x7FF0000000000000

/-- Whether the sign bit is set. -/
def isNegative (x : Float) : Bool :=
  signBit ≤ x.toBits.toNat

/-- The pattern of the magnitude. -/
def magnitudeBits (x : Float) : Nat :=
  x.toBits.toNat % signBit

/-- The double with the given sign bit and pattern. -/
def ofSignAndBits (negative : Bool) (bits : Nat) : Float :=
  Float.ofBits (UInt64.ofNat (if negative then bits + signBit else bits))

/-- Positive infinity. -/
def infinity : Float := ofSignAndBits false infinityBits

/-- The double that is not a number. -/
def nan : Float := 0.0 / 0.0

/-- The magnitude of `x` with the sign of `y`. There is one double that is not a
number and it has no sign of its own, so it counts as positive for `y`:
`(copysign 1 -nan)` is `1.0`, where doubles that keep a sign bit on what is not
a number would give `-1.0`. -/
def copySign (x y : Float) : Float :=
  let magnitude := x.abs
  if isNegative y then -magnitude else magnitude

/-! ## Magnitudes taken apart -/

/-- The magnitude `significand · 2 ^ exponent`. -/
structure Magnitude where
  significand : Nat
  exponent : Int
deriving DecidableEq, Repr

/-- The exponent of the subnormal numbers, the least there is. -/
def minExponent : Int := -1074

namespace Magnitude

/-- The magnitude of a finite pattern. -/
def ofBits (bits : Nat) : Magnitude :=
  let field := bits / hiddenBit % fieldCount
  let fraction := bits % hiddenBit
  if field = 0 then ⟨fraction, minExponent⟩
  else ⟨fraction + hiddenBit, minExponent + ((field - 1 : Nat) : Int)⟩

/-- The magnitude of a finite double. -/
def ofFloat (x : Float) : Magnitude :=
  ofBits (magnitudeBits x)

/-- The numerator of a magnitude as a quotient of natural numbers. -/
def numerator (m : Magnitude) : Nat :=
  m.significand <<< m.exponent.toNat

/-- The denominator of a magnitude as a quotient of natural numbers. -/
def denominator (m : Magnitude) : Nat :=
  1 <<< (-m.exponent).toNat

/-- Two magnitudes as multiples of one power of two, with its exponent. -/
def aligned (a b : Magnitude) : Nat × Nat × Int :=
  let e := min a.exponent b.exponent
  (a.significand <<< (a.exponent - e).toNat, b.significand <<< (b.exponent - e).toNat, e)

end Magnitude

/-! ## Rounding a quotient -/

/-- The natural number nearest to `num / den`; a half goes to the even
neighbour. -/
def roundHalfEven (num den : Nat) : Nat :=
  let quotient := num / den
  let remainder := num % den
  if 2 * remainder < den then quotient
  else if den < 2 * remainder then quotient + 1
  else if quotient % 2 = 0 then quotient
  else quotient + 1

/-- The `k` with `2 ^ k ≤ num / den < 2 ^ (k + 1)`, for a positive quotient. -/
def quotientLog2 (num den : Nat) : Int :=
  let k : Int := (num.log2 : Int) - den.log2
  if den <<< k.toNat ≤ num <<< (-k).toNat then k else k - 1

/-- The pattern of the magnitude nearest to `num / den`; ties go to the even
significand, and what is too large becomes infinity. -/
def nearestBits (num den : Nat) : Nat :=
  if num = 0 then 0
  else
    let e := max (quotientLog2 num den - 52) minExponent
    let significand := roundHalfEven (num <<< (-e).toNat) (den <<< e.toNat)
    min (significand + (e - minExponent).toNat * hiddenBit) infinityBits

/-- The double nearest to `± num / den`. -/
def nearest (negative : Bool) (num den : Nat) : Float :=
  ofSignAndBits negative (nearestBits num den)

/-- The double nearest to `± n · 2 ^ e`. -/
def nearestScaled (negative : Bool) (n : Nat) (e : Int) : Float :=
  nearest negative (n <<< e.toNat) (1 <<< (-e).toNat)

/-- The double nearest to an integer. -/
def ofInt (n : Int) : Float :=
  nearest (n < 0) n.natAbs 1

end FlatLisp.Binary64
