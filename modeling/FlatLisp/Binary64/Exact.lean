/-
FlatLisp.Binary64.Exact — operations on doubles with one correct answer.

Remainders, scaling by a power of two and the length of a hypotenuse are
computed exactly on significands and rounded once, so each
result is the double nearest to the mathematical one.
-/
import FlatLisp.Binary64.Basic

namespace FlatLisp.Binary64

/-! ## Remainders -/

/-- The cases that no remainder is computed for: not a number where the
dividend is infinite or the divisor is zero, the dividend itself where the
divisor is infinite. -/
def remainderSpecial? (x y : Float) : Option Float :=
  if x.isNaN || y.isNaN || x.isInf || y == 0.0 then some nan
  else if y.isInf then some x
  else none

/-- What remains of `x` after `n · y`, for the quotient `x / y` truncated to
the integer `n`; a zero has the sign of `x`. -/
def truncatedRemainder (x y : Float) : Float :=
  match remainderSpecial? x y with
  | some answer => answer
  | none =>
    let (a, b, e) := (Magnitude.ofFloat x).aligned (.ofFloat y)
    nearestScaled (isNegative x) (a % b) e

/-- What remains of `x` after `n · y`, for the integer `n` nearest to `x / y`,
the even one of two; a zero has the sign of `x`. -/
def nearestRemainder (x y : Float) : Float :=
  match remainderSpecial? x y with
  | some answer => answer
  | none =>
    let (a, b, e) := (Magnitude.ofFloat x).aligned (.ofFloat y)
    let multiple := roundHalfEven a b * b
    if multiple ≤ a then nearestScaled (isNegative x) (a - multiple) e
    else nearestScaled (!isNegative x) (multiple - a) e

/-! ## Powers of two -/

/-- Exponents past this take every finite double to a zero or an infinity. -/
def scalingBound : Int := 5000

/-- The double nearest to `x · 2 ^ n`. -/
def scale (x : Float) (n : Int) : Float :=
  if x.isFinite then
    let m := Magnitude.ofFloat x
    nearestScaled (isNegative x) m.significand
      (m.exponent + max (-scalingBound) (min n scalingBound))
  else x

/-- The `(m, e)` with `x = m · 2 ^ e` and `1/2 ≤ |m| < 1`; a zero and what is
not finite stand for themselves, with exponent zero. -/
def mantissaExponent (x : Float) : Float × Int :=
  if x.isFinite && x != 0.0 then
    let m := Magnitude.ofFloat x
    let size : Int := m.significand.log2 + 1
    (nearestScaled (isNegative x) m.significand (-size), m.exponent + size)
  else (x, 0)

/-- The power `x ^ n` by repeated squaring, where every product is rounded. -/
def powerBySquaring (x : Float) (n : Nat) : Float :=
  go 1.0 x n
where
  /-- The product `r · a ^ n`, in rounded steps. -/
  go (r a : Float) (n : Nat) : Float :=
    let r := if n % 2 = 1 then r * a else r
    if h : n / 2 = 0 then r else go r (a * a) (n / 2)
  termination_by n
  decreasing_by omega

/-! ## Square roots -/

/-- The greatest natural number whose square is at most `n`. -/
def floorSqrt (n : Nat) : Nat :=
  if h : n = 0 then 0
  else
    let r := 2 * floorSqrt (n / 4)
    if (r + 1) * (r + 1) ≤ n then r + 1 else r
termination_by n
decreasing_by omega

/-- Binary digits that are kept of a square root: enough that no rounding
boundary lies strictly between two neighbours. -/
def sqrtBits : Nat := 64

/-- The double nearest to `√(n) · 2 ^ e`. -/
def nearestSqrt (n : Nat) (e : Int) : Float :=
  let shifted := n <<< (2 * sqrtBits)
  let root := floorSqrt shifted
  let inexact := if root * root = shifted then 0 else 1
  nearestScaled false (2 * root + inexact) (e - sqrtBits - 1)

/-- The double nearest to `√(x² + y²)`; an infinite side makes it infinite
whatever the other is. -/
def hypotenuse (x y : Float) : Float :=
  if x.isInf || y.isInf then infinity
  else if x.isNaN || y.isNaN then nan
  else
    let (a, b, e) := (Magnitude.ofFloat x).aligned (.ofFloat y)
    nearestSqrt (a * a + b * b) e

end FlatLisp.Binary64
