/-
FlatLisp.Decimal.Basic — decimal numbers.

A decimal is `± coefficient · 10 ^ exponent`. It is the common form of what a
numeral in the source says and of the digits that are chosen to print a
double; `Decimal.toFloat` gives both the same value.
-/
import FlatLisp.Binary64.Basic

namespace FlatLisp

/-- The number `± coefficient · 10 ^ exponent`. -/
structure Decimal where
  negative : Bool
  coefficient : Nat
  exponent : Int
deriving DecidableEq, Repr

namespace Decimal

/-- A power of ten. -/
def tenPow (n : Nat) : Nat := Nat.pow 10 n

/-- Decimal exponents past this are beyond the doubles: `10 ^ 400` is above
the greatest and `10 ^ (-400)` below the least positive one. -/
def exponentBound : Int := 400

/-- The pattern of the double nearest to the decimal, without its sign. Far
out of range the answer does not need the power of ten: a coefficient is at
least one and at most `10 ^ (log2 + 1)`. -/
def magnitudeBits (d : Decimal) : Nat :=
  if d.coefficient = 0 then 0
  else if exponentBound < d.exponent then Binary64.infinityBits
  else if d.exponent + d.coefficient.log2 + 1 < -exponentBound then 0
  else
    Binary64.nearestBits (d.coefficient * tenPow d.exponent.toNat) (tenPow (-d.exponent).toNat)

/-- The double nearest to the decimal. -/
def toFloat (d : Decimal) : Float :=
  Binary64.ofSignAndBits d.negative d.magnitudeBits

end Decimal

end FlatLisp
