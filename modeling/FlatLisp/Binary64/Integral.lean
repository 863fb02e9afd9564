/-
FlatLisp.Binary64.Integral — doubles rounded to integers.

A finite magnitude is an exact quotient of natural numbers, so each way of
rounding it to an integer is a division of integers; no double arithmetic
takes part and no result is out of range.
-/
import FlatLisp.Binary64.Basic

namespace FlatLisp.Binary64

/-- Which integer stands for a number between two integers. -/
inductive Rounding where
  | floor
  | ceiling
  | truncation
  | halfEven
deriving DecidableEq, Repr

/-- The integer that stands for `num / den` (with `0 < den`). -/
def Rounding.quotient (mode : Rounding) (num : Int) (den : Nat) : Int :=
  match mode with
  | floor => Int.fdiv num den
  | ceiling => -Int.fdiv (-num) den
  | truncation => Int.tdiv num den
  | halfEven => num.sign * roundHalfEven num.natAbs den

/-- A finite double rounded to an integer. -/
def toInt (mode : Rounding) (x : Float) : Int :=
  let m := Magnitude.ofFloat x
  mode.quotient (if isNegative x then -m.numerator else m.numerator) m.denominator

/-- The integral double that stands for `x`, with the sign of `x` also where
it is a zero; what is not finite stands for itself. -/
def toIntegral (mode : Rounding) (x : Float) : Float :=
  if x.isFinite then copySign (ofInt (toInt mode x)) x else x

/-- Whether a finite double is an integer. -/
def isIntegral (x : Float) : Bool :=
  let m := Magnitude.ofFloat x
  m.numerator % m.denominator == 0

/-- The integral part of `x` and what remains, both with the sign of `x`. -/
def splitIntegral (x : Float) : Float × Float :=
  let whole := toIntegral .truncation x
  (whole, copySign (if x.isInf then 0.0 else x - whole) x)

end FlatLisp.Binary64
