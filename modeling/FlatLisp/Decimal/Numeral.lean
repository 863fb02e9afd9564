/-
FlatLisp.Decimal.Numeral — how numbers are written.

An integer literal is an optional sign and one or more ASCII digits. A float
literal is an optional sign followed by `inf`, `infinity` or `nan` in any
case, or by digits with at most one point among, before or after them and an
optional exponent. Every integer literal is a float literal too.
-/
import FlatLisp.Decimal.Basic

namespace FlatLisp

namespace Numeral

/-- A leading sign, and what follows it. -/
def splitSign : List Char → Bool × List Char
  | '-' :: cs => (true, cs)
  | '+' :: cs => (false, cs)
  | cs => (false, cs)

/-- One or more ASCII digits and nothing else. -/
def isDigits (cs : List Char) : Bool :=
  !cs.isEmpty && cs.all Char.isDigit

/-- A number with the sign that was read before it. -/
def signed (negative : Bool) (n : Nat) : Int :=
  if negative then -n else n

/-- The integer that an integer literal stands for. -/
def integer? (cs : List Char) : Option Int :=
  let (negative, body) := splitSign cs
  if isDigits body then some (signed negative (Nat.ofDigitChars 10 body 0)) else none

/-- The exponent after the digits of a float literal: nothing at all, or a
mark and an integer literal. -/
def exponent? : List Char → Option Int
  | [] => some 0
  | c :: cs => if c = 'e' ∨ c = 'E' then integer? cs else none

/-- The digits after the point, if there is one, and what follows. -/
def splitFraction : List Char → List Char × List Char
  | '.' :: cs => cs.span Char.isDigit
  | cs => ([], cs)

/-- The decimal of an unsigned literal made of digits. -/
def decimal? (negative : Bool) (body : List Char) : Option Decimal :=
  let (whole, afterWhole) := body.span Char.isDigit
  let (fraction, afterFraction) := splitFraction afterWhole
  if whole.isEmpty && fraction.isEmpty then none
  else
    match exponent? afterFraction with
    | none => none
    | some e => some ⟨negative, Nat.ofDigitChars 10 (whole ++ fraction) 0, e - fraction.length⟩

/-- The double that a float literal stands for. The sign of `-nan` is read and
dropped, as what is not a number has no sign (see `Binary64.copySign`). -/
def float? (cs : List Char) : Option Float :=
  let (negative, body) := splitSign cs
  let name := body.map Char.toLower
  if name = ['n', 'a', 'n'] then some Binary64.nan
  else if name = ['i', 'n', 'f'] ∨ name = ['i', 'n', 'f', 'i', 'n', 'i', 't', 'y'] then
    some (Binary64.ofSignAndBits negative Binary64.infinityBits)
  else (decimal? negative body).map Decimal.toFloat

end Numeral

end FlatLisp
