/-
FlatLisp.Decimal.Shortest — the fewest digits that read back.

Among the decimals with one significant digit, then two, and so on, the
double's two neighbours on that grid are tried; the first grid with one that
reads back to the same double decides, and of two the nearer is taken, the
upper one when they are equally near. Seventeen digits always suffice for a
double; should no grid up to there answer, the exact value is written out,
which reads back as well, so that the result does so in every case.
-/
import FlatLisp.Decimal.Basic

namespace FlatLisp.Decimal

/-! ## The decimal grid -/

/-- Number of decimal digits. -/
def digitCount (n : Nat) : Nat := (Nat.toDigits 10 n).length

/-- The `k` with `10 ^ k ≤ num / den < 10 ^ (k + 1)`, for a positive
quotient. -/
def quotientLog10 (num den : Nat) : Int :=
  if den ≤ num then (digitCount (num / den) : Int) - 1
  else -digitCount ((den - 1) / num)

/-- The greatest multiple of `10 ^ e` that is at most `num / den`, as a count
of `10 ^ e`, with numerator and denominator of what is missing. -/
def gridFloor (num den : Nat) (e : Int) : Nat × Nat × Nat :=
  let n := num * tenPow (-e).toNat
  let d := den * tenPow e.toNat
  (n / d, n % d, d)

/-- The neighbour of `num / den` among the multiples of `10 ^ e` that reads
back to the pattern `bits`, the nearer one if both do. -/
def gridNeighbour? (bits num den : Nat) (e : Int) : Option Decimal :=
  let (count, remainder, unit) := gridFloor num den e
  let lower : Decimal := ⟨false, count, e⟩
  let upper : Decimal := ⟨false, count + 1, e⟩
  if lower.magnitudeBits = bits then
    if upper.magnitudeBits = bits ∧ unit ≤ 2 * remainder then some upper else some lower
  else if upper.magnitudeBits = bits then some upper
  else none

/-- The first answer on the grids with `n`, `n + 1`, … digits after the
leading one, `tries` grids in all. -/
def firstGrid? (bits num den : Nat) (top : Int) (n : Nat) : (tries : Nat) → Option Decimal
  | 0 => none
  | tries + 1 =>
    match gridNeighbour? bits num den (top - n) with
    | some d => some d
    | none => firstGrid? bits num den top (n + 1) tries

/-- The exact value of a quotient whose denominator is `2 ^ k`. -/
def exactBinary (num k : Nat) : Decimal :=
  ⟨false, num * Nat.pow 5 k, -k⟩

/-- Significant digits that tell every two doubles apart. -/
def maxDigits : Nat := 17

/-- The decimal that stands for the positive finite double of a pattern. -/
def shortest (bits : Nat) : Decimal :=
  let m := Binary64.Magnitude.ofBits bits
  let num := m.numerator
  let den := m.denominator
  match firstGrid? bits num den (quotientLog10 num den) 0 maxDigits with
  | some d => d
  | none => exactBinary num (-m.exponent).toNat

end FlatLisp.Decimal
