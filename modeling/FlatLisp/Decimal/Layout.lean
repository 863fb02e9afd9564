/-
FlatLisp.Decimal.Layout — the text of a double.

The digits are those of `Decimal.shortest`. Numbers from `1e-4` up to but not
including `1e16` are written with a point and at least one digit on each side
of it; others have one digit before the point, no forced fraction, and an
exponent without plus sign or padding. Zeros keep their sign.
-/
import FlatLisp.Decimal.Shortest

namespace FlatLisp

namespace Decimal

/-- The decimal exponents of the leading digit that are written without an
exponent mark run from `least` up to `below`. -/
structure Layout where
  least : Int
  below : Int

/-- Four zeros at most follow the leading zero, and sixteen digits at most
come before the point. -/
def Layout.standard : Layout := ⟨-4, 16⟩

/-- A digit string without the zeros at its end. -/
def trimZeros (cs : List Char) : List Char :=
  (cs.reverse.dropWhile (· == '0')).reverse

/-- The digits `ds` with the point after the first `point` of them, padded
with zeros where the point lies outside. -/
def positional (ds : List Char) (point : Int) : List Char :=
  if point ≤ 0 then '0' :: '.' :: List.replicate (-point).toNat '0' ++ ds
  else
    let whole := ds.take point.toNat
    let fraction := ds.drop point.toNat
    whole ++ List.replicate (point.toNat - ds.length) '0' ++ '.'
      :: (if fraction.isEmpty then ['0'] else fraction)

/-- An integer with a minus sign where it is negative. -/
def integerText (n : Int) : List Char :=
  if n < 0 then '-' :: Nat.toDigits 10 n.natAbs else Nat.toDigits 10 n.natAbs

/-- The digits with the point after the first, and the exponent of that
digit. -/
def scientific (ds : List Char) (exponent : Int) : List Char :=
  let fraction := ds.drop 1
  ds.take 1 ++ (if fraction.isEmpty then [] else '.' :: fraction) ++ 'e' :: integerText exponent

/-- The text of a positive decimal. -/
def Layout.text (layout : Layout) (d : Decimal) : List Char :=
  let all := Nat.toDigits 10 d.coefficient
  let point := all.length + d.exponent
  let ds := trimZeros all
  if layout.least < point ∧ point ≤ layout.below then positional ds point
  else scientific ds (point - 1)

end Decimal

/-- The text of a magnitude. -/
def magnitudeText (bits : Nat) : List Char :=
  if bits = Binary64.infinityBits then ['i', 'n', 'f']
  else if bits = 0 then ['0', '.', '0']
  else Decimal.Layout.standard.text (Decimal.shortest bits)

/-- The text of a double, where `nanText` stands for what is not a number. -/
def floatText (nanText : String) (x : Float) : String :=
  let bits := Binary64.magnitudeBits x
  if Binary64.infinityBits < bits then nanText
  else
    let sign := if Binary64.isNegative x then ['-'] else []
    String.ofList (sign ++ magnitudeText bits)

end FlatLisp
