/-
FlatLisp.Operation.ExactSum — sums of doubles without lost digits.

A sum is carried as doubles that do not overlap, smallest first, whose exact
sum it is. Adding a number to it splits each addition into the rounded sum
and its error; the errors that are not zero stay behind.
-/
import FlatLisp.Operation.Real
import FlatLisp.Machine

namespace FlatLisp.Operation

variable {H : Type}

/-- The rounded sum of two doubles and what rounding took from it. -/
def sumWithError (x y : Float) : Float × Float :=
  let (large, small) := if x.abs < y.abs then (y, x) else (x, y)
  let rounded := large + small
  (rounded, small - (rounded - large))

/-- The partial sums while a number is added to them, one after the other:
errors that stay behind are moved to the front, `kept` of them so far, and
`carried` is the sum that is added next. -/
structure Carrying where
  partials : List Float
  kept : Nat
  carried : Float

/-- The partial sum in place `j` is added to what is carried. Errors never
outnumber the sums that they come from, so they can take their places. -/
def Carrying.step (s : Carrying) (j : Nat) : Except Error Carrying := do
  let y ← Machine.item s.partials j
  let (rounded, error) := sumWithError s.carried y
  if error != 0.0 then
    return ⟨← Machine.store s.partials s.kept error, s.kept + 1, rounded⟩
  else return ⟨s.partials, s.kept, rounded⟩

/-- The partial sums after one more number. -/
def addToPartials (partials : List Float) (x : Float) : Except Error (List Float) := do
  let s ← (List.range partials.length).foldlM Carrying.step ⟨partials, 0, x⟩
  return s.partials.take s.kept ++ [s.carried]

/-- The partial sums of a list of doubles. -/
def partialSums (xs : List Float) : Except Error (List Float) :=
  xs.foldlM addToPartials []

/-- The sum of doubles, by their partial sums from the largest down; plain
addition where some are not finite. -/
def exactSum (xs : List Float) : Except Error Float :=
  if xs.all Float.isFinite then do
    let partials ← partialSums xs
    return partials.reverse.foldl (· + ·) 0.0
  else return xs.foldl (· + ·) 0.0

/-- The sum of the numbers in a list. -/
def evalFsum (args : List (Value H)) : Except Error (Value H) := do
  let xs ← floatListArg "fsum" (← one "fsum" args)
  checkedReal "fsum" xs (← exactSum xs)

end FlatLisp.Operation
