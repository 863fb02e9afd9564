/-
FlatLisp.Operation.Round — rounding to decimal places.

A half goes to the even neighbour. With one argument the result is an
integer. A second argument gives the number of places to keep; negative ones
round to tens, hundreds and so on, by scaling with a power of ten as a
double.
-/
import FlatLisp.Operation.Arguments
import FlatLisp.Machine
import FlatLisp.Binary64.Exact

namespace FlatLisp.Operation

variable {H : Type}

/-- Numbers of places past this leave every double alone or round it to
zero. -/
def maxPlaces : Int := 400

/-- A double rounded to an integral one. -/
def roundHalfEven (x : Float) : Float :=
  Binary64.toIntegral .halfEven x

/-- An integer rounded to a multiple of `scale`. -/
def roundInteger (n : Int64) (scale : Float) : Except Error Number :=
  if scale.isInf then .ok (.int 0)
  else
    Number.rounded "round" .truncation (roundHalfEven ((Number.int n).toFloat / scale) * scale)

/-- A double rounded to a multiple of `1 / scale`. -/
def roundFraction (x scale : Float) : Float :=
  let scaled := x * scale
  if scaled.isFinite then roundHalfEven scaled / scale else x

/-- A double rounded to a multiple of `scale`. -/
def roundMultiple (x scale : Float) : Float :=
  if !x.isFinite then x
  else if scale.isInf then Binary64.copySign 0.0 x
  else roundHalfEven (x / scale) * scale

/-- The power of ten that a number of places stands for. -/
def placeScale (places : Int) : Except Error Float := do
  let size ← Machine.Width.int32.fitNat places.natAbs
  return Binary64.powerBySquaring 10.0 size

/-- A number rounded to decimal places. -/
def roundTo (n : Number) (places : Int) : Except Error Number := do
  let places := max (-maxPlaces) (min places maxPlaces)
  let scale ← placeScale places
  match n with
  | .int n => if 0 ≤ places then .ok (.int n) else roundInteger n scale
  | .float x =>
    .ok (.float (if 0 ≤ places then roundFraction x scale else roundMultiple x scale))

/-- The number rounded to an integer, or to the places that the second
argument says. -/
def evalRound : List (Value H) → Except Error (Value H)
  | [v] => do
    match ← numberArg "round" v with
    | .int n => return .int n
    | .float x => return .number (← Number.rounded "round" .halfEven x)
  | [v, w] => do
    let n ← numberArg "round" v
    let places ← integerArgAs "integer digit count" "round" w
    return .number (← roundTo n places.toInt)
  | args => .error (.arity "round" (.range 1 2) args.length)

end FlatLisp.Operation
