/-
FlatLisp.Operation.Real — real functions on doubles.

A real function has no silent answers: a result that is not a number is a
domain error unless an argument was not a number already, and an infinite
result of finite arguments is a range error. The check looks at arguments and
result only, whatever function lies between them, so the operations take the
functions on doubles that they call as parameters.
-/
import FlatLisp.Operation.Arguments
import FlatLisp.Special.ErrorFunction
import FlatLisp.Special.Gamma

namespace FlatLisp

/-! ## The functions -/

/-- Degrees in a radian. -/
def degreesPerRadian : Float := 57.29577951308232

/-- Where a real function is defined. Functions that are no number outside
their domain by themselves are listed as defined everywhere. -/
def RealFunction.isDefinedAt : RealFunction → Float → Bool
  | log2, x | log10, x => 0.0 < x
  | log1p, x => -1.0 < x
  | atanh, x => x.abs < 1.0
  | gamma, x | lgamma, x => 0.0 < x || !(x.isFinite && Binary64.isIntegral x)
  | _, _ => true

/-- The value of a real function. -/
def RealFunction.value : RealFunction → Float → Float
  | sqrt => Float.sqrt | exp => Float.exp | expm1 => Special.expm1
  | log2 => Float.log2 | log10 => Float.log10 | log1p => Special.log1p
  | sin => Float.sin | cos => Float.cos | tan => Float.tan
  | asin => Float.asin | acos => Float.acos | atan => Float.atan
  | sinh => Float.sinh | cosh => Float.cosh | tanh => Float.tanh
  | asinh => Float.asinh | acosh => Float.acosh | atanh => Special.atanh
  | fabs => Float.abs
  | degrees => fun x => x * degreesPerRadian
  | radians => fun x => x * (Special.pi / 180.0)
  | cbrt => Float.cbrt | exp2 => Float.exp2
  | erf => Special.erf | erfc => Special.erfc
  | gamma => Special.gamma | lgamma => Special.logGamma

/-- The value of a real function of two arguments. -/
def RealFunction₂.value : RealFunction₂ → Float → Float → Float
  | atan2 => Float.atan2
  | copysign => Binary64.copySign
  | fmod => Binary64.truncatedRemainder
  | remainder => Binary64.nearestRemainder

/-- Whether a double is in a class. -/
def FloatClass.holds : FloatClass → Float → Bool
  | notANumber => Float.isNaN
  | infinite => Float.isInf
  | finite => Float.isFinite

/-- The way of rounding that a truncation stands for. -/
def Truncation.rounding : Truncation → Binary64.Rounding
  | floor => .floor | ceiling => .ceiling | towardZero => .truncation

namespace Operation

variable {H : Type}

/-! ## Checked answers -/

/-- The result of a real function, unless it is not a number or infinite and
the inputs do not account for that. -/
def checkedReal (name : String) (inputs : List Float) (result : Float) :
    Except Error (Value H) :=
  if result.isNaN && !inputs.any Float.isNaN then .error (.fault (.domain name))
  else if result.isInf && inputs.all Float.isFinite then .error (.fault (.range name))
  else .ok (.float result)

/-- A real function of one argument, by its name, domain and values. -/
def evalUnary (name : String) (isDefinedAt : Float → Bool) (value : Float → Float)
    (args : List (Value H)) : Except Error (Value H) := do
  let x ← floatArg name (← one name args)
  if !x.isNaN && !isDefinedAt x then .error (.fault (.domain name))
  else checkedReal name [x] (value x)

/-- A real function of two arguments, by its name and values. -/
def evalBinary (name : String) (value : Float → Float → Float) (args : List (Value H)) :
    Except Error (Value H) := do
  let (v, w) ← two name args
  let x ← floatArg name v
  let y ← floatArg name w
  checkedReal name [x, y] (value x y)

/-- A power, by the function for it; zero has no negative powers. -/
def evalPowBy (power : Float → Float → Float) (args : List (Value H)) :
    Except Error (Value H) := do
  let (v, w) ← two "pow" args
  let x ← floatArg "pow" v
  let y ← floatArg "pow" w
  if x == 0.0 && y < 0.0 then .error (.fault (.domain "pow"))
  else checkedReal "pow" [x, y] (power x y)

/-- The length of a vector, one coordinate after the other, by the function for
the length of a hypotenuse. -/
def vectorLengthBy (hypotenuse : Float → Float → Float) (coordinates : List Float) : Float :=
  coordinates.foldl hypotenuse 0.0

/-- The length of a vector. -/
def vectorLength (coordinates : List Float) : Float :=
  vectorLengthBy Binary64.hypotenuse coordinates

/-- The length of the vector whose coordinates are the arguments. -/
def evalHypotBy (hypotenuse : Float → Float → Float) (args : List (Value H)) :
    Except Error (Value H) := do
  let coordinates ← args.mapM (floatArg "hypot")
  checkedReal "hypot" coordinates (vectorLengthBy hypotenuse coordinates)

/-- The distance of two points, given as lists of coordinates. The check is on
the differences of the coordinates. -/
def evalDist (args : List (Value H)) : Except Error (Value H) := do
  let (v, w) ← two "dist" args
  let p ← floatListArg "dist" v
  let q ← floatListArg "dist" w
  if p.length != q.length then .error (.fault .dimensionMismatch)
  else
    let differences := List.zipWith (· - ·) p q
    checkedReal "dist" differences (vectorLength differences)

/-! ## Logarithms -/

/-- The logarithm `ln` of an argument, which has to be positive. -/
def lnArg (ln : Float → Float) (v : Value H) : Except Error Float := do
  let x ← floatArg "log" v
  if !x.isNaN && x ≤ 0.0 then .error (.fault (.domain "log")) else .ok (ln x)

/-- The natural logarithm, or that to the base of the second argument, as a
quotient of values of `ln`. -/
def evalLogBy (ln : Float → Float) : List (Value H) → Except Error (Value H)
  | [v] => do
    let result ← lnArg ln v
    checkedReal "log" [result] result
  | [v, base] => do
    let numerator ← lnArg ln v
    let denominator ← lnArg ln base
    if denominator == 0.0 then .error (.fault .divisionByZero)
    else checkedReal "log" [numerator, denominator] (numerator / denominator)
  | args => .error (.arity "log" (.range 1 2) args.length)

/-! ## Doubles taken apart -/

/-- The integer that a number is truncated to. -/
def evalTruncation (t : Truncation) (args : List (Value H)) : Except Error (Value H) := do
  match ← numberArg t.name (← one t.name args) with
  | .int n => return .int n
  | .float x => return .number (← Number.rounded t.name t.rounding x)

/-- Whether a number is in a class of doubles. -/
def evalClass (c : FloatClass) (args : List (Value H)) : Except Error (Value H) := do
  let x ← floatArg c.name (← one c.name args)
  return .bool (c.holds x)

/-- The first argument times two to the power of the second, by the function
that scales a double. -/
def evalLdexpBy (scale : Float → Int → Float) (args : List (Value H)) :
    Except Error (Value H) := do
  let (v, w) ← two "ldexp" args
  let x ← floatArg "ldexp" v
  let exponent ← integerArg "ldexp" w
  checkedReal "ldexp" [x] (scale x exponent.toInt)

/-- The list of mantissa and exponent. -/
def evalFrexp (args : List (Value H)) : Except Error (Value H) := do
  let x ← floatArg "frexp" (← one "frexp" args)
  let (mantissa, exponent) := Binary64.mantissaExponent x
  return .list [.float mantissa, .int (Int64.ofInt exponent)]

/-- The list of fractional and integral part. -/
def evalModf (args : List (Value H)) : Except Error (Value H) := do
  let x ← floatArg "modf" (← one "modf" args)
  let (whole, fraction) := Binary64.splitIntegral x
  return .list [.float fraction, .float whole]

/-! ## Closeness -/

/-- Whether two doubles differ by no more than a relative or an absolute
tolerance. -/
def isClose (a b relative absolute : Float) : Bool :=
  if a == b then true
  else if a.isInf || b.isInf then false
  else
    let difference := (b - a).abs
    difference ≤ (relative * b).abs || difference ≤ (relative * a).abs
      || difference ≤ absolute

/-- The relative tolerance where none is given. -/
def defaultRelative : Float := 1e-9

/-- The absolute tolerance where none is given. -/
def defaultAbsolute : Float := 0.0

/-- Whether two numbers are close, with optional tolerances. -/
def closeWithin (v w : Value H) (relative absolute : Except Error Float) :
    Except Error (Value H) := do
  let a ← floatArg "isclose" v
  let b ← floatArg "isclose" w
  let relative ← relative
  let absolute ← absolute
  if relative < 0.0 || absolute < 0.0 then .error (.fault .negativeTolerance)
  else return .bool (isClose a b relative absolute)

/-- Whether the first two arguments are close; a relative and an absolute
tolerance may follow. -/
def evalIsclose : List (Value H) → Except Error (Value H)
  | [v, w] => closeWithin v w (.ok defaultRelative) (.ok defaultAbsolute)
  | [v, w, relative] => closeWithin v w (floatArg "isclose" relative) (.ok defaultAbsolute)
  | [v, w, relative, absolute] =>
    closeWithin v w (floatArg "isclose" relative) (floatArg "isclose" absolute)
  | args => .error (.arity "isclose" (.range 2 4) args.length)

end Operation

end FlatLisp
