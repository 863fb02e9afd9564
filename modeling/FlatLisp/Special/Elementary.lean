/-
FlatLisp.Special.Elementary — elementary functions in double arithmetic.

Logarithm, sine and cosine are polynomials on a short interval around their
simplest value. They are fixed to the last bit, which a function that subtracts
two of their values depends on. `exp x - 1` and `log (1 + x)` would lose all
digits near zero if they were computed as they are written; here the rounding
error of the inner step is taken out again.
-/
import FlatLisp.Binary64.Exact

namespace FlatLisp.Special

/-! ## Polynomials -/

/-- The value at `x` of the polynomial with the given coefficients, constant
first. -/
def polynomial (coefficients : List Float) (x : Float) : Float :=
  coefficients.foldr (fun c rest => c + x * rest) 0.0

/-- The value at `x` of the polynomial with the given coefficients, constant
first, divided by its power of `x`. -/
def descendingPolynomial (coefficients : List Float) (x : Float) : Float :=
  coefficients.foldl (fun rest c => rest / x + c) 0.0

/-! ## Logarithms and exponentials -/

/-- The logarithm of two without its last digits, so that products with the
exponent of a double are exact. -/
def ln2High : Float := 6.93147180369123816490e-01

/-- What `ln2High` lacks of the logarithm of two. -/
def ln2Low : Float := 1.90821492927058770002e-10

/-- A double just below `√2 / 2`; significands are taken between it and twice
it, so that their logarithms are small. -/
def minReduced : Float := 0.70710659027099609375

/-- The double `x` as `(1 + f) · 2 ^ k`, with `1 + f` as close to one as a power
of two can bring it. -/
def reduced (x : Float) : Float × Int :=
  let (m, e) := Binary64.mantissaExponent x
  if m < minReduced then (2.0 * m - 1.0, e - 1) else (m - 1.0, e)

/-- The logarithm of `(1 + f) · 2 ^ k`, plus a correction far below it. The
logarithm of `1 + f` is a series in `s = f / (2 + f)`; its small terms are added
first. -/
def reducedLog (f : Float) (k : Int) (correction : Float) : Float :=
  let k := Binary64.ofInt k
  let s := f / (2.0 + f)
  let z := s * s
  let w := z * z
  let half := 0.5 * f * f
  let series :=
    z * polynomial [6.666666666666735130e-01, 2.857142874366239149e-01,
      1.818357216161805012e-01, 1.479819860511658591e-01] w
    + w * polynomial [3.999999999940941908e-01, 2.222219843214978396e-01,
      1.531383769920937332e-01] w
  s * (half + series) + (k * ln2Low + correction) - half + f + k * ln2High

/-- The logarithm of a positive finite double. -/
def log (x : Float) : Float :=
  let (f, k) := reduced x
  reducedLog f k 0.0

/-- The function `log (1 + x)` for `-1 < x`. Where `1 + x` needs no power of two
the series takes `x` itself; elsewhere what `1 + x` lost in rounding is the
correction. -/
def log1p (x : Float) : Float :=
  let u := 1.0 + x
  if u == 1.0 || u.isInf then x
  else
    let (f, k) := reduced u
    if k = 0 then reducedLog x 0 0.0
    else reducedLog f k ((if u < 2.0 then x - (u - 1.0) else 1.0 - (u - x)) / u)

/-- The function `exp x - 1`. The error of `exp x` is divided out by its own
logarithm. -/
def expm1 (x : Float) : Float :=
  let u := Float.exp x
  if u == 1.0 then x
  else if u.isInf || u - 1.0 == -1.0 then u - 1.0
  else (u - 1.0) * (x / log u)

/-- The inverse of the hyperbolic tangent, half the logarithm of
`(1 + x) / (1 - x)`. The sign of `x` stays inside: the quotient is rounded
before the logarithm is taken, so near the ends of the domain a positive and a
negative argument of one size do not have opposite values. -/
def atanh (x : Float) : Float :=
  0.5 * log1p (2.0 * x / (1.0 - x))

/-! ## Sine and cosine -/

/-- The double nearest to `π`. -/
def pi : Float := 3.141592653589793

/-- The sine of `x` for `|x| ≤ π / 4`. -/
def reducedSin (x : Float) : Float :=
  let z := x * x
  let w := z * z
  let rest :=
    polynomial [8.33333333332248946124e-03, -1.98412698298579493134e-04,
      2.75573137070700676789e-06] z
    + z * w * polynomial [-2.50507602534068634195e-08, 1.58969099521155010221e-10] z
  x + z * x * (-1.66666666666666324348e-01 + z * rest)

/-- The cosine of `x` for `|x| ≤ π / 4`. What `1 - x² / 2` loses in rounding is
added again. -/
def reducedCos (x : Float) : Float :=
  let z := x * x
  let w := z * z
  let rest :=
    z * polynomial [4.16666666666666019037e-02, -1.38888888888741095749e-03,
      2.48015872894767294178e-05] z
    + w * w * polynomial [-2.75573143513906633035e-07, 2.08757232129817482790e-09,
      -1.13596475577881948265e-11] z
  let half := 0.5 * z
  let main := 1.0 - half
  main + (1.0 - main - half + z * rest)

end FlatLisp.Special
