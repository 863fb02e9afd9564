/-
FlatLisp.Special.Gamma — the gamma function and the logarithm of its size.

`gamma` is a factorial at the positive integers where that is a double, and
elsewhere a Lanczos sum, whose coefficients make numerator and denominator of
a rational function; negative arguments are reflected. `logGamma` has an
approximation for each of a few intervals and the asymptotic series beyond.
-/
import FlatLisp.Special.Elementary
import FlatLisp.Binary64.Integral

namespace FlatLisp.Special

/-- The sine of `π x` for `0 ≤ x`, where multiples of a quarter turn are taken
out exactly. -/
def sinPi (x : Float) : Float :=
  let half := x * 0.5
  let turn := 2.0 * (half - Binary64.toIntegral .floor half)
  let quadrant := (Binary64.toInt .floor (turn * 4.0) + 1) / 2
  let rest := (turn - Binary64.ofInt quadrant * 0.5) * pi
  if quadrant = 1 then reducedCos rest
  else if quadrant = 2 then -reducedSin rest
  else if quadrant = 3 then -reducedCos rest
  else reducedSin rest

/-! ## The gamma function -/

/-- The shift of the Lanczos sum, less one half. -/
def lanczosShift : Float := 5.524680040776729583740234375

/-- Numerator of the Lanczos sum, constant first. -/
def lanczosNumerator : List Float := [
  23531376880.410759688572007674451636754734846804940,
  42919803642.649098768957899047001988850926355848959,
  35711959237.355668049440185451547166705960488635843,
  17921034426.037209699919755754458931112671403265390,
  6039542586.3520280050642916443072979210699388420708,
  1439720407.3117216736632230727949123939715485786372,
  248874557.86205415651146038641322942321632125127801,
  31426415.585400194380614231628318205362874684987640,
  2876370.6289353724412254090516208496135991145378768,
  186056.26539522349504029498971604569928220784236328,
  8071.6720023658162106380029022722506138218516325024,
  210.82427775157934587250973392071336271166969580291,
  2.5066282746310002701649081771338373386264310793408]

/-- Denominator of the Lanczos sum, the rising factorial of length twelve. -/
def lanczosDenominator : List Float := [
  0.0, 39916800.0, 120543840.0, 150917976.0, 105258076.0, 45995730.0, 13339535.0,
  2637558.0, 357423.0, 32670.0, 1925.0, 66.0, 1.0]

/-- The Lanczos sum. Large arguments are divided by and not multiplied with,
so that no power overflows. -/
def lanczosSum (x : Float) : Float :=
  if x < 8.0 then polynomial lanczosNumerator x / polynomial lanczosDenominator x
  else descendingPolynomial lanczosNumerator x / descendingPolynomial lanczosDenominator x

/-- The gamma function at a double whose size is from `2 ^ -54` up to 184. -/
def gammaModerate (x : Float) : Float :=
  let size := x.abs
  let y := size + lanczosShift
  let error :=
    if lanczosShift < size then y - size - lanczosShift else y - lanczosShift - size
  let r := lanczosSum size * Float.exp (-y)
  let reflected := x < 0.0
  let r := if reflected then -pi / (sinPi size * size * r) else r
  let error := if reflected then -error else error
  let z := if reflected then 0.5 - size else size - 0.5
  let r := r + error * (lanczosShift + 0.5) * r / y
  let power := Float.pow y (0.5 * z)
  r * power * power

/-- The product of the natural numbers from one up to `n`. -/
def factorial : (n : Nat) → Nat
  | 0 => 1
  | n + 1 => (n + 1) * factorial n

/-- The greatest integer up to which the gamma function is a double at every
positive integer: `22!` is one, `23!` is not. -/
def maxExactGamma : Float := 23.0

/-- The gamma function. At small positive integers it is exact. Far below zero
it is a zero, negative where the greatest integer below the argument is odd. -/
def gamma (x : Float) : Float :=
  let size := x.abs
  if !x.isFinite then x + Binary64.infinity
  else if size < 5.551115123125783e-17 then 1.0 / x
  else if 0.0 < x && x ≤ maxExactGamma && Binary64.isIntegral x then
    Binary64.ofInt (factorial (Binary64.toInt .floor x - 1).toNat)
  else if 184.0 ≤ size then
    if 0.0 < x then Binary64.infinity
    else if Binary64.toInt .floor x % 2 = 0 then 0.0
    else -0.0
  else gammaModerate x

/-! ## The logarithm of its size -/

/-- The logarithm of `Γ (2 - y)`, which is also that of `(1 - y) · Γ (1 - y)`. -/
def logGammaBelowTwo (y : Float) : Float :=
  let z := y * y
  let p1 := polynomial [7.72156649015328655494e-02, 6.73523010531292681824e-02,
    7.38555086081402883957e-03, 1.19270763183362067845e-03, 2.20862790713908385557e-04,
    2.52144565451257326939e-05] z
  let p2 := z * polynomial [3.22467033424113591611e-01, 2.05808084325167332806e-02,
    2.89051383673415629091e-03, 5.10069792153511336608e-04, 1.08011567247583939954e-04,
    4.48640949618915160150e-05] z
  y * p1 + p2 - 0.5 * y

/-- Where the gamma function has its positive minimum. -/
def gammaMinimum : Float := 1.46163214496836224576e+00

/-- The logarithm of `Γ (gammaMinimum + y)`. -/
def logGammaAroundMinimum (y : Float) : Float :=
  let z := y * y
  let w := z * y
  let p1 := polynomial [4.83836122723810047042e-01, -3.27885410759859649565e-02,
    6.10053870246291332635e-03, -1.40346469989232843813e-03, 3.15632070903625950361e-04] w
  let p2 := polynomial [-1.47587722994593911752e-01, 1.79706750811820387126e-02,
    -3.68452016781138256760e-03, 8.81081882437654011382e-04, -3.12754168375120860518e-04] w
  let p3 := polynomial [6.46249402391333854778e-02, -1.03142241298341437450e-02,
    2.25964780900612472250e-03, -5.38595305356740546715e-04, 3.35529192635519073543e-04] w
  z * p1 - (-3.63867699703950536541e-18 - w * (p2 + y * p3)) + -1.21486290535849611461e-01

/-- The logarithm of `Γ (1 + y)` for small `y`. -/
def logGammaAboveOne (y : Float) : Float :=
  let p1 := y * polynomial [-7.72156649015328655494e-02, 6.32827064025093366517e-01,
    1.45492250137234768737e+00, 9.77717527963372745603e-01, 2.28963728064692451092e-01,
    1.33810918536787660377e-02] y
  let p2 := polynomial [1.0, 2.45597793713041134822e+00, 2.12848976379893395361e+00,
    7.69285150456672783825e-01, 1.04222645593369134254e-01, 3.21709242282423911810e-03] y
  p1 / p2 - 0.5 * y

/-- The logarithm of `Γ x` for `2 ≤ x < 8`, from its value in `[2, 3)` and the
factors in between. -/
def logGammaBelowEight (x : Float) : Float :=
  let whole := Binary64.toInt .floor x
  let y := x - Binary64.ofInt whole
  let p := y * polynomial [-7.72156649015328655494e-02, 2.14982415960608852501e-01,
    3.25778796408930981787e-01, 1.46350472652464452805e-01, 2.66422703033638609560e-02,
    1.84028451407337715652e-03, 3.19475326584100867617e-05] y
  let q := polynomial [1.0, 1.39200533467621045958e+00, 7.21935547567138069525e-01,
    1.71933865632803078993e-01, 1.86459191715652901344e-02, 7.77942496381893596434e-04,
    7.32668430744625636189e-06] y
  let factors := [6.0, 5.0, 4.0, 3.0, 2.0].drop (7 - whole).toNat
  0.5 * y + p / q + log (factors.foldl (fun z k => z * (y + k)) 1.0)

/-- The logarithm of `Γ x` for `8 ≤ x < 2 ^ 58`, by its asymptotic series. -/
def logGammaSeries (x : Float) : Float :=
  let z := 1.0 / x
  let w := 4.18938533204672725052e-01 + z * polynomial [8.33333333333329678849e-02,
    -2.77777777728775536470e-03, 7.93650558643019558500e-04, -5.95187557450339963135e-04,
    8.36339918996282139126e-04, -1.63092934096575273989e-03] (z * z)
  (x - 0.5) * (log x - 1.0) + w

/-- The logarithm of `Γ x` for a positive finite double from `2 ^ -70` on. -/
def logGammaPositive (x : Float) : Float :=
  if x == 1.0 || x == 2.0 then 0.0
  else if x < 0.23163998126983643 then -log x + logGammaAboveOne x
  else if x < 0.7315998077392578 then
    -log x + logGammaAroundMinimum (x - (gammaMinimum - 1.0))
  else if x < 0.9000000953674316 then -log x + logGammaBelowTwo (1.0 - x)
  else if x < 1.2316322326660156 then logGammaAboveOne (x - 1.0)
  else if x < 1.7316312789916992 then logGammaAroundMinimum (x - gammaMinimum)
  else if x < 2.0 then logGammaBelowTwo (2.0 - x)
  else if x < 8.0 then logGammaBelowEight x
  else if x < 288230376151711744.0 then logGammaSeries x
  else x * (log x - 1.0)

/-- The logarithm of the size of the gamma function. -/
def logGamma (x : Float) : Float :=
  let size := x.abs
  if !x.isFinite then x * x
  else if size < 8.470329472543003e-22 then -log size
  else if x < 0.0 then
    log (pi / ((sinPi size).abs * size)) - logGammaPositive size
  else logGammaPositive size

end FlatLisp.Special
