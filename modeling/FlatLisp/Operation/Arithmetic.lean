/-
FlatLisp.Operation.Arithmetic — sums, products and powers.

Sums, differences and products run from left to right and fail at the first
partial result that is out of range; the kinds of all arguments are checked
before anything is computed.
-/
import FlatLisp.Operation.Real

namespace FlatLisp.Operation

variable {H : Type}

/-! ## Running results -/

/-- The sum of all arguments. -/
def evalSum (args : List (Value H)) : Except Error (Value H) := do
  let ns ← numberArgs "+" args
  let total ← ns.foldlM Number.add (.int 0)
  return .number total

/-- The first argument less all others, or the only one negated. -/
def evalDifference (args : List (Value H)) : Except Error (Value H) := do
  match ← numberArgs "-" args with
  | [] => .error (.arity "-" (.atLeast 1) 0)
  | [only] => return .number (← only.neg)
  | first :: others => return .number (← others.foldlM Number.sub first)

/-- The product of all arguments. -/
def evalProduct (args : List (Value H)) : Except Error (Value H) := do
  let ns ← numberArgs "*" args
  let total ← ns.foldlM Number.mul (.int 1)
  return .number total

/-- The first argument divided by all others in turn, or the reciprocal of
the only one. -/
def evalQuotient (args : List (Value H)) : Except Error (Value H) := do
  match ← numberArgs "/" args with
  | [] => .error (.arity "/" (.atLeast 1) 0)
  | [only] => return .number (← Number.div (.int 1) only)
  | first :: others => return .number (← others.foldlM Number.div first)

/-- A running product with one more factor, which has to be a number. -/
def multiplyBy (name : String) (product : Number) (factor : Value H) : Except Error Number := do
  product.mul (← numberArg name factor)

/-- The product of the numbers in a list. An item of a wrong kind is noticed
only when its turn comes. -/
def evalProd (args : List (Value H)) : Except Error (Value H) := do
  let items ← listArg "prod" (← one "prod" args)
  let total ← items.foldlM (multiplyBy "prod") (.int 1)
  return .number total

/-- The argument without its sign. -/
def evalAbs (args : List (Value H)) : Except Error (Value H) := do
  let n ← numberArg "abs" (← one "abs" args)
  return .number (← n.abs)

/-! ## Powers -/

/-- The greatest exponent of an integer power. -/
def maxExponent : Int := 0xFFFFFFFF

/-- An integer power. Powers of a base of size two or more are out of range
from exponent 64 on and those of the other bases depend on parity alone, so a
large exponent is replaced by 64 or 65. -/
def integerPower (base : Int) (exponent : Nat) : Int :=
  Int.pow base (if exponent ≤ 64 then exponent else 64 + exponent % 2)

/-- An integer to the power of an integer that is not negative. -/
def integerExpt (base exponent : Int64) : Except Error (Value H) :=
  if maxExponent < exponent.toInt then .error (.fault (.overflow "exponentiation"))
  else do
    let power := integerPower base.toInt exponent.toInt.toNat
    return .number (← Number.exact "exponentiation" power)

/-- A power of doubles, by the function for it. -/
def realExptBy (power : Float → Float → Float) (base exponent : Number) :
    Except Error (Value H) :=
  checkedReal "expt" [base.toFloat, exponent.toFloat] (power base.toFloat exponent.toFloat)

/-- The first argument to the power of the second, where `power` is for the
powers that are no integer powers of integers. -/
def evalExptBy (power : Float → Float → Float) (args : List (Value H)) :
    Except Error (Value H) := do
  let (base, exponent) ← two "expt" args
  let base ← numberArg "expt" base
  let exponent ← numberArg "expt" exponent
  if base.isZero && exponent.less (.int 0) then .error (.fault .zeroToNegativePower)
  else
    match base, exponent with
    | .int b, .int e =>
      if 0 ≤ e.toInt then integerExpt b e else realExptBy power base exponent
    | _, _ => realExptBy power base exponent

end FlatLisp.Operation
