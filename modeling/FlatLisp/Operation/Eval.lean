/-
FlatLisp.Operation.Eval — the answer of each operation.

The body of an operation takes any argument list. `Builtin.arity` is checked
in front of it when a procedure is called; bodies that need a certain number
of arguments check it again, with the same wording.
-/
import FlatLisp.Operation.Arithmetic
import FlatLisp.Operation.Counting
import FlatLisp.Operation.ExactSum
import FlatLisp.Operation.Lists
import FlatLisp.Operation.Order
import FlatLisp.Operation.Round

namespace FlatLisp.Operation

variable {H : Type}

/-- The answer of an operation to an argument list. -/
def eval : Operation → List (Value H) → Except Error (Value H)
  | sum => evalSum
  | difference => evalDifference
  | product => evalProduct
  | quotient => evalQuotient
  | compare c => evalComparison c
  | abs => evalAbs
  | expt => evalExptBy Float.pow
  | extreme e => evalExtreme e
  | round => evalRound
  | append => evalAppend
  | car => evalCar
  | cdr => evalCdr
  | cons => evalCons
  | length => evalLength
  | list => fun args => .ok (.list args)
  | begin => evalBegin
  | identical => evalIdentical
  | equal => evalEqual
  | not => evalNot
  | ask kind => evalKind kind
  | real f => evalUnary f.name f.isDefinedAt f.value
  | real₂ f => evalBinary f.name f.value
  | log => evalLogBy Float.log
  | pow => evalPowBy Float.pow
  | hypot => evalHypotBy Binary64.hypotenuse
  | truncate t => evalTruncation t
  | classify c => evalClass c
  | factorial => evalFactorial
  | gcd => evalGcd
  | lcm => evalLcm
  | isqrt => evalIsqrtBy estimateRoot
  | comb => evalComb
  | perm => evalPerm
  | ldexp => evalLdexpBy Binary64.scale
  | frexp => evalFrexp
  | modf => evalModf
  | fsum => evalFsum
  | prod => evalProd
  | dist => evalDist
  | isclose => evalIsclose

end FlatLisp.Operation
