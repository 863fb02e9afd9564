/-
FlatLisp.Operation.Counting — divisors, roots and arrangements of integers.

Products that may leave the 64-bit range are given up as soon as they do, so
no loop over factors here is long, whatever its bounds are. Steps in between
are those of a machine: a remainder, a square or a bound of a range is computed
at its width without asking whether it has a result there.
-/
import FlatLisp.Operation.Arguments
import FlatLisp.Machine

namespace FlatLisp.Operation

variable {H : Type}

/-- An exact natural number as a value; the procedure `name` overflows where
it is too large. -/
def countValue (name : String) (n : Nat) : Except Error (Value H) := do
  return .number (← Number.exact name n)

/-! ## Divisors and multiples -/

/-- The greatest common divisor of two numbers, by Euclid's algorithm. -/
def euclid (a b : Nat) : Except Error Nat :=
  if b = 0 then .ok a
  else
    match _h : Machine.remainder a b with
    | .error cause => .error cause
    | .ok rest => euclid b rest
termination_by b
decreasing_by exact Machine.lt_of_remainder_eq_ok _h

/-- A common divisor extended by one more argument. -/
def commonDivisor (divisor : Nat) (v : Value H) : Except Error Nat := do
  let n ← integerArg "gcd" v
  euclid divisor n.toInt.natAbs

/-- The greatest common divisor of all arguments. -/
def evalGcd (args : List (Value H)) : Except Error (Value H) := do
  countValue "gcd" (← args.foldlM commonDivisor 0)

/-- The bound on multiples that are carried along, the greatest number of 64
bits without a sign. -/
def maxMultiple : Nat := 0xFFFFFFFFFFFFFFFF

/-- The least common multiple of two numbers, if it is not too large. -/
def multipleOf (a b : Nat) : Except Error Nat :=
  if a = 0 ∨ b = 0 then .ok 0
  else do
    let share ← Machine.quotient a (← euclid a b)
    if maxMultiple < share * b then .error (.fault (.overflow "lcm")) else return share * b

/-- A common multiple extended by one more argument. -/
def commonMultiple (multiple : Nat) (v : Value H) : Except Error Nat := do
  let n ← integerArg "lcm" v
  multipleOf multiple n.toInt.natAbs

/-- The least common multiple of all arguments. -/
def evalLcm (args : List (Value H)) : Except Error (Value H) := do
  countValue "lcm" (← args.foldlM commonMultiple 1)

/-! ## Square roots -/

/-- The square of a root. -/
def square (root : Nat) : Except Error Nat :=
  Machine.Width.int128.fitNat (root * root)

/-- The greatest number up to `root` whose square is at most `n`. -/
def descend (n : Nat) : (root : Nat) → Except Error Nat
  | 0 => .ok 0
  | root + 1 => do
    if n < (← square (root + 1)) then descend n root else return root + 1

/-- The root after `root`, and its square. -/
def nextSquare (root : Nat) : Except Error Nat := do
  square (← Machine.Width.int128.fitNat (root + 1))

theorem eq_of_nextSquare_eq_ok {root n : Nat} (h : nextSquare root = .ok n) :
    n = (root + 1) * (root + 1) := by
  unfold nextSquare at h
  cases hnext : Machine.Width.int128.fitNat (root + 1) with
  | error cause =>
    rw [hnext] at h
    cases h
  | ok next =>
    rw [hnext] at h
    have hsquare : square next = .ok n := h
    rw [Machine.Width.eq_of_fitNat_eq_ok hnext] at hsquare
    rw [square] at hsquare
    exact Machine.Width.eq_of_fitNat_eq_ok hsquare

/-- The first number from `root` on whose successor's square exceeds `n`. -/
def ascend (n root : Nat) : Except Error Nat :=
  match _h : nextSquare root with
  | .error cause => .error cause
  | .ok next => if next ≤ n then ascend n (root + 1) else .ok root
termination_by n - root
decreasing_by
  have := eq_of_nextSquare_eq_ok _h
  have : root + 1 ≤ (root + 1) * (root + 1) := Nat.le_mul_of_pos_left _ (Nat.succ_pos _)
  omega

/-- The integer square root of `n`, settled from any estimate. -/
def settleRoot (n estimate : Nat) : Except Error Nat := do
  ascend n (← descend n estimate)

/-- The root of `n` as doubles have it, truncated to an integer; the greatest
one where it is too large. -/
def estimateRoot (n : Nat) : Nat :=
  min (Binary64.toInt .truncation (Float.sqrt (Binary64.ofInt n))).toNat Number.maxInt.toNat

/-- The integer square root, settled from the estimate of a function. -/
def evalIsqrtBy (estimate : Nat → Nat) (args : List (Value H)) : Except Error (Value H) := do
  let n ← integerArg "isqrt" (← one "isqrt" args)
  if n.toInt < 0 then .error (.fault .negativeSquareRoot)
  else
    let n := n.toInt.toNat
    countValue "isqrt" (← settleRoot n (estimate n))

/-! ## Arrangements -/

/-- The product of `product` and `count` successive numbers from `first` on,
if no partial product exceeds the greatest integer. -/
def risingProduct? (product first : Nat) : (count : Nat) → Option Nat
  | 0 => some product
  | count + 1 =>
    if Number.maxInt < product * first then none
    else risingProduct? (product * first) (first + 1) count

/-- The product of the numbers from `first` to `last`, if it is not too
large. -/
def rangeProduct? (first last : Nat) : Option Nat :=
  risingProduct? 1 first (last + 1 - first)

/-- A product that may have been given up as a value. -/
def productValue (name : String) : Option Nat → Except Error (Value H)
  | some n => countValue name n
  | none => .error (.fault (.overflow name))

/-- The factorial. -/
def evalFactorial (args : List (Value H)) : Except Error (Value H) := do
  let n ← integerArg "factorial" (← one "factorial" args)
  if n.toInt < 0 then .error (.fault .negativeFactorial)
  else productValue "factorial" (rangeProduct? 1 n.toInt.toNat)

/-- The least factor of the number of ways to arrange `k` of `n` things. -/
def leastFactor (n k : Nat) : Except Error Nat := do
  let below ← Machine.Width.int64.fit (n - k)
  let first ← Machine.Width.int64.fit (below + 1)
  return first.toNat

/-- The number of ways to arrange `k` of `n` things, if it is not too
large. -/
def arrangements (n k : Nat) : Except Error (Option Nat) :=
  if n < k then .ok (some 0)
  else do
    let first ← leastFactor n k
    return rangeProduct? first n

/-- The number of ways to arrange `k` of `n` things, all of them by
default. -/
def evalPerm : List (Value H) → Except Error (Value H)
  | [v] => do
    let n ← countArg "perm" "n" v
    productValue "perm" (← arrangements n n)
  | [v, w] => do
    let n ← countArg "perm" "n" v
    let k ← countArg "perm" "k" w
    productValue "perm" (← arrangements n k)
  | args => .error (.arity "perm" (.range 1 2) args.length)

/-- The product in the step from the binomial coefficient `acc` of `n` over
`i` to the next. -/
def binomialProduct (n acc i : Nat) : Except Error Nat := do
  let left ← Machine.Width.int64.fit (n - i)
  Machine.Width.word128.fitNat (acc * left.toNat)

/-- Steps from one binomial coefficient to the next: `acc` is that of `n` over
`i`, and `count` steps are to be made, none past the greatest integer. -/
def binomialFrom (n acc i : Nat) : (count : Nat) → Except Error Nat
  | 0 => .ok acc
  | count + 1 => do
    let product ← binomialProduct n acc i
    let next ← Machine.quotient product (← Machine.Width.int64.fitNat (i + 1))
    if Number.maxInt < next then .error (.fault (.overflow "comb"))
    else binomialFrom n next (i + 1) count

/-- The number of ways to choose `k` of `n` things. -/
def choices (n k : Nat) : Except Error Nat :=
  if n < k then .ok 0
  else do
    let others ← Machine.Width.int64.fit (n - k)
    binomialFrom n 1 0 (min k others.toNat)

/-- The number of ways to choose `k` of `n` things. -/
def evalComb (args : List (Value H)) : Except Error (Value H) := do
  let (v, w) ← two "comb" args
  let n ← countArg "comb" "n" v
  let k ← countArg "comb" "k" w
  countValue "comb" (← choices n k)

end FlatLisp.Operation
