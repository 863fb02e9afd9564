/-
FlatLisp.Number — 64-bit integers and doubles.

Integers stay integers as long as all operands are integers, and an integer
result outside the 64-bit range is an error, never a wrapped value. As soon
as one operand is a double the other is taken as the double nearest to it.
-/
import FlatLisp.Error
import FlatLisp.Binary64.Integral

namespace FlatLisp

/-- A number as programs have them. -/
inductive Number where
  | int (n : Int64)
  | float (x : Float)
deriving DecidableEq

namespace Number

/-! ## Integers -/

/-- Least 64-bit integer. -/
def minInt : Int := -0x8000000000000000

/-- Greatest 64-bit integer. -/
def maxInt : Int := 0x7FFFFFFFFFFFFFFF

/-- An exact integer as a number, if it is in the 64-bit range. -/
def ofInt? (n : Int) : Option Number :=
  if minInt ≤ n ∧ n ≤ maxInt then some (int (Int64.ofInt n)) else none

/-- An exact integer as a number; outside the 64-bit range the named operation
has overflowed. -/
def exact (operation : String) (n : Int) : Except Error Number :=
  match ofInt? n with
  | some number => .ok number
  | none => .error (.fault (.overflow operation))

theorem toInt_le_maxInt (n : Int64) : n.toInt ≤ maxInt :=
  n.toInt_le

theorem toNat_le_maxInt (n : Int64) : (n.toInt.toNat : Int) ≤ maxInt := by
  have h := toInt_le_maxInt n
  simp only [maxInt] at h ⊢
  omega

theorem ofInt?_eq_some {n : Int} (h : minInt ≤ n ∧ n ≤ maxInt) :
    ofInt? n = some (int (Int64.ofInt n)) := by
  simp [ofInt?, h]

theorem ofInt?_eq_none_iff {n : Int} : ofInt? n = none ↔ n < minInt ∨ maxInt < n := by
  by_cases h : minInt ≤ n ∧ n ≤ maxInt
  · simp only [ofInt?_eq_some h, reduceCtorEq, false_iff]
    omega
  · simp only [ofInt?, if_neg h, true_iff]
    omega

theorem exact_eq_ok {operation : String} {n : Int} (h : minInt ≤ n ∧ n ≤ maxInt) :
    exact operation n = .ok (int (Int64.ofInt n)) := by
  simp [exact, ofInt?_eq_some h]

theorem exact_eq_error_iff {operation : String} {n : Int} :
    exact operation n = .error (.fault (.overflow operation)) ↔ n < minInt ∨ maxInt < n := by
  rw [← ofInt?_eq_none_iff, exact]
  cases ofInt? n <;> simp

/-- The integer that a double rounds to, on behalf of the procedure `name`. -/
def rounded (name : String) (mode : Binary64.Rounding) (x : Float) : Except Error Number :=
  if x.isFinite then exact name (Binary64.toInt mode x)
  else .error (.fault (.notAnInteger name x))

/-! ## Comparison -/

/-- The number as a double, the nearest one for an integer. -/
def toFloat : Number → Float
  | int n => Binary64.ofInt n.toInt
  | float x => x

/-- Whether the number is a zero of either kind and sign. -/
def isZero : Number → Bool
  | int n => n == 0
  | float x => x == 0.0

/-- Numeric equality: two integers are compared exactly, all else as
doubles. -/
def equal : Number → Number → Bool
  | int m, int n => m == n
  | a, b => a.toFloat == b.toFloat

/-- Numeric `<`, exact on two integers and as doubles otherwise. -/
def less : Number → Number → Bool
  | int m, int n => m < n
  | a, b => a.toFloat < b.toFloat

/-- Numeric `≤`, exact on two integers and as doubles otherwise. -/
def lessEqual : Number → Number → Bool
  | int m, int n => m ≤ n
  | a, b => a.toFloat ≤ b.toFloat

/-- How two numbers compare; `none` when one of them is not a number. -/
def compare? (a b : Number) : Option Ordering :=
  if a.less b then some .lt
  else if b.less a then some .gt
  else if a.equal b then some .eq
  else none

/-! ## Arithmetic -/

/-- The sum of two numbers. -/
def add : Number → Number → Except Error Number
  | int m, int n => exact "addition" (m.toInt + n.toInt)
  | a, b => .ok (float (a.toFloat + b.toFloat))

/-- The difference of two numbers. -/
def sub : Number → Number → Except Error Number
  | int m, int n => exact "subtraction" (m.toInt - n.toInt)
  | a, b => .ok (float (a.toFloat - b.toFloat))

/-- The product of two numbers. -/
def mul : Number → Number → Except Error Number
  | int m, int n => exact "multiplication" (m.toInt * n.toInt)
  | a, b => .ok (float (a.toFloat * b.toFloat))

/-- The quotient of two numbers, always a double. -/
def div (a b : Number) : Except Error Number :=
  if b.isZero then .error (.fault .divisionByZero)
  else .ok (float (a.toFloat / b.toFloat))

/-- The number with its sign reversed. -/
def neg : Number → Except Error Number
  | int n => exact "negation" (-n.toInt)
  | float x => .ok (float (-x))

/-- The number without its sign. -/
def abs : Number → Except Error Number
  | int n => exact "abs" n.toInt.natAbs
  | float x => .ok (float x.abs)

/-! ## Text -/

/-- The text of an integer. -/
def integerText (n : Int64) : String :=
  String.ofList (Decimal.integerText n.toInt)

/-- The text that reads back to the number. -/
def text : Number → String
  | int n => integerText n
  | float x => floatText "nan" x

/-- The text with its kind. -/
def debugText : Number → String
  | int n => "Int(" ++ integerText n ++ ")"
  | float x => "Float(" ++ floatText "NaN" x ++ ")"

/-- The name of the kind of number. -/
def kind : Number → String
  | int _ => "integer"
  | float _ => "float"

end Number

end FlatLisp
