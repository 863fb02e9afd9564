/-
FlatLisp.Error — what can go wrong, and how it is worded.

Each error is a constructor for its cause. The texts are written in the
`message` functions and nowhere else, so theorems can speak about causes.
-/
import FlatLisp.Arity
import FlatLisp.Token
import FlatLisp.Decimal.Layout

namespace FlatLisp

/-! ## Reading -/

/-- Why a text is not one expression. -/
inductive ReadError where
  /-- The tokens ran out where an expression was expected. -/
  | endOfInput
  /-- The tokens ran out inside a list. -/
  | endOfList
  /-- A closing parenthesis stood where an expression was expected. -/
  | unmatchedClosing
  /-- Tokens were left over after the first expression. -/
  | trailing (rest : List Token)
  /-- A list was opened inside as many open lists as are allowed. -/
  | tooDeep (limit : Nat)
deriving DecidableEq, Repr

/-- The wording of a read error. -/
def ReadError.message : ReadError → String
  | endOfInput => "unexpected EOF while reading"
  | endOfList => "unexpected EOF while reading list"
  | unmatchedClosing => "unexpected )"
  | trailing rest => "Unexpected remaining input: '" ++ Token.joined rest ++ "'"
  | tooDeep limit => s!"Expression too deeply nested (max depth: {limit})"

/-! ## Values of the wrong kind -/

/-- Why a value is of the wrong kind for its place. -/
inductive TypeError where
  /-- The procedure `name` needs something `expected`; it was given a value of
  kind `kind` that prints as `shown`. -/
  | mismatch (name expected kind shown : String)
  /-- The target of a definition prints as `shown` and is not a symbol. -/
  | targetNotSymbol (shown : String)
  /-- A host procedure refused its arguments, in its own words. -/
  | host (words : String)
deriving DecidableEq, Repr

/-- The wording of a type error. -/
def TypeError.message : TypeError → String
  | mismatch name expected kind shown =>
    name ++ ": expected " ++ expected ++ ", got " ++ kind ++ " " ++ shown
  | targetNotSymbol shown => "define requires a symbol, got " ++ shown
  | host words => words

/-! ## Values out of range -/

/-- Why a step of a machine has no result. -/
inductive Trap where
  /-- A position is not in the list. -/
  | index
  /-- The divisor is zero. -/
  | divisor
  /-- The exact result does not fit the width. -/
  | overflow
deriving DecidableEq, Repr

/-- The wording of a trap. -/
def Trap.message : Trap → String
  | index => "index out of range"
  | divisor => "machine division by zero"
  | overflow => "machine integer overflow"

/-- Why a procedure has no answer for arguments of the right kind. -/
inductive Fault where
  /-- An exact integer result is outside the 64-bit range. -/
  | overflow (operation : String)
  /-- A divisor is zero. -/
  | divisionByZero
  /-- The first element of the empty list was asked for. -/
  | firstOfEmpty
  /-- A zero was raised to a negative power. -/
  | zeroToNegativePower
  /-- An infinity or a non-number was to become an integer. -/
  | notAnInteger (name : String) (x : Float)
  /-- An extreme element of no elements was asked for. -/
  | emptySequence (name : String)
  /-- A real function is not defined at its arguments. -/
  | domain (name : String)
  /-- A real function of finite arguments is too large for a double. -/
  | range (name : String)
  /-- The argument described by `what` is a negative integer. -/
  | negativeCount (name what : String)
  /-- The factorial of a negative integer was asked for. -/
  | negativeFactorial
  /-- The square root of a negative integer was asked for. -/
  | negativeSquareRoot
  /-- Two points have different numbers of coordinates. -/
  | dimensionMismatch
  /-- A tolerance is negative. -/
  | negativeTolerance
  /-- A step of a machine has no result, and nothing asked beforehand. -/
  | trap (cause : Trap)
  /-- A host procedure failed, in its own words. -/
  | host (words : String)
deriving DecidableEq

/-- The wording of a fault. -/
def Fault.message : Fault → String
  | overflow operation => "Integer overflow in " ++ operation
  | divisionByZero => "division by zero"
  | firstOfEmpty => "car of empty list"
  | zeroToNegativePower => "0 cannot be raised to a negative power"
  | notAnInteger name x => name ++ ": cannot convert float " ++ floatText "nan" x ++ " to integer"
  | emptySequence name => name ++ ": empty sequence"
  | domain name => name ++ ": math domain error"
  | range name => name ++ ": math range error"
  | negativeCount name what => name ++ ": " ++ what ++ " must be a non-negative integer"
  | negativeFactorial => "factorial() not defined for negative values"
  | negativeSquareRoot => "isqrt() argument must be nonnegative"
  | dimensionMismatch => "dist: both points must have the same number of dimensions"
  | negativeTolerance => "isclose: tolerances must be non-negative"
  | trap cause => cause.message
  | host words => words

/-! ## All errors -/

/-- Why reading or evaluation ended without a value. -/
inductive Error where
  | read (cause : ReadError)
  /-- A symbol without a binding was evaluated. -/
  | unbound (name : String)
  /-- Something that prints as `shown` and is no procedure was applied. -/
  | notCallable (shown : String)
  /-- The procedure `name` was given `count` arguments. -/
  | arity (name : String) (expected : Arity) (count : Nat)
  | type (cause : TypeError)
  | fault (cause : Fault)
  /-- Evaluation was nested deeper than the limit allows. -/
  | depth (limit : Nat)
deriving DecidableEq

/-- The text that is shown for an error. -/
def Error.message : Error → String
  | read cause => "ParseError: " ++ cause.message
  | unbound name => "Unbound symbol: " ++ name
  | notCallable shown => "Not callable: " ++ shown
  | arity name expected count =>
    "ArityError: " ++ name ++ " expected " ++ expected.text ++ s!" arguments, got {count}"
  | type cause => "Type error: " ++ cause.message
  | fault cause => "EvaluationError: " ++ cause.message
  | depth limit => s!"Evaluation depth limit exceeded (max: {limit})"

theorem ok_bind {α β : Type} (a : α) (next : α → Except Error β) :
    (Except.ok a >>= next) = next a := rfl

/-- Fails unless `count` arguments are acceptable to the procedure `name`. -/
def Arity.check (arity : Arity) (name : String) (count : Nat) : Except Error Unit :=
  if arity.accepts count then .ok () else .error (.arity name arity count)

end FlatLisp
