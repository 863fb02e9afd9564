/-
FlatLisp.Operation.Lists — lists, sequencing, equality and kinds.
-/
import FlatLisp.Operation.Arguments

namespace FlatLisp

/-- Whether a value is of a kind. -/
def Kind.holds {H : Type} : Kind → Value H → Bool
  | list, .list _ => true
  | null, v => v.isNil
  | number, .number _ => true
  | procedure, v => v.isProcedure
  | symbol, .symbol _ => true
  | _, _ => false

namespace Operation

variable {H : Type}

/-! ## Lists -/

/-- The items of all lists in a row. -/
def evalAppend (args : List (Value H)) : Except Error (Value H) := do
  let lists ← args.mapM (listArg "append")
  return .list lists.flatten

/-- The first item of a list. -/
def evalCar (args : List (Value H)) : Except Error (Value H) := do
  match ← listArg "car" (← one "car" args) with
  | [] => .error (.fault .firstOfEmpty)
  | first :: _ => .ok first

/-- The list without its first item; that of the empty list is empty. -/
def evalCdr (args : List (Value H)) : Except Error (Value H) := do
  let items ← listArg "cdr" (← one "cdr" args)
  return .list items.tail

/-- A list with one more item in front. -/
def evalCons (args : List (Value H)) : Except Error (Value H) := do
  let (first, rest) ← two "cons" args
  let items ← listArg "cons" rest
  return .list (first :: items)

/-- The number of items of a list. -/
def evalLength (args : List (Value H)) : Except Error (Value H) := do
  let items ← listArg "length" (← one "length" args)
  return .number (← Number.exact "length" items.length)

/-! ## Sequencing -/

/-- The last argument. -/
def evalBegin (args : List (Value H)) : Except Error (Value H) :=
  match args.getLast? with
  | some v => .ok v
  | none => .error (.arity "begin" (.atLeast 1) 0)

/-! ## Equality and kinds -/

/-- Whether two values are identical. -/
def evalIdentical (args : List (Value H)) : Except Error (Value H) := do
  let (v, w) ← two "eq?" args
  return .bool (v.identical w)

/-- Whether two values are equal. -/
def evalEqual (args : List (Value H)) : Except Error (Value H) := do
  let (v, w) ← two "equal?" args
  return .bool (v.equal w)

/-- Whether a value counts as false. -/
def evalNot (args : List (Value H)) : Except Error (Value H) := do
  let v ← one "not" args
  return .bool (!v.isTruthy)

/-- Whether a value is of a kind. -/
def evalKind (kind : Kind) (args : List (Value H)) : Except Error (Value H) := do
  let v ← one kind.name args
  return .bool (kind.holds v)

end Operation

end FlatLisp
