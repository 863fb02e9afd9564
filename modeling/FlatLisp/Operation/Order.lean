/-
FlatLisp.Operation.Order — comparisons and extremes.

A comparison of several numbers looks at neighbours only. A search for an
extreme keeps the first number that no later one improves on, so of equal
candidates the first is found.
-/
import FlatLisp.Operation.Arguments
import FlatLisp.Machine

namespace FlatLisp

/-- The relation that a comparison stands for. -/
def Comparison.holds : Comparison → Number → Number → Bool
  | greater, a, b => b.less a
  | less, a, b => a.less b
  | greaterEqual, a, b => b.lessEqual a
  | lessEqual, a, b => a.lessEqual b
  | equal, a, b => a.equal b

/-- Whether `candidate` takes the place of the best number so far. -/
def Extreme.improves : Extreme → (candidate best : Number) → Bool
  | max, candidate, best => best.less candidate
  | min, candidate, best => candidate.less best

/-- The first number that no later one improves on, among `best` and the
numbers after it. -/
def Extreme.search (e : Extreme) (best : Number) (rest : List Number) : Number :=
  rest.foldl (fun best n => if e.improves n best then n else best) best

namespace Operation

variable {H : Type}

/-- All runs of `size` successive items. -/
def windows {α : Type} (size : Nat) : List α → List (List α)
  | [] => []
  | x :: xs =>
    let window := (x :: xs).take size
    if window.length = size then window :: windows size xs else []

/-- Whether a relation holds between the first two of several items. -/
def holdsInPair {α : Type} (holds : α → α → Bool) (pair : List α) : Except Error Bool := do
  let a ← Machine.item pair 0
  let b ← Machine.item pair 1
  return holds a b

/-- Whether each argument stands in the relation to the next. -/
def evalComparison (c : Comparison) (args : List (Value H)) : Except Error (Value H) := do
  let ns ← numberArgs c.name args
  return .bool (← (windows 2 ns).allM (holdsInPair c.holds))

/-- What an extreme is searched in: the items of a list that is the only
argument, else the arguments. -/
def candidates : List (Value H) → List (Value H)
  | [.list items] => items
  | args => args

/-- An extreme candidate. -/
def evalExtreme (e : Extreme) (args : List (Value H)) : Except Error (Value H) := do
  match ← numberArgs e.name (candidates args) with
  | [] => .error (.fault (.emptySequence e.name))
  | first :: others => return .number (e.search first others)

end Operation

end FlatLisp
