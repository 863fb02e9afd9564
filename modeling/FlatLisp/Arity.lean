/-
FlatLisp.Arity — how many arguments a procedure takes.
-/
namespace FlatLisp

/-- A set of argument counts. -/
inductive Arity where
  | exact (n : Nat)
  | atLeast (n : Nat)
  | range (lo hi : Nat)
  | any
deriving DecidableEq, Repr, Inhabited

namespace Arity

/-- Whether a count of arguments is in the set. -/
def accepts : Arity → Nat → Bool
  | exact n, count => count == n
  | atLeast n, count => n ≤ count
  | range lo hi, count => lo ≤ count && count ≤ hi
  | any, _ => true

/-- The wording that goes in front of `arguments`. -/
def text : Arity → String
  | exact n => s!"{n}"
  | atLeast n => s!"at least {n}"
  | range lo hi => s!"{lo} to {hi}"
  | any => "any number of"

end Arity

end FlatLisp
