/-
FlatLisp.Limit — bounds on nesting.

Reading counts the lists that are open, evaluation counts the expressions
that it is inside of. Neither is bounded unless a limit is given.
-/
namespace FlatLisp

/-- The number of levels that are allowed, or no bound. -/
abbrev Limit := Option Nat

namespace Limit

/-- The bound, once that many levels are in use. -/
def reached? (limit : Limit) (depth : Nat) : Option Nat :=
  limit.filter (· ≤ depth)

/-- The bound for hosts that want one and have no reason to choose. -/
def default : Limit := some 512

@[simp] theorem reached?_none (depth : Nat) : reached? none depth = none := rfl

@[simp] theorem reached?_some (most depth : Nat) :
    reached? (some most) depth = if most ≤ depth then some most else none := by
  simp [reached?, Option.filter]

theorem reached?_some_eq_none_iff {most depth : Nat} :
    reached? (some most) depth = none ↔ depth < most := by
  simp

end Limit

end FlatLisp
