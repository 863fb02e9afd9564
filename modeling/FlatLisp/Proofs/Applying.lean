/-
FlatLisp.Proofs.Applying — `apply` with a list of arguments is the call itself.

`(apply f (list a b))` is two calls inside of one another and `(f a b)` is one,
but what they do in order is the same: `f` is looked up, then the arguments are
evaluated from left to right, then the value of `f` is called. What lies in
between only looks up `apply` and `list`, both before any argument can bind
them to something else, and hands the values on (`call_list`, `call_apply`).
-/
import FlatLisp.Proofs.Sequencing

namespace FlatLisp

section

variable {H : Type} [Host H]

/-- `list` answers with its arguments. -/
theorem call_list (serial : Nat) (name : String) (args : List (Value H)) :
    (Value.builtin serial name (.operation .list)).call args = .ok (.list args) := by
  rw [Value.call_builtin, if_pos (by simp [Builtin.arity, Operation.arity, Arity.accepts]),
    Builtin.body_operation]
  rfl

/-- `apply` calls its first argument with the items of the second. -/
theorem call_apply (serial : Nat) (name : String) (f : Value H) (items : List (Value H)) :
    (Value.builtin serial name .apply).call [f, .list items] = f.call items := by
  rw [Value.call_builtin, if_pos (by simp [Builtin.arity, Arity.accepts]), Builtin.body_apply]

namespace Expr

/-- The call of the procedure that `f` names, by `apply` and a list of the arguments. -/
def throughApply (f : String) (args : List Expr) : Expr :=
  list [symbol "apply", symbol f, list (symbol "list" :: args)]

theorem evalAt_of_get? {depth : Nat} {name : String} {env : Environment H} {v : Value H}
    (h : env.get? name = some v) : evalAt none depth (symbol name) env = .ok env v := by
  rw [evalAt_symbol (Limit.reached?_none depth), h]

/-- The values of the arguments become the list that `apply` takes apart. -/
theorem evalAt_list_call {serial : Nat} {name : String} {env : Environment H}
    (hlist : env.get? "list" = some (.builtin serial name (.operation .list))) (depth : Nat)
    (args : List Expr) :
    evalAt none depth (list (symbol "list" :: args)) env =
      (evalEach none 1 args env).andThen fun vs env => .ok env (.list vs) := by
  have heach : ∀ env : Environment H,
      evalEach none (depth + 1) args env = evalEach none 1 args env :=
    evalEach_congr fun e _ env => by rw [evalAt_none, evalAt_none]
  rw [evalAt_list (Limit.reached?_none depth), evalForm_call rfl, evalAt_of_get? hlist,
    Run.ok_andThen, heach]
  simp only [call_list]
  rfl

/-- **Calling through `apply` is calling.** In an environment that binds `apply`
and `list` to the builtins, under whatever identities and names, a call by
`apply` with a list of arguments is the same run as the direct call: the same
outcome, environment and effects. The name that is called may be unbound or
bound to no procedure, and the arguments may fail or redefine any of the three
names. -/
theorem call_through_apply_eq_call {env : Environment H} {serial serial' : Nat}
    {name name' : String} (happly : env.get? "apply" = some (.builtin serial name .apply))
    (hlist : env.get? "list" = some (.builtin serial' name' (.operation .list))) {f : String}
    (hif : f ≠ "if") (hdefine : f ≠ "define") (args : List Expr) :
    eval (throughApply f args) env = eval (list (symbol f :: args)) env := by
  have hk : (symbol f).keyword? = none := by
    unfold keyword?
    split <;> simp_all
  rw [throughApply, ← evalAt_none _ 0, ← evalAt_none _ 0, evalAt_list (Limit.reached?_none 0),
    evalAt_list (Limit.reached?_none 0), evalForm_call rfl, evalForm_call hk,
    evalAt_of_get? happly, Run.ok_andThen, evalEach_cons, evalAt_symbol (Limit.reached?_none _)]
  cases hf : env.get? f with
  | none => rfl
  | some v =>
    -- both look up the name that is called before they evaluate an argument
    rw [Run.ok_andThen, Run.ok_andThen, evalEach_cons, evalAt_list_call hlist]
    simp only [Run.andThen_assoc, Run.ok_andThen, evalEach_nil, call_apply]

/-- The name that is called is not bound to a procedure, and the argument redefines all
three names. -/
theorem call_through_apply_eq_call_redefining :
    let env : Environment Empty := ((Environment.empty.define "apply"
      (.builtin 0 "apply" .apply)).define "list" (.builtin 1 "list" (.operation .list))).define
        "f" (.number (.int 7))
    let args := [list [symbol "define", symbol "f", list [symbol "define", symbol "list",
      list [symbol "define", symbol "apply", number (.int 0)]]]]
    env.get? "apply" = some (.builtin 0 "apply" .apply) ∧
    env.get? "list" = some (.builtin 1 "list" (.operation .list)) ∧
    eval (throughApply "f" args) env = eval (list (symbol "f" :: args)) env := by
  intro env args
  have happly : env.get? "apply" = some (.builtin 0 "apply" .apply) := by
    simp [env, Environment.get?_define]
  have hlist : env.get? "list" = some (.builtin 1 "list" (.operation .list)) := by
    simp [env, Environment.get?_define]
  exact ⟨happly, hlist, call_through_apply_eq_call happly hlist (by decide) (by decide) args⟩

end Expr

end

end FlatLisp
