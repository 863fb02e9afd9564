/-
FlatLisp.Eval — the value of an expression.

A number is its own value and a symbol has the value it is bound to. The
empty list is its own value. `if` and `define` at the head of a list are
keywords, whatever they may be bound to; every other list is a call, whose
head and arguments are evaluated from left to right. A depth counter says how
many expressions the evaluation is inside of.
-/
import FlatLisp.Call
import FlatLisp.Expr.Read
import FlatLisp.Run

namespace FlatLisp

/-- What the head of a list can say besides naming a procedure. -/
inductive Keyword where
  | conditional
  | definition
deriving DecidableEq, Repr

/-- The keyword at the head of a list. -/
def Expr.keyword? : Expr → Option Keyword
  | atom (.symbol "if") => some .conditional
  | atom (.symbol "define") => some .definition
  | _ => none

namespace Expr

variable {H : Type}

mutual

/-- Evaluates an expression inside `depth` others. -/
def evalAt [Host H] (limit : Limit) (depth : Nat) (e : Expr) (env : Environment H) :
    Run H (Value H) :=
  match limit.reached? depth with
  | some most => .error env (.depth most)
  | none =>
    match e with
    | atom (.number n) => .ok env (.number n)
    | atom (.symbol name) =>
      match env.get? name with
      | some v => .ok env v
      | none => .error env (.unbound name)
    | list items => evalForm limit depth items env

/-- Evaluates the list of the given items. -/
def evalForm [Host H] (limit : Limit) (depth : Nat) (items : List Expr) (env : Environment H) :
    Run H (Value H) :=
  match items with
  | [] => .ok env (.list [])
  | head :: operands =>
    match head.keyword? with
    | some .conditional =>
      match operands with
      | [test, consequent, alternative] =>
        (evalAt limit (depth + 1) test env).andThen fun v env =>
          if v.isTruthy then evalAt limit (depth + 1) consequent env
          else evalAt limit (depth + 1) alternative env
      | _ => .error env (.arity "if" (.exact 3) operands.length)
    | some .definition =>
      match operands with
      | [target, body] =>
        match target.symbol? with
        | some name => (evalAt limit (depth + 1) body env).andThen fun v env => .define env name v
        | none => .error env (.type (.targetNotSymbol target.text))
      | _ => .error env (.arity "define" (.exact 2) operands.length)
    | none =>
      (evalAt limit (depth + 1) head env).andThen fun f env =>
        (evalEach limit (depth + 1) operands env).andThen fun args env =>
          .ofReply env (f.call args)

/-- Evaluates expressions from left to right. -/
def evalEach [Host H] (limit : Limit) (depth : Nat) (es : List Expr) (env : Environment H) :
    Run H (List (Value H)) :=
  match es with
  | [] => .ok env []
  | e :: es =>
    (evalAt limit depth e env).andThen fun v env =>
      (evalEach limit depth es env).andThen fun vs env => .ok env (v :: vs)

end

/-! ### Equations

Evaluation below the limit, one equation for each form of expression. -/

section

variable [Host H] {limit : Limit} {depth : Nat}

theorem evalAt_of_reached {most : Nat} (h : limit.reached? depth = some most) (e : Expr)
    (env : Environment H) : evalAt limit depth e env = .error env (.depth most) := by
  unfold evalAt
  rw [h]

theorem evalAt_number (h : limit.reached? depth = none) (n : Number) (env : Environment H) :
    evalAt limit depth (.number n) env = .ok env (.number n) := by
  simp [evalAt, h]

theorem evalAt_symbol (h : limit.reached? depth = none) (name : String) (env : Environment H) :
    evalAt limit depth (.symbol name) env =
      match env.get? name with
      | some v => .ok env v
      | none => .error env (.unbound name) := by
  simp [evalAt, h]

theorem evalAt_list (h : limit.reached? depth = none) (items : List Expr)
    (env : Environment H) :
    evalAt limit depth (.list items) env = evalForm limit depth items env := by
  simp [evalAt, h]

@[simp] theorem evalForm_nil (env : Environment H) :
    evalForm limit depth [] env = .ok env (.list []) := by
  simp [evalForm]

theorem evalForm_if (test consequent alternative : Expr) (env : Environment H) :
    evalForm limit depth [.symbol "if", test, consequent, alternative] env =
      (evalAt limit (depth + 1) test env).andThen fun v env =>
        if v.isTruthy then evalAt limit (depth + 1) consequent env
        else evalAt limit (depth + 1) alternative env := by
  simp [evalForm, keyword?]

theorem evalForm_define (name : String) (body : Expr) (env : Environment H) :
    evalForm limit depth [.symbol "define", .symbol name, body] env =
      (evalAt limit (depth + 1) body env).andThen fun v env => .define env name v := by
  simp [evalForm, keyword?, symbol?]

theorem evalForm_call {head : Expr} (h : head.keyword? = none) (operands : List Expr)
    (env : Environment H) :
    evalForm limit depth (head :: operands) env =
      (evalAt limit (depth + 1) head env).andThen fun f env =>
        (evalEach limit (depth + 1) operands env).andThen fun args env =>
          .ofReply env (f.call args) := by
  unfold evalForm
  rw [h]

@[simp] theorem evalEach_nil (env : Environment H) :
    evalEach limit depth [] env = .ok env [] := by
  simp [evalEach]

theorem evalEach_cons (e : Expr) (es : List Expr) (env : Environment H) :
    evalEach limit depth (e :: es) env =
      (evalAt limit depth e env).andThen fun v env =>
        (evalEach limit depth es env).andThen fun vs env => .ok env (v :: vs) := by
  simp [evalEach]

end

/-- The value of an expression, within a bound on the depth of evaluation. -/
def evalWithin [Host H] (limit : Limit) (e : Expr) (env : Environment H) : Run H (Value H) :=
  evalAt limit 0 e env

/-- The value of an expression. -/
def eval [Host H] (e : Expr) (env : Environment H) : Run H (Value H) :=
  evalWithin none e env

end Expr

variable {H : Type} [Host H]

/-- Reads the one expression of a source text and evaluates it. -/
def evalSource (options : ReadOptions) (limit : Limit) (source : String) (env : Environment H) :
    Run H (Value H) :=
  match Expr.parseWith options source with
  | .error cause => .error env (.read cause)
  | .ok e => e.evalWithin limit env

/-- Reads and evaluates a source text with the usual options. -/
def run (source : String) (env : Environment H) : Run H (Value H) :=
  evalSource {} none source env

end FlatLisp
