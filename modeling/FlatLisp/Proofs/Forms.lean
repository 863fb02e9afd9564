/-
FlatLisp.Proofs.Forms — the forms that evaluation tells apart, and the trace
that it leaves.

A list is empty, a well-formed `if` or `define`, a keyword with operands that
do not fit it, or a call. `formView` splits a list into these cases, so a
proof about evaluation goes over the five of them and never opens
`evalForm`. `env_evalAt` says that the effects of a run account for all that
it did to the environment: `replay` of them, in order, gives the environment
that the run left, whether it ended with a value or an error.
-/
import FlatLisp.Eval

namespace FlatLisp

/-- The symbol that is the keyword at the head of a list. -/
def Keyword.spelling : Keyword → String
  | conditional => "if"
  | definition => "define"

namespace Expr

/-! ## Operands -/

/-- Operands are evaluated from left to right. -/
theorem evalEach_append {H : Type} [Host H] {limit : Limit} {depth : Nat} (es fs : List Expr)
    (env : Environment H) :
    evalEach limit depth (es ++ fs) env =
      (evalEach limit depth es env).andThen fun vs env =>
        (evalEach limit depth fs env).andThen fun ws env => .ok env (vs ++ ws) := by
  induction es generalizing env with
  | nil => simp
  | cons e es ih =>
    simp only [List.cons_append, evalEach_cons, ih, Run.andThen_assoc, Run.ok_andThen]

/-- Operands that have the same values each have the same values together. -/
theorem evalEach_congr {H : Type} [Host H] {limit limit' : Limit} {depth depth' : Nat}
    {es : List Expr}
    (h : ∀ e ∈ es, ∀ env : Environment H, evalAt limit depth e env = evalAt limit' depth' e env) :
    ∀ env : Environment H, evalEach limit depth es env = evalEach limit' depth' es env := by
  induction es with
  | nil =>
    intro env
    rw [evalEach_nil, evalEach_nil]
  | cons e es ih =>
    intro env
    have hes := ih fun f hf => h f (List.mem_cons_of_mem e hf)
    simp only [evalEach_cons, h e List.mem_cons_self, hes]

/-! ## Ill-formed keywords -/

/-- What is wrong with a list that has a keyword at its head and operands that
do not fit it. -/
def formError? : List Expr → Option Error
  | [] => none
  | head :: operands =>
    match head.keyword?, operands with
    | some .conditional, [_, _, _] => none
    | some .conditional, _ => some (.arity "if" (.exact 3) operands.length)
    | some .definition, [target, _] =>
      match target.symbol? with
      | some _ => none
      | none => some (.type (.targetNotSymbol target.text))
    | some .definition, _ => some (.arity "define" (.exact 2) operands.length)
    | none, _ => none

section

variable {H : Type} [Host H] {limit : Limit} {depth : Nat}

/-- Nothing of an ill-formed list is evaluated. -/
theorem evalForm_of_formError {items : List Expr} {cause : Error}
    (h : formError? items = some cause) (env : Environment H) :
    evalForm limit depth items env = .error env cause := by
  cases items with
  | nil => simp [formError?] at h
  | cons head operands =>
    unfold evalForm
    cases hk : head.keyword? with
    | none => simp [formError?, hk] at h
    | some k =>
      cases k with
      | conditional =>
        rcases operands with _ | ⟨a, _ | ⟨b, _ | ⟨c, _ | ⟨d, rest⟩⟩⟩⟩ <;>
          simp_all [formError?]
      | definition =>
        rcases operands with _ | ⟨target, _ | ⟨body, _ | ⟨c, rest⟩⟩⟩
        case cons.cons.nil =>
          cases ht : target.symbol? <;> simp_all [formError?]
        all_goals simp_all [formError?]

end

/-! ## The forms of a list -/

/-- The five things that a list can be. -/
inductive FormView : List Expr → Prop
  | empty : FormView []
  | conditional (test consequent alternative : Expr) :
      FormView [symbol "if", test, consequent, alternative]
  | definition (name : String) (body : Expr) :
      FormView [symbol "define", symbol name, body]
  | illFormed {items : List Expr} {cause : Error} (h : formError? items = some cause) :
      FormView items
  | call {head : Expr} (h : head.keyword? = none) (operands : List Expr) :
      FormView (head :: operands)

theorem eq_symbol_of_keyword? {head : Expr} {k : Keyword} (h : head.keyword? = some k) :
    head = symbol k.spelling := by
  unfold keyword? at h
  split at h
  · cases h; rfl
  · cases h; rfl
  · cases h

theorem eq_symbol_of_symbol? {target : Expr} {name : String} (h : target.symbol? = some name) :
    target = symbol name := by
  unfold symbol? at h
  split at h
  · cases h; rfl
  · cases h

/-- Every list is one of the five. -/
theorem formView (items : List Expr) : FormView items := by
  cases items with
  | nil => exact .empty
  | cons head operands =>
    cases hk : head.keyword? with
    | none => exact .call hk operands
    | some k =>
      cases he : formError? (head :: operands) with
      | some cause => exact .illFormed he
      | none =>
        obtain rfl := eq_symbol_of_keyword? hk
        cases k with
        | conditional =>
          match operands, he with
          | [test, consequent, alternative], _ =>
            exact .conditional test consequent alternative
        | definition =>
          match operands, he with
          | [target, body], he =>
            cases ht : target.symbol? with
            | none => simp [formError?, hk, ht] at he
            | some name =>
              obtain rfl := eq_symbol_of_symbol? ht
              exact .definition name body

/-- Induction on an expression by the forms that evaluation tells apart. An
ill-formed list needs no hypotheses, as nothing of it is evaluated. -/
@[elab_as_elim]
theorem inductionOnForms {motive : Expr → Prop}
    (number : ∀ n, motive (.number n))
    (symbol : ∀ name, motive (.symbol name))
    (empty : motive (.list []))
    (conditional : ∀ test consequent alternative, motive test → motive consequent →
      motive alternative → motive (.list [.symbol "if", test, consequent, alternative]))
    (definition : ∀ name body, motive body →
      motive (.list [.symbol "define", .symbol name, body]))
    (illFormed : ∀ items cause, formError? items = some cause → motive (.list items))
    (call : ∀ head operands, head.keyword? = none → motive head →
      (∀ e ∈ operands, motive e) → motive (.list (head :: operands))) (e : Expr) : motive e := by
  have smaller : ∀ {items : List Expr} {f : Expr}, f ∈ items →
      sizeOf f < sizeOf (Expr.list items) := by
    intro items f hf
    have := List.sizeOf_lt_of_mem hf
    simp only [list.sizeOf_spec]
    omega
  have go : ∀ f, sizeOf f < sizeOf e → motive f := fun f _ =>
    inductionOnForms number symbol empty conditional definition illFormed call f
  match e with
  | .atom (.number n) => exact number n
  | .atom (.symbol name) => exact symbol name
  | .list items =>
    cases formView items with
    | empty => exact empty
    | conditional test consequent alternative =>
      exact conditional _ _ _ (go _ (smaller (by simp))) (go _ (smaller (by simp)))
        (go _ (smaller (by simp)))
    | definition name body => exact definition _ _ (go _ (smaller (by simp)))
    | illFormed h => exact illFormed _ _ h
    | @call head h operands =>
      refine call _ _ h (go _ (smaller List.mem_cons_self)) ?_
      intro f hf
      exact go _ (smaller (List.mem_cons_of_mem head hf))
termination_by sizeOf e

end Expr

/-! ## Effects and the environment -/

section

variable {H α β : Type}

/-- The environment after an effect: only definitions change it. -/
def Effect.apply (env : Environment H) : Effect H → Environment H
  | defined name value => env.define name value
  | printed _ => env

/-- The environment after several effects, first one first. -/
def Environment.replay (env : Environment H) (effects : List (Effect H)) : Environment H :=
  effects.foldl Effect.apply env

theorem Environment.replay_append (env : Environment H) (xs ys : List (Effect H)) :
    env.replay (xs ++ ys) = (env.replay xs).replay ys :=
  List.foldl_append

theorem Environment.replay_printed (env : Environment H) (lines : List String) :
    env.replay (lines.map .printed) = env := by
  induction lines with
  | nil => rfl
  | cons line lines ih => exact ih

/-- The effects of the run, from `env` on, give the environment that it left. -/
def Run.AccountsFrom (env : Environment H) (r : Run H α) : Prop :=
  r.env = env.replay r.effects

theorem Run.AccountsFrom.env_eq {env env' : Environment H} {r : Run H α}
    {outcome : Except Error α} {effects : List (Effect H)} (h : r.AccountsFrom env)
    (hr : r = ⟨outcome, env', effects⟩) : env' = env.replay effects := by
  subst hr
  exact h

theorem Run.AccountsFrom.andThen {env : Environment H} {r : Run H α}
    {next : α → Environment H → Run H β} (h : r.AccountsFrom env)
    (hnext : ∀ a env', (next a env').AccountsFrom env') :
    (r.andThen next).AccountsFrom env := by
  obtain ⟨outcome, env', effects⟩ := r
  cases outcome with
  | error cause => exact h
  | ok a =>
    show (next a env').env = env.replay (effects ++ (next a env').effects)
    rw [Environment.replay_append, ← (h : env' = env.replay effects)]
    exact hnext a env'

end

namespace Expr

section

variable {H : Type} [Host H]

mutual

/-- The effects of an evaluation account for the environment that it left. -/
theorem env_evalAt (limit : Limit) (depth : Nat) (e : Expr) (env : Environment H) :
    (evalAt limit depth e env).AccountsFrom env := by
  cases hr : limit.reached? depth with
  | some most =>
    rw [evalAt_of_reached hr]
    exact rfl
  | none =>
    match e with
    | .atom (.number n) =>
      rw [evalAt_number hr]
      exact rfl
    | .atom (.symbol name) =>
      rw [evalAt_symbol hr]
      split <;> exact rfl
    | .list items =>
      rw [evalAt_list hr]
      exact env_evalForm limit depth items env
termination_by sizeOf e

theorem env_evalForm (limit : Limit) (depth : Nat) (items : List Expr) (env : Environment H) :
    (evalForm limit depth items env).AccountsFrom env := by
  cases formView items with
  | empty =>
    rw [evalForm_nil]
    exact rfl
  | conditional test consequent alternative =>
    rw [evalForm_if]
    refine (env_evalAt limit _ test env).andThen fun v env' => ?_
    split
    · exact env_evalAt limit _ consequent env'
    · exact env_evalAt limit _ alternative env'
  | definition name body =>
    rw [evalForm_define]
    exact (env_evalAt limit _ body env).andThen fun v env' => rfl
  | illFormed h =>
    rw [evalForm_of_formError h]
    exact rfl
  | @call head h operands =>
    rw [evalForm_call h]
    refine (env_evalAt limit _ head env).andThen fun f env' => ?_
    refine (env_evalEach limit _ operands env').andThen fun args env'' => ?_
    exact (Environment.replay_printed env'' (f.call args).printed).symm
termination_by sizeOf items

theorem env_evalEach (limit : Limit) (depth : Nat) (es : List Expr) (env : Environment H) :
    (evalEach limit depth es env).AccountsFrom env := by
  match es with
  | [] =>
    rw [evalEach_nil]
    exact rfl
  | e :: es =>
    rw [evalEach_cons]
    refine (env_evalAt limit _ e env).andThen fun v env' => ?_
    exact (env_evalEach limit _ es env').andThen fun vs env'' => rfl
termination_by sizeOf es

end

end

end Expr

end FlatLisp
