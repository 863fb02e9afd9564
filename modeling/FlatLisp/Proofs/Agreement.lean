/-
FlatLisp.Proofs.Agreement — evaluation reads no names but those that the
expression mentions.

Two environments agree on some names if they bind each of them to the same
value or not at all. Evaluations that start from environments which agree on
all mentioned names run alike: they end in the same way after the same
effects, and the environments that they leave agree on these names again
(`Run.Agrees`). Completing the same definition, or going on in the same way,
keeps this, so it is an induction over the forms of the expression. A keyword
at the head of a list is not mentioned, so what `if` and `define` are bound to
plays no part.
-/
import FlatLisp.Proofs.Tasks

namespace FlatLisp

variable {H : Type}

/-! ## Agreement of environments -/

/-- Two environments bind each of the names to the same value, or both do
not bind it. -/
def Environment.AgreeOn (names : List String) (a b : Environment H) : Prop :=
  ∀ name ∈ names, a.get? name = b.get? name

theorem Environment.AgreeOn.define {names : List String} {a b : Environment H}
    (h : a.AgreeOn names b) (name : String) (v : Value H) :
    (a.define name v).AgreeOn names (b.define name v) := by
  intro other hother
  rw [get?_define, get?_define, h other hother]

/-- A name outside of the list may be bound to anything. -/
theorem Environment.agreeOn_define {names : List String} {name : String} (h : name ∉ names)
    (env : Environment H) (v : Value H) : (env.define name v).AgreeOn names env := by
  intro other hother
  have hne : name ≠ other := by
    rintro rfl
    exact h hother
  rw [get?_define, if_neg hne]

/-! ## Agreement of runs -/

/-- Two runs end in the same way after the same effects, and leave
environments that agree on the names. -/
structure Run.Agrees {α : Type} (names : List String) (r s : Run H α) : Prop where
  outcome : r.outcome = s.outcome
  effects : r.effects = s.effects
  env : r.env.AgreeOn names s.env

namespace Run

variable {α β : Type} {names : List String}

theorem Agrees.ok {env env' : Environment H} (h : env.AgreeOn names env') (a : α) :
    (Run.ok env a).Agrees names (Run.ok env' a) :=
  ⟨rfl, rfl, h⟩

theorem Agrees.error {env env' : Environment H} (h : env.AgreeOn names env') (cause : Error) :
    (Run.error env cause : Run H α).Agrees names (Run.error env' cause) :=
  ⟨rfl, rfl, h⟩

theorem Agrees.define {env env' : Environment H} (h : env.AgreeOn names env') (name : String)
    (v : Value H) : (Run.define env name v).Agrees names (Run.define env' name v) :=
  ⟨rfl, rfl, h.define name v⟩

theorem Agrees.ofReply {env env' : Environment H} (h : env.AgreeOn names env')
    (reply : Reply α) : (Run.ofReply env reply).Agrees names (Run.ofReply env' reply) :=
  ⟨rfl, rfl, h⟩

/-- Going on in the same way keeps agreement. -/
theorem Agrees.andThen {r s : Run H α} {next : α → Environment H → Run H β}
    (h : r.Agrees names s)
    (hnext : ∀ a env env', env.AgreeOn names env' → (next a env).Agrees names (next a env')) :
    (r.andThen next).Agrees names (s.andThen next) := by
  obtain ⟨outcome, env, effects⟩ := r
  obtain ⟨outcome', env', effects'⟩ := s
  obtain ⟨hout, heff, henv⟩ := h
  obtain rfl : outcome = outcome' := hout
  obtain rfl : effects = effects' := heff
  cases outcome with
  | error cause => exact ⟨rfl, rfl, henv⟩
  | ok a =>
    obtain ⟨hout, heff, henv⟩ := hnext a env env' henv
    exact ⟨hout, congrArg (effects ++ ·) heff, henv⟩

end Run

/-! ## Agreement of evaluations -/

namespace Expr

variable [Host H] {limit : Limit} {names : List String}

open Run (Agrees)
open Environment (AgreeOn)

theorem evalEach_agrees {es : List Expr}
    (h : ∀ e ∈ es, ∀ depth (env env' : Environment H), env.AgreeOn names env' →
      (evalAt limit depth e env).Agrees names (evalAt limit depth e env')) (depth : Nat) :
    ∀ env env' : Environment H, env.AgreeOn names env' →
      (evalEach limit depth es env).Agrees names (evalEach limit depth es env') := by
  induction es with
  | nil =>
    intro env env' henv
    rw [evalEach_nil, evalEach_nil]
    exact .ok henv []
  | cons e es ih =>
    intro env env' henv
    rw [evalEach_cons, evalEach_cons]
    refine (h e List.mem_cons_self depth env env' henv).andThen ?_
    intro v env env' henv
    refine (ih (fun f hf => h f (List.mem_cons_of_mem e hf)) env env' henv).andThen ?_
    intro vs env env' henv
    exact .ok henv (v :: vs)

/-- At the limit there is nothing to show. -/
theorem agrees_of_unreached {e : Expr} {depth : Nat} {env env' : Environment H}
    (henv : env.AgreeOn names env')
    (h : limit.reached? depth = none →
      (evalAt limit depth e env).Agrees names (evalAt limit depth e env')) :
    (evalAt limit depth e env).Agrees names (evalAt limit depth e env') := by
  cases hr : limit.reached? depth with
  | none => exact h hr
  | some most =>
    rw [evalAt_of_reached hr, evalAt_of_reached hr]
    exact .error henv (.depth most)

/-- Evaluations of one expression agree if the environments do on what it
mentions. -/
theorem evalAt_agrees (e : Expr) : e.mentioned ⊆ names →
    ∀ depth (env env' : Environment H), env.AgreeOn names env' →
      (evalAt limit depth e env).Agrees names (evalAt limit depth e env') := by
  induction e using inductionOnForms with
  | number n =>
    intro _ depth env env' henv
    refine agrees_of_unreached henv fun hr => ?_
    rw [evalAt_number hr, evalAt_number hr]
    exact .ok henv _
  | symbol name =>
    intro hsub depth env env' henv
    refine agrees_of_unreached henv fun hr => ?_
    -- the only place where the environment is read
    rw [evalAt_symbol hr, evalAt_symbol hr, henv name (hsub (by simp))]
    split
    · exact .ok henv _
    · exact .error henv _
  | empty =>
    intro _ depth env env' henv
    refine agrees_of_unreached henv fun hr => ?_
    rw [evalAt_list hr, evalAt_list hr, evalForm_nil, evalForm_nil]
    exact .ok henv _
  | conditional test consequent alternative ihtest ihconsequent ihalternative =>
    intro hsub depth env env' henv
    refine agrees_of_unreached henv fun hr => ?_
    rw [evalAt_list hr, evalAt_list hr, evalForm_if, evalForm_if]
    have hitem : ∀ e ∈ [test, consequent, alternative], e.mentioned ⊆ names :=
      fun e he => List.Subset.trans (mentioned_operand_subset _ he) hsub
    refine (ihtest (hitem test (by simp)) _ env env' henv).andThen ?_
    intro v env env' henv
    split
    · exact ihconsequent (hitem consequent (by simp)) _ env env' henv
    · exact ihalternative (hitem alternative (by simp)) _ env env' henv
  | definition name body ih =>
    intro hsub depth env env' henv
    refine agrees_of_unreached henv fun hr => ?_
    rw [evalAt_list hr, evalAt_list hr, evalForm_define, evalForm_define]
    have hitem : body ∈ [symbol name, body] := by simp
    have hbody : body.mentioned ⊆ names :=
      List.Subset.trans (mentioned_operand_subset _ hitem) hsub
    refine (ih hbody _ env env' henv).andThen ?_
    intro v env env' henv
    exact .define henv name v
  | illFormed items cause hf =>
    intro _ depth env env' henv
    refine agrees_of_unreached henv fun hr => ?_
    rw [evalAt_list hr, evalAt_list hr, evalForm_of_formError hf, evalForm_of_formError hf]
    exact .error henv cause
  | call head operands hk ihhead ihoperands =>
    intro hsub depth env env' henv
    refine agrees_of_unreached henv fun hr => ?_
    rw [evalAt_list hr, evalAt_list hr, evalForm_call hk, evalForm_call hk]
    have hhead : head.mentioned ⊆ names :=
      List.Subset.trans (mentioned_head_subset hk operands) hsub
    refine (ihhead hhead _ env env' henv).andThen ?_
    intro f env env' henv
    have hoperands : ∀ e ∈ operands, e.mentioned ⊆ names :=
      fun e he => List.Subset.trans (mentioned_operand_subset head he) hsub
    refine (evalEach_agrees (fun e he => ihoperands e he (hoperands e he)) _ env env' henv).andThen
      ?_
    intro args env env' henv
    exact .ofReply henv (f.call args)

/-! ## What evaluation depends on -/

/-- **Evaluation depends on the mentioned names alone, and keywords cannot be
shadowed.** From environments that agree on all names that an expression
mentions it runs alike under any limit: same outcome, same effects, and
environments that agree on these names again; neither environment changes
where no definition in the expression has its target. So it makes no
difference what a keyword is bound to, unless the expression mentions it other
than at the head of a list. -/
theorem evaluation_depends_on_mentioned (limit : Limit) (e : Expr) :
    (∀ env env' : Environment H, env.AgreeOn e.mentioned env' →
      (evalWithin limit e env).Agrees e.mentioned (evalWithin limit e env') ∧
      (∀ name, name ∉ e.targets → (evalWithin limit e env).env.get? name = env.get? name) ∧
      (∀ name, name ∉ e.targets → (evalWithin limit e env').env.get? name = env'.get? name)) ∧
    (∀ (k : Keyword) (v : Value H) (env : Environment H), k.spelling ∉ e.mentioned →
      (evalWithin limit e (env.define k.spelling v)).outcome = (evalWithin limit e env).outcome ∧
      (evalWithin limit e (env.define k.spelling v)).effects
        = (evalWithin limit e env).effects) := by
  have runs_alike : ∀ env env' : Environment H, env.AgreeOn e.mentioned env' →
      (evalWithin limit e env).Agrees e.mentioned (evalWithin limit e env') :=
    evalAt_agrees e (List.Subset.refl _) 0
  refine ⟨?_, ?_⟩
  · intro env env' henv
    refine ⟨runs_alike env env' henv, ?_, ?_⟩
    · intro name hname
      exact get?_evalAt_of_not_mem_targets hname 0 env
    · intro name hname
      exact get?_evalAt_of_not_mem_targets hname 0 env'
  · intro k v env hk
    have hagree := runs_alike _ _ (Environment.agreeOn_define hk env v)
    exact ⟨hagree.outcome, hagree.effects⟩

end Expr

end FlatLisp
