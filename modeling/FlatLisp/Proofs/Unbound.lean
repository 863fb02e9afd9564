/-
FlatLisp.Proofs.Unbound — which symbols can turn out to be unbound.

Evaluation looks a symbol up only where the symbol is evaluated. `evaluated`
lists these places, read off the expression alone: neither keywords at the head
of a list nor targets of definitions are among them, and nothing in a list whose
keyword does not fit its operands. Two facts bound the errors of an evaluation:

* what a call fails with says something about the call (`Calls.fails`), so with
  builtins as the only procedures a symbol without a binding is no error of a
  call;
* evaluation never unbinds a name (`evalAt_grows`), so a name that is found to
  be unbound was so from the start.

Errors of reading and of the depth limit are not among the errors of calls
either, and an unlimited evaluation makes none itself.
-/
import FlatLisp.Proofs.Failures
import FlatLisp.Proofs.Provenance
import FlatLisp.Proofs.Tasks

namespace FlatLisp

variable {H : Type}

/-! ## Errors of calls -/

/-- An error that says something about a call: its head, its arguments or
their number. -/
inductive Error.OfCall : Error → Prop
  | notCallable (shown : String) : OfCall (.notCallable shown)
  | arity (name : String) (expected : Arity) (count : Nat) : OfCall (.arity name expected count)
  | type (cause : TypeError) : OfCall (.type cause)
  | fault (cause : Fault) : OfCall (.fault cause)

theorem Error.Ordinary.ofCall {cause : Error} (h : cause.Ordinary) : cause.OfCall := by
  cases h with
  | type cause => exact .type cause
  | fault => exact .fault _

/-- With an acceptable number of arguments an operation fails with an error
about the call. -/
theorem Operation.fails_ofCall {op : Operation} {args : List (Value H)}
    (hcount : op.arity.accepts args.length = true) : Fails Error.OfCall (op.eval args) := by
  by_cases hargs : op = .perm ∧ args = unarranged
  · obtain ⟨rfl, rfl⟩ := hargs
    rw [eval, eval_unarranged]
    exact fails_error.mpr (.fault _)
  · exact (fails_eval hcount hargs).mono fun _ => Error.Ordinary.ofCall

/-- A call of a value that is drawn from builtins fails with an error about
this call or a call inside it. -/
theorem Calls.fails [Host H] {Known : Value H → Prop}
    (hbuiltin : ∀ p, Known (.procedure p) → ∃ b, p.code = .builtin b) {f : Value H}
    {args : List (Value H)} {reply : Reply (Value H)} (h : Calls f args reply) :
    f.DrawnFrom Known → (∀ v ∈ args, v.DrawnFrom Known) → Fails Error.OfCall reply.outcome := by
  induction h with
  | notProcedure => exact fun _ _ => fails_error.mpr (.notCallable _)
  | host serial name h args =>
    intro hf
    obtain ⟨b, hb⟩ := hbuiltin _ (Value.drawnFrom_procedure.mp hf)
    cases hb
  | count => exact fun _ _ => fails_error.mpr (.arity _ _ _)
  | operation serial name hcount => exact fun _ _ => Operation.fails_ofCall hcount
  | print => exact fun _ _ => fails_ok _
  | apply serial name _ ih =>
    intro _ hargs
    have hitems := hargs _ (List.mem_cons_of_mem _ List.mem_cons_self)
    exact ih (hargs _ List.mem_cons_self) (Value.drawnFrom_list.mp hitems)
  | applyMismatch => exact fun _ _ => fails_error.mpr (.type _)
  | @map serial name f v vs lists hlists _ ih =>
    intro _ hargs cause hcause
    obtain ⟨r, hmem, -, hr⟩ := Builtin.exists_passes_map f hlists hcause
    have hrow := drawnFrom_of_mem_rows hlists (fun w hw => hargs w (List.mem_cons_of_mem f hw)) hmem
    exact ih r hmem (hargs f List.mem_cons_self) hrow cause hr
  | mapMismatch serial name f hlists =>
    intro _ _
    exact fails_error.mpr (fails_mapM (Operation.fails_listArg "map") _ _ hlists).ofCall

/-- A run that goes on fails where its first part does or where it goes on. -/
theorem Run.fails_andThen {α β : Type} {P : Error → Prop} {r : Run H α}
    {next : α → Environment H → Run H β} (h : Fails P r.outcome)
    (hnext : ∀ a, r.outcome = .ok a → Fails P (next a r.env).outcome) :
    Fails P (r.andThen next).outcome := by
  obtain ⟨outcome, env, effects⟩ := r
  cases outcome with
  | error cause => exact fails_error.mpr (fails_error.mp h)
  | ok a => exact hnext a rfl

/-! ## Growth -/

/-- Every name that one environment binds is bound in the other. -/
def Environment.Grows (env env' : Environment H) : Prop :=
  ∀ name, env'.get? name = none → env.get? name = none

theorem Environment.Grows.refl (env : Environment H) : env.Grows env :=
  fun _ h => h

theorem Environment.grows_replay (env : Environment H) (effects : List (Effect H)) :
    env.Grows (env.replay effects) := by
  intro name h
  cases hv : env.get? name with
  | none => rfl
  | some v =>
    have hbefore : env.contains name = true := by simp [contains_eq_isSome, hv]
    have hafter := contains_replay effects hbefore
    simp [contains_eq_isSome, h] at hafter

namespace Expr

variable [Host H]

/-- Evaluation unbinds nothing. -/
theorem evalAt_grows (limit : Limit) (depth : Nat) (e : Expr) (env : Environment H) :
    env.Grows (evalAt limit depth e env).env := by
  rw [env_evalAt limit depth e env]
  exact env.grows_replay _

end Expr

/-! ## Symbols in evaluated places -/

namespace Expr

mutual

/-- The symbols in those places of an expression that are evaluated, if the
evaluation comes to them. -/
def evaluated : Expr → List String
  | atom (.symbol name) => [name]
  | atom (.number _) => []
  | list [] => []
  | list [atom (.symbol "if"), test, consequent, alternative] =>
    test.evaluated ++ (consequent.evaluated ++ alternative.evaluated)
  | list [atom (.symbol "define"), atom (.symbol _), body] => body.evaluated
  | list (head :: operands) =>
    if head.keyword?.isSome then [] else head.evaluated ++ evaluatedEach operands

/-- The symbols in the evaluated places of several expressions. -/
def evaluatedEach : List Expr → List String
  | [] => []
  | e :: es => e.evaluated ++ evaluatedEach es

end

@[simp] theorem evaluated_symbol (name : String) : (symbol name).evaluated = [name] := by
  simp [evaluated]

theorem evaluated_if (test consequent alternative : Expr) :
    (list [symbol "if", test, consequent, alternative]).evaluated =
      test.evaluated ++ (consequent.evaluated ++ alternative.evaluated) := by
  simp [evaluated]

theorem evaluated_define (name : String) (body : Expr) :
    (list [symbol "define", symbol name, body]).evaluated = body.evaluated := by
  simp [evaluated]

theorem evaluated_call {head : Expr} (hk : head.keyword? = none) (operands : List Expr) :
    (list (head :: operands)).evaluated = head.evaluated ++ evaluatedEach operands := by
  have hif : head ≠ symbol "if" := by
    rintro rfl
    simp [keyword?] at hk
  have hdefine : head ≠ symbol "define" := by
    rintro rfl
    simp [keyword?] at hk
  rw [evaluated]
  · simp [hk]
  · exact fun _ _ _ h => absurd h hif
  · exact fun _ _ h => absurd h hdefine

/-! ## Errors of evaluation -/

/-- An error of an evaluation that begins in an environment: it is about a
call, or one of the names is unbound there. -/
inductive Failure (names : List String) (env : Environment H) : Error → Prop
  | unbound {name : String} (hname : name ∈ names) (hfree : env.get? name = none) :
      Failure names env (.unbound name)
  | call {cause : Error} (h : cause.OfCall) : Failure names env cause

variable {names names' : List String} {env env' : Environment H}

/-- What fails later on fails with an error from the start, where fewer names
were bound. -/
theorem fails_of_later {α : Type} {outcome : Except Error α}
    (h : Fails (Failure names env') outcome) (hnames : names ⊆ names') (hgrows : env.Grows env') :
    Fails (Failure names' env) outcome := by
  intro cause hcause
  cases h cause hcause with
  | unbound hname hfree => exact .unbound (hnames hname) (hgrows _ hfree)
  | call h => exact .call h

theorem ofCall_of_formError? {items : List Expr} {cause : Error}
    (h : formError? items = some cause) : cause.OfCall := by
  unfold formError? at h
  repeat' split at h
  all_goals cases h
  all_goals constructor

variable [Host H] {Known : Value H → Prop}

theorem evalEach_fails (hbuiltin : ∀ p, Known (.procedure p) → ∃ b, p.code = .builtin b)
    {es : List Expr}
    (h : ∀ e ∈ es, ∀ depth (env : Environment H), env.DrawnFrom Known →
      Fails (Failure e.evaluated env) (evalAt none depth e env).outcome) (depth : Nat) :
    ∀ env : Environment H, env.DrawnFrom Known →
      Fails (Failure (evaluatedEach es) env) (evalEach none depth es env).outcome := by
  induction es with
  | nil =>
    intro env _
    rw [evalEach_nil]
    exact fails_ok _
  | cons e es ih =>
    intro env henv
    rw [evalEach_cons, evaluatedEach]
    have he := h e List.mem_cons_self depth env henv
    refine Run.fails_andThen (fails_of_later he (List.subset_append_left _ _) (.refl env)) ?_
    intro v _
    have hkeeps : (evalAt none depth e env).Keeps (Environment.DrawnFrom Known) _ :=
      evalAt_keeps hbuiltin e depth env henv
    have hes := ih (fun f hf => h f (List.mem_cons_of_mem e hf)) _ hkeeps.env
    refine Run.fails_andThen
      (fails_of_later hes (List.subset_append_right _ _) (evalAt_grows none depth e env)) ?_
    exact fun vs _ => fails_ok _

/-- An evaluation fails with an error about a call, or because a symbol in an
evaluated place is unbound from the start. -/
theorem evalAt_fails (hbuiltin : ∀ p, Known (.procedure p) → ∃ b, p.code = .builtin b)
    (e : Expr) : ∀ depth (env : Environment H), env.DrawnFrom Known →
      Fails (Failure e.evaluated env) (evalAt none depth e env).outcome := by
  induction e using inductionOnForms with
  | number n =>
    intro depth env _
    rw [evalAt_number (Limit.reached?_none depth)]
    exact fails_ok _
  | symbol name =>
    intro depth env _
    rw [evalAt_symbol (Limit.reached?_none depth)]
    split
    case h_1 => exact fails_ok _
    case h_2 hfree => exact fails_error.mpr (.unbound (by simp) hfree)
  | empty =>
    intro depth env _
    rw [evalAt_list (Limit.reached?_none depth), evalForm_nil]
    exact fails_ok _
  | conditional test consequent alternative ihtest ihconsequent ihalternative =>
    intro depth env henv
    rw [evalAt_list (Limit.reached?_none depth), evalForm_if, evaluated_if]
    have htest := ihtest (depth + 1) env henv
    refine Run.fails_andThen (fails_of_later htest (List.subset_append_left _ _) (.refl env)) ?_
    intro v _
    have hkeeps : (evalAt none (depth + 1) test env).Keeps (Environment.DrawnFrom Known) _ :=
      evalAt_keeps hbuiltin test (depth + 1) env henv
    have hgrows := evalAt_grows none (depth + 1) test env
    split
    · exact fails_of_later (ihconsequent _ _ hkeeps.env) (by simp) hgrows
    · exact fails_of_later (ihalternative _ _ hkeeps.env) (by simp) hgrows
  | definition name body ih =>
    intro depth env henv
    rw [evalAt_list (Limit.reached?_none depth), evalForm_define, evaluated_define]
    exact Run.fails_andThen (ih (depth + 1) env henv) fun v _ => fails_ok _
  | illFormed items cause hf =>
    intro depth env _
    rw [evalAt_list (Limit.reached?_none depth), evalForm_of_formError hf]
    exact fails_error.mpr (.call (ofCall_of_formError? hf))
  | call head operands hk ihhead ihoperands =>
    intro depth env henv
    rw [evalAt_list (Limit.reached?_none depth), evalForm_call hk, evaluated_call hk]
    have hhead := ihhead (depth + 1) env henv
    refine Run.fails_andThen (fails_of_later hhead (List.subset_append_left _ _) (.refl env)) ?_
    intro f hf
    have hkeeps : (evalAt none (depth + 1) head env).Keeps (Environment.DrawnFrom Known) _ :=
      evalAt_keeps hbuiltin head (depth + 1) env henv
    have hgrows := evalAt_grows none (depth + 1) head env
    have hoperands := evalEach_fails hbuiltin ihoperands (depth + 1) _ hkeeps.env
    refine Run.fails_andThen (fails_of_later hoperands (List.subset_append_right _ _) hgrows) ?_
    intro args hargs
    have heach : (evalEach none (depth + 1) operands (evalAt none (depth + 1) head env).env).Keeps
        (Environment.DrawnFrom Known) _ :=
      evalEach_keeps (fun e _ => evalAt_keeps hbuiltin e) (depth + 1) _ hkeeps.env
    have hcall := (calls f args).fails hbuiltin (hkeeps.outcome f hf) (heach.outcome args hargs)
    exact hcall.mono fun _ => .call

/-- **Only symbols in evaluated places can turn out to be unbound.** Let all
procedures in an environment, at any depth of the values that it binds, be
builtins. Then an evaluation does not fail with an error of reading or of the
depth limit, and if it fails because a symbol is unbound, the symbol is in an
evaluated place of the expression and the environment did not bind it. So if
all symbols in evaluated places are bound at the start, whatever is defined and
called on the way, no symbol turns out to be unbound. -/
theorem unbound_symbols_are_evaluated (e : Expr) (env : Environment H)
    (hbuiltin : ∀ p, env.Holds (.procedure p) → ∃ b, p.code = .builtin b) :
    (∀ cause, (e.eval env).outcome ≠ .error (.read cause)) ∧
    (∀ most, (e.eval env).outcome ≠ .error (.depth most)) ∧
    (∀ name, (e.eval env).outcome = .error (.unbound name) →
      name ∈ e.evaluated ∧ env.get? name = none) ∧
    ((∀ name ∈ e.evaluated, env.contains name = true) →
      ∀ name, (e.eval env).outcome ≠ .error (.unbound name)) := by
  have hfails := evalAt_fails hbuiltin e 0 env env.drawnFrom_holds
  have hunbound : ∀ name, (e.eval env).outcome = .error (.unbound name) →
      name ∈ e.evaluated ∧ env.get? name = none := by
    intro name h
    cases hfails _ h with
    | unbound hname hfree => exact ⟨hname, hfree⟩
    | call hcall => cases hcall
  refine ⟨?_, ?_, hunbound, ?_⟩
  · intro cause h
    cases hfails _ h with
    | call hcall => cases hcall
  · intro most h
    cases hfails _ h with
    | call hcall => cases hcall
  · intro hbound name h
    obtain ⟨hname, hfree⟩ := hunbound name h
    have hcontains := hbound name hname
    rw [Environment.contains_eq_isSome, hfree] at hcontains
    cases hcontains

/-- The operand before the last one defines `y`, and `z` stays unbound. -/
theorem unbound_symbols_are_evaluated_after_definition :
    (∀ p, (Environment.define (H := Empty) .empty "list"
        (.builtin 0 "list" (.operation .list))).Holds (.procedure p) → ∃ b, p.code = .builtin b) ∧
      (eval (.list [.symbol "list", .list [.symbol "define", .symbol "y", .number (.int 1)],
          .symbol "y", .symbol "z"])
        (.define (H := Empty) .empty "list" (.builtin 0 "list" (.operation .list)))).outcome
        = .error (.unbound "z") ∧
      "z" ∈ (Expr.list [.symbol "list", .list [.symbol "define", .symbol "y", .number (.int 1)],
          .symbol "y", .symbol "z"]).evaluated ∧
      (Environment.define (H := Empty) .empty "list"
        (.builtin 0 "list" (.operation .list))).get? "z" = none := by
  have hbuiltin : ∀ p, (Environment.define (H := Empty) .empty "list"
      (.builtin 0 "list" (.operation .list))).Holds (.procedure p) → ∃ b, p.code = .builtin b := by
    rintro p ⟨name, v, hv, hp⟩
    rw [Environment.get?_define] at hv
    split at hv
    · cases hv
      cases hp
      exact ⟨_, rfl⟩
    · simp at hv
  have hfails : (eval (.list [.symbol "list",
        .list [.symbol "define", .symbol "y", .number (.int 1)], .symbol "y", .symbol "z"])
      (.define (H := Empty) .empty "list" (.builtin 0 "list" (.operation .list)))).outcome
      = .error (.unbound "z") := by
    simp [eval, evalWithin, evalAt_list (Limit.reached?_none _), evalForm_call, evalForm_define,
      evalAt_symbol (Limit.reached?_none _), evalAt_number (Limit.reached?_none _), evalEach_cons,
      keyword?, Run.andThen, Run.define, Run.ok, Run.error, Environment.get?_define]
  exact ⟨hbuiltin, hfails, (unbound_symbols_are_evaluated _ _ hbuiltin).2.2.1 "z" hfails⟩

end Expr

end FlatLisp
