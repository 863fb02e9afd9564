/-
FlatLisp.Proofs.Provenance — evaluation makes up no symbols and no procedures.

A symbol or procedure in a result or in an environment that evaluation leaves
was in the environment before: builtins only move what they are given
(`Calls.drawnFrom`), a symbol as an expression stands for what it is bound to,
and a definition binds what was evaluated. This is an invariant of evaluation
(`evalAt_keeps`), of a request and so of a whole session. A standard
environment holds no symbols, and no procedures but those that it binds, so
nothing else ever turns up in a session that starts from it.

A host procedure may answer with anything, which is why the procedures of the
environment are supposed to be builtins.
-/
import FlatLisp.Proofs.Calls
import FlatLisp.Proofs.Contents
import FlatLisp.Proofs.Forms

namespace FlatLisp

variable {H : Type}

/-! ## Values in environments and runs -/

/-- The value `x` occurs in a value that is bound. -/
def Environment.Holds (env : Environment H) (x : Value H) : Prop :=
  ∃ name v, env.get? name = some v ∧ x.Occurs v

/-- All bound values are drawn from the known symbols and procedures. -/
def Environment.DrawnFrom (Known : Value H → Prop) (env : Environment H) : Prop :=
  ∀ name v, env.get? name = some v → v.DrawnFrom Known

theorem Environment.drawnFrom_holds (env : Environment H) : env.DrawnFrom env.Holds := by
  intro name v hv
  exact v.drawnFrom_of_forall_occurs fun x hx => ⟨name, v, hv, hx⟩

theorem Environment.DrawnFrom.define {Known : Value H → Prop} {env : Environment H}
    (h : env.DrawnFrom Known) (name : String) {v : Value H} (hv : v.DrawnFrom Known) :
    (env.define name v).DrawnFrom Known := by
  intro other w hw
  rw [get?_define] at hw
  split at hw
  · cases hw
    exact hv
  · exact h other w hw

namespace Run

variable {α β : Type}

/-- The value `x` occurs in the answer of a run or in the environment that it
left. -/
def Shows (r : Run H (Value H)) (x : Value H) : Prop :=
  (∃ v, r.outcome = .ok v ∧ x.Occurs v) ∨ r.env.Holds x

/-- A run leaves an environment with the first property, and its answer, if
there is one, has the second. -/
structure Keeps (I : Environment H → Prop) (P : α → Prop) (r : Run H α) : Prop where
  env : I r.env
  outcome : Yields P r.outcome

variable {I : Environment H → Prop} {P : α → Prop} {Q : β → Prop}

theorem Keeps.ok {env : Environment H} (henv : I env) {a : α} (ha : P a) :
    (Run.ok env a).Keeps I P :=
  ⟨henv, yields_ok.mpr ha⟩

theorem Keeps.error {env : Environment H} (henv : I env) (cause : Error) :
    (Run.error env cause).Keeps I P :=
  ⟨henv, yields_error cause⟩

theorem Keeps.andThen {r : Run H α} {next : α → Environment H → Run H β} (h : r.Keeps I P)
    (hnext : ∀ a env, P a → I env → (next a env).Keeps I Q) : (r.andThen next).Keeps I Q := by
  obtain ⟨outcome, env, effects⟩ := r
  cases outcome with
  | error cause => exact ⟨h.env, yields_error cause⟩
  | ok a =>
    have hrest := hnext a env (yields_ok.mp h.outcome) h.env
    exact ⟨hrest.env, hrest.outcome⟩

end Run

/-! ## Calls -/

theorem Reply.yields_andThen {α β : Type} {P : α → Prop} {Q : β → Prop} {r : Reply α}
    {next : α → Reply β} (h : Yields P r.outcome) (hnext : ∀ a, P a → Yields Q (next a).outcome) :
    Yields Q (r.andThen next).outcome := by
  obtain ⟨outcome, printed⟩ := r
  cases outcome with
  | error cause => exact yields_error cause
  | ok a => exact hnext a (yields_ok.mp h)

theorem Reply.yields_traverse {α β : Type} {P : β → Prop} {f : α → Reply β} {xs : List α}
    (h : ∀ x ∈ xs, Yields P (f x).outcome) :
    Yields (fun ys => ∀ y ∈ ys, P y) (traverse f xs).outcome := by
  induction xs with
  | nil => simp [Reply.ok]
  | cons x xs ih =>
    rw [traverse_cons]
    refine yields_andThen (h x List.mem_cons_self) ?_
    intro y hy
    refine yields_andThen (ih fun x' hx' => h x' (List.mem_cons_of_mem x hx')) ?_
    intro ys hys
    simpa [Reply.ok, hy] using hys

/-- The items of a row are items of the lists. -/
theorem mem_of_mem_rows {α : Type} {lists : List (List α)} {r : List α} (hr : r ∈ rows lists)
    {x : α} (hx : x ∈ r) : ∃ items ∈ lists, x ∈ items := by
  simp only [rows, row, List.mem_map] at hr
  obtain ⟨i, -, rfl⟩ := hr
  obtain ⟨items, hitems, hi⟩ := List.mem_filterMap.mp hx
  exact ⟨items, hitems, List.mem_of_getElem? hi⟩

/-- The items of rows are drawn from what the lists are drawn from. -/
theorem drawnFrom_of_mem_rows {Known : Value H → Prop} {args r : List (Value H)}
    {lists : List (List (Value H))} (hlists : args.mapM (Operation.listArg "map") = .ok lists)
    (hargs : ∀ v ∈ args, v.DrawnFrom Known) (hr : r ∈ rows lists) : ∀ x ∈ r, x.DrawnFrom Known := by
  intro x hx
  obtain ⟨items, hitems, hx⟩ := mem_of_mem_rows hr hx
  have hlist : Value.list items ∈ args := by
    rw [Operation.mapM_listArg_eq_ok_iff.mp hlists]
    exact List.mem_map_of_mem hitems
  exact Value.drawnFrom_list.mp (hargs _ hlist) x hx

/-- The answer of a call is drawn from what the procedure and the arguments
are drawn from, if all procedures there are builtins. -/
theorem Calls.drawnFrom [Host H] {Known : Value H → Prop}
    (hbuiltin : ∀ p, Known (.procedure p) → ∃ b, p.code = .builtin b) {f : Value H}
    {args : List (Value H)} {reply : Reply (Value H)} (h : Calls f args reply) :
    f.DrawnFrom Known → (∀ v ∈ args, v.DrawnFrom Known) →
      Yields (Value.DrawnFrom Known) reply.outcome := by
  induction h with
  | notProcedure => exact fun _ _ => yields_error _
  | host serial name h args =>
    -- a host may answer with anything, but its procedures are not among the known ones
    intro hf
    obtain ⟨b, hb⟩ := hbuiltin _ (Value.drawnFrom_procedure.mp hf)
    cases hb
  | count => exact fun _ _ => yields_error _
  | operation => exact fun _ hargs => Operation.eval_drawnFrom hargs _
  | print => exact fun _ _ => yields_ok.mpr .unspecified
  | apply serial name h ih =>
    intro _ hargs
    have hitems := hargs _ (List.mem_cons_of_mem _ List.mem_cons_self)
    exact ih (hargs _ List.mem_cons_self) (Value.drawnFrom_list.mp hitems)
  | applyMismatch => exact fun _ _ => yields_error _
  | @map serial name f v vs lists hlists _ ih =>
    intro _ hargs
    have hrow : ∀ r ∈ rows lists, Yields (Value.DrawnFrom Known) (f.call r).outcome := by
      intro r hr
      refine ih r hr (hargs f List.mem_cons_self) ?_
      exact drawnFrom_of_mem_rows hlists (fun w hw => hargs w (List.mem_cons_of_mem f hw)) hr
    refine Reply.yields_andThen (Reply.yields_traverse hrow) ?_
    intro answers hanswers
    exact yields_ok.mpr (.list hanswers)
  | mapMismatch => exact fun _ _ => yields_error _

/-! ## Evaluation -/

namespace Expr

variable [Host H] {limit : Limit} {Known : Value H → Prop}

theorem evalEach_keeps {I : Environment H → Prop} {P : Value H → Prop} {es : List Expr}
    (h : ∀ e ∈ es, ∀ depth env, I env → (evalAt limit depth e env).Keeps I P) (depth : Nat) :
    ∀ env, I env → (evalEach limit depth es env).Keeps I (fun vs => ∀ v ∈ vs, P v) := by
  induction es with
  | nil =>
    intro env henv
    rw [evalEach_nil]
    exact .ok henv (by simp)
  | cons e es ih =>
    intro env henv
    rw [evalEach_cons]
    refine (h e List.mem_cons_self depth env henv).andThen ?_
    intro v env hv henv
    refine (ih (fun f hf => h f (List.mem_cons_of_mem e hf)) env henv).andThen ?_
    intro vs env hvs henv
    exact .ok henv (List.forall_mem_cons.mpr ⟨hv, hvs⟩)

/-- At the limit there is nothing to show. -/
theorem keeps_of_unreached {I : Environment H → Prop} {P : Value H → Prop} {e : Expr} {depth : Nat}
    {env : Environment H} (henv : I env)
    (h : limit.reached? depth = none → (evalAt limit depth e env).Keeps I P) :
    (evalAt limit depth e env).Keeps I P := by
  cases hr : limit.reached? depth with
  | none => exact h hr
  | some most =>
    rw [evalAt_of_reached hr]
    exact .error henv (.depth most)

/-- Evaluation in an environment that is drawn from known symbols and
procedures answers with such a value and leaves such an environment. -/
theorem evalAt_keeps (hbuiltin : ∀ p, Known (.procedure p) → ∃ b, p.code = .builtin b)
    (e : Expr) : ∀ depth (env : Environment H), env.DrawnFrom Known →
      (evalAt limit depth e env).Keeps (Environment.DrawnFrom Known) (Value.DrawnFrom Known) := by
  induction e using inductionOnForms with
  | number n =>
    intro depth env henv
    refine keeps_of_unreached henv fun hr => ?_
    rw [evalAt_number hr]
    exact .ok henv (.number n)
  | symbol name =>
    intro depth env henv
    refine keeps_of_unreached henv fun hr => ?_
    rw [evalAt_symbol hr]
    split
    case h_1 v hv => exact .ok henv (henv name v hv)
    case h_2 => exact .error henv _
  | empty =>
    intro depth env henv
    refine keeps_of_unreached henv fun hr => ?_
    rw [evalAt_list hr, evalForm_nil]
    exact .ok henv (by simp)
  | conditional test consequent alternative ihtest ihconsequent ihalternative =>
    intro depth env henv
    refine keeps_of_unreached henv fun hr => ?_
    rw [evalAt_list hr, evalForm_if]
    refine (ihtest _ env henv).andThen ?_
    intro v env _ henv
    split
    · exact ihconsequent _ env henv
    · exact ihalternative _ env henv
  | definition name body ih =>
    intro depth env henv
    refine keeps_of_unreached henv fun hr => ?_
    rw [evalAt_list hr, evalForm_define]
    refine (ih _ env henv).andThen ?_
    intro v env hv henv
    exact ⟨henv.define name hv, yields_ok.mpr .unspecified⟩
  | illFormed items cause hf =>
    intro depth env henv
    refine keeps_of_unreached henv fun hr => ?_
    rw [evalAt_list hr, evalForm_of_formError hf]
    exact .error henv cause
  | call head operands hk ihhead ihoperands =>
    intro depth env henv
    refine keeps_of_unreached henv fun hr => ?_
    rw [evalAt_list hr, evalForm_call hk]
    refine (ihhead _ env henv).andThen ?_
    intro f env hf henv
    refine (evalEach_keeps ihoperands _ env henv).andThen ?_
    intro args env hargs henv
    exact ⟨henv, (calls f args).drawnFrom hbuiltin hf hargs⟩

end Expr

/-! ## Sessions -/

/-- Something that is asked of an interpreter: to read and evaluate a source
text, or to evaluate an expression. -/
inductive Request where
  | source (options : ReadOptions) (limit : Limit) (text : String)
  | expression (limit : Limit) (e : Expr)

/-- What a request comes to in an environment. -/
def Request.run [Host H] : Request → Environment H → Run H (Value H)
  | source options limit text, env => evalSource options limit text env
  | expression limit e, env => e.evalWithin limit env

/-- What several requests come to, each in the environment that the one before
it left, whether it failed or not. -/
def session [Host H] (env : Environment H) : List Request → List (Run H (Value H))
  | [] => []
  | q :: qs => q.run env :: session (q.run env).env qs

section

variable [Host H] {Known : Value H → Prop}

theorem Request.run_keeps (hbuiltin : ∀ p, Known (.procedure p) → ∃ b, p.code = .builtin b)
    (q : Request) {env : Environment H} (henv : env.DrawnFrom Known) :
    (q.run env).Keeps (Environment.DrawnFrom Known) (Value.DrawnFrom Known) := by
  cases q with
  | source options limit text =>
    rw [run, evalSource]
    split
    · exact .error henv _
    · exact Expr.evalAt_keeps hbuiltin _ 0 env henv
  | expression limit e => exact Expr.evalAt_keeps hbuiltin e 0 env henv

theorem session_keeps (hbuiltin : ∀ p, Known (.procedure p) → ∃ b, p.code = .builtin b)
    (qs : List Request) : ∀ {env : Environment H}, env.DrawnFrom Known →
      ∀ r ∈ session env qs, r.Keeps (Environment.DrawnFrom Known) (Value.DrawnFrom Known) := by
  induction qs with
  | nil =>
    intro env _ r hr
    cases hr
  | cons q qs ih =>
    intro env henv r hr
    have hq := q.run_keeps hbuiltin henv
    rcases List.mem_cons.mp hr with rfl | hr
    · exact hq
    · exact ih hq.env r hr

end

theorem Run.Keeps.drawnFrom_of_shows {Known : Value H → Prop} {r : Run H (Value H)} {x : Value H}
    (h : r.Keeps (Environment.DrawnFrom Known) (Value.DrawnFrom Known)) (hx : r.Shows x) :
    x.DrawnFrom Known := by
  rcases hx with ⟨v, hv, hx⟩ | ⟨name, v, hv, hx⟩
  · exact (h.outcome v hv).of_occurs hx
  · exact (h.env name v hv).of_occurs hx

/-! ## The standard environment -/

namespace Environment

/-- A binding after a definition is that of the definition or one from
before. -/
theorem eq_or_of_get?_define {env : Environment H} {name other : String} {v w : Value H}
    (h : (env.define name v).get? other = some w) : w = v ∨ env.get? other = some w := by
  rw [get?_define] at h
  split at h
  · cases h
    exact .inl rfl
  · exact .inr h

theorem eq_of_get?_defineBuiltins {name : String} {v : Value H} (bs : List Builtin) :
    ∀ {env : Environment H} {serial : Nat},
      (env.defineBuiltins serial bs).get? name = some v →
      (∃ serial b, v = .procedure (.ofBuiltin serial b)) ∨ env.get? name = some v := by
  induction bs with
  | nil => exact .inr
  | cons b bs ih =>
    intro env serial h
    rcases ih h with hbuiltin | hbefore
    · exact .inl hbuiltin
    · rcases eq_or_of_get?_define hbefore with rfl | hbefore
      · exact .inl ⟨serial, b, rfl⟩
      · exact .inr hbefore

theorem eq_of_get?_foldl_define {name : String} {v : Value H} (cs : List (String × Float)) :
    ∀ {env : Environment H},
      (cs.foldl (fun env c => env.define c.1 (.float c.2)) env).get? name = some v →
      (∃ x, v = .float x) ∨ env.get? name = some v := by
  induction cs with
  | nil => exact .inr
  | cons c cs ih =>
    intro env h
    rcases ih h with hfloat | hbefore
    · exact .inl hfloat
    · rcases eq_or_of_get?_define hbefore with rfl | hbefore
      · exact .inl ⟨c.2, rfl⟩
      · exact .inr hbefore

/-- A standard environment binds builtins and doubles only. -/
theorem eq_of_get?_standard {name : String} {v : Value H}
    (h : (standard : Environment H).get? name = some v) :
    (∃ serial b, v = .procedure (.ofBuiltin serial b)) ∨ ∃ x, v = .float x := by
  rcases eq_of_get?_foldl_define _ h with hfloat | hbefore
  · exact .inr hfloat
  · rcases eq_of_get?_defineBuiltins _ hbefore with hbuiltin | hempty
    · exact .inl hbuiltin
    · simp at hempty

/-- The value is bound in standard environments. -/
def BoundInStandard (v : Value H) : Prop :=
  ∃ name, (standard : Environment H).get? name = some v

theorem standard_drawnFrom : (standard : Environment H).DrawnFrom BoundInStandard := by
  intro name v hv
  rcases eq_of_get?_standard hv with ⟨serial, b, rfl⟩ | ⟨x, rfl⟩
  · exact .procedure ⟨name, hv⟩
  · exact .number _

theorem not_boundInStandard_symbol (name : String) :
    ¬ BoundInStandard (.symbol name : Value H) := by
  rintro ⟨other, h⟩
  rcases eq_of_get?_standard h with ⟨serial, b, hv⟩ | ⟨x, hv⟩ <;> cases hv

theorem isBuiltin_of_boundInStandard {p : Procedure H}
    (h : BoundInStandard (.procedure p : Value H)) : ∃ b, p.code = .builtin b := by
  obtain ⟨name, h⟩ := h
  rcases eq_of_get?_standard h with ⟨serial, b, hv⟩ | ⟨x, hv⟩
  · cases hv
    exact ⟨b, rfl⟩
  · cases hv

end Environment

/-! ## No new symbols and procedures -/

/-- **Evaluation makes up neither symbols nor procedures.** In a session of
any length that starts from a standard environment, whatever fails in it, no
answer and no binding has a symbol in it at any depth, and every procedure in
them is one that the standard environment binds. In a session that starts from
any environment whose procedures are all builtins, every symbol and every
procedure in an answer or a binding was in that environment. -/
theorem session_makes_no_symbols_or_procedures [Host H] :
    (∀ (requests : List Request) (r : Run H (Value H)), r ∈ session .standard requests →
      (∀ name, ¬ r.Shows (.symbol name)) ∧
      (∀ p, r.Shows (.procedure p) →
        ∃ name, (Environment.standard : Environment H).get? name = some (.procedure p))) ∧
    (∀ (env : Environment H), (∀ p, env.Holds (.procedure p) → ∃ b, p.code = .builtin b) →
      ∀ (requests : List Request) (r : Run H (Value H)), r ∈ session env requests →
        (∀ name, r.Shows (.symbol name) → env.Holds (.symbol name)) ∧
        (∀ p, r.Shows (.procedure p) → env.Holds (.procedure p))) := by
  refine ⟨?_, ?_⟩
  · intro requests r hr
    -- known is just what standard environments bind, which is no symbol
    have hkeeps := session_keeps (fun p => Environment.isBuiltin_of_boundInStandard) requests
      Environment.standard_drawnFrom r hr
    refine ⟨?_, ?_⟩
    · intro name hname
      have hknown := Value.drawnFrom_symbol.mp (hkeeps.drawnFrom_of_shows hname)
      exact Environment.not_boundInStandard_symbol name hknown
    · intro p hp
      exact Value.drawnFrom_procedure.mp (hkeeps.drawnFrom_of_shows hp)
  · intro env hbuiltin requests r hr
    have hkeeps := session_keeps hbuiltin requests env.drawnFrom_holds r hr
    refine ⟨?_, ?_⟩
    · intro name hname
      exact Value.drawnFrom_symbol.mp (hkeeps.drawnFrom_of_shows hname)
    · intro p hp
      exact Value.drawnFrom_procedure.mp (hkeeps.drawnFrom_of_shows hp)

end FlatLisp
