/-
FlatLisp.Proofs.DepthLimit — evaluation under a depth limit refines
evaluation without one.

A limit can only cut an evaluation short. `StopsShort most r s` says that `r`
either is `s` or ends with the depth error of the limit `most`, after effects
that are the first effects of `s`. Going on after two such runs in the same
way keeps the relation (`StopsShort.andThen`), and evaluation is made of
nothing else, so it holds between the evaluations of one expression under a
limit and under any other that is not below it. The unlimited evaluation and
one with a greater limit are both of that kind, which is why the refinement
and its monotonicity in `evalWithin_refines_eval` come from one induction.

A procedure of the host may answer with a depth error of its own; such an
answer is the same in both runs and falls under the first alternative.
-/
import FlatLisp.Proofs.Forms

namespace FlatLisp

/-! ## Runs that stop short -/

namespace Run

variable {H α β : Type}

/-- The run `r` is `s`, or it is `s` as far as the depth limit lets it. -/
def StopsShort (most : Nat) (r s : Run H α) : Prop :=
  r = s ∨ (r.outcome = .error (.depth most) ∧ r.effects <+: s.effects)

theorem StopsShort.refl (most : Nat) (r : Run H α) : StopsShort most r r :=
  .inl rfl

/-- At the limit nothing has been done. -/
theorem StopsShort.of_error (most : Nat) (env : Environment H) (s : Run H α) :
    StopsShort most (error env (.depth most)) s :=
  .inr ⟨rfl, List.nil_prefix⟩

/-- Going on does not take back what was done. -/
theorem effects_prefix_andThen (r : Run H α) (next : α → Environment H → Run H β) :
    r.effects <+: (r.andThen next).effects := by
  obtain ⟨outcome, env, effects⟩ := r
  cases outcome with
  | error cause => exact List.prefix_refl effects
  | ok a => exact List.prefix_append effects (next a env).effects

theorem StopsShort.andThen {most : Nat} {r s : Run H α}
    {next next' : α → Environment H → Run H β} (h : StopsShort most r s)
    (hnext : ∀ a env, StopsShort most (next a env) (next' a env)) :
    StopsShort most (r.andThen next) (s.andThen next') := by
  rcases h with rfl | ⟨hout, heff⟩
  · obtain ⟨outcome, env, effects⟩ := r
    cases outcome with
    | error cause => exact .refl most _
    | ok a =>
      rcases hnext a env with heq | ⟨hout, heff⟩
      · left
        show (⟨_, _, _⟩ : Run H β) = ⟨_, _, _⟩
        rw [heq]
      · right
        exact ⟨hout, (List.prefix_append_right_inj effects).mpr heff⟩
  · right
    obtain ⟨outcome, env, effects⟩ := r
    obtain rfl : outcome = .error (.depth most) := hout
    exact ⟨rfl, heff.trans (effects_prefix_andThen s next')⟩

end Run

/-! ## Evaluation -/

/-- The limit is none, or not below `most`. -/
def Limit.AtLeast (limit : Limit) (most : Nat) : Prop :=
  ∀ most', limit = some most' → most ≤ most'

theorem Limit.AtLeast.reached?_eq_none {limit : Limit} {most depth : Nat}
    (h : limit.AtLeast most) (hlt : depth < most) : limit.reached? depth = none := by
  cases limit with
  | none => rfl
  | some most' =>
    have hle := h most' rfl
    rw [Limit.reached?_some, if_neg (by omega)]

namespace Expr

variable {H : Type} [Host H] {limit : Limit} {most : Nat}

open Run (StopsShort)

mutual

/-- Under a limit an evaluation stops short of what it does under any other
that is not below it. -/
theorem evalAt_stopsShort (h : limit.AtLeast most) (depth : Nat) (e : Expr)
    (env : Environment H) :
    StopsShort most (evalAt (some most) depth e env) (evalAt limit depth e env) := by
  by_cases hd : most ≤ depth
  · have hr : Limit.reached? (some most) depth = some most := by
      rw [Limit.reached?_some, if_pos hd]
    rw [evalAt_of_reached hr]
    exact .of_error most env _
  · have hr : Limit.reached? (some most) depth = none := by
      rw [Limit.reached?_some, if_neg hd]
    have hr' := h.reached?_eq_none (Nat.lt_of_not_le hd)
    match e with
    | .atom (.number n) =>
      rw [evalAt_number hr, evalAt_number hr']
      exact .refl most _
    | .atom (.symbol name) =>
      rw [evalAt_symbol hr, evalAt_symbol hr']
      exact .refl most _
    | .list items =>
      rw [evalAt_list hr, evalAt_list hr']
      exact evalForm_stopsShort h depth items env
termination_by sizeOf e

theorem evalForm_stopsShort (h : limit.AtLeast most) (depth : Nat) (items : List Expr)
    (env : Environment H) :
    StopsShort most (evalForm (some most) depth items env) (evalForm limit depth items env) := by
  cases formView items with
  | empty =>
    rw [evalForm_nil, evalForm_nil]
    exact .refl most _
  | conditional test consequent alternative =>
    rw [evalForm_if, evalForm_if]
    refine (evalAt_stopsShort h _ test env).andThen fun v env' => ?_
    split
    · exact evalAt_stopsShort h _ consequent env'
    · exact evalAt_stopsShort h _ alternative env'
  | definition name body =>
    rw [evalForm_define, evalForm_define]
    exact (evalAt_stopsShort h _ body env).andThen fun v env' => .refl most _
  | illFormed hf =>
    rw [evalForm_of_formError hf, evalForm_of_formError hf]
    exact .refl most _
  | @call head hk operands =>
    rw [evalForm_call hk, evalForm_call hk]
    refine (evalAt_stopsShort h _ head env).andThen fun f env' => ?_
    exact (evalEach_stopsShort h _ operands env').andThen fun args env'' => .refl most _
termination_by sizeOf items

theorem evalEach_stopsShort (h : limit.AtLeast most) (depth : Nat) (es : List Expr)
    (env : Environment H) :
    StopsShort most (evalEach (some most) depth es env) (evalEach limit depth es env) := by
  match es with
  | [] =>
    rw [evalEach_nil, evalEach_nil]
    exact .refl most _
  | e :: es =>
    rw [evalEach_cons, evalEach_cons]
    refine (evalAt_stopsShort h _ e env).andThen fun v env' => ?_
    exact (evalEach_stopsShort h _ es env').andThen fun vs env'' => .refl most _
termination_by sizeOf es

end

/-! ## The refinement -/

/-- **A depth limit only cuts evaluation short.** Under a limit an evaluation
is the unlimited one, in outcome, environment and effects, or it ends with the
depth error of that limit after the first effects of the unlimited one, and
leaves the environment that these give. If it does not end so, no greater
limit changes anything. -/
theorem evalWithin_refines_eval :
    (∀ (most : Nat) (e : Expr) (env : Environment H),
      evalWithin (some most) e env = eval e env ∨
        ((evalWithin (some most) e env).outcome = .error (.depth most) ∧
          (evalWithin (some most) e env).effects <+: (eval e env).effects ∧
          (evalWithin (some most) e env).env
            = env.replay (evalWithin (some most) e env).effects)) ∧
    (∀ (most most' : Nat) (e : Expr) (env : Environment H), most ≤ most' →
      (evalWithin (some most) e env).outcome ≠ .error (.depth most) →
      evalWithin (some most') e env = evalWithin (some most) e env) := by
  constructor
  · intro most e env
    have hnone : Limit.AtLeast none most := fun _ h => nomatch h
    rcases evalAt_stopsShort hnone 0 e env with heq | ⟨hout, heff⟩
    · exact .inl heq
    · exact .inr ⟨hout, heff, env_evalAt (some most) 0 e env⟩
  · intro most most' e env hle hne
    have hsome : Limit.AtLeast (some most') most := fun m h => Option.some.inj h ▸ hle
    rcases evalAt_stopsShort hsome 0 e env with heq | ⟨hout, -⟩
    · exact heq.symm
    · exact absurd hout hne

end Expr

end FlatLisp
