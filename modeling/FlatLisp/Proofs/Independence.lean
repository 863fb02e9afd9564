/-
FlatLisp.Proofs.Independence — expressions that define nothing which the other
mentions can be evaluated in either order.

All that an evaluation reads is mentioned in its expression, and so is all that
it may define (`targets_subset_mentioned`). So the evaluation of one of two
independent expressions runs as it would without the other in front of it
(`evalAt_agrees`), and what both leave behind is put together by name: a target
is bound as its own expression alone leaves it, any other name as before
(`get?_evalWithin_after`).
-/
import FlatLisp.Proofs.Agreement

namespace FlatLisp.Expr

/-! ## Targets are mentioned -/

theorem eq_of_target? {items : List Expr} {name : String} (h : target? items = some name) :
    ∃ head body, items = [head, symbol name, body] := by
  unfold target? at h
  split at h
  · split at h
    · exact ⟨_, _, by rw [eq_symbol_of_symbol? h]⟩
    · cases h
  · cases h

/-- A definition mentions its target, wherever it occurs. -/
theorem targets_subset_mentioned (e : Expr) : e.targets ⊆ e.mentioned := by
  intro name h
  match e with
  | atom a => simp [targets] at h
  | list items =>
    rw [targets, List.mem_append, mem_targetsEach] at h
    rcases h with htarget | ⟨f, hf, hname⟩
    · obtain ⟨head, body, rfl⟩ := eq_of_target? (by simpa using htarget)
      have htarget : symbol name ∈ [symbol name, body] := List.mem_cons_self
      exact mentioned_operand_subset head htarget (by simp)
    · have hmentioned : name ∈ f.mentioned := targets_subset_mentioned f hname
      cases hf with
      | @head operands =>
        -- a keyword is an atom and has no targets
        have hk : f.keyword? = none := by
          cases hk : f.keyword? with
          | none => rfl
          | some k =>
            rw [eq_symbol_of_keyword? hk] at hname
            simp [targets] at hname
        exact mentioned_head_subset hk operands hmentioned
      | tail head hf => exact mentioned_operand_subset head hf hmentioned
termination_by sizeOf e
decreasing_by
  have := List.sizeOf_lt_of_mem hf
  simp
  omega

/-! ## One evaluation after another -/

/-- No definition that occurs in `e` has a target that `f` mentions. -/
def Spares (e f : Expr) : Prop :=
  ∀ name ∈ e.targets, name ∉ f.mentioned

instance (e f : Expr) : Decidable (e.Spares f) :=
  inferInstanceAs (Decidable (∀ name ∈ e.targets, name ∉ f.mentioned))

section

variable {H : Type} [Host H] {e f : Expr}

/-- An evaluation runs alike before and after one that defines nothing which its
expression mentions. -/
theorem evalWithin_agrees_after (h : e.Spares f) (limit : Limit)
    (env : Environment H) :
    (evalWithin limit f (evalWithin limit e env).env).Agrees f.mentioned
      (evalWithin limit f env) := by
  refine evalAt_agrees f (List.Subset.refl _) 0 _ _ fun name hname => ?_
  exact get?_evalAt_of_not_mem_targets (fun htarget => h name htarget hname) 0 env

/-- After both evaluations a target of the second is bound as the second alone
leaves it, and any other name as the first does. -/
theorem get?_evalWithin_after (h : e.Spares f) (limit : Limit)
    (env : Environment H) (name : String) :
    (evalWithin limit f (evalWithin limit e env).env).env.get? name =
      if name ∈ f.targets then (evalWithin limit f env).env.get? name
      else (evalWithin limit e env).env.get? name := by
  split
  case isTrue htarget =>
    exact (evalWithin_agrees_after h limit env).env name (targets_subset_mentioned f htarget)
  case isFalse htarget => exact get?_evalAt_of_not_mem_targets htarget 0 _

/-- **Independent expressions commute.** If neither of two expressions mentions
a target of the other and both have a value one after the other, then they have
the same values in the other order, under any limit or none, and leave the same
environment. -/
theorem independent_evaluations_commute (hef : e.Spares f)
    (hfe : f.Spares e) (limit : Limit) (env : Environment H) {v w : Value H}
    (hv : (evalWithin limit e env).outcome = .ok v)
    (hw : (evalWithin limit f (evalWithin limit e env).env).outcome = .ok w) :
    (evalWithin limit f env).outcome = .ok w ∧
    (evalWithin limit e (evalWithin limit f env).env).outcome = .ok v ∧
    (evalWithin limit e (evalWithin limit f env).env).env
      = (evalWithin limit f (evalWithin limit e env).env).env := by
  have hf := evalWithin_agrees_after hef limit env
  have he := evalWithin_agrees_after hfe limit env
  refine ⟨hf.outcome.symm.trans hw, he.outcome.trans hv, Environment.ext fun name => ?_⟩
  rw [get?_evalWithin_after hef, get?_evalWithin_after hfe]
  have unchanged : ∀ g : Expr, name ∉ g.targets →
      (evalWithin limit g env).env.get? name = env.get? name :=
    fun g hname => get?_evalAt_of_not_mem_targets hname 0 env
  by_cases hnameE : name ∈ e.targets
  · have hnameF : name ∉ f.targets := fun htarget =>
      hef name hnameE (targets_subset_mentioned f htarget)
    rw [if_pos hnameE, if_neg hnameF]
  · by_cases hnameF : name ∈ f.targets
    · rw [if_neg hnameE, if_pos hnameF]
    · rw [if_neg hnameE, if_neg hnameF, unchanged f hnameF, unchanged e hnameE]

end

/-- Two definitions, of which neither reads the other. -/
theorem independent_evaluations_commute_for_definitions :
    let e := list [symbol "define", symbol "x", symbol "a"]
    let f := list [symbol "define", symbol "y", list [symbol "define", symbol "z", symbol "a"]]
    let env : Environment Empty := .define .empty "a" (.number (.int 7))
    e.Spares f ∧ f.Spares e ∧
    (evalWithin none e env).outcome = .ok .unspecified ∧
    (evalWithin none f (evalWithin none e env).env).outcome = .ok .unspecified ∧
    (evalWithin none e (evalWithin none f env).env).env
      = (evalWithin none f (evalWithin none e env).env).env := by
  intro e f env
  have hef : e.Spares f := by decide
  have hfe : f.Spares e := by decide
  have hv : (evalWithin none e env).outcome = .ok .unspecified := by rfl
  have hw : (evalWithin none f (evalWithin none e env).env).outcome = .ok .unspecified := by rfl
  exact ⟨hef, hfe, hv, hw, (independent_evaluations_commute hef hfe none env hv hw).2.2⟩

end FlatLisp.Expr
