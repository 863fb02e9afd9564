/-
FlatLisp.Proofs.Tasks — the parts that an evaluation is made of, and what a
failure in one of them leaves behind.

An evaluation is a task, and so is the call of a procedure. `Starts` says
which tasks a task starts directly, in what environment and after which
effects; `Reaches` follows that down. The only things a task does by itself
are to complete a definition, once its body has a value, and to print the
lines of a call (`Does`). Three facts give the rest:

* a task that is reached is passed through (`Reaches.passesThrough`): its
  effects come next, and if it fails the whole evaluation ends there, with
  its error, its environment and nothing done after it;
* it runs in the environment that the effects before it give
  (`Reaches.env_eq`);
* every effect is done by a task that is reached, at its place in the order
  (`concat_prefix_iff_produces`).
-/
import FlatLisp.Proofs.Names

namespace FlatLisp

variable {H : Type}

/-! ## Runs that pass through others -/

/-- The run `r` passes through the run `s` after the effects `past`: what `s`
does comes next, and if `s` fails then `r` ends there with the same error. -/
structure Run.PassesThrough {α β : Type} (r : Run H α) (past : List (Effect H)) (s : Run H β) :
    Prop where
  effects : past ++ s.effects <+: r.effects
  failure : ∀ cause, s.outcome = .error cause →
    r.outcome = .error cause ∧ r.env = s.env ∧ r.effects = past ++ s.effects

namespace Run

variable {α β γ : Type}

theorem PassesThrough.refl (r : Run H α) : r.PassesThrough [] r where
  effects := List.prefix_refl _
  failure := fun _ h => ⟨h, rfl, rfl⟩

theorem PassesThrough.trans {r : Run H α} {s : Run H β} {t : Run H γ}
    {past past' : List (Effect H)} (h : r.PassesThrough past s) (h' : s.PassesThrough past' t) :
    r.PassesThrough (past ++ past') t where
  effects := by
    have hs := (List.prefix_append_right_inj past).mpr h'.effects
    rw [List.append_assoc]
    exact hs.trans h.effects
  failure := by
    intro cause ht
    obtain ⟨hout', henv', heff'⟩ := h'.failure cause ht
    obtain ⟨hout, henv, heff⟩ := h.failure cause hout'
    exact ⟨hout, henv.trans henv', by rw [heff, heff', List.append_assoc]⟩

/-- Going on after a run does not change what it passed through. -/
theorem PassesThrough.andThen {r : Run H α} {s : Run H γ} {past : List (Effect H)}
    (h : r.PassesThrough past s) (next : α → Environment H → Run H β) :
    (r.andThen next).PassesThrough past s := by
  obtain ⟨outcome, env, effects⟩ := r
  cases outcome with
  | error cause =>
    refine ⟨h.effects, ?_⟩
    intro cause' hs
    obtain ⟨hout, hrest⟩ := h.failure cause' hs
    cases hout
    exact ⟨rfl, hrest⟩
  | ok a =>
    refine ⟨?_, ?_⟩
    · exact h.effects.trans (List.prefix_append effects (next a env).effects)
    · intro cause hs
      exact absurd (h.failure cause hs).1 (by simp)

/-- What passes through a run that goes on passes through its first part. -/
theorem PassesThrough.first {r : Run H α} {s : Run H β} {next : β → Environment H → Run H γ}
    {past : List (Effect H)} (h : r.PassesThrough past (s.andThen next)) :
    r.PassesThrough past s := by
  have hs := h.trans ((PassesThrough.refl s).andThen next)
  rw [List.append_nil] at hs
  exact hs

/-- A run that goes on with a value passes through the rest of it. -/
theorem passesThrough_next {r : Run H α} {a : α} {env : Environment H} {past : List (Effect H)}
    (hr : r = ⟨.ok a, env, past⟩) (next : α → Environment H → Run H β) :
    (r.andThen next).PassesThrough past (next a env) := by
  subst hr
  refine ⟨List.prefix_refl _, ?_⟩
  intro cause hs
  exact ⟨hs, rfl, rfl⟩

end Run

/-! ## One effect at a time -/

/-- A place in a sequence of two parts is in the first or in the second. -/
theorem concat_prefix_append {α : Type} {x : α} {past xs ys : List α}
    (h : past ++ [x] <+: xs ++ ys) :
    past ++ [x] <+: xs ∨ ∃ past', past = xs ++ past' ∧ past' ++ [x] <+: ys := by
  -- the lengths alone decide which part the place is in
  rcases Nat.lt_or_ge past.length xs.length with hlt | hle
  · left
    refine List.prefix_of_prefix_length_le h (List.prefix_append xs ys) ?_
    simp
    omega
  · right
    have hpast : past <+: xs ++ ys := (List.prefix_append past [x]).trans h
    obtain ⟨past', rfl⟩ := List.prefix_of_prefix_length_le (List.prefix_append xs ys) hpast hle
    rw [List.append_assoc] at h
    exact ⟨past', rfl, (List.prefix_append_right_inj xs).mp h⟩

theorem not_concat_prefix_nil {α : Type} {x : α} {past : List α} : ¬ past ++ [x] <+: [] := by
  simp

theorem concat_prefix_singleton {α : Type} {x y : α} {past : List α} :
    past ++ [x] <+: [y] ↔ past = [] ∧ x = y := by
  cases past <;> simp

/-- There is one effect at each place. -/
theorem concat_prefix_inj {α : Type} {x y : α} {past xs : List α} (hx : past ++ [x] <+: xs)
    (hy : past ++ [y] <+: xs) : x = y := by
  have heq := (List.prefix_of_prefix_length_le hx hy (by simp)).eq_of_length (by simp)
  exact List.singleton_inj.mp (List.append_cancel_left heq)

/-- An effect of a run that goes on is one of its first part or comes
after it. -/
theorem Run.concat_prefix_andThen {α β : Type} {r : Run H α} {next : α → Environment H → Run H β}
    {past : List (Effect H)} {x : Effect H} (h : past ++ [x] <+: (r.andThen next).effects) :
    past ++ [x] <+: r.effects ∨
      ∃ a env past₁ past₂, r = ⟨.ok a, env, past₁⟩ ∧ past = past₁ ++ past₂ ∧
        past₂ ++ [x] <+: (next a env).effects := by
  obtain ⟨outcome, env, effects⟩ := r
  cases outcome with
  | error cause => exact .inl h
  | ok a =>
    have h' : past ++ [x] <+: effects ++ (next a env).effects := h
    rcases concat_prefix_append h' with hfirst | ⟨past', hpast, hsecond⟩
    · exact .inl hfirst
    · exact .inr ⟨a, env, effects, past', rfl, hpast, hsecond⟩

/-! ## Tasks -/

/-- Something that evaluation has to do in some environment. -/
inductive Task (H : Type) where
  /-- Evaluate an expression inside `depth` others. -/
  | evaluate (depth : Nat) (e : Expr) (env : Environment H)
  /-- Call a value with arguments. -/
  | call (f : Value H) (args : List (Value H)) (env : Environment H)

namespace Task

/-- The environment that a task starts in. -/
def env : Task H → Environment H
  | evaluate _ _ env => env
  | call _ _ env => env

/-- The names that a task may define. -/
def targets : Task H → List String
  | evaluate _ e _ => e.targets
  | call _ _ _ => []

variable [Host H]

/-- What comes of a task. -/
def run (limit : Limit) : Task H → Run H (Value H)
  | evaluate depth e env => Expr.evalAt limit depth e env
  | call f args env => .ofReply env (f.call args)

/-- A task starts another directly, after the effects in between. -/
inductive Starts (limit : Limit) : Task H → List (Effect H) → Task H → Prop
  | test {depth : Nat} (h : limit.reached? depth = none) (test consequent alternative : Expr)
      (env : Environment H) :
      Starts limit (evaluate depth (.list [.symbol "if", test, consequent, alternative]) env) []
        (evaluate (depth + 1) test env)
  | branch {depth : Nat} (h : limit.reached? depth = none) {test : Expr}
      {env env' : Environment H} {v : Value H} {past : List (Effect H)}
      (htest : Expr.evalAt limit (depth + 1) test env = ⟨.ok v, env', past⟩)
      (consequent alternative : Expr) :
      Starts limit (evaluate depth (.list [.symbol "if", test, consequent, alternative]) env) past
        (evaluate (depth + 1) (if v.isTruthy then consequent else alternative) env')
  | body {depth : Nat} (h : limit.reached? depth = none) (name : String) (body : Expr)
      (env : Environment H) :
      Starts limit (evaluate depth (.list [.symbol "define", .symbol name, body]) env) []
        (evaluate (depth + 1) body env)
  | head {depth : Nat} (h : limit.reached? depth = none) {head : Expr}
      (hk : head.keyword? = none) (operands : List Expr) (env : Environment H) :
      Starts limit (evaluate depth (.list (head :: operands)) env) []
        (evaluate (depth + 1) head env)
  | operand {depth : Nat} (h : limit.reached? depth = none) {head : Expr}
      (hk : head.keyword? = none) {before : List Expr} {env env₁ env₂ : Environment H}
      {f : Value H} {vs : List (Value H)} {past₁ past₂ : List (Effect H)}
      (hhead : Expr.evalAt limit (depth + 1) head env = ⟨.ok f, env₁, past₁⟩)
      (hbefore : Expr.evalEach limit (depth + 1) before env₁ = ⟨.ok vs, env₂, past₂⟩)
      (e : Expr) (after : List Expr) :
      Starts limit (evaluate depth (.list (head :: (before ++ e :: after))) env) (past₁ ++ past₂)
        (evaluate (depth + 1) e env₂)
  | procedure {depth : Nat} (h : limit.reached? depth = none) {head : Expr}
      (hk : head.keyword? = none) {operands : List Expr} {env env₁ env₂ : Environment H}
      {f : Value H} {args : List (Value H)} {past₁ past₂ : List (Effect H)}
      (hhead : Expr.evalAt limit (depth + 1) head env = ⟨.ok f, env₁, past₁⟩)
      (hoperands : Expr.evalEach limit (depth + 1) operands env₁ = ⟨.ok args, env₂, past₂⟩) :
      Starts limit (evaluate depth (.list (head :: operands)) env) (past₁ ++ past₂)
        (call f args env₂)

/-- A task comes to another on its way, after the effects in between. -/
inductive Reaches (limit : Limit) : Task H → List (Effect H) → Task H → Prop
  | refl (t : Task H) : Reaches limit t [] t
  | next {t t' t'' : Task H} {past past' : List (Effect H)} (h : Starts limit t past t')
      (h' : Reaches limit t' past' t'') : Reaches limit t (past ++ past') t''

/-- A task has an effect by itself, after the effects of the tasks that it
started: a definition completes once its body has a value, and a call prints
its lines. -/
inductive Does (limit : Limit) : Task H → List (Effect H) → Effect H → Prop
  | define {depth : Nat} (h : limit.reached? depth = none) {name : String} {body : Expr}
      {env env' : Environment H} {v : Value H} {past : List (Effect H)}
      (hbody : Expr.evalAt limit (depth + 1) body env = ⟨.ok v, env', past⟩) :
      Does limit (evaluate depth (.list [.symbol "define", .symbol name, body]) env) past
        (.defined name v)
  | print {f : Value H} {args : List (Value H)} {lines : List String} {line : String}
      (h : lines ++ [line] <+: (f.call args).printed) (env : Environment H) :
      Does limit (call f args env) (lines.map .printed) (.printed line)

/-- A task comes to a task that has an effect by itself, after the effects
`past` in all. -/
def Produces (limit : Limit) (t : Task H) (past : List (Effect H)) (x : Effect H) : Prop :=
  ∃ past₁ past₂ t', past = past₁ ++ past₂ ∧ t.Reaches limit past₁ t' ∧ t'.Does limit past₂ x

variable {limit : Limit}

theorem Does.produces {t : Task H} {past : List (Effect H)} {x : Effect H}
    (h : t.Does limit past x) : t.Produces limit past x :=
  ⟨[], past, t, rfl, .refl t, h⟩

theorem Produces.next {t t' : Task H} {past past' : List (Effect H)} {x : Effect H}
    (h : Starts limit t past t') (h' : t'.Produces limit past' x) :
    t.Produces limit (past ++ past') x := by
  obtain ⟨past₁, past₂, t'', rfl, hreach, hdoes⟩ := h'
  exact ⟨past ++ past₁, past₂, t'', (List.append_assoc ..).symm, .next h hreach, hdoes⟩

/-! ## What one start preserves -/

/-- A task passes through the tasks that it starts. -/
theorem Starts.passesThrough {t t' : Task H} {past : List (Effect H)}
    (h : Starts limit t past t') : (t.run limit).PassesThrough past (t'.run limit) := by
  cases h with
  | test h =>
    rw [run, Expr.evalAt_list h, Expr.evalForm_if]
    exact (Run.PassesThrough.refl _).andThen _
  | @branch depth h test env env' v past htest consequent alternative =>
    rw [run, Expr.evalAt_list h, Expr.evalForm_if, run]
    have hrest := Run.passesThrough_next htest fun v env =>
      if v.isTruthy then Expr.evalAt limit (depth + 1) consequent env
      else Expr.evalAt limit (depth + 1) alternative env
    cases hv : v.isTruthy <;> simpa [hv] using hrest
  | body h =>
    rw [run, Expr.evalAt_list h, Expr.evalForm_define]
    exact (Run.PassesThrough.refl _).andThen _
  | head h hk =>
    rw [run, Expr.evalAt_list h, Expr.evalForm_call hk]
    exact (Run.PassesThrough.refl _).andThen _
  | @operand depth h head hk before env env₁ env₂ f vs past₁ past₂ hhead hbefore e after =>
    rw [run, Expr.evalAt_list h, Expr.evalForm_call hk]
    have hoperands : (Expr.evalEach limit (depth + 1) (before ++ e :: after) env₁).PassesThrough
        past₂ (Expr.evalAt limit (depth + 1) e env₂) := by
      rw [Expr.evalEach_append]
      have hrest := Run.passesThrough_next hbefore fun vs env =>
        (Expr.evalEach limit (depth + 1) (e :: after) env).andThen fun ws env =>
          .ok env (vs ++ ws)
      rw [Expr.evalEach_cons] at hrest
      -- drop the operands after `e`, then the collecting of the values
      exact hrest.first.first
    exact (Run.passesThrough_next hhead _).trans (hoperands.andThen _)
  | procedure h hk hhead hoperands =>
    rw [run, Expr.evalAt_list h, Expr.evalForm_call hk]
    exact (Run.passesThrough_next hhead _).trans (Run.passesThrough_next hoperands _)

/-- A task starts others in the environment that the effects so far give. -/
theorem Starts.env_eq {t t' : Task H} {past : List (Effect H)} (h : Starts limit t past t') :
    t'.env = t.env.replay past := by
  cases h with
  | test => rfl
  | branch h htest => exact (Expr.env_evalAt ..).env_eq htest
  | body => rfl
  | head => rfl
  | operand h hk hhead hbefore =>
    rw [Environment.replay_append]
    simp only [env, ← (Expr.env_evalAt ..).env_eq hhead]
    exact (Expr.env_evalEach ..).env_eq hbefore
  | procedure h hk hhead hoperands =>
    rw [Environment.replay_append]
    simp only [env, ← (Expr.env_evalAt ..).env_eq hhead]
    exact (Expr.env_evalEach ..).env_eq hoperands

/-- The parts of an expression define nothing that it does not. -/
theorem Starts.targets_subset {t t' : Task H} {past : List (Effect H)}
    (h : Starts limit t past t') : t'.targets ⊆ t.targets := by
  intro name hname
  cases h with
  | test => exact Expr.targets_item_subset (by simp) hname
  | @branch depth _ test env env' v =>
    cases hv : v.isTruthy <;> simp only [hv] at hname <;>
      exact Expr.targets_item_subset (by simp) hname
  | body => exact Expr.targets_item_subset (by simp) hname
  | head => exact Expr.targets_item_subset (by simp) hname
  | operand => exact Expr.targets_item_subset (by simp) hname
  | procedure => cases hname

/-! ## What a whole way preserves -/

/-- A task passes through all tasks that it comes to. -/
theorem Reaches.passesThrough {t t' : Task H} {past : List (Effect H)}
    (h : Reaches limit t past t') : (t.run limit).PassesThrough past (t'.run limit) := by
  induction h with
  | refl t => exact .refl _
  | next h _ ih => exact h.passesThrough.trans ih

/-- A task comes to others in the environment that the effects so far give. -/
theorem Reaches.env_eq {t t' : Task H} {past : List (Effect H)} (h : Reaches limit t past t') :
    t'.env = t.env.replay past := by
  induction h with
  | refl t => rfl
  | next h _ ih => rw [ih, h.env_eq, Environment.replay_append]

theorem Reaches.targets_subset {t t' : Task H} {past : List (Effect H)}
    (h : Reaches limit t past t') : t'.targets ⊆ t.targets := by
  induction h with
  | refl t => exact List.Subset.refl _
  | next h _ ih => exact List.Subset.trans ih h.targets_subset

/-! ## Where effects come from -/

/-- What a task does by itself is among its effects. -/
theorem Does.concat_prefix {t : Task H} {past : List (Effect H)} {x : Effect H}
    (h : t.Does limit past x) : past ++ [x] <+: (t.run limit).effects := by
  cases h with
  | define h hbody =>
    rw [run, Expr.evalAt_list h, Expr.evalForm_define, hbody]
    exact List.prefix_refl _
  | @print f args lines line h env =>
    have hmap := List.IsPrefix.map (Effect.printed (H := H)) h
    rw [List.map_append] at hmap
    exact hmap

theorem Produces.concat_prefix {t : Task H} {past : List (Effect H)} {x : Effect H}
    (h : t.Produces limit past x) : past ++ [x] <+: (t.run limit).effects := by
  obtain ⟨past₁, past₂, t', rfl, hreach, hdoes⟩ := h
  rw [List.append_assoc]
  exact ((List.prefix_append_right_inj past₁).mpr hdoes.concat_prefix).trans
    hreach.passesThrough.effects

/-- The effects of a call are the lines that it prints. -/
theorem produces_of_call {f : Value H} {args : List (Value H)} {env : Environment H}
    {past : List (Effect H)} {x : Effect H}
    (h : past ++ [x] <+: (Run.ofReply env (f.call args)).effects) :
    (call f args env).Produces limit past x := by
  obtain ⟨shown, hshown, hmap⟩ := List.prefix_map_iff.mp h
  obtain ⟨lines, last, rfl, rfl, hlast⟩ := List.append_eq_map_iff.mp hmap
  obtain ⟨line, rfl, rfl⟩ : ∃ line, last = [line] ∧ x = .printed line := by
    match last, hlast with
    | [line], hlast => exact ⟨line, rfl, (List.singleton_inj.mp hlast).symm⟩
  exact (Does.print hshown env).produces

/-- An effect of operands is one of an operand, after those before it. -/
theorem exists_operand_of_concat_prefix {depth : Nat} {x : Effect H} (es : List Expr) :
    ∀ (env : Environment H) (past : List (Effect H)),
      past ++ [x] <+: (Expr.evalEach limit depth es env).effects →
      ∃ before e after vs env' past₁ past₂, es = before ++ e :: after ∧
        Expr.evalEach limit depth before env = ⟨.ok vs, env', past₁⟩ ∧ past = past₁ ++ past₂ ∧
        past₂ ++ [x] <+: (Expr.evalAt limit depth e env').effects := by
  induction es with
  | nil =>
    intro env past h
    rw [Expr.evalEach_nil] at h
    exact absurd h not_concat_prefix_nil
  | cons e es ih =>
    intro env past h
    rw [Expr.evalEach_cons] at h
    rcases Run.concat_prefix_andThen h with hfirst | ⟨v, env', past₁, past₂, he, rfl, hrest⟩
    · exact ⟨[], e, es, [], env, [], past, rfl, Expr.evalEach_nil env, rfl, hfirst⟩
    · rcases Run.concat_prefix_andThen hrest with hrest | ⟨vs, env'', past₃, past₄, _, rfl, hnone⟩
      · obtain ⟨before, e', after, vs, env'', past₃, past₄, rfl, hbefore, rfl, he'⟩ :=
          ih env' past₂ hrest
        refine ⟨e :: before, e', after, v :: vs, env'', past₁ ++ past₃, past₄, rfl, ?_,
          (List.append_assoc ..).symm, he'⟩
        rw [Expr.evalEach_cons, he]
        simp [Run.andThen, hbefore, Run.ok]
      · exact absurd hnone not_concat_prefix_nil

/-- Where the limit is reached nothing is done. -/
theorem reached?_eq_none_of_effect {depth : Nat} {e : Expr} {env : Environment H}
    {past : List (Effect H)} {x : Effect H}
    (h : past ++ [x] <+: (Expr.evalAt limit depth e env).effects) :
    limit.reached? depth = none := by
  cases hr : limit.reached? depth with
  | none => rfl
  | some most =>
    rw [Expr.evalAt_of_reached hr] at h
    exact absurd h not_concat_prefix_nil

/-- Every effect of an evaluation is done by a task that it comes to. -/
theorem produces_of_evaluate {x : Effect H} (e : Expr) :
    ∀ (depth : Nat) (env : Environment H) (past : List (Effect H)),
      past ++ [x] <+: (Expr.evalAt limit depth e env).effects →
      (evaluate depth e env).Produces limit past x := by
  induction e using Expr.inductionOnForms with
  | number n =>
    intro depth env past h
    rw [Expr.evalAt_number (reached?_eq_none_of_effect h)] at h
    exact absurd h not_concat_prefix_nil
  | symbol name =>
    intro depth env past h
    rw [Expr.evalAt_symbol (reached?_eq_none_of_effect h)] at h
    cases hv : env.get? name <;> rw [hv] at h <;> exact absurd h not_concat_prefix_nil
  | empty =>
    intro depth env past h
    rw [Expr.evalAt_list (reached?_eq_none_of_effect h), Expr.evalForm_nil] at h
    exact absurd h not_concat_prefix_nil
  | conditional test consequent alternative ihtest ihconsequent ihalternative =>
    intro depth env past h
    have hr := reached?_eq_none_of_effect h
    rw [Expr.evalAt_list hr, Expr.evalForm_if] at h
    rcases Run.concat_prefix_andThen h with hfirst | ⟨v, env', past₁, past₂, htest, rfl, hrest⟩
    · exact (ihtest _ env past hfirst).next (.test hr test consequent alternative env)
    · have hstart := Starts.branch hr htest consequent alternative
      -- the value of the test selects the hypothesis for the branch that runs
      cases hv : v.isTruthy with
      | true =>
        simp only [hv, if_true] at hrest hstart
        exact (ihconsequent _ env' past₂ hrest).next hstart
      | false =>
        simp only [hv, Bool.false_eq_true, if_false] at hrest hstart
        exact (ihalternative _ env' past₂ hrest).next hstart
  | definition name body ih =>
    intro depth env past h
    have hr := reached?_eq_none_of_effect h
    rw [Expr.evalAt_list hr, Expr.evalForm_define] at h
    rcases Run.concat_prefix_andThen h with hfirst | ⟨v, env', past₁, past₂, hbody, rfl, hrest⟩
    · exact (ih _ env past hfirst).next (.body hr name body env)
    · obtain ⟨rfl, rfl⟩ := concat_prefix_singleton.mp hrest
      rw [List.append_nil]
      exact (Does.define hr hbody).produces
  | illFormed items cause hf =>
    intro depth env past h
    rw [Expr.evalAt_list (reached?_eq_none_of_effect h), Expr.evalForm_of_formError hf] at h
    exact absurd h not_concat_prefix_nil
  | call head operands hk ihhead ihoperands =>
    intro depth env past h
    have hr := reached?_eq_none_of_effect h
    rw [Expr.evalAt_list hr, Expr.evalForm_call hk] at h
    rcases Run.concat_prefix_andThen h with hfirst | ⟨f, env₁, past₁, past₂, hhead, rfl, hrest⟩
    · exact (ihhead _ env past hfirst).next (.head hr hk operands env)
    · rcases Run.concat_prefix_andThen hrest with
        hrest | ⟨args, env₂, past₃, past₄, hoperands, rfl, hcall⟩
      · obtain ⟨before, e, after, vs, env₂, past₃, past₄, rfl, hbefore, rfl, he⟩ :=
          exists_operand_of_concat_prefix operands env₁ past₂ hrest
        rw [← List.append_assoc]
        exact (ihoperands e (by simp) _ env₂ past₄ he).next
          (.operand hr hk hhead hbefore e after)
      · rw [← List.append_assoc]
        exact (produces_of_call hcall).next (.procedure hr hk hhead hoperands)

/-- **The effects of a task are those that it produces**, in their order. -/
theorem concat_prefix_iff_produces {t : Task H} {past : List (Effect H)} {x : Effect H} :
    past ++ [x] <+: (t.run limit).effects ↔ t.Produces limit past x := by
  constructor
  · intro h
    cases t with
    | evaluate depth e env => exact produces_of_evaluate e depth env past h
    | call f args env => exact produces_of_call h
  · exact Produces.concat_prefix

theorem Does.mem_targets {t : Task H} {past : List (Effect H)} {name : String} {v : Value H}
    (h : t.Does limit past (.defined name v)) : name ∈ t.targets := by
  cases h with
  | define => exact Expr.mem_targets_define ..

theorem Produces.mem_targets {t : Task H} {past : List (Effect H)} {name : String} {v : Value H}
    (h : t.Produces limit past (.defined name v)) : name ∈ t.targets := by
  obtain ⟨past₁, past₂, t', rfl, hreach, hdoes⟩ := h
  exact hreach.targets_subset hdoes.mem_targets

/-- A definition that is reached completes exactly if its body has a value. -/
theorem completes_iff {depth : Nat} {name : String} {body : Expr} {env : Environment H}
    {r : Run H (Value H)} {past : List (Effect H)} (hr : limit.reached? depth = none)
    (h : r.PassesThrough past
      (run limit (evaluate depth (.list [.symbol "define", .symbol name, body]) env)))
    (v : Value H) :
    past ++ (Expr.evalAt limit (depth + 1) body env).effects ++ [.defined name v] <+: r.effects ↔
      (Expr.evalAt limit (depth + 1) body env).outcome = .ok v := by
  rw [run, Expr.evalAt_list hr, Expr.evalForm_define] at h
  generalize Expr.evalAt limit (depth + 1) body env = s at h ⊢
  obtain ⟨outcome, env', effects⟩ := s
  cases outcome with
  | error cause =>
    -- the run ends with the body, so no effect comes after it
    have hend : r.effects = past ++ effects := (h.failure cause rfl).2.2
    refine ⟨?_, fun hv => nomatch hv⟩
    intro hpre
    have hlen := hpre.length_le
    simp only [hend, List.length_append, List.length_singleton] at hlen
    omega
  | ok w =>
    have hdone : past ++ effects ++ [.defined name w] <+: r.effects := by
      rw [List.append_assoc]
      exact h.effects
    constructor
    · intro hpre
      cases concat_prefix_inj hpre hdone
      rfl
    · intro hv
      cases hv
      exact hdone

end Task

/-! ## What stays as it was -/

theorem Environment.contains_define_of_contains {env : Environment H} {name : String}
    (h : env.contains name = true) (other : String) (v : Value H) :
    (env.define other v).contains name = true := by
  rw [contains_eq_isSome] at h ⊢
  rw [get?_define]
  split <;> simp [h]

/-- Effects unbind nothing. -/
theorem Environment.contains_replay {name : String} (effects : List (Effect H)) :
    ∀ {env : Environment H}, env.contains name = true →
      (env.replay effects).contains name = true := by
  induction effects with
  | nil => exact id
  | cons x effects ih =>
    intro env h
    refine ih ?_
    cases x with
    | defined other v => exact contains_define_of_contains h other v
    | printed line => exact h

/-- Where the binding of a name is another one after several effects, it was
defined on the way. -/
theorem Environment.exists_defined_of_get?_replay_ne {name : String}
    (effects : List (Effect H)) : ∀ {env : Environment H},
      (env.replay effects).get? name ≠ env.get? name →
      ∃ past v, past ++ [.defined name v] <+: effects := by
  induction effects with
  | nil => exact fun h => absurd rfl h
  | cons x effects ih =>
    intro env h
    by_cases hx : (x.apply env).get? name = env.get? name
    · have hrest : ((x.apply env).replay effects).get? name ≠ (x.apply env).get? name := by
        rw [hx]
        exact h
      obtain ⟨past, v, hpast⟩ := ih hrest
      exact ⟨x :: past, v, by simpa using hpast⟩
    · cases x with
      | defined other v =>
        by_cases hname : other = name
        · exact ⟨[], v, by simp [hname]⟩
        · exact absurd (by simp [Effect.apply, get?_define, hname]) hx
      | printed line => exact absurd rfl hx

namespace Expr

variable [Host H] {limit : Limit}

/-- Evaluation leaves the binding of a name alone that no definition in the
expression has as its target. -/
theorem get?_evalAt_of_not_mem_targets {name : String} {e : Expr} (h : name ∉ e.targets)
    (depth : Nat) (env : Environment H) :
    (evalAt limit depth e env).env.get? name = env.get? name := by
  refine Classical.byContradiction fun hne => ?_
  rw [env_evalAt limit depth e env] at hne
  obtain ⟨past, v, hpast⟩ := Environment.exists_defined_of_get?_replay_ne _ hne
  exact h (Task.produces_of_evaluate e depth env past hpast).mem_targets

/-! ## The work that is done -/

/-- **Definitions are all that changes an environment, and a failure keeps
the work done before it.** The environment that an evaluation leaves is the
one it started in, overwritten by its completed definitions in their order.
Every effect is done by a task on the way, at its place, and every such effect
is kept. A task on the way runs in the environment that the effects before it
give; its own effects come next; if it fails the evaluation ends with its
error and environment, and nothing is done after it. A definition on the way
completes exactly if its body has a value. No name becomes unbound, and only
targets of definitions in the expression change. -/
theorem evaluation_keeps_work_done (limit : Limit) (e : Expr) (env : Environment H) :
    (evalWithin limit e env).env = env.replay (evalWithin limit e env).effects ∧
    (∀ past x, past ++ [x] <+: (evalWithin limit e env).effects ↔
      (Task.evaluate 0 e env).Produces limit past x) ∧
    (∀ past task, (Task.evaluate 0 e env).Reaches limit past task →
      task.env = env.replay past ∧ (evalWithin limit e env).PassesThrough past (task.run limit)) ∧
    (∀ past depth name body env', limit.reached? depth = none →
      (Task.evaluate 0 e env).Reaches limit past
        (.evaluate depth (list [symbol "define", symbol name, body]) env') →
      ∀ v, past ++ (evalAt limit (depth + 1) body env').effects ++ [.defined name v]
          <+: (evalWithin limit e env).effects ↔
        (evalAt limit (depth + 1) body env').outcome = .ok v) ∧
    (∀ name, env.contains name = true → (evalWithin limit e env).env.contains name = true) ∧
    (∀ name, (evalWithin limit e env).env.get? name ≠ env.get? name → name ∈ e.targets) := by
  have hreplay : (evalWithin limit e env).env = env.replay (evalWithin limit e env).effects :=
    env_evalAt limit 0 e env
  refine ⟨hreplay, ?_, ?_, ?_, ?_, ?_⟩
  · intro past x
    exact Task.concat_prefix_iff_produces (t := .evaluate 0 e env)
  · intro past task h
    exact ⟨h.env_eq, h.passesThrough⟩
  · intro past depth name body env' hr h v
    exact Task.completes_iff hr h.passesThrough v
  · intro name h
    rw [hreplay]
    exact Environment.contains_replay _ h
  · intro name h
    refine Classical.byContradiction fun hname => ?_
    exact h (get?_evalAt_of_not_mem_targets hname 0 env)

end Expr

end FlatLisp
