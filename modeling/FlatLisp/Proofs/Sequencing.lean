/-
FlatLisp.Proofs.Sequencing — one `begin` around several source texts does what
the texts do one after the other.

`begin` is an ordinary procedure, so its operands are evaluated from left to
right, each in the environment that the one before it left, up to the first
failure; the procedure itself only picks the last value. That is just what
running the texts in turn comes to. The text put together reads as the call
(`parse_sequenceText`) because blanks keep the tokens of the parts apart and a
spelling is read in full whatever follows it. The head is evaluated before the
operands, so one of them may well redefine `begin`.

Inside the call the texts are evaluated one level deeper than by themselves.
Without a limit the depth plays no part (`evalAt_none`).
-/
import FlatLisp.Proofs.Calls
import FlatLisp.Proofs.Forms
import FlatLisp.Proofs.Grammar
import FlatLisp.Proofs.Lexing

namespace FlatLisp

/-! ## Texts in sequence -/

/-- The text of a call of `begin` with the texts as its operands. -/
def sequenceText (sources : List String) : String :=
  "(begin " ++ " ".intercalate sources ++ ")"

/-- Runs source texts one after the other, each in the environment that the
one before it left, up to the first failure; the value is that of the last
one. -/
def runInTurn {H : Type} [Host H] (first : String) (others : List String) (env : Environment H) :
    Run H (Value H) :=
  match others with
  | [] => run first env
  | next :: others => (run first env).andThen fun _ env => runInTurn next others env

/-! ## Reading the call -/

namespace Expr

theorem exists_exprs_of_accepted {sources : List String}
    (h : ∀ s ∈ sources, ∃ e, parse s = .ok e) :
    ∃ es : List Expr, sources.map parse = es.map .ok := by
  induction sources with
  | nil => exact ⟨[], rfl⟩
  | cons s sources ih =>
    obtain ⟨e, he⟩ := h s List.mem_cons_self
    obtain ⟨es, hes⟩ := ih fun s' hs' => h s' (List.mem_cons_of_mem s hs')
    exact ⟨e :: es, by simp [he, hes]⟩

theorem derivesItems_of_accepted {sources : List String} :
    ∀ {es : List Expr}, sources.map parse = es.map .ok →
      DerivesItems (sources.flatMap tokenize) es := by
  induction sources with
  | nil =>
    intro es h
    obtain rfl : es = [] := by simpa using h.symm
    exact .nil
  | cons s sources ih =>
    intro es h
    match es, h with
    | e :: es, h =>
      obtain ⟨he, hes⟩ := List.cons.inj h
      obtain ⟨p, hp, hderives⟩ := derives_of_read ((parse_ok_iff s e).mp he)
      rw [List.append_nil] at hp
      rw [List.flatMap_cons, hp]
      exact .cons hderives (ih hes)

/-- Texts that are accepted are the operands of the call that they make up. -/
theorem parse_sequenceText {first : String} {others : List String} {es : List Expr}
    (h : (first :: others).map parse = es.map .ok) :
    parse (sequenceText (first :: others)) = .ok (.list (symbol "begin" :: es)) := by
  have htext : sequenceText (first :: others)
      = "(" ++ " ".intercalate ("begin" :: first :: others) ++ ")" := by
    rw [sequenceText, String.intercalate_cons_cons]
    simp only [← String.append_assoc]
    rfl
  have hhead : Derives (tokenize "begin") (symbol "begin") := .word "begin"
  have hread := read_of_derives (.list (.cons hhead (derivesItems_of_accepted h))) []
  rw [parse_ok_iff, htext, tokenize_parenthesized, List.flatMap_cons]
  simpa using hread

/-! ## Evaluating the call -/

variable {H : Type} [Host H]

/-- Without a limit it makes no difference how many expressions an evaluation
is inside of. -/
theorem evalAt_none (e : Expr) :
    ∀ depth (env : Environment H), evalAt none depth e env = eval e env := by
  have hr : ∀ depth, Limit.reached? none depth = none := Limit.reached?_none
  induction e using inductionOnForms with
  | number n =>
    intro depth env
    rw [eval, evalWithin, evalAt_number (hr _), evalAt_number (hr _)]
  | symbol name =>
    intro depth env
    rw [eval, evalWithin, evalAt_symbol (hr _), evalAt_symbol (hr _)]
  | empty =>
    intro depth env
    rw [eval, evalWithin, evalAt_list (hr _), evalAt_list (hr _), evalForm_nil, evalForm_nil]
  | conditional test consequent alternative ihtest ihconsequent ihalternative =>
    intro depth env
    rw [eval, evalWithin, evalAt_list (hr _), evalAt_list (hr _), evalForm_if, evalForm_if]
    simp only [ihtest, ihconsequent, ihalternative]
  | definition name body ih =>
    intro depth env
    rw [eval, evalWithin, evalAt_list (hr _), evalAt_list (hr _), evalForm_define, evalForm_define]
    simp only [ih]
  | illFormed items cause hf =>
    intro depth env
    rw [eval, evalWithin, evalAt_list (hr _), evalAt_list (hr _), evalForm_of_formError hf,
      evalForm_of_formError hf]
  | call head operands hk ihhead ihoperands =>
    intro depth env
    rw [eval, evalWithin, evalAt_list (hr _), evalAt_list (hr _), evalForm_call hk,
      evalForm_call hk]
    have heach : ∀ env,
        evalEach none (depth + 1) operands env = evalEach none (0 + 1) operands env :=
      evalEach_congr fun e he env => by rw [ihoperands e he, ihoperands e he]
    simp only [ihhead, heach]

end Expr

section

variable {H : Type} [Host H]

/-- `begin` answers with its last argument. -/
theorem call_begin (serial : Nat) (name : String) (v : Value H) (vs : List (Value H)) :
    (Value.builtin serial name (.operation .begin)).call (v :: vs) = .ok (vs.getLastD v) := by
  rw [Value.call_builtin, if_pos (by simp [Builtin.arity, Operation.arity, Arity.accepts]),
    Builtin.body_operation]
  simp [Operation.eval, Operation.evalBegin, Reply.ok, List.getLast?_cons]

theorem run_of_parse {s : String} {e : Expr} (h : Expr.parse s = .ok e) (env : Environment H) :
    run s env = e.eval env := by
  have hread : Expr.parseWith {} s = .ok e := h
  rw [run, evalSource, hread]
  rfl

/-- The values of several expressions, of which the last one is kept, are what
running their texts in turn comes to. -/
theorem evalEach_last_eq_runInTurn (depth : Nat) {others : List String} :
    ∀ {first : String} {e : Expr} {es : List Expr}, Expr.parse first = .ok e →
      others.map Expr.parse = es.map .ok → ∀ env : Environment H,
        ((Expr.evalAt none depth e env).andThen fun v env =>
          (Expr.evalEach none depth es env).andThen fun vs env => .ok env (vs.getLastD v))
          = runInTurn first others env := by
  induction others with
  | nil =>
    intro first e es he hes env
    obtain rfl : es = [] := by simpa using hes.symm
    simp [runInTurn, run_of_parse he, Expr.evalAt_none]
  | cons next others ih =>
    intro first e es he hes env
    match es, hes with
    | e' :: es, hes =>
      obtain ⟨he', hes⟩ := List.cons.inj hes
      -- the last of `v :: vs` is the last of `vs` or else `v`, which the hypothesis runs through
      simp only [runInTurn, run_of_parse he, Expr.evalAt_none e, Expr.evalEach_cons,
        Run.andThen_assoc, Run.ok_andThen, List.getLastD_cons, ih he' hes]

/-- **One `begin` does what its operands do in turn.** In an environment that
binds `begin` to the builtin, under whatever identity and name, running the
text of a call of `begin` with accepted texts as its operands is the same run
as running these texts one after the other up to the first failure: the same
outcome, the same environment and the same effects in the same order. The
texts may define anything, `begin` included. -/
theorem run_sequenceText_eq_runInTurn {env : Environment H} {serial : Nat} {name : String}
    (hbegin : env.get? "begin" = some (.builtin serial name (.operation .begin)))
    {first : String} {others : List String}
    (haccepted : ∀ s ∈ first :: others, ∃ e, Expr.parse s = .ok e) :
    run (sequenceText (first :: others)) env = runInTurn first others env := by
  obtain ⟨es, hes⟩ := Expr.exists_exprs_of_accepted haccepted
  have hparse := Expr.parse_sequenceText hes
  match es, hes with
  | e :: es, hes =>
    obtain ⟨he, hes⟩ := List.cons.inj hes
    -- the head is looked up first, so what the operands make of `begin` comes too late
    have hhead : Expr.evalAt none 1 (.symbol "begin") env
        = .ok env (.builtin serial name (.operation .begin)) := by
      rw [Expr.evalAt_symbol (Limit.reached?_none 1), hbegin]
    rw [run_of_parse hparse, Expr.eval, Expr.evalWithin,
      Expr.evalAt_list (Limit.reached?_none 0), Expr.evalForm_call rfl, hhead, Run.ok_andThen,
      Expr.evalEach_cons, ← evalEach_last_eq_runInTurn 1 he hes]
    simp only [Run.andThen_assoc, Run.ok_andThen, call_begin]
    rfl

/-- The first text redefines `begin`, and the second one reads it. -/
theorem run_sequenceText_redefining_begin :
    (Environment.define (H := Empty) .empty "begin" (.builtin 0 "begin" (.operation .begin))).get?
        "begin" = some (.builtin 0 "begin" (.operation .begin)) ∧
      (∀ s ∈ ["(define begin 7)", "begin"], ∃ e, Expr.parse s = .ok e) ∧
      run (sequenceText ["(define begin 7)", "begin"])
          (.define (H := Empty) .empty "begin" (.builtin 0 "begin" (.operation .begin)))
        = runInTurn "(define begin 7)" ["begin"]
          (.define .empty "begin" (.builtin 0 "begin" (.operation .begin))) := by
  have hbegin := Environment.get?_define_self (H := Empty) .empty "begin"
    (.builtin 0 "begin" (.operation .begin))
  have haccepted : ∀ s ∈ ["(define begin 7)", "begin"], ∃ e, Expr.parse s = .ok e := by
    intro s hs
    rcases List.mem_cons.mp hs with rfl | hs
    · exact ⟨.list [.symbol "define", .symbol "begin", .number (.int 7)], by rfl⟩
    · obtain rfl := List.mem_singleton.mp hs
      exact ⟨.symbol "begin", by rfl⟩
  exact ⟨hbegin, haccepted, run_sequenceText_eq_runInTurn hbegin haccepted⟩

end

end FlatLisp
