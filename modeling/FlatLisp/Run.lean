/-
FlatLisp.Run — what evaluation does on its way to a value.

Evaluation defines names and prints lines, in a certain order. A run keeps
that order as a list of effects beside the outcome and the environment that
it left behind; failing does not undo what was done before.
-/
import FlatLisp.Environment
import FlatLisp.Reply

namespace FlatLisp

/-- One thing that an evaluation did. -/
inductive Effect (H : Type) where
  /-- A definition was completed. -/
  | defined (name : String) (value : Value H)
  /-- A line was printed. -/
  | printed (line : String)

/-- The outcome of an evaluation, the environment that it left, and its
effects, first one first. -/
structure Run (H : Type) (α : Type) where
  outcome : Except Error α
  env : Environment H
  effects : List (Effect H)

namespace Run

variable {H α β : Type}

/-- A value without effects. -/
def ok (env : Environment H) (a : α) : Run H α := ⟨.ok a, env, []⟩

/-- An error without effects. -/
def error (env : Environment H) (e : Error) : Run H α := ⟨.error e, env, []⟩

/-- A reply as a run: its lines are effects. -/
def ofReply (env : Environment H) (r : Reply α) : Run H α :=
  ⟨r.outcome, env, r.printed.map .printed⟩

/-- A definition. -/
def define (env : Environment H) (name : String) (value : Value H) : Run H (Value H) :=
  ⟨.ok .unspecified, env.define name value, [.defined name value]⟩

/-- Goes on with the value of a run in the environment that it left; an error
is final. -/
def andThen (r : Run H α) (next : α → Environment H → Run H β) : Run H β :=
  match r.outcome with
  | .error e => ⟨.error e, r.env, r.effects⟩
  | .ok a =>
    let s := next a r.env
    ⟨s.outcome, s.env, r.effects ++ s.effects⟩

/-- The lines that were printed, first one first. -/
def printedLines (r : Run H α) : List String :=
  r.effects.filterMap fun
    | .printed line => some line
    | .defined _ _ => none

@[simp] theorem ok_andThen (env : Environment H) (a : α)
    (next : α → Environment H → Run H β) : (ok env a).andThen next = next a env := by
  simp [ok, andThen]

@[simp] theorem andThen_ok (r : Run H α) : (r.andThen fun a env => ok env a) = r := by
  obtain ⟨outcome, env, effects⟩ := r
  cases outcome <;> simp [ok, andThen]

theorem andThen_assoc {γ : Type} (r : Run H α) (f : α → Environment H → Run H β)
    (g : β → Environment H → Run H γ) :
    (r.andThen f).andThen g = r.andThen fun a env => (f a env).andThen g := by
  obtain ⟨outcome, env, effects⟩ := r
  cases outcome with
  | error e => rfl
  | ok a =>
    cases h : (f a env).outcome <;> simp [andThen, h, List.append_assoc]

@[simp] theorem error_andThen (env : Environment H) (e : Error)
    (next : α → Environment H → Run H β) : (error env e).andThen next = error env e := rfl

end Run

end FlatLisp
