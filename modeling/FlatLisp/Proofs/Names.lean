/-
FlatLisp.Proofs.Names — the names that an expression mentions, and the names
that it may define.

Both are read off the expression alone. `mentioned` lists every symbol except
a keyword at the head of a list, which is not a name there; `targets` lists
the names of the definitions that occur in the expression, whether they are
ever evaluated or not.
-/
import FlatLisp.Proofs.Forms

namespace FlatLisp.Expr

/-! ## Mentioned names -/

mutual

/-- The symbols in an expression, other than keywords at the head of a
list. -/
def mentioned : Expr → List String
  | atom (.symbol name) => [name]
  | atom (.number _) => []
  | list [] => []
  | list (head :: operands) =>
    (if head.keyword?.isSome then [] else head.mentioned) ++ mentionedEach operands

/-- The names that several expressions mention. -/
def mentionedEach : List Expr → List String
  | [] => []
  | e :: es => e.mentioned ++ mentionedEach es

end

@[simp] theorem mentioned_symbol (name : String) : (symbol name).mentioned = [name] := by
  simp [mentioned]

theorem mem_mentionedEach {name : String} {es : List Expr} :
    name ∈ mentionedEach es ↔ ∃ e ∈ es, name ∈ e.mentioned := by
  induction es with
  | nil => simp [mentionedEach]
  | cons e es ih => simp [mentionedEach, ih]

/-- What operands mention is mentioned whatever the head of the list is. -/
theorem mentioned_operand_subset (head : Expr) {e : Expr} {operands : List Expr}
    (he : e ∈ operands) : e.mentioned ⊆ (list (head :: operands)).mentioned := by
  intro name h
  rw [mentioned, List.mem_append]
  exact .inr (mem_mentionedEach.mpr ⟨e, he, h⟩)

/-- What a head mentions is mentioned as well if it is no keyword. -/
theorem mentioned_head_subset {head : Expr} (hk : head.keyword? = none) (operands : List Expr) :
    head.mentioned ⊆ (list (head :: operands)).mentioned := by
  intro name h
  simp [mentioned, hk, h]

/-! ## Targets of definitions -/

/-- The name that a list defines, if it is a well-formed definition. -/
def target? : List Expr → Option String
  | [head, target, _] => if head.keyword? = some .definition then target.symbol? else none
  | _ => none

mutual

/-- The targets of the definitions that occur in an expression. -/
def targets : Expr → List String
  | atom _ => []
  | list items => (target? items).toList ++ targetsEach items

/-- The targets of the definitions in several expressions. -/
def targetsEach : List Expr → List String
  | [] => []
  | e :: es => e.targets ++ targetsEach es

end

theorem mem_targetsEach {name : String} {es : List Expr} :
    name ∈ targetsEach es ↔ ∃ e ∈ es, name ∈ e.targets := by
  induction es with
  | nil => simp [targetsEach]
  | cons e es ih => simp [targetsEach, ih]

/-- The items of a list define nothing that it does not. -/
theorem targets_item_subset {e : Expr} {items : List Expr} (he : e ∈ items) :
    e.targets ⊆ (list items).targets := by
  intro name h
  rw [targets, List.mem_append]
  exact .inr (mem_targetsEach.mpr ⟨e, he, h⟩)

/-- A definition has its own target. -/
theorem mem_targets_define (name : String) (body : Expr) :
    name ∈ (list [symbol "define", symbol name, body]).targets := by
  simp [targets, target?, keyword?, symbol?]

end FlatLisp.Expr
