/-
FlatLisp.Value — what programs compute with.

Besides the builtins a program may call procedures of its host; `H` is the
type of the host's procedures. A procedure has an identity of its own: two
procedures that do the same under the same name are still two.
-/
import FlatLisp.Expr
import FlatLisp.Operation

namespace FlatLisp

/-! ## Procedures and values -/

/-- What calling a procedure does. -/
inductive Code (H : Type) where
  | builtin (b : Builtin)
  | host (h : H)

/-- A procedure. Its `serial` number is its identity. -/
structure Procedure (H : Type) where
  serial : Nat
  name : String
  code : Code H

/-- A builtin as a procedure. -/
def Procedure.ofBuiltin {H : Type} (serial : Nat) (b : Builtin) : Procedure H :=
  ⟨serial, b.name, .builtin b⟩

/-- A runtime value. -/
inductive Value (H : Type) where
  | number (n : Number)
  | bool (b : Bool)
  | symbol (name : String)
  | list (items : List (Value H))
  | procedure (p : Procedure H)
  /-- The answer of `define` and `print`. -/
  | unspecified

namespace Value

variable {H : Type}

/-- An integer value. -/
abbrev int (n : Int64) : Value H := number (.int n)

/-- A double as a value. -/
abbrev float (x : Float) : Value H := number (.float x)

/-! ## Questions about values -/

/-- What counts as true: everything but false, zero, the empty list and the
unspecified value. -/
def isTruthy : Value H → Bool
  | bool b => b
  | number n => !n.isZero
  | list items => !items.isEmpty
  | unspecified => false
  | symbol _ | procedure _ => true

/-- Whether the value is the empty list. -/
def isNil : Value H → Bool
  | list [] => true
  | _ => false

/-- Whether the value is a procedure. -/
def isProcedure : Value H → Bool
  | procedure _ => true
  | _ => false

/-- The name of the kind of a value. -/
def kind : Value H → String
  | number n => n.kind
  | bool _ => "boolean"
  | symbol _ => "symbol"
  | list _ => "list"
  | procedure _ => "procedure"
  | unspecified => "unspecified"

/-! ## Equality -/

/-- Identity: atoms of one kind by value, procedures by serial number, lists
only if both are empty. -/
def identical : Value H → Value H → Bool
  | number (.int m), number (.int n) => m == n
  | number (.float x), number (.float y) => x == y
  | bool a, bool b => a == b
  | symbol a, symbol b => a == b
  | list as, list bs => as.isEmpty && bs.isEmpty
  | procedure p, procedure q => p.serial == q.serial
  | _, _ => false

mutual

/-- Structural equality: numbers by value across kinds, lists item by item.
The unspecified value equals nothing, itself included. -/
def equal : Value H → Value H → Bool
  | number a, number b => a.equal b
  | bool a, bool b => a == b
  | symbol a, symbol b => a == b
  | list as, list bs => equalItems as bs
  | procedure p, procedure q => p.serial == q.serial
  | _, _ => false

/-- Equality item by item. -/
def equalItems : List (Value H) → List (Value H) → Bool
  | [], [] => true
  | a :: as, b :: bs => a.equal b && equalItems as bs
  | _, _ => false

end

/-! ## Text -/

mutual

/-- The text that shows a value. -/
def text : Value H → String
  | number n => n.text
  | bool b => if b then "#t" else "#f"
  | symbol name => name
  | list items => "(" ++ " ".intercalate (textItems items) ++ ")"
  | procedure p => "#<procedure:" ++ p.name ++ ">"
  | unspecified => "#<unspecified>"

/-- The texts of several values. -/
def textItems : List (Value H) → List String
  | [] => []
  | v :: vs => v.text :: textItems vs

end

theorem textItems_eq_map (vs : List (Value H)) : textItems vs = vs.map text := by
  induction vs with
  | nil => rfl
  | cons v vs ih => simp [textItems, ih]

mutual

/-- The text that shows a value with the kind of everything in it. -/
def debugText : Value H → String
  | number n => n.debugText
  | bool b => if b then "Bool(true)" else "Bool(false)"
  | symbol name => "Symbol(" ++ name ++ ")"
  | list items => "List(" ++ ", ".intercalate (debugItems items) ++ ")"
  | procedure p => "Procedure(" ++ p.name ++ ")"
  | unspecified => "Unspecified"

/-- The kind-showing texts of several values. -/
def debugItems : List (Value H) → List String
  | [] => []
  | v :: vs => v.debugText :: debugItems vs

end

/-! ## Expressions as data -/

mutual

/-- An expression as data: symbols stay symbols and lists become lists. -/
def ofExpr : Expr → Value H
  | .atom (.symbol name) => symbol name
  | .atom (.number n) => number n
  | .list items => list (ofExprs items)

/-- Several expressions as data. -/
def ofExprs : List Expr → List (Value H)
  | [] => []
  | e :: es => ofExpr e :: ofExprs es

end

theorem ofExprs_eq_map (es : List Expr) : (ofExprs es : List (Value H)) = es.map ofExpr := by
  induction es with
  | nil => rfl
  | cons e es ih => simp [ofExprs, ih]

/-! ## Errors that show a value -/

/-- The value `v` was given to the procedure `name`, which needs something
`expected`. -/
def mismatch (name expected : String) (v : Value H) : Error :=
  .type (.mismatch name expected v.kind v.text)

end Value

end FlatLisp
