/-
FlatLisp.Expr — expressions.

An expression is a symbol, a number or a list of expressions. Which of the
first two a word stands for is decided once, when it is read.
-/
import FlatLisp.Number
import FlatLisp.Decimal.Numeral

namespace FlatLisp

/-- An indivisible expression. -/
inductive Atom where
  | symbol (name : String)
  | number (n : Number)
deriving DecidableEq

/-- An expression. -/
inductive Expr where
  | atom (a : Atom)
  | list (items : List Expr)

namespace Atom

/-- The atom that a word stands for: an integer if it is an integer literal in
the 64-bit range, else a double if it is a float literal, else the symbol of
that name. -/
def ofWord (word : String) : Atom :=
  match (Numeral.integer? word.toList).bind Number.ofInt? with
  | some n => number n
  | none =>
    match Numeral.float? word.toList with
    | some x => number (.float x)
    | none => symbol word

/-- The text of an atom. -/
def text : Atom → String
  | symbol name => name
  | number n => n.text

/-- Symbols are equal by name and numbers by value. -/
def equal : Atom → Atom → Bool
  | symbol a, symbol b => a == b
  | number a, number b => a.equal b
  | _, _ => false

end Atom

namespace Expr

/-- The symbol of the given name. -/
abbrev symbol (name : String) : Expr := atom (.symbol name)

/-- The number as an expression. -/
abbrev number (n : Number) : Expr := atom (.number n)

/-- The name, if the expression is a symbol. -/
def symbol? : Expr → Option String
  | atom (.symbol name) => some name
  | _ => none

mutual

/-- The text of an expression: the items of a list between parentheses, with
single spaces. -/
def text : Expr → String
  | atom a => a.text
  | list items => "(" ++ " ".intercalate (textItems items) ++ ")"

/-- The texts of several expressions. -/
def textItems : List Expr → List String
  | [] => []
  | e :: es => e.text :: textItems es

end

theorem textItems_eq_map (es : List Expr) : textItems es = es.map text := by
  induction es with
  | nil => rfl
  | cons e es ih => simp [textItems, ih]

mutual

/-- Equal atoms in lists of the same shape. -/
def equal : Expr → Expr → Bool
  | atom a, atom b => a.equal b
  | list as, list bs => equalItems as bs
  | _, _ => false

/-- Equality item by item. -/
def equalItems : List Expr → List Expr → Bool
  | [], [] => true
  | a :: as, b :: bs => a.equal b && equalItems as bs
  | _, _ => false

end

end Expr

end FlatLisp
