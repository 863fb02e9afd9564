/-
FlatLisp.Expr.Read — expressions from tokens.

One expression is read from the front of a token list in a single pass; the
lists that are still open are kept in a stack, innermost first. A reading
says what came of it and which tokens are left, also where it failed: an
error has consumed the token that caused it, and running out of tokens has
consumed them all.
-/
import FlatLisp.Expr
import FlatLisp.Limit

namespace FlatLisp

/-- What came of reading one expression, and the tokens that are left. -/
structure Reading where
  outcome : Except ReadError Expr
  rest : List Token

/-- What may follow the first expression of a source text. -/
inductive TrailingPolicy where
  /-- Nothing: left-over tokens are an error. -/
  | reject
  /-- Anything: left-over tokens are dropped. -/
  | ignore
deriving DecidableEq, Repr

/-- Reading options. Without a `depthLimit` lists may nest without bound. -/
structure ReadOptions where
  trailing : TrailingPolicy := .reject
  depthLimit : Limit := none

namespace Expr

/-- Reads on while the lists of `stack` are open, innermost first; each holds
its items with the last one first. -/
def readOpen (limit : Limit) : (stack : List (List Expr)) → List Token → Reading
  | [], [] => ⟨.error .endOfInput, []⟩
  | _ :: _, [] => ⟨.error .endOfList, []⟩
  | [], .closing :: rest => ⟨.error .unmatchedClosing, rest⟩
  | [items], .closing :: rest => ⟨.ok (list items.reverse), rest⟩
  | items :: outer :: stack, .closing :: rest =>
    readOpen limit ((list items.reverse :: outer) :: stack) rest
  | [], .word w :: rest => ⟨.ok (atom (.ofWord w)), rest⟩
  | items :: stack, .word w :: rest =>
    readOpen limit ((atom (.ofWord w) :: items) :: stack) rest
  | stack, .opening :: rest =>
    match limit.reached? stack.length with
    | some most => ⟨.error (.tooDeep most), rest⟩
    | none => readOpen limit ([] :: stack) rest

@[simp] theorem readOpen_nil (limit : Limit) :
    readOpen limit [] [] = ⟨.error .endOfInput, []⟩ := rfl

@[simp] theorem readOpen_cons_nil (limit : Limit) (items : List Expr) (stack : List (List Expr)) :
    readOpen limit (items :: stack) [] = ⟨.error .endOfList, []⟩ := rfl

theorem readOpen_opening (limit : Limit) (stack : List (List Expr)) (rest : List Token) :
    readOpen limit stack (.opening :: rest) =
      match limit.reached? stack.length with
      | some most => ⟨.error (.tooDeep most), rest⟩
      | none => readOpen limit ([] :: stack) rest := by
  cases stack <;> rfl

theorem readOpen_closing_inner (limit : Limit) (items outer : List Expr)
    (stack : List (List Expr)) (rest : List Token) :
    readOpen limit (items :: outer :: stack) (.closing :: rest)
      = readOpen limit ((list items.reverse :: outer) :: stack) rest := rfl

theorem readOpen_word_inner (limit : Limit) (items : List Expr) (stack : List (List Expr))
    (w : String) (rest : List Token) :
    readOpen limit (items :: stack) (.word w :: rest)
      = readOpen limit ((atom (.ofWord w) :: items) :: stack) rest := rfl

/-- Reads one expression from the front of a token list, with at most `limit`
lists open at a time. -/
def readWithin (limit : Limit) (tokens : List Token) : Reading :=
  readOpen limit [] tokens

/-- Reads one expression from the front of a token list. -/
def read (tokens : List Token) : Reading :=
  readWithin none tokens

/-- The expression that a source text holds. -/
def parseWith (options : ReadOptions) (source : String) : Except ReadError Expr :=
  let reading := readWithin options.depthLimit (tokenize source)
  match reading.outcome with
  | .error cause => .error cause
  | .ok e =>
    match options.trailing, reading.rest with
    | .reject, _ :: _ => .error (.trailing reading.rest)
    | _, _ => .ok e

/-- The one expression that a source text consists of. -/
def parse (source : String) : Except ReadError Expr :=
  parseWith {} source

end Expr

end FlatLisp
