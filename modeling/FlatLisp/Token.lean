/-
FlatLisp.Token — source text as a list of tokens.

A parenthesis is a token by itself. Every other token is a word: a longest
run of characters that are neither separators nor parentheses. Separators
only keep words apart and leave no token of their own, so lexing is total:
any text at all has a token list.
-/
namespace FlatLisp

/-! ## Character classes -/

/-- Characters with the Unicode property `White_Space`. -/
def isWhiteSpace (c : Char) : Bool :=
  let n := c.toNat
  (0x09 ≤ n && n ≤ 0x0D) || n == 0x20 || n == 0x85 || n == 0xA0 || n == 0x1680
    || (0x2000 ≤ n && n ≤ 0x200A) || n == 0x2028 || n == 0x2029 || n == 0x202F
    || n == 0x205F || n == 0x3000

/-- The four ASCII information separators, U+001C to U+001F. -/
def isInformationSeparator (c : Char) : Bool :=
  0x1C ≤ c.toNat && c.toNat ≤ 0x1F

/-- Characters that keep words apart and belong to no token. -/
def isSeparator (c : Char) : Bool :=
  isWhiteSpace c || isInformationSeparator c

/-- Characters that cannot occur inside a word. -/
def isDelimiter (c : Char) : Bool :=
  isSeparator c || c == '(' || c == ')'

/-! ## Tokens -/

/-- A parenthesis or a word. -/
inductive Token where
  | opening
  | closing
  | word (text : String)
deriving DecidableEq, Repr, Inhabited

namespace Token

/-- The characters of the source that the token stands for. -/
def text : Token → String
  | opening => "("
  | closing => ")"
  | word text => text

/-- A pending word, held with its last character first, put in front of the
tokens that follow it; an empty word leaves no token. -/
def flush (pending : List Char) (rest : List Token) : List Token :=
  match pending with
  | [] => rest
  | _ :: _ => word (String.ofList pending.reverse) :: rest

/-- The tokens of `pending.reverse ++ cs`, where `pending` is the part of a
word that has been read so far, last character first. -/
def lexFrom (pending : List Char) : List Char → List Token
  | [] => flush pending []
  | c :: cs =>
    if c = '(' then flush pending (opening :: lexFrom [] cs)
    else if c = ')' then flush pending (closing :: lexFrom [] cs)
    else if isSeparator c then flush pending (lexFrom [] cs)
    else lexFrom (c :: pending) cs

/-- The tokens with single spaces between them. -/
def joined (tokens : List Token) : String :=
  " ".intercalate (tokens.map text)

/-! ## Equations

One equation for each class of character, so that a proof can step over one
character without opening the definition. -/

@[simp] theorem text_opening : opening.text = "(" := rfl

@[simp] theorem text_closing : closing.text = ")" := rfl

@[simp] theorem text_word (s : String) : (word s).text = s := rfl

@[simp] theorem flush_nil (rest : List Token) : flush [] rest = rest := rfl

@[simp] theorem lexFrom_nil (pending : List Char) :
    lexFrom pending [] = flush pending [] := rfl

@[simp] theorem lexFrom_opening (pending cs : List Char) :
    lexFrom pending ('(' :: cs) = flush pending (opening :: lexFrom [] cs) := rfl

@[simp] theorem lexFrom_closing (pending cs : List Char) :
    lexFrom pending (')' :: cs) = flush pending (closing :: lexFrom [] cs) := rfl

theorem lexFrom_separator {c : Char} (h : isSeparator c = true) (pending cs : List Char) :
    lexFrom pending (c :: cs) = flush pending (lexFrom [] cs) := by
  have hopen : c ≠ '(' := by rintro rfl; exact absurd h (by decide)
  have hclose : c ≠ ')' := by rintro rfl; exact absurd h (by decide)
  simp [lexFrom, hopen, hclose, h]

theorem lexFrom_of_not_delimiter {c : Char} (h : isDelimiter c = false)
    (pending cs : List Char) : lexFrom pending (c :: cs) = lexFrom (c :: pending) cs := by
  simp only [isDelimiter, Bool.or_eq_false_iff, beq_eq_false_iff_ne] at h
  simp [lexFrom, h.1.1, h.1.2, h.2]

end Token

/-- The tokens of a source text, in order. -/
def tokenize (source : String) : List Token :=
  Token.lexFrom [] source.toList

end FlatLisp
