/-
FlatLisp.Proofs.RoundTrip — the text of an expression reads back to the
expression.

An expression is well formed when every symbol in it is a word that stands
for that symbol: one called `1` would be read back as a number, and one called
`a b` as two symbols. Reading makes well-formed expressions only, and the text
of a well-formed expression, of any nesting, holds that expression again: the
same lists with the same symbols, integers and doubles in them.

## How the proof goes

`tokens` says which tokens the text of an expression should have. Lexing cuts
the text at the blanks and parentheses that were put between its parts, so it
finds these tokens (`tokenize_text`), and they spell the expression
(`derives_tokens`); what is left is the correspondence of reading and
grammar. At the leaves a symbol is read back because it is well formed, and a
number because of `ofWord_text`.
-/
import FlatLisp.Proofs.NumberText
import FlatLisp.Proofs.Profile

namespace FlatLisp

/-! ## Well-formed expressions -/

/-- A symbol is well formed when its name is a word that stands for it. -/
def Atom.WellFormed : Atom → Prop
  | symbol name => IsWord name ∧ ofWord name = symbol name
  | number _ => True

/-- Every symbol in the expression is well formed. -/
inductive Expr.WellFormed : Expr → Prop
  | atom {a : Atom} (h : a.WellFormed) : WellFormed (.atom a)
  | list {items : List Expr} (h : ∀ e ∈ items, WellFormed e) : WellFormed (.list items)

/-- A word is read as a well-formed atom. -/
theorem wellFormed_ofWord {w : String} (h : IsWord w) : (Atom.ofWord w).WellFormed := by
  cases hatom : Atom.ofWord w with
  | symbol name =>
    have hname : name = w := by
      unfold Atom.ofWord at hatom
      split at hatom
      · cases hatom
      · split at hatom
        · cases hatom
        · cases hatom
          rfl
    rw [hname] at hatom ⊢
    exact ⟨h, hatom⟩
  | number n => trivial

theorem Atom.WellFormed.isWord {a : Atom} (h : a.WellFormed) : IsWord a.text := by
  cases a with
  | symbol name => exact h.1
  | number n => exact isWord_text n

/-- A well-formed atom is read back from its text. -/
theorem Atom.WellFormed.ofWord_text {a : Atom} (h : a.WellFormed) : ofWord a.text = a := by
  cases a with
  | symbol name => exact h.2
  | number n => exact FlatLisp.ofWord_text n

/-! ## What is read is well formed -/

mutual

theorem Derives.wellFormed {p : List Token} {e : Expr} (h : Derives p e)
    (hp : ∀ w, Token.word w ∈ p → IsWord w) : e.WellFormed := by
  cases h with
  | word w => exact .atom (wellFormed_ofWord (hp w List.mem_cons_self))
  | list h =>
    refine .list (DerivesItems.wellFormed h ?_)
    intro w hw
    exact hp w (by simp [hw])

theorem DerivesItems.wellFormed {p : List Token} {items : List Expr} (h : DerivesItems p items)
    (hp : ∀ w, Token.word w ∈ p → IsWord w) : ∀ e ∈ items, e.WellFormed := by
  cases h with
  | nil =>
    intro e he
    cases he
  | cons h hs =>
    have hfirst := Derives.wellFormed h (fun w hw => hp w (List.mem_append_left _ hw))
    have hothers := DerivesItems.wellFormed hs (fun w hw => hp w (List.mem_append_right _ hw))
    intro e he
    rcases List.mem_cons.mp he with rfl | he
    · exact hfirst
    · exact hothers e he

end

namespace Expr

/-- A limit changes nothing in a successful reading. -/
theorem read_of_readWithin {limit : Limit} {ts rest : List Token} {e : Expr}
    (h : readWithin limit ts = ⟨.ok e, rest⟩) : read ts = ⟨.ok e, rest⟩ := by
  cases limit with
  | none => exact h
  | some most =>
    rcases readWithin_limited most ts with hsame | ⟨rest', hdeep⟩
    · rw [← hsame]
      exact h
    · rw [hdeep] at h
      cases h

/-- An expression that a text holds is spelled by the first tokens of it. -/
theorem derives_of_parseWith {options : ReadOptions} {source : String} {e : Expr}
    (h : parseWith options source = .ok e) :
    ∃ p rest, tokenize source = p ++ rest ∧ Derives p e := by
  rw [parseWith_eq] at h
  rcases hr : readWithin options.depthLimit (tokenize source) with ⟨outcome, rest⟩
  rw [hr] at h
  cases outcome with
  | error cause => cases h
  | ok e' =>
    have he : e' = e := by
      dsimp only at h
      split at h
      · cases h
      · cases h
        rfl
    rw [he] at hr
    obtain ⟨p, hsplit, hp⟩ := derives_of_read (read_of_readWithin hr)
    exact ⟨p, rest, hsplit, hp⟩

theorem wellFormed_of_parseWith {options : ReadOptions} {source : String} {e : Expr}
    (h : parseWith options source = .ok e) : e.WellFormed := by
  obtain ⟨p, rest, hsplit, hp⟩ := derives_of_parseWith h
  refine hp.wellFormed ?_
  intro w hw
  have hmem : Token.word w ∈ tokenize source := by
    rw [hsplit]
    exact List.mem_append_left _ hw
  exact Token.isWord_of_mem_tokenize hmem

/-! ## The tokens of a text -/

mutual

/-- The tokens of the text of an expression. -/
def tokens : Expr → List Token
  | atom a => [.word a.text]
  | list items => .opening :: tokensItems items ++ [.closing]

/-- The tokens of several expressions, one after the other. -/
def tokensItems : List Expr → List Token
  | [] => []
  | e :: es => e.tokens ++ tokensItems es

end

mutual

/-- The tokens of a well-formed expression spell it. -/
theorem derives_tokens {e : Expr} (h : e.WellFormed) : Derives e.tokens e := by
  cases h with
  | @atom a h =>
    have hword := Derives.word a.text
    rw [h.ofWord_text] at hword
    exact hword
  | @list items h => exact .list (derivesItems_tokens items h)

theorem derivesItems_tokens (items : List Expr) (h : ∀ e ∈ items, e.WellFormed) :
    DerivesItems (tokensItems items) items := by
  cases items with
  | nil => exact .nil
  | cons e es =>
    exact .cons (derives_tokens (h e List.mem_cons_self))
      (derivesItems_tokens es (fun f hf => h f (List.mem_cons_of_mem e hf)))

end

mutual

/-- Lexing finds in the text of a well-formed expression just the tokens that
were put there. -/
theorem tokenize_text {e : Expr} (h : e.WellFormed) : tokenize e.text = e.tokens := by
  cases h with
  | @atom a h => exact Token.lexFrom_of_isWord h.isWord
  | @list items h => rw [text, tokenize_parenthesized, tokenize_textItems items h, tokens]

theorem tokenize_textItems (items : List Expr) (h : ∀ e ∈ items, e.WellFormed) :
    (textItems items).flatMap tokenize = tokensItems items := by
  cases items with
  | nil => rfl
  | cons e es =>
    have he := tokenize_text (h e List.mem_cons_self)
    have hes := tokenize_textItems es (fun f hf => h f (List.mem_cons_of_mem e hf))
    rw [textItems, List.flatMap_cons, he, hes, tokensItems]

end

/-- The text of a well-formed expression holds that expression. -/
theorem parse_text {e : Expr} (h : e.WellFormed) : parse e.text = .ok e := by
  have hread := read_of_derives (derives_tokens h) []
  rw [List.append_nil, ← tokenize_text h] at hread
  exact (parse_ok_iff e.text e).mpr hread

/-- **Printing and reading are inverse on everything that reading can
build.** Every expression that a text holds is well formed, whatever the
options; the text of a well-formed expression holds the very same expression;
so showing what was read and reading it again changes nothing. -/
theorem reading_inverts_text :
    (∀ (options : ReadOptions) (source : String) (e : Expr),
      parseWith options source = .ok e → e.WellFormed) ∧
    (∀ e : Expr, e.WellFormed → parse e.text = .ok e) ∧
    (∀ (options : ReadOptions) (source : String) (e : Expr),
      parseWith options source = .ok e → parse e.text = .ok e) := by
  refine ⟨?_, ?_, ?_⟩
  · intro options source e h
    exact wellFormed_of_parseWith h
  · intro e h
    exact parse_text h
  · intro options source e h
    exact parse_text (wellFormed_of_parseWith h)

end Expr

end FlatLisp
