/-
FlatLisp.Proofs.Lexing — what the tokens of a text are, and where a text can
be cut.

A word that lexing produces is never empty and holds no delimiter
(`isWord_of_mem_lexFrom`), and a text that is such a word has it as its only
token (`lexFrom_of_isWord`). Lexing goes through a text in front of a
delimiter as if the text ended there (`lexFrom_append`), so the tokens of a
text can be found piece by piece.
-/
import FlatLisp.Token

namespace FlatLisp

/-! ## Words -/

/-- The text of a word token: not empty, and without delimiters. -/
structure IsWord (s : String) : Prop where
  ne_empty : s ≠ ""
  not_delimiter : ∀ c ∈ s.toList, isDelimiter c = false

/-- Every character is of one of the four classes that lexing tells apart. -/
theorem character_cases (c : Char) :
    c = '(' ∨ c = ')' ∨ isSeparator c = true ∨ isDelimiter c = false := by
  by_cases hopen : c = '('
  · exact .inl hopen
  · by_cases hclose : c = ')'
    · exact .inr (.inl hclose)
    · by_cases hsep : isSeparator c = true
      · exact .inr (.inr (.inl hsep))
      · right; right; right
        simp [isDelimiter, hopen, hclose, hsep]

theorem isWord_ofList {cs : List Char} (hne : cs ≠ []) (h : ∀ c ∈ cs, isDelimiter c = false) :
    IsWord (String.ofList cs) := by
  constructor
  · intro hempty
    have hlist := congrArg String.toList hempty
    rw [String.toList_ofList] at hlist
    exact hne hlist
  · rw [String.toList_ofList]
    exact h

/-- A text that ends before the next word starts: nothing, or something that
starts with a delimiter. -/
def StartsApart (cs : List Char) : Prop :=
  ∀ c ∈ cs.head?, isDelimiter c = true

theorem startsApart_cons {c : Char} (h : isDelimiter c = true) (cs : List Char) :
    StartsApart (c :: cs) := by
  intro d hd
  cases hd
  exact h

namespace Token

theorem isWord_of_mem_flush {w : String} {pending : List Char} {rest : List Token}
    (hp : ∀ c ∈ pending, isDelimiter c = false) (hrest : word w ∈ rest → IsWord w)
    (h : word w ∈ flush pending rest) : IsWord w := by
  cases pending with
  | nil => exact hrest h
  | cons c cs =>
    rw [flush, List.mem_cons] at h
    rcases h with hw | h
    · cases hw
      refine isWord_ofList (by simp) ?_
      intro d hd
      exact hp d (List.mem_reverse.mp hd)
    · exact hrest h

/-- Lexing makes words only of what can be one. -/
theorem isWord_of_mem_lexFrom (cs : List Char) : ∀ (pending : List Char) (w : String),
    (∀ c ∈ pending, isDelimiter c = false) → word w ∈ lexFrom pending cs → IsWord w := by
  induction cs with
  | nil =>
    intro pending w hp hw
    refine isWord_of_mem_flush hp ?_ hw
    intro hnil
    cases hnil
  | cons c cs ih =>
    intro pending w hp hw
    have hrest : word w ∈ lexFrom [] cs → IsWord w := ih [] w (by simp)
    rcases character_cases c with rfl | rfl | hsep | hword
    · rw [lexFrom_opening] at hw
      exact isWord_of_mem_flush hp (by simpa using hrest) hw
    · rw [lexFrom_closing] at hw
      exact isWord_of_mem_flush hp (by simpa using hrest) hw
    · rw [lexFrom_separator hsep] at hw
      exact isWord_of_mem_flush hp hrest hw
    · rw [lexFrom_of_not_delimiter hword] at hw
      refine ih (c :: pending) w ?_ hw
      intro d hd
      rw [List.mem_cons] at hd
      rcases hd with rfl | hd
      · exact hword
      · exact hp d hd

theorem isWord_of_mem_tokenize {w source : String} (h : word w ∈ tokenize source) : IsWord w :=
  isWord_of_mem_lexFrom source.toList [] w (by simp) h

theorem lexFrom_of_not_delimiters (cs : List Char) : ∀ pending : List Char,
    (∀ c ∈ cs, isDelimiter c = false) → lexFrom pending cs = flush (cs.reverse ++ pending) [] := by
  induction cs with
  | nil =>
    intro pending _
    rfl
  | cons c cs ih =>
    intro pending h
    rw [lexFrom_of_not_delimiter (h c List.mem_cons_self), ih (c :: pending)
      (fun d hd => h d (List.mem_cons_of_mem c hd)), List.reverse_cons, List.append_assoc]
    rfl

/-- A text that can be one word is one. -/
theorem lexFrom_of_isWord {s : String} (h : IsWord s) : lexFrom [] s.toList = [word s] := by
  rw [lexFrom_of_not_delimiters s.toList [] h.not_delimiter, List.append_nil]
  cases hs : s.toList.reverse with
  | nil =>
    rw [List.reverse_eq_nil_iff] at hs
    have hempty : s = "" := String.toList_inj.mp hs
    exact absurd hempty h.ne_empty
  | cons c cs =>
    rw [flush, ← hs, List.reverse_reverse, String.ofList_toList]

/-! ## Cutting a text -/

theorem flush_append (pending : List Char) (rest ts : List Token) :
    flush pending rest ++ ts = flush pending (rest ++ ts) := by
  cases pending <;> rfl

/-- A pending word ends where a delimiter comes. -/
theorem lexFrom_of_startsApart {cs : List Char} (h : StartsApart cs) (pending : List Char) :
    lexFrom pending cs = flush pending (lexFrom [] cs) := by
  cases cs with
  | nil => rfl
  | cons c cs =>
    rcases character_cases c with rfl | rfl | hsep | hword
    · rw [lexFrom_opening, lexFrom_opening, flush_nil]
    · rw [lexFrom_closing, lexFrom_closing, flush_nil]
    · rw [lexFrom_separator hsep, lexFrom_separator hsep, flush_nil]
    · rw [h c rfl] at hword
      cases hword

/-- A text can be cut in front of a delimiter. -/
theorem lexFrom_append {rest : List Char} (h : StartsApart rest) (cs : List Char) :
    ∀ pending : List Char,
      lexFrom pending (cs ++ rest) = lexFrom pending cs ++ lexFrom [] rest := by
  induction cs with
  | nil =>
    intro pending
    rw [List.nil_append, lexFrom_nil, flush_append, List.nil_append]
    exact lexFrom_of_startsApart h pending
  | cons c cs ih =>
    intro pending
    rw [List.cons_append]
    rcases character_cases c with rfl | rfl | hsep | hword
    · rw [lexFrom_opening, lexFrom_opening, flush_append, List.cons_append, ih]
    · rw [lexFrom_closing, lexFrom_closing, flush_append, List.cons_append, ih]
    · rw [lexFrom_separator hsep, lexFrom_separator hsep, flush_append, ih]
    · rw [lexFrom_of_not_delimiter hword, lexFrom_of_not_delimiter hword, ih]

end Token

/-! ## Texts put together -/

/-- Texts with blanks between them have the tokens of all of them. -/
theorem tokenize_intercalate (texts : List String) :
    tokenize (" ".intercalate texts) = texts.flatMap tokenize := by
  induction texts with
  | nil => rfl
  | cons t texts ih =>
    cases texts with
    | nil => simp
    | cons u texts =>
      have hblank : StartsApart (' ' :: (" ".intercalate (u :: texts)).toList) :=
        startsApart_cons (by decide) _
      have htext : (" ".intercalate (t :: u :: texts)).toList
          = t.toList ++ ' ' :: (" ".intercalate (u :: texts)).toList := by
        rw [String.intercalate_cons_cons, String.toList_append, String.toList_append,
          List.append_assoc]
        rfl
      rw [tokenize, htext, Token.lexFrom_append hblank, Token.lexFrom_separator (by decide),
        Token.flush_nil, List.flatMap_cons, ← ih]
      rfl

/-- Texts in parentheses have their tokens between two more. -/
theorem tokenize_parenthesized (texts : List String) :
    tokenize ("(" ++ " ".intercalate texts ++ ")")
      = .opening :: texts.flatMap tokenize ++ [.closing] := by
  have hclose : StartsApart [')'] := startsApart_cons (by decide) []
  have htext : ("(" ++ " ".intercalate texts ++ ")").toList
      = '(' :: ((" ".intercalate texts).toList ++ [')']) := by
    rw [String.toList_append, String.toList_append]
    rfl
  rw [tokenize, htext, Token.lexFrom_opening, Token.flush_nil, Token.lexFrom_append hclose,
    ← tokenize_intercalate]
  rfl

end FlatLisp
