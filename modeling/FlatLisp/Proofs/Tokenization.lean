/-
FlatLisp.Proofs.Tokenization — the tokens of a text are the only faithful way
to cut it up.

`IsTokenization` says what that means without a lexer. Nothing but separators
is lost, each token is a parenthesis or a word, and the text is the tokens in
order with separators in front, between and behind them, where two words never
follow each other at once. The last condition makes words as long as they can
be. `isTokenization_iff` says that just one list of texts meets the
conditions, the one that `tokenize` gives.

A derivation of `Interleaves` goes through the text from the left as lexing
does. One direction follows the derivation, and the other the characters,
where the word that is pending has been put in front of the rest.
-/
import FlatLisp.Proofs.Lexing

namespace FlatLisp

/-! ## Faithful tokens -/

/-- The text of a parenthesis. -/
def IsParenthesis (t : String) : Prop :=
  t = "(" ∨ t = ")"

/-- The text of a token. -/
def IsTokenText (t : String) : Prop :=
  IsParenthesis t ∨ IsWord t

/-- The characters are those of the tokens in order, with separators in
between. What follows a word starts with a separator if the next token is a
word, too. -/
inductive Interleaves : List String → List Char → Prop
  | nil : Interleaves [] []
  | separator {tokens : List String} {cs : List Char} {c : Char} (hc : isSeparator c = true)
      (h : Interleaves tokens cs) : Interleaves tokens (c :: cs)
  | token {t : String} {tokens : List String} {cs : List Char}
      (hapart : ¬ IsParenthesis t → ∀ u ∈ tokens.head?, ¬ IsParenthesis u →
        ∃ c ∈ cs.head?, isSeparator c = true)
      (h : Interleaves tokens cs) : Interleaves (t :: tokens) (t.toList ++ cs)

/-- The texts are the tokens of the source. -/
structure IsTokenization (source : String) (tokens : List String) : Prop where
  /-- Nothing but separators is lost. -/
  kept : tokens.flatMap String.toList = source.toList.filter (!isSeparator ·)
  /-- Every text is that of a token. -/
  whole : ∀ t ∈ tokens, IsTokenText t
  /-- The source is the tokens in order, with separators between words. -/
  apart : Interleaves tokens source.toList

theorem IsWord.not_isParenthesis {t : String} (h : IsWord t) : ¬ IsParenthesis t := by
  rintro (rfl | rfl)
  · exact absurd (h.not_delimiter '(' (by simp)) (by decide)
  · exact absurd (h.not_delimiter ')' (by simp)) (by decide)

/-- A token has no separators. -/
theorem IsTokenText.not_separator {t : String} (h : IsTokenText t) :
    ∀ c ∈ t.toList, isSeparator c = false := by
  intro c hc
  rcases h with (rfl | rfl) | hword
  · obtain rfl : c = '(' := by simpa using hc
    decide
  · obtain rfl : c = ')' := by simpa using hc
    decide
  · have hnot := hword.not_delimiter c hc
    simp only [isDelimiter, Bool.or_eq_false_iff] at hnot
    exact hnot.1.1

/-- A word has a first character, which is no delimiter. -/
theorem IsWord.exists_head {t : String} (h : IsWord t) :
    ∃ c cs, t.toList = c :: cs ∧ isDelimiter c = false := by
  cases ht : t.toList with
  | nil =>
    have hempty : t = "" := String.toList_inj.mp ht
    exact absurd hempty h.ne_empty
  | cons c cs => exact ⟨c, cs, rfl, h.not_delimiter c (by simp [ht])⟩

/-! ## Tokens that are interleaved -/

namespace Interleaves

variable {tokens : List String} {cs : List Char}

/-- Interleaved tokens lose separators only. -/
theorem flatMap_toList (h : Interleaves tokens cs) (hwhole : ∀ t ∈ tokens, IsTokenText t) :
    tokens.flatMap String.toList = cs.filter (!isSeparator ·) := by
  induction h with
  | nil => rfl
  | separator hc _ ih => simp [hc, ih hwhole]
  | @token t tokens cs _ _ ih =>
    have ht : t.toList.filter (!isSeparator ·) = t.toList := by
      rw [List.filter_eq_self]
      intro c hc
      simp [(hwhole t List.mem_cons_self).not_separator c hc]
    rw [List.flatMap_cons, List.filter_append, ht,
      ih fun u hu => hwhole u (List.mem_cons_of_mem t hu)]

/-- A text ends before the next word if a separator keeps the words apart. -/
theorem startsApart (h : Interleaves tokens cs) (hwhole : ∀ t ∈ tokens, IsTokenText t)
    (hnext : ∀ u ∈ tokens.head?, ¬ IsParenthesis u → ∃ c ∈ cs.head?, isSeparator c = true) :
    StartsApart cs := by
  cases h with
  | nil =>
    intro c hc
    cases hc
  | separator hc h => exact startsApart_cons (by simp [isDelimiter, hc]) _
  | @token t tokens cs _ h =>
    rcases hwhole t List.mem_cons_self with (rfl | rfl) | hword
    · exact startsApart_cons (by decide) _
    · exact startsApart_cons (by decide) _
    · obtain ⟨c, hc, hsep⟩ := hnext t rfl hword.not_isParenthesis
      intro d hd
      obtain rfl := Option.mem_unique hc hd
      simp [isDelimiter, hsep]

/-- Lexing finds interleaved tokens. -/
theorem lexFrom_eq (h : Interleaves tokens cs) (hwhole : ∀ t ∈ tokens, IsTokenText t) :
    (Token.lexFrom [] cs).map Token.text = tokens := by
  induction h with
  | nil => rfl
  | separator hc _ ih => rw [Token.lexFrom_separator hc, Token.flush_nil, ih hwhole]
  | @token t tokens cs hapart h ih =>
    have hrest : ∀ u ∈ tokens, IsTokenText u := fun u hu => hwhole u (List.mem_cons_of_mem t hu)
    rcases hwhole t List.mem_cons_self with (rfl | rfl) | hword
    · have hchars : "(".toList ++ cs = '(' :: cs := rfl
      rw [hchars, Token.lexFrom_opening, Token.flush_nil, List.map_cons, ih hrest,
        Token.text_opening]
    · have hchars : ")".toList ++ cs = ')' :: cs := rfl
      rw [hchars, Token.lexFrom_closing, Token.flush_nil, List.map_cons, ih hrest,
        Token.text_closing]
    · have hcut := h.startsApart hrest (hapart hword.not_isParenthesis)
      rw [Token.lexFrom_append hcut, Token.lexFrom_of_isWord hword, List.singleton_append,
        List.map_cons, ih hrest, Token.text_word]

/-- Where the next token is a word, the text starts with it or with a
separator. -/
theorem exists_head_of_isWord {u : String} (h : Interleaves (u :: tokens) cs) (hu : IsWord u) :
    ∃ c ∈ cs.head?, isSeparator c = true ∨ isDelimiter c = false := by
  cases h with
  | @separator _ _ c hc h => exact ⟨c, rfl, .inl hc⟩
  | token _ h =>
    obtain ⟨c, cs', hchars, hc⟩ := hu.exists_head
    exact ⟨c, by simp [hchars], .inr hc⟩

/-- A pending word is one more token where it ends. -/
theorem flush {pending : List Char} {rest : List Token} (h : Interleaves (rest.map Token.text) cs)
    (hcs : StartsApart cs) (hwhole : ∀ t ∈ rest.map Token.text, IsTokenText t)
    (hp : ∀ c ∈ pending, isDelimiter c = false) :
    Interleaves ((Token.flush pending rest).map Token.text) (pending.reverse ++ cs) := by
  cases pending with
  | nil => exact h
  | cons c pending =>
    have hchars : (c :: pending).reverse ++ cs
        = (String.ofList (c :: pending).reverse).toList ++ cs := by
      rw [String.toList_ofList]
    rw [Token.flush, List.map_cons, Token.text_word, hchars]
    refine .token ?_ h
    intro _ u hu hparen
    obtain ⟨tokens, htokens⟩ := List.head?_eq_some_iff.mp hu
    rw [htokens] at h hwhole
    have huword := (hwhole u List.mem_cons_self).resolve_left hparen
    obtain ⟨d, hd, hsep | hword⟩ := h.exists_head_of_isWord huword
    · exact ⟨d, hd, hsep⟩
    · rw [hcs d hd] at hword
      cases hword

end Interleaves

/-! ## The tokens that lexing finds -/

namespace Token

theorem isTokenText_text {t : Token} (h : ∀ w, t = word w → IsWord w) : IsTokenText t.text := by
  cases t with
  | opening => exact .inl (.inl rfl)
  | closing => exact .inl (.inr rfl)
  | word w => exact .inr (h w rfl)

theorem isTokenText_of_mem_lexFrom {pending cs : List Char}
    (hp : ∀ c ∈ pending, isDelimiter c = false) :
    ∀ t ∈ (lexFrom pending cs).map text, IsTokenText t := by
  intro s hs
  obtain ⟨t, ht, rfl⟩ := List.mem_map.mp hs
  refine isTokenText_text ?_
  rintro w rfl
  exact isWord_of_mem_lexFrom cs pending w hp ht

/-- Lexing interleaves. -/
theorem interleaves_lexFrom (cs : List Char) : ∀ pending : List Char,
    (∀ c ∈ pending, isDelimiter c = false) →
    Interleaves ((lexFrom pending cs).map text) (pending.reverse ++ cs) := by
  induction cs with
  | nil =>
    intro pending hp
    refine Interleaves.flush .nil ?_ (by simp) hp
    intro c hc
    cases hc
  | cons c cs ih =>
    intro pending hp
    have hnil : ∀ d ∈ ([] : List Char), isDelimiter d = false := by simp
    have hrest : Interleaves ((lexFrom [] cs).map text) cs := ih [] hnil
    have hwhole : ∀ t ∈ (lexFrom [] cs).map text, IsTokenText t := isTokenText_of_mem_lexFrom hnil
    rcases character_cases c with rfl | rfl | hsep | hword
    · rw [lexFrom_opening]
      have hopening : Interleaves ((opening :: lexFrom [] cs).map text) ('(' :: cs) :=
        .token (fun hparen => absurd (.inl rfl) hparen) hrest
      refine hopening.flush (startsApart_cons (by decide) cs) ?_ hp
      exact List.forall_mem_cons.mpr ⟨.inl (.inl rfl), hwhole⟩
    · rw [lexFrom_closing]
      have hclosing : Interleaves ((closing :: lexFrom [] cs).map text) (')' :: cs) :=
        .token (fun hparen => absurd (.inr rfl) hparen) hrest
      refine hclosing.flush (startsApart_cons (by decide) cs) ?_ hp
      exact List.forall_mem_cons.mpr ⟨.inl (.inr rfl), hwhole⟩
    · rw [lexFrom_separator hsep]
      exact (hrest.separator hsep).flush (startsApart_cons (by simp [isDelimiter, hsep]) cs)
        hwhole hp
    · -- the character joins the pending word, which is in front of the rest as before
      rw [lexFrom_of_not_delimiter hword]
      have hjoined := ih (c :: pending) (List.forall_mem_cons.mpr ⟨hword, hp⟩)
      rwa [List.reverse_cons, List.append_assoc, List.singleton_append] at hjoined

end Token

/-- **Lexing is faithful.** The texts of the tokens of a source are a
tokenization of it, and the only one: nothing but separators is lost, every
token is a parenthesis or a word, the source is the tokens in order with
separators around them, and there is a separator between any two words that
follow each other. -/
theorem isTokenization_iff (source : String) (tokens : List String) :
    IsTokenization source tokens ↔ tokens = (tokenize source).map Token.text := by
  constructor
  · intro h
    exact (h.apart.lexFrom_eq h.whole).symm
  · rintro rfl
    have hwhole : ∀ t ∈ (tokenize source).map Token.text, IsTokenText t :=
      Token.isTokenText_of_mem_lexFrom (by simp)
    have hapart : Interleaves ((tokenize source).map Token.text) source.toList :=
      Token.interleaves_lexFrom source.toList [] (by simp)
    exact ⟨hapart.flatMap_toList hwhole, hwhole, hapart⟩

end FlatLisp
