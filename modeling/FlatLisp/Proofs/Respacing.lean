/-
FlatLisp.Proofs.Respacing — which changes of blank space keep the tokens.

A run of separators between two texts leaves the tokens of both, and none is
needed where one of the texts has a delimiter at the cut or is empty
(`lexFrom_append_blank`). So separators can be put in and taken out wherever a
delimiter or an end of the text stays beside them, and nowhere else: the last
separator between two words holds them apart, and without it they are one token
(`lexFrom_append_blank_eq_iff`).

`Respaced` closes these changes up to any number of them. A text can be turned
into its tokens with single blanks between them in that way, so two texts have
the same tokens if and only if they differ in spacing only (`tokenize_eq_iff_respaced`).
-/
import FlatLisp.Expr.Read
import FlatLisp.Proofs.Tokenization
import Mathlib.Logic.Relation

namespace FlatLisp

/-! ## Ends of a text -/

/-- A run of separators, possibly of none. -/
def IsBlank (cs : List Char) : Prop :=
  ∀ c ∈ cs, isSeparator c = true

/-- A text after which no word can go on: nothing, or something that ends with a
delimiter. -/
def EndsApart (cs : List Char) : Prop :=
  ∀ c ∈ cs.getLast?, isDelimiter c = true

instance (cs : List Char) : Decidable (IsBlank cs) :=
  List.decidableBAll (fun c => isSeparator c = true) cs

instance (cs : List Char) : Decidable (EndsApart cs) :=
  Option.decidableForallMem cs.getLast?

instance (cs : List Char) : Decidable (StartsApart cs) :=
  Option.decidableForallMem cs.head?

theorem isDelimiter_of_isSeparator {c : Char} (h : isSeparator c = true) :
    isDelimiter c = true := by
  simp [isDelimiter, h]

theorem endsApart_nil : EndsApart [] := by
  intro c hc
  cases hc

theorem endsApart_concat_iff {cs : List Char} {c : Char} :
    EndsApart (cs ++ [c]) ↔ isDelimiter c = true := by
  simp [EndsApart]

theorem EndsApart.append {a b : List Char} (ha : EndsApart a) (hb : EndsApart b) :
    EndsApart (a ++ b) := by
  rcases List.eq_nil_or_concat b with rfl | ⟨b, c, rfl⟩
  · rwa [List.append_nil]
  · rw [List.concat_eq_append] at hb ⊢
    rw [← List.append_assoc, endsApart_concat_iff]
    exact endsApart_concat_iff.mp hb

theorem IsBlank.startsApart {s : List Char} (hs : IsBlank s) (hne : s ≠ []) (cs : List Char) :
    StartsApart (s ++ cs) := by
  obtain ⟨c, s, rfl⟩ := List.exists_cons_of_ne_nil hne
  exact startsApart_cons (isDelimiter_of_isSeparator (hs c List.mem_cons_self)) (s ++ cs)

namespace Token

variable {a s b : List Char}

/-! ## Texts with separators between them -/

/-- Separators in front of a text leave no token. -/
theorem lexFrom_blank (hs : IsBlank s) (cs : List Char) : lexFrom [] (s ++ cs) = lexFrom [] cs := by
  induction s with
  | nil => rfl
  | cons c s ih =>
    rw [List.cons_append, lexFrom_separator (hs c List.mem_cons_self), flush_nil]
    exact ih fun d hd => hs d (List.mem_cons_of_mem c hd)

theorem lexFrom_delimiter {c : Char} (h : isDelimiter c = true) (cs : List Char) :
    lexFrom [] (c :: cs) = lexFrom [] [c] ++ lexFrom [] cs := by
  rcases character_cases c with rfl | rfl | hsep | hword
  · rfl
  · rfl
  · rw [lexFrom_separator hsep, lexFrom_separator hsep]
    rfl
  · rw [h] at hword
    cases hword

/-- A text can be cut behind a delimiter. -/
theorem lexFrom_append_of_endsApart (ha : EndsApart a) (b : List Char) :
    lexFrom [] (a ++ b) = lexFrom [] a ++ lexFrom [] b := by
  rcases List.eq_nil_or_concat a with rfl | ⟨a, c, rfl⟩
  · rfl
  · rw [List.concat_eq_append] at ha ⊢
    have hc := endsApart_concat_iff.mp ha
    rw [List.append_assoc, List.singleton_append, lexFrom_append (startsApart_cons hc b),
      lexFrom_append (startsApart_cons hc []), lexFrom_delimiter hc, List.append_assoc]

/-- Texts that need no separator have the tokens of both. -/
theorem lexFrom_append_of_apart (h : EndsApart a ∨ StartsApart b) :
    lexFrom [] (a ++ b) = lexFrom [] a ++ lexFrom [] b := by
  rcases h with ha | hb
  · exact lexFrom_append_of_endsApart ha b
  · exact lexFrom_append hb a []

/-- Texts that are kept apart have the tokens of both. -/
theorem lexFrom_append_blank (hs : IsBlank s) (h : s ≠ [] ∨ EndsApart a ∨ StartsApart b) :
    lexFrom [] (a ++ s ++ b) = lexFrom [] a ++ lexFrom [] b := by
  by_cases hne : s = []
  · rw [hne, List.append_nil]
    exact lexFrom_append_of_apart (h.resolve_left (not_not_intro hne))
  · rw [List.append_assoc, lexFrom_append (hs.startsApart hne b), lexFrom_blank hs]

/-! ## Words that run together -/

theorem length_flush (pending : List Char) (rest : List Token) :
    (flush pending rest).length = (flush pending []).length + rest.length := by
  cases pending with
  | nil => simp
  | cons c cs => simp [flush, Nat.add_comm]

/-- How much of a word has been read does not change the number of tokens. -/
theorem length_lexFrom_cons (cs : List Char) : ∀ (c d : Char) (pending pending' : List Char),
    (lexFrom (c :: pending) cs).length = (lexFrom (d :: pending') cs).length := by
  induction cs with
  | nil =>
    intro c d pending pending'
    rfl
  | cons x cs ih =>
    intro c d pending pending'
    rcases character_cases x with rfl | rfl | hsep | hword
    · rfl
    · rfl
    · rw [lexFrom_separator hsep, lexFrom_separator hsep]
      rfl
    · rw [lexFrom_of_not_delimiter hword, lexFrom_of_not_delimiter hword]
      exact ih x x _ _

/-- Where a word goes on across the cut, there is one token less. -/
theorem length_lexFrom_append {c d : Char} (hc : isDelimiter c = false)
    (hd : isDelimiter d = false) (b a : List Char) : ∀ pending : List Char,
    (lexFrom pending (a ++ c :: d :: b)).length + 1
      = (lexFrom pending (a ++ [c])).length + (lexFrom [] (d :: b)).length := by
  induction a with
  | nil =>
    intro pending
    rw [List.nil_append, List.nil_append, lexFrom_of_not_delimiter hc, lexFrom_of_not_delimiter hc,
      lexFrom_of_not_delimiter hd, lexFrom_of_not_delimiter hd, length_lexFrom_cons b d d _ [],
      Nat.add_comm]
    rfl
  | cons x a ih =>
    intro pending
    have hrest := ih []
    rw [List.cons_append, List.cons_append]
    rcases character_cases x with rfl | rfl | hsep | hword
    · rw [lexFrom_opening, lexFrom_opening, length_flush, length_flush pending (opening :: _),
        List.length_cons, List.length_cons]
      omega
    · rw [lexFrom_closing, lexFrom_closing, length_flush, length_flush pending (closing :: _),
        List.length_cons, List.length_cons]
      omega
    · rw [lexFrom_separator hsep, lexFrom_separator hsep, length_flush,
        length_flush pending (lexFrom [] (a ++ [c]))]
      omega
    · rw [lexFrom_of_not_delimiter hword, lexFrom_of_not_delimiter hword]
      exact ih (x :: pending)

/-- Separators matter if and only if they are all that stands between two words. -/
theorem lexFrom_append_blank_eq_iff (hs : IsBlank s) (hne : s ≠ []) :
    lexFrom [] (a ++ s ++ b) = lexFrom [] (a ++ b) ↔ EndsApart a ∨ StartsApart b := by
  rw [lexFrom_append_blank hs (.inl hne)]
  constructor
  · intro heq
    rcases List.eq_nil_or_concat a with rfl | ⟨a, c, rfl⟩
    · exact .inl endsApart_nil
    · rw [List.concat_eq_append] at heq ⊢
      rw [endsApart_concat_iff]
      cases hc : isDelimiter c with
      | true => exact .inl rfl
      | false =>
        right
        intro d hd
        obtain ⟨b, rfl⟩ := List.head?_eq_some_iff.mp hd
        cases hd : isDelimiter d with
        | true => rfl
        | false =>
          -- both sides of the cut belong to one word, which the separators had divided
          have hjoined := length_lexFrom_append hc hd b a []
          rw [List.append_assoc, List.singleton_append] at heq
          have hlength := congrArg List.length heq
          rw [List.length_append] at hlength
          omega
  · exact fun hapart => (lexFrom_append_of_apart hapart).symm

end Token

/-! ## Texts that differ in spacing -/

/-- The second text is the first one with separators put in where a delimiter or an
end of the text is beside them. -/
inductive Spreads : List Char → List Char → Prop
  | insert {a s b : List Char} (hs : IsBlank s) (h : EndsApart a ∨ StartsApart b) :
      Spreads (a ++ b) (a ++ s ++ b)

/-- One text turns into the other when such separators are put in and taken out, as
often as need be. -/
def Respaced : List Char → List Char → Prop :=
  Relation.EqvGen Spreads

namespace Respaced

variable {x y : List Char}

/-- Behind a text that ends apart, spacing can be changed as it can by itself. -/
theorem append_left (h : Respaced x y) {a : List Char} (ha : EndsApart a) :
    Respaced (a ++ x) (a ++ y) := by
  induction h with
  | rel x y h =>
    obtain ⟨hs, hcut⟩ := h
    rw [← List.append_assoc, ← List.append_assoc, ← List.append_assoc]
    exact .rel _ _ (.insert hs (hcut.imp_left ha.append))
  | refl x => exact .refl _
  | symm x y _ ih => exact ih.symm
  | trans x y z _ _ ihx ihy => exact ihx.trans _ _ _ ihy

theorem lexFrom_eq (h : Respaced x y) : Token.lexFrom [] x = Token.lexFrom [] y := by
  induction h with
  | rel x y h =>
    obtain ⟨hs, hcut⟩ := h
    rw [Token.lexFrom_append_blank hs (.inr hcut), Token.lexFrom_append_of_apart hcut]
  | refl x => rfl
  | symm x y _ ih => exact ih.symm
  | trans x y z _ _ ihx ihy => exact ihx.trans ihy

end Respaced

/-- A text is its tokens with single blanks between them, but for the spacing. -/
theorem Interleaves.respaced {tokens : List String} {cs : List Char}
    (h : Interleaves tokens cs) (hwhole : ∀ t ∈ tokens, IsTokenText t) :
    Respaced cs (" ".intercalate tokens).toList := by
  induction h with
  | nil => exact .refl _
  | @separator tokens cs c hc h ih =>
    have hblank : IsBlank [c] := fun d hd => by rwa [List.mem_singleton.mp hd]
    exact .trans _ _ _ (.symm _ _ (.rel _ _ (.insert hblank (.inl endsApart_nil)))) (ih hwhole)
  | @token t tokens cs hapart h ih =>
    have hrest : ∀ u ∈ tokens, IsTokenText u := fun u hu => hwhole u (List.mem_cons_of_mem t hu)
    have hblank : IsBlank [' '] := fun c hc => by rw [List.mem_singleton.mp hc]; rfl
    -- behind a parenthesis or in front of what ends a word, there is room for a blank
    have hcut : EndsApart t.toList ∨ StartsApart cs := by
      rcases hwhole t List.mem_cons_self with (rfl | rfl) | hword
      · exact .inl (by decide)
      · exact .inl (by decide)
      · exact .inr (h.startsApart hrest (hapart hword.not_isParenthesis))
    have hparted : Respaced (t.toList ++ cs)
        (t.toList ++ [' '] ++ (" ".intercalate tokens).toList) :=
      .trans _ _ _ (.rel _ _ (.insert hblank hcut))
        ((ih hrest).append_left (endsApart_concat_iff.mpr rfl))
    cases tokens with
    | nil =>
      have hend : Respaced t.toList (t.toList ++ [' ']) := by
        have hlast := Spreads.insert (a := t.toList) (b := []) hblank
          (.inr fun c hc => by cases hc)
        rw [List.append_nil, List.append_nil] at hlast
        exact .rel _ _ hlast
      have htext : t.toList ++ [' '] ++ (" ".intercalate ([] : List String)).toList
          = t.toList ++ [' '] := List.append_nil _
      rw [htext] at hparted
      have hsingle : " ".intercalate [t] = t := by simp
      rw [hsingle]
      exact .trans _ _ _ hparted (.symm _ _ hend)
    | cons u tokens =>
      have htext : (" ".intercalate (t :: u :: tokens)).toList
          = t.toList ++ [' '] ++ (" ".intercalate (u :: tokens)).toList := by
        rw [String.intercalate_cons_cons, String.toList_append, String.toList_append]
        rfl
      rw [htext]
      exact hparted

/-- Every text can be respaced into its tokens with single blanks between them. -/
theorem respaced_joined (source : String) :
    Respaced source.toList (Token.joined (tokenize source)).toList := by
  have h := (isTokenization_iff source _).mpr rfl
  exact h.apart.respaced h.whole

/-- Two texts have the same tokens if and only if they differ in spacing only. -/
theorem tokenize_eq_iff_respaced {source source' : String} :
    tokenize source = tokenize source' ↔ Respaced source.toList source'.toList := by
  constructor
  · intro h
    have hjoined := respaced_joined source
    rw [h] at hjoined
    exact hjoined.trans _ _ _ (respaced_joined source').symm
  · exact Respaced.lexFrom_eq

/-- **Separators do nothing but keep words apart.** Two texts with separators between
them have the tokens of both, and so have two texts without any if one is empty or has a
delimiter at the cut. The tokens of a text with single blanks between them are its tokens
again. Separators that stand in a text can be left out if and only if a delimiter or an
end of the text stays on one side, so that they were not the last ones between two words.
Two texts have the same tokens if and only if such changes lead from one to the other, and
then they are read alike under all options. -/
theorem separators_only_part_words :
    (∀ a s b : String, IsBlank s.toList →
      s ≠ "" ∨ EndsApart a.toList ∨ StartsApart b.toList →
      tokenize (a ++ s ++ b) = tokenize a ++ tokenize b) ∧
    (∀ source : String, tokenize (Token.joined (tokenize source)) = tokenize source) ∧
    (∀ a s b : String, IsBlank s.toList → s ≠ "" →
      (tokenize (a ++ s ++ b) = tokenize (a ++ b) ↔
        EndsApart a.toList ∨ StartsApart b.toList)) ∧
    (∀ source source' : String,
      (tokenize source = tokenize source' ↔ Respaced source.toList source'.toList) ∧
      (Respaced source.toList source'.toList →
        ∀ options, Expr.parseWith options source = Expr.parseWith options source')) := by
  refine ⟨fun a s b hs h => ?_, fun source => ?_, fun a s b hs hne => ?_, fun source source' => ?_⟩
  · rw [tokenize, String.toList_append, String.toList_append]
    exact Token.lexFrom_append_blank hs (h.imp_left fun hne => by simpa using hne)
  · exact (respaced_joined source).lexFrom_eq.symm
  · rw [tokenize, tokenize, String.toList_append, String.toList_append, String.toList_append]
    exact Token.lexFrom_append_blank_eq_iff hs (by simpa using hne)
  · refine ⟨tokenize_eq_iff_respaced, fun h options => ?_⟩
    rw [Expr.parseWith, Expr.parseWith, tokenize_eq_iff_respaced.mpr h]

/-- A line separator that two words need, and one that they do not. -/
theorem separators_only_part_words_at_line_separator :
    IsBlank "\u2028".toList ∧
      tokenize ("(a" ++ "\u2028" ++ "b)") = tokenize "(a" ++ tokenize "b)" ∧
      tokenize ("(a" ++ "\u2028" ++ "b)") ≠ tokenize ("(a" ++ "b)") ∧
      tokenize ("(a)" ++ "\u2028" ++ "b)") = tokenize ("(a)" ++ "b)") := by
  have hblank : IsBlank "\u2028".toList := by decide
  have hleft := fun a b => separators_only_part_words.2.2.1 a "\u2028" b hblank (by decide)
  have hword : ¬ (EndsApart "(a".toList ∨ StartsApart "b)".toList) := by decide
  exact ⟨hblank, separators_only_part_words.1 _ _ _ hblank (.inl (by decide)),
    fun heq => hword ((hleft _ _).mp heq), (hleft _ _).mpr (.inl (by decide))⟩

end FlatLisp
