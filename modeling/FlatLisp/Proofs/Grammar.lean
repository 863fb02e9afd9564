/-
FlatLisp.Proofs.Grammar — the grammar of expressions, and that reading
accepts exactly what it derives.

`Derives p e` says that the tokens `p` spell the expression `e`: a word
spells its atom, and a list is spelled by its items between parentheses.
`read_ok_iff_derives` is the whole correspondence: a reading succeeds with
`e` and leaves `rest` when the tokens split into a spelling of `e` and
`rest`, that split is the only one, and a source text holds `e` when its
tokens spell `e` with nothing left over.

## How the proof goes

Reading keeps the open lists in a stack, so neither direction is an induction
on the grammar alone. From a derivation to a reading, `deliver` says what the
reader does with a finished expression, for any stack that waits for it and
any tokens that follow. From a reading to a derivation, `Opened` says which
tokens the stack came from; it starts out empty, each token extends it, and
the closing parenthesis of the outermost list turns it into a derivation.
-/
import FlatLisp.Expr.Read

namespace FlatLisp

/-! ## The grammar -/

mutual

/-- The tokens spell the expression. -/
inductive Derives : List Token → Expr → Prop
  | word (w : String) : Derives [.word w] (.atom (.ofWord w))
  | list {p : List Token} {items : List Expr} (h : DerivesItems p items) :
      Derives (.opening :: p ++ [.closing]) (.list items)

/-- The tokens spell the expressions one after the other. -/
inductive DerivesItems : List Token → List Expr → Prop
  | nil : DerivesItems [] []
  | cons {p q : List Token} {e : Expr} {es : List Expr} (h : Derives p e)
      (hs : DerivesItems q es) : DerivesItems (p ++ q) (e :: es)

end

theorem DerivesItems.append {p q : List Token} {es fs : List Expr}
    (hq : DerivesItems q fs) : DerivesItems p es → DerivesItems (p ++ q) (es ++ fs)
  | .nil => by simpa using hq
  | .cons h hs => by
      rw [List.append_assoc, List.cons_append]
      exact .cons h (hq.append hs)

/-- One more item at the end. -/
theorem DerivesItems.concat {p q : List Token} {es : List Expr} {e : Expr}
    (hs : DerivesItems p es) (h : Derives q e) : DerivesItems (p ++ q) (es ++ [e]) := by
  have one : DerivesItems (q ++ []) [e] := .cons h .nil
  rw [List.append_nil] at one
  exact one.append hs

/-! ## From a derivation to a reading -/

namespace Expr

/-- What the reader does with a finished expression: without an open list it
is the answer, else it is the next item of the innermost one. -/
def deliver (limit : Limit) : (stack : List (List Expr)) → Expr → List Token → Reading
  | [], e, rest => ⟨.ok e, rest⟩
  | items :: stack, e, rest => readOpen limit ((e :: items) :: stack) rest

theorem readOpen_word (limit : Limit) (stack : List (List Expr)) (w : String)
    (rest : List Token) :
    readOpen limit stack (.word w :: rest) = deliver limit stack (.atom (.ofWord w)) rest := by
  cases stack <;> rfl

theorem readOpen_closing (limit : Limit) (items : List Expr) (stack : List (List Expr))
    (rest : List Token) :
    readOpen limit (items :: stack) (.closing :: rest)
      = deliver limit stack (.list items.reverse) rest := by
  cases stack <;> rfl

mutual

/-- The reader gets through a spelling, whatever is open and whatever
follows. -/
theorem readOpen_of_derives {p : List Token} {e : Expr} (h : Derives p e)
    (stack : List (List Expr)) (rest : List Token) :
    readOpen none stack (p ++ rest) = deliver none stack e rest := by
  cases h with
  | word w => exact readOpen_word none stack w rest
  | list h =>
    rw [List.cons_append, List.cons_append, List.append_assoc, readOpen_opening]
    show readOpen none ([] :: stack) _ = _
    rw [readOpen_of_derivesItems h, List.singleton_append, readOpen_closing]
    simp

/-- The items of a spelling are added to the innermost open list. -/
theorem readOpen_of_derivesItems {p : List Token} {es : List Expr} (h : DerivesItems p es)
    (items : List Expr) (stack : List (List Expr)) (rest : List Token) :
    readOpen none (items :: stack) (p ++ rest)
      = readOpen none ((es.reverse ++ items) :: stack) rest := by
  cases h with
  | nil => rfl
  | cons h hs =>
    rw [List.append_assoc, readOpen_of_derives h]
    show readOpen none ((_ :: items) :: stack) _ = _
    rw [readOpen_of_derivesItems hs]
    simp

end

theorem read_of_derives {p : List Token} {e : Expr} (h : Derives p e) (rest : List Token) :
    read (p ++ rest) = ⟨.ok e, rest⟩ :=
  readOpen_of_derives h [] rest

/-! ## From a reading to a derivation -/

/-- The tokens that have been read when the lists of `stack` are open: for
each of them an opening parenthesis and the items that it has so far. -/
def Opened : List (List Expr) → List Token → Prop
  | [], p => p = []
  | items :: stack, p =>
      ∃ q r, p = q ++ .opening :: r ∧ Opened stack q ∧ DerivesItems r items.reverse

theorem Opened.push {stack : List (List Expr)} {p : List Token} (h : Opened stack p) :
    Opened ([] :: stack) (p ++ [.opening]) :=
  ⟨p, [], rfl, h, .nil⟩

/-- A spelling is one more item of the innermost open list. -/
theorem Opened.item {items : List Expr} {stack : List (List Expr)} {p q : List Token} {e : Expr}
    (h : Opened (items :: stack) p) (hq : Derives q e) :
    Opened ((e :: items) :: stack) (p ++ q) := by
  obtain ⟨o, r, rfl, ho, hr⟩ := h
  refine ⟨o, r ++ q, by simp, ho, ?_⟩
  rw [List.reverse_cons]
  exact hr.concat hq

/-- A closing parenthesis completes the spelling of the innermost open list. -/
theorem Opened.close {items : List Expr} {stack : List (List Expr)} {p : List Token}
    (h : Opened (items :: stack) p) :
    ∃ q r, p ++ [.closing] = q ++ r ∧ Opened stack q ∧ Derives r (.list items.reverse) := by
  obtain ⟨q, r, rfl, hq, hr⟩ := h
  exact ⟨q, .opening :: r ++ [.closing], by simp, hq, .list hr⟩

/-- What has been read and what a successful reading still takes make up a
spelling of its answer. -/
theorem derives_of_readOpen {e : Expr} {rest : List Token} :
    ∀ (ts : List Token) (stack : List (List Expr)) (p : List Token), Opened stack p →
      readOpen none stack ts = ⟨.ok e, rest⟩ → ∃ q, ts = q ++ rest ∧ Derives (p ++ q) e
  | [], stack, p, _, h => by cases stack <;> simp at h
  | .opening :: ts, stack, p, hp, h => by
      rw [readOpen_opening] at h
      obtain ⟨q, rfl, hq⟩ := derives_of_readOpen ts _ _ hp.push h
      exact ⟨.opening :: q, rfl, by simpa using hq⟩
  | .word w :: ts, [], p, hp, h => by
      cases hp
      cases h
      exact ⟨[.word w], rfl, .word w⟩
  | .word w :: ts, items :: stack, p, hp, h => by
      rw [readOpen_word_inner] at h
      obtain ⟨q, rfl, hq⟩ := derives_of_readOpen ts _ _ (hp.item (.word w)) h
      exact ⟨.word w :: q, rfl, by simpa using hq⟩
  | .closing :: ts, [], p, _, h => by cases h
  | .closing :: ts, [items], p, hp, h => by
      obtain ⟨q, r, hqr, hq, hr⟩ := hp.close
      cases hq
      cases h
      refine ⟨[.closing], rfl, ?_⟩
      rw [hqr]
      exact hr
  | .closing :: ts, items :: outer :: stack, p, hp, h => by
      rw [readOpen_closing_inner] at h
      obtain ⟨q, r, hqr, hq, hr⟩ := hp.close
      obtain ⟨s, rfl, hs⟩ := derives_of_readOpen ts _ _ (hq.item hr) h
      refine ⟨.closing :: s, rfl, ?_⟩
      rw [← hqr] at hs
      simpa using hs

theorem derives_of_read {ts rest : List Token} {e : Expr} (h : read ts = ⟨.ok e, rest⟩) :
    ∃ p, ts = p ++ rest ∧ Derives p e :=
  derives_of_readOpen ts [] [] rfl h

/-! ## The correspondence -/

/-- No spelling is the beginning of another, and none spells two
expressions. -/
theorem Derives.unique {p p' rest rest' : List Token} {e e' : Expr} (h : Derives p e)
    (h' : Derives p' e') (hs : p ++ rest = p' ++ rest') : p = p' ∧ e = e' := by
  have hr := read_of_derives h rest
  rw [hs, read_of_derives h' rest'] at hr
  simp only [Reading.mk.injEq, Except.ok.injEq] at hr
  obtain ⟨rfl, rfl⟩ := hr
  exact ⟨List.append_cancel_right hs, rfl⟩

/-- A read error is the answer for the whole text; an expression is the answer
unless tokens are left over and are to be rejected. -/
theorem parseWith_eq (options : ReadOptions) (source : String) :
    parseWith options source =
      match readWithin options.depthLimit (tokenize source) with
      | ⟨.error cause, _⟩ => .error cause
      | ⟨.ok e, rest⟩ =>
        if rest ≠ [] ∧ options.trailing = .reject then .error (.trailing rest) else .ok e := by
  unfold parseWith
  obtain ⟨outcome, rest⟩ := readWithin options.depthLimit (tokenize source)
  cases outcome with
  | error cause => rfl
  | ok e =>
    cases rest with
    | nil => cases options.trailing <;> simp
    | cons t rest => cases options.trailing <;> simp

theorem parse_ok_iff (source : String) (e : Expr) :
    parse source = .ok e ↔ read (tokenize source) = ⟨.ok e, []⟩ := by
  rw [parse, parseWith_eq]
  show (match read (tokenize source) with
        | ⟨.error cause, _⟩ => .error cause
        | ⟨.ok e', rest⟩ => if rest ≠ [] ∧ TrailingPolicy.reject = .reject
            then .error (.trailing rest) else .ok e') = Except.ok e ↔ _
  obtain ⟨outcome, rest⟩ := read (tokenize source)
  cases outcome with
  | error cause => simp
  | ok e' => cases rest <;> simp

/-- **Reading accepts exactly what the grammar derives.** A reading succeeds
with `e` and leaves `rest` exactly when the tokens are a spelling of `e`
followed by `rest`; the spelling and what it spells are unique; a source text
holds `e` exactly when its tokens spell `e`; and a spelling is read in full
whatever follows it. -/
theorem read_ok_iff_derives :
    (∀ (ts : List Token) (e : Expr) (rest : List Token),
      read ts = ⟨.ok e, rest⟩ ↔ ∃ p, ts = p ++ rest ∧ Derives p e) ∧
    (∀ (ts p p' rest rest' : List Token) (e e' : Expr),
      ts = p ++ rest → Derives p e → ts = p' ++ rest' → Derives p' e' → p = p' ∧ e = e') ∧
    (∀ (source : String) (e : Expr), parse source = .ok e ↔ Derives (tokenize source) e) ∧
    (∀ (p rest : List Token) (e : Expr), Derives p e → read (p ++ rest) = ⟨.ok e, rest⟩) := by
  have accepts : ∀ (ts : List Token) (e : Expr) (rest : List Token),
      read ts = ⟨.ok e, rest⟩ ↔ ∃ p, ts = p ++ rest ∧ Derives p e := by
    intro ts e rest
    constructor
    · exact derives_of_read
    · rintro ⟨p, rfl, h⟩
      exact read_of_derives h rest
  refine ⟨accepts, ?_, ?_, fun p rest e h => read_of_derives h rest⟩
  · intro ts p p' rest rest' e e' hp h hp' h'
    exact Derives.unique h h' (hp.symm.trans hp')
  · intro source e
    rw [parse_ok_iff, accepts]
    simp

end Expr

end FlatLisp
