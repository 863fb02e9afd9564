/-
FlatLisp.Proofs.Profile — the parentheses alone decide what a reading does.

`depthAfter ts i` counts how many lists the first `i` tokens leave open. Which
error a reading ends with, if any, and how many tokens it takes are functions
of these counts: `Verdict` states the rule, and `verdict_iff` says that
readings follow it, for every token list and every limit. The atoms that the
words stand for have no part in it.

## How the proof goes

The reader's stack is as long as the count is high (`readOpen_step`), so it
gets through any stretch of tokens on which the count stays positive and
within the limit (`readOpen_run`). The token after such a stretch is where
the count leaves these bounds, and one step of the reader says what happens
there. `Verdict` speaks of the first place where the count is zero, the run
of the first place where it is not positive: a count that goes down by at
most one at a time meets zero first (`depthAfter_pos`).
-/
import FlatLisp.Proofs.Grammar
import Mathlib.Order.Lattice.Nat

namespace FlatLisp

/-! ## Counting parentheses -/

/-- How many lists the first `i` tokens open and do not close. -/
def depthAfter (ts : List Token) (i : Nat) : Int :=
  ((ts.take i).count .opening : Int) - (ts.take i).count .closing

/-- What one token adds to the count. -/
def Token.weight : Token → Int
  | opening => 1
  | closing => -1
  | word _ => 0

@[simp] theorem depthAfter_zero (ts : List Token) : depthAfter ts 0 = 0 := by
  simp [depthAfter]

theorem depthAfter_cons (t : Token) (ts : List Token) (i : Nat) :
    depthAfter (t :: ts) (i + 1) = t.weight + depthAfter ts i := by
  cases t <;> simp [depthAfter, Token.weight] <;> omega

theorem depthAfter_of_length_le {ts : List Token} {i : Nat} (h : ts.length ≤ i) :
    depthAfter ts i = depthAfter ts ts.length := by
  rw [depthAfter, depthAfter, List.take_of_length_le h, List.take_length]

/-- The next token adds its weight. -/
theorem depthAfter_succ {ts rest : List Token} {t : Token} {i : Nat}
    (h : ts.drop i = t :: rest) : depthAfter ts (i + 1) = depthAfter ts i + t.weight := by
  induction i generalizing ts with
  | zero =>
    rw [List.drop_zero] at h
    rw [h, depthAfter_cons]
    simp
  | succ i ih =>
    cases ts with
    | nil => simp at h
    | cons s ts =>
      rw [List.drop_succ_cons] at h
      rw [depthAfter_cons, depthAfter_cons, ih h]
      omega

/-- One token closes one list at most. -/
theorem depthAfter_le_succ (ts : List Token) (i : Nat) :
    depthAfter ts i - 1 ≤ depthAfter ts (i + 1) := by
  cases h : ts.drop i with
  | nil =>
    have hi : ts.length ≤ i := List.drop_eq_nil_iff.mp h
    rw [depthAfter_of_length_le hi, depthAfter_of_length_le (Nat.le_succ_of_le hi)]
    omega
  | cons t rest =>
    rw [depthAfter_succ h]
    cases t <;> simp only [Token.weight] <;> omega

/-! ## The rule -/

/-- The first tokens that leave no list open are the first `i`. -/
def ClosesAt (ts : List Token) (i : Nat) : Prop :=
  IsLeast {i | 1 ≤ i ∧ depthAfter ts i = 0} i

/-- The first tokens that open more lists than the limit allows are the
first `j`. -/
def ExceedsAt (limit : Limit) (ts : List Token) (j : Nat) : Prop :=
  IsLeast {j | ∃ most, limit = some most ∧ (most : Int) < depthAfter ts j} j

/-- What becomes of a reading: the error it ends with, if any, and the number
of tokens it takes. -/
inductive Verdict (limit : Limit) : List Token → Option ReadError → Nat → Prop
  | endOfInput : Verdict limit [] (some .endOfInput) 0
  | closing (ts : List Token) : Verdict limit (.closing :: ts) (some .unmatchedClosing) 1
  | word (w : String) (ts : List Token) : Verdict limit (.word w :: ts) none 1
  | exceeds {ts : List Token} {most j : Nat} (hm : limit = some most)
      (hj : ExceedsAt limit (.opening :: ts) j)
      (hi : ∀ i, ClosesAt (.opening :: ts) i → j < i) :
      Verdict limit (.opening :: ts) (some (.tooDeep most)) j
  | closes {ts : List Token} {i : Nat} (hi : ClosesAt (.opening :: ts) i)
      (hj : ∀ j, ExceedsAt limit (.opening :: ts) j → ¬ j < i) :
      Verdict limit (.opening :: ts) none i
  | unclosed {ts : List Token} (hi : ∀ i, ¬ ClosesAt (.opening :: ts) i)
      (hj : ∀ j, ¬ ExceedsAt limit (.opening :: ts) j) :
      Verdict limit (.opening :: ts) (some .endOfList) (ts.length + 1)

/-! ### First places -/

theorem ClosesAt.le_length {ts : List Token} {i : Nat} (h : ClosesAt (.opening :: ts) i) :
    i ≤ ts.length + 1 := by
  obtain ⟨⟨_, hzero⟩, hleast⟩ := h
  refine Nat.le_of_not_lt fun hlt => ?_
  have hlen : (Token.opening :: ts).length ≤ i := by simp; omega
  rw [depthAfter_of_length_le hlen] at hzero
  have := hleast ⟨by simp, hzero⟩
  simp at this
  omega

theorem ExceedsAt.le_length {limit : Limit} {ts : List Token} {j : Nat}
    (h : ExceedsAt limit ts j) : j ≤ ts.length := by
  obtain ⟨⟨most, hm, hd⟩, hleast⟩ := h
  refine Nat.le_of_not_lt fun hlt => ?_
  rw [depthAfter_of_length_le (by omega)] at hd
  have := hleast ⟨most, hm, hd⟩
  omega

/-- Nothing is closed too often before the first place where nothing is open:
from the opening parenthesis on, the count stays positive. -/
theorem depthAfter_pos {ts : List Token} {n : Nat}
    (h : ∀ i, 1 ≤ i → i ≤ n → depthAfter (.opening :: ts) i ≠ 0) :
    ∀ i, 1 ≤ i → i ≤ n → 0 < depthAfter (.opening :: ts) i := by
  intro i h1 hn
  induction i, h1 using Nat.le_induction with
  | base => simp [depthAfter_cons, Token.weight]
  | succ i h1 ih =>
    have hpos := ih (by omega)
    have hstep := depthAfter_le_succ (.opening :: ts) i
    have hne := h (i + 1) (by omega) hn
    omega

/-! ## The reader keeps the count -/

namespace Expr

/-- The number of open lists that reading can go on with. -/
def InBounds (limit : Limit) (depth : Int) : Prop :=
  0 < depth ∧ ∀ most, limit = some most → depth ≤ most

/-- A token after which the number of open lists is in bounds is read, and
changes the stack by its weight. -/
theorem readOpen_step {limit : Limit} {stack : List (List Expr)} {t : Token}
    (h : InBounds limit (stack.length + t.weight)) (ts : List Token) :
    ∃ stack' : List (List Expr), (stack'.length : Int) = stack.length + t.weight ∧
      readOpen limit stack (t :: ts) = readOpen limit stack' ts := by
  obtain ⟨hpos, hmost⟩ := h
  cases t with
  | opening =>
    refine ⟨[] :: stack, by simp [Token.weight], ?_⟩
    rw [readOpen_opening]
    cases limit with
    | none => rfl
    | some most =>
      have hle := hmost most rfl
      simp only [Token.weight] at hle
      rw [Limit.reached?_some, if_neg (by omega)]
  | closing =>
    match stack with
    | [] => simp [Token.weight] at hpos
    | [items] => simp [Token.weight] at hpos
    | items :: outer :: stack =>
      refine ⟨(.list items.reverse :: outer) :: stack, ?_, rfl⟩
      simp only [List.length_cons, Token.weight]
      omega
  | word w =>
    match stack with
    | [] => simp [Token.weight] at hpos
    | items :: stack =>
      exact ⟨(.atom (.ofWord w) :: items) :: stack, by simp [Token.weight], rfl⟩

/-- Tokens along which the number of open lists stays in bounds are read. -/
theorem readOpen_run (limit : Limit) (n : Nat) (stack : List (List Expr)) (ts : List Token)
    (hn : n ≤ ts.length)
    (h : ∀ i, 1 ≤ i → i ≤ n → InBounds limit (stack.length + depthAfter ts i)) :
    ∃ stack' : List (List Expr), (stack'.length : Int) = stack.length + depthAfter ts n ∧
      readOpen limit stack ts = readOpen limit stack' (ts.drop n) := by
  induction n generalizing stack ts with
  | zero => exact ⟨stack, by simp, rfl⟩
  | succ n ih =>
    match ts with
    | [] => simp at hn
    | t :: ts =>
      have hfirst : InBounds limit (stack.length + t.weight) := by
        have := h 1 (by omega) (by omega)
        rwa [depthAfter_cons, depthAfter_zero, Int.add_zero] at this
      obtain ⟨mid, hlen, hread⟩ := readOpen_step hfirst ts
      obtain ⟨stack', hlen', hread'⟩ := ih mid ts (by simpa using hn) (by
        intro i h1 hi
        have := h (i + 1) (by omega) (by omega)
        rw [depthAfter_cons] at this
        rw [hlen, Int.add_assoc]
        exact this)
      refine ⟨stack', ?_, ?_⟩
      · rw [hlen', hlen, depthAfter_cons, Int.add_assoc]
      · rw [hread, hread', List.drop_succ_cons]

/-! ### Where a reading stops -/

/-- One list too many is refused, and its parenthesis is gone. -/
theorem readOpen_exceeds {most : Nat} {stack : List (List Expr)} {t : Token}
    (hle : (stack.length : Int) ≤ most) (hlt : (most : Int) < stack.length + t.weight)
    (ts : List Token) :
    readOpen (some most) stack (t :: ts) = ⟨.error (.tooDeep most), ts⟩ := by
  cases t with
  | opening =>
    simp only [Token.weight] at hlt
    rw [readOpen_opening, Limit.reached?_some, if_pos (by omega)]
  | closing => simp only [Token.weight] at hlt; omega
  | word w => simp only [Token.weight] at hlt; omega

/-- The token that leaves no list open completes the expression. -/
theorem readOpen_completes (limit : Limit) {stack : List (List Expr)} {t : Token}
    (h : (stack.length : Int) + t.weight = 0) (ts : List Token) :
    ∃ e, readOpen limit stack (t :: ts) = ⟨.ok e, ts⟩ := by
  cases t with
  | opening => simp only [Token.weight] at h; omega
  | closing =>
    match stack with
    | [] => simp [Token.weight] at h
    | [items] => exact ⟨.list items.reverse, rfl⟩
    | items :: outer :: stack =>
      simp only [List.length_cons, Token.weight] at h
      omega
  | word w =>
    match stack with
    | [] => exact ⟨.atom (.ofWord w), rfl⟩
    | items :: stack => simp [Token.weight] at h; omega

theorem readOpen_runs_out (limit : Limit) {stack : List (List Expr)}
    (h : 0 < (stack.length : Int)) : readOpen limit stack [] = ⟨.error .endOfList, []⟩ := by
  cases stack with
  | nil => simp at h
  | cons items stack => rfl

/-! ## Readings follow the rule -/

/-- Up to where neither the last list is closed nor the limit is exceeded, the
number of open lists is in bounds. -/
theorem inBounds_of_lt {limit : Limit} {ts : List Token} {n : Nat}
    (hc : ∀ i, ClosesAt (.opening :: ts) i → n < i)
    (he : ∀ j, ExceedsAt limit (.opening :: ts) j → n < j) :
    ∀ i, 1 ≤ i → i ≤ n → InBounds limit (depthAfter (.opening :: ts) i) := by
  intro i h1 hi
  constructor
  · refine depthAfter_pos (n := n) (fun k hk hkn hzero => ?_) i h1 hi
    have hmem : k ∈ {i | 1 ≤ i ∧ depthAfter (.opening :: ts) i = 0} := ⟨hk, hzero⟩
    have hfirst := hc _ (isLeast_csInf ⟨k, hmem⟩)
    have hle := Nat.sInf_le hmem
    omega
  · intro most hm
    refine Int.not_lt.mp fun hlt => ?_
    have hmem : i ∈ {j | ∃ most, limit = some most ∧
        (most : Int) < depthAfter (.opening :: ts) j} := ⟨most, hm, hlt⟩
    have hfirst := he _ (isLeast_csInf ⟨i, hmem⟩)
    have hle := Nat.sInf_le hmem
    omega

/-- Up to there the reader has a stack as long as the count says. -/
theorem readWithin_run (limit : Limit) {ts : List Token} {n : Nat} (hn : n ≤ ts.length + 1)
    (hc : ∀ i, ClosesAt (.opening :: ts) i → n < i)
    (he : ∀ j, ExceedsAt limit (.opening :: ts) j → n < j) :
    ∃ stack : List (List Expr), (stack.length : Int) = depthAfter (.opening :: ts) n ∧
      readWithin limit (.opening :: ts) = readOpen limit stack ((.opening :: ts).drop n) := by
  obtain ⟨stack, hlen, hread⟩ := readOpen_run limit n [] (.opening :: ts) hn (by
    intro i h1 hi
    simpa using inBounds_of_lt hc he i h1 hi)
  exact ⟨stack, by simpa using hlen, hread⟩

/-- The error that a reading ended with. -/
def failure? (r : Reading) : Option ReadError :=
  match r.outcome with
  | .ok _ => none
  | .error cause => some cause

/-- The limit is exceeded while a list is open. -/
theorem readWithin_exceeds {most j : Nat} {ts : List Token}
    (hj : ExceedsAt (some most) (.opening :: ts) j)
    (hi : ∀ i, ClosesAt (.opening :: ts) i → j < i) :
    readWithin (some most) (.opening :: ts)
      = ⟨.error (.tooDeep most), (Token.opening :: ts).drop j⟩ := by
  have hlen : j ≤ ts.length + 1 := hj.le_length
  obtain ⟨⟨m, hm, hd⟩, hleast⟩ := hj
  obtain rfl : most = m := Option.some.inj hm
  cases j with
  | zero =>
    rw [depthAfter_zero] at hd
    omega
  | succ k =>
    obtain ⟨stack, hstack, hread⟩ := readWithin_run (some most) (n := k) (by omega)
      (fun i hi' => Nat.lt_of_succ_lt (hi i hi')) (fun j hj' => hleast hj'.1)
    have hdrop := List.drop_eq_getElem_cons (l := .opening :: ts) (Nat.lt_of_succ_le hlen)
    have hle : depthAfter (.opening :: ts) k ≤ most := by
      refine Int.not_lt.mp fun hlt => ?_
      have := hleast ⟨most, hm, hlt⟩
      omega
    rw [depthAfter_succ hdrop, ← hstack] at hd
    rw [hread, hdrop, readOpen_exceeds (hstack ▸ hle) hd]

/-- The last open list is closed within the limit. -/
theorem readWithin_closes {limit : Limit} {i : Nat} {ts : List Token}
    (hi : ClosesAt (.opening :: ts) i)
    (hj : ∀ j, ExceedsAt limit (.opening :: ts) j → ¬ j < i) :
    ∃ e, readWithin limit (.opening :: ts) = ⟨.ok e, (Token.opening :: ts).drop i⟩ := by
  have hlen := hi.le_length
  obtain ⟨⟨h1, hd⟩, hleast⟩ := hi
  cases i with
  | zero => omega
  | succ k =>
    obtain ⟨stack, hstack, hread⟩ := readWithin_run limit (n := k) (by omega)
      (fun i hi' => hleast hi'.1) (fun j hj' => Nat.lt_of_succ_le (Nat.le_of_not_lt (hj j hj')))
    have hdrop := List.drop_eq_getElem_cons (l := .opening :: ts) (Nat.lt_of_succ_le hlen)
    rw [depthAfter_succ hdrop, ← hstack] at hd
    obtain ⟨e, he⟩ := readOpen_completes limit hd ((Token.opening :: ts).drop (k + 1))
    exact ⟨e, by rw [hread, hdrop, he]⟩

/-- The tokens end while a list is open. -/
theorem readWithin_unclosed {limit : Limit} {ts : List Token}
    (hi : ∀ i, ¬ ClosesAt (.opening :: ts) i) (hj : ∀ j, ¬ ExceedsAt limit (.opening :: ts) j) :
    readWithin limit (.opening :: ts) = ⟨.error .endOfList, []⟩ := by
  have hc : ∀ i, ClosesAt (.opening :: ts) i → ts.length + 1 < i :=
    fun i hi' => absurd hi' (hi i)
  have he : ∀ j, ExceedsAt limit (.opening :: ts) j → ts.length + 1 < j :=
    fun j hj' => absurd hj' (hj j)
  obtain ⟨stack, hstack, hread⟩ := readWithin_run limit (Nat.le_refl _) hc he
  have hpos := (inBounds_of_lt hc he (ts.length + 1) (by omega) (Nat.le_refl _)).1
  have hdrop : (Token.opening :: ts).drop (ts.length + 1) = [] := by simp
  rw [hread, hdrop, readOpen_runs_out limit (hstack ▸ hpos)]

theorem reading_of_verdict {limit : Limit} {ts : List Token} {cause : Option ReadError}
    {n : Nat} (h : Verdict limit ts cause n) :
    failure? (readWithin limit ts) = cause ∧ n ≤ ts.length
      ∧ (readWithin limit ts).rest = ts.drop n := by
  cases h with
  | endOfInput => exact ⟨rfl, Nat.le_refl 0, rfl⟩
  | closing ts => exact ⟨rfl, by simp, rfl⟩
  | word w ts => exact ⟨rfl, by simp, rfl⟩
  | exceeds hm hj hi =>
    subst hm
    rw [readWithin_exceeds hj hi]
    exact ⟨rfl, hj.le_length, rfl⟩
  | closes hi hj =>
    obtain ⟨e, he⟩ := readWithin_closes hi hj
    rw [he]
    exact ⟨rfl, hi.le_length, rfl⟩
  | unclosed hi hj =>
    rw [readWithin_unclosed hi hj]
    exact ⟨rfl, by simp, by simp⟩

/-- The rule has a verdict on every token list. -/
theorem exists_verdict (limit : Limit) (ts : List Token) : ∃ cause n, Verdict limit ts cause n := by
  match ts with
  | [] => exact ⟨_, _, .endOfInput⟩
  | .closing :: ts => exact ⟨_, _, .closing ts⟩
  | .word w :: ts => exact ⟨_, _, .word w ts⟩
  | .opening :: ts =>
    by_cases he : ∃ j, ExceedsAt limit (.opening :: ts) j
    · obtain ⟨j, hj⟩ := he
      by_cases hc : ∃ i, ClosesAt (.opening :: ts) i ∧ ¬ j < i
      · obtain ⟨i, hi, hij⟩ := hc
        refine ⟨_, i, .closes hi fun j' hj' => ?_⟩
        rwa [hj'.unique hj]
      · obtain ⟨most, hm, -⟩ := hj.1
        refine ⟨_, j, .exceeds hm hj fun i hi => ?_⟩
        exact Classical.not_not.mp fun hij => hc ⟨i, hi, hij⟩
    · have he' := not_exists.mp he
      by_cases hc : ∃ i, ClosesAt (.opening :: ts) i
      · obtain ⟨i, hi⟩ := hc
        exact ⟨_, i, .closes hi fun j hj => absurd hj (he' j)⟩
      · exact ⟨_, _, .unclosed (not_exists.mp hc) he'⟩

/-- A reading ends with an error, or without one, and takes so many tokens,
exactly as the rule says. -/
theorem verdict_iff {limit : Limit} {ts : List Token} {cause : Option ReadError} {n : Nat} :
    Verdict limit ts cause n ↔ failure? (readWithin limit ts) = cause ∧ n ≤ ts.length
      ∧ (readWithin limit ts).rest = ts.drop n := by
  constructor
  · exact reading_of_verdict
  · rintro ⟨hc, hn, hr⟩
    obtain ⟨cause', n', h⟩ := exists_verdict limit ts
    obtain ⟨hc', hn', hr'⟩ := reading_of_verdict h
    have hlen := congrArg List.length (hr.symm.trans hr')
    rw [List.length_drop, List.length_drop] at hlen
    obtain rfl : n = n' := by omega
    rwa [← hc, hc']

/-! ## With and without a limit -/

/-- A limit changes nothing, or the reading fails because of it. -/
theorem readOpen_limited (most : Nat) : ∀ (ts : List Token) (stack : List (List Expr)),
    readOpen (some most) stack ts = readOpen none stack ts
      ∨ ∃ rest, readOpen (some most) stack ts = ⟨.error (.tooDeep most), rest⟩
  | [], stack => by cases stack <;> exact .inl rfl
  | .word w :: ts, [] => .inl rfl
  | .word w :: ts, items :: stack => readOpen_limited most ts _
  | .closing :: ts, [] => .inl rfl
  | .closing :: ts, [items] => .inl rfl
  | .closing :: ts, items :: outer :: stack => readOpen_limited most ts _
  | .opening :: ts, stack => by
      rw [readOpen_opening, readOpen_opening, Limit.reached?_some, Limit.reached?_none]
      by_cases h : most ≤ stack.length
      · rw [if_pos h]
        exact .inr ⟨ts, rfl⟩
      · rw [if_neg h]
        exact readOpen_limited most ts _

theorem readWithin_limited (most : Nat) (ts : List Token) :
    readWithin (some most) ts = read ts
      ∨ ∃ rest, readWithin (some most) ts = ⟨.error (.tooDeep most), rest⟩ :=
  readOpen_limited most ts []

theorem parseWith_limited (trailing : TrailingPolicy) (most : Nat) (source : String) :
    parseWith ⟨trailing, some most⟩ source = parseWith ⟨trailing, none⟩ source
      ∨ parseWith ⟨trailing, some most⟩ source = .error (.tooDeep most) := by
  rw [parseWith_eq, parseWith_eq]
  rcases readWithin_limited most (tokenize source) with h | ⟨rest, h⟩
  · exact .inl (by rw [h]; rfl)
  · exact .inr (by rw [h])

/-- A closing parenthesis is unmatched only where it comes first; inside a
list there always is one that it closes. -/
theorem unmatchedClosing_iff (limit : Limit) (ts : List Token) :
    (readWithin limit ts).outcome = .error .unmatchedClosing ↔ ∃ rest, ts = .closing :: rest := by
  constructor
  · intro h
    obtain ⟨cause, n, hv⟩ := exists_verdict limit ts
    have hcause := (reading_of_verdict hv).1
    rw [failure?, h] at hcause
    cases hv with
    | closing ts => exact ⟨ts, rfl⟩
    | _ => cases hcause
  · rintro ⟨rest, rfl⟩
    rfl

/-! ## The whole characterisation -/

/-- **The parentheses decide what a reading does.** For every token list and
limit, the error of a reading and the number of tokens it takes are those of
the rule; a source text fails with left-over tokens exactly when its reading
succeeds, leaves some, and they are to be rejected; a closing parenthesis is
unmatched only at the very start; and a limit either changes nothing or is
the reason of the failure. -/
theorem reading_follows_profile :
    (∀ (limit : Limit) (ts : List Token) (cause : Option ReadError) (n : Nat),
      Verdict limit ts cause n ↔ failure? (readWithin limit ts) = cause ∧ n ≤ ts.length
        ∧ (readWithin limit ts).rest = ts.drop n) ∧
    (∀ (options : ReadOptions) (source : String),
      parseWith options source =
        match readWithin options.depthLimit (tokenize source) with
        | ⟨.error cause, _⟩ => .error cause
        | ⟨.ok e, rest⟩ =>
          if rest ≠ [] ∧ options.trailing = .reject then .error (.trailing rest) else .ok e) ∧
    (∀ (limit : Limit) (ts : List Token),
      (readWithin limit ts).outcome = .error .unmatchedClosing
        ↔ ∃ rest, ts = .closing :: rest) ∧
    (∀ (most : Nat) (ts : List Token), readWithin (some most) ts = read ts
      ∨ ∃ rest, readWithin (some most) ts = ⟨.error (.tooDeep most), rest⟩) ∧
    (∀ (trailing : TrailingPolicy) (most : Nat) (source : String),
      parseWith ⟨trailing, some most⟩ source = parseWith ⟨trailing, none⟩ source
        ∨ parseWith ⟨trailing, some most⟩ source = .error (.tooDeep most)) :=
  ⟨fun _ _ _ _ => verdict_iff, parseWith_eq, unmatchedClosing_iff, readWithin_limited,
    parseWith_limited⟩

end Expr

end FlatLisp
