/-
FlatLisp.Proofs.Heights — the height of an expression bounds the depth of its
evaluation.

Reading counts the lists that are open, and the first atom inside `k` lists is
still accepted under the limit `k`. Evaluation counts the expressions that it
is inside of, and needs one level for the atom itself. So a text that is
accepted with at most `most` open lists has at most the height `most + 1`
(`height_le_of_parseWith`), and that is a limit which evaluation never meets,
whatever branches it takes (`evalAt_of_height_le`).
-/
import FlatLisp.Proofs.Tasks

namespace FlatLisp

namespace Expr

/-! ## Heights -/

mutual

/-- One for an atom and the empty list; one more than its highest item for any
other list. -/
def height : Expr → Nat
  | atom _ => 1
  | list items => heightEach items + 1

/-- The height of the highest of several expressions. -/
def heightEach : List Expr → Nat
  | [] => 0
  | e :: es => max e.height (heightEach es)

end

@[simp] theorem height_atom (a : Atom) : (atom a).height = 1 := by
  simp [height]

theorem heightEach_le_iff {es : List Expr} {n : Nat} :
    heightEach es ≤ n ↔ ∀ e ∈ es, e.height ≤ n := by
  induction es with
  | nil => simp [heightEach]
  | cons e es ih => rw [heightEach, Nat.max_le, ih, List.forall_mem_cons]

theorem height_list_le_iff {items : List Expr} {n : Nat} :
    (list items).height ≤ n + 1 ↔ ∀ e ∈ items, e.height ≤ n := by
  rw [height, Nat.add_le_add_iff_right, heightEach_le_iff]

theorem height_pos (e : Expr) : 0 < e.height := by
  cases e with
  | atom a => simp
  | list items => simp [height]

/-- An item is lower than its list. -/
theorem height_lt_of_mem {e : Expr} {items : List Expr} (he : e ∈ items) :
    e.height < (list items).height := by
  have hle : heightEach items ≤ heightEach items := Nat.le_refl _
  rw [height]
  exact Nat.lt_succ_of_le (heightEach_le_iff.mp hle e he)

/-! ## Limits above the height -/

section

variable {H : Type} [Host H] {most : Nat}

/-- A limit that leaves room for the height of an expression changes nothing. -/
theorem evalAt_of_height_le (e : Expr) : ∀ {depth : Nat}, depth + e.height ≤ most →
    ∀ env : Environment H, evalAt (some most) depth e env = evalAt none depth e env := by
  have unreached : ∀ {depth : Nat} {e : Expr}, depth + e.height ≤ most →
      Limit.reached? (some most) depth = none := by
    intro depth e h
    have hpos := e.height_pos
    exact Limit.reached?_some_eq_none_iff.mpr (by omega)
  have room : ∀ {depth : Nat} {f : Expr} {items : List Expr}, f ∈ items →
      depth + (list items).height ≤ most → depth + 1 + f.height ≤ most := by
    intro depth f items hf h
    have hlt := height_lt_of_mem hf
    omega
  induction e using inductionOnForms with
  | number n =>
    intro depth h env
    rw [evalAt_number (unreached h), evalAt_number (Limit.reached?_none depth)]
  | symbol name =>
    intro depth h env
    rw [evalAt_symbol (unreached h), evalAt_symbol (Limit.reached?_none depth)]
  | empty =>
    intro depth h env
    rw [evalAt_list (unreached h), evalAt_list (Limit.reached?_none depth), evalForm_nil,
      evalForm_nil]
  | conditional test consequent alternative ihtest ihconsequent ihalternative =>
    intro depth h env
    rw [evalAt_list (unreached h), evalAt_list (Limit.reached?_none depth), evalForm_if,
      evalForm_if]
    -- a branch that is not taken makes no difference, but there is room for either
    simp only [ihtest (room (by simp) h), ihconsequent (room (by simp) h),
      ihalternative (room (by simp) h)]
  | definition name body ih =>
    intro depth h env
    rw [evalAt_list (unreached h), evalAt_list (Limit.reached?_none depth), evalForm_define,
      evalForm_define]
    simp only [ih (room (by simp) h)]
  | illFormed items cause hf =>
    intro depth h env
    rw [evalAt_list (unreached h), evalAt_list (Limit.reached?_none depth),
      evalForm_of_formError hf, evalForm_of_formError hf]
  | call head operands hk ihhead ihoperands =>
    intro depth h env
    have heach : ∀ env : Environment H,
        evalEach (some most) (depth + 1) operands env = evalEach none (depth + 1) operands env :=
      evalEach_congr fun e he => ihoperands e he (room (List.mem_cons_of_mem head he) h)
    rw [evalAt_list (unreached h), evalAt_list (Limit.reached?_none depth), evalForm_call hk,
      evalForm_call hk]
    simp only [ihhead (room List.mem_cons_self h), heach]

end

/-! ## Heights that are read -/

/-- The items that have been read fit into the lists that are open: `outer`
levels are taken by the lists around them. -/
def Fits (most : Nat) : List (List Expr) → Prop
  | [] => True
  | items :: outer => outer.length < most ∧ (∀ e ∈ items, outer.length + e.height ≤ most) ∧
      Fits most outer

theorem Fits.push {most : Nat} {items : List Expr} {outer : List (List Expr)}
    (h : Fits most (items :: outer)) {e : Expr} (he : outer.length + e.height ≤ most) :
    Fits most ((e :: items) :: outer) := by
  obtain ⟨hlt, hitems, houter⟩ := h
  exact ⟨hlt, List.forall_mem_cons.mpr ⟨he, hitems⟩, houter⟩

/-- A list that is complete leaves room for the lists around it. -/
theorem Fits.height_le {most : Nat} {items : List Expr} {outer : List (List Expr)}
    (h : Fits most (items :: outer)) : outer.length + (list items.reverse).height ≤ most + 1 := by
  obtain ⟨hlt, hitems, -⟩ := h
  have hlist : (list items.reverse).height ≤ most - outer.length + 1 := by
    rw [height_list_le_iff]
    intro e he
    have := hitems e (List.mem_reverse.mp he)
    omega
  omega

/-- What is read under a limit is at most one level higher. -/
theorem height_le_of_readOpen {most : Nat} {ts : List Token} :
    ∀ {stack : List (List Expr)} {e : Expr}, Fits most stack →
      (readOpen (some most) stack ts).outcome = .ok e → e.height ≤ most + 1 := by
  induction ts with
  | nil =>
    intro stack e _ h
    cases stack <;> cases h
  | cons t ts ih =>
    intro stack e hfits h
    cases t with
    | opening =>
      rw [readOpen_opening] at h
      split at h
      case h_1 => cases h
      case h_2 hunreached =>
        have hlt := Limit.reached?_some_eq_none_iff.mp hunreached
        have hpushed : Fits most ([] :: stack) := ⟨hlt, List.forall_mem_nil _, hfits⟩
        exact ih hpushed h
    | closing =>
      match stack, hfits, h with
      | [], _, h => cases h
      | [items], hfits, h =>
        cases h
        simpa using hfits.height_le
      | items :: outer :: stack, hfits, h =>
        rw [readOpen_closing_inner] at h
        have hheight := hfits.height_le
        rw [List.length_cons] at hheight
        exact ih (hfits.2.2.push (by omega)) h
    | word w =>
      match stack, hfits, h with
      | [], _, h =>
        cases h
        simp
      | items :: outer, hfits, h =>
        rw [readOpen_word_inner] at h
        have hlt := hfits.1
        exact ih (hfits.push (by rw [height_atom]; omega)) h

/-- An accepted text is at most one level higher than it may open lists. -/
theorem height_le_of_parseWith {options : ReadOptions} {most : Nat}
    (hlimit : options.depthLimit = some most) {source : String} {e : Expr}
    (h : parseWith options source = .ok e) : e.height ≤ most + 1 := by
  have hread : (readWithin (some most) (tokenize source)).outcome = .ok e := by
    unfold parseWith at h
    rw [hlimit] at h
    dsimp only at h
    split at h
    case h_1 => cases h
    case h_2 e' houtcome =>
      split at h
      case h_1 => cases h
      case h_2 =>
        cases h
        exact houtcome
  have hnone : Fits most [] := trivial
  exact height_le_of_readOpen hnone hread

end Expr

/-! ## The depth counter -/

namespace Task

variable {H : Type}

/-- The task does not count beyond the limit. -/
def CountsUpTo (most : Nat) : Task H → Prop
  | evaluate depth _ _ => depth ≤ most
  | call _ _ _ => True

variable [Host H] {most : Nat} {t t' : Task H} {past : List (Effect H)}

/-- Only tasks below the limit start others, one level further down. -/
theorem Starts.countsUpTo (h : Starts (some most) t past t') : t'.CountsUpTo most := by
  have below : ∀ {depth : Nat}, Limit.reached? (some most) depth = none → depth + 1 ≤ most :=
    Limit.reached?_some_eq_none_iff.mp
  cases h with
  | test h => exact below h
  | branch h => exact below h
  | body h => exact below h
  | head h => exact below h
  | operand h => exact below h
  | procedure => trivial

theorem Reaches.countsUpTo (h : Reaches (some most) t past t') (ht : t.CountsUpTo most) :
    t'.CountsUpTo most := by
  induction h with
  | refl => exact ht
  | next hstarts _ ih => exact ih hstarts.countsUpTo

end Task

namespace Expr

variable {H : Type} [Host H]

/-- **A limit that is not below the height is as good as none.** Under it an
evaluation is the unlimited one, in outcome, environment and effects. A text
that is accepted with at most `most` open lists has at most the height
`most + 1`, so it evaluates under that limit as it does without one. Under any
limit the counter of no expression that the evaluation comes to exceeds the
limit. What it comes to is what `Task.Reaches` says, whose steps are the
evaluations that `evalAt` calls for: the run of a task passes through the runs
of the tasks it starts (`Task.Starts.passesThrough`). -/
theorem height_bounds_depth :
    (∀ (e : Expr) (most : Nat) (env : Environment H), e.height ≤ most →
      evalWithin (some most) e env = eval e env) ∧
    (∀ (options : ReadOptions) (most : Nat) (source : String) (e : Expr) (env : Environment H),
      options.depthLimit = some most → parseWith options source = .ok e →
      evalSource options (some (most + 1)) source env = evalSource options none source env ∧
      evalWithin (some (most + 1)) e env = eval e env) ∧
    (∀ (most : Nat) (e : Expr) (env : Environment H) (past : List (Effect H)) (depth : Nat)
      (e' : Expr) (env' : Environment H),
      (Task.evaluate 0 e env).Reaches (some most) past (.evaluate depth e' env') →
      depth ≤ most) := by
  have suffices_height : ∀ (e : Expr) (most : Nat) (env : Environment H), e.height ≤ most →
      evalWithin (some most) e env = eval e env := by
    intro e most env h
    exact evalAt_of_height_le e (by omega) env
  refine ⟨suffices_height, ?_, ?_⟩
  · intro options most source e env hlimit h
    have heval := suffices_height e (most + 1) env (height_le_of_parseWith hlimit h)
    refine ⟨?_, heval⟩
    rw [evalSource, evalSource, h]
    exact heval
  · intro most e env past depth e' env' h
    exact h.countsUpTo (Nat.zero_le most)

/-- A call with one list open is two levels high. -/
theorem height_bounds_depth_of_call :
    (⟨.reject, some 1⟩ : ReadOptions).depthLimit = some 1 ∧
      parseWith ⟨.reject, some 1⟩ "(f 0)" = .ok (list [symbol "f", number (.int 0)]) ∧
      evalWithin (some 2) (list [symbol "f", number (.int 0)]) (.empty : Environment Empty)
        = eval (list [symbol "f", number (.int 0)]) .empty := by
  have hread : parseWith ⟨.reject, some 1⟩ "(f 0)" = .ok (list [symbol "f", number (.int 0)]) := by
    rfl
  exact ⟨rfl, hread, (height_bounds_depth.2.1 _ 1 "(f 0)" _ .empty rfl hread).2⟩

end Expr

end FlatLisp
