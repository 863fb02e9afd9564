/-
FlatLisp.Proofs.Mapping — `map` calls its procedure row by row.

The rows are taken across the lists as far as the shortest one goes, and the
calls are made one after another. `InTurn` says what that comes to: all calls
have an answer and the answers are the items of a list, or the first error is
the error of the whole and no later call is made. The lines that are printed are
those of the calls that were made, in order.

A traversal of replies can be cut anywhere (`traverse_append`), so the calls in
front of the one that fails are a traversal without an error, and the map of an
appended list is made of two maps.
-/
import FlatLisp.Proofs.Applying
import FlatLisp.Proofs.Failures
import Mathlib.Data.List.Forall2

namespace FlatLisp

/-! ## Replies in turn -/

namespace Reply

variable {α β : Type} {f : α → Reply β}

@[simp] theorem andThen_ok (r : Reply α) : r.andThen ok = r := by
  obtain ⟨outcome, printed⟩ := r
  cases outcome with
  | error cause => rfl
  | ok a => simp [andThen, ok]

theorem outcome_andThen_ok (r : Reply α) (g : α → β) :
    (r.andThen fun a => ok (g a)).outcome = r.outcome.map g := by
  cases hr : r.outcome <;> simp [andThen, ok, hr, Except.map]

/-- A traversal has the answers of all replies. -/
theorem outcome_traverse_eq_ok_iff {xs : List α} : ∀ {ys : List β},
    (traverse f xs).outcome = .ok ys ↔ List.Forall₂ (fun x y => (f x).outcome = .ok y) xs ys := by
  induction xs with
  | nil =>
    intro ys
    cases ys <;> simp [ok]
  | cons x xs ih =>
    intro ys
    rw [traverse_cons]
    cases hx : (f x).outcome with
    | error cause => cases ys <;> simp [andThen, hx]
    | ok y =>
      cases hxs : (traverse f xs).outcome with
      | error cause => cases ys <;> simp [andThen, hx, hxs, ← ih]
      | ok rest => cases ys <;> simp [andThen, ok, hx, hxs, ← ih]

/-- A traversal can be cut anywhere. -/
theorem traverse_append (xs xs' : List α) :
    traverse f (xs ++ xs') = (traverse f xs).andThen fun ys =>
      (traverse f xs').andThen fun ys' => ok (ys ++ ys') := by
  induction xs with
  | nil => simp
  | cons x xs ih =>
    rw [List.cons_append, traverse_cons, traverse_cons, ih]
    simp only [andThen_assoc, ok_andThen, List.cons_append]

/-- The reply of a traversal whose replies all have answers. -/
theorem traverse_eq_of_ok {xs : List α} {ys : List β}
    (h : List.Forall₂ (fun x y => (f x).outcome = .ok y) xs ys) :
    traverse f xs = ⟨.ok ys, xs.flatMap fun x => (f x).printed⟩ := by
  induction h with
  | nil => rfl
  | cons hx _ ih =>
    rw [traverse_cons, ih, List.flatMap_cons]
    simp [andThen, ok, hx]

theorem exists_outcome_traverse_iff {xs : List α} :
    (∃ ys, (traverse f xs).outcome = .ok ys) ↔ ∀ x ∈ xs, ∃ y, (f x).outcome = .ok y := by
  constructor
  · rintro ⟨ys, h⟩
    have hall := outcome_traverse_eq_ok_iff.mp h
    clear h
    induction hall with
    | nil => simp
    | cons hx _ ih => exact List.forall_mem_cons.mpr ⟨⟨_, hx⟩, ih⟩
  · intro h
    cases hxs : (traverse f xs).outcome with
    | ok ys => exact ⟨ys, rfl⟩
    | error cause =>
      obtain ⟨before, x, after, rfl, -, hx⟩ := exists_of_outcome_traverse_eq_error hxs
      obtain ⟨y, hy⟩ := h x (by simp)
      rw [hx] at hy
      cases hy

/-- The first error ends a traversal, and nothing behind it is asked for. -/
theorem traverse_eq_of_error {before after : List α} {x : α} {cause : Error}
    (hbefore : ∀ y ∈ before, ∃ b, (f y).outcome = .ok b) (hx : (f x).outcome = .error cause) :
    traverse f (before ++ x :: after)
      = ⟨.error cause, (before ++ [x]).flatMap fun y => (f y).printed⟩ := by
  obtain ⟨ys, hys⟩ := exists_outcome_traverse_iff.mpr hbefore
  rw [traverse_append, traverse_eq_of_ok (outcome_traverse_eq_ok_iff.mp hys), traverse_cons,
    List.flatMap_append]
  simp [andThen, hx]

end Reply

variable {H : Type}

/-! ## Calls in turn -/

/-- Calls that are made one after another, as far as they have answers, and what that
comes to. -/
structure InTurn (n : Nat) (called : Nat → Reply (Value H)) (reply : Reply (Value H)) : Prop where
  /-- There is an answer if and only if every call has one. -/
  succeeds_iff : (∃ v, reply.outcome = .ok v) ↔ ∀ i < n, ∃ w, (called i).outcome = .ok w
  /-- The answer is the list of all answers in order, and all calls have printed. -/
  answers : ∀ ws : List (Value H), ws.length = n →
    (∀ i, ∀ h : i < ws.length, (called i).outcome = .ok ws[i]) →
    reply = ⟨.ok (.list ws), (List.range n).flatMap fun i => (called i).printed⟩
  /-- The first error is the error, and the calls up to that one have printed. -/
  first_error : ∀ i < n, ∀ cause, (∀ j < i, ∃ w, (called j).outcome = .ok w) →
    (called i).outcome = .error cause →
    reply = ⟨.error cause, (List.range (i + 1)).flatMap fun j => (called j).printed⟩

theorem inTurn_traverse (n : Nat) (called : Nat → Reply (Value H)) :
    InTurn n called
      ((Reply.traverse called (List.range n)).andThen fun ws => .ok (.list ws)) where
  succeeds_iff := by
    have hall : (∃ ws, (Reply.traverse called (List.range n)).outcome = .ok ws) ↔
        ∀ i ∈ List.range n, ∃ w, (called i).outcome = .ok w :=
      Reply.exists_outcome_traverse_iff
    simp only [List.mem_range] at hall
    rw [← hall, Reply.outcome_andThen_ok]
    cases (Reply.traverse called (List.range n)).outcome <;> simp [Except.map]
  answers := by
    intro ws hlen hws
    have hall : List.Forall₂ (fun i w => (called i).outcome = .ok w) (List.range n) ws := by
      rw [List.forall₂_iff_get]
      refine ⟨by rw [List.length_range, hlen], fun i _ hi => ?_⟩
      simpa using hws i hi
    rw [Reply.traverse_eq_of_ok hall]
    simp [Reply.andThen, Reply.ok]
  first_error := by
    intro i hi cause hbefore hcause
    obtain ⟨k, rfl⟩ : ∃ k, n = i + (k + 1) := ⟨n - i - 1, by omega⟩
    rw [List.range_add, List.range_succ_eq_map, List.map_cons, Nat.add_zero,
      Reply.traverse_eq_of_error (by simpa using hbefore) hcause, ← List.range_succ]
    rfl

/-! ## Maps -/

/-- A place in front of the end of the shortest list is there in all of them. -/
theorem map_getElem?_eq_row {α : Type} {lists : List (List α)} {i : Nat}
    (h : ∀ items ∈ lists, i < items.length) : lists.map (·[i]?) = (row lists i).map some := by
  induction lists with
  | nil => rfl
  | cons items lists ih =>
    have hitem := List.getElem?_eq_getElem (h items List.mem_cons_self)
    have hrest := ih fun l hl => h l (List.mem_cons_of_mem items hl)
    rw [List.map_cons, hrest, row, row, List.filterMap_cons, hitem, List.map_cons]

theorem rows_singleton {α : Type} (xs : List α) : rows [xs] = xs.map ([·]) := by
  refine List.ext_getElem (by simp [rows, shortestLength]) fun i hi hi' => ?_
  have hlt : i < xs.length := by simpa using hi'
  simp [rows, row, hlt]

/-- If an argument is no list, there is a first one that is none. -/
theorem exists_first_not_list {args : List (Value H)}
    (h : ∃ v ∈ args, ∀ items, v ≠ .list items) :
    ∃ (lists : List (List (Value H))) (v : Value H) (rest : List (Value H)),
      args = lists.map .list ++ v :: rest ∧ ∀ items, v ≠ .list items := by
  induction args with
  | nil => simp at h
  | cons w args ih =>
    by_cases hw : ∃ items, w = .list items
    · obtain ⟨items, rfl⟩ := hw
      obtain ⟨v, hv, hne⟩ := h
      have hv' : v ∈ args := (List.mem_cons.mp hv).resolve_left (hne items)
      obtain ⟨lists, u, rest, rfl, hu⟩ := ih ⟨v, hv', hne⟩
      exact ⟨items :: lists, u, rest, rfl, hu⟩
    · exact ⟨[], w, args, rfl, not_exists.mp hw⟩

section

variable [Host H] (serial : Nat) (name : String) (p : Value H)

theorem call_map (v : Value H) (vs : List (Value H)) :
    (Value.builtin serial name .map).call (p :: v :: vs) = Builtin.map.body (p :: v :: vs) := by
  rw [Value.call_builtin, if_pos (by simp [Builtin.arity, Arity.accepts])]

/-- A map of lists makes its calls in turn, one for each row. -/
theorem call_map_lists {lists : List (List (Value H))} (hne : lists ≠ []) :
    (Value.builtin serial name .map).call (p :: lists.map .list)
      = (Reply.traverse p.call (rows lists)).andThen fun ws => .ok (.list ws) := by
  obtain ⟨items, lists, rfl⟩ := List.exists_cons_of_ne_nil hne
  have hlists : ((items :: lists).map Value.list).mapM (Operation.listArg (H := H) "map")
      = .ok (items :: lists) := Operation.mapM_listArg_eq_ok_iff.mpr rfl
  rw [List.map_cons] at hlists ⊢
  rw [call_map, Builtin.body_map, hlists]

theorem call_map_of_not_list (lists : List (List (Value H))) {v : Value H}
    (hv : ∀ items, v ≠ .list items) (rest : List (Value H)) :
    (Value.builtin serial name .map).call (p :: (lists.map .list ++ v :: rest))
      = .error (v.mismatch "map" "list") := by
  obtain ⟨w, ws, hargs⟩ : ∃ w ws, lists.map .list ++ v :: rest = w :: ws := by
    cases lists <;> simp
  have herror := Operation.mapM_listArg_of_not_list "map" lists hv rest
  rw [hargs] at herror ⊢
  rw [call_map, Builtin.body_map, herror]

/-- A map of one list calls with one argument at a time. -/
theorem call_map_single (xs : List (Value H)) :
    (Value.builtin serial name .map).call [p, .list xs]
      = (Reply.traverse (fun x => p.call [x]) xs).andThen fun ws => .ok (.list ws) := by
  have hcall := call_map_lists serial name p (List.cons_ne_nil xs [])
  rwa [rows_singleton, Reply.traverse_map] at hcall

/-- The map of an appended list is one map and then the other. -/
theorem call_map_append {xs ys us vs : List (Value H)}
    (hxs : ((Value.builtin serial name .map).call [p, .list xs]).outcome = .ok (.list us))
    (hys : ((Value.builtin serial name .map).call [p, .list ys]).outcome = .ok (.list vs)) :
    (Value.builtin serial name .map).call [p, .list (xs ++ ys)]
      = ⟨.ok (.list (us ++ vs)),
          ((Value.builtin serial name .map).call [p, .list xs]).printed
            ++ ((Value.builtin serial name .map).call [p, .list ys]).printed⟩ := by
  have hanswers : ∀ {zs ws : List (Value H)},
      ((Value.builtin serial name .map).call [p, .list zs]).outcome = .ok (.list ws) →
      (Reply.traverse (fun x => p.call [x]) zs).outcome = .ok ws := by
    intro zs ws h
    rw [call_map_single, Reply.outcome_andThen_ok] at h
    cases hzs : (Reply.traverse (fun x => p.call [x]) zs).outcome with
    | error cause => simp [hzs, Except.map] at h
    | ok ws' => simpa [hzs, Except.map] using h
  rw [call_map_single, call_map_single, call_map_single, Reply.traverse_append]
  simp [Reply.andThen, Reply.ok, hanswers hxs, hanswers hys]

theorem call_append (xs ys : List (Value H)) :
    (Value.builtin serial name (.operation .append)).call [.list xs, .list ys]
      = .ok (.list (xs ++ ys)) := by
  have hlists : [Value.list xs, .list ys].mapM (Operation.listArg "append") = .ok [xs, ys] :=
    Operation.mapM_listArg_eq_ok_iff.mpr rfl
  rw [Value.call_builtin, if_pos (by simp [Builtin.arity, Operation.arity, Arity.accepts]),
    Builtin.body_operation, Operation.eval, Operation.evalAppend, hlists, ok_bind]
  simp [pure, Except.pure, Reply.ok]

/-- **`map` is element-wise application.** Given one list or more, `map` calls the value
`p` with the first items of all lists, then with the second ones, and so on to the end of
the shortest list, whose length is `shortestLength`, and comes to what these calls come to
in turn: the list of their answers, or the error of the first one that fails, without a
call behind it. Of nothing to call it answers the empty list, whatever `p` is. If an
argument is no list, the type error of the first such is all there is, for any `p`. Where a
list is mapped in two parts and both have answers, the whole list has both one after the
other. -/
theorem map_is_elementwise (p : Value H) :
    (∀ lists : List (List (Value H)), lists ≠ [] →
      (∃ items ∈ lists, items.length = shortestLength lists) ∧
      (∀ items ∈ lists, shortestLength lists ≤ items.length) ∧
      (∀ i < shortestLength lists, lists.map (·[i]?) = (row lists i).map some) ∧
      InTurn (shortestLength lists) (fun i => p.call (row lists i))
        ((Value.builtin serial name .map).call (p :: lists.map .list)) ∧
      (shortestLength lists = 0 →
        (Value.builtin serial name .map).call (p :: lists.map .list) = .ok (.list []))) ∧
    (∀ args : List (Value H), (∃ v ∈ args, ∀ items, v ≠ .list items) →
      ∃ v ∈ args, (∀ items, v ≠ .list items) ∧
        ∀ f : Value H, (Value.builtin serial name .map).call (f :: args)
          = .error (.type (.mismatch "map" "list" v.kind v.text))) ∧
    (∀ (serial' : Nat) (name' : String) (xs ys us vs : List (Value H)),
      ((Value.builtin serial name .map).call [p, .list xs]).outcome = .ok (.list us) →
      ((Value.builtin serial name .map).call [p, .list ys]).outcome = .ok (.list vs) →
      ∃ zs, (Value.builtin serial' name' (.operation .append)).call [.list xs, .list ys]
          = .ok (.list zs) ∧
        (Value.builtin serial name .map).call [p, .list zs]
          = ⟨.ok (.list (us ++ vs)),
              ((Value.builtin serial name .map).call [p, .list xs]).printed
                ++ ((Value.builtin serial name .map).call [p, .list ys]).printed⟩) := by
  refine ⟨fun lists hne => ⟨(shortestLength_spec hne).1, (shortestLength_spec hne).2,
    fun i hi => ?_, ?_, fun hzero => ?_⟩, fun args hargs => ?_, ?_⟩
  · exact map_getElem?_eq_row fun items hitems => lt_length_of_lt_shortestLength hi hitems
  · rw [call_map_lists serial name p hne, rows, Reply.traverse_map]
    exact inTurn_traverse _ _
  · rw [call_map_lists serial name p hne, rows, hzero]
    rfl
  · obtain ⟨lists, v, rest, rfl, hv⟩ := exists_first_not_list hargs
    exact ⟨v, by simp, hv, fun f => call_map_of_not_list serial name f lists hv rest⟩
  · intro serial' name' xs ys us vs hxs hys
    exact ⟨xs ++ ys, call_append serial' name' xs ys, call_map_append serial name p hxs hys⟩

end

/-- Procedures that are applied to lists of arguments, the second of which fails: the first
one has printed, and the third is not called. -/
theorem map_is_elementwise_of_failing_call :
    let print : Value Empty := .builtin 0 "print" .print
    let car : Value Empty := .builtin 1 "car" (.operation .car)
    let lists := [[print, car, print], [.list [.bool true], .list [.list []], .list [.bool false]]]
    lists ≠ [] ∧ (Value.builtin 3 "map" .map).call
        (.builtin 2 "apply" .apply :: lists.map .list)
      = ⟨.error (.fault .firstOfEmpty), ["#t"]⟩ := by
  intro print car lists
  have hne : lists ≠ [] := List.cons_ne_nil _ _
  have hprint : (Value.builtin 2 "apply" .apply).call (row lists 0)
      = ⟨.ok .unspecified, ["#t"]⟩ := by
    have hrow : row lists 0 = [print, .list [.bool true]] := rfl
    rw [hrow, call_apply, Value.call_builtin, if_pos (by rfl), Builtin.body_print]
    rfl
  have hcar : (Value.builtin 2 "apply" .apply).call (row lists 1)
      = .error (.fault .firstOfEmpty) := by
    have hrow : row lists 1 = [car, .list [.list []]] := rfl
    rw [hrow, call_apply, Value.call_builtin, if_pos (by rfl), Builtin.body_operation]
    rfl
  refine ⟨hne, ?_⟩
  have hturn := ((map_is_elementwise 3 "map" (.builtin 2 "apply" .apply)).1 lists hne).2.2.2.1
  have hbefore : ∀ j < 1, ∃ w, ((Value.builtin 2 "apply" .apply).call (row lists j)).outcome
      = .ok w := by
    intro j hj
    obtain rfl : j = 0 := by omega
    exact ⟨.unspecified, by rw [hprint]⟩
  rw [hturn.first_error 1 (by decide) (.fault .firstOfEmpty) hbefore (by rw [hcar]; rfl)]
  simp [List.range_succ, hprint, hcar, Reply.error]

end FlatLisp
