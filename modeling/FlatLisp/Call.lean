/-
FlatLisp.Call — calling procedures.

A builtin checks its number of arguments before anything else. `apply` and
`map` call procedures with arguments taken out of the lists that they were
given, so calls within calls get smaller and smaller arguments and end.
-/
import FlatLisp.Operation.Eval
import FlatLisp.Reply

namespace FlatLisp

/-- What the procedures of a host do. -/
class Host (H : Type) where
  /-- The answer of a host procedure to an argument list. -/
  call : H → List (Value H) → Except Error (Value H)

/-- The host without procedures. -/
instance : Host Empty := ⟨fun h => nomatch h⟩

variable {H : Type}

/-! ## Rows -/

section

variable {α : Type}

/-- The items in place `i` of each list, as far as there are any. -/
def row (lists : List (List α)) (i : Nat) : List α :=
  lists.filterMap (·[i]?)

/-- The items in place `i` of each list, all of which have one there. -/
def takeRow (lists : List (List α)) (i : Nat) : Except Error (List α) :=
  lists.mapM (Machine.item · i)

/-- The length of the shortest list. -/
def shortestLength (lists : List (List α)) : Nat :=
  (lists.map List.length).min?.getD 0

/-- The lists read crosswise, as far as the shortest one goes. -/
def rows (lists : List (List α)) : List (List α) :=
  (List.range (shortestLength lists)).map (row lists)

theorem eq_row_of_takeRow {i : Nat} {lists : List (List α)} :
    ∀ {r : List α}, takeRow lists i = .ok r → r = row lists i := by
  induction lists with
  | nil =>
    intro r h
    cases h
    rfl
  | cons items lists ih =>
    intro r h
    rw [takeRow, List.mapM_cons] at h
    cases hx : Machine.item items i with
    | error cause => simp [hx, bind, Except.bind] at h
    | ok x =>
      cases hrest : takeRow lists i with
      | error cause =>
        rw [takeRow] at hrest
        simp [hx, hrest, bind, Except.bind] at h
      | ok rest =>
        have hr : r = x :: rest := by
          rw [takeRow] at hrest
          simpa [hx, hrest, bind, Except.bind, pure, Except.pure, eq_comm] using h
        rw [hr, ih hrest, row, row, List.filterMap_cons, Machine.item_eq_ok_iff.mp hx]

/-- The shortest length is the length of one of the lists, and no list is shorter. -/
theorem shortestLength_spec {lists : List (List α)} (h : lists ≠ []) :
    (∃ items ∈ lists, items.length = shortestLength lists) ∧
      ∀ items ∈ lists, shortestLength lists ≤ items.length := by
  unfold shortestLength
  cases hmin : (lists.map List.length).min? with
  | none => exact absurd (List.map_eq_nil_iff.mp (List.min?_eq_none_iff.mp hmin)) h
  | some shortest =>
    obtain ⟨hmem, hle⟩ := List.min?_eq_some_iff.mp hmin
    exact ⟨List.mem_map.mp hmem, fun items hitems => hle _ (List.mem_map_of_mem hitems)⟩

/-- Every list has an item in each place before the end of the shortest. -/
theorem lt_length_of_lt_shortestLength {lists : List (List α)} {i : Nat}
    (h : i < shortestLength lists) {items : List α} (hitems : items ∈ lists) :
    i < items.length :=
  Nat.lt_of_lt_of_le h ((shortestLength_spec (List.ne_nil_of_mem hitems)).2 items hitems)

theorem takeRow_eq_ok {i : Nat} {lists : List (List α)}
    (h : ∀ items ∈ lists, i < items.length) : takeRow lists i = .ok (row lists i) := by
  have hok : ∃ r, takeRow lists i = .ok r := by
    induction lists with
    | nil => exact ⟨[], rfl⟩
    | cons items lists ih =>
      obtain ⟨x, hx⟩ := Machine.exists_item_of_lt (h items List.mem_cons_self)
      obtain ⟨rest, hrest⟩ := ih fun l hl => h l (List.mem_cons_of_mem items hl)
      rw [takeRow] at hrest
      exact ⟨x :: rest, by rw [takeRow, List.mapM_cons, hx, hrest]; rfl⟩
  obtain ⟨r, hr⟩ := hok
  rw [hr, eq_row_of_takeRow hr]

end

theorem sizeOf_row_le (lists : List (List (Value H))) (i : Nat) :
    sizeOf (row lists i) ≤ sizeOf (lists.map Value.list) := by
  induction lists with
  | nil => simp [row]
  | cons items lists ih =>
    simp only [row, List.filterMap_cons, List.map_cons] at ih ⊢
    cases hi : items[i]? with
    | none => simp; omega
    | some x =>
      have : sizeOf x < sizeOf items := List.sizeOf_lt_of_mem (List.mem_of_getElem? hi)
      simp; omega

theorem sizeOf_row_le_of_mapM {args : List (Value H)} {lists : List (List (Value H))}
    (h : args.mapM (Operation.listArg "map") = .ok lists) (i : Nat) :
    sizeOf (row lists i) ≤ sizeOf args := by
  obtain rfl := Operation.mapM_listArg_eq_ok_iff.mp h
  exact sizeOf_row_le lists i

theorem sizeOf_le_of_mem_rows {args : List (Value H)} {lists : List (List (Value H))}
    {r : List (Value H)} (h : args.mapM (Operation.listArg "map") = .ok lists)
    (hr : r ∈ rows lists) : sizeOf r ≤ sizeOf args := by
  simp only [rows, List.mem_map] at hr
  obtain ⟨i, -, rfl⟩ := hr
  exact sizeOf_row_le_of_mapM h i

/-! ## Calls -/

/-- The line that `print` writes. -/
def printedLine (args : List (Value H)) : String :=
  " ".intercalate (args.map Value.text)

mutual

/-- The reply of a value called as a procedure. -/
def Value.call [Host H] (f : Value H) (args : List (Value H)) : Reply (Value H) :=
  match f with
  | .procedure p =>
    match p.code with
    | .host h => .ofExcept (Host.call h args)
    | .builtin b =>
      match b.arity.check b.name args.length with
      | .error e => .error e
      | .ok () => b.body args
  | v => .error (.notCallable v.text)
termination_by (sizeOf args, 1)

/-- The reply of a builtin, whatever the number of arguments. -/
def Builtin.body [Host H] (b : Builtin) (args : List (Value H)) : Reply (Value H) :=
  match b with
  | .operation op => .ofExcept (op.eval args)
  | .print => ⟨.ok .unspecified, [printedLine args]⟩
  | .apply =>
    match args with
    | [f, .list items] => f.call items
    | [_, v] => .error (v.mismatch "apply" "list")
    | _ => .error (.arity "apply" (.exact 2) args.length)
  | .map =>
    match args with
    | f :: v :: vs =>
      match _h : (v :: vs).mapM (Operation.listArg "map") with
      | .error e => .error e
      | .ok lists =>
        (Reply.traverse (fun i =>
          match _hr : takeRow lists i with
          | .error e => .error e
          | .ok r => f.call r) (List.range (shortestLength lists))).andThen fun answers =>
            .ok (.list answers)
    | _ => .error (.arity "map" (.atLeast 2) args.length)
termination_by (sizeOf args, 0)
decreasing_by
  · exact Prod.Lex.left _ _ (by simp; omega)
  · exact Prod.Lex.left _ _ (by
      have := sizeOf_row_le_of_mapM _h i
      rw [← eq_row_of_takeRow _hr] at this
      simp at this ⊢
      omega)

end

/-! ## Equations

What calls come to, one equation for each kind of procedure. -/

variable [Host H]

theorem Value.call_host (serial : Nat) (name : String) (h : H) (args : List (Value H)) :
    (Value.procedure ⟨serial, name, .host h⟩).call args = .ofExcept (Host.call h args) := by
  simp [Value.call]

theorem Value.call_builtin (serial : Nat) (name : String) (b : Builtin) (args : List (Value H)) :
    (Value.procedure ⟨serial, name, .builtin b⟩).call args =
      if b.arity.accepts args.length then b.body args
      else .error (.arity b.name b.arity args.length) := by
  cases h : b.arity.accepts args.length <;> simp [Value.call, Arity.check, h]

theorem Value.call_ofBuiltin (serial : Nat) {b : Builtin} {args : List (Value H)}
    (h : b.arity.accepts args.length = true) :
    (Value.procedure (.ofBuiltin serial b)).call args = b.body args := by
  rw [Procedure.ofBuiltin, Value.call_builtin, if_pos h]

theorem Value.call_of_not_procedure {f : Value H} (hf : f.isProcedure = false)
    (args : List (Value H)) : f.call args = .error (.notCallable f.text) := by
  cases f <;> simp_all [Value.call, Value.isProcedure]

theorem Builtin.body_operation (op : Operation) (args : List (Value H)) :
    (Builtin.operation op).body args = .ofExcept (op.eval args) := by
  simp [Builtin.body]

theorem Builtin.body_print (args : List (Value H)) :
    Builtin.print.body args = ⟨.ok .unspecified, [printedLine args]⟩ := by
  simp [Builtin.body]

theorem Builtin.body_apply (f : Value H) (items : List (Value H)) :
    Builtin.apply.body [f, .list items] = f.call items := by
  rw [Builtin.body]

theorem Builtin.body_map (f v : Value H) (vs : List (Value H)) :
    Builtin.map.body (f :: v :: vs) =
      match (v :: vs).mapM (Operation.listArg "map") with
      | .error e => .error e
      | .ok lists =>
        (Reply.traverse f.call (rows lists)).andThen fun answers => .ok (.list answers) := by
  rw [Builtin.body]
  split
  case h_1 cause hlists => simp [hlists]
  case h_2 lists hlists =>
    have hrow : ∀ i ∈ List.range (shortestLength lists),
        (match _hr : takeRow lists i with
          | .error e => .error e
          | .ok r => f.call r) = f.call (row lists i) := by
      intro i hi
      have hlt := List.mem_range.mp hi
      have hok := takeRow_eq_ok fun items hitems => lt_length_of_lt_shortestLength hlt hitems
      split
      case h_1 cause hcause =>
        rw [hok] at hcause
        cases hcause
      case h_2 r hr => rw [eq_row_of_takeRow hr]
    simp only [hlists, rows, Reply.traverse_map]
    rw [Reply.traverse_congr hrow]

end FlatLisp
