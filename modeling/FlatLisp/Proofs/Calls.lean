/-
FlatLisp.Proofs.Calls — what a call comes to, as rules.

A call fails because its head is no procedure or because of the number of
arguments; it is answered by the host or by an operation; it prints; or it is
`apply` or `map` and calls another procedure. `Calls` has a rule for each of
these, and `calls` says that every call follows them. A proof about calls is
an induction on the rules, with the calls inside `apply` and `map` as
hypotheses, and opens neither `Value.call` nor `Builtin.body`.
-/
import FlatLisp.Call

namespace FlatLisp

variable {H : Type}

/-- A builtin as a value, whatever its identity and name. -/
abbrev Value.builtin (serial : Nat) (name : String) (b : Builtin) : Value H :=
  .procedure ⟨serial, name, .builtin b⟩

variable [Host H]

/-- Calling a value with arguments comes to a reply. -/
inductive Calls : Value H → List (Value H) → Reply (Value H) → Prop
  | notProcedure {f : Value H} (h : f.isProcedure = false) (args : List (Value H)) :
      Calls f args (.error (.notCallable f.text))
  | host (serial : Nat) (name : String) (h : H) (args : List (Value H)) :
      Calls (.procedure ⟨serial, name, .host h⟩) args (.ofExcept (Host.call h args))
  | count (serial : Nat) (name : String) {b : Builtin} {args : List (Value H)}
      (h : b.arity.accepts args.length = false) :
      Calls (.builtin serial name b) args (.error (.arity b.name b.arity args.length))
  | operation (serial : Nat) (name : String) {op : Operation} {args : List (Value H)}
      (h : op.arity.accepts args.length = true) :
      Calls (.builtin serial name (.operation op)) args (.ofExcept (op.eval args))
  | print (serial : Nat) (name : String) (args : List (Value H)) :
      Calls (.builtin serial name .print) args ⟨.ok .unspecified, [printedLine args]⟩
  | apply (serial : Nat) (name : String) {f : Value H} {items : List (Value H)}
      {reply : Reply (Value H)} (h : Calls f items reply) :
      Calls (.builtin serial name .apply) [f, .list items] reply
  | applyMismatch (serial : Nat) (name : String) (f : Value H) {v : Value H}
      (h : ∀ items, v ≠ .list items) :
      Calls (.builtin serial name .apply) [f, v] (.error (v.mismatch "apply" "list"))
  | map (serial : Nat) (name : String) {f v : Value H} {vs : List (Value H)}
      {lists : List (List (Value H))}
      (hlists : (v :: vs).mapM (Operation.listArg "map") = .ok lists)
      (h : ∀ r ∈ rows lists, Calls f r (f.call r)) :
      Calls (.builtin serial name .map) (f :: v :: vs)
        ((Reply.traverse f.call (rows lists)).andThen fun answers => .ok (.list answers))
  | mapMismatch (serial : Nat) (name : String) (f : Value H) {v : Value H} {vs : List (Value H)}
      {cause : Error} (h : (v :: vs).mapM (Operation.listArg "map") = .error cause) :
      Calls (.builtin serial name .map) (f :: v :: vs) (.error cause)

/-- Applying to what is no list. -/
theorem Builtin.body_apply_of_not_list (f : Value H) {v : Value H} (h : ∀ items, v ≠ .list items) :
    Builtin.apply.body [f, v] = .error (v.mismatch "apply" "list") := by
  cases v <;> simp_all [Builtin.body]

/-- Every call follows the rules. The arguments get smaller with every call
inside a call. -/
theorem calls (f : Value H) (args : List (Value H)) : Calls f args (f.call args) := by
  have inner : ∀ g items, sizeOf items < sizeOf args → Calls g items (g.call items) :=
    fun g items _ => calls g items
  cases f with
  | procedure p =>
    obtain ⟨serial, name, code⟩ := p
    cases code with
    | host h =>
      rw [Value.call_host]
      exact .host serial name h args
    | builtin b =>
      rw [Value.call_builtin]
      split
      case isFalse hcount => exact .count serial name (by simpa using hcount)
      case isTrue hcount =>
        cases b with
        | operation op =>
          rw [Builtin.body_operation]
          exact .operation serial name hcount
        | print =>
          rw [Builtin.body_print]
          exact .print serial name args
        | apply =>
          obtain ⟨g, v, rfl⟩ : ∃ g v, args = [g, v] := by
            match args, hcount with
            | [g, v], _ => exact ⟨g, v, rfl⟩
          -- a case split on `v` would repeat the mismatch for every other kind of value
          by_cases hv : ∃ items, v = .list items
          · obtain ⟨items, rfl⟩ := hv
            rw [Builtin.body_apply]
            exact .apply serial name (inner g items (by simp; omega))
          · rw [Builtin.body_apply_of_not_list g (not_exists.mp hv)]
            exact .applyMismatch serial name g (not_exists.mp hv)
        | map =>
          obtain ⟨g, v, vs, rfl⟩ : ∃ g v vs, args = g :: v :: vs := by
            match args, hcount with
            | g :: v :: vs, _ => exact ⟨g, v, vs, rfl⟩
          rw [Builtin.body_map]
          split
          case h_1 cause hlists => exact .mapMismatch serial name g hlists
          case h_2 lists hlists =>
            refine .map serial name hlists ?_
            intro r hr
            have hsize := sizeOf_le_of_mem_rows hlists hr
            exact inner g r (by simp at hsize ⊢; omega)
  | _ =>
    rw [Value.call_of_not_procedure rfl]
    exact .notProcedure rfl args
termination_by sizeOf args

end FlatLisp
