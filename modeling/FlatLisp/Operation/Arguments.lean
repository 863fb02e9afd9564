/-
FlatLisp.Operation.Arguments — argument lists taken apart.

Operations are called with any number of arguments of any kind. These
functions hand over what an operation needs or say what is wrong: the count
first, then the first argument of a wrong kind.
-/
import FlatLisp.Value

namespace FlatLisp.Operation

variable {H : Type}

/-! ## Counts -/

/-- The only argument. -/
def one (name : String) : List (Value H) → Except Error (Value H)
  | [v] => .ok v
  | args => .error (.arity name (.exact 1) args.length)

/-- The only two arguments. -/
def two (name : String) : List (Value H) → Except Error (Value H × Value H)
  | [v, w] => .ok (v, w)
  | args => .error (.arity name (.exact 2) args.length)

/-! ## Kinds -/

/-- The number that an argument has to be. -/
def numberArg (name : String) : Value H → Except Error Number
  | .number n => .ok n
  | v => .error (v.mismatch name "number")

/-- The numbers that all arguments have to be. -/
def numberArgs (name : String) (args : List (Value H)) : Except Error (List Number) :=
  args.mapM (numberArg name)

/-- The list that an argument has to be. -/
def listArg (name : String) : Value H → Except Error (List (Value H))
  | .list items => .ok items
  | v => .error (v.mismatch name "list")

/-- The number that an argument has to be, as a double. -/
def floatArg (name : String) (v : Value H) : Except Error Float :=
  (numberArg name v).map Number.toFloat

/-- The numbers in the list that an argument has to be, as doubles. -/
def floatListArg (name : String) (v : Value H) : Except Error (List Float) := do
  (← listArg name v).mapM (floatArg name)

/-- The integer that an argument has to be, called `expected` in the error. -/
def integerArgAs (expected name : String) (v : Value H) : Except Error Int64 := do
  match ← numberArg name v with
  | .int n => .ok n
  | .float _ => .error (v.mismatch name expected)

/-- The integer that an argument has to be. -/
def integerArg (name : String) (v : Value H) : Except Error Int64 :=
  integerArgAs "integer" name v

/-- The integer, not negative, that the argument described by `what` has to
be. -/
def countArg (name what : String) (v : Value H) : Except Error Nat := do
  let n ← integerArg name v
  if n.toInt < 0 then .error (.fault (.negativeCount name what)) else .ok n.toInt.toNat

/-! ## Arguments that are accepted -/

theorem one_eq_ok_iff {name : String} {args : List (Value H)} {v : Value H} :
    one name args = .ok v ↔ args = [v] := by
  unfold one
  split <;> simp_all

theorem two_eq_ok_iff {name : String} {args : List (Value H)} {v w : Value H} :
    two name args = .ok (v, w) ↔ args = [v, w] := by
  unfold two
  split <;> simp_all

theorem ne_nil_of_numberArgs_cons {name : String} {v : Value H} {vs : List (Value H)}
    {ns : List Number} (h : numberArgs name (v :: vs) = .ok ns) : ns ≠ [] := by
  rintro rfl
  rw [numberArgs, List.mapM_cons] at h
  cases hv : numberArg name v with
  | error cause => simp [hv, bind, Except.bind] at h
  | ok n =>
    cases hvs : vs.mapM (numberArg name) <;>
      simp [hv, hvs, bind, Except.bind, pure, Except.pure] at h

theorem numberArgs_map_number (name : String) (ns : List Number) :
    numberArgs name (ns.map (Value.number (H := H))) = .ok ns := by
  induction ns with
  | nil => rfl
  | cons n ns ih =>
    rw [List.map_cons, numberArgs, List.mapM_cons]
    rw [numberArgs] at ih
    rw [ih]
    rfl

/-- The first argument that is no number is the one that is complained about. -/
theorem numberArgs_of_not_number (name : String) (ns : List Number) {v : Value H}
    (hv : ∀ n, v ≠ .number n) (rest : List (Value H)) :
    numberArgs name (ns.map .number ++ v :: rest) = .error (v.mismatch name "number") := by
  induction ns with
  | nil =>
    have hfirst : numberArg name v = .error (v.mismatch name "number") := by
      cases v with
      | number n => exact absurd rfl (hv n)
      | _ => rfl
    rw [List.map_nil, List.nil_append, numberArgs, List.mapM_cons, hfirst]
    rfl
  | cons n ns ih =>
    rw [List.map_cons, List.cons_append, numberArgs, List.mapM_cons]
    rw [numberArgs] at ih
    rw [ih]
    rfl

theorem integerArg_eq_ok_iff {name : String} {v : Value H} {n : Int64} :
    integerArg name v = .ok n ↔ v = .int n := by
  cases v with
  | number m =>
    cases m <;> simp [integerArg, integerArgAs, numberArg, bind, Except.bind]
  | _ => simp [integerArg, integerArgAs, numberArg, bind, Except.bind]

/-- A count is an integer of the 64-bit range. -/
theorem countArg_eq_ok {name what : String} {v : Value H} {n : Nat}
    (h : countArg name what v = .ok n) :
    v = .int (Int64.ofInt n) ∧ (n : Int) ≤ Number.maxInt := by
  cases hv : integerArg name v with
  | error cause =>
    rw [countArg, hv] at h
    cases h
  | ok m =>
    rw [countArg, hv, ok_bind] at h
    split at h
    case isTrue => cases h
    case isFalse hm =>
      cases h
      have hcount : (m.toInt.toNat : Int) = m.toInt := Int.toNat_of_nonneg (Int.not_lt.mp hm)
      rw [hcount, Int64.ofInt_toInt]
      exact ⟨integerArg_eq_ok_iff.mp hv, Number.toInt_le_maxInt m⟩

theorem countArg_int (name what : String) {n : Int64} (h : 0 ≤ n.toInt) :
    countArg name what (.int n : Value H) = .ok n.toInt.toNat :=
  if_neg (Int.not_lt.mpr h)

theorem listArg_eq_ok_iff {name : String} {v : Value H} {items : List (Value H)} :
    listArg name v = .ok items ↔ v = .list items := by
  cases v <;> simp [listArg]

/-- Lists are taken out of arguments that are nothing but lists. -/
theorem mapM_listArg_eq_ok_iff {name : String} {args : List (Value H)} :
    ∀ {lists : List (List (Value H))},
      args.mapM (listArg name) = .ok lists ↔ args = lists.map .list := by
  induction args with
  | nil =>
    intro lists
    cases lists <;> simp [pure, Except.pure]
  | cons v vs ih =>
    intro lists
    rw [List.mapM_cons]
    cases hv : listArg name v with
    | error cause =>
      have hne : ∀ items, v ≠ .list items := by
        rintro items rfl
        simp [listArg] at hv
      cases lists <;> simp [bind, Except.bind, hne]
    | ok items =>
      obtain rfl := listArg_eq_ok_iff.mp hv
      cases h : vs.mapM (listArg name) with
      | error cause => cases lists <;> simp [bind, Except.bind, ← ih, h]
      | ok rest => cases lists <;> simp [bind, Except.bind, pure, Except.pure, ← ih, h]

/-- The first argument that is no list is the one that is complained about. -/
theorem mapM_listArg_of_not_list (name : String) (lists : List (List (Value H))) {v : Value H}
    (hv : ∀ items, v ≠ .list items) (rest : List (Value H)) :
    (lists.map Value.list ++ v :: rest).mapM (listArg name) = .error (v.mismatch name "list") := by
  induction lists with
  | nil =>
    have hfirst : listArg name v = .error (v.mismatch name "list") := by
      cases v with
      | list items => exact absurd rfl (hv items)
      | _ => rfl
    rw [List.map_nil, List.nil_append, List.mapM_cons, hfirst]
    rfl
  | cons items lists ih =>
    rw [List.map_cons, List.cons_append, List.mapM_cons, ih]
    rfl

end FlatLisp.Operation
