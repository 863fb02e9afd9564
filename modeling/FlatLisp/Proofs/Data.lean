/-
FlatLisp.Proofs.Data — expressions as data.

As a value, an expression keeps its text, what it is equal to, and all that it is made of:
each is a structural induction over the expression, in step with its data. Numbers and lists
of numbers, of any nesting, are the data of expressions without symbols; these are well
formed, so the text of such a value is read back to the expression, and that as data is the
value again, integer by integer and double by double.
-/
import FlatLisp.Proofs.RoundTrip
import FlatLisp.Value

namespace FlatLisp.Value

variable {H : Type}

/-! ## Text, equality and contents -/

mutual

/-- Data is shown as the expression is. -/
theorem text_ofExpr (e : Expr) : (ofExpr e : Value H).text = e.text := by
  cases e with
  | atom a => cases a <;> rfl
  | list items => rw [ofExpr, text, textItems_ofExprs items, Expr.text]

theorem textItems_ofExprs (es : List Expr) :
    textItems (ofExprs es : List (Value H)) = Expr.textItems es := by
  cases es with
  | nil => rfl
  | cons e es => rw [ofExprs, textItems, text_ofExpr e, textItems_ofExprs es, Expr.textItems]

end

mutual

/-- Data is equal just where the expressions are. -/
theorem equal_ofExpr (a b : Expr) : (ofExpr a : Value H).equal (ofExpr b) = a.equal b := by
  cases a with
  | atom a =>
    cases b with
    | atom b => cases a <;> cases b <;> rfl
    | list bs => cases a <;> rfl
  | list as =>
    cases b with
    | atom b => cases b <;> rfl
    | list bs => rw [ofExpr, ofExpr, equal, equalItems_ofExprs as bs, Expr.equal]

theorem equalItems_ofExprs (as bs : List Expr) :
    equalItems (ofExprs as : List (Value H)) (ofExprs bs) = Expr.equalItems as bs := by
  cases as with
  | nil => cases bs <;> rfl
  | cons a as =>
    cases bs with
    | nil => rfl
    | cons b bs =>
      rw [ofExprs, ofExprs, equalItems, equal_ofExpr a b, equalItems_ofExprs as bs,
        Expr.equalItems]

end

mutual

/-- Different expressions are different data. -/
theorem ofExpr_inj {a b : Expr} : (ofExpr a : Value H) = ofExpr b ↔ a = b := by
  cases a with
  | atom a =>
    cases b with
    | atom b => cases a <;> cases b <;> simp [ofExpr]
    | list bs => cases a <;> simp [ofExpr]
  | list as =>
    cases b with
    | atom b => cases b <;> simp [ofExpr]
    | list bs => rw [ofExpr, ofExpr, list.injEq, ofExprs_inj, Expr.list.injEq]

theorem ofExprs_inj {as bs : List Expr} :
    (ofExprs as : List (Value H)) = ofExprs bs ↔ as = bs := by
  cases as with
  | nil => cases bs <;> simp [ofExprs]
  | cons a as =>
    cases bs with
    | nil => simp [ofExprs]
    | cons b bs =>
      rw [ofExprs, ofExprs, List.cons.injEq, ofExpr_inj, ofExprs_inj, List.cons.injEq]

end

/-! ## Numbers and lists -/

/-- The value is made of numbers and lists only. -/
inductive Numeric : Value H → Prop
  | number (n : Number) : Numeric (.number n)
  | list {items : List (Value H)} (h : ∀ v ∈ items, Numeric v) : Numeric (.list items)

theorem exists_ofExprs_eq {items : List (Value H)}
    (h : ∀ v ∈ items, ∃ e : Expr, e.WellFormed ∧ ofExpr e = v) :
    ∃ es : List Expr, (∀ e ∈ es, e.WellFormed) ∧ ofExprs es = items := by
  induction items with
  | nil => exact ⟨[], by simp, rfl⟩
  | cons v vs ih =>
    obtain ⟨⟨e, he, hv⟩, hvs⟩ := List.forall_mem_cons.mp h
    obtain ⟨es, hes, hitems⟩ := ih hvs
    exact ⟨e :: es, List.forall_mem_cons.mpr ⟨he, hes⟩, by rw [ofExprs, hv, hitems]⟩

/-- Numbers and lists are the data of well-formed expressions. -/
theorem Numeric.exists_ofExpr_eq {v : Value H} (h : v.Numeric) :
    ∃ e : Expr, e.WellFormed ∧ ofExpr e = v := by
  induction h with
  | number n => exact ⟨.number n, .atom trivial, rfl⟩
  | list _ ih =>
    obtain ⟨es, hes, hitems⟩ := exists_ofExprs_eq ih
    exact ⟨.list es, .list hes, by rw [ofExpr, hitems]⟩

/-- The text of a value that is the data of a well-formed expression holds the expression. -/
theorem parse_text_ofExpr {e : Expr} (h : e.WellFormed) :
    Expr.parse (ofExpr e : Value H).text = .ok e := by
  rw [text_ofExpr]
  exact Expr.parse_text h

/-- **An expression loses nothing as data.** Its data has its text and is equal to other data
just where the expressions are equal; expressions with the same data are the same. A value
that is made of numbers and lists is read back from its text: what is read is an expression
with that value as its data. -/
theorem data_keeps_expression :
    (∀ e : Expr, (ofExpr e : Value H).text = e.text) ∧
      (∀ a b : Expr, (ofExpr a : Value H).equal (ofExpr b) = true ↔ a.equal b = true) ∧
      (∀ a b : Expr, (ofExpr a : Value H) = ofExpr b ↔ a = b) ∧
      (∀ v : Value H, v.Numeric → ∃ e, Expr.parse v.text = .ok e ∧ ofExpr e = v) := by
  refine ⟨text_ofExpr, ?_, fun a b => ofExpr_inj, ?_⟩
  · intro a b
    rw [equal_ofExpr]
  · intro v hv
    obtain ⟨e, he, rfl⟩ := hv.exists_ofExpr_eq
    exact ⟨e, parse_text_ofExpr he, rfl⟩

end FlatLisp.Value
