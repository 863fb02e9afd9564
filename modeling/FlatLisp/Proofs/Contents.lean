/-
FlatLisp.Proofs.Contents — what the values that operations answer with are
made of.

Symbols and procedures are the parts of values that no computation can make
up. A value is drawn from some of them if every symbol and every procedure in
it, at any depth, is one of these; numbers, booleans and the unspecified value
are drawn from anything. `Operation.eval_drawnFrom` says of all operations at
once that an answer is drawn from what the arguments are drawn from: most
answer with numbers or booleans, and the others only move parts of their
arguments about.
-/
import FlatLisp.Operation.Eval

namespace FlatLisp

variable {H : Type}

/-! ## Parts of values -/

namespace Value

/-- The value `x` occurs in a value, at any depth. -/
inductive Occurs (x : Value H) : Value H → Prop
  | here : Occurs x x
  | item {v : Value H} {items : List (Value H)} (hv : v ∈ items) (h : Occurs x v) :
      Occurs x (.list items)

/-- Every symbol and every procedure in the value is known. -/
inductive DrawnFrom (Known : Value H → Prop) : Value H → Prop
  | number (n : Number) : DrawnFrom Known (.number n)
  | bool (b : Bool) : DrawnFrom Known (.bool b)
  | unspecified : DrawnFrom Known .unspecified
  | symbol {name : String} (h : Known (.symbol name)) : DrawnFrom Known (.symbol name)
  | procedure {p : Procedure H} (h : Known (.procedure p)) : DrawnFrom Known (.procedure p)
  | list {items : List (Value H)} (h : ∀ v ∈ items, DrawnFrom Known v) :
      DrawnFrom Known (.list items)

variable {Known : Value H → Prop}

@[simp] theorem drawnFrom_number (n : Number) : (Value.number n).DrawnFrom Known :=
  .number n

@[simp] theorem drawnFrom_bool (b : Bool) : (Value.bool b).DrawnFrom Known :=
  .bool b

@[simp] theorem drawnFrom_unspecified : (Value.unspecified : Value H).DrawnFrom Known :=
  .unspecified

@[simp] theorem drawnFrom_symbol {name : String} :
    (Value.symbol name).DrawnFrom Known ↔ Known (.symbol name) := by
  constructor
  · intro h
    cases h with
    | symbol h => exact h
  · exact .symbol

@[simp] theorem drawnFrom_procedure {p : Procedure H} :
    (Value.procedure p).DrawnFrom Known ↔ Known (.procedure p) := by
  constructor
  · intro h
    cases h with
    | procedure h => exact h
  · exact .procedure

@[simp] theorem drawnFrom_list {items : List (Value H)} :
    (Value.list items).DrawnFrom Known ↔ ∀ v ∈ items, v.DrawnFrom Known := by
  constructor
  · intro h
    cases h with
    | list h => exact h
  · exact .list

/-- What occurs in a value is drawn from whatever the value is. -/
theorem DrawnFrom.of_occurs {x v : Value H} (h : v.DrawnFrom Known) (hx : x.Occurs v) :
    x.DrawnFrom Known := by
  induction hx with
  | here => exact h
  | item hv _ ih => exact ih (drawnFrom_list.mp h _ hv)

/-- A value is drawn from all that occurs in it. -/
theorem drawnFrom_of_forall_occurs (v : Value H) (h : ∀ x : Value H, x.Occurs v → Known x) :
    v.DrawnFrom Known := by
  cases v with
  | number n => exact .number n
  | bool b => exact .bool b
  | unspecified => exact .unspecified
  | symbol name => exact .symbol (h _ .here)
  | procedure p => exact .procedure (h _ .here)
  | list items =>
    refine .list ?_
    intro w hw
    have hsize : sizeOf w < sizeOf items := List.sizeOf_lt_of_mem hw
    exact drawnFrom_of_forall_occurs w fun x hx => h x (.item hw hx)
termination_by sizeOf v

end Value

/-! ## Outcomes -/

/-- The value of an outcome, if there is one, has the property. -/
def Yields {α : Type} (P : α → Prop) (outcome : Except Error α) : Prop :=
  ∀ a, outcome = .ok a → P a

section

variable {α β : Type} {P : α → Prop}

@[simp] theorem yields_ok {a : α} : Yields P (.ok a) ↔ P a := by
  simp [Yields]

@[simp] theorem yields_pure {a : α} : Yields P (pure a : Except Error α) ↔ P a :=
  yields_ok

@[simp] theorem yields_error (cause : Error) : Yields P (.error cause) := by
  simp [Yields]

@[simp] theorem yields_bind {x : Except Error β} {f : β → Except Error α} :
    Yields P (x >>= f) ↔ ∀ b, x = .ok b → Yields P (f b) := by
  cases x <;> simp [bind, Except.bind]

@[simp] theorem yields_map {x : Except Error β} {f : β → α} :
    Yields P (f <$> x) ↔ ∀ b, x = .ok b → P (f b) := by
  cases x <;> simp [Functor.map, Except.map]

end

/-! ## Numeric answers -/

namespace Operation

open Value (DrawnFrom)

variable {Known : Value H → Prop} {args : List (Value H)}

theorem yields_evalSum : Yields (DrawnFrom Known) (evalSum args) := by
  simp [evalSum]

theorem yields_evalDifference : Yields (DrawnFrom Known) (evalDifference args) := by
  rw [evalDifference, yields_bind]
  intro ns _
  split <;> simp

theorem yields_evalProduct : Yields (DrawnFrom Known) (evalProduct args) := by
  simp [evalProduct]

theorem yields_evalQuotient : Yields (DrawnFrom Known) (evalQuotient args) := by
  rw [evalQuotient, yields_bind]
  intro ns _
  split <;> simp

theorem yields_evalComparison (c : Comparison) :
    Yields (DrawnFrom Known) (evalComparison c args) := by
  simp [evalComparison]

theorem yields_evalProd : Yields (DrawnFrom Known) (evalProd args) := by
  simp [evalProd]

theorem yields_evalAbs : Yields (DrawnFrom Known) (evalAbs args) := by
  simp [evalAbs]

theorem yields_checkedReal (name : String) (inputs : List Float) (result : Float) :
    Yields (DrawnFrom Known) (checkedReal name inputs result) := by
  unfold checkedReal
  split
  · simp
  · split <;> simp

theorem yields_integerExpt (base exponent : Int64) :
    Yields (DrawnFrom Known) (integerExpt (H := H) base exponent) := by
  unfold integerExpt
  split <;> simp

theorem yields_realExptBy (power : Float → Float → Float) (base exponent : Number) :
    Yields (DrawnFrom Known) (realExptBy power base exponent) :=
  yields_checkedReal _ _ _

theorem yields_evalExptBy (power : Float → Float → Float) :
    Yields (DrawnFrom Known) (evalExptBy power args) := by
  simp only [evalExptBy, yields_bind]
  intro pair _ base _ exponent _
  split
  · simp
  · split
    · split
      · exact yields_integerExpt _ _
      · exact yields_realExptBy _ _ _
    · exact yields_realExptBy _ _ _

theorem yields_evalExtreme (e : Extreme) : Yields (DrawnFrom Known) (evalExtreme e args) := by
  rw [evalExtreme, yields_bind]
  intro ns _
  split <;> simp

theorem yields_evalRound : Yields (DrawnFrom Known) (evalRound args) := by
  unfold evalRound
  split
  · rw [yields_bind]
    intro n _
    split <;> simp
  · simp
  · simp

theorem yields_evalUnary (name : String) (isDefinedAt : Float → Bool) (value : Float → Float) :
    Yields (DrawnFrom Known) (evalUnary name isDefinedAt value args) := by
  simp only [evalUnary, yields_bind]
  intro v _ x _
  split
  · simp
  · exact yields_checkedReal _ _ _

theorem yields_evalBinary (name : String) (value : Float → Float → Float) :
    Yields (DrawnFrom Known) (evalBinary name value args) := by
  simp only [evalBinary, yields_bind]
  intro pair _ x _ y _
  exact yields_checkedReal _ _ _

theorem yields_evalPowBy (power : Float → Float → Float) :
    Yields (DrawnFrom Known) (evalPowBy power args) := by
  simp only [evalPowBy, yields_bind]
  intro pair _ x _ y _
  split
  · simp
  · exact yields_checkedReal _ _ _

theorem yields_evalHypotBy (hypotenuse : Float → Float → Float) :
    Yields (DrawnFrom Known) (evalHypotBy hypotenuse args) := by
  rw [evalHypotBy, yields_bind]
  intro coordinates _
  exact yields_checkedReal _ _ _

theorem yields_evalDist : Yields (DrawnFrom Known) (evalDist args) := by
  simp only [evalDist, yields_bind]
  intro pair _ p _ q _
  split
  · simp
  · exact yields_checkedReal _ _ _

theorem yields_evalLogBy (ln : Float → Float) : Yields (DrawnFrom Known) (evalLogBy ln args) := by
  unfold evalLogBy
  split
  · rw [yields_bind]
    intro result _
    exact yields_checkedReal _ _ _
  · simp only [yields_bind]
    intro numerator _ denominator _
    split
    · simp
    · exact yields_checkedReal _ _ _
  · simp

theorem yields_evalTruncation (t : Truncation) :
    Yields (DrawnFrom Known) (evalTruncation t args) := by
  simp only [evalTruncation, yields_bind]
  intro v _ n _
  split <;> simp

theorem yields_evalClass (c : FloatClass) : Yields (DrawnFrom Known) (evalClass c args) := by
  simp [evalClass]

theorem yields_evalLdexpBy (scale : Float → Int → Float) :
    Yields (DrawnFrom Known) (evalLdexpBy scale args) := by
  simp only [evalLdexpBy, yields_bind]
  intro pair _ x _ exponent _
  exact yields_checkedReal _ _ _

theorem yields_evalFrexp : Yields (DrawnFrom Known) (evalFrexp args) := by
  simp [evalFrexp]

theorem yields_evalModf : Yields (DrawnFrom Known) (evalModf args) := by
  simp [evalModf]

theorem yields_closeWithin (v w : Value H) (relative absolute : Except Error Float) :
    Yields (DrawnFrom Known) (closeWithin v w relative absolute) := by
  simp only [closeWithin, yields_bind]
  intro a _ b _ relative _ absolute _
  split <;> simp

theorem yields_evalIsclose : Yields (DrawnFrom Known) (evalIsclose args) := by
  unfold evalIsclose
  split
  · exact yields_closeWithin _ _ _ _
  · exact yields_closeWithin _ _ _ _
  · exact yields_closeWithin _ _ _ _
  · simp

theorem yields_evalFsum : Yields (DrawnFrom Known) (evalFsum args) := by
  simp only [evalFsum, yields_bind]
  intro v _ xs _ sum _
  exact yields_checkedReal _ _ _

/-! ## Counting -/

theorem yields_countValue (name : String) (n : Nat) :
    Yields (DrawnFrom Known) (countValue (H := H) name n) := by
  simp [countValue]

theorem yields_productValue (name : String) (product : Option Nat) :
    Yields (DrawnFrom Known) (productValue (H := H) name product) := by
  cases product with
  | none => simp [productValue]
  | some n => exact yields_countValue name n

theorem yields_evalGcd : Yields (DrawnFrom Known) (evalGcd args) := by
  rw [evalGcd, yields_bind]
  intro divisor _
  exact yields_countValue _ _

theorem yields_evalLcm : Yields (DrawnFrom Known) (evalLcm args) := by
  rw [evalLcm, yields_bind]
  intro multiple _
  exact yields_countValue _ _

theorem yields_evalIsqrtBy (estimate : Nat → Nat) :
    Yields (DrawnFrom Known) (evalIsqrtBy estimate args) := by
  simp only [evalIsqrtBy, yields_bind]
  intro v _ n _
  split
  · simp
  · rw [yields_bind]
    intro root _
    exact yields_countValue _ _

theorem yields_evalFactorial : Yields (DrawnFrom Known) (evalFactorial args) := by
  simp only [evalFactorial, yields_bind]
  intro v _ n _
  split
  · simp
  · exact yields_productValue _ _

theorem yields_evalPerm : Yields (DrawnFrom Known) (evalPerm args) := by
  unfold evalPerm
  split
  · simp only [yields_bind]
    intro n _ product _
    exact yields_productValue _ _
  · simp only [yields_bind]
    intro n _ k _ product _
    exact yields_productValue _ _
  · simp

theorem yields_evalComb : Yields (DrawnFrom Known) (evalComb args) := by
  simp only [evalComb, yields_bind]
  intro pair _ n _ k _ count _
  exact yields_countValue _ _

/-! ## Lists and sequencing -/

section

variable (h : ∀ v ∈ args, v.DrawnFrom Known)

include h

theorem yields_evalAppend : Yields (DrawnFrom Known) (evalAppend args) := by
  rw [evalAppend, yields_bind]
  intro lists hlists
  obtain rfl := mapM_listArg_eq_ok_iff.mp hlists
  simp only [yields_pure, Value.drawnFrom_list, List.mem_flatten]
  rintro v ⟨items, hitems, hv⟩
  exact Value.drawnFrom_list.mp (h _ (List.mem_map_of_mem hitems)) v hv

theorem yields_evalCar : Yields (DrawnFrom Known) (evalCar args) := by
  simp only [evalCar, yields_bind, one_eq_ok_iff, listArg_eq_ok_iff]
  rintro v rfl items rfl
  split <;> simp_all

theorem yields_evalCdr : Yields (DrawnFrom Known) (evalCdr args) := by
  simp only [evalCdr, yields_bind, one_eq_ok_iff, listArg_eq_ok_iff]
  rintro v rfl items rfl
  simp only [yields_pure, Value.drawnFrom_list]
  intro v hv
  exact Value.drawnFrom_list.mp (h _ List.mem_cons_self) v (List.mem_of_mem_tail hv)

theorem yields_evalCons : Yields (DrawnFrom Known) (evalCons args) := by
  simp only [evalCons, yields_bind, listArg_eq_ok_iff]
  rintro ⟨first, rest⟩ hpair items rfl
  obtain rfl := two_eq_ok_iff.mp hpair
  simp_all

theorem yields_evalBegin : Yields (DrawnFrom Known) (evalBegin args) := by
  unfold evalBegin
  split
  case h_1 v hv => exact yields_ok.mpr (h v (List.mem_of_getLast? hv))
  case h_2 => simp

/-- The answer of an operation is drawn from what its arguments are drawn
from. -/
theorem eval_drawnFrom (op : Operation) : Yields (DrawnFrom Known) (op.eval args) := by
  cases op with
  | sum => exact yields_evalSum
  | difference => exact yields_evalDifference
  | product => exact yields_evalProduct
  | quotient => exact yields_evalQuotient
  | compare c => exact yields_evalComparison c
  | abs => exact yields_evalAbs
  | expt => exact yields_evalExptBy _
  | extreme e => exact yields_evalExtreme e
  | round => exact yields_evalRound
  | append => exact yields_evalAppend h
  | car => exact yields_evalCar h
  | cdr => exact yields_evalCdr h
  | cons => exact yields_evalCons h
  | length => simp [eval, evalLength]
  | list => exact yields_ok.mpr (.list h)
  | begin => exact yields_evalBegin h
  | identical => simp [eval, evalIdentical]
  | equal => simp [eval, evalEqual]
  | not => simp [eval, evalNot]
  | ask kind => simp [eval, evalKind]
  | real f => exact yields_evalUnary _ _ _
  | real₂ f => exact yields_evalBinary _ _
  | log => exact yields_evalLogBy _
  | pow => exact yields_evalPowBy _
  | hypot => exact yields_evalHypotBy _
  | truncate t => exact yields_evalTruncation t
  | classify c => exact yields_evalClass c
  | factorial => exact yields_evalFactorial
  | gcd => exact yields_evalGcd
  | lcm => exact yields_evalLcm
  | isqrt => exact yields_evalIsqrtBy _
  | comb => exact yields_evalComb
  | perm => exact yields_evalPerm
  | ldexp => exact yields_evalLdexpBy _
  | frexp => exact yields_evalFrexp
  | modf => exact yields_evalModf
  | fsum => exact yields_evalFsum
  | prod => exact yields_evalProd
  | dist => exact yields_evalDist
  | isclose => exact yields_evalIsclose

end

end Operation

end FlatLisp
