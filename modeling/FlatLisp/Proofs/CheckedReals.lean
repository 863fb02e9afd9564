/-
FlatLisp.Proofs.CheckedReals — no scalar function answers with a silent exception.

An answer that is not a number is *accounted for* by an argument that is not a
number, an infinite one by an argument that is not finite. The check in front of
an answer asks this of its own inputs, so it speaks for the arguments if the
exceptions among its inputs stem from exceptions among the arguments
(`accountedFor_checkedReal`). Nothing is used of the function that was computed:
operations take the functions on doubles that they call as parameters, and here
these come from any library (`RealLibrary`). The operations of the language are
those of one library (`eval_standard`).

Logarithms are the exception. Their check looks at the logarithms themselves, so
they need two facts about `ln` (`LogRules`): it takes positive finite doubles to
finite ones, and infinity to infinity.
-/
import FlatLisp.Operation.Eval
import FlatLisp.Proofs.FloatOrder

namespace FlatLisp

variable {H : Type}

/-! ## Exceptions accounted for -/

/-- An answer is no silent exception: if it is not a number, then neither is one of
the inputs, and if it is infinite, one of them is not finite. -/
def AccountedFor (inputs : List Float) (answer : Except Error (Value H)) : Prop :=
  ∀ r : Float, answer = .ok (.float r) →
    (r.isNaN = true → ∃ x ∈ inputs, x.isNaN = true) ∧
    (r.isInf = true → ∃ x ∈ inputs, x.isFinite = false)

/-- Every exception among some doubles stems from one among the inputs. -/
structure StemsFrom (inputs doubles : List Float) : Prop where
  isNaN : ∀ x ∈ doubles, x.isNaN = true → ∃ y ∈ inputs, y.isNaN = true
  notFinite : ∀ x ∈ doubles, x.isFinite = false → ∃ y ∈ inputs, y.isFinite = false

theorem StemsFrom.of_subset {inputs doubles : List Float} (h : doubles ⊆ inputs) :
    StemsFrom inputs doubles where
  isNaN x hx hnan := ⟨x, h hx, hnan⟩
  notFinite x hx hfinite := ⟨x, h hx, hfinite⟩

theorem accountedFor_error (inputs : List Float) (cause : Error) :
    AccountedFor inputs (.error cause : Except Error (Value H)) := by
  rintro r ⟨⟩

/-- An integer needs no account. -/
theorem accountedFor_int (inputs : List Float) (n : Int64) :
    AccountedFor inputs (.ok (.int n) : Except Error (Value H)) := by
  rintro r ⟨⟩

theorem AccountedFor.bind {α : Type} {inputs : List Float} {x : Except Error α}
    {f : α → Except Error (Value H)} (h : ∀ a, x = .ok a → AccountedFor inputs (f a)) :
    AccountedFor inputs (x >>= f) := by
  cases x with
  | error cause => exact accountedFor_error inputs cause
  | ok a => exact h a rfl

namespace Operation

/-! ## The check -/

/-- The check lets a result pass exactly if its own inputs account for it. -/
theorem checkedReal_eq_ok_iff {name : String} {inputs : List Float} {result r : Float} :
    (checkedReal name inputs result : Except Error (Value H)) = .ok (.float r) ↔
      r = result ∧ (result.isNaN = true → ∃ x ∈ inputs, x.isNaN = true) ∧
        (result.isInf = true → ∃ x ∈ inputs, x.isFinite = false) := by
  have hnan : (result.isNaN && !inputs.any Float.isNaN) = true
      ↔ ¬ (result.isNaN = true → ∃ x ∈ inputs, x.isNaN = true) := by
    rw [Bool.and_eq_true, Bool.not_eq_true', ← Bool.not_eq_true, List.any_eq_true,
      Classical.not_imp]
  have hinf : (result.isInf && inputs.all Float.isFinite) = true
      ↔ ¬ (result.isInf = true → ∃ x ∈ inputs, x.isFinite = false) := by
    rw [Bool.and_eq_true, List.all_eq_true, Classical.not_imp]
    simp only [not_exists, not_and, Bool.not_eq_false]
  unfold checkedReal
  split
  case isTrue h =>
    have h' := hnan.mp h
    constructor
    · rintro ⟨⟩
    · rintro ⟨-, hpass, -⟩
      exact absurd hpass h'
  case isFalse h =>
    rw [hnan, not_not] at h
    split
    case isTrue hr =>
      have h' := hinf.mp hr
      constructor
      · rintro ⟨⟩
      · rintro ⟨-, -, hpass⟩
        exact absurd hpass h'
    case isFalse hr =>
      rw [hinf, not_not] at hr
      constructor
      · rintro ⟨⟩
        exact ⟨rfl, h, hr⟩
      · rintro ⟨rfl, -, -⟩
        rfl

/-- A checked result is accounted for by whatever its inputs stem from. -/
theorem accountedFor_checkedReal {inputs doubles : List Float} (h : StemsFrom inputs doubles)
    (name : String) (result : Float) :
    AccountedFor inputs (checkedReal name doubles result : Except Error (Value H)) := by
  intro r hr
  obtain ⟨rfl, hnan, hinf⟩ := checkedReal_eq_ok_iff.mp hr
  constructor
  · intro hr
    obtain ⟨x, hx, hxnan⟩ := hnan hr
    exact h.isNaN x hx hxnan
  · intro hr
    obtain ⟨x, hx, hxfinite⟩ := hinf hr
    exact h.notFinite x hx hxfinite

theorem accountedFor_checkedReal_self (name : String) (inputs : List Float) (result : Float) :
    AccountedFor inputs (checkedReal name inputs result : Except Error (Value H)) :=
  accountedFor_checkedReal (.of_subset (List.Subset.refl inputs)) name result

/-- Whether the answer is a double that was checked against the arguments: the
functions of one and two arguments, powers, lengths and scaling. An integer power
of an integer is computed without doubles. -/
def isChecked : Operation → Bool
  | real _ | real₂ _ | pow | hypot | ldexp | expt => true
  | _ => false

end Operation

/-- The functions on doubles that operations call. -/
structure RealLibrary where
  value : RealFunction → Float → Float
  value₂ : RealFunction₂ → Float → Float → Float
  power : Float → Float → Float
  hypotenuse : Float → Float → Float
  scale : Float → Int → Float
  ln : Float → Float

namespace RealLibrary
open Operation

/-- The functions of the language. -/
def standard : RealLibrary where
  value := RealFunction.value
  value₂ := RealFunction₂.value
  power := Float.pow
  hypotenuse := Binary64.hypotenuse
  scale := Binary64.scale
  ln := Float.log

/-- The answer of an operation that calls the functions of a library. -/
def eval (lib : RealLibrary) : Operation → List (Value H) → Except Error (Value H)
  | .real f => evalUnary f.name f.isDefinedAt (lib.value f)
  | .real₂ f => evalBinary f.name (lib.value₂ f)
  | .log => evalLogBy lib.ln
  | .pow => evalPowBy lib.power
  | .hypot => evalHypotBy lib.hypotenuse
  | .ldexp => evalLdexpBy lib.scale
  | .expt => evalExptBy lib.power
  | op => op.eval

theorem eval_standard : standard.eval = Operation.eval (H := H) := by
  funext op
  cases op <;> rfl

end RealLibrary

/-! ## Answers checked against the arguments -/

namespace Operation

theorem mapM_floatArg_number (name : String) (ns : List Number) :
    (ns.map Value.number : List (Value H)).mapM (floatArg name) = .ok (ns.map Number.toFloat) := by
  induction ns with
  | nil => rfl
  | cons n ns ih =>
    rw [List.map_cons, List.mapM_cons, ih]
    rfl

theorem accountedFor_evalUnary (name : String) (isDefinedAt : Float → Bool)
    (value : Float → Float) : ∀ ns : List Number,
      AccountedFor (ns.map Number.toFloat)
        (evalUnary name isDefinedAt value (ns.map Value.number : List (Value H)))
  | [n] => by
    show AccountedFor [n.toFloat] (if _ then _ else _)
    split
    · exact accountedFor_error _ _
    · exact accountedFor_checkedReal_self _ _ _
  | [] | _ :: _ :: _ => accountedFor_error _ _

theorem accountedFor_evalBinary (name : String) (value : Float → Float → Float) :
    ∀ ns : List Number, AccountedFor (ns.map Number.toFloat)
      (evalBinary name value (ns.map Value.number : List (Value H)))
  | [_, _] => accountedFor_checkedReal_self _ _ _
  | [] | [_] | _ :: _ :: _ :: _ => accountedFor_error _ _

theorem accountedFor_evalPowBy (power : Float → Float → Float) : ∀ ns : List Number,
    AccountedFor (ns.map Number.toFloat)
      (evalPowBy power (ns.map Value.number : List (Value H)))
  | [m, n] => by
    show AccountedFor [m.toFloat, n.toFloat] (if _ then _ else _)
    split
    · exact accountedFor_error _ _
    · exact accountedFor_checkedReal_self _ _ _
  | [] | [_] | _ :: _ :: _ :: _ => accountedFor_error _ _

theorem accountedFor_evalHypotBy (hypotenuse : Float → Float → Float) (ns : List Number) :
    AccountedFor (ns.map Number.toFloat)
      (evalHypotBy hypotenuse (ns.map Value.number : List (Value H))) := by
  rw [evalHypotBy, mapM_floatArg_number]
  exact accountedFor_checkedReal_self _ _ _

/-- The exponent is no double, so the check need not look at it. -/
theorem accountedFor_evalLdexpBy (scale : Float → Int → Float) : ∀ ns : List Number,
    AccountedFor (ns.map Number.toFloat)
      (evalLdexpBy scale (ns.map Value.number : List (Value H)))
  | [_, .int _] => accountedFor_checkedReal (.of_subset (by simp)) _ _
  | [_, .float _] | [] | [_] | _ :: _ :: _ :: _ => accountedFor_error _ _

/-- An integer power is an integer or an error. -/
theorem accountedFor_integerExpt (inputs : List Float) (base exponent : Int64) :
    AccountedFor inputs (integerExpt base exponent : Except Error (Value H)) := by
  unfold integerExpt
  split
  · exact accountedFor_error _ _
  · refine .bind fun power hpower => ?_
    unfold Number.exact Number.ofInt? at hpower
    split at hpower
    case h_1 number hnumber =>
      split at hnumber
      · cases hnumber
        cases hpower
        exact accountedFor_int _ _
      · cases hnumber
    case h_2 => cases hpower

theorem accountedFor_evalExptBy (power : Float → Float → Float) : ∀ ns : List Number,
    AccountedFor (ns.map Number.toFloat)
      (evalExptBy power (ns.map Value.number : List (Value H)))
  | [base, exponent] => by
    have hreal : AccountedFor [base.toFloat, exponent.toFloat]
        (realExptBy power base exponent : Except Error (Value H)) :=
      accountedFor_checkedReal_self _ _ _
    show AccountedFor [base.toFloat, exponent.toFloat] (if _ then _ else _)
    split
    · exact accountedFor_error _ _
    · split
      · split
        · exact accountedFor_integerExpt _ _ _
        · exact hreal
      · exact hreal
  | [] | [_] | _ :: _ :: _ :: _ => accountedFor_error _ _

/-- A checked operation on numbers gives no silent exception, whatever function it
calls. -/
theorem accountedFor_of_isChecked (lib : RealLibrary) {op : Operation} (h : op.isChecked = true)
    (ns : List Number) :
    AccountedFor (ns.map Number.toFloat)
      (lib.eval op (ns.map Value.number : List (Value H))) := by
  cases op with
  | real f => exact accountedFor_evalUnary _ _ _ ns
  | real₂ f => exact accountedFor_evalBinary _ _ ns
  | pow => exact accountedFor_evalPowBy _ ns
  | hypot => exact accountedFor_evalHypotBy _ ns
  | ldexp => exact accountedFor_evalLdexpBy _ ns
  | expt => exact accountedFor_evalExptBy _ ns
  | _ => cases h

end Operation

/-! ## Logarithms -/

/-- What logarithms rely on: positive finite doubles have finite logarithms, and the
logarithm of infinity is infinity. -/
structure LogRules (ln : Float → Float) : Prop where
  finite : ∀ x : Float, 0.0 < x → x.isFinite = true → (ln x).isFinite = true
  infinity : ln Binary64.infinity = Binary64.infinity

/-- Exceptions among logarithms stem from the arguments of these logarithms. -/
theorem LogRules.stemsFrom {ln : Float → Float} (rules : LogRules ln) {inputs : List Float}
    (h : ∀ x ∈ inputs, x.isNaN = true ∨ 0.0 < x) : StemsFrom inputs (inputs.map ln) := by
  constructor
  · intro y hy hnan
    obtain ⟨x, hx, rfl⟩ := List.mem_map.mp hy
    refine ⟨x, hx, (h x hx).resolve_right fun hpos => ?_⟩
    have hln : (ln x).isNaN = false := by
      cases hfinite : x.isFinite with
      | true => exact Binary64.isNaN_of_isFinite (rules.finite x hpos hfinite)
      | false =>
        rw [Binary64.eq_infinity_of_pos hpos hfinite, rules.infinity]
        rfl
    exact absurd hnan (Bool.eq_false_iff.mp hln)
  · intro y hy hfinite
    obtain ⟨x, hx, rfl⟩ := List.mem_map.mp hy
    refine ⟨x, hx, Bool.eq_false_iff.mpr fun hx' => ?_⟩
    have hpos : 0.0 < x := (h x hx).resolve_left
      (Bool.eq_false_iff.mp (Binary64.isNaN_of_isFinite hx'))
    exact Bool.eq_false_iff.mp hfinite (rules.finite x hpos hx')

namespace Operation

/-- A double that passes the check in front of a logarithm. -/
theorem lnArg_number_eq_ok {ln : Float → Float} {n : Number} {y : Float}
    (h : lnArg ln (Value.number n : Value H) = .ok y) :
    y = ln n.toFloat ∧ (n.toFloat.isNaN = true ∨ 0.0 < n.toFloat) := by
  have h' : (if !n.toFloat.isNaN && n.toFloat ≤ 0.0 then .error (.fault (.domain "log"))
      else .ok (ln n.toFloat) : Except Error Float) = .ok y := h
  split at h'
  case isTrue => cases h'
  case isFalse hdomain =>
    cases h'
    refine ⟨rfl, ?_⟩
    cases hnan : n.toFloat.isNaN with
    | true => exact .inl rfl
    | false =>
      right
      rw [hnan, Bool.not_false, Bool.true_and, decide_eq_true_iff,
        Binary64.le_iff_place hnan rfl] at hdomain
      rw [Binary64.lt_iff_place rfl hnan]
      exact Int.not_le.mp hdomain

/-- Logarithms of numbers are accounted for, though the check looks at the
logarithms only. -/
theorem accountedFor_evalLogBy {ln : Float → Float} (rules : LogRules ln) : ∀ ns : List Number,
    AccountedFor (ns.map Number.toFloat) (evalLogBy ln (ns.map Value.number : List (Value H)))
  | [n] => by
    refine .bind fun y hy => ?_
    obtain ⟨rfl, hn⟩ := lnArg_number_eq_ok hy
    exact accountedFor_checkedReal (rules.stemsFrom (List.forall_mem_singleton.mpr hn)) _ _
  | [n, base] => by
    refine .bind fun numerator hnumerator => .bind fun denominator hdenominator => ?_
    obtain ⟨rfl, hn⟩ := lnArg_number_eq_ok hnumerator
    obtain ⟨rfl, hbase⟩ := lnArg_number_eq_ok hdenominator
    have hstems : StemsFrom [n.toFloat, base.toFloat] [ln n.toFloat, ln base.toFloat] :=
      rules.stemsFrom (List.forall_mem_cons.mpr ⟨hn, List.forall_mem_singleton.mpr hbase⟩)
    split
    · exact accountedFor_error _ _
    · exact accountedFor_checkedReal hstems _ _
  | [] | _ :: _ :: _ :: _ => accountedFor_error _ _

end Operation

/-! ## No silent exceptions -/

namespace RealLibrary

/-- Whatever the functions are that it calls, a checked operation on numbers answers
with not-a-number only if an argument is not a number, and with an infinity only if an
argument is not finite; so do logarithms, by the rules for `ln`. With the functions of
the language these are the operations of the language. -/
theorem no_silent_exceptions (lib : RealLibrary) :
    (∀ op : Operation, op.isChecked = true → ∀ ns : List Number,
      AccountedFor (ns.map Number.toFloat)
        (lib.eval op (ns.map Value.number : List (Value H)))) ∧
    (LogRules lib.ln → ∀ ns : List Number,
      AccountedFor (ns.map Number.toFloat)
        (lib.eval .log (ns.map Value.number : List (Value H)))) ∧
    standard.eval = Operation.eval (H := H) :=
  ⟨fun _ hop => Operation.accountedFor_of_isChecked lib hop,
    fun rules => Operation.accountedFor_evalLogBy rules, eval_standard⟩

/-- The logarithms of two and ten, and zero for what else is finite. -/
def sampleLn (x : Float) : Float :=
  if x == 10.0 then 2.302585092994046
  else if x == 2.0 then 0.6931471805599453
  else if x.isFinite then 0.0
  else x

theorem logRules_sampleLn : LogRules sampleLn where
  finite x _ hfinite := by
    unfold sampleLn
    rw [if_pos hfinite]
    split
    · rfl
    · split <;> rfl
  infinity := rfl

/-- The library with these logarithms, and no power that is a number. -/
def sample : RealLibrary where
  __ := standard
  power _ _ := Binary64.nan
  ln := sampleLn

theorem log_sample :
    (sample.eval .log [.float 10.0, .float 2.0] : Except Error (Value Empty))
      = .ok (.float 3.3219280948873626) := by
  have hquotient : (2.302585092994046 / 0.6931471805599453 : Float) = 3.3219280948873626 := by
    decide +kernel
  have hargs : (sample.eval .log [.float 10.0, .float 2.0] : Except Error (Value Empty))
      = Operation.checkedReal "log" [2.302585092994046, 0.6931471805599453]
          (2.302585092994046 / 0.6931471805599453) := rfl
  rw [hargs, hquotient]
  rfl

theorem no_silent_exceptions_in_sample :
    Operation.isChecked .pow = true ∧ LogRules sampleLn ∧
    (sample.eval .pow [.float (-1.0), .float 0.5] : Except Error (Value Empty))
      = .error (.fault (.domain "pow")) ∧
    AccountedFor [-1.0, 0.5]
      (sample.eval .pow [.float (-1.0), .float 0.5] : Except Error (Value Empty)) ∧
    (sample.eval .log [.float 10.0, .float 2.0] : Except Error (Value Empty))
      = .ok (.float 3.3219280948873626) ∧
    AccountedFor [10.0, 2.0]
      (sample.eval .log [.float 10.0, .float 2.0] : Except Error (Value Empty)) :=
  ⟨rfl, logRules_sampleLn, rfl,
    (no_silent_exceptions sample).1 .pow rfl [.float (-1.0), .float 0.5], log_sample,
    (no_silent_exceptions sample).2.1 logRules_sampleLn [.float 10.0, .float 2.0]⟩

end RealLibrary

end FlatLisp
