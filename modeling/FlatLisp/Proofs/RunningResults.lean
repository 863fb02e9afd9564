/-
FlatLisp.Proofs.RunningResults — sums, differences and products, step by step.

A running operation carries a result along its arguments. As long as they are
integers the result is the exact one, so all that can go wrong is a partial result
out of the 64-bit range (`Running.Carries`); and once a double is met, everything
after it is a double and nothing goes wrong any more. So the integers in front of the
first double decide whether there is an answer, and the presence of a double decides
its kind (`running_results_are_exact`). That the arguments are numbers is asked before
anything is computed.
-/
import FlatLisp.Call
import FlatLisp.Proofs.Comparisons
import Mathlib

namespace FlatLisp

/-! ## Exact results -/

/-- Whether an integer is in the 64-bit range. -/
def Number.InRange (n : Int) : Prop :=
  Number.minInt ≤ n ∧ n ≤ Number.maxInt

instance (n : Int) : Decidable (Number.InRange n) :=
  inferInstanceAs (Decidable (_ ∧ _))

theorem Number.inRange_toInt (n : Int64) : Number.InRange n.toInt :=
  ⟨n.le_toInt, n.toInt_le⟩

theorem Number.toInt_ofInt {n : Int} (h : Number.InRange n) : (Int64.ofInt n).toInt = n :=
  Int64.toInt_ofInt_of_le h.1 (Int.lt_add_one_of_le h.2)

/-- The operations that carry a result along their arguments. -/
inductive Running where
  | sum | difference | product
deriving DecidableEq, Repr

namespace Running

/-- The operation itself. -/
def operation : Running → Operation
  | sum => .sum | difference => .difference | product => .product

/-- One step, on numbers. -/
def step : Running → Number → Number → Except Error Number
  | sum => Number.add | difference => Number.sub | product => Number.mul

/-- One step, on integers without bounds. -/
def exactStep : Running → Int → Int → Int
  | sum, m, n => m + n
  | difference, m, n => m - n
  | product, m, n => m * n

/-- What is out of range if the result of a step is. -/
def stepName : Running → String
  | sum => "addition" | difference => "subtraction" | product => "multiplication"

/-- The exact result for integers: their sum, their product, or the first less the sum of
the others. -/
def result : Running → List Int → Int
  | sum, ns => ns.sum
  | product, ns => ns.prod
  | difference, [] => 0
  | difference, n :: ns => n - ns.sum

/-- Whether the exact results for the first integers, however many of them, are in range. -/
def PartialResultsInRange (a : Running) (ns : List Int) : Prop :=
  ∀ ms, ms <+: ns → Number.InRange (a.result ms)

/-- The integers in front of the first double. -/
def leadingIntegers : List Number → List Int
  | .int n :: ns => n.toInt :: leadingIntegers ns
  | _ => []

/-- The integers that an operation computes with exactly. A difference of one number only is
its difference from zero. -/
def operands : Running → List Number → List Int
  | difference, [.int n] => [0, n.toInt]
  | _, ns => leadingIntegers ns

/-- What is out of range if a partial result is. -/
def overflowName : Running → List Number → String
  | difference, [_] => "negation"
  | a, _ => a.stepName

/-! ## Steps -/

theorem step_int (a : Running) (m n : Int64) :
    a.step (.int m) (.int n) = Number.exact a.stepName (a.exactStep m.toInt n.toInt) := by
  cases a <;> rfl

theorem step_float_left (a : Running) (x : Float) (n : Number) :
    ∃ y, a.step (.float x) n = .ok (.float y) := by
  cases a <;> exact ⟨_, rfl⟩

theorem step_float_right (a : Running) (n : Number) (x : Float) :
    ∃ y, a.step n (.float x) = .ok (.float y) := by
  cases a <;> cases n <;> exact ⟨_, rfl⟩

/-! ## Runs -/

/-- Whether all results that are carried from `start` along integers are in range. -/
def Carries (a : Running) (start : Int) (ns : List Int) : Prop :=
  ∀ ms, ms <+: ns → Number.InRange (ms.foldl a.exactStep start)

theorem carries_nil {a : Running} {start : Int} : a.Carries start [] ↔ Number.InRange start := by
  simp [Carries]

theorem carries_cons {a : Running} {start n : Int} {ns : List Int} :
    a.Carries start (n :: ns) ↔ Number.InRange start ∧ a.Carries (a.exactStep start n) ns := by
  constructor
  · intro h
    exact ⟨h [] List.nil_prefix, fun ms hms => h (n :: ms) (List.cons_prefix_cons.mpr ⟨rfl, hms⟩)⟩
  · rintro ⟨hstart, hrest⟩ ms hms
    rcases List.prefix_cons_iff.mp hms with rfl | ⟨js, rfl, hjs⟩
    · exact hstart
    · exact hrest js hjs

/-- From a double on, everything is a double. -/
theorem foldlM_step_float (a : Running) (ns : List Number) (x : Float) :
    ∃ y, ns.foldlM a.step (.float x) = .ok (.float y) := by
  induction ns generalizing x with
  | nil => exact ⟨x, rfl⟩
  | cons n ns ih =>
    obtain ⟨y, hy⟩ := a.step_float_left x n
    rw [List.foldlM_cons, hy, ok_bind]
    exact ih y

/-- What a running operation answers to numbers: an overflow if not all partial results `fit`,
and otherwise a double if one of the numbers is and the exact result if none is. -/
structure Answers (name : String) (fit : Prop) (exact : Int) (ns : List Number)
    (answer : Except Error Number) : Prop where
  overflow : ¬ fit → answer = .error (.fault (.overflow name))
  number : fit → ∃ total, answer = .ok total ∧
    (total.isFloat = true ↔ ∃ n ∈ ns, n.isFloat = true) ∧ ∀ n, total = .int n → n.toInt = exact

variable {name : String} {fit : Prop} {exact : Int} {ns : List Number}

theorem answers_float (hfit : fit) (hfloat : ∃ n ∈ ns, n.isFloat = true) (y : Float) :
    Answers name fit exact ns (.ok (.float y)) := by
  refine ⟨absurd hfit, fun _ => ⟨_, rfl, iff_of_true rfl hfloat, ?_⟩⟩
  rintro n ⟨⟩

/-- One more integer does not make a double of the result. -/
theorem Answers.cons_int {answer : Except Error Number} (h : Answers name fit exact ns answer)
    (m : Int64) : Answers name fit exact (.int m :: ns) answer := by
  have hkind : (∃ n ∈ Number.int m :: ns, n.isFloat = true) ↔ ∃ n ∈ ns, n.isFloat = true := by
    simp [Number.isFloat]
  refine ⟨h.overflow, fun hfit => ?_⟩
  rw [hkind]
  exact h.number hfit

/-- A result that is not carried on is out of range, or it is the exact one. -/
theorem answers_exact (hint : ∀ n ∈ ns, n.isFloat = false) (hfit : fit ↔ Number.InRange exact) :
    Answers name fit exact ns (Number.exact name exact) := by
  constructor
  · intro hout
    rw [hfit, Number.InRange] at hout
    exact Number.exact_eq_error_iff.mpr (by omega)
  · intro hin
    rw [hfit] at hin
    refine ⟨_, Number.exact_eq_ok hin, iff_of_false Bool.false_ne_true ?_, ?_⟩
    · rintro ⟨n, hn, hfloat⟩
      exact Bool.false_ne_true ((hint n hn).symm.trans hfloat)
    · rintro n ⟨⟩
      exact Number.toInt_ofInt hin

/-- A run from an integer is exact up to the first double, and an overflow on the way ends it. -/
theorem foldlM_step_int (a : Running) (ns : List Number) (m : Int64) :
    Answers a.stepName (a.Carries m.toInt (leadingIntegers ns))
      ((leadingIntegers ns).foldl a.exactStep m.toInt) ns (ns.foldlM a.step (.int m)) := by
  induction ns generalizing m with
  | nil =>
    have hstart : a.Carries m.toInt (leadingIntegers []) :=
      carries_nil.mpr (Number.inRange_toInt m)
    refine ⟨absurd hstart, fun _ => ⟨_, rfl, by simp [Number.isFloat], ?_⟩⟩
    rintro n ⟨⟩
    rfl
  | cons n ns ih =>
    rw [List.foldlM_cons]
    cases n with
    | float x =>
      have hstart : a.Carries m.toInt (leadingIntegers (.float x :: ns)) :=
        carries_nil.mpr (Number.inRange_toInt m)
      obtain ⟨y, hy⟩ := a.step_float_right (.int m) x
      obtain ⟨z, hz⟩ := a.foldlM_step_float ns y
      rw [hy, ok_bind, hz]
      exact answers_float hstart ⟨.float x, List.mem_cons_self, rfl⟩ z
    | int n =>
      have hcarries : a.Carries m.toInt (leadingIntegers (.int n :: ns)) ↔
          a.Carries (a.exactStep m.toInt n.toInt) (leadingIntegers ns) :=
        carries_cons.trans (and_iff_right (Number.inRange_toInt m))
      rw [a.step_int]
      by_cases hrange : Number.InRange (a.exactStep m.toInt n.toInt)
      · have hrest := ih (Int64.ofInt (a.exactStep m.toInt n.toInt))
        rw [Number.toInt_ofInt hrange] at hrest
        rw [hcarries, Number.exact_eq_ok hrange, ok_bind]
        exact hrest.cons_int n
      · have herror : Number.exact a.stepName (a.exactStep m.toInt n.toInt)
            = .error (.fault (.overflow a.stepName)) := by
          rw [Number.InRange] at hrange
          exact Number.exact_eq_error_iff.mpr (by omega)
        rw [herror]
        -- the first of the partial results to come is out of range already
        exact ⟨fun _ => rfl, fun h => absurd (hcarries.mp h [] List.nil_prefix) hrange⟩

/-! ## Results as sums and products -/

theorem foldl_exactStep (a : Running) (ns : List Int) (start : Int) :
    ns.foldl a.exactStep start = match a with
      | sum => start + ns.sum
      | difference => start - ns.sum
      | product => start * ns.prod := by
  induction ns generalizing start with
  | nil => cases a <;> simp
  | cons n ns ih =>
    rw [List.foldl_cons, ih]
    cases a with
    | sum => rw [List.sum_cons, ← add_assoc]; rfl
    | difference => rw [List.sum_cons, ← sub_sub]; rfl
    | product => rw [List.prod_cons, ← mul_assoc]; rfl

theorem result_sum (ns : List Int) : sum.result ns = ns.foldl sum.exactStep 0 := by
  rw [foldl_exactStep, zero_add]
  rfl

theorem result_product (ns : List Int) : product.result ns = ns.foldl product.exactStep 1 := by
  rw [foldl_exactStep, one_mul]
  rfl

theorem result_difference (n : Int) (ns : List Int) :
    difference.result (n :: ns) = ns.foldl difference.exactStep n := by
  rw [foldl_exactStep]
  rfl

theorem partialResultsInRange_sum {ns : List Int} :
    sum.PartialResultsInRange ns ↔ sum.Carries 0 ns := by
  simp only [PartialResultsInRange, Carries, result_sum]

theorem partialResultsInRange_product {ns : List Int} :
    product.PartialResultsInRange ns ↔ product.Carries 1 ns := by
  simp only [PartialResultsInRange, Carries, result_product]

theorem partialResultsInRange_nil (a : Running) : a.PartialResultsInRange [] := by
  intro ms hms
  rw [List.prefix_nil.mp hms]
  cases a <;> decide

theorem partialResultsInRange_difference {n : Int} {ns : List Int} :
    difference.PartialResultsInRange (n :: ns) ↔ difference.Carries n ns := by
  constructor
  · intro h ms hms
    exact result_difference n ms ▸ h (n :: ms) (List.cons_prefix_cons.mpr ⟨rfl, hms⟩)
  · intro h ms hms
    rcases List.prefix_cons_iff.mp hms with rfl | ⟨js, rfl, hjs⟩
    · exact partialResultsInRange_nil difference [] List.nil_prefix
    · exact result_difference n js ▸ h js hjs

/-! ## Answers -/

/-- The run of an operation over its arguments. -/
def run : Running → List Number → Except Error Number
  | sum, ns => ns.foldlM sum.step (.int 0)
  | product, ns => ns.foldlM product.step (.int 1)
  | difference, [] => .error (.arity "-" (.atLeast 1) 0)
  | difference, [n] => n.neg
  | difference, n :: ns => ns.foldlM difference.step n

variable {H : Type}

theorem eval_numbers (a : Running) (ns : List Number) :
    a.operation.eval (ns.map .number)
      = (do return .number (← a.run ns) : Except Error (Value H)) := by
  cases a with
  | sum =>
    show Operation.evalSum _ = _
    rw [Operation.evalSum, Operation.numberArgs_map_number]
    rfl
  | product =>
    show Operation.evalProduct _ = _
    rw [Operation.evalProduct, Operation.numberArgs_map_number]
    rfl
  | difference =>
    show Operation.evalDifference _ = _
    rw [Operation.evalDifference, Operation.numberArgs_map_number, ok_bind]
    match ns with
    | [] => rfl
    | [_] => rfl
    | _ :: _ :: _ => rfl

theorem eval_of_not_number (a : Running) (ns : List Number) {v : Value H}
    (hv : ∀ n, v ≠ .number n) (rest : List (Value H)) :
    a.operation.eval (ns.map .number ++ v :: rest)
      = .error (v.mismatch a.operation.name "number") := by
  have hargs := Operation.numberArgs_of_not_number a.operation.name ns hv rest
  cases a with
  | sum =>
    show Operation.evalSum _ = _
    rw [Operation.evalSum, show "+" = sum.operation.name from rfl, hargs]
    rfl
  | product =>
    show Operation.evalProduct _ = _
    rw [Operation.evalProduct, show "*" = product.operation.name from rfl, hargs]
    rfl
  | difference =>
    show Operation.evalDifference _ = _
    rw [Operation.evalDifference, show "-" = difference.operation.name from rfl, hargs]
    rfl

theorem answers_neg (n : Number) :
    Answers "negation" (difference.PartialResultsInRange (difference.operands [n]))
      (difference.result (difference.operands [n])) [n] n.neg := by
  cases n with
  | float x =>
    exact answers_float (partialResultsInRange_nil _) ⟨.float x, List.mem_cons_self, rfl⟩ _
  | int n =>
    have hresult : difference.result [0, n.toInt] = -n.toInt := by
      simp [result]
    have hfit : difference.PartialResultsInRange [0, n.toInt] ↔ Number.InRange (-n.toInt) := by
      rw [partialResultsInRange_difference, carries_cons, carries_nil, exactStep, zero_sub]
      exact and_iff_right ⟨by decide, by decide⟩
    show Answers _ (difference.PartialResultsInRange [0, n.toInt]) (difference.result [0, n.toInt])
      _ (Number.exact "negation" (-n.toInt))
    rw [hresult]
    exact answers_exact (by simp [Number.isFloat]) hfit

/-- What is carried along decides about every list of numbers that is accepted. -/
theorem answers_run (a : Running) (ns : List Number)
    (h : a.operation.arity.accepts ns.length = true) :
    Answers (a.overflowName ns) (a.PartialResultsInRange (a.operands ns))
      (a.result (a.operands ns)) ns (a.run ns) := by
  cases a with
  | sum =>
    have hrun := foldlM_step_int sum ns 0
    show Answers _ (sum.PartialResultsInRange (leadingIntegers ns))
      (sum.result (leadingIntegers ns)) _ _
    rw [partialResultsInRange_sum, result_sum]
    exact hrun
  | product =>
    have hrun := foldlM_step_int product ns 1
    show Answers _ (product.PartialResultsInRange (leadingIntegers ns))
      (product.result (leadingIntegers ns)) _ _
    rw [partialResultsInRange_product, result_product]
    exact hrun
  | difference =>
    match ns with
    | [] => cases h
    | [n] => exact answers_neg n
    | .float x :: n :: ns =>
      obtain ⟨y, hy⟩ := difference.foldlM_step_float (n :: ns) x
      show Answers _ _ _ _ ((n :: ns).foldlM difference.step (.float x))
      rw [hy]
      exact answers_float (partialResultsInRange_nil _) ⟨.float x, List.mem_cons_self, rfl⟩ y
    | .int m :: n :: ns =>
      show Answers _ (difference.PartialResultsInRange (m.toInt :: leadingIntegers (n :: ns)))
        (difference.result (m.toInt :: leadingIntegers (n :: ns))) _
        ((n :: ns).foldlM difference.step (.int m))
      rw [partialResultsInRange_difference, result_difference]
      exact (foldlM_step_int difference (n :: ns) m).cons_int m

end Running

/-! ## Products of lists -/

section

variable {H : Type}

theorem foldlM_multiplyBy (name : String) (ns : List Number) (product : Number) :
    (ns.map (Value.number (H := H))).foldlM (Operation.multiplyBy name) product
      = ns.foldlM Number.mul product := by
  induction ns generalizing product with
  | nil => rfl
  | cons n ns ih =>
    have hstep : Operation.multiplyBy name product (.number n : Value H) = product.mul n := rfl
    rw [List.map_cons, List.foldlM_cons, List.foldlM_cons, hstep]
    simp only [ih]

theorem eval_prod_list (ns : List Number) :
    Operation.prod.eval [.list (ns.map .number)]
      = (Operation.product.eval (ns.map .number) : Except Error (Value H)) := by
  have hproduct := Running.product.eval_numbers (H := H) ns
  show Operation.evalProd [.list (ns.map .number)] = Running.product.operation.eval (ns.map .number)
  rw [hproduct]
  show (do return .number (← (ns.map Value.number).foldlM (Operation.multiplyBy "prod") (.int 1)) :
    Except Error (Value H)) = _
  rw [foldlM_multiplyBy]
  rfl

/-- To apply `*` to a list is to take its product. -/
theorem call_apply_product [Host H] (i j k : Nat) {ns : List Number} (hns : ns ≠ []) :
    (Value.procedure (.ofBuiltin i .apply)).call
        [.procedure (.ofBuiltin j (.operation .product)), .list (ns.map .number)]
      = (Value.procedure (.ofBuiltin k (.operation .prod))).call
          [(.list (ns.map .number) : Value H)] := by
  have hcount : (Builtin.operation .product).arity.accepts
      (ns.map (Value.number (H := H))).length = true := by
    rw [List.length_map]
    exact decide_eq_true (List.length_pos_iff.mpr hns)
  rw [Value.call_ofBuiltin i rfl, Builtin.body_apply, Value.call_ofBuiltin j hcount,
    Value.call_ofBuiltin k rfl, Builtin.body_operation, Builtin.body_operation, eval_prod_list]

/-- **Sums, differences and products are exact until a double is met.** The first argument
that is no number is a type error, whatever the numbers around it. Of numbers, the integers in
front of the first double have partial results; if one of these is out of the 64-bit range, the
answer is an overflow. Otherwise there is an answer, which is a double just if one of the
arguments is, and which is the exact result if it is an integer. The product of a list is what
`*` makes of its items. -/
theorem running_results_are_exact [Host H] :
    (∀ a : Running,
      (∀ (ns : List Number) (v : Value H) (rest : List (Value H)), (∀ n, v ≠ .number n) →
        a.operation.eval (ns.map .number ++ v :: rest)
          = .error (v.mismatch a.operation.name "number")) ∧
      ∀ ns : List Number, a.operation.arity.accepts ns.length = true →
        (¬ a.PartialResultsInRange (a.operands ns) →
          a.operation.eval (ns.map .number)
            = (.error (.fault (.overflow (a.overflowName ns))) : Except Error (Value H))) ∧
        (a.PartialResultsInRange (a.operands ns) → ∃ total : Number,
          a.operation.eval (ns.map .number)
            = (.ok (.number total) : Except Error (Value H)) ∧
          (total.isFloat = true ↔ ∃ n ∈ ns, n.isFloat = true) ∧
          ∀ n : Int64, total = .int n → n.toInt = a.result (a.operands ns))) ∧
    ∀ (i j k : Nat) (ns : List Number), ns ≠ [] →
      (Value.procedure (.ofBuiltin i .apply)).call
          [.procedure (.ofBuiltin j (.operation .product)), .list (ns.map .number)]
        = (Value.procedure (.ofBuiltin k (.operation .prod))).call
            [(.list (ns.map .number) : Value H)] := by
  refine ⟨fun a => ⟨fun ns v rest hv => a.eval_of_not_number ns hv rest, fun ns hcount => ?_⟩,
    fun i j k ns hns => call_apply_product i j k hns⟩
  obtain ⟨hoverflow, hnumber⟩ := a.answers_run ns hcount
  rw [a.eval_numbers]
  constructor
  · intro hout
    rw [hoverflow hout]
    rfl
  · intro hin
    obtain ⟨total, htotal, hkind, hexact⟩ := hnumber hin
    rw [htotal]
    exact ⟨total, rfl, hkind, hexact⟩

/-- A sum that is out of range before it meets a double, a difference that is in range until it
does, and a product of a list. -/
theorem running_results_around_doubles :
    (∀ n, (.bool true : Value Empty) ≠ .number n) ∧
      Operation.sum.eval [.int Int64.maxValue, (.bool true : Value Empty), .int 1]
        = .error (Value.mismatch "+" "number" (.bool true : Value Empty)) ∧
      Operation.sum.eval [.int Int64.maxValue, .int 1, .float 0.5]
        = (.error (.fault (.overflow "addition")) : Except Error (Value Empty)) ∧
      (∃ total : Number, Operation.difference.eval [.int Int64.minValue, .float 0.5, .int 1]
        = (.ok (.number total) : Except Error (Value Empty)) ∧ total.isFloat = true) ∧
      (Value.procedure (.ofBuiltin 1 .apply)).call
          [.procedure (.ofBuiltin 2 (.operation .product)), .list [.int 6, .int 7]]
        = (Value.procedure (.ofBuiltin 3 (.operation .prod))).call
            [(.list [.int 6, .int 7] : Value Empty)] := by
  obtain ⟨hrunning, hprod⟩ := running_results_are_exact (H := Empty)
  have hsum := (hrunning .sum).2 [.int Int64.maxValue, .int 1, .float 0.5] (by decide)
  have hdifference := (hrunning .difference).2 [.int Int64.minValue, .float 0.5, .int 1] (by decide)
  have hout : ¬ Running.sum.PartialResultsInRange [Int64.maxValue.toInt, (1 : Int64).toInt] :=
    fun h => absurd (h _ (List.prefix_refl _)) (by decide)
  have hin : Running.difference.PartialResultsInRange [Int64.minValue.toInt] := by
    rw [Running.partialResultsInRange_difference, Running.carries_nil]
    exact Number.inRange_toInt _
  refine ⟨by rintro n ⟨⟩, (hrunning .sum).1 [.int Int64.maxValue] _ [.int 1] (by rintro n ⟨⟩),
    hsum.1 hout, ?_, hprod 1 2 3 [.int 6, .int 7] (List.cons_ne_nil _ _)⟩
  obtain ⟨total, htotal, hkind, _⟩ := hdifference.2 hin
  exact ⟨total, htotal, hkind.mpr ⟨.float 0.5, by decide, rfl⟩⟩

end

end FlatLisp
