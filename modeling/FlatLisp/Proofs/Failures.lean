/-
FlatLisp.Proofs.Failures — what operations fail with.

The errors of an operation are about its arguments: a value of a wrong kind, or
no answer to values of the right kinds. These are the ordinary errors, and no
trap is among them. The number of arguments is checked twice, in front of an
operation and in most of the operations themselves. `Checks` says that the two
agree: an operation that is given an acceptable number of arguments has no
errors but ordinary ones, and given another number it has the error of the check
in front of it. There is a lemma for each operation; a few of them take any
number of arguments, and these never fail because of the number.

One call stands out, the arrangements of none of `Number.maxInt` things. It
takes a machine step without a result.
-/
import FlatLisp.Proofs.Calls
import FlatLisp.Proofs.MachineSteps

namespace FlatLisp

variable {H α β : Type}

/-! ## Computations that fail -/

/-- The error of a computation, if there is one, has a property. -/
def Fails (P : Error → Prop) (outcome : Except Error α) : Prop :=
  ∀ cause, outcome = .error cause → P cause

section

variable {P Q : Error → Prop}

@[simp] theorem fails_ok (a : α) : Fails P (.ok a : Except Error α) := by
  simp [Fails]

@[simp] theorem fails_pure (a : α) : Fails P (pure a : Except Error α) :=
  fails_ok a

@[simp] theorem fails_error {cause : Error} :
    Fails P (.error cause : Except Error α) ↔ P cause := by
  simp [Fails]

@[simp] theorem fails_bind {x : Except Error β} {f : β → Except Error α} :
    Fails P (x >>= f) ↔ Fails P x ∧ ∀ b, x = .ok b → Fails P (f b) := by
  cases x <;> simp [bind, Except.bind]

@[simp] theorem fails_map {x : Except Error β} {f : β → α} : Fails P (f <$> x) ↔ Fails P x := by
  cases x <;> simp [Functor.map, Except.map]

@[simp] theorem fails_ite {c : Prop} [Decidable c] {x y : Except Error α} :
    Fails P (if c then x else y) ↔ (c → Fails P x) ∧ (¬ c → Fails P y) := by
  split <;> simp_all

theorem Fails.mono {outcome : Except Error α} (h : Fails P outcome)
    (hPQ : ∀ cause, P cause → Q cause) : Fails Q outcome :=
  fun cause hcause => hPQ cause (h cause hcause)

theorem fails_mapM {f : β → Except Error α} (h : ∀ b, Fails P (f b)) (xs : List β) :
    Fails P (xs.mapM f) := by
  induction xs with
  | nil => simp
  | cons x xs ih =>
    rw [List.mapM_cons]
    simp [h x, ih]

theorem fails_foldlM {f : α → β → Except Error α} (h : ∀ a b, Fails P (f a b)) (xs : List β) :
    ∀ a, Fails P (xs.foldlM f a) := by
  induction xs with
  | nil => simp
  | cons x xs ih =>
    intro a
    rw [List.foldlM_cons]
    simp [h a x, ih]

end

/-! ## Ordinary errors -/

/-- An error about arguments, none of them too many or too few. -/
inductive Error.Ordinary : Error → Prop
  | type (cause : TypeError) : Ordinary (.type cause)
  | fault {cause : Fault} (h : ∀ t, cause ≠ .trap t) : Ordinary (.fault cause)

@[simp] theorem Error.ordinary_type (cause : TypeError) : (Error.type cause).Ordinary :=
  .type cause

@[simp] theorem Error.ordinary_fault {cause : Fault} :
    (Error.fault cause).Ordinary ↔ ∀ t, cause ≠ .trap t := by
  constructor
  · intro h
    cases h with
    | fault h => exact h
  · exact .fault

@[simp] theorem Value.ordinary_mismatch (name expected : String) (v : Value H) :
    (v.mismatch name expected).Ordinary :=
  .type _

theorem Error.Ordinary.not_arity {cause : Error} (h : cause.Ordinary) (name : String)
    (expected : Arity) (count : Nat) : cause ≠ .arity name expected count := by
  cases h <;> simp

theorem Error.Ordinary.not_trap {cause : Error} (h : cause.Ordinary) (t : Trap) :
    cause ≠ .fault (.trap t) := by
  cases h with
  | type => simp
  | fault h => simpa using h t

open Error (Ordinary)

namespace Number

@[simp] theorem fails_exact (operation : String) (n : Int) :
    Fails Ordinary (exact operation n) := by
  unfold exact
  split <;> simp

@[simp] theorem fails_rounded (name : String) (mode : Binary64.Rounding) (x : Float) :
    Fails Ordinary (rounded name mode x) := by
  simp [rounded]

@[simp] theorem fails_add (a b : Number) : Fails Ordinary (a.add b) := by
  cases a <;> cases b <;> simp [add]

@[simp] theorem fails_sub (a b : Number) : Fails Ordinary (a.sub b) := by
  cases a <;> cases b <;> simp [sub]

@[simp] theorem fails_mul (a b : Number) : Fails Ordinary (a.mul b) := by
  cases a <;> cases b <;> simp [mul]

@[simp] theorem fails_div (a b : Number) : Fails Ordinary (a.div b) := by
  simp [div]

@[simp] theorem fails_neg (a : Number) : Fails Ordinary a.neg := by
  cases a <;> simp [neg]

@[simp] theorem fails_abs (a : Number) : Fails Ordinary a.abs := by
  cases a <;> simp [abs]

end Number

namespace Operation

variable {args : List (Value H)}

/-! ## Arguments -/

@[simp] theorem fails_numberArg (name : String) (v : Value H) :
    Fails Ordinary (numberArg name v) := by
  cases v <;> simp [numberArg]

@[simp] theorem fails_numberArgs (name : String) (args : List (Value H)) :
    Fails Ordinary (numberArgs name args) :=
  fails_mapM (fails_numberArg name) args

@[simp] theorem fails_listArg (name : String) (v : Value H) : Fails Ordinary (listArg name v) := by
  cases v <;> simp [listArg]

@[simp] theorem fails_floatArg (name : String) (v : Value H) : Fails Ordinary (floatArg name v) :=
  fails_map.mpr (fails_numberArg name v)

@[simp] theorem fails_floatListArg (name : String) (v : Value H) :
    Fails Ordinary (floatListArg name v) := by
  simp [floatListArg, fails_mapM]

@[simp] theorem fails_integerArgAs (expected name : String) (v : Value H) :
    Fails Ordinary (integerArgAs expected name v) := by
  rw [integerArgAs, fails_bind]
  refine ⟨fails_numberArg name v, ?_⟩
  intro n _
  cases n <;> simp

@[simp] theorem fails_integerArg (name : String) (v : Value H) :
    Fails Ordinary (integerArg name v) :=
  fails_integerArgAs _ name v

@[simp] theorem fails_countArg (name what : String) (v : Value H) :
    Fails Ordinary (countArg name what v) := by
  simp [countArg]

/-! ## Counts that are checked again -/

/-- Of its arguments an operation checks the number that is also checked in
front of it, and with an acceptable number it has no errors but ordinary ones. -/
structure Checks (name : String) (arity : Arity) (args : List (Value H))
    (outcome : Except Error (Value H)) : Prop where
  accepted : arity.accepts args.length = true → Fails Ordinary outcome
  rejected : arity.accepts args.length = false → outcome = .error (.arity name arity args.length)

theorem Checks.of_accepts {name : String} {arity : Arity} {outcome : Except Error (Value H)}
    (hcount : arity.accepts args.length = true) (h : Fails Ordinary outcome) :
    Checks name arity args outcome where
  accepted := fun _ => h
  rejected := fun hnot => absurd (hcount.symm.trans hnot) (by simp)

theorem Checks.of_rejects {name : String} {arity : Arity} {outcome : Except Error (Value H)}
    (hcount : arity.accepts args.length = false)
    (h : outcome = .error (.arity name arity args.length)) : Checks name arity args outcome where
  accepted := fun hnot => absurd (hcount.symm.trans hnot) (by simp)
  rejected := fun _ => h

theorem Checks.any {name : String} {outcome : Except Error (Value H)} (h : Fails Ordinary outcome) :
    Checks name .any args outcome :=
  .of_accepts rfl h

/-- An operation that begins with taking its only argument. -/
theorem Checks.one {name : String} {next : Value H → Except Error (Value H)}
    (h : ∀ v, Fails Ordinary (next v)) : Checks name (.exact 1) args (one name args >>= next) := by
  match args with
  | [v] => exact .of_accepts rfl (h v)
  | [] => exact .of_rejects rfl rfl
  | _ :: _ :: _ => exact .of_rejects (by simp [Arity.accepts]) rfl

/-- An operation that begins with taking its only two arguments. -/
theorem Checks.two {name : String} {next : Value H × Value H → Except Error (Value H)}
    (h : ∀ v w, Fails Ordinary (next (v, w))) :
    Checks name (.exact 2) args (two name args >>= next) := by
  match args with
  | [v, w] => exact .of_accepts rfl (h v w)
  | [] => exact .of_rejects rfl rfl
  | [_] => exact .of_rejects rfl rfl
  | _ :: _ :: _ :: _ => exact .of_rejects (by simp [Arity.accepts]) rfl

/-- An operation that begins with taking numbers, at least one of them. -/
theorem Checks.numbers {name : String} {next : List Number → Except Error (Value H)}
    (hnil : next [] = .error (.arity name (.atLeast 1) 0))
    (hcons : ∀ n ns, Fails Ordinary (next (n :: ns))) :
    Checks name (.atLeast 1) args (numberArgs name args >>= next) := by
  cases args with
  | nil => exact .of_rejects rfl hnil
  | cons v vs =>
    refine .of_accepts (by simp [Arity.accepts]) (fails_bind.mpr ⟨fails_numberArgs _ _, ?_⟩)
    intro ns hns
    cases ns with
    | nil => exact absurd rfl (ne_nil_of_numberArgs_cons hns)
    | cons n ns => exact hcons n ns

/-! ## Sums, products and powers -/

theorem checks_evalSum : Checks "+" .any args (evalSum args) :=
  .any (by simp [evalSum, fails_foldlM])

theorem checks_evalDifference : Checks "-" (.atLeast 1) args (evalDifference args) := by
  refine .numbers rfl fun n ns => ?_
  cases ns <;> simp [fails_foldlM]

/-- A product takes any number of factors. -/
theorem fails_evalProduct : Fails Ordinary (evalProduct args) := by
  simp [evalProduct, fails_foldlM]

theorem checks_evalQuotient : Checks "/" (.atLeast 1) args (evalQuotient args) := by
  refine .numbers rfl fun n ns => ?_
  cases ns <;> simp [fails_foldlM]

theorem checks_evalProd : Checks "prod" (.exact 1) args (evalProd args) := by
  have hstep (product : Number) (factor : Value H) :
      Fails Ordinary (multiplyBy "prod" product factor) := by
    simp [multiplyBy]
  exact .one fun v => by simp [fails_foldlM hstep]

theorem checks_evalAbs : Checks "abs" (.exact 1) args (evalAbs args) :=
  .one fun v => by simp

@[simp] theorem fails_checkedReal (name : String) (inputs : List Float) (result : Float) :
    Fails Ordinary (checkedReal (H := H) name inputs result) := by
  simp [checkedReal]

theorem checks_evalExptBy (power : Float → Float → Float) :
    Checks "expt" (.exact 2) args (evalExptBy power args) := by
  refine .two fun v w => ?_
  simp only [fails_bind, fails_ite, fails_numberArg, true_and]
  intro base _ exponent _
  refine ⟨fun _ => by simp, fun _ => ?_⟩
  split
  · simp [integerExpt, realExptBy]
  · simp [realExptBy]

/-! ## Order and rounding -/

/-- A comparison takes any number of arguments. -/
theorem fails_evalComparison (c : Comparison) : Fails Ordinary (evalComparison c args) := by
  simp [evalComparison, allM_windows]

/-- A search for an extreme takes any number of arguments. -/
theorem fails_evalExtreme (e : Extreme) : Fails Ordinary (evalExtreme e args) := by
  rw [evalExtreme, fails_bind]
  refine ⟨fails_numberArgs _ _, ?_⟩
  intro ns _
  split <;> simp

theorem fails_roundTo (n : Number) (places : Int) : Fails Ordinary (roundTo n places) := by
  have hfew : (max (-maxPlaces) (min places maxPlaces)).natAbs ≤ 400 := by
    simp only [maxPlaces]
    omega
  rw [roundTo, placeScale_eq_ok hfew, ok_bind]
  cases n <;> simp [roundInteger]

theorem checks_evalRound : Checks "round" (.range 1 2) args (evalRound args) := by
  match args with
  | [] => exact .of_rejects rfl rfl
  | [v] =>
    refine .of_accepts rfl ?_
    rw [evalRound, fails_bind]
    refine ⟨fails_numberArg _ _, ?_⟩
    intro n _
    cases n <;> simp
  | [v, w] => exact .of_accepts rfl (by simp [evalRound, fails_roundTo])
  | _ :: _ :: _ :: _ => exact .of_rejects (by simp [Arity.accepts]) rfl

/-! ## Lists, sequencing, equality and kinds -/

theorem checks_evalAppend : Checks "append" .any args (evalAppend args) :=
  .any (by simp [evalAppend, fails_mapM])

theorem checks_evalCar : Checks "car" (.exact 1) args (evalCar args) := by
  refine .one fun v => ?_
  rw [fails_bind]
  refine ⟨fails_listArg _ _, ?_⟩
  intro items _
  cases items <;> simp

theorem checks_evalCdr : Checks "cdr" (.exact 1) args (evalCdr args) :=
  .one fun v => by simp

theorem checks_evalCons : Checks "cons" (.exact 2) args (evalCons args) :=
  .two fun v w => by simp

theorem checks_evalLength : Checks "length" (.exact 1) args (evalLength args) :=
  .one fun v => by simp

theorem checks_evalBegin : Checks "begin" (.atLeast 1) args (evalBegin args) := by
  cases args with
  | nil => exact .of_rejects rfl rfl
  | cons v vs =>
    refine .of_accepts (by simp [Arity.accepts]) ?_
    simp [evalBegin, List.getLast?_cons]

theorem checks_evalIdentical : Checks "eq?" (.exact 2) args (evalIdentical args) :=
  .two fun v w => by simp

theorem checks_evalEqual : Checks "equal?" (.exact 2) args (evalEqual args) :=
  .two fun v w => by simp

theorem checks_evalNot : Checks "not" (.exact 1) args (evalNot args) :=
  .one fun v => by simp

theorem checks_evalKind (kind : Kind) : Checks kind.name (.exact 1) args (evalKind kind args) :=
  .one fun v => by simp

/-! ## Real functions -/

theorem checks_evalUnary (name : String) (isDefinedAt : Float → Bool) (value : Float → Float) :
    Checks name (.exact 1) args (evalUnary name isDefinedAt value args) :=
  .one fun v => by simp

theorem checks_evalBinary (name : String) (value : Float → Float → Float) :
    Checks name (.exact 2) args (evalBinary name value args) :=
  .two fun v w => by simp

theorem checks_evalPowBy (power : Float → Float → Float) :
    Checks "pow" (.exact 2) args (evalPowBy power args) :=
  .two fun v w => by simp

theorem checks_evalHypotBy (hypotenuse : Float → Float → Float) :
    Checks "hypot" .any args (evalHypotBy hypotenuse args) :=
  .any (by simp [evalHypotBy, fails_mapM])

theorem checks_evalDist : Checks "dist" (.exact 2) args (evalDist args) :=
  .two fun v w => by simp

@[simp] theorem fails_lnArg (ln : Float → Float) (v : Value H) : Fails Ordinary (lnArg ln v) := by
  simp [lnArg]

theorem checks_evalLogBy (ln : Float → Float) :
    Checks "log" (.range 1 2) args (evalLogBy ln args) := by
  match args with
  | [] => exact .of_rejects rfl rfl
  | [v] => exact .of_accepts rfl (by simp [evalLogBy])
  | [v, base] => exact .of_accepts rfl (by simp [evalLogBy])
  | _ :: _ :: _ :: _ => exact .of_rejects (by simp [Arity.accepts]) rfl

theorem checks_evalTruncation (t : Truncation) :
    Checks t.name (.exact 1) args (evalTruncation t args) := by
  refine .one fun v => ?_
  rw [fails_bind]
  refine ⟨fails_numberArg _ _, ?_⟩
  intro n _
  cases n <;> simp

theorem checks_evalClass (c : FloatClass) : Checks c.name (.exact 1) args (evalClass c args) :=
  .one fun v => by simp

theorem checks_evalLdexpBy (scale : Float → Int → Float) :
    Checks "ldexp" (.exact 2) args (evalLdexpBy scale args) :=
  .two fun v w => by simp

theorem checks_evalFrexp : Checks "frexp" (.exact 1) args (evalFrexp args) :=
  .one fun v => by simp

theorem checks_evalModf : Checks "modf" (.exact 1) args (evalModf args) :=
  .one fun v => by simp

theorem checks_evalFsum : Checks "fsum" (.exact 1) args (evalFsum args) := by
  refine .one fun v => ?_
  simp only [fails_bind, fails_floatListArg, true_and]
  intro xs _
  obtain ⟨sum, hsum⟩ := exactSum_eq_ok xs
  simp [hsum]

theorem fails_closeWithin (v w : Value H) {relative absolute : Except Error Float}
    (hrelative : Fails Ordinary relative) (habsolute : Fails Ordinary absolute) :
    Fails Ordinary (closeWithin v w relative absolute) := by
  simp [closeWithin, hrelative, habsolute]

theorem checks_evalIsclose : Checks "isclose" (.range 2 4) args (evalIsclose args) := by
  match args with
  | [] => exact .of_rejects rfl rfl
  | [_] => exact .of_rejects rfl rfl
  | [v, w] => exact .of_accepts rfl (fails_closeWithin v w (by simp) (by simp))
  | [v, w, _] => exact .of_accepts rfl (fails_closeWithin v w (by simp) (by simp))
  | [v, w, _, _] => exact .of_accepts rfl (fails_closeWithin v w (by simp) (by simp))
  | _ :: _ :: _ :: _ :: _ :: _ => exact .of_rejects (by simp [Arity.accepts]) rfl

/-! ## Counting -/

@[simp] theorem fails_countValue (name : String) (n : Nat) :
    Fails Ordinary (countValue (H := H) name n) := by
  simp [countValue]

@[simp] theorem fails_productValue (name : String) (product : Option Nat) :
    Fails Ordinary (productValue (H := H) name product) := by
  cases product <;> simp [productValue]

theorem checks_evalGcd : Checks "gcd" .any args (evalGcd args) := by
  have hstep (divisor : Nat) (v : Value H) : Fails Ordinary (commonDivisor divisor v) := by
    simp [commonDivisor, euclid_eq]
  exact .any (by simp [evalGcd, fails_foldlM hstep])

theorem checks_evalLcm : Checks "lcm" .any args (evalLcm args) := by
  have hstep (multiple : Nat) (v : Value H) : Fails Ordinary (commonMultiple multiple v) := by
    simp [commonMultiple, multipleOf_eq]
  exact .any (by simp [evalLcm, fails_foldlM hstep])

theorem checks_evalIsqrtBy {estimate : Nat → Nat}
    (hestimate : ∀ n, (estimate n : Int) ≤ Number.maxInt) :
    Checks "isqrt" (.exact 1) args (evalIsqrtBy estimate args) := by
  refine .one fun v => ?_
  simp only [fails_bind, fails_integerArg, fails_ite, true_and]
  intro n _
  refine ⟨fun _ => by simp, fun _ => ?_⟩
  rw [settleRoot_eq_ok (Number.toNat_le_maxInt n) (hestimate n.toInt.toNat)]
  exact ⟨fails_ok _, fun root _ => fails_countValue "isqrt" root⟩

theorem checks_evalFactorial : Checks "factorial" (.exact 1) args (evalFactorial args) :=
  .one fun v => by simp

theorem checks_evalComb : Checks "comb" (.exact 2) args (evalComb args) := by
  refine .two fun v w => ?_
  simp only [fails_bind, fails_countArg, true_and]
  intro n hn k _
  rcases choices_outcome (countArg_eq_ok hn).2 k with ⟨m, hm⟩ | hoverflow
  · simp [hm]
  · simp [hoverflow]

/-- The arguments for which a number of arrangements takes a step without a
result. -/
def unarranged : List (Value H) :=
  [.int Int64.maxValue, .int 0]

theorem eq_unarranged {v w : Value H} {n k : Nat} (hn : countArg "perm" "n" v = .ok n)
    (hk : countArg "perm" "k" w = .ok k) (h : (n : Int) = Number.maxInt ∧ k = 0) :
    [v, w] = unarranged := by
  rw [(countArg_eq_ok hn).1, (countArg_eq_ok hk).1, h.1, h.2]
  rfl

theorem eval_unarranged : evalPerm (unarranged : List (Value H)) = Machine.trap .overflow := by
  rfl

theorem checks_evalPerm (h : args ≠ unarranged) :
    Checks "perm" (.range 1 2) args (evalPerm args) := by
  match args with
  | [] => exact .of_rejects rfl rfl
  | [v] =>
    refine .of_accepts rfl ?_
    simp only [evalPerm, fails_bind, fails_countArg, true_and]
    intro n hn
    have hnot : ¬ ((n : Int) = Number.maxInt ∧ n = 0) := by
      simp only [Number.maxInt]
      omega
    simp [arrangements_eq_ok (countArg_eq_ok hn).2 hnot]
  | [v, w] =>
    refine .of_accepts rfl ?_
    simp only [evalPerm, fails_bind, fails_countArg, true_and]
    intro n hn k hk
    have hnot : ¬ ((n : Int) = Number.maxInt ∧ k = 0) := fun hcase => h (eq_unarranged hn hk hcase)
    simp [arrangements_eq_ok (countArg_eq_ok hn).2 hnot]
  | _ :: _ :: _ :: _ => exact .of_rejects (by simp [Arity.accepts]) rfl

/-! ## All operations -/

/-- Operations that need arguments and do not ask how many they are given. -/
def uncounted : Operation → Bool
  | product | compare _ | extreme _ => true
  | _ => false

/-- Such an operation never fails because of the number of its arguments. -/
theorem fails_of_uncounted {op : Operation} (h : op.uncounted = true) (args : List (Value H)) :
    Fails Ordinary (op.eval args) := by
  cases op with
  | product => exact fails_evalProduct
  | compare c => exact fails_evalComparison c
  | extreme e => exact fails_evalExtreme e
  | _ => simp [uncounted] at h

/-- Every other operation checks the number of its arguments as the call in
front of it does. -/
theorem checks_eval {op : Operation} (hop : op.uncounted = false)
    (hargs : ¬ (op = .perm ∧ args = unarranged)) : Checks op.name op.arity args (op.eval args) := by
  cases op with
  | sum => exact checks_evalSum
  | difference => exact checks_evalDifference
  | product => simp [uncounted] at hop
  | quotient => exact checks_evalQuotient
  | compare c => simp [uncounted] at hop
  | abs => exact checks_evalAbs
  | expt => exact checks_evalExptBy _
  | extreme e => simp [uncounted] at hop
  | round => exact checks_evalRound
  | append => exact checks_evalAppend
  | car => exact checks_evalCar
  | cdr => exact checks_evalCdr
  | cons => exact checks_evalCons
  | length => exact checks_evalLength
  | list => exact .any (fails_ok _)
  | begin => exact checks_evalBegin
  | identical => exact checks_evalIdentical
  | equal => exact checks_evalEqual
  | not => exact checks_evalNot
  | ask kind => exact checks_evalKind kind
  | real f => exact checks_evalUnary _ _ _
  | real₂ f => exact checks_evalBinary _ _
  | log => exact checks_evalLogBy _
  | pow => exact checks_evalPowBy _
  | hypot => exact checks_evalHypotBy _
  | truncate t => exact checks_evalTruncation t
  | classify c => exact checks_evalClass c
  | factorial => exact checks_evalFactorial
  | gcd => exact checks_evalGcd
  | lcm => exact checks_evalLcm
  | isqrt => exact checks_evalIsqrtBy estimateRoot_le
  | comb => exact checks_evalComb
  | perm => exact checks_evalPerm fun h => hargs ⟨rfl, h⟩
  | ldexp => exact checks_evalLdexpBy _
  | frexp => exact checks_evalFrexp
  | modf => exact checks_evalModf
  | fsum => exact checks_evalFsum
  | prod => exact checks_evalProd
  | dist => exact checks_evalDist
  | isclose => exact checks_evalIsclose

/-- An operation fails with ordinary errors, or with that of the check in front
of it where this one fails, with the one exception. -/
theorem fails_eval_or_rejects {op : Operation} (hargs : ¬ (op = .perm ∧ args = unarranged)) :
    Fails (fun cause => cause.Ordinary ∨
        op.arity.accepts args.length = false ∧ cause = .arity op.name op.arity args.length)
      (op.eval args) := by
  cases hop : op.uncounted with
  | true => exact (fails_of_uncounted hop args).mono fun _ => .inl
  | false =>
    have hchecks := checks_eval hop hargs
    cases hcount : op.arity.accepts args.length with
    | true => exact (hchecks.accepted hcount).mono fun _ => .inl
    | false => simp [hchecks.rejected hcount]

/-- Given an acceptable number of arguments an operation fails with ordinary
errors, with the one exception. -/
theorem fails_eval {op : Operation} (hcount : op.arity.accepts args.length = true)
    (hargs : ¬ (op = .perm ∧ args = unarranged)) : Fails Ordinary (op.eval args) := by
  refine (fails_eval_or_rejects hargs).mono ?_
  rintro cause (hordinary | ⟨hnot, -⟩)
  · exact hordinary
  · simp [hcount] at hnot

end Operation

/-! ## Calls that builtins make -/

/-- The first error ends a traversal. -/
theorem Reply.exists_of_outcome_traverse_eq_error {f : α → Reply β} {cause : Error} {xs : List α}
    (h : (traverse f xs).outcome = .error cause) :
    ∃ before x after, xs = before ++ x :: after ∧
      (∀ y ∈ before, ∃ b, (f y).outcome = .ok b) ∧ (f x).outcome = .error cause := by
  induction xs with
  | nil => simp [Reply.ok] at h
  | cons x xs ih =>
    rw [traverse_cons] at h
    cases hx : (f x).outcome with
    | error cause' =>
      have hcause : cause' = cause := by simpa [andThen, hx] using h
      rw [hcause] at hx
      exact ⟨[], x, xs, rfl, by simp, hx⟩
    | ok b =>
      have hrest : (traverse f xs).outcome = .error cause := by
        cases hxs : (traverse f xs).outcome <;> simp_all [andThen, Reply.ok]
      obtain ⟨before, y, after, rfl, hbefore, hy⟩ := ih hrest
      exact ⟨x :: before, y, after, rfl, List.forall_mem_cons.mpr ⟨⟨b, hx⟩, hbefore⟩, hy⟩

theorem Reply.outcome_andThen_ok_eq_error {r : Reply α} {g : α → β} {cause : Error}
    (h : (r.andThen fun a => .ok (g a)).outcome = .error cause) : r.outcome = .error cause := by
  cases hr : r.outcome <;> simp_all [andThen, Reply.ok]

section

variable [Host H]

/-- The body of a builtin, given arguments, calls a value with other
arguments. Only `apply` and `map` do, and `map` only as long as the calls so
far had answers. -/
inductive Builtin.Passes : Builtin → List (Value H) → Value H → List (Value H) → Prop
  | apply (f : Value H) (items : List (Value H)) : Passes .apply [f, .list items] f items
  | map (f : Value H) {lists : List (List (Value H))} (hlists : lists ≠ [])
      {before after : List (List (Value H))} {r : List (Value H)}
      (hr : rows lists = before ++ r :: after)
      (hbefore : ∀ r' ∈ before, ∃ v, (f.call r').outcome = .ok v) :
      Passes .map (f :: lists.map .list) f r

/-- A call of `map` that fails passes on the error of the first row that does. -/
theorem Builtin.exists_passes_map (f : Value H) {v : Value H} {vs : List (Value H)}
    {lists : List (List (Value H))} {cause : Error}
    (hlists : (v :: vs).mapM (Operation.listArg "map") = .ok lists)
    (h : ((Reply.traverse f.call (rows lists)).andThen fun answers =>
      Reply.ok (Value.list answers)).outcome = .error cause) :
    ∃ r ∈ rows lists, map.Passes (f :: v :: vs) f r ∧ (f.call r).outcome = .error cause := by
  obtain ⟨before, r, after, hr, hbefore, hcause⟩ :=
    Reply.exists_of_outcome_traverse_eq_error (Reply.outcome_andThen_ok_eq_error h)
  have hargs : v :: vs = lists.map .list := Operation.mapM_listArg_eq_ok_iff.mp hlists
  have hne : lists ≠ [] := by
    rintro rfl
    cases hargs
  rw [hargs]
  exact ⟨r, by simp [hr], .map f hne hr hbefore, hcause⟩

/-- The body of a builtin fails as its operation does or with an ordinary error
of its own, or it passes on the error of a procedure that it calls. -/
theorem Builtin.fails_body {b : Builtin} {args : List (Value H)}
    (hcount : b.arity.accepts args.length = true) :
    Fails (fun cause => cause.Ordinary ∨ (∃ op, b = .operation op ∧ op.eval args = .error cause) ∨
      ∃ f items, b.Passes args f items ∧ (f.call items).outcome = .error cause)
      (b.body args).outcome := by
  intro cause h
  cases b with
  | operation op =>
    rw [body_operation] at h
    exact .inr (.inl ⟨op, rfl, h⟩)
  | print =>
    rw [body_print] at h
    cases h
  | apply =>
    match args, hcount with
    | [f, v], _ =>
      by_cases hv : ∃ items, v = .list items
      · obtain ⟨items, rfl⟩ := hv
        rw [body_apply] at h
        exact .inr (.inr ⟨f, items, .apply f items, h⟩)
      · rw [body_apply_of_not_list f (not_exists.mp hv)] at h
        cases h
        exact .inl (v.ordinary_mismatch "apply" "list")
  | map =>
    match args, hcount with
    | f :: v :: vs, _ =>
      rw [body_map] at h
      split at h
      case h_1 cause' hlists =>
        cases h
        exact .inl (fails_mapM (Operation.fails_listArg "map") _ cause hlists)
      case h_2 lists hlists =>
        obtain ⟨r, -, hpasses, hcause⟩ := exists_passes_map f hlists h
        exact .inr (.inr ⟨f, r, hpasses, hcause⟩)

/-! ## The two checks -/

theorem Operation.name_mem_of_uncounted {op : Operation} (h : op.uncounted = true) :
    op.name ∈ ["*", ">", "<", ">=", "<=", "=", "max", "min"] := by
  cases op with
  | product => decide
  | compare c => cases c <;> decide
  | extreme e => cases e <;> decide
  | _ => simp [Operation.uncounted] at h

/-- A body that is given a number of arguments that its builtin does not accept
has the error of the call, unless it is one of those that take any number. -/
theorem Builtin.body_of_rejected {b : Builtin} {args : List (Value H)}
    (hcount : b.arity.accepts args.length = false)
    (hname : b.name ∉ ["*", ">", "<", ">=", "<=", "=", "max", "min"]) :
    b.body args = .error (.arity b.name b.arity args.length) := by
  cases b with
  | operation op =>
    have hop : op.uncounted = false := by
      cases h : op.uncounted with
      | true => exact absurd (Operation.name_mem_of_uncounted h) hname
      | false => rfl
    have hargs : ¬ (op = .perm ∧ args = Operation.unarranged) := by
      rintro ⟨rfl, rfl⟩
      cases hcount
    rw [body_operation, (Operation.checks_eval hop hargs).rejected hcount]
    rfl
  | print => cases hcount
  | apply =>
    rcases args with _ | ⟨_, _ | ⟨_, _ | ⟨_, _⟩⟩⟩
    case cons.cons.nil => cases hcount
    all_goals simp [body, arity, name]
  | map =>
    rcases args with _ | ⟨_, _ | ⟨_, _⟩⟩
    case cons.cons => simp [arity, Arity.accepts] at hcount
    all_goals simp [body, arity, name]

/-- **The check of the number of arguments in front of a body and the checks
inside agree.** Whatever a builtin is called with: if it does not accept the
number of arguments, the call is the error that says so and nothing else, and
so is the body by itself, unless it is that of a product, a comparison or a
search for an extreme. If it accepts the number, the body has no such error of
its own: `apply` and `map` may pass one on, from a procedure that they called
when all calls before had answers. -/
theorem Builtin.count_checks_agree (b : Builtin) (args : List (Value H)) :
    (b.arity.accepts args.length = false →
      (∀ serial name, (Value.builtin serial name b).call args =
        .error (.arity b.name b.arity args.length)) ∧
      (b.name ∉ ["*", ">", "<", ">=", "<=", "=", "max", "min"] →
        b.body args = .error (.arity b.name b.arity args.length))) ∧
    (b.arity.accepts args.length = true → ∀ name expected count,
      (b.body args).outcome = .error (.arity name expected count) →
      (b = .apply ∨ b = .map) ∧ ∃ f items, b.Passes args f items ∧
        (f.call items).outcome = .error (.arity name expected count)) := by
  refine ⟨fun hcount => ⟨?_, body_of_rejected hcount⟩, ?_⟩
  · intro serial name
    rw [Value.call_builtin, hcount]
    rfl
  · intro hcount name expected count h
    rcases fails_body hcount _ h with hordinary | ⟨op, rfl, hop⟩ | ⟨f, items, hpasses, hcall⟩
    · exact absurd rfl (hordinary.not_arity name expected count)
    · by_cases hargs : op = .perm ∧ args = Operation.unarranged
      · obtain ⟨rfl, rfl⟩ := hargs
        exact absurd (Operation.eval_unarranged.symm.trans hop) (by simp [Machine.trap])
      · have hordinary := Operation.fails_eval hcount hargs _ hop
        exact absurd rfl (hordinary.not_arity name expected count)
    · refine ⟨?_, f, items, hpasses, hcall⟩
      cases hpasses with
      | apply => exact .inl rfl
      | map => exact .inr rfl

end

end FlatLisp
