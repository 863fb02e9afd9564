/-
FlatLisp.Proofs.Arrangements — numbers of choices and of arrangements.

Choices are counted by way of the binomial coefficients in front of the one that is
asked for, arrangements by way of products of the first factors. Both loops stop as
soon as one of these is above the greatest integer. That is never too early, because
what they pass only grows: binomial coefficients up to the middle of their row
(`choose_le_choose_of_le_half`), to which the smaller of `k` and `n - k` belongs, and
products of positive factors always. So each loop comes to its last value or, if that
is too large, to an overflow (`binomialFrom_choose`, `risingProduct?_eq`), and the
answers are the exact ones.
-/
import FlatLisp.Proofs.ExactIntegers

namespace FlatLisp.Operation

variable {H : Type}

/-! ## Choices -/

/-- A step from one binomial coefficient to the next leaves no remainder. -/
theorem choose_mul_div (n i : Nat) : n.choose i * (n - i) / (i + 1) = n.choose (i + 1) := by
  rw [← Nat.choose_succ_right_eq]
  exact Nat.mul_div_cancel _ (Nat.succ_pos i)

theorem choose_le_choose_of_le_half {n i j : Nat} (hij : i ≤ j) (hj : j ≤ n / 2) :
    n.choose i ≤ n.choose j := by
  induction j, hij using Nat.le_induction with
  | base => exact Nat.le_refl _
  | succ j _ ih =>
    calc n.choose i ≤ n.choose j := ih (by omega)
      _ ≤ n.choose (j + 1) := Nat.choose_le_succ_of_lt_half_left (by omega)

theorem choose_min (n : Nat) {k : Nat} (hk : k ≤ n) : n.choose (min k (n - k)) = n.choose k := by
  rcases Nat.le_total k (n - k) with h | h
  · rw [Nat.min_eq_left h]
  · rw [Nat.min_eq_right h, Nat.choose_symm hk]

/-- From one binomial coefficient the loop comes to another one up to the middle, or
to an overflow if that one is too large. -/
theorem binomialFrom_choose {n i count : Nat} (hn : (n : Int) ≤ Number.maxInt)
    (hi : (n.choose i : Int) ≤ Number.maxInt) (hhalf : i + count ≤ n / 2) :
    binomialFrom n (n.choose i) i count =
      if Number.maxInt < n.choose (i + count) then .error (.fault (.overflow "comb"))
      else .ok (n.choose (i + count)) := by
  induction count generalizing i with
  | zero =>
    rw [Nat.add_zero, if_neg (Int.not_lt.mpr hi)]
    rfl
  | succ count ih =>
    rw [binomialFrom_succ hn hi (by omega), choose_mul_div]
    split
    case isTrue hlarge =>
      -- the loop is left here, and the coefficient that was asked for is not smaller
      have hgrows : n.choose (i + 1) ≤ n.choose (i + (count + 1)) :=
        choose_le_choose_of_le_half (by omega) hhalf
      rw [if_pos (by omega)]
    case isFalse hsmall =>
      rw [ih (Int.not_lt.mp hsmall) (by omega), Nat.add_assoc, Nat.add_comm 1 count]

theorem binomialFrom_one {n i : Nat} (hn : (n : Int) ≤ Number.maxInt) (hhalf : i ≤ n / 2) :
    binomialFrom n 1 0 i =
      if Number.maxInt < n.choose i then .error (.fault (.overflow "comb"))
      else .ok (n.choose i) := by
  have hstart : (n.choose 0 : Int) ≤ Number.maxInt := by
    rw [Nat.choose_zero_right]
    decide
  have hrun : binomialFrom n (n.choose 0) 0 i = _ := binomialFrom_choose hn hstart (by omega)
  rwa [Nat.choose_zero_right, Nat.zero_add] at hrun

/-- What the loop lets through is the binomial coefficient in its place. -/
theorem eq_choose_of_binomialFrom {n i acc : Nat} (hn : (n : Int) ≤ Number.maxInt)
    (hhalf : i ≤ n / 2) (h : binomialFrom n 1 0 i = .ok acc) :
    acc = n.choose i ∧ (n.choose i : Int) ≤ Number.maxInt := by
  rw [binomialFrom_one hn hhalf] at h
  split at h
  case isTrue => cases h
  case isFalse hsmall =>
    cases h
    exact ⟨rfl, Int.not_lt.mp hsmall⟩

/-- The division of a step leaves no remainder. -/
theorem binomial_step {n i : Nat} (hn : (n : Int) ≤ Number.maxInt) (hi : i ≤ n)
    (hfits : (n.choose i : Int) ≤ Number.maxInt) :
    ∃ product, binomialProduct n (n.choose i) i = .ok product ∧ i + 1 ∣ product ∧
      Machine.quotient product (i + 1) = .ok (n.choose (i + 1)) := by
  refine ⟨_, binomialProduct_eq_ok hn hfits hi, ?_, ?_⟩
  · exact Dvd.intro_left _ (Nat.choose_succ_right_eq n i)
  · rw [Machine.quotient_eq_ok (Nat.succ_ne_zero i), choose_mul_div]

/-- The loop is never left too early. -/
theorem lt_choose_of_binomialFrom {n k i : Nat} (hn : (n : Int) ≤ Number.maxInt) (hk : k ≤ n)
    (hi : i ≤ min k (n - k)) (h : binomialFrom n 1 0 i = .error (.fault (.overflow "comb"))) :
    Number.maxInt < n.choose k := by
  rw [binomialFrom_one hn (by omega)] at h
  split at h
  case isFalse => cases h
  case isTrue hlarge =>
    have hgrows : n.choose i ≤ n.choose (min k (n - k)) :=
      choose_le_choose_of_le_half hi (by omega)
    rw [choose_min n hk] at hgrows
    omega

theorem choices_eq {n : Nat} (hn : (n : Int) ≤ Number.maxInt) (k : Nat) :
    choices n k =
      if Number.maxInt < n.choose k then .error (.fault (.overflow "comb"))
      else .ok (n.choose k) := by
  unfold choices
  split
  case isTrue hk =>
    rw [Nat.choose_eq_zero_of_lt hk]
    rfl
  case isFalse hk =>
    have hothers : ((n : Int) - k).toNat = n - k := by omega
    rw [fit_int64_eq_ok (by omega) (by omega), ok_bind, hothers,
      binomialFrom_one hn (by omega), choose_min n (Nat.not_lt.mp hk)]

theorem evalComb_int {n k : Int64} (hn : 0 ≤ n.toInt) (hk : 0 ≤ k.toInt) :
    evalComb [.int n, .int k]
      = (exactAnswer "comb" (n.toInt.toNat.choose k.toInt.toNat) : Except Error (Value H)) := by
  show (do
    let n ← countArg "comb" "n" (.int n)
    let k ← countArg "comb" "k" (.int k)
    countValue "comb" (← choices n k)) = _
  rw [countArg_int "comb" "n" hn, ok_bind, countArg_int "comb" "k" hk, ok_bind,
    choices_eq (Number.toNat_le_maxInt n)]
  split
  case isTrue hlarge =>
    rw [exactAnswer_of_maxInt_lt hlarge]
    rfl
  case isFalse => rw [ok_bind, countValue_eq]

/-- **The number of choices is the binomial coefficient.** The answer to two integers
that are not negative is the exact one, zero if `k` is above `n`, or an overflow if
that one is out of the 64-bit range. On the way, every value that the loop lets through
is the binomial coefficient in its place, its division leaves no remainder, and a value
that it does not let through is followed by none that is smaller. -/
theorem comb_is_exact {n k : Int64} (hn : 0 ≤ n.toInt) (hk : 0 ≤ k.toInt) :
    comb.eval [.int n, .int k]
        = (exactAnswer "comb" (n.toInt.toNat.choose k.toInt.toNat) : Except Error (Value H)) ∧
    (n.toInt < k.toInt → n.toInt.toNat.choose k.toInt.toNat = 0) ∧
    (∀ i acc : Nat, (i : Int) < min k.toInt (n.toInt - k.toInt) →
      binomialFrom n.toInt.toNat 1 0 i = .ok acc →
      acc = n.toInt.toNat.choose i ∧
      ∃ product, binomialProduct n.toInt.toNat acc i = .ok product ∧ i + 1 ∣ product ∧
        Machine.quotient product (i + 1) = .ok (n.toInt.toNat.choose (i + 1))) ∧
    (∀ i j : Nat, i ≤ j → (j : Int) ≤ min k.toInt (n.toInt - k.toInt) →
      n.toInt.toNat.choose i ≤ n.toInt.toNat.choose j) ∧
    ∀ i : Nat, (i : Int) ≤ min k.toInt (n.toInt - k.toInt) →
      binomialFrom n.toInt.toNat 1 0 i = .error (.fault (.overflow "comb")) →
      Number.maxInt < n.toInt.toNat.choose k.toInt.toNat := by
  have hmax := Number.toNat_le_maxInt n
  refine ⟨evalComb_int hn hk, ?_, ?_, ?_, ?_⟩
  · exact fun hless => Nat.choose_eq_zero_of_lt (by omega)
  · intro i acc hi hacc
    obtain ⟨rfl, hfits⟩ := eq_choose_of_binomialFrom hmax (by omega) hacc
    exact ⟨rfl, binomial_step hmax (by omega) hfits⟩
  · exact fun i j hij hj => choose_le_choose_of_le_half hij (by omega)
  · exact fun i hi herror => lt_choose_of_binomialFrom hmax (by omega) (by omega) herror

/-- All but one of the most things, and two of them, which are too many choices. -/
theorem comb_of_maxInt :
    0 ≤ Int64.maxValue.toInt ∧ 0 ≤ (9223372036854775806 : Int64).toInt ∧ 0 ≤ (2 : Int64).toInt ∧
      comb.eval [.int Int64.maxValue, .int 9223372036854775806]
        = (.ok (.int Int64.maxValue) : Except Error (Value Empty)) ∧
      comb.eval [.int Int64.maxValue, .int 2]
        = (.error (.fault (.overflow "comb")) : Except Error (Value Empty)) := by
  refine ⟨by decide, by decide, by decide, ?_, ?_⟩
  · have hall : Nat.choose 9223372036854775807 9223372036854775806 = 9223372036854775807 :=
      Nat.choose_succ_self_right 9223372036854775806
    refine (comb_is_exact (by decide) (by decide)).1.trans ?_
    show exactAnswer "comb" (Nat.choose 9223372036854775807 9223372036854775806 : Nat) = _
    rw [hall]
    rfl
  · refine (comb_is_exact (by decide) (by decide)).1.trans ?_
    show exactAnswer "comb" (Nat.choose 9223372036854775807 2 : Nat) = _
    rw [Nat.choose_two_right]
    rfl

/-! ## Arrangements -/

/-- The number of ways to arrange `k` of `n` things. -/
def arrangementCount (n k : Nat) : Nat :=
  if n < k then 0 else n.factorial / (n - k).factorial

theorem arrangementCount_of_le {n k : Nat} (hk : k ≤ n) :
    arrangementCount n k = (n - k + 1).ascFactorial k := by
  rw [arrangementCount, if_neg (Nat.not_lt.mpr hk), Nat.ascFactorial_eq_div,
    Nat.sub_add_cancel hk]

theorem arrangementCount_self (n : Nat) : arrangementCount n n = n.factorial := by
  rw [arrangementCount_of_le (Nat.le_refl n), Nat.sub_self, Nat.one_ascFactorial]

/-- The least factor of a rising product in front of the others. -/
theorem ascFactorial_succ_left (first count : Nat) :
    first.ascFactorial (count + 1) = first * (first + 1).ascFactorial count := by
  rw [Nat.ascFactorial_succ]
  exact (Nat.succ_ascFactorial first count).symm

theorem ascFactorial_mono {first i j : Nat} (hfirst : 0 < first) (hij : i ≤ j) :
    first.ascFactorial i ≤ first.ascFactorial j := by
  induction j, hij using Nat.le_induction with
  | base => exact Nat.le_refl _
  | succ j _ ih =>
    calc first.ascFactorial i ≤ first.ascFactorial j := ih
      _ ≤ first.ascFactorial (j + 1) := Nat.le_mul_of_pos_left _ (Nat.add_pos_left hfirst j)

/-- A product of successive numbers is given up just if it is too large as a whole. -/
theorem risingProduct?_eq {product : Nat} (hproduct : (product : Int) ≤ Number.maxInt)
    (first count : Nat) :
    risingProduct? product first count =
      if Number.maxInt < (product * first.ascFactorial count : Nat) then none
      else some (product * first.ascFactorial count) := by
  induction count generalizing product first with
  | zero =>
    rw [Nat.ascFactorial_zero, Nat.mul_one, if_neg (Int.not_lt.mpr hproduct)]
    rfl
  | succ count ih =>
    rw [risingProduct?, ascFactorial_succ_left, ← Nat.mul_assoc]
    split
    case isTrue hlarge =>
      -- no factor that is still to come is zero
      have hgrows : product * first ≤ product * first * (first + 1).ascFactorial count :=
        Nat.le_mul_of_pos_right _ (Nat.ascFactorial_pos first count)
      rw [if_pos (by omega)]
    case isFalse hsmall => exact ih (Int.not_lt.mp hsmall) (first + 1)

/-- The first factors of a number of arrangements, multiplied. -/
theorem risingProduct?_one (first count : Nat) :
    risingProduct? 1 first count =
      if Number.maxInt < first.ascFactorial count then none
      else some (first.ascFactorial count) := by
  have hone : ((1 : Nat) : Int) ≤ Number.maxInt := by decide
  have hrun := risingProduct?_eq hone first count
  rwa [Nat.one_mul] at hrun

/-- The factors are never given up too early. -/
theorem lt_arrangementCount_of_risingProduct? {n k i : Nat} (hik : i ≤ k) (hk : k ≤ n)
    (h : risingProduct? 1 (n - k + 1) i = none) : Number.maxInt < arrangementCount n k := by
  rw [risingProduct?_one] at h
  split at h
  case isFalse => cases h
  case isTrue hlarge =>
    have hgrows : (n - k + 1).ascFactorial i ≤ (n - k + 1).ascFactorial k :=
      ascFactorial_mono (Nat.succ_pos _) hik
    rw [arrangementCount_of_le hk]
    omega

theorem productValue_eq (name : String) (n : Nat) :
    productValue name (if Number.maxInt < n then none else some n)
      = (exactAnswer name n : Except Error (Value H)) := by
  split
  case isTrue hlarge =>
    rw [exactAnswer_of_maxInt_lt hlarge]
    rfl
  case isFalse => exact countValue_eq name n

theorem productValue_rangeProduct? (name : String) {n k : Nat} (hk : k ≤ n) :
    productValue name (rangeProduct? (n - k + 1) n)
      = (exactAnswer name (arrangementCount n k) : Except Error (Value H)) := by
  have hcount : n + 1 - (n - k + 1) = k := by omega
  rw [rangeProduct?, hcount, risingProduct?_one, productValue_eq, arrangementCount_of_le hk]

theorem productValue_arrangements {n k : Nat} (hn : (n : Int) ≤ Number.maxInt)
    (h : ¬ ((n : Int) = Number.maxInt ∧ k = 0)) :
    (do productValue "perm" (← arrangements n k))
      = (exactAnswer "perm" (arrangementCount n k) : Except Error (Value H)) := by
  rw [arrangements_eq_ok hn h, ok_bind]
  split
  case isTrue hk =>
    rw [arrangementCount, if_pos hk]
    rfl
  case isFalse hk => exact productValue_rangeProduct? "perm" (Nat.not_lt.mp hk)

theorem evalPerm_pair {n k : Int64} (hn : 0 ≤ n.toInt) (hk : 0 ≤ k.toInt)
    (h : ¬ (n = Int64.maxValue ∧ k = 0)) :
    evalPerm [.int n, .int k]
      = (exactAnswer "perm" (arrangementCount n.toInt.toNat k.toInt.toNat) :
        Except Error (Value H)) := by
  have hcase : ¬ ((n.toInt.toNat : Int) = Number.maxInt ∧ k.toInt.toNat = 0) := by
    rintro ⟨hmax, hzero⟩
    refine h ⟨Int64.toInt_inj.mp ?_, Int64.toInt_inj.mp ?_⟩
    · rw [← Int.toNat_of_nonneg hn, hmax]
      rfl
    · rw [← Int.toNat_of_nonneg hk, hzero]
      rfl
  rw [evalPerm, countArg_int "perm" "n" hn, ok_bind, countArg_int "perm" "k" hk, ok_bind]
  exact productValue_arrangements (Number.toNat_le_maxInt n) hcase

theorem evalPerm_single {n : Int64} (hn : 0 ≤ n.toInt) :
    evalPerm [.int n]
      = (exactAnswer "perm" n.toInt.toNat.factorial : Except Error (Value H)) := by
  have hcase : ¬ ((n.toInt.toNat : Int) = Number.maxInt ∧ n.toInt.toNat = 0) := by
    unfold Number.maxInt
    omega
  rw [evalPerm, countArg_int "perm" "n" hn, ok_bind,
    productValue_arrangements (Number.toNat_le_maxInt n) hcase, arrangementCount_self]

theorem evalFactorial_int {n : Int64} (hn : 0 ≤ n.toInt) :
    evalFactorial [.int n]
      = (exactAnswer "factorial" n.toInt.toNat.factorial : Except Error (Value H)) := by
  have hproduct := productValue_rangeProduct? (H := H) "factorial" (Nat.le_refl n.toInt.toNat)
  rw [Nat.sub_self, Nat.zero_add, arrangementCount_self] at hproduct
  exact (if_neg (Int.not_lt.mpr hn)).trans hproduct

/-- Exact answers of two operations are the same ones, apart from the overflow. -/
theorem exactAnswer_eq_ok_congr (name other : String) (n : Int) (v : Value H) :
    exactAnswer name n = .ok v ↔ exactAnswer other n = .ok v := by
  unfold exactAnswer
  split <;> simp

/-- **Numbers of arrangements and factorials are exact.** Of an integer `n` that is not
negative, the number of arrangements of `k` things is `n! / (n - k)!`, zero if `k` is
above `n`, with the exception of none of the most things; without a `k` it is the
factorial. An answer that is out of the 64-bit range is an overflow of the operation
that was called, and a product of some of the factors is given up only if the product
of all of them is too large. -/
theorem perm_and_factorial_are_exact {n : Int64} (hn : 0 ≤ n.toInt) :
    (∀ k : Int64, 0 ≤ k.toInt → ¬ (n = Int64.maxValue ∧ k = 0) →
      perm.eval [.int n, .int k]
        = (exactAnswer "perm" (arrangementCount n.toInt.toNat k.toInt.toNat) :
          Except Error (Value H))) ∧
    perm.eval [.int n]
      = (exactAnswer "perm" n.toInt.toNat.factorial : Except Error (Value H)) ∧
    factorial.eval [.int n]
      = (exactAnswer "factorial" n.toInt.toNat.factorial : Except Error (Value H)) ∧
    (∀ v : Value H, perm.eval [.int n] = .ok v ↔ factorial.eval [.int n] = .ok v) ∧
    ∀ i k : Nat, i ≤ k → k ≤ n.toInt.toNat →
      risingProduct? 1 (n.toInt.toNat - k + 1) i = none →
      Number.maxInt < arrangementCount n.toInt.toNat k := by
  have hperm : perm.eval [.int n]
      = (exactAnswer "perm" n.toInt.toNat.factorial : Except Error (Value H)) :=
    evalPerm_single hn
  have hfactorial : factorial.eval [.int n]
      = (exactAnswer "factorial" n.toInt.toNat.factorial : Except Error (Value H)) :=
    evalFactorial_int hn
  refine ⟨fun k hk h => evalPerm_pair hn hk h, hperm, hfactorial, fun v => ?_,
    fun i k hik hk hnone => lt_arrangementCount_of_risingProduct? hik hk hnone⟩
  rw [hperm, hfactorial]
  exact exactAnswer_eq_ok_congr _ _ _ v

/-- The last factorial in range and the first one that is not. -/
theorem perm_of_twenty :
    0 ≤ (20 : Int64).toInt ∧ 0 ≤ (21 : Int64).toInt ∧ 0 ≤ (19 : Int64).toInt ∧
      ¬ ((20 : Int64) = Int64.maxValue ∧ (19 : Int64) = 0) ∧
      perm.eval [.int 20, .int 19]
        = (.ok (.int 2432902008176640000) : Except Error (Value Empty)) ∧
      perm.eval [.int 20] = (.ok (.int 2432902008176640000) : Except Error (Value Empty)) ∧
      factorial.eval [.int 20]
        = (.ok (.int 2432902008176640000) : Except Error (Value Empty)) ∧
      perm.eval [.int 21] = (.error (.fault (.overflow "perm")) : Except Error (Value Empty)) ∧
      factorial.eval [.int 21]
        = (.error (.fault (.overflow "factorial")) : Except Error (Value Empty)) := by
  obtain ⟨hpair, hperm, hfactorial, -⟩ :=
    perm_and_factorial_are_exact (H := Empty) (n := 20) (by decide)
  obtain ⟨-, hperm', hfactorial', -⟩ :=
    perm_and_factorial_are_exact (H := Empty) (n := 21) (by decide)
  refine ⟨by decide, by decide, by decide, by decide, ?_, ?_, ?_, ?_, ?_⟩
  · exact (hpair 19 (by decide) (by decide)).trans rfl
  · exact hperm.trans rfl
  · exact hfactorial.trans rfl
  · exact hperm'.trans rfl
  · exact hfactorial'.trans rfl

end FlatLisp.Operation
