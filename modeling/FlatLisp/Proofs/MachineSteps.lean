/-
FlatLisp.Proofs.MachineSteps — the machine steps that operations take have
results.

Operations take remainders, squares, bounds of ranges and items by position
without asking whether there is a result. Here each loop that does so gets the
bound or the invariant under which there always is one: divisors stay above
zero, a root stays below the one next to the greatest integer, a binomial
coefficient that has been let through is at most the greatest integer, and of
partial sums never more are kept than were passed. What comes out is an equation
without machine steps, or that there is an outcome and what it satisfies.

One step has no result where it is taken: the least factor of the arrangements
of none of `Number.maxInt` things is out of range.
-/
import FlatLisp.Operation.Eval
import Mathlib.Data.List.Chain
import Mathlib.Data.Nat.Sqrt

namespace FlatLisp.Operation

open Machine

/-! ## Divisors and multiples -/

/-- Euclid's algorithm never divides by zero, and it finds the greatest common
divisor. -/
theorem euclid_eq (a b : Nat) : euclid a b = .ok (Nat.gcd a b) := by
  induction b using Nat.strongRecOn generalizing a with
  | ind b ih =>
    unfold euclid
    split
    case isTrue hb => rw [hb, Nat.gcd_zero_right]
    case isFalse hb =>
      have hrest := remainder_eq_ok hb a
      split
      case h_1 cause h =>
        rw [hrest] at h
        cases h
      case h_2 rest h =>
        rw [hrest] at h
        cases h
        rw [ih (a % b) (Nat.mod_lt a (Nat.pos_of_ne_zero hb)), Nat.gcd_comm a b, Nat.gcd_rec b a,
          Nat.gcd_comm b]

theorem multipleOf_eq (a b : Nat) :
    multipleOf a b =
      if maxMultiple < Nat.lcm a b then .error (.fault (.overflow "lcm"))
      else .ok (Nat.lcm a b) := by
  unfold multipleOf
  split
  case isTrue hzero =>
    have hlcm : Nat.lcm a b = 0 := by
      rcases hzero with rfl | rfl
      · exact Nat.lcm_zero_left b
      · exact Nat.lcm_zero_right a
    rw [hlcm, if_neg (Nat.not_lt_zero _)]
  case isFalse hzero =>
    have hgcd : Nat.gcd a b ≠ 0 := by
      intro h
      exact hzero (.inl (Nat.eq_zero_of_gcd_eq_zero_left h))
    have hlcm : a / Nat.gcd a b * b = Nat.lcm a b :=
      Nat.div_mul_right_comm (Nat.gcd_dvd_left a b) b
    rw [euclid_eq, ok_bind, quotient_eq_ok hgcd, ok_bind, hlcm]
    rfl

/-! ## Square roots -/

/-- The square of a number up to the one after the greatest integer fits. -/
theorem square_eq_ok {root : Nat} (h : (root : Int) ≤ Number.maxInt + 1) :
    square root = .ok (root * root) := by
  have hroot : root ≤ 0x8000000000000000 := by
    simp only [Number.maxInt] at h
    omega
  have hsquare : root * root ≤ 0x8000000000000000 * 0x8000000000000000 :=
    Nat.mul_le_mul hroot hroot
  refine Width.fitNat_eq_ok ?_
  simp only [Width.int128]
  omega

theorem nextSquare_eq_ok {root : Nat} (h : (root : Int) ≤ Number.maxInt) :
    nextSquare root = .ok ((root + 1) * (root + 1)) := by
  have hnext : Width.int128.fitNat (root + 1) = .ok (root + 1) := by
    refine Width.fitNat_eq_ok ?_
    simp only [Number.maxInt] at h
    simp only [Width.int128]
    omega
  rw [nextSquare, hnext, ok_bind]
  exact square_eq_ok (by omega)

/-- Going down stops at the root, or at once if the start is not above it. -/
theorem descend_eq_ok (n : Nat) {root : Nat} (h : (root : Int) ≤ Number.maxInt) :
    descend n root = .ok (min root (Nat.sqrt n)) := by
  induction root with
  | zero =>
    rw [Nat.zero_min]
    rfl
  | succ root ih =>
    rw [descend, square_eq_ok (by omega), ok_bind]
    split
    case isTrue hlt =>
      have hsqrt : Nat.sqrt n ≤ root := Nat.lt_succ_iff.mp (Nat.sqrt_lt.mpr hlt)
      rw [ih (by omega), Nat.min_eq_right hsqrt, Nat.min_eq_right (Nat.le_succ_of_le hsqrt)]
    case isFalse hle =>
      have hsqrt : root + 1 ≤ Nat.sqrt n := Nat.le_sqrt.mpr (Nat.le_of_not_lt hle)
      rw [Nat.min_eq_left hsqrt]
      rfl

/-- Going up from a number that is not above the root stops at the root. -/
theorem ascend_eq_ok {n : Nat} (hn : (n : Int) ≤ Number.maxInt) {low : Nat}
    (h : low ≤ Nat.sqrt n) : ascend n low = .ok (Nat.sqrt n) := by
  -- the number of steps that are left
  generalize hsteps : Nat.sqrt n - low = steps
  induction steps using Nat.strongRecOn generalizing low with
  | ind steps ih =>
    have hroot : Nat.sqrt n ≤ n := Nat.sqrt_le_self n
    have hnext : nextSquare low = .ok ((low + 1) * (low + 1)) := nextSquare_eq_ok (by omega)
    unfold ascend
    split
    case h_1 cause hcause =>
      rw [hnext] at hcause
      cases hcause
    case h_2 next heq =>
      rw [hnext] at heq
      cases heq
      split
      case isTrue hle =>
        have hsucc : low + 1 ≤ Nat.sqrt n := Nat.le_sqrt.mpr hle
        exact ih (Nat.sqrt n - (low + 1)) (by omega) hsucc rfl
      case isFalse hlt =>
        have hlast : Nat.sqrt n ≤ low :=
          Nat.lt_succ_iff.mp (Nat.sqrt_lt.mpr (Nat.lt_of_not_le hlt))
        rw [Nat.le_antisymm h hlast]

/-- From any estimate in the 64-bit range the root is settled, without a square
that is too large. -/
theorem settleRoot_eq_ok {n estimate : Nat} (hn : (n : Int) ≤ Number.maxInt)
    (hestimate : (estimate : Int) ≤ Number.maxInt) :
    settleRoot n estimate = .ok (Nat.sqrt n) := by
  rw [settleRoot, descend_eq_ok n hestimate, ok_bind]
  exact ascend_eq_ok hn (Nat.min_le_right _ _)

theorem estimateRoot_le (n : Nat) : (estimateRoot n : Int) ≤ Number.maxInt := by
  have h : estimateRoot n ≤ Number.maxInt.toNat := Nat.min_le_right _ _
  simp only [Number.maxInt] at h ⊢
  omega

/-! ## Arrangements -/

theorem fit_int64_eq_ok {n : Int} (hleast : 0 ≤ n) (hgreatest : n ≤ Number.maxInt) :
    Width.int64.fit n = .ok n := by
  refine Width.fit_eq_ok ⟨?_, hgreatest⟩
  simp only [Width.int64, Number.minInt]
  omega

/-- The least factor is out of range in one case only. -/
theorem leastFactor_eq_ok {n k : Nat} (hn : (n : Int) ≤ Number.maxInt) (hk : k ≤ n)
    (h : ¬ ((n : Int) = Number.maxInt ∧ k = 0)) : leastFactor n k = .ok (n - k + 1) := by
  have hvalue : ((n : Int) - k + 1).toNat = n - k + 1 := by omega
  rw [leastFactor, fit_int64_eq_ok (by omega) (by omega), ok_bind,
    fit_int64_eq_ok (by omega) (by omega), ok_bind, hvalue]
  rfl

/-- Numbers of arrangements are computed without a trap, in all cases but
one. -/
theorem arrangements_eq_ok {n k : Nat} (hn : (n : Int) ≤ Number.maxInt)
    (h : ¬ ((n : Int) = Number.maxInt ∧ k = 0)) :
    arrangements n k = .ok (if n < k then some 0 else rangeProduct? (n - k + 1) n) := by
  unfold arrangements
  split
  case isTrue => rfl
  case isFalse hk =>
    rw [leastFactor_eq_ok hn (Nat.le_of_not_lt hk) h]
    rfl

/-- The product of a binomial coefficient in the 64-bit range and another
factor. -/
theorem mul_le_of_le_maxInt {acc left : Nat} (hacc : (acc : Int) ≤ Number.maxInt)
    (hleft : (left : Int) ≤ Number.maxInt) : acc * left ≤ 0x80000000000000000000000000000000 := by
  simp only [Number.maxInt] at hacc hleft
  have hproduct : acc * left ≤ 0x7FFFFFFFFFFFFFFF * 0x7FFFFFFFFFFFFFFF :=
    Nat.mul_le_mul (by omega) (by omega)
  omega

theorem binomialProduct_eq_ok {n acc i : Nat} (hn : (n : Int) ≤ Number.maxInt)
    (hacc : (acc : Int) ≤ Number.maxInt) (hi : i ≤ n) :
    binomialProduct n acc i = .ok (acc * (n - i)) := by
  have hvalue : ((n : Int) - i).toNat = n - i := by omega
  have hproduct : Width.word128.fitNat (acc * (n - i)) = .ok (acc * (n - i)) := by
    have hleft : ((n - i : Nat) : Int) ≤ Number.maxInt := by omega
    have hbound := mul_le_of_le_maxInt hacc hleft
    refine Width.fitNat_eq_ok ?_
    simp only [Width.word128]
    omega
  rw [binomialProduct, fit_int64_eq_ok (by omega) (by omega), ok_bind, hvalue, hproduct]

/-- A step from one binomial coefficient to the next. -/
theorem binomialFrom_succ {n acc i : Nat} (hn : (n : Int) ≤ Number.maxInt)
    (hacc : (acc : Int) ≤ Number.maxInt) (hi : i < n) (count : Nat) :
    binomialFrom n acc i (count + 1) =
      if Number.maxInt < (acc * (n - i) / (i + 1) : Nat) then .error (.fault (.overflow "comb"))
      else binomialFrom n (acc * (n - i) / (i + 1)) (i + 1) count := by
  have hdivisor : Width.int64.fitNat (i + 1) = .ok (i + 1) := by
    refine Width.fitNat_eq_ok ?_
    simp only [Width.int64]
    omega
  rw [binomialFrom, binomialProduct_eq_ok hn hacc (Nat.le_of_lt hi), ok_bind, hdivisor, ok_bind,
    quotient_eq_ok (Nat.succ_ne_zero i), ok_bind]

/-- Binomial coefficients stay in the 64-bit range, or the loop over them says
that it left it. -/
theorem binomialFrom_outcome {n : Nat} (hn : (n : Int) ≤ Number.maxInt) (count : Nat) :
    ∀ {acc i : Nat}, (acc : Int) ≤ Number.maxInt → i + count ≤ n →
      (∃ m : Nat, binomialFrom n acc i count = .ok m ∧ (m : Int) ≤ Number.maxInt) ∨
      binomialFrom n acc i count = .error (.fault (.overflow "comb")) := by
  induction count with
  | zero =>
    intro acc i hacc _
    exact .inl ⟨acc, rfl, hacc⟩
  | succ count ih =>
    intro acc i hacc hi
    rw [binomialFrom_succ hn hacc (by omega)]
    split
    case isTrue => exact .inr rfl
    case isFalse hnext => exact ih (Int.not_lt.mp hnext) (by omega)

theorem choices_outcome {n : Nat} (hn : (n : Int) ≤ Number.maxInt) (k : Nat) :
    (∃ m, choices n k = .ok m) ∨ choices n k = .error (.fault (.overflow "comb")) := by
  unfold choices
  split
  case isTrue => exact .inl ⟨0, rfl⟩
  case isFalse hk =>
    rw [fit_int64_eq_ok (by omega) (by omega), ok_bind]
    have hone : ((1 : Nat) : Int) ≤ Number.maxInt := by decide
    have hsteps : 0 + min k ((n : Int) - k).toNat ≤ n := by omega
    rcases binomialFrom_outcome hn _ hone hsteps with ⟨m, hm, _⟩ | hoverflow
    · exact .inl ⟨m, hm⟩
    · exact .inr hoverflow

/-! ## Comparisons -/

section

variable {α : Type}

theorem length_of_mem_windows {size : Nat} {xs pair : List α} (h : pair ∈ windows size xs) :
    pair.length = size := by
  induction xs with
  | nil => simp [windows] at h
  | cons x xs ih =>
    simp only [windows] at h
    split at h
    case isTrue hsize =>
      rcases List.mem_cons.mp h with rfl | h
      · exact hsize
      · exact ih h
    case isFalse => simp at h

/-- Neighbours are compared from left to right, up to the first pair that does
not stand in the relation. -/
theorem allM_windows (holds : α → α → Bool) (xs : List α) :
    (windows 2 xs).allM (holdsInPair holds)
      = .ok (decide (xs.IsChain fun a b => holds a b = true)) := by
  induction xs with
  | nil => rfl
  | cons x xs ih =>
    cases xs with
    | nil => rfl
    | cons y ys =>
      have hpair : holdsInPair holds [x, y] = .ok (holds x y) := rfl
      have hwindows : windows 2 (x :: y :: ys) = [x, y] :: windows 2 (y :: ys) := by
        rw [windows]
        rfl
      rw [hwindows, List.allM, hpair, ok_bind]
      cases hxy : holds x y with
      | false => simp [hxy, pure, Except.pure]
      | true => simp [ih, hxy]

end

/-! ## Exact sums -/

/-- What a loop over the first places keeps, step by step. -/
theorem foldlM_range_eq_ok {σ : Type} {I : Nat → σ → Prop} {step : σ → Nat → Except Error σ}
    {n : Nat} {s : σ} (start : I 0 s)
    (keep : ∀ i < n, ∀ s, I i s → ∃ t, step s i = .ok t ∧ I (i + 1) t) :
    ∃ t, (List.range n).foldlM step s = .ok t ∧ I n t := by
  induction n with
  | zero => exact ⟨s, rfl, start⟩
  | succ n ih =>
    obtain ⟨t, ht, hI⟩ := ih fun i hi => keep i (by omega)
    obtain ⟨u, hu, hI'⟩ := keep n (by omega) t hI
    refine ⟨u, ?_, hI'⟩
    rw [List.range_succ, List.foldlM_append, ht, ok_bind, List.foldlM_cons, hu, ok_bind]
    rfl

/-- The partial sums after one more number, taken one after the other: errors that are not
zero stay behind. -/
def carry (x : Float) : List Float → List Float
  | [] => [x]
  | p :: ps =>
    if (sumWithError x p).2 != 0.0 then (sumWithError x p).2 :: carry (sumWithError x p).1 ps
    else carry (sumWithError x p).1 ps

/-- While a number is added, no more errors are kept than sums were passed, and there are as
many sums as before. The errors that were kept stand in front, and carrying on through the
sums that are left gives what carrying through all of them does. -/
structure Carrying.Passed (partials : List Float) (x : Float) (passed : Nat) (s : Carrying) :
    Prop where
  length : s.partials.length = partials.length
  kept : s.kept ≤ passed
  rest : s.partials.drop passed = partials.drop passed
  carried : s.partials.take s.kept ++ carry s.carried (partials.drop passed) = carry x partials

theorem Carrying.Passed.step {partials : List Float} {x : Float} {passed : Nat} {s : Carrying}
    (h : s.Passed partials x passed) (hpassed : passed < partials.length) :
    ∃ t, s.step passed = .ok t ∧ t.Passed partials x (passed + 1) := by
  have hkept : s.kept < s.partials.length := by
    rw [h.length]
    exact Nat.lt_of_le_of_lt h.kept hpassed
  have hdrop := List.drop_eq_getElem_cons hpassed
  have hitem : item s.partials passed = .ok partials[passed] := by
    rw [item_eq_ok_iff, ← List.head?_drop, h.rest, hdrop, List.head?_cons]
  have hrest : s.partials.drop (passed + 1) = partials.drop (passed + 1) := by
    rw [← List.tail_drop, h.rest, List.tail_drop]
  have hcarried := h.carried
  rw [hdrop, carry] at hcarried
  rw [Carrying.step, hitem, ok_bind]
  dsimp only
  split
  case isTrue herror =>
    rw [if_pos herror] at hcarried
    rw [store_eq_ok hkept, ok_bind]
    refine ⟨_, rfl, ?_, Nat.succ_le_succ h.kept, ?_, ?_⟩
    · rw [List.length_set, h.length]
    · rw [List.drop_set_of_lt (Nat.lt_succ_of_le h.kept), hrest]
    · rw [List.take_succ_eq_append_getElem (by rwa [List.length_set]),
        List.take_set_of_le (Nat.le_refl s.kept), List.getElem_set_self, List.append_assoc]
      exact hcarried
  case isFalse herror =>
    rw [if_neg herror] at hcarried
    exact ⟨_, rfl, h.length, Nat.le_succ_of_le h.kept, hrest, hcarried⟩

/-- All sums up to some place can be passed. -/
theorem Carrying.Passed.steps {partials : List Float} {j : Nat} (hj : j ≤ partials.length)
    (x : Float) : ∃ s, (List.range j).foldlM Carrying.step ⟨partials, 0, x⟩ = .ok s ∧
      s.Passed partials x j := by
  have hstart : Carrying.Passed partials x 0 ⟨partials, 0, x⟩ := ⟨rfl, Nat.le_refl 0, rfl, rfl⟩
  exact foldlM_range_eq_ok hstart fun i hi s h => h.step (Nat.lt_of_lt_of_le hi hj)

/-- Passing through the partial sums by position is passing through them one after the
other. -/
theorem addToPartials_eq (partials : List Float) (x : Float) :
    addToPartials partials x = .ok (carry x partials) := by
  obtain ⟨s, hs, hpassed⟩ := Carrying.Passed.steps (Nat.le_refl partials.length) x
  have hcarried := hpassed.carried
  rw [List.drop_length, carry] at hcarried
  rw [addToPartials, hs, ok_bind, ← hcarried]
  rfl

/-- The partial sums of a list. -/
def carryAll (xs : List Float) : List Float :=
  xs.foldl (fun partials x => carry x partials) []

theorem partialSums_eq (xs : List Float) : partialSums xs = .ok (carryAll xs) := by
  unfold partialSums carryAll
  generalize ([] : List Float) = partials
  induction xs generalizing partials with
  | nil => rfl
  | cons x xs ih => rw [List.foldlM_cons, addToPartials_eq, ok_bind, ih, List.foldl_cons]

theorem exactSum_eq_ok (xs : List Float) : ∃ sum, exactSum xs = .ok sum := by
  unfold exactSum
  split
  case isTrue =>
    rw [partialSums_eq]
    exact ⟨_, rfl⟩
  case isFalse => exact ⟨_, rfl⟩

/-! ## Rounding -/

/-- The places that rounding looks at are few. -/
theorem placeScale_eq_ok {places : Int} (h : places.natAbs ≤ 400) :
    placeScale places = .ok (Binary64.powerBySquaring 10.0 places.natAbs) := by
  have hsize : Width.int32.fitNat places.natAbs = .ok places.natAbs := by
    refine Width.fitNat_eq_ok ?_
    simp only [Width.int32]
    omega
  rw [placeScale, hsize]
  rfl

end FlatLisp.Operation
