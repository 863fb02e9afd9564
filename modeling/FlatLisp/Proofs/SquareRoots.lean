/-
FlatLisp.Proofs.SquareRoots — integer square roots from any estimate.

The root of an integer is settled from an estimate by two loops: one goes down as long
as the square is too large, the other goes up as long as the next square is not. The
first one stops at the root if the estimate is above it and does nothing if it is not
(`descend_eq_ok`), so what the second one starts from is never above the root, and it
stops there (`ascend_eq_ok`). Nothing is used of the estimate but that it is in the
64-bit range, so the answer is the same for every estimate that the operation takes
(`evalIsqrtBy`).
-/
import FlatLisp.Proofs.MachineSteps

namespace FlatLisp.Operation

variable {H : Type}

/-! ## Roots -/

/-- The integer `r` is the integer square root of `n`. -/
structure IsSquareRoot (n r : Int) : Prop where
  nonneg : 0 ≤ r
  square_le : r * r ≤ n
  lt_square : n < (r + 1) * (r + 1)

/-- There is one integer square root and no other. -/
theorem isSquareRoot_iff {n : Nat} {r : Int} : IsSquareRoot n r ↔ r = Nat.sqrt n := by
  constructor
  · rintro ⟨hnonneg, hle, hlt⟩
    obtain ⟨root, rfl⟩ := Int.eq_ofNat_of_zero_le hnonneg
    have hroot : root = Nat.sqrt n := Nat.eq_sqrt.mpr ⟨by exact_mod_cast hle, by exact_mod_cast hlt⟩
    exact congrArg Nat.cast hroot
  · rintro rfl
    have hroot := Nat.eq_sqrt.mp (Eq.refl (Nat.sqrt n))
    exact ⟨Int.natCast_nonneg _, by exact_mod_cast hroot.1, by exact_mod_cast hroot.2⟩

theorem toInt_ofInt_sqrt (n : Int64) :
    (Int64.ofInt (Nat.sqrt n.toInt.toNat)).toInt = Nat.sqrt n.toInt.toNat := by
  have hroot := Nat.sqrt_le_self n.toInt.toNat
  have hmax := Number.toNat_le_maxInt n
  simp only [Number.maxInt] at hmax
  exact Int64.toInt_ofInt_of_le (by omega) (by omega)

/-! ## The operation -/

theorem eval_isqrt (args : List (Value H)) : isqrt.eval args = evalIsqrtBy estimateRoot args := rfl

theorem evalIsqrtBy_of_neg (estimate : Nat → Nat) {n : Int64} (hn : n.toInt < 0) :
    evalIsqrtBy estimate [.int n]
      = (.error (.fault .negativeSquareRoot) : Except Error (Value H)) :=
  if_pos hn

theorem evalIsqrtBy_of_nonneg {estimate : Nat → Nat} {n : Int64} (hn : 0 ≤ n.toInt)
    (hestimate : (estimate n.toInt.toNat : Int) ≤ Number.maxInt) :
    evalIsqrtBy estimate [.int n]
      = (.ok (.int (Int64.ofInt (Nat.sqrt n.toInt.toNat))) : Except Error (Value H)) := by
  have hsettled := settleRoot_eq_ok (Number.toNat_le_maxInt n) hestimate
  have hrange : Number.minInt ≤ (Nat.sqrt n.toInt.toNat : Int) ∧
      (Nat.sqrt n.toInt.toNat : Int) ≤ Number.maxInt := by
    rw [← toInt_ofInt_sqrt n]
    exact ⟨Int64.le_toInt _, Int64.toInt_le _⟩
  show (if n.toInt < 0 then _ else _) = _
  rw [if_neg (Int.not_lt.mpr hn), hsettled, ok_bind, countValue, Number.exact_eq_ok hrange]
  rfl

/-- **The integer square root is exact from every estimate.** A negative integer has
none and is a fault. Any other integer has one, and whatever integer of the 64-bit
range that is not negative it is estimated by, the first loop ends at the smaller of
the estimate and the root, the second one ends at the root, and the root is the
answer. -/
theorem isqrt_is_exact_from_every_estimate (n : Int64) :
    (n.toInt < 0 →
      isqrt.eval [.int n]
        = (.error (.fault .negativeSquareRoot) : Except Error (Value H))) ∧
    (0 ≤ n.toInt → ∃ root : Int64,
      (∀ r : Int, IsSquareRoot n.toInt r ↔ r = root.toInt) ∧
      isqrt.eval [.int n] = (.ok (.int root) : Except Error (Value H)) ∧
      ∀ estimate : Nat → Nat, (estimate n.toInt.toNat : Int) ≤ Number.maxInt →
        descend n.toInt.toNat (estimate n.toInt.toNat)
          = .ok (min (estimate n.toInt.toNat) root.toInt.toNat) ∧
        ascend n.toInt.toNat (min (estimate n.toInt.toNat) root.toInt.toNat)
          = .ok root.toInt.toNat ∧
        evalIsqrtBy estimate [.int n] = (.ok (.int root) : Except Error (Value H))) ∧
    ∀ args : List (Value H), isqrt.eval args = evalIsqrtBy estimateRoot args := by
  refine ⟨evalIsqrtBy_of_neg estimateRoot, fun hn => ?_, eval_isqrt⟩
  have hroot : (Int64.ofInt (Nat.sqrt n.toInt.toNat)).toInt.toNat = Nat.sqrt n.toInt.toNat := by
    rw [toInt_ofInt_sqrt, Int.toNat_natCast]
  refine ⟨Int64.ofInt (Nat.sqrt n.toInt.toNat), fun r => ?_, ?_, fun estimate hestimate => ?_⟩
  · rw [toInt_ofInt_sqrt, ← isSquareRoot_iff, Int.toNat_of_nonneg hn]
  · exact evalIsqrtBy_of_nonneg hn (estimateRoot_le _)
  · rw [hroot]
    exact ⟨descend_eq_ok _ hestimate,
      ascend_eq_ok (Number.toNat_le_maxInt n) (Nat.min_le_right _ _),
      evalIsqrtBy_of_nonneg hn hestimate⟩

/-- The root of the greatest integer, from an estimate that is too small and from one
that is far too large. -/
theorem isqrt_of_maxInt :
    0 ≤ Int64.maxValue.toInt ∧
      isqrt.eval [.int Int64.maxValue]
        = (.ok (.int 3037000499) : Except Error (Value Empty)) ∧
      evalIsqrtBy (fun _ => 0) [.int Int64.maxValue]
        = (.ok (.int 3037000499) : Except Error (Value Empty)) ∧
      evalIsqrtBy id [.int Int64.maxValue]
        = (.ok (.int 3037000499) : Except Error (Value Empty)) := by
  obtain ⟨root, hroot, hanswer, hestimates⟩ :=
    (isqrt_is_exact_from_every_estimate (H := Empty) Int64.maxValue).2.1 (by decide)
  have hvalue : root = 3037000499 :=
    Int64.toInt_inj.mp ((hroot 3037000499).mp ⟨by decide, by decide, by decide⟩).symm
  rw [hvalue] at hanswer hestimates
  exact ⟨by decide, hanswer, (hestimates (fun _ => 0) (by decide)).2.2,
    (hestimates id (by decide)).2.2⟩

end FlatLisp.Operation
