/-
FlatLisp.Proofs.NumericEquality — which numbers are equal.

Among the doubles only the two zeros are equal without being the same (`beq_iff_eq_or_zero`),
so doubles are equal just where their values are. An integer next to a double stands for
its nearest double. Up to `2 ^ 53` in size that double has the value of the integer
(`exactValue_ofInt`), and a double that has it is that double at any size
(`eq_ofInt_of_exactValue`). So equal numbers have one value, rational or infinite, with one
exception: an integer above `2 ^ 53` equals its nearest double whatever the value of that is
(`Number.equal_iff`).
-/
import FlatLisp.Proofs.Comparisons
import FlatLisp.Proofs.FloatSums

namespace FlatLisp

/-! ## Equal doubles -/

namespace Binary64

variable {x y : Float} {n : Int}

/-- Only the two zeros share a place. -/
theorem place_eq_iff :
    place x = place y ↔ x = y ∨ (magnitudeBits x = 0 ∧ magnitudeBits y = 0) := by
  constructor
  · intro h
    unfold place at h
    by_cases hsign : isNegative x = isNegative y
    · have hbits : magnitudeBits x = magnitudeBits y := by
        rw [hsign] at h
        cases hy : isNegative y <;> rw [hy] at h <;> simpa using h
      left
      rw [← ofSignAndBits_magnitudeBits x, hsign, hbits, ofSignAndBits_magnitudeBits]
    · right
      cases hx : isNegative x <;> cases hy : isNegative y <;>
        simp only [hx, hy, signed_true, signed_false, not_true] at h hsign <;> omega
  · rintro (rfl | ⟨hx, hy⟩)
    · rfl
    · rw [place, place, hx, hy, signed_zero, signed_zero]

theorem beq_iff_eq_or_zero (hx : x.isNaN = false) (hy : y.isNaN = false) :
    (x == y) = true ↔ x = y ∨ (magnitudeBits x = 0 ∧ magnitudeBits y = 0) := by
  rw [beq_iff_place hx hy, place_eq_iff]

theorem exactValue_eq_zero_iff (hx : x.isFinite = true) :
    exactValue x = 0 ↔ magnitudeBits x = 0 := by
  rw [exactValue_eq_units, mul_eq_zero_iff_right unit_pos.ne', Int.cast_eq_zero,
    magnitudeBits_eq_zero_iff hx]

/-- Finite doubles are equal just where their values are. -/
theorem beq_iff_exactValue (hx : x.isFinite = true) (hy : y.isFinite = true) :
    (x == y) = true ↔ exactValue x = exactValue y := by
  rw [beq_iff_eq_or_zero (isNaN_of_isFinite hx) (isNaN_of_isFinite hy)]
  constructor
  · rintro (rfl | ⟨hx0, hy0⟩)
    · rfl
    · rw [(exactValue_eq_zero_iff hx).mpr hx0, (exactValue_eq_zero_iff hy).mpr hy0]
  · intro h
    by_cases hzero : exactValue x = 0
    · exact .inr ⟨(exactValue_eq_zero_iff hx).mp hzero, (exactValue_eq_zero_iff hy).mp (h ▸ hzero)⟩
    · have hunits : units x = units y := by
        rw [exactValue_eq_units, exactValue_eq_units] at h
        exact units_mul_unit_inj h
      refine .inl (eq_of_units hx hy hunits fun h0 => absurd ?_ hzero)
      rw [exactValue_eq_units, h0, Int.cast_zero, zero_mul]

/-! ## Integers and their nearest doubles -/

/-- Up to `2 ^ 53` in size an integer is a double. -/
theorem exactValue_ofInt (h : n.natAbs ≤ 2 ^ 53) : exactValue (ofInt n) = n := by
  have hsize : size (ofInt n) = n.natAbs := by
    rcases Nat.lt_or_eq_of_le h with hlt | heq
    · exact size_nearest_natural _ hlt
    · exact size_nearest_even _ (heq.trans (show 2 ^ 53 = 2 * 2 ^ 52 by decide)) (by decide)
  have hsign : isNegative (ofInt n) = decide (n < 0) := isNegative_nearest _ _ _
  rw [exactValue, hsize, hsign]
  split
  · rename_i hneg
    rw [Nat.cast_natAbs, abs_of_neg (of_decide_eq_true hneg), Int.cast_neg, neg_neg]
  · rename_i hneg
    rw [Nat.cast_natAbs, abs_of_nonneg (not_lt.mp (by simpa using hneg))]

/-- A double with the value of an integer is the nearest one to it. -/
theorem eq_ofInt_of_exactValue (hx : x.isFinite = true) (hn : n ≠ 0) (h : exactValue x = n) :
    x = ofInt n := by
  have hunits : (units x : ℚ) * unit = n := by rw [← exactValue_eq_units, h]
  have hsize : |(units x : ℚ) * unit| = (n.natAbs : ℚ) / (1 : Nat) := by
    rw [hunits, Nat.cast_one, div_one, Nat.cast_natAbs, Int.cast_abs]
  have hsign : units x < 0 ↔ n < 0 := by
    rw [← Int.cast_lt_zero (R := ℚ), ← mul_lt_mul_iff_of_pos_right unit_pos, hunits, zero_mul,
      Int.cast_lt_zero]
  have hne : units x ≠ 0 := by
    intro h0
    rw [h0, Int.cast_zero, zero_mul, eq_comm, Int.cast_eq_zero] at hunits
    exact hn hunits
  rw [eq_nearest_of_units hx Nat.one_pos hsize, isNegative_of_units_ne_zero hne, ofInt,
    decide_eq_decide.mpr hsign]

/-- The double nearest to an integer other than zero equals itself only. -/
theorem eq_ofInt_of_beq (hn : n ≠ 0) (h : (ofInt n == x) = true) : x = ofInt n := by
  have hpos : nearestBits 0 1 < nearestBits n.natAbs 1 :=
    nearestBits_natural_lt (by decide) (Int.natAbs_pos.mpr hn)
  have hbits : magnitudeBits (ofInt n) = nearestBits n.natAbs 1 := magnitudeBits_nearest _ _ _
  refine ((beq_iff_eq_or_zero (isNaN_ofInt n) (not_isNaN_of_beq h).2).mp h).elim Eq.symm ?_
  rintro ⟨hzero, -⟩
  omega

end Binary64

/-! ## Equal numbers -/

namespace Number

variable {x y : Number}

/-- Whether the number is an integer or a finite double. -/
def isFinite : Number → Bool
  | int _ => true
  | float x => x.isFinite

/-- A finite number as a rational number. -/
def exactValue : Number → ℚ
  | int n => n.toInt
  | float x => Binary64.exactValue x

/-- The numbers have one value, a rational number or an infinity. -/
inductive SameValue : Number → Number → Prop
  | finite {x y : Number} (hx : x.isFinite = true) (hy : y.isFinite = true)
      (h : x.exactValue = y.exactValue) : SameValue x y
  | infinite {x : Float} (h : x.isInf = true) : SameValue (.float x) (.float x)

/-- An integer above `2 ^ 53` in size, and the double nearest to it. -/
inductive RoundsTo : Number → Number → Prop
  | nearest {n : Int64} (h : 2 ^ 53 < n.toInt.natAbs) :
      RoundsTo (.int n) (.float (Binary64.ofInt n.toInt))

/-- The numbers have one value, or one is an integer above `2 ^ 53` in size that is rounded to
the other. -/
def SameUpToRounding (x y : Number) : Prop :=
  x.SameValue y ∨ x.RoundsTo y ∨ y.RoundsTo x

theorem SameValue.symm (h : x.SameValue y) : y.SameValue x := by
  cases h with
  | finite hx hy h => exact .finite hy hx h.symm
  | infinite h => exact .infinite h

theorem SameUpToRounding.symm (h : x.SameUpToRounding y) : y.SameUpToRounding x :=
  h.imp SameValue.symm Or.symm

theorem sameValue_int_iff {m n : Int64} : SameValue (int m) (int n) ↔ m = n := by
  constructor
  · intro h
    cases h with
    | finite _ _ h => exact Int64.toInt_inj.mp (Int.cast_injective h)
  · rintro rfl
    exact .finite rfl rfl rfl

theorem sameValue_float_iff {x y : Float} : SameValue (float x) (float y) ↔ (x == y) = true := by
  constructor
  · intro h
    cases h with
    | finite hx hy h => exact (Binary64.beq_iff_exactValue hx hy).mpr h
    | infinite h =>
      have hx : x.isNaN = false := by
        rw [← Bool.not_eq_true, Binary64.isNaN_iff, Binary64.isInf_iff.mp h]
        exact lt_irrefl _
      exact (Binary64.beq_iff_place hx hx).mpr rfl
  · intro h
    obtain ⟨hx, hy⟩ := Binary64.not_isNaN_of_beq h
    rcases (Binary64.beq_iff_eq_or_zero hx hy).mp h with rfl | ⟨hx0, hy0⟩
    · by_cases hfinite : x.isFinite = true
      · exact .finite hfinite hfinite rfl
      · rw [Binary64.isFinite_iff_isNaN_isInf, not_and, Bool.not_eq_false] at hfinite
        exact .infinite (hfinite hx)
    · have hpos : 0 < Binary64.infinityBits := by decide
      have hfinite : x.isFinite = true := Binary64.isFinite_iff.mpr (hx0 ▸ hpos)
      have hfinite' : y.isFinite = true := Binary64.isFinite_iff.mpr (hy0 ▸ hpos)
      exact .finite hfinite hfinite' ((Binary64.beq_iff_exactValue hfinite hfinite').mp h)

theorem isFinite_ofInt_toInt (n : Int64) : (Binary64.ofInt n.toInt).isFinite = true := by
  have hlow := n.le_toInt
  have hhigh := n.toInt_lt
  exact Binary64.isFinite_nearest_natural _ (by omega)

/-- An integer and a double are equal if they have one value, or if the double is nearest to an
integer that may not be a double itself. -/
theorem sameUpToRounding_int_float_iff {n : Int64} {x : Float} :
    (int n).SameUpToRounding (float x) ↔ (Binary64.ofInt n.toInt == x) = true := by
  have hnearest := isFinite_ofInt_toInt n
  constructor
  · rintro (h | h | h)
    · cases h with
      | finite _ hx h =>
        change (n.toInt : ℚ) = Binary64.exactValue x at h
        rw [Binary64.beq_iff_exactValue hnearest hx, ← h]
        by_cases hzero : n.toInt = 0
        · exact Binary64.exactValue_ofInt (by rw [hzero]; decide)
        · rw [← Binary64.eq_ofInt_of_exactValue hx hzero h.symm, h]
    · cases h with
      | nearest => exact (Binary64.beq_iff_exactValue hnearest hnearest).mpr rfl
    · cases h
  · intro h
    -- up to `2 ^ 53` the nearest double has the value of the integer; above, it is not a zero
    by_cases hsmall : n.toInt.natAbs ≤ 2 ^ 53
    · cases sameValue_float_iff.mpr h with
      | finite _ hx hvalue =>
        exact .inl (.finite rfl hx ((Binary64.exactValue_ofInt hsmall).symm.trans hvalue))
      | infinite hinf =>
        rw [Binary64.isFinite_iff_isNaN_isInf, hinf] at hnearest
        cases hnearest.2
    · obtain rfl := Binary64.eq_ofInt_of_beq (by omega) h
      exact .inr (.inl (.nearest (by omega)))

/-- **Which numbers are equal.** Numbers are equal if and only if they have one value, or one is
an integer above `2 ^ 53` in size and the other is the double nearest to it. -/
theorem equal_iff : x.equal y = true ↔ x.SameUpToRounding y := by
  cases x with
  | int m =>
    cases y with
    | int n =>
      have hno : ∀ {k l : Int64}, ¬ RoundsTo (int k) (int l) := nofun
      simp only [SameUpToRounding, sameValue_int_iff, hno, or_false]
      exact beq_iff_eq
    | float y => exact sameUpToRounding_int_float_iff.symm
  | float x =>
    cases y with
    | int n =>
      have hcomm : (x == Binary64.ofInt n.toInt) = true ↔ (Binary64.ofInt n.toInt == x) = true := by
        rw [← sameValue_float_iff, ← sameValue_float_iff]
        exact ⟨.symm, .symm⟩
      calc (float x).equal (int n) = true
        _ ↔ (Binary64.ofInt n.toInt == x) = true := hcomm
        _ ↔ (int n).SameUpToRounding (float x) := sameUpToRounding_int_float_iff.symm
        _ ↔ (float x).SameUpToRounding (int n) := ⟨.symm, .symm⟩
    | float y =>
      have hno : ∀ {k l : Float}, ¬ RoundsTo (float k) (float l) := nofun
      simp only [SameUpToRounding, sameValue_float_iff, hno, or_false]
      rfl

theorem equal_comm (x y : Number) : x.equal y = y.equal x := by
  rw [Bool.eq_iff_iff, equal_iff, equal_iff]
  exact ⟨.symm, .symm⟩

end Number

end FlatLisp
