/-
FlatLisp.Proofs.PowersOfTen — powers of ten as doubles, computed by squaring.

Up to `10 ^ 22` every power of ten is a double, and repeated squaring finds it
(`powerBySquaring_ten`). Further on the products are rounded. Rounding keeps powers of
two as lower bounds, and an overflow to infinity keeps every lower bound, so what is
computed for `10 ^ d` is at least `8 ^ d` (`AtLeast.powerBySquaring_go`); that is all
that is needed where the power is only divided by.
-/
import FlatLisp.Binary64.Exact
import FlatLisp.Proofs.FloatSizes
import Mathlib

namespace FlatLisp.Binary64

open Float.Model (Format UnpackedFloat)
open Float.Model.UnpackedFloat

/-! ## Powers by squaring -/

/-- A positive double, possibly infinite, of the given size or more. -/
structure AtLeast (x : Float) (q : ℚ) : Prop where
  positive : isNegative x = false
  isNaN : x.isNaN = false
  le_size : x.isFinite = true → q ≤ size x

theorem AtLeast.mono {x : Float} {p q : ℚ} (h : AtLeast x q) (hle : p ≤ q) : AtLeast x p :=
  ⟨h.positive, h.isNaN, fun hfinite => hle.trans (h.le_size hfinite)⟩

theorem AtLeast.magnitudeBits_pos {x : Float} {q : ℚ} (h : AtLeast x q) (hq : 0 < q) :
    0 < magnitudeBits x := by
  refine Nat.pos_of_ne_zero fun hzero => ?_
  have hfinite : x.isFinite = true := by
    rw [isFinite_iff, hzero]
    decide
  have hsize := h.le_size hfinite
  rw [size_eq_zero hzero] at hsize
  exact hq.not_ge hsize

theorem atLeast_infinity (q : ℚ) : AtLeast infinity q := by
  refine ⟨isNegative_ofSignAndBits _ (Nat.le_refl _), ?_, fun hfinite => ?_⟩
  · rw [← Bool.not_eq_true, isNaN_iff, infinity, magnitudeBits_ofSignAndBits _ (Nat.le_refl _)]
    omega
  · rw [isFinite_iff, infinity, magnitudeBits_ofSignAndBits _ (Nat.le_refl _)] at hfinite
    omega

/-- What is not finite but positive and a number is infinity. -/
theorem AtLeast.unpack_eq_infinity {x : Float} {q : ℚ} (h : AtLeast x q)
    (hfinite : x.isFinite = false) : x.toModel.unpack = .infinity .positive := by
  have hle := magnitudeBits_le_of_isNaN h.isNaN
  rw [← Bool.not_eq_true, isFinite_iff] at hfinite
  have hbits : magnitudeBits x = infinityBits := by omega
  rw [unpack_eq_form, h.positive, hbits, form_infinity]
  rfl

theorem eq_infinity_of_pack {x : Float}
    (h : x.toBits.toBitVec = pack Format.binary64 (.infinity .positive)) : x = infinity := by
  refine eq_ofSignAndBits (Nat.le_refl _) ?_
  rw [← toNat_pack_form false (Nat.le_refl _), form_infinity]
  exact congrArg BitVec.toNat h

/-- The product of positive doubles is infinite if one of them is. -/
theorem AtLeast.mul_eq_infinity {x y : Float} {p q : ℚ} (hx : AtLeast x p) (hy : AtLeast y q)
    (hp : 0 < p) (hq : 0 < q) (h : x.isFinite = false ∨ y.isFinite = false) : x * y = infinity := by
  have hview : ∀ {x : Float} {q : ℚ}, AtLeast x q → 0 < q → x.toModel.unpack = .infinity .positive
      ∨ ∃ s e, ∃ hs : 0 < s, x.toModel.unpack = .finite .positive s e hs := by
    intro x q hx hq
    have hpos := hx.magnitudeBits_pos hq
    rw [unpack_eq_form, hx.positive]
    rcases form_cases false (magnitudeBits_le_of_isNaN hx.isNaN) with
      ⟨hzero, _⟩ | ⟨m, hm, _, _, _, hform⟩ | ⟨_, hform⟩
    · omega
    · exact .inr ⟨_, _, hm, hform⟩
    · exact .inl hform
  refine eq_infinity_of_pack ?_
  show pack Format.binary64 (UnpackedFloat.mul Format.binary64 x.toModel.unpack
    y.toModel.unpack) = _
  rcases h with h | h
  · rw [hx.unpack_eq_infinity h]
    rcases hview hy hq with hform | ⟨s, e, hs, hform⟩
    · rw [hform]
      rfl
    · rw [hform]
      rfl
  · rw [hy.unpack_eq_infinity h]
    rcases hview hx hp with hform | ⟨s, e, hs, hform⟩
    · rw [hform]
      rfl
    · rw [hform]
      rfl

/-- Products keep powers of two as lower bounds. -/
theorem AtLeast.mul {x y : Float} {i j : Nat} (hx : AtLeast x (2 ^ i)) (hy : AtLeast y (2 ^ j)) :
    AtLeast (x * y) (2 ^ (i + j)) := by
  by_cases h : x.isFinite = false ∨ y.isFinite = false
  · rw [hx.mul_eq_infinity hy (by positivity) (by positivity) h]
    exact atLeast_infinity _
  · simp only [Bool.not_eq_false, not_or] at h
    obtain ⟨hfx, hfy⟩ := h
    have hsize : (2 : ℚ) ^ (i + j) ≤ size x * size y := by
      rw [pow_add]
      exact mul_le_mul (hx.le_size hfx) (hy.le_size hfy) (by positivity) (size_nonneg x)
    have hmul := mul_eq_nearest hfx hfy
    have hquotient : size x * size y = (((Magnitude.ofFloat x).numerator
        * (Magnitude.ofFloat y).numerator : Nat) : ℚ) / ((Magnitude.ofFloat x).denominator
        * (Magnitude.ofFloat y).denominator : Nat) := by
      rw [size_eq_div, size_eq_div, Nat.cast_mul, Nat.cast_mul, mul_div_mul_comm]
    have hden := Nat.mul_pos (Magnitude.ofFloat x).denominator_pos
      (Magnitude.ofFloat y).denominator_pos
    rw [hquotient] at hsize
    rw [hx.positive, hy.positive] at hmul
    rw [hmul]
    refine ⟨isNegative_nearest _ _ _, isNaN_nearest _ _ _, fun hfinite => ?_⟩
    have hnum : 0 < (Magnitude.ofFloat x).numerator * (Magnitude.ofFloat y).numerator := by
      refine Nat.pos_of_ne_zero fun hzero => ?_
      rw [hzero, Nat.cast_zero, zero_div] at hsize
      exact absurd hsize (not_le.mpr (by positivity))
    rw [isFinite_iff, magnitudeBits_nearest] at hfinite
    rw [size_nearest _ hnum hden hfinite, ← zpow_natCast]
    refine pow_le_value_nearestMagnitude hnum hden ?_ ?_
    · unfold minExponent
      omega
    · rw [zpow_natCast]
      exact hsize

/-- Repeated squaring keeps powers of two as lower bounds. -/
theorem AtLeast.powerBySquaring_go {r a : Float} {i j : Nat} (hr : AtLeast r (2 ^ i))
    (ha : AtLeast a (2 ^ j)) (n : Nat) : AtLeast (powerBySquaring.go r a n) (2 ^ (i + j * n)) := by
  induction n using Nat.strong_induction_on generalizing r a i j with
  | _ n ih =>
    rw [powerBySquaring.go]
    have hstep : AtLeast (if n % 2 = 1 then r * a else r) (2 ^ (i + j * (n % 2))) := by
      split
      · rename_i hodd
        rw [hodd, Nat.mul_one]
        exact hr.mul ha
      · rename_i heven
        have hzero : n % 2 = 0 := by omega
        rw [hzero]
        exact hr
    split
    · rename_i hlast
      have hexponent : i + j * (n % 2) = i + j * n := by
        rw [Nat.mod_eq_of_lt (by omega)]
      rwa [hexponent] at hstep
    · have hrest := ih (n / 2) (by omega) hstep (ha.mul ha)
      have hexponent : i + j * (n % 2) + (j + j) * (n / 2) = i + j * n := by
        conv_rhs => rw [← Nat.mod_add_div n 2]
        ring
      rwa [hexponent] at hrest

/-! ## Powers of ten -/

/-- Up to `10 ^ 22`, powers of ten are doubles, and squaring finds them. -/
theorem powerBySquaring_ten : ∀ d < 23, powerBySquaring 10.0 d = ofInt (10 ^ d) := by
  decide +kernel

theorem ten_pow_quotient (d : Nat) :
    (((10 : Int) ^ d).natAbs : ℚ) / (1 : Nat) = (5 ^ d : Nat) * 2 ^ (d : Int) := by
  rw [Int.natAbs_pow]
  push_cast
  rw [div_one, zpow_natCast, ← mul_pow]
  norm_num

/-- The powers of ten that are doubles. -/
theorem ofInt_ten_pow {d : Nat} (hd : d < 23) :
    isNegative (ofInt (10 ^ d)) = false ∧ (ofInt (10 ^ d)).isFinite = true
      ∧ size (ofInt (10 ^ d)) = (10 ^ d : Nat) := by
  have hsign : decide ((10 : Int) ^ d < 0) = false := by
    rw [decide_eq_false_iff_not, not_lt]
    positivity
  have hfive : 5 ^ d < 2 ^ 53 :=
    lt_of_le_of_lt (Nat.pow_le_pow_right (by decide) (Nat.le_of_lt_succ hd)) (by decide)
  have hquotient := ten_pow_quotient d
  rw [ofInt, hsign]
  refine ⟨isNegative_nearest _ _ _,
    isFinite_nearest _ Nat.one_pos (lt_of_exact hquotient hfive (by omega)), ?_⟩
  rw [size_nearest_of_exact _ Nat.one_pos hquotient hfive (by unfold minExponent; omega)
    (by omega), Int.natAbs_pow]
  simp

theorem atLeast_ofInt_ten_pow {d : Nat} (hd : d < 23) : AtLeast (ofInt (10 ^ d)) (10 ^ d) := by
  obtain ⟨hsign, hfinite, hsize⟩ := ofInt_ten_pow hd
  refine ⟨hsign, isNaN_of_isFinite hfinite, fun _ => ?_⟩
  rw [hsize]
  exact_mod_cast le_refl _

/-- The power of ten that is computed for many places. -/
theorem atLeast_powerBySquaring_ten {d : Nat} (hd : 20 ≤ d) :
    AtLeast (powerBySquaring 10.0 d) (2 ^ 66) := by
  rcases Nat.lt_or_ge d 23 with hfew | hmany
  · rw [powerBySquaring_ten d hfew]
    refine (atLeast_ofInt_ten_pow hfew).mono ?_
    calc (2 : ℚ) ^ 66 ≤ 10 ^ 20 := by norm_num
      _ ≤ 10 ^ d := pow_le_pow_right₀ (by norm_num) hd
  · have hone : (1.0 : Float) = ofInt (10 ^ 0) := by decide +kernel
    have hten : (10.0 : Float) = ofInt (10 ^ 1) := by decide +kernel
    have hr : AtLeast 1.0 (2 ^ 0) := by
      rw [hone]
      exact (atLeast_ofInt_ten_pow (by decide)).mono (by norm_num)
    have ha : AtLeast 10.0 (2 ^ 3) := by
      rw [hten]
      exact (atLeast_ofInt_ten_pow (by decide)).mono (by norm_num)
    refine (hr.powerBySquaring_go ha d).mono ?_
    exact pow_le_pow_right₀ one_le_two (by omega)

end FlatLisp.Binary64
