/-
FlatLisp.Proofs.FloatArithmetic — products and quotients of doubles are rounded once.

The library multiplies and divides doubles by their significands and keeps, of all
the places that it drops, the first one and whether any other was set. These two
bits are enough to round half to even (`roundedMantissa_extended`), so the double
that comes out is the one nearest to the exact product (`mul_eq_nearest`) or
quotient (`div_eq_nearest`). What is needed of the operands is that enough places
are there to begin with: the product of two canonical significands has them unless
both are subnormal, and a quotient is computed with enough of them.
-/
import FlatLisp.Proofs.FloatBits
import FlatLisp.Proofs.NearestMagnitude
import Mathlib

namespace FlatLisp.Binary64
open Float.Model (Format UnpackedFloat totalExponent)
open Float.Model.UnpackedFloat

/-! ## Residual bits -/

/-- The extended mantissa that stands for a quotient. -/
def extended (num den : Nat) : ExtendedMantissa where
  mantissa := num / den
  roundBit := den ≤ 2 * (num % den)
  stickyBit := num % den ≠ 0 ∧ 2 * (num % den) ≠ den

theorem extended_one (n : Nat) : extended n 1 = ⟨n, false, false⟩ := by
  simp [extended, Nat.mod_one]

theorem shiftRightOne_extended {den : Nat} (hd : 0 < den) (num : Nat) :
    (extended num den).shiftRightOne = extended num (2 * den) := by
  have hdiv : num / (2 * den) = num / den / 2 := by
    rw [Nat.mul_comm, Nat.div_div_eq_div_mul]
  have hmod : num % (2 * den) = den * (num / den % 2) + num % den := by
    rw [Nat.mul_comm, Nat.mod_mul, Nat.add_comm]
  have hlt : num % den < den := Nat.mod_lt num hd
  unfold extended ExtendedMantissa.shiftRightOne
  rw [hdiv, hmod, ExtendedMantissa.mk.injEq]
  refine ⟨rfl, ?_, ?_⟩
  · rw [Bool.eq_iff_iff, bne_iff_ne, decide_eq_true_iff]
    rcases Nat.mod_two_eq_zero_or_one (num / den) with hbit | hbit
    · rw [hbit]
      omega
    · rw [hbit]
      omega
  · rw [Bool.eq_iff_iff, Bool.or_eq_true, decide_eq_true_iff, decide_eq_true_iff,
      decide_eq_true_iff]
    rcases Nat.mod_two_eq_zero_or_one (num / den) with hbit | hbit
    · rw [hbit]
      omega
    · rw [hbit]
      omega

theorem shiftRight_extended {den : Nat} (hd : 0 < den) (num n : Nat) :
    extended num den >>> n = extended num (den <<< n) := by
  show n.repeat ExtendedMantissa.shiftRightOne (extended num den) = _
  induction n with
  | zero => rfl
  | succ n ih =>
    rw [Nat.repeat, ih, shiftRightOne_extended (Nat.shiftLeft_pos_iff.mpr hd), Nat.shiftLeft_succ]

/-- Rounding by the residual bits is rounding half to even. -/
theorem roundedMantissa_extended {den : Nat} (hd : 0 < den) (num : Nat) :
    (extended num den).roundedMantissa = roundHalfEven num den := by
  have hlt : num % den < den := Nat.mod_lt num hd
  unfold roundHalfEven ExtendedMantissa.roundedMantissa extended
  dsimp only
  by_cases hround : den ≤ 2 * (num % den)
  · rw [if_neg (by omega)]
    by_cases hsticky : num % den ≠ 0 ∧ 2 * (num % den) ≠ den
    · rw [if_pos (by omega)]
      simp [hround, hsticky, ExtendedMantissa.accuracy, Accuracy.roundToNearestEven]
    · rw [if_neg (by omega)]
      simp only [hround, hsticky, decide_true, decide_false, ExtendedMantissa.accuracy,
        Accuracy.roundToNearestEven]
      split <;> omega
  · rw [if_pos (by omega)]
    by_cases hsticky : num % den ≠ 0 ∧ 2 * (num % den) ≠ den
    · simp [hround, hsticky, ExtendedMantissa.accuracy, Accuracy.roundToNearestEven]
    · simp [hround, hsticky, ExtendedMantissa.accuracy, Accuracy.roundToNearestEven]

/-- The accuracy of an integer part by what remains. -/
theorem ofMantissaAndAccuracy_fraction {den : Nat} (hd : 0 < den) (num : Nat) :
    ExtendedMantissa.ofMantissaAndAccuracy (num / den) (accuracyOfFraction (num % den) den)
      = extended num den := by
  have hlt : num % den < den := Nat.mod_lt num hd
  unfold accuracyOfFraction extended
  by_cases hzero : num % den = 0
  · rw [if_pos hzero]
    simp [ExtendedMantissa.ofMantissaAndAccuracy, hzero]
    omega
  · rw [if_neg hzero]
    rcases lt_trichotomy (2 * (num % den)) den with h | h | h
    · rw [compare_lt_iff_lt.mpr h]
      simp [ExtendedMantissa.ofMantissaAndAccuracy]
      omega
    · rw [compare_eq_iff_eq.mpr h]
      simp [ExtendedMantissa.ofMantissaAndAccuracy]
      omega
    · rw [compare_gt_iff_gt.mpr h]
      simp [ExtendedMantissa.ofMantissaAndAccuracy]
      omega

theorem ofMantissaAndAccuracy_exact (n : Nat) :
    ExtendedMantissa.ofMantissaAndAccuracy n .exact = extended n 1 :=
  (extended_one n).symm

/-! ## Packing -/

theorem toNat_packComponents (negative : Bool) (exponent : BitVec Format.binary64.exponentBits)
    (mantissa : BitVec Format.binary64.mantissaBitsWithoutImplicit) :
    (packComponents Format.binary64 (signOf negative) exponent mantissa).toNat
      = signPart negative + exponent.toNat * hiddenBit + mantissa.toNat := by
  have hE : exponent.toNat < 2048 := exponent.isLt
  have hM : mantissa.toNat < 2 ^ 52 := mantissa.isLt
  unfold packComponents
  rw [BitVec.toNat_append, BitVec.toNat_append, ← Nat.shiftLeft_add_eq_or_of_lt hM,
    ← Nat.shiftLeft_add_eq_or_of_lt exponent.isLt, Nat.shiftLeft_eq, Nat.shiftLeft_eq]
  unfold hiddenBit signPart signBit
  cases negative with
  | false => simp [signOf, Sign.toBitVec]
  | true =>
    simp [signOf, Sign.toBitVec]
    omega

/-- A zero is packed into its sign. -/
theorem toNat_pack_zero (negative : Bool) :
    (pack Format.binary64 (.zero (signOf negative))).toNat = signPart negative := by
  show (packComponents Format.binary64 (signOf negative) 0 0).toNat = _
  rw [toNat_packComponents]
  simp

/-- A canonical magnitude is packed into its pattern, or into that of infinity if it has
none. -/
theorem toNat_pack_finite (negative : Bool) {m : Magnitude} (hm : m.IsCanonical)
    (hpos : 0 < m.significand) :
    (pack Format.binary64 (.finite (signOf negative) m.significand m.exponent hpos)).toNat
      = signPart negative + min m.bits infinityBits := by
  have hlt := hm.significand_lt
  have hmin := hm.minExponent_le
  have hlog : m.significand.log2 + 1 = 53 ↔ 2 ^ 52 ≤ m.significand := by
    have hlog2 := Nat.log2_eq_iff (n := m.significand) (k := 52) (by omega)
    omega
  show (if 2048 ≤ (m.exponent + 1023 + 52).toNat + 1 then packedInfinity _ _
    else if m.significand.log2 + 1 = 53 then packComponents _ _ _ _
    else packComponents _ _ _ _ : BitVec Format.binary64.numBits).toNat = _
  unfold Magnitude.bits
  unfold minExponent at hmin
  split
  · rename_i hlarge
    have hfull := hm.full.resolve_left (by unfold minExponent; omega)
    show (packComponents Format.binary64 (signOf negative) (-1#11) 0#52).toNat = _
    rw [toNat_packComponents]
    show signPart negative + 2047 * hiddenBit + 0 = _
    unfold hiddenBit infinityBits minExponent
    omega
  · rename_i hsmall
    split
    · rename_i hnormal
      rw [hlog] at hnormal
      rw [toNat_packComponents, BitVec.toNat_ofNat, BitVec.toNat_ofNat]
      show signPart negative + (m.exponent + 1023 + 52).toNat % 2048 * hiddenBit
        + m.significand % 2 ^ 52 = _
      unfold hiddenBit infinityBits minExponent
      omega
    · rename_i hsubnormal
      rw [hlog] at hsubnormal
      have hexponent := hm.full.resolve_right hsubnormal
      rw [toNat_packComponents, BitVec.toNat_ofNat]
      show signPart negative + 0 * hiddenBit + m.significand % 2 ^ 52 = _
      rw [hexponent]
      unfold hiddenBit infinityBits
      omega

/-- A canonical magnitude is packed into its pattern, also if it is zero. -/
theorem toNat_pack_magnitude (negative : Bool) {m : Magnitude} (hm : m.IsCanonical) :
    (pack Format.binary64 (if h : m.significand = 0 then .zero (signOf negative)
      else .finite (signOf negative) m.significand m.exponent (Nat.pos_of_ne_zero h))).toNat
      = signPart negative + min m.bits infinityBits := by
  split
  · rename_i hzero
    have hbits := hm.bits_pos_iff
    have h0 : m.bits = 0 := by omega
    rw [toNat_pack_zero, h0]
    simp
  · exact toNat_pack_finite negative hm _

/-! ## Rounding -/

theorem targetExponent_eq (total : Int) :
    Format.binary64.targetExponent total = max (total - 53) minExponent :=
  rfl

/-- The logarithm of a quotient is read off its integer part. -/
theorem log_of_integerPart {num den : Nat} (hd : 0 < den) (h : 1 ≤ num / den) (e : Int) :
    Int.log 2 ((num : ℚ) / den * 2 ^ e) = (num / den).log2 + e := by
  have hdq : (0 : ℚ) < den := by exact_mod_cast hd
  have hlow : ((2 ^ (num / den).log2 : Nat) : ℚ) ≤ num / den := by
    rw [le_div_iff₀ hdq]
    have := Nat.log2_self_le (n := num / den) (by omega)
    exact_mod_cast (Nat.mul_le_mul_right den this).trans (Nat.div_mul_le_self num den)
  have hhigh : (num : ℚ) / den < ((2 ^ ((num / den).log2 + 1) : Nat) : ℚ) := by
    rw [div_lt_iff₀ hdq]
    have := Nat.lt_log2_self (n := num / den)
    exact_mod_cast (Nat.div_lt_iff_lt_mul hd).mp this
  have hpow : (0 : ℚ) < 2 ^ e := by positivity
  refine log_eq (mul_pos (lt_of_lt_of_le (by positivity) hlow) hpow) ?_ ?_
  · rw [zpow_add₀ two_ne_zero, zpow_natCast]
    exact mul_le_mul_of_nonneg_right (by exact_mod_cast hlow) hpow.le
  · rw [add_right_comm, zpow_add₀ two_ne_zero]
    refine mul_lt_mul_of_pos_right ?_ hpow
    exact_mod_cast hhigh

/-- With enough places in the integer part, the exponent that the library aims at is that of
the quotient. -/
theorem targetExponent_of_full {num den : Nat} (hn : 0 < num) (hd : 0 < den) {e : Int}
    (hfull : 2 ^ 52 ≤ num / den ∨ e ≤ minExponent) :
    Format.binary64.targetExponent (totalExponent (num / den) e)
        = roundingExponent ((num : ℚ) / den * 2 ^ e) ∧
      e ≤ roundingExponent ((num : ℚ) / den * 2 ^ e) := by
  rw [targetExponent_eq]
  unfold roundingExponent totalExponent
  rcases Nat.eq_zero_or_pos (num / den) with hzero | hpos
  · -- nothing in the integer part, which is possible below the least exponent only
    have he : e ≤ minExponent := hfull.resolve_left (by omega)
    have hq : (0 : ℚ) < num / den * 2 ^ e := by positivity
    have hlog : Int.log 2 ((num : ℚ) / den * 2 ^ e) < e := by
      rw [log_lt_iff hq]
      have hlt : (num : ℚ) / den < 1 := by
        rw [div_lt_one (by exact_mod_cast hd)]
        exact_mod_cast (Nat.div_eq_zero_iff_lt hd).mp hzero
      exact mul_lt_of_lt_one_left (by positivity) hlt
    have hlog2 : (0 : Nat).log2 = 0 := by decide
    rw [hzero, hlog2]
    omega
  · rw [log_of_integerPart hd hpos]
    have hplaces : 2 ^ 52 ≤ num / den → 52 ≤ (num / den).log2 :=
      (Nat.le_log2 (by omega)).mpr
    omega

/-- After rounding, the library makes room for the place that a carry has filled. -/
theorem carried_eq {r shift : Nat} {t : Int} (hr : r ≤ 2 ^ 53) (hmin : minExponent ≤ t)
    (hshift : shift = (max (totalExponent r t - 53) minExponent - t).toNat) :
    (⟨(extended r (1 <<< shift)).mantissa, t + (shift : Int)⟩ : Magnitude) = .carried r t := by
  unfold totalExponent at hshift
  unfold Magnitude.carried
  split
  · rename_i hlt
    have hlog : r.log2 ≤ 52 := by
      rcases Nat.eq_zero_or_pos r with rfl | hpos
      · decide
      · exact Nat.le_of_lt_succ ((Nat.log2_lt hpos.ne').mpr hlt)
    have hnone : shift = 0 := by omega
    rw [hnone, Int.natCast_zero, Int.add_zero]
    exact congrArg (Magnitude.mk · t) (Nat.div_one r)
  · have hfilled : r = 2 ^ 53 := by omega
    subst hfilled
    have hlog : (2 ^ 53 : Nat).log2 = 53 := Nat.log2_two_pow
    have hone : shift = 1 := by omega
    rw [hone]
    rfl

theorem toNat_pack_carried (negative : Bool) {r shift : Nat} {t : Int} (hr : r ≤ 2 ^ 53)
    (hmin : minExponent ≤ t) (hfull : t ≠ minExponent → 2 ^ 52 ≤ r)
    (hshift : shift = (max (totalExponent r t - 53) minExponent - t).toNat) :
    (pack Format.binary64 (
      if h : (extended r (1 <<< shift)).mantissa = 0 then .zero (signOf negative)
      else .finite (signOf negative) (extended r (1 <<< shift)).mantissa (t + (shift : Int))
        (Nat.pos_of_ne_zero h))).toNat
      = signPart negative + min (r + (t - minExponent).toNat * hiddenBit) infinityBits := by
  have hpack := toNat_pack_magnitude negative (Magnitude.isCanonical_carried hmin hfull)
  rw [← Magnitude.bits_carried hr hmin, ← hpack, ← carried_eq hr hmin hshift]

/-- The library's rounding of a quotient with enough places in its integer part. -/
theorem toNat_pack_round (negative : Bool) {num den N D : Nat} (hN : 0 < N) (hd : 0 < den)
    (hD : 0 < D) {e : Int} (hvalue : (N : ℚ) / D = num / den * 2 ^ e)
    (hfull : 2 ^ 52 ≤ num / den ∨ e ≤ minExponent) :
    (pack Format.binary64 (roundWithAccuracy Format.binary64 (signOf negative) (num / den) e
      (accuracyOfFraction (num % den) den))).toNat
      = signPart negative + nearestBits N D := by
  have hn : 0 < num := by
    rcases Nat.eq_zero_or_pos num with rfl | hn
    · have hq : (0 : ℚ) < N / D := by positivity
      simp [hvalue] at hq
    · exact hn
  obtain ⟨htarget, he⟩ := targetExponent_of_full hn hd hfull
  rw [← hvalue] at htarget he
  have hr := significandAt_roundingExponent_le hN hD
  have hr' := le_significandAt_roundingExponent hN hD
  have hmin := minExponent_le_roundingExponent ((N : ℚ) / D)
  have hnearest : nearestBits N D = roundedAt N D (roundingExponent ((N : ℚ) / D)) :=
    nearestBits_eq hN hD
  generalize roundingExponent ((N : ℚ) / D) = t at *
  have hround : roundHalfEven num (den <<< (t - e).toNat) = significandAt N D t := by
    refine roundHalfEven_of_quotient (Nat.shiftLeft_pos_iff.mpr hd)
      (Nat.shiftLeft_pos_iff.mpr hD) ?_
    rw [shifted_quotient N hD, hvalue, Nat.shiftLeft_eq, Nat.cast_mul, Nat.cast_pow,
      Nat.cast_ofNat, ← zpow_natCast, Int.toNat_of_nonneg (by omega), zpow_sub₀ two_ne_zero]
    field_simp
  have hexponent : e + ((t - e).toNat : Int) = t := by omega
  have hbits : nearestBits N D
      = min (significandAt N D t + (t - minExponent).toNat * hiddenBit) infinityBits := hnearest
  unfold roundWithAccuracy shiftToTargetExponent shiftToExponent
  dsimp only
  rw [htarget, ofMantissaAndAccuracy_fraction hd, shiftRight_extended hd,
    roundedMantissa_extended (Nat.shiftLeft_pos_iff.mpr hd), hround, ofMantissaAndAccuracy_exact,
    shiftRight_extended Nat.one_pos, hexponent, targetExponent_eq, hbits]
  exact toNat_pack_carried negative hr hmin hr' rfl

/-! ## Products and quotients of magnitudes -/

theorem signOf_mul (a b : Bool) : signOf a * signOf b = signOf (a != b) := by
  cases a <;> cases b <;> rfl

theorem signOf_div (a b : Bool) : signOf a / signOf b = signOf (a != b) := by
  cases a <;> cases b <;> rfl

section

variable {m n : Magnitude}

/-- The library's product of magnitudes is rounded correctly. -/
theorem toNat_pack_mul (a b : Bool) (hm : m.IsCanonical) (hn : n.IsCanonical)
    (hmpos : 0 < m.significand) (hnpos : 0 < n.significand) :
    (pack Format.binary64 (UnpackedFloat.mul Format.binary64
      (.finite (signOf a) m.significand m.exponent hmpos)
      (.finite (signOf b) n.significand n.exponent hnpos))).toNat
      = signPart (a != b)
        + nearestBits (m.numerator * n.numerator) (m.denominator * n.denominator) := by
  have hvalue : ((m.numerator * n.numerator : Nat) : ℚ) / (m.denominator * n.denominator : Nat)
      = (m.significand * n.significand : Nat) / (1 : Nat) * 2 ^ (m.exponent + n.exponent) := by
    rw [Nat.cast_mul, Nat.cast_mul, mul_div_mul_comm, m.numerator_div_denominator,
      n.numerator_div_denominator, Magnitude.value, Magnitude.value, zpow_add₀ two_ne_zero]
    push_cast
    ring
  have hfull : 2 ^ 52 ≤ m.significand * n.significand / 1
      ∨ m.exponent + n.exponent ≤ minExponent := by
    rw [Nat.div_one]
    rcases hm.full with hmin | hfull
    · rcases hn.full with hmin' | hfull'
      · right
        rw [hmin, hmin']
        decide
      · exact .inl (hfull'.trans (Nat.le_mul_of_pos_left _ hmpos))
    · exact .inl (hfull.trans (Nat.le_mul_of_pos_right _ hnpos))
  have hround := toNat_pack_round (a != b)
    (Nat.mul_pos (Magnitude.numerator_pos hmpos) (Magnitude.numerator_pos hnpos)) Nat.one_pos
    (Nat.mul_pos m.denominator_pos n.denominator_pos) hvalue hfull
  rw [Nat.div_one, Nat.mod_one, ← signOf_mul] at hround
  exact hround

/-- The library's quotient of magnitudes is rounded correctly. -/
theorem toNat_pack_div (a b : Bool) (hmpos : 0 < m.significand) (hnpos : 0 < n.significand) :
    (pack Format.binary64 (UnpackedFloat.div Format.binary64
      (.finite (signOf a) m.significand m.exponent hmpos)
      (.finite (signOf b) n.significand n.exponent hnpos))).toNat
      = signPart (a != b)
        + nearestBits (m.numerator * n.denominator) (m.denominator * n.numerator) := by
  show (pack Format.binary64 (roundWithAccuracy Format.binary64 (signOf a / signOf b)
    (m.significand <<< _ / n.significand) _ (accuracyOfFraction _ _))).toNat = _
  rw [signOf_div, targetExponent_eq]
  unfold totalExponent
  generalize ht : min (m.exponent - n.exponent)
    (max ((m.significand.log2 : Int) + 1 + m.exponent - (n.significand.log2 + 1 + n.exponent) - 53)
      minExponent) = t
  have hle : t ≤ m.exponent - n.exponent := by omega
  refine toNat_pack_round (a != b)
    (Nat.mul_pos (Magnitude.numerator_pos hmpos) n.denominator_pos) hnpos
    (Nat.mul_pos m.denominator_pos (Magnitude.numerator_pos hnpos)) ?_ ?_
  · rw [Nat.cast_mul, Nat.cast_mul, mul_div_mul_comm, m.numerator_div_denominator,
      ← inv_div, n.numerator_div_denominator, Magnitude.value, Magnitude.value, Nat.shiftLeft_eq,
      Nat.cast_mul, Nat.cast_pow, Nat.cast_ofNat, ← zpow_natCast (2 : ℚ),
      Int.toNat_of_nonneg (by omega), zpow_sub₀ two_ne_zero, zpow_sub₀ two_ne_zero]
    field_simp
  · rcases le_or_gt t minExponent with hmin | hmin
    · exact .inr hmin
    · -- the dividend is shifted until the quotient has 53 places
      left
      have hplaces : n.significand.log2 + 53
          ≤ m.significand.log2 + (m.exponent - n.exponent - t).toNat := by
        omega
      rw [Nat.le_div_iff_mul_le hnpos, Nat.shiftLeft_eq]
      calc 2 ^ 52 * n.significand ≤ 2 ^ 52 * 2 ^ (n.significand.log2 + 1) :=
            Nat.mul_le_mul_left _ Nat.lt_log2_self.le
        _ = 2 ^ (n.significand.log2 + 53) := by rw [← Nat.pow_add]; congr 1; omega
        _ ≤ 2 ^ (m.significand.log2 + (m.exponent - n.exponent - t).toNat) :=
            Nat.pow_le_pow_right (by decide) hplaces
        _ = 2 ^ m.significand.log2 * 2 ^ (m.exponent - n.exponent - t).toNat := Nat.pow_add _ _ _
        _ ≤ m.significand * 2 ^ (m.exponent - n.exponent - t).toNat :=
            Nat.mul_le_mul_right _ (Nat.log2_self_le hmpos.ne')

end

/-! ## Products and quotients of doubles -/

/-- What a finite double is taken apart into. -/
theorem unpack_of_isFinite {x : Float} (hx : x.isFinite = true) :
    x.toModel.unpack =
      if h : (Magnitude.ofFloat x).significand = 0 then .zero (signOf (isNegative x))
      else .finite (signOf (isNegative x)) (Magnitude.ofFloat x).significand
        (Magnitude.ofFloat x).exponent (Nat.pos_of_ne_zero h) := by
  rw [isFinite_iff] at hx
  rw [unpack_eq_form]
  split
  · rename_i h
    exact form_zero _ hx h
  · rename_i h
    exact form_finite _ hx rfl (Nat.pos_of_ne_zero h)

theorem eq_nearest {x : Float} {negative : Bool} {num den : Nat}
    (h : x.toBits.toNat = signPart negative + nearestBits num den) : x = nearest negative num den :=
  eq_ofSignAndBits (nearestBits_le_infinityBits num den) h

/-- The product of finite doubles is the double nearest to it. -/
theorem mul_eq_nearest {x y : Float} (hx : x.isFinite = true) (hy : y.isFinite = true) :
    x * y = nearest (isNegative x != isNegative y)
      ((Magnitude.ofFloat x).numerator * (Magnitude.ofFloat y).numerator)
      ((Magnitude.ofFloat x).denominator * (Magnitude.ofFloat y).denominator) := by
  refine eq_nearest ?_
  show (pack Format.binary64 (UnpackedFloat.mul Format.binary64 x.toModel.unpack
    y.toModel.unpack)).toNat = _
  rw [unpack_of_isFinite hx, unpack_of_isFinite hy]
  split
  · rename_i h0
    rw [Magnitude.numerator_of_zero h0, Nat.zero_mul, nearestBits_zero, Nat.add_zero,
      ← toNat_pack_zero, ← signOf_mul]
    split <;> rfl
  · split
    · rename_i h0
      rw [Magnitude.numerator_of_zero h0, Nat.mul_zero, nearestBits_zero, Nat.add_zero,
        ← toNat_pack_zero, ← signOf_mul]
      rfl
    · exact toNat_pack_mul _ _ (Magnitude.isCanonical_ofBits _) (Magnitude.isCanonical_ofBits _) _ _

/-- The quotient of finite doubles is the double nearest to it. -/
theorem div_eq_nearest {x y : Float} (hx : x.isFinite = true) (hy : y.isFinite = true)
    (hpos : 0 < (Magnitude.ofFloat y).significand) :
    x / y = nearest (isNegative x != isNegative y)
      ((Magnitude.ofFloat x).numerator * (Magnitude.ofFloat y).denominator)
      ((Magnitude.ofFloat x).denominator * (Magnitude.ofFloat y).numerator) := by
  refine eq_nearest ?_
  show (pack Format.binary64 (UnpackedFloat.div Format.binary64 x.toModel.unpack
    y.toModel.unpack)).toNat = _
  rw [unpack_of_isFinite hx, unpack_of_isFinite hy, dif_neg hpos.ne']
  split
  · rename_i h0
    rw [Magnitude.numerator_of_zero h0, Nat.zero_mul, nearestBits_zero, Nat.add_zero,
      ← toNat_pack_zero, ← signOf_div]
    rfl
  · exact toNat_pack_div _ _ _ _

end FlatLisp.Binary64
