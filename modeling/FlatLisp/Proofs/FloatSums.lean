/-
FlatLisp.Proofs.FloatSums — sums of doubles as sums of integers.

All finite doubles are multiples of the least positive one, so they are integers in that
unit (`units`), short ones in a range (`InRange`). The library rounds the exact sum of two
doubles once (`add_eq_nearest`), and in units that is a rounded integer
(`isFinite_add_iff`, `units_add`), or an infinity out of range. A double is its units, and
a sign where it is zero (`eq_of_units`).

What rounding takes from a sum is computed without rounding, if the summand that is not
smaller comes first (`units_error`). Out of range the computed error is the other infinity
(`exists_isLost_of_not_inRange`), and no further sum gets rid of it (`IsLost`).
-/
import FlatLisp.Proofs.FloatDifferences
import FlatLisp.Proofs.FloatOrder
import FlatLisp.Proofs.Expansions
import Mathlib

namespace FlatLisp.Binary64
open Float.Model (Format UnpackedFloat)
open Float.Model.UnpackedFloat

/-! ## Units -/

/-- The least positive double. -/
def unit : ℚ :=
  2 ^ minExponent

theorem unit_pos : 0 < unit := by
  unfold unit
  positivity

/-- A finite double as a multiple of the least positive one. -/
def units (x : Float) : Int :=
  (if isNegative x then -1 else 1) * ((Magnitude.ofFloat x).significand
    * 2 ^ ((Magnitude.ofFloat x).exponent - minExponent).toNat : Nat)

theorem exactValue_eq_units (x : Float) : exactValue x = units x * unit := by
  have hmin : minExponent ≤ (Magnitude.ofFloat x).exponent :=
    (Magnitude.isCanonical_ofBits _).minExponent_le
  have hpow := pow_toNat_mul hmin
  rw [exactValue_eq, units, unit, ← hpow]
  push_cast
  ring

theorem natAbs_units (x : Float) : (units x).natAbs = (Magnitude.ofFloat x).significand
    * 2 ^ ((Magnitude.ofFloat x).exponent - minExponent).toNat := by
  rw [units, Int.natAbs_mul, Int.natAbs_natCast]
  split <;> simp

theorem isShort_units (x : Float) : IsShort (units x) :=
  ⟨_, _, (Magnitude.isCanonical_ofBits _).significand_lt, natAbs_units x⟩

theorem units_mul_unit_inj {m n : Int} (h : (m : ℚ) * unit = n * unit) : m = n :=
  Int.cast_injective (mul_right_cancel₀ unit_pos.ne' h)

theorem abs_mul_unit (n : Int) : |(n : ℚ) * unit| = n.natAbs * unit := by
  rw [abs_mul, abs_of_pos unit_pos, Nat.cast_natAbs, Int.cast_abs]

theorem cast_overflowBound_eq_units :
    (overflowBound : ℚ) = (2 ^ (54 + topPlace) - 2 ^ topPlace) * unit := by
  have hpow : ∀ k : Nat, (2 : ℚ) ^ k * unit = 2 ^ ((k : Int) + minExponent) := by
    intro k
    rw [unit, zpow_add₀ two_ne_zero, zpow_natCast]
  rw [sub_mul, hpow, hpow]
  exact cast_two_pow_sub (by decide)

theorem not_inRange_iff {n : Int} : ¬ InRange n ↔ (overflowBound : ℚ) ≤ |(n : ℚ) * unit| := by
  rw [cast_overflowBound_eq_units, abs_mul_unit, mul_le_mul_iff_of_pos_right unit_pos,
    sub_le_iff_le_add, InRange, not_lt]
  exact_mod_cast Iff.rfl

/-! ## Nearest doubles in units -/

section

variable {n : Int} {num den : Nat}

theorem isFinite_nearest_iff (negative : Bool) (hd : 0 < den)
    (h : |(n : ℚ) * unit| = num / den) :
    (nearest negative num den).isFinite = true ↔ InRange n := by
  rw [isFinite_iff, magnitudeBits_nearest, ← not_iff_not, not_inRange_iff, h,
    ← nearestBits_eq_infinityBits_iff hd, not_lt]
  exact ⟨(nearestBits_le_infinityBits num den).antisymm, ge_of_eq⟩

theorem roundingExponent_units (hn : n ≠ 0) :
    roundingExponent |(n : ℚ) * unit| = minExponent + (n.natAbs.log2 - 52 : Nat) := by
  have hpos : 0 < n.natAbs := Int.natAbs_pos.mpr hn
  have hlog : Int.log 2 |(n : ℚ) * unit| = n.natAbs.log2 + minExponent := by
    have h : Int.log 2 ((n.natAbs : ℚ) / (1 : Nat) * 2 ^ minExponent)
        = (n.natAbs / 1).log2 + minExponent :=
      log_of_integerPart Nat.one_pos (by rwa [Nat.div_one]) minExponent
    rwa [Nat.cast_one, div_one, Nat.div_one, ← unit, ← abs_mul_unit] at h
  rw [roundingExponent, hlog]
  omega

theorem size_nearest_units (negative : Bool) (hd : 0 < den) (hrange : InRange n)
    (h : |(n : ℚ) * unit| = num / den) :
    size (nearest negative num den) = roundedNat n.natAbs * unit := by
  have hfinite := (isFinite_nearest_iff negative hd h).mpr hrange
  rw [isFinite_iff, magnitudeBits_nearest] at hfinite
  rcases Nat.eq_zero_or_pos num with rfl | hnum
  · rw [Nat.cast_zero, zero_div, abs_mul_unit, mul_eq_zero_iff_right unit_pos.ne'] at h
    rw [size_nearest_zero, Nat.cast_eq_zero.mp h]
    simp [roundedNat, roundHalfEven_of_lt]
  · have hn : n ≠ 0 := by
      rintro rfl
      rw [Int.cast_zero, zero_mul, abs_zero] at h
      have : (0 : ℚ) < num / den := by positivity
      exact this.ne h
    have hsig : significandAt num den (roundingExponent ((num : ℚ) / den))
        = roundHalfEven n.natAbs (2 ^ (n.natAbs.log2 - 52)) := by
      refine roundHalfEven_of_quotient (Nat.shiftLeft_pos_iff.mpr hd) (Nat.two_pow_pos _) ?_
      rw [shifted_quotient num hd, ← h, roundingExponent_units hn, abs_mul_unit, unit,
        zpow_add₀ two_ne_zero, zpow_natCast, Nat.cast_pow, Nat.cast_ofNat]
      field_simp
    rw [size_nearest negative hnum hd hfinite, value_nearestMagnitude hnum hd, hsig, ← h,
      roundingExponent_units hn, roundedNat, zpow_add₀ two_ne_zero, zpow_natCast, unit]
    push_cast
    ring

/-- Rounding to a double is rounding to a short integer. -/
theorem units_nearest {negative : Bool} (hsign : n ≠ 0 → negative = decide (n < 0)) (hd : 0 < den)
    (hrange : InRange n) (h : |(n : ℚ) * unit| = num / den) :
    units (nearest negative num den) = rounded n := by
  refine units_mul_unit_inj ?_
  rw [← exactValue_eq_units, exactValue, isNegative_nearest,
    size_nearest_units negative hd hrange h, rounded]
  rcases lt_trichotomy n 0 with hn | rfl | hn
  · rw [hsign hn.ne, if_pos (decide_eq_true hn), Int.sign_eq_neg_one_of_neg hn]
    push_cast
    ring
  · have hzero : roundedNat 0 = 0 := by decide
    simp [hzero]
  · rw [hsign hn.ne', if_neg (by simpa using hn.le), Int.sign_eq_one_of_pos hn]
    push_cast
    ring

end

/-! ## A double from its units -/

theorem abs_exactValue_eq_div (x : Float) : |exactValue x|
    = ((Magnitude.ofFloat x).numerator : ℚ) / (Magnitude.ofFloat x).denominator := by
  rw [abs_exactValue, size_eq_div]

/-- A finite double is nearest to its own size. -/
theorem magnitudeBits_eq_nearestBits {x : Float} (hx : x.isFinite = true) {num den : Nat}
    (hd : 0 < den) (h : |exactValue x| = num / den) : magnitudeBits x = nearestBits num den := by
  rw [abs_exactValue_eq_div, div_eq_div_iff
    (by exact_mod_cast (Magnitude.denominator_pos _).ne') (by exact_mod_cast hd.ne')] at h
  rw [← nearestBits_congr (Magnitude.denominator_pos _) hd (by exact_mod_cast h)]
  exact (nearestBits_ofBits (isFinite_iff.mp hx)).symm

section

variable {x y : Float}

theorem significand_eq_zero_iff : (Magnitude.ofFloat x).significand = 0 ↔ units x = 0 := by
  rw [← Int.natAbs_eq_zero, natAbs_units, Nat.mul_eq_zero]
  exact (or_iff_left (Nat.two_pow_pos _).ne').symm

theorem isNegative_of_units_ne_zero (h : units x ≠ 0) : isNegative x = decide (units x < 0) := by
  have hpos : 0 < (units x).natAbs := Int.natAbs_pos.mpr h
  rw [natAbs_units] at hpos
  rw [units]
  generalize (Magnitude.ofFloat x).significand * _ = m at hpos
  cases isNegative x
  · rw [eq_comm, decide_eq_false_iff_not, if_neg Bool.false_ne_true]
    omega
  · rw [eq_comm, decide_eq_true_iff, if_pos rfl]
    omega

theorem magnitudeBits_le_of_units (hx : x.isFinite = true) (hy : y.isFinite = true)
    (h : (units x).natAbs ≤ (units y).natAbs) : magnitudeBits x ≤ magnitudeBits y := by
  rw [magnitudeBits_eq_nearestBits hx (Magnitude.denominator_pos _) (abs_exactValue_eq_div x),
    magnitudeBits_eq_nearestBits hy (Magnitude.denominator_pos _) (abs_exactValue_eq_div y)]
  refine nearestBits_mono (Magnitude.denominator_pos _) (Magnitude.denominator_pos _) ?_
  have hle : |exactValue x| ≤ |exactValue y| := by
    rw [exactValue_eq_units, exactValue_eq_units, abs_mul_unit, abs_mul_unit]
    exact mul_le_mul_of_nonneg_right (by exact_mod_cast h) unit_pos.le
  rw [abs_exactValue_eq_div, abs_exactValue_eq_div, div_le_div_iff₀
    (by exact_mod_cast Magnitude.denominator_pos _)
    (by exact_mod_cast Magnitude.denominator_pos _)] at hle
  exact_mod_cast hle

theorem magnitudeBits_lt_iff_units (hx : x.isFinite = true) (hy : y.isFinite = true) :
    magnitudeBits x < magnitudeBits y ↔ (units x).natAbs < (units y).natAbs := by
  constructor
  · intro h
    by_contra hle
    exact (magnitudeBits_le_of_units hy hx (not_lt.mp hle)).not_gt h
  · intro h
    refine lt_of_le_of_ne (magnitudeBits_le_of_units hx hy h.le) fun heq => h.ne ?_
    rw [natAbs_units, natAbs_units, Magnitude.ofFloat, Magnitude.ofFloat, heq]

theorem magnitudeBits_eq_zero_iff (hx : x.isFinite = true) : magnitudeBits x = 0 ↔ units x = 0 := by
  have hlt : magnitudeBits x < signBit := (isFinite_iff.mp hx).trans (by decide)
  have hpos := (Magnitude.isCanonical_ofBits (magnitudeBits x)).bits_pos_iff
  rw [Magnitude.bits_ofBits hlt] at hpos
  rw [← significand_eq_zero_iff, Magnitude.ofFloat]
  omega

/-- The units of a double say all but the sign of a zero. -/
theorem eq_of_units (hx : x.isFinite = true) (hy : y.isFinite = true) (h : units x = units y)
    (hzero : units x = 0 → isNegative x = isNegative y) : x = y := by
  have hsign : isNegative x = isNegative y := by
    rcases eq_or_ne (units x) 0 with h0 | h0
    · exact hzero h0
    · rw [isNegative_of_units_ne_zero h0, isNegative_of_units_ne_zero (h ▸ h0), h]
  have hbits : magnitudeBits x = magnitudeBits y :=
    le_antisymm (magnitudeBits_le_of_units hx hy (by rw [h]))
      (magnitudeBits_le_of_units hy hx (by rw [h]))
  rw [← ofSignAndBits_magnitudeBits x, ← ofSignAndBits_magnitudeBits y, hsign, hbits]

theorem inRange_units (hx : x.isFinite = true) : InRange (units x) := by
  have h := magnitudeBits_eq_nearestBits hx (Magnitude.denominator_pos _) (abs_exactValue_eq_div x)
  have hfinite : (nearest (isNegative x) (Magnitude.ofFloat x).numerator
      (Magnitude.ofFloat x).denominator).isFinite = true := by
    rwa [isFinite_iff, magnitudeBits_nearest, ← h, ← isFinite_iff]
  rw [← isFinite_nearest_iff _ (Magnitude.denominator_pos _)]
  · exact hfinite
  · rw [← exactValue_eq_units, abs_exactValue_eq_div]

/-! ## Comparisons -/

/-- Finite doubles without their sign are in the order of their units. -/
theorem abs_lt_abs_iff (hx : x.isFinite = true) (hy : y.isFinite = true) :
    x.abs < y.abs ↔ (units x).natAbs < (units y).natAbs := by
  have place_abs : ∀ {z : Float}, z.isFinite = true →
      z.abs.isNaN = false ∧ place z.abs = magnitudeBits z := by
    intro z hz
    have hle := magnitudeBits_le_of_isNaN (isNaN_of_isFinite hz)
    rw [abs_eq (isNaN_of_isFinite hz), place, isNegative_ofSignAndBits false hle,
      magnitudeBits_ofSignAndBits false hle, ← Bool.not_eq_true, isNaN_iff,
      magnitudeBits_ofSignAndBits false hle]
    exact ⟨hle.not_gt, rfl⟩
  obtain ⟨hxnan, hxplace⟩ := place_abs hx
  obtain ⟨hynan, hyplace⟩ := place_abs hy
  rw [lt_iff_place hxnan hynan, hxplace, hyplace, Nat.cast_lt, magnitudeBits_lt_iff_units hx hy]

theorem bne_zero_iff (hx : x.isFinite = true) : (x != 0.0) = true ↔ units x ≠ 0 := by
  have hplace : place x = 0 ↔ magnitudeBits x = 0 := by
    rw [place]
    cases isNegative x <;> simp
  have hzero : place 0.0 = 0 := by decide
  rw [bne, Bool.not_eq_true', ← Bool.not_eq_true, beq_iff_place (isNaN_of_isFinite hx) rfl, hzero,
    hplace, magnitudeBits_eq_zero_iff hx]

/-! ## Negation -/

theorem isFinite_neg (hx : x.isFinite = true) : (-x).isFinite = true := by
  have hle := magnitudeBits_le_of_isNaN (isNaN_of_isFinite hx)
  rw [isFinite_iff, neg_eq (isNaN_of_isFinite hx), magnitudeBits_ofSignAndBits _ hle]
  exact isFinite_iff.mp hx

theorem units_neg (hx : x.isFinite = true) : units (-x) = -units x := by
  have hle := magnitudeBits_le_of_isNaN (isNaN_of_isFinite hx)
  rw [units, units, Magnitude.ofFloat, Magnitude.ofFloat, neg_eq (isNaN_of_isFinite hx),
    magnitudeBits_ofSignAndBits _ hle, isNegative_ofSignAndBits _ hle]
  cases isNegative x <;> simp

theorem sub_eq_add_neg_unpacked (u v : UnpackedFloat) :
    UnpackedFloat.sub Format.binary64 u v = UnpackedFloat.add Format.binary64 u v.neg := by
  cases u with
  | finite s m e hpos =>
    cases v with
    | finite s' m' e' hpos' =>
      have happly : ∀ n : Int, (-s').apply n = -s'.apply n := by
        intro n
        cases s'
        · exact (Int.neg_neg n).symm
        · rfl
      simp only [UnpackedFloat.sub, UnpackedFloat.add, UnpackedFloat.neg, happly]
      rfl
    | _ => rfl
  | _ => cases v <;> rfl

/-- A difference is the sum with the negated number. -/
theorem sub_eq_add_neg {x y : Float} (hy : y.isNaN = false) : x - y = x + -y := by
  have hle := magnitudeBits_le_of_isNaN hy
  have hneg : (-y).toModel.unpack = y.toModel.unpack.neg := by
    rw [unpack_eq_form, unpack_eq_form, neg_form, neg_eq hy, isNegative_ofSignAndBits _ hle,
      magnitudeBits_ofSignAndBits _ hle]
  rw [← Float.toBits_inj, ← UInt64.toNat_inj]
  show (pack Format.binary64 (UnpackedFloat.sub Format.binary64 x.toModel.unpack
      y.toModel.unpack)).toNat
    = (pack Format.binary64 (UnpackedFloat.add Format.binary64 x.toModel.unpack
      (-y).toModel.unpack)).toNat
  rw [sub_eq_add_neg_unpacked, hneg]

end

/-! ## Sums -/

section

variable {x y : Float}

theorem add_eq_of_form {negative : Bool} {bits : Nat} (hle : bits ≤ infinityBits)
    (h : UnpackedFloat.add Format.binary64 x.toModel.unpack y.toModel.unpack
      = form negative bits) : x + y = ofSignAndBits negative bits := by
  refine eq_ofSignAndBits hle ?_
  show (pack Format.binary64 (UnpackedFloat.add Format.binary64 x.toModel.unpack
    y.toModel.unpack)).toNat = _
  rw [h, toNat_pack_form _ hle]

/-- A finite double is nearest to its exact value, with its own sign. -/
theorem eq_nearest_of_units (hx : x.isFinite = true) {num den : Nat} (hd : 0 < den)
    (h : |(units x : ℚ) * unit| = num / den) : x = nearest (isNegative x) num den := by
  rw [nearest, ← magnitudeBits_eq_nearestBits hx hd (by rw [exactValue_eq_units, h]),
    ofSignAndBits_magnitudeBits]

/-- The significands of two doubles that are not zero are added as integers. -/
theorem add_finite_unpacked (hx : x.isFinite = true) (hy : y.isFinite = true)
    (hx0 : (Magnitude.ofFloat x).significand ≠ 0) (hy0 : (Magnitude.ofFloat y).significand ≠ 0) :
    ∃ (n e : Int), (n : ℚ) * 2 ^ e = ((units x + units y : Int) : ℚ) * unit ∧
      UnpackedFloat.add Format.binary64 x.toModel.unpack y.toModel.unpack
        = UnpackedFloat.normalize Format.binary64 n e .positive := by
  rw [unpack_of_isFinite hx, unpack_of_isFinite hy, dif_neg hx0, dif_neg hy0]
  refine ⟨_, _, ?_, rfl⟩
  rw [Int.cast_add, Int.cast_add, add_mul, add_mul, ← exactValue_eq_units, ← exactValue_eq_units,
    exactValue_eq, exactValue_eq, ← apply_shifted _ _ (min_le_left _ _),
    ← apply_shifted _ _ (min_le_right _ _)]

/-- A zero behind a double that is not zero changes nothing. -/
theorem add_of_units_right_eq_zero (hx : x.isFinite = true) (hy : y.isFinite = true)
    (hx0 : units x ≠ 0) (hy0 : units y = 0) : x + y = x := by
  have hform : UnpackedFloat.add Format.binary64 x.toModel.unpack y.toModel.unpack
      = form (isNegative x) (magnitudeBits x) := by
    rw [← unpack_eq_form, unpack_of_isFinite hx, unpack_of_isFinite hy,
      dif_neg (mt significand_eq_zero_iff.mp hx0), dif_pos (significand_eq_zero_iff.mpr hy0)]
    rfl
  rw [add_eq_of_form (magnitudeBits_le_of_isNaN (isNaN_of_isFinite hx)) hform,
    ofSignAndBits_magnitudeBits]

theorem add_of_units_left_eq_zero (hx : x.isFinite = true) (hy : y.isFinite = true)
    (hx0 : units x = 0) (hy0 : units y ≠ 0) : x + y = y := by
  have hform : UnpackedFloat.add Format.binary64 x.toModel.unpack y.toModel.unpack
      = form (isNegative y) (magnitudeBits y) := by
    rw [← unpack_eq_form, unpack_of_isFinite hx, unpack_of_isFinite hy,
      dif_pos (significand_eq_zero_iff.mpr hx0), dif_neg (mt significand_eq_zero_iff.mp hy0)]
    rfl
  rw [add_eq_of_form (magnitudeBits_le_of_isNaN (isNaN_of_isFinite hy)) hform,
    ofSignAndBits_magnitudeBits]

/-- The sum of two zeros is a zero, negative only if both are. -/
theorem add_of_units_eq_zero (hx : x.isFinite = true) (hy : y.isFinite = true)
    (hx0 : units x = 0) (hy0 : units y = 0) :
    x + y = ofSignAndBits (isNegative x && isNegative y) 0 := by
  refine add_eq_of_form (Nat.zero_le _) ?_
  rw [unpack_of_isFinite hx, unpack_of_isFinite hy, dif_pos (significand_eq_zero_iff.mpr hx0),
    dif_pos (significand_eq_zero_iff.mpr hy0), form_zero _ (by decide) rfl]
  cases isNegative x <;> cases isNegative y <;> rfl

/-- The sum of two finite doubles that are not zero is the exact sum rounded once, and is not
negative if that is zero. -/
theorem add_of_units_ne_zero (hx : x.isFinite = true) (hy : y.isFinite = true)
    (hx0 : units x ≠ 0) (hy0 : units y ≠ 0) {num den : Nat} (hd : 0 < den)
    (h : |((units x + units y : Int) : ℚ) * unit| = num / den) :
    x + y = nearest (units x + units y < 0) num den := by
  -- the significands at the smaller exponent are added as integers
  obtain ⟨n, e, hn, hadd⟩ := add_finite_unpacked hx hy (mt significand_eq_zero_iff.mp hx0)
    (mt significand_eq_zero_iff.mp hy0)
  have hpow : (0 : ℚ) < 2 ^ e := by positivity
  have hbits := toNat_pack_normalize n hd (h.symm.trans (by rw [← hn, abs_mul, abs_of_pos hpow]))
  rw [← hadd] at hbits
  have hscaled : ∀ {m : Int} {c : ℚ}, 0 < c → (m < 0 ↔ (m : ℚ) * c < 0) := by
    intro m c hc
    rw [← Int.cast_lt_zero (R := ℚ), ← mul_lt_mul_iff_of_pos_right hc, zero_mul]
  have hneg : n < 0 ↔ units x + units y < 0 := by
    rw [hscaled hpow, hn, hscaled unit_pos]
  rw [← decide_eq_decide.mpr hneg]
  exact eq_nearest hbits

/-- The sum of two finite doubles is the exact sum rounded once. A zero is negative only as
the sum of two negative zeros. -/
theorem add_eq_nearest (hx : x.isFinite = true) (hy : y.isFinite = true) {num den : Nat}
    (hd : 0 < den) (h : |((units x + units y : Int) : ℚ) * unit| = num / den) :
    x + y = nearest (if units x + units y = 0 then isNegative x && isNegative y
      else units x + units y < 0) num den := by
  by_cases hx0 : units x = 0
  · by_cases hy0 : units y = 0
    · have hnum : num = 0 := by
        rw [hx0, hy0, zero_add, Int.cast_zero, zero_mul, abs_zero, eq_comm, div_eq_zero_iff] at h
        exact_mod_cast h.resolve_right (by exact_mod_cast hd.ne')
      rw [add_of_units_eq_zero hx hy hx0 hy0, hx0, hy0, if_pos (zero_add 0), nearest, hnum,
        nearestBits_zero]
    · rw [hx0, zero_add] at h ⊢
      rw [add_of_units_left_eq_zero hx hy hx0 hy0, if_neg hy0, ← isNegative_of_units_ne_zero hy0,
        ← eq_nearest_of_units hy hd h]
  · by_cases hy0 : units y = 0
    · rw [hy0, add_zero] at h ⊢
      rw [add_of_units_right_eq_zero hx hy hx0 hy0, if_neg hx0, ← isNegative_of_units_ne_zero hx0,
        ← eq_nearest_of_units hx hd h]
    · rw [add_of_units_ne_zero hx hy hx0 hy0 hd h]
      split
      case isTrue hzero =>
        -- summands that cancel have different signs
        rw [isNegative_of_units_ne_zero hx0, isNegative_of_units_ne_zero hy0, ← Bool.decide_and]
        congr 1
        rw [decide_eq_decide]
        omega
      case isFalse => rfl

theorem isFinite_add_iff (hx : x.isFinite = true) (hy : y.isFinite = true) :
    (x + y).isFinite = true ↔ InRange (units x + units y) := by
  obtain ⟨num, den, hd, h⟩ :=
    exists_quotient_of_nonneg (abs_nonneg (((units x + units y : Int) : ℚ) * unit))
  rw [add_eq_nearest hx hy hd h, isFinite_nearest_iff _ hd h]

theorem units_add (hx : x.isFinite = true) (hy : y.isFinite = true)
    (hrange : InRange (units x + units y)) : units (x + y) = rounded (units x + units y) := by
  obtain ⟨num, den, hd, h⟩ :=
    exists_quotient_of_nonneg (abs_nonneg (((units x + units y : Int) : ℚ) * unit))
  rw [add_eq_nearest hx hy hd h]
  exact units_nearest (fun hne => by rw [if_neg hne]) hd hrange h

theorem isNegative_add_of_zero (hx : x.isFinite = true) (hy : y.isFinite = true)
    (hzero : units x + units y = 0) : isNegative (x + y) = (isNegative x && isNegative y) := by
  have h : |((units x + units y : Int) : ℚ) * unit| = (0 : Nat) / (1 : Nat) := by
    rw [hzero]
    simp
  rw [add_eq_nearest hx hy Nat.one_pos h, isNegative_nearest, if_pos hzero]

theorem isFinite_sub_iff (hx : x.isFinite = true) (hy : y.isFinite = true) :
    (x - y).isFinite = true ↔ InRange (units x - units y) := by
  rw [sub_eq_add_neg (isNaN_of_isFinite hy), isFinite_add_iff hx (isFinite_neg hy), units_neg hy,
    Int.sub_eq_add_neg]

theorem units_sub (hx : x.isFinite = true) (hy : y.isFinite = true)
    (hrange : InRange (units x - units y)) : units (x - y) = rounded (units x - units y) := by
  rw [Int.sub_eq_add_neg, ← units_neg hy] at hrange
  rw [sub_eq_add_neg (isNaN_of_isFinite hy), units_add hx (isFinite_neg hy) hrange, units_neg hy,
    Int.sub_eq_add_neg]

end

/-! ## Errors of sums -/

/-- With the summand first that is not smaller, nothing is rounded in what is computed as the
error of a sum. -/
theorem units_error {x y : Float} (hx : x.isFinite = true) (hy : y.isFinite = true)
    (hle : (units y).natAbs ≤ (units x).natAbs) (hrange : InRange (units x + units y)) :
    (y - (x + y - x)).isFinite = true ∧
      units (y - (x + y - x)) = units x + units y - rounded (units x + units y) := by
  have hsum := units_add hx hy hrange
  have hsumFinite := (isFinite_add_iff hx hy).mpr hrange
  have hrest : InRange (units (x + y) - units x) := by
    rw [hsum]
    rcases le_max_iff.mp (natAbs_rounded_sub_le hle) with h | h
    · rw [← hsum] at h ⊢
      exact (inRange_units hsumFinite).mono h
    · exact (inRange_units hx).mono h
  have hrestFinite := (isFinite_sub_iff hsumFinite hx).mpr hrest
  have hrestUnits : units (x + y - x) = units (x + y) - units x := by
    rw [units_sub hsumFinite hx hrest, rounded_of_isShort]
    rw [hsum]
    exact isShort_rounded_sub (isShort_units x) (isShort_units y) hle
  have herror : units y - units (x + y - x)
      = units x + units y - rounded (units x + units y) := by
    rw [hrestUnits, hsum]
    ring
  have herrorRange : InRange (units y - units (x + y - x)) := by
    rw [herror]
    exact (inRange_units hy).mono (natAbs_error_le_right (isShort_units x))
  refine ⟨(isFinite_sub_iff hy hrestFinite).mpr herrorRange, ?_⟩
  rw [units_sub hy hrestFinite herrorRange, herror,
    rounded_of_isShort (isShort_error (isShort_units x) (isShort_units y))]

/-! ## Zeros without a sign -/

/-- The double stands for `n` units, and it is no negative zero. -/
structure IsPlain (n : Int) (x : Float) : Prop where
  isFinite : x.isFinite = true
  units_eq : units x = n
  isNegative_eq : n = 0 → isNegative x = false

theorem IsPlain.unique {n : Int} {x y : Float} (hx : IsPlain n x) (hy : IsPlain n y) : x = y := by
  refine eq_of_units hx.isFinite hy.isFinite (hx.units_eq.trans hy.units_eq.symm) fun hzero => ?_
  rw [hx.units_eq] at hzero
  rw [hx.isNegative_eq hzero, hy.isNegative_eq hzero]

theorem IsPlain.add {n : Int} {x y : Float} (hx : IsPlain n x) (hy : y.isFinite = true)
    (hrange : InRange (n + units y)) : IsPlain (rounded (n + units y)) (x + y) := by
  obtain ⟨hxFinite, rfl, hsign⟩ := hx
  refine ⟨(isFinite_add_iff hxFinite hy).mpr hrange, units_add hxFinite hy hrange, fun hzero => ?_⟩
  have hsum := rounded_eq_zero_iff.mp hzero
  rw [isNegative_add_of_zero hxFinite hy hsum]
  rcases eq_or_ne (units x) 0 with hx0 | hx0
  · rw [hsign hx0, Bool.false_and]
  · -- the two numbers are on different sides of zero
    have hy0 : units y ≠ 0 := by omega
    rw [isNegative_of_units_ne_zero hx0, isNegative_of_units_ne_zero hy0, ← Bool.decide_and,
      decide_eq_false_iff_not]
    omega

/-- The double nearest to a rational number; ties go to the even significand. -/
def nearestTo (q : ℚ) : Float :=
  nearest (q < 0) q.num.natAbs q.den

theorem isPlain_nearestTo {n : Int} (hrange : InRange n) :
    IsPlain (rounded n) (nearestTo (n * unit)) := by
  have hsign : ((n : ℚ) * unit < 0) ↔ n < 0 := by
    rw [← Int.cast_lt_zero (R := ℚ), ← mul_lt_mul_iff_of_pos_right unit_pos (b := (n : ℚ)),
      zero_mul]
  have habs : ∀ q : ℚ, |q| = q.num.natAbs / q.den := by
    intro q
    calc |q| = |(q.num : ℚ) / q.den| := by rw [Rat.num_div_den]
      _ = q.num.natAbs / q.den := by rw [abs_div, Nat.abs_cast, Nat.cast_natAbs, Int.cast_abs]
  have hden := ((n : ℚ) * unit).den_pos
  refine ⟨(isFinite_nearest_iff _ hden (habs _)).mpr hrange,
    units_nearest (fun _ => decide_eq_decide.mpr hsign) hden hrange (habs _), fun hzero => ?_⟩
  rw [nearestTo, isNegative_nearest, decide_eq_false_iff_not, hsign, rounded_eq_zero_iff.mp hzero]
  exact lt_irrefl 0

/-! ## Out of range -/

/-- The double is not a number, or infinite with the given sign. -/
def IsLost (negative : Bool) (x : Float) : Prop :=
  x.isNaN = true ∨ x.isInf = true ∧ isNegative x = negative

section

variable {x y : Float} {negative : Bool}

theorem isLost_iff_unpack : IsLost negative x ↔
    x.toModel.unpack = .notANumber ∨ x.toModel.unpack = .infinity (signOf negative) := by
  rw [IsLost, unpack_eq_infinity_iff, eq_comm (a := signOf negative), signOf_injective.eq_iff]
  refine or_congr ?_ Iff.rfl
  show x.toModel.unpack.isNaN = true ↔ _
  cases x.toModel.unpack <;> simp [UnpackedFloat.isNaN]

theorem isLost_of_add_unpacked
    (h : UnpackedFloat.add Format.binary64 x.toModel.unpack y.toModel.unpack = .notANumber ∨
      UnpackedFloat.add Format.binary64 x.toModel.unpack y.toModel.unpack
        = .infinity (signOf negative)) : IsLost negative (x + y) := by
  rcases h with h | h
  · have hnan := isNaN_of_toBits (x := x + y)
      (u := UnpackedFloat.add Format.binary64 x.toModel.unpack y.toModel.unpack) rfl
    exact .inl (hnan.mpr (by rw [h]; rfl))
  · rw [← form_infinity] at h
    rw [add_eq_of_form le_rfl h]
    exact .inr ⟨isInf_iff.mpr (magnitudeBits_ofSignAndBits _ le_rfl),
      isNegative_ofSignAndBits _ le_rfl⟩

/-- What is lost stays lost in a sum. -/
theorem IsLost.add_right (h : IsLost negative x) (y : Float) : IsLost negative (x + y) := by
  refine isLost_of_add_unpacked ?_
  rcases isLost_iff_unpack.mp h with hx | hx
  · exact .inl (by rw [hx]; rfl)
  · rw [hx]
    cases y.toModel.unpack with
    | infinity s =>
      simp only [UnpackedFloat.add]
      split
      · exact .inr rfl
      · exact .inl rfl
    | notANumber => exact .inl rfl
    | _ => exact .inr rfl

theorem IsLost.add_left (h : IsLost negative y) (x : Float) : IsLost negative (x + y) := by
  refine isLost_of_add_unpacked ?_
  rcases isLost_iff_unpack.mp h with hy | hy
  · rw [hy]
    cases x.toModel.unpack <;> exact .inl rfl
  · rw [hy]
    cases x.toModel.unpack with
    | infinity s =>
      simp only [UnpackedFloat.add]
      split
      case isTrue hs => exact .inr (by rw [eq_of_beq hs])
      case isFalse => exact .inl rfl
    | notANumber => exact .inl rfl
    | _ => exact .inr rfl

theorem IsLost.neg (h : IsLost negative x) (hx : x.isNaN = false) : IsLost (!negative) (-x) := by
  obtain ⟨hinf, rfl⟩ := h.resolve_left (by rw [hx]; decide)
  have hle := magnitudeBits_le_of_isNaN hx
  refine .inr ⟨?_, ?_⟩
  · rw [isInf_iff, neg_eq hx, magnitudeBits_ofSignAndBits _ hle]
    exact isInf_iff.mp hinf
  · rw [neg_eq hx, isNegative_ofSignAndBits _ hle]

theorem not_isFinite_of_isLost (h : IsLost negative x) : ¬ x.isFinite = true := by
  rw [isFinite_iff_isNaN_isInf]
  rintro ⟨hnan, hinf⟩
  rcases h with h | ⟨h, -⟩
  · exact Bool.false_ne_true (hnan.symm.trans h)
  · exact Bool.false_ne_true (hinf.symm.trans h)

theorem bne_zero_of_isLost (h : IsLost negative x) : (x != 0.0) = true := by
  rcases h with hnan | ⟨hinf, -⟩
  · rw [isNaN_iff_eq_nan.mp hnan]
    decide
  · have hbits := isInf_iff.mp hinf
    have hnan : x.isNaN = false := by
      rw [← Bool.not_eq_true, isNaN_iff, hbits]
      exact lt_irrefl _
    have hplace : place x ≠ place 0.0 := by
      rw [place, hbits]
      cases isNegative x <;> decide
    rwa [bne, Bool.not_eq_true', ← Bool.not_eq_true, beq_iff_place hnan rfl]

/-- What is lost on both sides is not a number. -/
theorem isNaN_of_isLost (h : IsLost true x) (h' : IsLost false x) : x.isNaN = true := by
  rcases h with hnan | ⟨-, hneg⟩
  · exact hnan
  · exact h'.resolve_right fun ⟨_, hpos⟩ => Bool.false_ne_true (hpos.symm.trans hneg)

/-- A sum out of range is infinite, and what is taken for its error is the other infinity. -/
theorem exists_isLost_of_not_inRange (hx : x.isFinite = true) (hy : y.isFinite = true)
    (hrange : ¬ InRange (units x + units y)) :
    ∃ negative, IsLost negative (x + y) ∧ IsLost (!negative) (y - (x + y - x)) := by
  have hsum := mt (isFinite_add_iff hx hy).mp hrange
  obtain ⟨num, den, hd, h⟩ :=
    exists_quotient_of_nonneg (abs_nonneg (((units x + units y : Int) : ℚ) * unit))
  have hnan : (x + y).isNaN = false := by
    rw [add_eq_nearest hx hy hd h]
    exact isNaN_nearest _ _ _
  have hinf : (x + y).isInf = true := by
    by_contra hinf
    exact hsum (isFinite_iff_isNaN_isInf.mpr ⟨hnan, Bool.eq_false_iff.mpr hinf⟩)
  have hlost : IsLost (isNegative (x + y)) (x + y) := .inr ⟨hinf, rfl⟩
  refine ⟨isNegative (x + y), hlost, ?_⟩
  have hrest : IsLost (isNegative (x + y)) (x + y - x) := by
    rw [sub_eq_add_neg (isNaN_of_isFinite hx)]
    exact hlost.add_right (-x)
  have hrestnan : (x + y - x).isNaN = false := by
    rw [← Bool.not_eq_true, isNaN_sub_iff, not_or, not_or]
    refine ⟨by rw [hnan]; decide, by rw [isNaN_of_isFinite hx]; decide, ?_⟩
    rintro ⟨-, heq⟩
    exact hsum (by rwa [heq])
  rw [sub_eq_add_neg hrestnan]
  exact (hrest.neg hrestnan).add_left y

end

end FlatLisp.Binary64
