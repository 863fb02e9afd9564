/-
FlatLisp.Proofs.FloatDifferences — differences of doubles are rounded once.

Doubles have an exact value, a rational number with a sign (`exactValue`). The library
brings the significands of a difference to a common exponent, subtracts them as
integers and rounds what is left, so the size of a difference is the one nearest to
the difference of the exact values (`magnitudeBits_sub`). It is infinite from the
number on that is half a unit of the last place above the greatest double
(`isInf_sub_iff`). Not-a-number comes out of equal infinities and of nothing else
but itself (`isNaN_sub_iff`).
-/
import FlatLisp.Proofs.FloatSizes
import Mathlib

namespace FlatLisp.Binary64
open Float.Model (Format UnpackedFloat totalExponent)
open Float.Model.UnpackedFloat

/-! ## Not-a-number -/

theorem exists_signOf (s : Sign) : ∃ negative, s = signOf negative := by
  cases s
  · exact ⟨true, rfl⟩
  · exact ⟨false, rfl⟩

theorem signOf_injective : Function.Injective signOf := by
  intro a b h
  cases a <;> cases b <;> first | rfl | cases h

/-- Only not-a-number is packed into a pattern above that of infinity. -/
theorem infinityBits_lt_pack_iff (u : UnpackedFloat) :
    infinityBits < (pack Format.binary64 u).toNat % signBit ↔ u.isNaN = true := by
  have hcomponents : ∀ (s : Sign) (exponent : BitVec 11) (mantissa : BitVec 52),
      exponent.toNat < 2047 ∨ mantissa.toNat = 0 →
        (packComponents Format.binary64 s exponent mantissa).toNat % signBit ≤ infinityBits := by
    intro s exponent mantissa h
    obtain ⟨negative, rfl⟩ := exists_signOf s
    have hexponent : exponent.toNat < 2048 := exponent.isLt
    have hmantissa : mantissa.toNat < 2 ^ 52 := mantissa.isLt
    rw [toNat_packComponents]
    unfold signPart signBit infinityBits hiddenBit
    split <;> omega
  have hinfinity : ∀ s, (packedInfinity Format.binary64 s).toNat % signBit ≤ infinityBits :=
    fun s => hcomponents s (-1#11) 0#52 (.inr rfl)
  cases u with
  | notANumber => exact iff_of_true (by decide) rfl
  | infinity s => exact iff_of_false (hinfinity s).not_gt Bool.false_ne_true
  | zero s =>
    exact iff_of_false (hcomponents s 0#11 0#52 (.inr rfl)).not_gt Bool.false_ne_true
  | finite s m e hpos =>
    refine iff_of_false (Nat.not_lt.mpr ?_) Bool.false_ne_true
    show (if 2048 ≤ (e + 1023 + 52).toNat + 1 then packedInfinity Format.binary64 s
      else if m.log2 + 1 = 53 then
        packComponents Format.binary64 s (BitVec.ofNat 11 (e + 1023 + 52).toNat) (BitVec.ofNat 52 m)
      else packComponents Format.binary64 s 0#11 (BitVec.ofNat 52 m) : BitVec 64).toNat
        % signBit ≤ _
    split
    · exact hinfinity s
    · split
      · refine hcomponents s _ _ (.inl ?_)
        rw [BitVec.toNat_ofNat]
        omega
      · exact hcomponents s 0#11 _ (.inl (by decide))

theorem isNaN_of_toBits {x : Float} {u : UnpackedFloat}
    (h : x.toBits.toNat = (pack Format.binary64 u).toNat) : x.isNaN = true ↔ u.isNaN = true := by
  rw [isNaN_iff, ← infinityBits_lt_pack_iff, ← h, magnitudeBits]

theorem isNaN_normalize (mantissa exponent : Int) (s : Sign) :
    (UnpackedFloat.normalize Format.binary64 mantissa exponent s).isNaN = false := by
  have hround : ∀ s m e, (UnpackedFloat.round Format.binary64 s m e).isNaN = false := by
    intro s m e
    unfold UnpackedFloat.round roundWithAccuracy
    dsimp only
    split <;> rfl
  unfold UnpackedFloat.normalize
  split
  · exact hround _ _ _
  · rfl
  · exact hround _ _ _

/-- The library's difference is not a number for operands that are not, and for two
equal infinities. -/
theorem isNaN_sub_unpacked (u v : UnpackedFloat) :
    (UnpackedFloat.sub Format.binary64 u v).isNaN = true
      ↔ u.isNaN = true ∨ v.isNaN = true ∨ ∃ s, u = .infinity s ∧ v = .infinity s := by
  cases u with
  | notANumber => simp [UnpackedFloat.sub, UnpackedFloat.isNaN]
  | infinity s =>
    cases v with
    | infinity s' =>
      cases s <;> cases s'
      · exact iff_of_true rfl (.inr (.inr ⟨_, rfl, rfl⟩))
      · exact iff_of_false Bool.false_ne_true (by simp [UnpackedFloat.isNaN])
      · exact iff_of_false Bool.false_ne_true (by simp [UnpackedFloat.isNaN])
      · exact iff_of_true rfl (.inr (.inr ⟨_, rfl, rfl⟩))
    | _ => simp [UnpackedFloat.sub, UnpackedFloat.isNaN]
  | zero s =>
    cases v with
    | zero s' =>
      cases s <;> cases s' <;>
        exact iff_of_false Bool.false_ne_true (by simp [UnpackedFloat.isNaN])
    | _ => simp [UnpackedFloat.sub, UnpackedFloat.isNaN]
  | finite s m e hpos =>
    cases v with
    | finite s' m' e' hpos' =>
      refine iff_of_false ?_ (by simp [UnpackedFloat.isNaN])
      exact Bool.eq_false_iff.mp (isNaN_normalize _ _ .positive)
    | _ => simp [UnpackedFloat.sub, UnpackedFloat.isNaN]

theorem unpack_eq_infinity_iff {x : Float} {s : Sign} :
    x.toModel.unpack = .infinity s ↔ x.isInf = true ∧ s = signOf (isNegative x) := by
  rw [isInf_iff, unpack_eq_form]
  constructor
  · intro h
    have hbits : magnitudeBits x = infinityBits := by
      rw [← isInf_form (isNegative x), h]
      rfl
    rw [hbits, form_infinity] at h
    exact ⟨hbits, (UnpackedFloat.infinity.inj h).symm⟩
  · rintro ⟨hbits, rfl⟩
    rw [hbits, form_infinity]

/-- A difference is not a number if one side is not, and if both are the same
infinity. -/
theorem isNaN_sub_iff {x y : Float} :
    (x - y).isNaN = true ↔ x.isNaN = true ∨ y.isNaN = true ∨ x.isInf = true ∧ x = y := by
  have hsub := isNaN_of_toBits (x := x - y)
    (u := UnpackedFloat.sub Format.binary64 x.toModel.unpack y.toModel.unpack) rfl
  rw [hsub, isNaN_sub_unpacked]
  refine or_congr Iff.rfl (or_congr Iff.rfl ?_)
  constructor
  · rintro ⟨s, hx, hy⟩
    obtain ⟨hxinf, hxs⟩ := unpack_eq_infinity_iff.mp hx
    obtain ⟨hyinf, hys⟩ := unpack_eq_infinity_iff.mp hy
    have hsign : isNegative x = isNegative y := signOf_injective (hxs.symm.trans hys)
    refine ⟨hxinf, ?_⟩
    rw [← ofSignAndBits_magnitudeBits x, ← ofSignAndBits_magnitudeBits y, hsign,
      isInf_iff.mp hxinf, isInf_iff.mp hyinf]
  · rintro ⟨hinf, rfl⟩
    exact ⟨_, unpack_eq_infinity_iff.mpr ⟨hinf, rfl⟩, unpack_eq_infinity_iff.mpr ⟨hinf, rfl⟩⟩

/-! ## Rounding an integer multiple of a power of two -/

theorem signPart_add_mod (negative : Bool) {bits : Nat} (h : bits ≤ infinityBits) :
    (signPart negative + bits) % signBit = bits := by
  unfold infinityBits at h
  unfold signPart signBit
  split <;> omega

/-- The library makes room for 53 places before it rounds, so it rounds once. -/
theorem toNat_pack_round_natural (negative : Bool) {n num den : Nat} (hn : 0 < n)
    (hnum : 0 < num) (hd : 0 < den) {e : Int} (hvalue : (num : ℚ) / den = n * 2 ^ e) :
    (pack Format.binary64 (UnpackedFloat.round Format.binary64 (signOf negative) n e)).toNat
      = signPart negative + nearestBits num den := by
  generalize ht : Format.binary64.targetExponent (totalExponent n e) = t
  have htarget : t = max (n.log2 + 1 + e - 53) minExponent := by
    rw [← ht, targetExponent_eq, totalExponent]
  have hround : UnpackedFloat.round Format.binary64 (signOf negative) n e
      = roundWithAccuracy Format.binary64 (signOf negative) (n <<< (e - t).toNat)
          (e - (e - t).toNat) .exact := by
    rw [← ht]
    rfl
  have hshift : (num : ℚ) / den
      = (n <<< (e - t).toNat : Nat) / (1 : Nat) * 2 ^ (e - (e - t).toNat) := by
    rw [hvalue, Nat.shiftLeft_eq, Nat.cast_one, div_one, zpow_sub₀ two_ne_zero, zpow_natCast]
    push_cast
    field_simp
  have hfull : 2 ^ 52 ≤ n <<< (e - t).toNat / 1 ∨ e - (e - t).toNat ≤ minExponent := by
    rw [Nat.div_one, Nat.shiftLeft_eq]
    rcases le_or_gt t minExponent with hmin | hmin
    · right
      omega
    · left
      calc 2 ^ 52 ≤ 2 ^ (n.log2 + (e - t).toNat) := Nat.pow_le_pow_right (by decide) (by omega)
        _ = 2 ^ n.log2 * 2 ^ (e - t).toNat := Nat.pow_add _ _ _
        _ ≤ n * 2 ^ (e - t).toNat := Nat.mul_le_mul_right _ (Nat.log2_self_le hn.ne')
  have hpack := toNat_pack_round negative hnum Nat.one_pos hd hshift hfull
  rw [Nat.div_one, Nat.mod_one] at hpack
  rw [hround]
  exact hpack

/-- An integer is packed with its sign, and a zero without. -/
theorem toNat_pack_normalize (n : Int) {num den : Nat} (hd : 0 < den) {e : Int}
    (hvalue : (num : ℚ) / den = |(n : ℚ)| * 2 ^ e) :
    (pack Format.binary64 (UnpackedFloat.normalize Format.binary64 n e .positive)).toNat
      = signPart (n < 0) + nearestBits num den := by
  have hround : ∀ negative, n ≠ 0 →
      (pack Format.binary64 (UnpackedFloat.round Format.binary64 (signOf negative) n.natAbs
        e)).toNat = signPart negative + nearestBits num den := by
    intro negative hn
    have hnum : 0 < num := by
      refine Nat.pos_of_ne_zero fun hzero => ?_
      rw [hzero, Nat.cast_zero, zero_div] at hvalue
      have hpos : 0 < |(n : ℚ)| * 2 ^ e := by positivity
      exact hpos.ne hvalue
    have hvalue' : (num : ℚ) / den = n.natAbs * 2 ^ e := by
      rw [hvalue, Nat.cast_natAbs, Int.cast_abs]
    exact toNat_pack_round_natural negative (Int.natAbs_pos.mpr hn) hnum hd hvalue'
  rcases lt_trichotomy n 0 with h | rfl | h
  · have hnormalize : UnpackedFloat.normalize Format.binary64 n e .positive
        = UnpackedFloat.round Format.binary64 (signOf true) n.natAbs e := by
      have habs : (-n).toNat = n.natAbs := by omega
      rw [UnpackedFloat.normalize, compare_lt_iff_lt.mpr h, ← habs]
      rfl
    rw [hnormalize, hround true h.ne, decide_eq_true h]
  · have hnum : num = 0 := by
      have hd' : (den : ℚ) ≠ 0 := by exact_mod_cast hd.ne'
      rw [Int.cast_zero, abs_zero, zero_mul, div_eq_zero_iff] at hvalue
      exact_mod_cast hvalue.resolve_right hd'
    rw [hnum, nearestBits_zero]
    rfl
  · have hnormalize : UnpackedFloat.normalize Format.binary64 n e .positive
        = UnpackedFloat.round Format.binary64 (signOf false) n.natAbs e := by
      have habs : n.toNat = n.natAbs := by omega
      rw [UnpackedFloat.normalize, compare_gt_iff_gt.mpr h, ← habs]
      rfl
    rw [hnormalize, hround false h.ne', decide_eq_false h.not_gt]

/-! ## Exact values -/

/-- A finite double as a rational number. -/
def exactValue (x : Float) : ℚ :=
  if isNegative x then -size x else size x

theorem abs_exactValue (x : Float) : |exactValue x| = size x := by
  unfold exactValue
  split
  · rw [abs_neg, abs_of_nonneg (size_nonneg x)]
  · exact abs_of_nonneg (size_nonneg x)

theorem exactValue_eq (x : Float) : exactValue x
    = (if isNegative x then -1 else 1)
      * ((Magnitude.ofFloat x).significand * 2 ^ (Magnitude.ofFloat x).exponent) := by
  unfold exactValue size Magnitude.value
  split <;> ring

theorem exactValue_of_significand_zero {x : Float} (h : (Magnitude.ofFloat x).significand = 0) :
    exactValue x = 0 := by
  rw [exactValue_eq, h]
  simp

/-- A significand with its sign, at a lower exponent. -/
theorem apply_shifted (negative : Bool) (m : Nat) {e t : Int} (h : t ≤ e) :
    ((signOf negative).apply ((m <<< (e - t).toNat : Nat) : Int) : ℚ) * 2 ^ t
      = (if negative then -1 else 1) * (m * 2 ^ e) := by
  have hvalue : ((m <<< (e - t).toNat : Nat) : ℚ) * 2 ^ t = m * 2 ^ e := by
    rw [Nat.shiftLeft_eq, Nat.cast_mul, Nat.cast_pow, Nat.cast_ofNat,
      ← zpow_natCast, Int.toNat_of_nonneg (by omega), zpow_sub₀ two_ne_zero]
    field_simp
  have happly : ∀ n : Nat, ((signOf negative).apply n : ℚ) = (if negative then -1 else 1) * n := by
    intro n
    cases negative <;> simp [signOf, Sign.apply]
  rw [happly, mul_assoc, hvalue]

/-- A finite double, packed with either sign, is nearest to its own size. -/
theorem toNat_pack_of_size (negative : Bool) {x : Float}
    (hpos : 0 < (Magnitude.ofFloat x).significand) {num den : Nat} (hd : 0 < den)
    (h : |exactValue x| = num / den) :
    (pack Format.binary64 (.finite (signOf negative) (Magnitude.ofFloat x).significand
      (Magnitude.ofFloat x).exponent hpos)).toNat % signBit = nearestBits num den := by
  have hcanonical : (Magnitude.ofFloat x).IsCanonical := Magnitude.isCanonical_ofBits _
  rw [abs_exactValue, size_eq_div, div_eq_div_iff
    (by exact_mod_cast (Magnitude.denominator_pos _).ne') (by exact_mod_cast hd.ne')] at h
  rw [toNat_pack_finite negative hcanonical hpos, signPart_add_mod _ (Nat.min_le_right _ _),
    ← nearestBits_magnitude hpos hcanonical]
  exact nearestBits_congr (Magnitude.denominator_pos _) hd (by exact_mod_cast h)

/-- The size of a difference is the one nearest to the difference of the exact
values. -/
theorem magnitudeBits_sub {x y : Float} (hx : x.isFinite = true) (hy : y.isFinite = true)
    {num den : Nat} (hd : 0 < den) (h : |exactValue x - exactValue y| = num / den) :
    magnitudeBits (x - y) = nearestBits num den := by
  have hbits : magnitudeBits (x - y) = (pack Format.binary64 (UnpackedFloat.sub Format.binary64
      x.toModel.unpack y.toModel.unpack)).toNat % signBit := rfl
  rw [hbits, unpack_of_isFinite hx, unpack_of_isFinite hy]
  split
  case isTrue hx0 =>
    rw [exactValue_of_significand_zero hx0, zero_sub, abs_neg] at h
    split
    case isTrue hy0 =>
      have hnum : num = 0 := by
        rw [exactValue_of_significand_zero hy0, abs_zero, eq_comm, div_eq_zero_iff] at h
        exact_mod_cast h.resolve_right (by exact_mod_cast hd.ne')
      rw [hnum, nearestBits_zero]
      cases isNegative x <;> cases isNegative y <;> rfl
    case isFalse hy0 =>
      have hneg : -signOf (isNegative y) = signOf (!isNegative y) := by
        cases isNegative y <;> rfl
      rw [UnpackedFloat.sub, hneg]
      exact toNat_pack_of_size _ _ hd h
  case isFalse hx0 =>
    split
    case isTrue hy0 =>
      rw [exactValue_of_significand_zero hy0, sub_zero] at h
      exact toNat_pack_of_size _ _ hd h
    case isFalse hy0 =>
      have hpos : (0 : ℚ) < 2 ^ min (Magnitude.ofFloat x).exponent (Magnitude.ofFloat y).exponent :=
        by positivity
      refine Eq.trans (congrArg (· % signBit) (toNat_pack_normalize _ hd ?_))
        (signPart_add_mod _ (nearestBits_le_infinityBits num den))
      rw [← h, ← abs_of_pos hpos, ← abs_mul, Int.cast_sub, sub_mul, exactValue_eq, exactValue_eq,
        ← apply_shifted _ _ (min_le_left _ _), ← apply_shifted _ _ (min_le_right _ _)]

theorem exists_quotient_of_nonneg {q : ℚ} (h : 0 ≤ q) :
    ∃ num den : Nat, 0 < den ∧ q = num / den := by
  refine ⟨q.num.toNat, q.den, q.den_pos, ?_⟩
  have hnum : ((q.num.toNat : Int) : ℚ) = q.num := by
    rw [Int.toNat_of_nonneg (Rat.num_nonneg.mpr h)]
  rw [← Int.cast_natCast, hnum, Rat.num_div_den]

/-- A difference of finite doubles is infinite exactly where that of their exact values is
out of range. -/
theorem isInf_sub_iff {x y : Float} (hx : x.isFinite = true) (hy : y.isFinite = true) :
    (x - y).isInf = true ↔ (overflowBound : ℚ) ≤ |exactValue x - exactValue y| := by
  obtain ⟨num, den, hd, hquotient⟩ :=
    exists_quotient_of_nonneg (abs_nonneg (exactValue x - exactValue y))
  rw [isInf_iff, magnitudeBits_sub hx hy hd hquotient, nearestBits_eq_infinityBits_iff hd,
    hquotient]

end FlatLisp.Binary64
