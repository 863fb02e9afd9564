/-
FlatLisp.Proofs.FloatSizes — finite doubles as rational numbers with a sign.

A finite double is its sign and its size, a rational number, and operations are said
in these terms: a product or quotient has the sign that is expected and is nearest to
that of the sizes (`mul_of_size`, `div_of_size`), rounding to an integral double
rounds the size (`toIntegral_halfEven`), and an integral size is read off exactly
(`toInt_truncation`). A size that 53 places are enough for is met exactly
(`size_nearest_of_exact`). So the integers below `2 ^ 53` are doubles, and from there
to `2 ^ 54` the even ones are (`size_ofInt`).
-/
import FlatLisp.Binary64.Integral
import FlatLisp.Proofs.FloatArithmetic
import Mathlib

namespace FlatLisp.Binary64

open Float.Model (Format)
open Float.Model.UnpackedFloat

/-! ## Signs -/

theorem neg_form (negative : Bool) (bits : Nat) :
    (form negative bits).neg = form (!negative) bits := by
  unfold form
  split
  · rfl
  · split
    · cases negative <;> rfl
    · split <;> cases negative <;> rfl

theorem abs_form (negative : Bool) (bits : Nat) : (form negative bits).abs = form false bits := by
  unfold form
  split
  · rfl
  · split
    · rfl
    · split <;> rfl

theorem neg_eq {x : Float} (hx : x.isNaN = false) :
    -x = ofSignAndBits (!isNegative x) (magnitudeBits x) := by
  refine eq_ofSignAndBits (magnitudeBits_le_of_isNaN hx) ?_
  show (pack Format.binary64 x.toModel.unpack.neg).toNat = _
  rw [unpack_eq_form, neg_form, toNat_pack_form _ (magnitudeBits_le_of_isNaN hx)]

theorem abs_eq {x : Float} (hx : x.isNaN = false) :
    x.abs = ofSignAndBits false (magnitudeBits x) := by
  refine eq_ofSignAndBits (magnitudeBits_le_of_isNaN hx) ?_
  show (pack Format.binary64 x.toModel.unpack.abs).toNat = _
  rw [unpack_eq_form, abs_form, toNat_pack_form _ (magnitudeBits_le_of_isNaN hx)]

theorem copySign_eq {x : Float} (hx : x.isNaN = false) (y : Float) :
    copySign x y = ofSignAndBits (isNegative y) (magnitudeBits x) := by
  have hle := magnitudeBits_le_of_isNaN hx
  unfold copySign
  rw [abs_eq hx]
  have habs : (ofSignAndBits false (magnitudeBits x)).isNaN = false := by
    rw [← Bool.not_eq_true, isNaN_iff, magnitudeBits_ofSignAndBits _ hle]
    omega
  split
  · rename_i hy
    rw [neg_eq habs, isNegative_ofSignAndBits _ hle, magnitudeBits_ofSignAndBits _ hle, hy]
    rfl
  · rename_i hy
    rw [Bool.not_eq_true] at hy
    rw [hy]

/-! ## Sizes -/

/-- A finite double without its sign, as a rational number. -/
def size (x : Float) : ℚ :=
  (Magnitude.ofFloat x).value

theorem size_eq_div (x : Float) :
    size x = (Magnitude.ofFloat x).numerator / (Magnitude.ofFloat x).denominator :=
  (Magnitude.ofFloat x).numerator_div_denominator.symm

theorem size_nonneg (x : Float) : 0 ≤ size x := by
  rw [size_eq_div]
  positivity

theorem size_eq_zero {x : Float} (h : magnitudeBits x = 0) : size x = 0 := by
  rw [size, Magnitude.ofFloat, h]
  show ((0 : Nat) : ℚ) * 2 ^ minExponent = 0
  simp

section

variable {num den : Nat}

theorem nearest_congr (negative : Bool) {num' den' : Nat} (hd : 0 < den) (hd' : 0 < den')
    (h : (num : ℚ) / den = num' / den') :
    nearest negative num den = nearest negative num' den' := by
  rw [div_eq_div_iff (by positivity) (by positivity)] at h
  unfold nearest
  rw [nearestBits_congr hd hd' (by exact_mod_cast h)]

theorem isFinite_nearest (negative : Bool) (hd : 0 < den)
    (h : (num : ℚ) / den < 2 ^ (1023 : Int)) : (nearest negative num den).isFinite = true := by
  rw [isFinite_iff, magnitudeBits_nearest]
  exact nearestBits_lt_infinityBits hd h

theorem size_nearest (negative : Bool) (hn : 0 < num) (hd : 0 < den)
    (h : nearestBits num den < infinityBits) :
    size (nearest negative num den) = (nearestMagnitude num den).value := by
  have hbits := nearestBits_eq_min hn hd
  have hmin : nearestBits num den = (nearestMagnitude num den).bits := by omega
  rw [size, Magnitude.ofFloat, magnitudeBits_nearest, hmin,
    (isCanonical_nearestMagnitude hn hd).ofBits_bits (hmin ▸ h)]

theorem size_nearest_zero (negative : Bool) (den : Nat) : size (nearest negative 0 den) = 0 :=
  size_eq_zero (by rw [magnitudeBits_nearest, nearestBits_zero])

theorem lt_of_exact {s : Nat} {x : Int} (hvalue : (num : ℚ) / den = s * 2 ^ x)
    (hs : s < 2 ^ 53) (hx : x ≤ 970) : (num : ℚ) / den < 2 ^ (1023 : Int) := by
  calc (num : ℚ) / den = s * 2 ^ x := hvalue
    _ < 2 ^ (53 : Int) * 2 ^ x :=
        mul_lt_mul_of_pos_right (by exact_mod_cast hs) (by positivity)
    _ = 2 ^ (53 + x) := (zpow_add₀ two_ne_zero _ _).symm
    _ ≤ 2 ^ (1023 : Int) := zpow_le_zpow_right₀ one_le_two (by omega)

/-- What has at most 53 places is a double. -/
theorem size_nearest_of_exact (negative : Bool) (hd : 0 < den) {s : Nat} {x : Int}
    (hvalue : (num : ℚ) / den = s * 2 ^ x) (hs : s < 2 ^ 53) (hmin : minExponent ≤ x)
    (hx : x ≤ 970) : size (nearest negative num den) = num / den := by
  rcases Nat.eq_zero_or_pos num with rfl | hn
  · rw [size_nearest_zero]
    simp
  · rw [size_nearest negative hn hd (nearestBits_lt_infinityBits hd (lt_of_exact hvalue hs hx)),
      value_nearestMagnitude_of_exact hn hd hvalue hs hmin]

/-- Powers of two stay bounds. -/
theorem size_nearest_le_pow (negative : Bool) (hd : 0 < den) {k : Int}
    (hmin : minExponent ≤ k) (hk : k < 1023) (h : (num : ℚ) / den ≤ 2 ^ k) :
    size (nearest negative num den) ≤ 2 ^ k := by
  rcases Nat.eq_zero_or_pos num with rfl | hn
  · rw [size_nearest_zero]
    positivity
  · have hfinite : (num : ℚ) / den < 2 ^ (1023 : Int) :=
      h.trans_lt (zpow_lt_zpow_right₀ one_lt_two hk)
    rw [size_nearest negative hn hd (nearestBits_lt_infinityBits hd hfinite)]
    exact value_nearestMagnitude_le_pow hn hd hmin h

end

/-! ## Operations -/

section

variable {x y : Float} {num den : Nat}

/-- Products are computed on sizes. -/
theorem mul_of_size (hx : x.isFinite = true) (hy : y.isFinite = true) (hd : 0 < den)
    (h : size x * size y = num / den) :
    x * y = nearest (isNegative x != isNegative y) num den := by
  rw [mul_eq_nearest hx hy]
  refine nearest_congr _ (Nat.mul_pos (Magnitude.denominator_pos _) (Magnitude.denominator_pos _))
    hd ?_
  rw [← h, size_eq_div, size_eq_div, Nat.cast_mul, Nat.cast_mul, mul_div_mul_comm]

/-- Quotients are computed on sizes. -/
theorem div_of_size (hx : x.isFinite = true) (hy : y.isFinite = true) (hpos : 0 < size y)
    (hd : 0 < den) (h : size x / size y = num / den) :
    x / y = nearest (isNegative x != isNegative y) num den := by
  have hsig : 0 < (Magnitude.ofFloat y).significand := by
    rw [size, Magnitude.value] at hpos
    exact_mod_cast pos_of_mul_pos_left hpos (by positivity)
  rw [div_eq_nearest hx hy hsig]
  refine nearest_congr _ (Nat.mul_pos (Magnitude.denominator_pos _) (Magnitude.numerator_pos hsig))
    hd ?_
  rw [← h, size_eq_div, size_eq_div, Nat.cast_mul, Nat.cast_mul, div_div_div_eq]

theorem exists_quotient (x : Float) (hpos : 0 < size y) :
    ∃ num den : Nat, 0 < den ∧ size x / size y = num / den := by
  rw [size_eq_div] at hpos
  have hnum : 0 < (Magnitude.ofFloat y).numerator := by
    refine Nat.pos_of_ne_zero fun hzero => ?_
    rw [hzero, Nat.cast_zero, zero_div] at hpos
    exact lt_irrefl _ hpos
  refine ⟨(Magnitude.ofFloat x).numerator * (Magnitude.ofFloat y).denominator, _,
    Nat.mul_pos (Magnitude.ofFloat x).denominator_pos hnum, ?_⟩
  rw [size_eq_div, size_eq_div, div_div_div_eq, Nat.cast_mul, Nat.cast_mul]

theorem natAbs_quotient_halfEven (n : Int) {den : Nat} (hd : 0 < den) :
    (Rounding.halfEven.quotient n den).natAbs = roundHalfEven n.natAbs den := by
  show (n.sign * roundHalfEven n.natAbs den).natAbs = _
  rcases eq_or_ne n 0 with rfl | hn
  · rw [Int.sign_zero, zero_mul, Int.natAbs_zero, roundHalfEven_of_lt (by simpa using hd)]
  · rw [Int.natAbs_mul, Int.natAbs_sign_of_ne_zero hn, Int.natAbs_natCast, Nat.one_mul]

/-- A double rounded half to even. -/
theorem toIntegral_halfEven (hx : x.isFinite = true) (hd : 0 < den) (h : size x = num / den) :
    toIntegral .halfEven x = nearest (isNegative x) (roundHalfEven num den) 1 := by
  have hden := (Magnitude.ofFloat x).denominator_pos
  have hquotient : (toInt .halfEven x).natAbs = roundHalfEven num den := by
    unfold toInt
    dsimp only
    rw [natAbs_quotient_halfEven _ hden]
    refine Eq.trans ?_ (roundHalfEven_of_quotient hden hd (size_eq_div x ▸ h))
    split
    · rw [Int.natAbs_neg, Int.natAbs_natCast]
    · rw [Int.natAbs_natCast]
  unfold toIntegral
  rw [if_pos hx, ofInt, copySign_eq (isNaN_nearest _ _ _), magnitudeBits_nearest, hquotient]
  rfl

theorem toIntegral_of_lt_half (hx : x.isFinite = true) (h : size x < 1 / 2) :
    toIntegral .halfEven x = nearest (isNegative x) 0 1 := by
  have hden := (Magnitude.ofFloat x).denominator_pos
  have hsmall : 2 * (Magnitude.ofFloat x).numerator < (Magnitude.ofFloat x).denominator := by
    rw [size_eq_div, div_lt_div_iff₀ (by positivity) two_pos] at h
    have hq : 2 * ((Magnitude.ofFloat x).numerator : ℚ) < (Magnitude.ofFloat x).denominator := by
      linarith
    exact_mod_cast hq
  rw [toIntegral_halfEven hx hden (size_eq_div x), roundHalfEven_of_lt hsmall]

/-- An integral size is the integer that is read off. -/
theorem toInt_truncation {n : Nat} (h : size x = n) :
    toInt .truncation x = if isNegative x then -(n : Int) else n := by
  have hnum : (Magnitude.ofFloat x).numerator = n * (Magnitude.ofFloat x).denominator := by
    have hden := (Magnitude.ofFloat x).denominator_pos
    rw [size_eq_div, div_eq_iff (by positivity)] at h
    exact_mod_cast h
  have hden : ((Magnitude.ofFloat x).denominator : Int) ≠ 0 := by
    exact_mod_cast (Magnitude.ofFloat x).denominator_pos.ne'
  unfold toInt Rounding.quotient
  dsimp only
  rw [hnum]
  split
  · rw [Nat.cast_mul, ← Int.neg_mul, Int.mul_tdiv_cancel _ hden]
  · rw [Nat.cast_mul, Int.mul_tdiv_cancel _ hden]

end

/-! ## Integers as doubles -/

theorem size_nearest_natural (negative : Bool) {n : Nat} (hn : n < 2 ^ 53) :
    size (nearest negative n 1) = n := by
  have hexact : (n : ℚ) / (1 : Nat) = n * 2 ^ (0 : Int) := by simp
  rw [size_nearest_of_exact _ Nat.one_pos hexact hn (by decide) (by decide)]
  simp

theorem size_nearest_even (negative : Bool) {n half : Nat} (hn : n = 2 * half)
    (hhalf : half < 2 ^ 53) : size (nearest negative n 1) = n := by
  have hexact : (n : ℚ) / (1 : Nat) = half * 2 ^ (1 : Int) := by
    rw [hn, zpow_one]
    push_cast
    ring
  rw [size_nearest_of_exact _ Nat.one_pos hexact hhalf (by decide) (by decide)]
  simp

theorem isFinite_nearest_natural (negative : Bool) {n : Nat} (hn : n < 2 ^ 64) :
    (nearest negative n 1).isFinite = true := by
  refine isFinite_nearest negative Nat.one_pos ?_
  rw [Nat.cast_one, div_one]
  calc (n : ℚ) < 2 ^ (64 : Int) := by exact_mod_cast hn
    _ ≤ 2 ^ (1023 : Int) := zpow_le_zpow_right₀ one_le_two (by decide)

/-- The size of the double nearest to an integer up to `2 ^ 54`. -/
def integerSize (n : Nat) : Nat :=
  if n < 2 ^ 53 then n else 2 * roundHalfEven n 2

theorem size_ofInt {n : Int} (hn : n.natAbs < 2 ^ 54) : size (ofInt n) = integerSize n.natAbs := by
  unfold integerSize ofInt
  split
  · rename_i hsmall
    exact size_nearest_natural _ hsmall
  · rename_i hlarge
    have hq : (0 : ℚ) < (n.natAbs : ℚ) / (1 : Nat) := by
      have : 0 < n.natAbs := by omega
      positivity
    have hlow : (2 : ℚ) ^ (53 : Int) ≤ (n.natAbs : ℚ) / (1 : Nat) := by
      rw [Nat.cast_one, div_one]
      exact_mod_cast Nat.le_of_not_lt hlarge
    have hhigh : (n.natAbs : ℚ) / (1 : Nat) < 2 ^ (53 + 1 : Int) := by
      rw [Nat.cast_one, div_one]
      exact_mod_cast hn
    have hexponent : roundingExponent ((n.natAbs : ℚ) / (1 : Nat)) = 1 := by
      rw [roundingExponent, log_eq hq hlow hhigh]
      rfl
    have hfinite : (n.natAbs : ℚ) / (1 : Nat) < 2 ^ (1023 : Int) :=
      hhigh.trans (zpow_lt_zpow_right₀ one_lt_two (by decide))
    rw [size_nearest _ (by omega) Nat.one_pos (nearestBits_lt_infinityBits Nat.one_pos hfinite),
      value_nearestMagnitude (by omega) Nat.one_pos, hexponent, zpow_one, mul_comm]
    push_cast
    rfl

/-- Below `2 ^ 53` a larger integer has a larger nearest double. -/
theorem nearestBits_natural_lt {m n : Nat} (hm : m < 2 ^ 53) (h : m < n) :
    nearestBits m 1 < nearestBits n 1 := by
  refine lt_of_le_of_ne (nearestBits_natural_mono h.le) fun heq => ?_
  -- a pattern shared with a larger integer is shared with the next one, which is a double too
  have hsucc : nearestBits m 1 = nearestBits (m + 1) 1 :=
    Nat.le_antisymm (nearestBits_natural_mono (Nat.le_succ m)) (heq ▸ nearestBits_natural_mono h)
  have hsize : size (nearest false m 1) = size (nearest false (m + 1) 1) := by
    rw [nearest, nearest, hsucc]
  have hsize' : size (nearest false (m + 1) 1) = (m + 1 : Nat) := by
    rcases Nat.lt_or_ge (m + 1) (2 ^ 53) with hlt | hge
    · exact size_nearest_natural false hlt
    · have hfull : m + 1 = 2 * 2 ^ 52 := by omega
      exact size_nearest_even false hfull (by decide)
  rw [size_nearest_natural false hm, hsize', Nat.cast_inj] at hsize
  omega

end FlatLisp.Binary64
