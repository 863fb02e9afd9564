/-
FlatLisp.Proofs.Rounding — where rounding an integer to tens, hundreds and so on is exact.

An integer is rounded to a multiple of a power of ten by dividing doubles, rounding
the quotient half to even and multiplying again. Taken as a double, an integer from
`2 ^ 53` on may be changed already, so the result is not always the nearest multiple,
and for large integers not even a multiple. The theorem here says how far rounding
can be relied on (`round_exact_iff`).

Up to there, no step loses anything that counts. The power of ten is itself a double.
The quotient is rounded, but by less than its distance from the middle between two
integers, which is a multiple of one part of the power of ten, or it is in the middle,
and then it is a double (`roundHalfEven_nearestMagnitude`). The product is even and
below `2 ^ 54`. What is left is the step from an integer past `2 ^ 53` to an even
neighbour; that is looked at case by case (`roundHalfEven_even_neighbour`). With twenty
places or more every quotient is less than a half, whatever the power of ten is taken
to be (`atLeast_powerBySquaring_ten`), so the answer is zero.
-/
import FlatLisp.Proofs.ExactIntegers
import FlatLisp.Proofs.PowersOfTen
import Mathlib

namespace FlatLisp

namespace Binary64

/-! ## Quotients by powers of ten -/

/-- No power of ten is as close to a power of two as the integers looked at here are to
`2 ^ 53`. -/
theorem ten_pow_apart : ∀ d < 19, ∀ k < 64, 2 ^ (k + 1) ≤ 10 ^ (d + 1) →
    (2 ^ 53 + 508) * 2 ^ k < 10 ^ (d + 1) * 2 ^ 52 := by
  decide +kernel

section

variable {m d : Nat}

theorem roundingExponent_nonpos (hd : 1 ≤ d) (hm : m ≤ 2 ^ 53 + 508) (hpos : 0 < m) :
    roundingExponent ((m : ℚ) / (10 ^ d : Nat)) ≤ 0 := by
  have hten : 10 ≤ 10 ^ d := Nat.pow_le_pow_right (by decide : 0 < 10) hd
  have hq : (0 : ℚ) < (m : ℚ) / (10 ^ d : Nat) := by positivity
  have hsmall : (m : ℚ) / (10 ^ d : Nat) < 2 ^ (53 : Int) := by
    rw [div_lt_iff₀ (by positivity)]
    have hnat : m < 2 ^ 53 * 10 ^ d := by omega
    exact_mod_cast hnat
  have hlog := (log_lt_iff hq 53).mpr hsmall
  unfold roundingExponent minExponent
  omega

/-- The last place of the quotient of an integer by a power of ten is less than two parts of that
power. -/
theorem lastPlace_lt (hd : 1 ≤ d) (hd' : d < 20) (hm : m ≤ 2 ^ 53 + 508) (hpos : 0 < m) :
    (2 : ℚ) ^ roundingExponent ((m : ℚ) / (10 ^ d : Nat)) * (10 ^ d : Nat) < 2 := by
  have hten : 10 ^ d < 2 ^ 64 :=
    lt_of_le_of_lt (Nat.pow_le_pow_right (by decide) (Nat.le_of_lt_succ hd')) (by decide)
  have hfull := le_of_roundingExponent (q := (m : ℚ) / (10 ^ d : Nat)) (by positivity)
  obtain ⟨k, hk⟩ := Int.exists_eq_neg_ofNat (roundingExponent_nonpos hd hm hpos)
  rw [hk, zpow_neg, zpow_natCast, inv_mul_eq_div]
  by_contra hlarge
  rw [not_lt, le_div_iff₀ (by positivity)] at hlarge
  have hlarge' : 2 ^ (k + 1) ≤ 10 ^ d := by
    rw [pow_succ']
    exact_mod_cast hlarge
  have hk64 : k + 1 < 64 := (Nat.pow_lt_pow_iff_right (by decide)).mp (hlarge'.trans_lt hten)
  -- so the quotient is not subnormal, and its significand has all of its places
  have hle := hfull (by rw [hk]; unfold minExponent; omega)
  rw [hk, le_div_iff₀ (by positivity), zpow_add₀ two_ne_zero, zpow_neg, zpow_natCast,
    inv_mul_eq_div, div_mul_eq_mul_div, div_le_iff₀ (by positivity)] at hle
  have hle' : 2 ^ 52 * 10 ^ d ≤ m * 2 ^ k := by exact_mod_cast hle
  obtain ⟨c, rfl⟩ : ∃ c, d = c + 1 := ⟨d - 1, by omega⟩
  have hapart := ten_pow_apart c (by omega) k (by omega) hlarge'
  have hbound : m * 2 ^ k ≤ (2 ^ 53 + 508) * 2 ^ k := Nat.mul_le_mul_right _ hm
  omega

/-- Off the middle between two integers, a quotient by an even number is at least one part of
it away from the middle. -/
theorem abs_sub_le_of_not_middle {k half : Nat} (hspec : IsNearestEven m (2 * half) k)
    (hoff : ¬ ∃ t, 2 * m = (2 * t + 1) * (2 * half)) (hhalf : 0 < half) :
    |(k : ℚ) - m / (2 * half : Nat)| ≤ 1 / 2 - 1 / (2 * half : Nat) := by
  have hbelow : k * (2 * half) + 1 ≤ m + half := by
    have hle := hspec.le
    by_contra hmiddle
    rcases k with _ | t
    · omega
    · refine hoff ⟨t, ?_⟩
      have hsucc : (t + 1) * (2 * half) = t * (2 * half) + 2 * half := Nat.succ_mul _ _
      have hodd : (2 * t + 1) * (2 * half) = 2 * (t * (2 * half)) + 2 * half := by ring
      omega
  have habove : m + 1 ≤ k * (2 * half) + half := by
    have hge := hspec.ge
    by_contra hmiddle
    refine hoff ⟨k, ?_⟩
    have hodd : (2 * k + 1) * (2 * half) = 2 * (k * (2 * half)) + 2 * half := by ring
    omega
  have hhalf' : (0 : ℚ) < half := by exact_mod_cast hhalf
  have hbelow' : (k : ℚ) * (2 * half) + 1 ≤ m + half := by exact_mod_cast hbelow
  have habove' : (m : ℚ) + 1 ≤ k * (2 * half) + half := by exact_mod_cast habove
  have hparts : (1 / 2 : ℚ) - 1 / (2 * half : Nat) = (half - 1) / (2 * half) := by
    push_cast
    field_simp
  have hdistance : (k : ℚ) - m / (2 * half : Nat) = (k * (2 * half) - m) / (2 * half) := by
    push_cast
    field_simp
  rw [hparts, hdistance, abs_div, abs_of_pos (by positivity : (0 : ℚ) < 2 * half)]
  refine div_le_div_of_nonneg_right (abs_le.mpr ⟨?_, ?_⟩) (by positivity)
  · linarith
  · linarith

/-- Rounding a quotient by a power of ten to a double does not move it across the middle
between two integers. -/
theorem roundHalfEven_nearestMagnitude (hd : 1 ≤ d) (hd' : d < 20)
    (hm : m ≤ 2 ^ 53 + 508) (hpos : 0 < m) {num den : Nat} (hden : 0 < den)
    (h : (nearestMagnitude m (10 ^ d)).value = num / den) :
    roundHalfEven num den = roundHalfEven m (10 ^ d) := by
  have hP : 0 < 10 ^ d := by positivity
  have hten : 10 ≤ 10 ^ d := Nat.pow_le_pow_right (by decide : 0 < 10) hd
  obtain ⟨half, hhalf⟩ : 2 ∣ 10 ^ d := dvd_pow (by decide) (by omega)
  by_cases htie : ∃ t, 2 * m = (2 * t + 1) * 10 ^ d
  · -- the middle itself is a double
    obtain ⟨t, ht⟩ := htie
    have hsmall : 2 * t + 1 < 2 ^ 53 := by
      have := Nat.mul_le_mul_left (2 * t + 1) hten
      omega
    have hvalue : (m : ℚ) / (10 ^ d : Nat) = (2 * t + 1 : Nat) * 2 ^ (-1 : Int) := by
      have htq : (2 : ℚ) * m = (2 * t + 1 : Nat) * (10 ^ d : Nat) := by exact_mod_cast ht
      rw [div_eq_iff (by positivity), zpow_neg_one]
      linarith
    refine roundHalfEven_of_quotient hden hP ?_
    rw [← h, value_nearestMagnitude_of_exact hpos hP hvalue hsmall (by decide)]
  · have hspec := isNearestEven_roundHalfEven hP m
    have hclose : |(num : ℚ) / den - m / (10 ^ d : Nat)| < 1 / (10 ^ d : Nat) := by
      have hunit := lastPlace_lt hd hd' hm hpos
      have herror := abs_value_nearestMagnitude_sub_le hpos hP
      rw [h] at herror
      refine herror.trans_lt ?_
      rw [div_lt_div_iff₀ two_pos (by positivity)]
      linarith
    rw [hhalf] at hclose hspec htie ⊢
    have hnear : |((roundHalfEven m (2 * half) : ℕ) : ℚ) - num / den| < 1 / 2 := by
      have htriangle := abs_sub_le ((roundHalfEven m (2 * half) : ℕ) : ℚ) (m / (2 * half : Nat))
        (num / den)
      have haway := abs_sub_le_of_not_middle hspec htie (by omega)
      rw [abs_sub_comm] at hclose
      linarith
    exact (isNearestEven_roundHalfEven hden num).eq (isNearestEven_of_abs_lt hden hnear) hden hden
      rfl

/-- A quotient by a power of ten that is rounded to a double and then to an integer. -/
theorem toIntegral_nearest_ten_pow (negative : Bool) (hd : 1 ≤ d) (hd' : d < 20)
    (hm : m ≤ 2 ^ 53 + 508) :
    toIntegral .halfEven (nearest negative m (10 ^ d))
      = nearest negative (roundHalfEven m (10 ^ d)) 1 := by
  have hP : 0 < 10 ^ d := by positivity
  have hfinite : (m : ℚ) / (10 ^ d : Nat) < 2 ^ (1023 : Int) := by
    have hone : (1 : ℚ) ≤ (10 ^ d : Nat) := by exact_mod_cast hP
    calc (m : ℚ) / (10 ^ d : Nat) ≤ m := div_le_self (by positivity) hone
      _ ≤ 2 ^ (54 : Int) := by exact_mod_cast hm.trans (by decide)
      _ < 2 ^ (1023 : Int) := zpow_lt_zpow_right₀ one_lt_two (by decide)
  have hden := (Magnitude.ofFloat (nearest negative m (10 ^ d))).denominator_pos
  have hsize := size_eq_div (nearest negative m (10 ^ d))
  rw [toIntegral_halfEven (isFinite_nearest negative hP hfinite) hden hsize, isNegative_nearest]
  congr 1
  rcases Nat.eq_zero_or_pos m with rfl | hpos
  · refine roundHalfEven_of_quotient hden hP ?_
    rw [← hsize, size_nearest_zero]
    simp
  · rw [size_nearest negative hpos hP (nearestBits_lt_infinityBits hP hfinite)] at hsize
    exact roundHalfEven_nearestMagnitude hd hd' hm hpos hden hsize

end

/-! ## Integers past `2 ^ 53` -/

/-- Past `2 ^ 53`, an odd integer and its even neighbour that is a double are rounded alike for a
while. -/
theorem roundHalfEven_even_neighbour : ∀ d < 19, ∀ i < 253,
    roundHalfEven (2 * roundHalfEven (2 ^ 53 + (2 * i + 1)) 2) (10 ^ (d + 1))
      = roundHalfEven (2 ^ 53 + (2 * i + 1)) (10 ^ (d + 1)) := by
  decide +kernel

/-- An integer taken as a double is rounded as itself. -/
theorem roundHalfEven_integerSize {n d : Nat} (hn : n < 9007199254741499) (hd : 1 ≤ d)
    (hd' : d < 20) : roundHalfEven (integerSize n) (10 ^ d) = roundHalfEven n (10 ^ d) := by
  unfold integerSize
  split
  · rfl
  · rename_i hlarge
    rcases Nat.mod_two_eq_zero_or_one n with heven | hodd
    · obtain ⟨half, rfl⟩ := Nat.dvd_of_mod_eq_zero heven
      rw [Nat.mul_comm 2 half, roundHalfEven_mul_self two_pos, Nat.mul_comm]
    · have hneighbour :=
        roundHalfEven_even_neighbour (d - 1) (by omega) ((n - 2 ^ 53) / 2) (by omega)
      have hn' : 2 ^ 53 + (2 * ((n - 2 ^ 53) / 2) + 1) = n := by omega
      have hd'' : d - 1 + 1 = d := by omega
      rwa [hn', hd''] at hneighbour

theorem integerSize_le {n : Nat} (hn : n < 9007199254741499) : integerSize n ≤ 2 ^ 53 + 508 := by
  have hnear := (isNearestEven_roundHalfEven two_pos n).le
  unfold integerSize
  split <;> omega

/-- What an integer is rounded to is not much larger than the integer. -/
theorem roundHalfEven_mul_lt {m d : Nat} (hm : m ≤ 2 ^ 53 + 508) (hd : 1 ≤ d) :
    roundHalfEven m (10 ^ d) < 2 ^ 53 ∧ roundHalfEven m (10 ^ d) * 10 ^ d < 2 ^ 54 := by
  have hle := (isNearestEven_roundHalfEven (by positivity : 0 < 10 ^ d) m).le
  have hten : 10 ≤ 10 ^ d := Nat.pow_le_pow_right (by decide : 0 < 10) hd
  generalize roundHalfEven m (10 ^ d) = k at *
  cases k with
  | zero => exact ⟨by decide, by rw [Nat.zero_mul]; decide⟩
  | succ k =>
    have hsucc : (k + 1) * 10 ^ d = k * 10 ^ d + 10 ^ d := Nat.succ_mul _ _
    have hmul : k * 10 ≤ k * 10 ^ d := Nat.mul_le_mul_left k hten
    have hfew : 10 ^ d ≤ 10 ^ 16 := by
      rcases Nat.lt_or_ge d 17 with hd' | hd'
      · exact Nat.pow_le_pow_right (by decide) (by omega)
      · have : 10 ^ 17 ≤ 10 ^ d := Nat.pow_le_pow_right (by decide) hd'
        omega
    rw [hsucc] at hle ⊢
    exact ⟨by omega, by omega⟩

end Binary64

namespace Operation

variable {H : Type}

open Binary64 (AtLeast ofInt nearest size)

/-! ## Nearest multiples -/

/-- The multiple of `unit` nearest to `n`, the even one of two. -/
def nearestMultiple (n : Int) (unit : Nat) : Int :=
  n.sign * (Binary64.roundHalfEven n.natAbs unit * unit : Nat)

theorem nearestMultiple_eq (n : Int) {unit : Nat} (hunit : 0 < unit) :
    nearestMultiple n unit =
      if n < 0 then -((Binary64.roundHalfEven n.natAbs unit * unit : Nat) : Int)
      else ((Binary64.roundHalfEven n.natAbs unit * unit : Nat) : Int) := by
  unfold nearestMultiple
  rcases lt_trichotomy n 0 with h | rfl | h
  · rw [if_pos h, Int.sign_eq_neg_one_of_neg h, neg_one_mul]
  · rw [Int.natAbs_zero, Binary64.roundHalfEven_of_lt (by simpa using hunit)]
    simp
  · rw [if_neg (by omega), Int.sign_eq_one_of_pos h, one_mul]

/-- No multiple is nearer, and if another one is as near this one is an even multiple. -/
theorem nearestMultiple_spec (n : Int) {unit : Nat} (hunit : 0 < unit) :
    ∃ k : Int, nearestMultiple n unit = k * unit ∧ 2 * |nearestMultiple n unit - n| ≤ unit ∧
      (2 * |nearestMultiple n unit - n| = unit → k % 2 = 0) := by
  obtain ⟨hle, hge, heven⟩ := Binary64.isNearestEven_roundHalfEven hunit n.natAbs
  rw [nearestMultiple_eq n hunit]
  generalize Binary64.roundHalfEven n.natAbs unit = k at *
  split
  · refine ⟨-k, by push_cast; ring, ?_, ?_⟩
    · rw [← Int.natCast_natAbs]
      omega
    · rw [← Int.natCast_natAbs]
      omega
  · refine ⟨k, by push_cast; ring, ?_, ?_⟩
    · rw [← Int.natCast_natAbs]
      omega
    · rw [← Int.natCast_natAbs]
      omega

/-- There is only one multiple like that. -/
theorem nearestMultiple_eq_iff {n m : Int} {unit : Nat} (hunit : 0 < unit) :
    nearestMultiple n unit = m ↔
      ∃ k : Int, m = k * unit ∧ 2 * |m - n| ≤ unit ∧ (2 * |m - n| = unit → k % 2 = 0) := by
  constructor
  · rintro rfl
    exact nearestMultiple_spec n hunit
  · rintro ⟨k, rfl, hnear, heven⟩
    obtain ⟨k', heq, hnear', heven'⟩ := nearestMultiple_spec n hunit
    rw [heq] at hnear' heven' ⊢
    rw [← Int.natCast_natAbs] at hnear heven hnear' heven'
    -- two different multiples are a unit apart, so both would be half a unit away from `n`
    have hapart : ∀ {i j : Int}, i < j → i * unit + unit ≤ j * unit := fun h => by
      rw [← add_one_mul]
      exact mul_le_mul_of_nonneg_right h (by positivity)
    have hunit' : (0 : Int) < unit := by exact_mod_cast hunit
    have hsucc : ∀ {i j : Int}, j * unit = i * unit + unit → j = i + 1 := fun h =>
      mul_right_cancel₀ hunit'.ne' (h.trans (add_one_mul _ _).symm)
    rcases lt_trichotomy k k' with h | rfl | h
    · have hgap := hapart h
      have hnext := @hsucc k k' (by omega)
      omega
    · rfl
    · have hgap := hapart h
      have hnext := @hsucc k' k (by omega)
      omega

/-- A unit that is more than twice as large leaves nothing. -/
theorem nearestMultiple_of_lt {n : Int} {unit : Nat} (h : 2 * n.natAbs < unit) :
    nearestMultiple n unit = 0 := by
  rw [nearestMultiple, Binary64.roundHalfEven_of_lt h]
  simp

/-! ## Few places -/

section

variable {n : Int64} {d : Nat}

/-- The quotient, rounded to a double and then to an integer. -/
theorem roundHalfEven_quotient (hn : n.toInt.natAbs < 9007199254741499) (hd : 1 ≤ d)
    (hd' : d < 20) : roundHalfEven (ofInt n.toInt / ofInt (10 ^ d))
      = nearest (n.toInt < 0) (Binary64.roundHalfEven n.toInt.natAbs (10 ^ d)) 1 := by
  obtain ⟨hsign, hfinite, hsize⟩ := Binary64.ofInt_ten_pow (d := d) (by omega)
  have hx := Binary64.size_ofInt (n := n.toInt) (by omega)
  have hxfinite : (ofInt n.toInt).isFinite = true :=
    Binary64.isFinite_nearest_natural _ (by omega)
  have hxsign : Binary64.isNegative (ofInt n.toInt) = decide (n.toInt < 0) :=
    Binary64.isNegative_nearest _ _ _
  have hquotient : size (ofInt n.toInt) / size (ofInt (10 ^ d))
      = Binary64.integerSize n.toInt.natAbs / (10 ^ d : Nat) := by rw [hx, hsize]
  rw [Binary64.div_of_size hxfinite hfinite (by rw [hsize]; positivity) (by positivity) hquotient,
    hxsign, hsign, Bool.bne_false, ← Binary64.roundHalfEven_integerSize hn hd hd']
  exact Binary64.toIntegral_nearest_ten_pow _ hd hd' (Binary64.integerSize_le hn)

/-- The product with the power of ten is exact, and so is the integer that is read off. -/
theorem rounded_product (negative : Bool) {k : Nat} (hk : k < 2 ^ 53) (hd : 1 ≤ d)
    (hd' : d < 20) (hproduct : k * 10 ^ d < 2 ^ 54) :
    Number.rounded "round" .truncation (nearest negative k 1 * ofInt (10 ^ d))
      = Number.exact "round"
        (if negative then -((k * 10 ^ d : Nat) : Int) else ((k * 10 ^ d : Nat) : Int)) := by
  obtain ⟨half, hhalf⟩ : 2 ∣ 10 ^ d := dvd_pow (by decide) (by omega)
  obtain ⟨hsign, hfinite, hsize⟩ := Binary64.ofInt_ten_pow (d := d) (by omega)
  have heven : k * 10 ^ d = 2 * (k * half) := by
    rw [hhalf]
    ring
  have hvalue : size (nearest negative k 1) * size (ofInt (10 ^ d))
      = (k * 10 ^ d : Nat) / (1 : Nat) := by
    rw [Binary64.size_nearest_natural _ hk, hsize]
    push_cast
    ring
  rw [Binary64.mul_of_size (Binary64.isFinite_nearest_natural _ (by omega)) hfinite Nat.one_pos
    hvalue, Binary64.isNegative_nearest, hsign, Bool.bne_false, Number.rounded,
    if_pos (Binary64.isFinite_nearest_natural _ (by omega)),
    Binary64.toInt_truncation (Binary64.size_nearest_even _ heven (by omega)),
    Binary64.isNegative_nearest]

theorem roundInteger_of_few (hn : n.toInt.natAbs < 9007199254741499) (hd : 1 ≤ d)
    (hd' : d < 20) : roundInteger n (Binary64.powerBySquaring 10.0 d)
      = Number.exact "round" (nearestMultiple n.toInt (10 ^ d)) := by
  obtain ⟨_, hfinite, _⟩ := Binary64.ofInt_ten_pow (d := d) (by omega)
  have hinf : (ofInt (10 ^ d)).isInf = false := by
    rw [Binary64.isFinite_iff] at hfinite
    rw [← Bool.not_eq_true, Binary64.isInf_iff]
    omega
  obtain ⟨hk, hproduct⟩ := Binary64.roundHalfEven_mul_lt (Binary64.integerSize_le hn) hd
  rw [Binary64.roundHalfEven_integerSize hn hd hd'] at hk hproduct
  rw [Binary64.powerBySquaring_ten d (by omega), roundInteger, hinf, if_neg Bool.false_ne_true]
  show Number.rounded "round" .truncation (roundHalfEven (ofInt n.toInt / _) * _) = _
  rw [roundHalfEven_quotient hn hd hd', rounded_product _ hk hd hd' hproduct,
    nearestMultiple_eq _ (by positivity)]
  simp only [decide_eq_true_eq]

/-! ## Many places -/

/-- Every quotient by a power of ten this large is rounded to zero. -/
theorem roundHalfEven_quotient_of_large (n : Int64) {scale : Float}
    (hscale : AtLeast scale (2 ^ 66)) (hfinite : scale.isFinite = true) :
    roundHalfEven (ofInt n.toInt / scale) = nearest (Binary64.isNegative (ofInt n.toInt)) 0 1 := by
  have hn := natAbs_toInt_le n
  have hsize := hscale.le_size hfinite
  have hpos : 0 < size scale := lt_of_lt_of_le (by positivity) hsize
  have hx : size (ofInt n.toInt) ≤ 2 ^ (63 : Int) := by
    refine Binary64.size_nearest_le_pow _ Nat.one_pos (by decide) (by decide) ?_
    rw [Nat.cast_one, div_one]
    exact_mod_cast hn
  have hsmall : size (ofInt n.toInt) / size scale ≤ 2 ^ (-3 : Int) := by
    rw [div_le_iff₀ hpos]
    calc size (ofInt n.toInt) ≤ 2 ^ (63 : Int) := hx
      _ = 2 ^ (-3 : Int) * 2 ^ 66 := by norm_num
      _ ≤ 2 ^ (-3 : Int) * size scale := mul_le_mul_of_nonneg_left hsize (by positivity)
  obtain ⟨num, den, hden, hquotient⟩ := Binary64.exists_quotient (ofInt n.toInt) hpos
  rw [hquotient] at hsmall
  have hqfinite : (num : ℚ) / den < 2 ^ (1023 : Int) :=
    hsmall.trans_lt (zpow_lt_zpow_right₀ one_lt_two (by decide))
  have hqsize := Binary64.size_nearest_le_pow (Binary64.isNegative (ofInt n.toInt)) hden
    (by decide) (by decide) hsmall
  have hxfinite : (ofInt n.toInt).isFinite = true :=
    Binary64.isFinite_nearest_natural _ (by omega)
  rw [Binary64.div_of_size hxfinite hfinite hpos hden hquotient, hscale.positive, Bool.bne_false,
    roundHalfEven,
    Binary64.toIntegral_of_lt_half (Binary64.isFinite_nearest _ hden hqfinite)
      (hqsize.trans_lt (by norm_num)), Binary64.isNegative_nearest]

theorem roundInteger_of_many (n : Int64) (hd : 20 ≤ d) :
    roundInteger n (Binary64.powerBySquaring 10.0 d) = .ok (.int 0) := by
  have hscale := Binary64.atLeast_powerBySquaring_ten hd
  generalize Binary64.powerBySquaring 10.0 d = scale at *
  unfold roundInteger
  split
  case isTrue => rfl
  case isFalse hinf =>
    have hfinite : scale.isFinite = true := by
      have hle := Binary64.magnitudeBits_le_of_isNaN hscale.isNaN
      rw [Binary64.isInf_iff] at hinf
      rw [Binary64.isFinite_iff]
      omega
    have hproduct : size (nearest (Binary64.isNegative (ofInt n.toInt)) 0 1) * size scale
        = (0 : Nat) / (1 : Nat) := by
      rw [Binary64.size_nearest_zero]
      simp
    show Number.rounded "round" .truncation (roundHalfEven (ofInt n.toInt / scale) * scale) = _
    rw [roundHalfEven_quotient_of_large n hscale hfinite,
      Binary64.mul_of_size (Binary64.isFinite_nearest_natural _ (by decide)) hfinite Nat.one_pos
        hproduct, Number.rounded, if_pos (Binary64.isFinite_nearest_natural _ (by decide)),
      Binary64.toInt_truncation (n := 0) (Binary64.size_nearest_zero _ _)]
    simp only [Nat.cast_zero, neg_zero, ite_self]
    rfl

end

/-! ## The operation -/

theorem evalRound_int (n : Int64) {digits : Int64} (h : digits.toInt < 0) :
    evalRound [.int n, .int digits]
      = (do return .number (← roundInteger n (Binary64.powerBySquaring 10.0
          (min digits.toInt.natAbs 400))) : Except Error (Value H)) := by
  have hplaces : (max (-maxPlaces) (min digits.toInt maxPlaces)).natAbs
      = min digits.toInt.natAbs 400 := by
    unfold maxPlaces
    omega
  have hnegative : ¬ 0 ≤ max (-maxPlaces) (min digits.toInt maxPlaces) := by
    unfold maxPlaces
    omega
  show (do return .number (← roundTo (.int n) digits.toInt) : Except Error (Value H)) = _
  rw [roundTo, placeScale_eq_ok (by rw [hplaces]; omega), ok_bind, hplaces]
  dsimp only
  rw [if_neg hnegative]

theorem evalRound_exact (n : Int64) {digits : Int64} (h : digits.toInt < 0)
    (hexact : n.toInt.natAbs < 9007199254741499 ∨ digits.toInt ≤ -20) :
    evalRound [.int n, .int digits]
      = (exactAnswer "round" (nearestMultiple n.toInt (10 ^ digits.toInt.natAbs)) :
        Except Error (Value H)) := by
  rw [evalRound_int n h]
  rcases Nat.lt_or_ge digits.toInt.natAbs 20 with hfew | hmany
  · have hmin : min digits.toInt.natAbs 400 = digits.toInt.natAbs := by omega
    rw [hmin, roundInteger_of_few (hexact.resolve_right (by omega)) (by omega) hfew,
      exact_bind_number]
  · have hten : 10 ^ 20 ≤ 10 ^ digits.toInt.natAbs := Nat.pow_le_pow_right (by decide) hmany
    have hn := natAbs_toInt_le n
    rw [roundInteger_of_many n (by omega), nearestMultiple_of_lt (by omega), exactAnswer_zero]
    rfl

/-- The least integer that is rounded wrongly, to thousands: it is just below the middle between
two multiples, and the double nearest to it is in the middle. -/
theorem evalRound_past_middle :
    evalRound [.int 9007199254741499, .int (-3)]
      = (.ok (.int 9007199254742000) : Except Error (Value H)) := by
  have hrounded : roundInteger 9007199254741499 (Binary64.powerBySquaring 10.0 3)
      = .ok (.int 9007199254742000) := by
    decide +kernel
  exact (evalRound_int _ (by decide)).trans (congrArg (· >>= _) hrounded)

/-- **Where rounding integers is exact.** With a negative number of places an integer is rounded
to the nearest multiple of a power of ten, the even one of two, or it overflows if that is not in
the 64-bit range, as long as its size is below 9007199254741499, which is `2 ^ 53 + 507`, and no
further: whatever larger bound is set on the size, some integer within it is rounded to another
number. With twenty places or more every integer is rounded exactly, to zero. -/
theorem round_exact_iff (bound : Nat) :
    ((∀ n digits : Int64, digits.toInt < 0 → n.toInt.natAbs ≤ bound →
        round.eval [.int n, .int digits]
          = (exactAnswer "round" (nearestMultiple n.toInt (10 ^ digits.toInt.natAbs)) :
            Except Error (Value H))) ↔ bound < 9007199254741499) ∧
    (∀ n digits : Int64, digits.toInt ≤ -20 →
        round.eval [.int n, .int digits]
          = (exactAnswer "round" (nearestMultiple n.toInt (10 ^ digits.toInt.natAbs)) :
            Except Error (Value H))) := by
  refine ⟨⟨fun h => ?_, fun hbound n digits hdigits hn => ?_⟩, fun n digits hdigits => ?_⟩
  · by_contra hlarge
    have hsize : (9007199254741499 : Int64).toInt.natAbs = 9007199254741499 := by decide
    have hmultiple : nearestMultiple (9007199254741499 : Int64).toInt
        (10 ^ (-3 : Int64).toInt.natAbs) = 9007199254741000 := by
      decide +kernel
    have hexact := h 9007199254741499 (-3) (by decide) (by omega)
    rw [hmultiple, exactAnswer_of_mem (by decide)] at hexact
    have hvalues := Except.ok.inj (evalRound_past_middle.symm.trans hexact)
    exact absurd (Number.int.inj (Value.number.inj hvalues)) (by decide)
  · exact evalRound_exact n hdigits (.inl (by omega))
  · exact evalRound_exact n (by omega) (.inr hdigits)

/-- Rounded to tens, a multiple of ten is changed into an integer that is none. -/
theorem round_changes_multiple_of_ten :
    round.eval [.int 20000000000000010, .int (-1)]
        = (.ok (.int 20000000000000008) : Except Error (Value Empty)) ∧
      exactAnswer "round" (nearestMultiple (20000000000000010 : Int64).toInt 10)
        = (.ok (.int 20000000000000010) : Except Error (Value Empty)) := by
  have hrounded : roundInteger 20000000000000010 (Binary64.powerBySquaring 10.0 1)
      = .ok (.int 20000000000000008) := by
    decide +kernel
  have hmultiple : nearestMultiple (20000000000000010 : Int64).toInt 10 = 20000000000000010 := by
    decide +kernel
  constructor
  · exact (evalRound_int _ (by decide)).trans (congrArg (· >>= _) hrounded)
  · rw [hmultiple]
    rfl

end Operation

end FlatLisp
