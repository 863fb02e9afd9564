/-
FlatLisp.Proofs.NearestMagnitude — the size of the double nearest to a quotient.

The pattern of the nearest double stands for a significand with its exponent, where
a significand that has been rounded up to `2 ^ 53` is halved (`nearestMagnitude`).
As a number that is at most half a unit of the last place away from the quotient
(`abs_value_nearestMagnitude_sub_le`), it is the quotient itself if 53 places are
enough for it (`value_nearestMagnitude_of_exact`), and it is on the same side of
every power of two. From `overflowBound` on infinity is nearest
(`nearestBits_eq_infinityBits_iff`).
-/
import FlatLisp.Proofs.NearestDouble

namespace FlatLisp.Binary64

/-! ## The nearest magnitude -/

namespace Magnitude

/-- A canonical magnitude comes back from its pattern. -/
theorem IsCanonical.ofBits_bits {m : Magnitude} (h : m.IsCanonical) (hlt : m.bits < infinityBits) :
    ofBits m.bits = m := by
  obtain ⟨s, x⟩ := m
  have hsig : s < 2 ^ 53 := h.significand_lt
  have hfull : x = minExponent ∨ 2 ^ 52 ≤ s := h.full
  obtain ⟨k, rfl⟩ : ∃ k : Nat, x = minExponent + k :=
    ⟨(x - minExponent).toNat, by have : minExponent ≤ x := h.minExponent_le; omega⟩
  have hbits : Magnitude.bits ⟨s, minExponent + k⟩ = s + k * hiddenBit := by
    unfold bits
    congr 2
    dsimp only
    omega
  rw [hbits] at hlt ⊢
  have hfield : (s + k * hiddenBit) / hiddenBit % fieldCount = (s + k * hiddenBit) / hiddenBit := by
    refine Nat.mod_eq_of_lt ?_
    unfold infinityBits hiddenBit at hlt
    unfold hiddenBit fieldCount
    omega
  unfold ofBits
  simp only [hfield]
  rcases Nat.lt_or_ge s (2 ^ 52) with hsub | hnormal
  · have hk : k = 0 := by omega
    unfold hiddenBit
    rw [if_pos (by omega), hk, mk.injEq]
    omega
  · unfold hiddenBit
    rw [if_neg (by omega), mk.injEq]
    omega

/-- The magnitude `significand · 2 ^ exponent`, where a significand that fills one place more
is halved. -/
def carried (significand : Nat) (exponent : Int) : Magnitude :=
  if significand < 2 ^ 53 then ⟨significand, exponent⟩ else ⟨2 ^ 52, exponent + 1⟩

section

variable {significand : Nat} {exponent : Int}

theorem isCanonical_carried (hmin : minExponent ≤ exponent)
    (hfull : exponent ≠ minExponent → 2 ^ 52 ≤ significand) :
    (carried significand exponent).IsCanonical := by
  unfold carried
  split
  · rename_i hlt
    exact ⟨hlt, hmin, or_iff_not_imp_left.mpr hfull⟩
  · exact ⟨Nat.pow_lt_pow_right (by decide) (by decide), by dsimp only; omega,
      .inr (Nat.le_refl _)⟩

theorem bits_carried (hle : significand ≤ 2 ^ 53) (hmin : minExponent ≤ exponent) :
    (carried significand exponent).bits
      = significand + (exponent - minExponent).toNat * hiddenBit := by
  unfold carried
  split
  · rfl
  · unfold bits hiddenBit
    dsimp only
    omega

theorem value_carried (hle : significand ≤ 2 ^ 53) :
    (carried significand exponent).value = significand * 2 ^ exponent := by
  unfold carried
  split
  · rfl
  · have hsig : significand = 2 ^ 53 := by omega
    rw [value, hsig, zpow_add₀ two_ne_zero]
    push_cast
    ring

end

end Magnitude

/-- The magnitude nearest to a quotient. -/
def nearestMagnitude (num den : Nat) : Magnitude :=
  .carried (significandAt num den (roundingExponent ((num : ℚ) / den)))
    (roundingExponent ((num : ℚ) / den))

section

variable {num den : Nat}

theorem isCanonical_nearestMagnitude (hn : 0 < num) (hd : 0 < den) :
    (nearestMagnitude num den).IsCanonical :=
  Magnitude.isCanonical_carried (minExponent_le_roundingExponent _)
    (le_significandAt_roundingExponent hn hd)

theorem nearestBits_eq_min (hn : 0 < num) (hd : 0 < den) :
    nearestBits num den = min (nearestMagnitude num den).bits infinityBits := by
  rw [nearestBits_eq hn hd, nearestMagnitude, Magnitude.bits_carried
    (significandAt_roundingExponent_le hn hd) (minExponent_le_roundingExponent _)]
  rfl

theorem value_nearestMagnitude (hn : 0 < num) (hd : 0 < den) :
    (nearestMagnitude num den).value
      = significandAt num den (roundingExponent ((num : ℚ) / den))
        * 2 ^ roundingExponent ((num : ℚ) / den) :=
  Magnitude.value_carried (significandAt_roundingExponent_le hn hd)

/-- A quotient is at most half a unit of its last place away from the nearest magnitude. -/
theorem abs_value_nearestMagnitude_sub_le (hn : 0 < num) (hd : 0 < den) :
    |(nearestMagnitude num den).value - num / den|
      ≤ 2 ^ roundingExponent ((num : ℚ) / den) / 2 := by
  rw [value_nearestMagnitude hn hd]
  exact abs_significandAt_sub_le hd num _

/-- What has at most 53 places is its own nearest magnitude. -/
theorem value_nearestMagnitude_of_exact (hn : 0 < num) (hd : 0 < den) {s : Nat} {x : Int}
    (hvalue : (num : ℚ) / den = s * 2 ^ x) (hs : s < 2 ^ 53) (hx : minExponent ≤ x) :
    (nearestMagnitude num den).value = num / den := by
  have hq : (0 : ℚ) < num / den := by positivity
  have hlog : Int.log 2 ((num : ℚ) / den) < 53 + x := by
    rw [log_lt_iff hq, hvalue, zpow_add₀ two_ne_zero]
    refine mul_lt_mul_of_pos_right ?_ (by positivity)
    exact_mod_cast hs
  have hexponent : roundingExponent ((num : ℚ) / den) ≤ x := by
    unfold roundingExponent
    omega
  rw [value_nearestMagnitude hn hd]
  generalize roundingExponent ((num : ℚ) / den) = e at *
  have hshifted : (num : ℚ) / den = (s * 2 ^ (x - e).toNat : Nat) * 2 ^ e := by
    rw [hvalue, Nat.cast_mul, Nat.cast_pow, Nat.cast_ofNat, ← zpow_natCast,
      Int.toNat_of_nonneg (by omega), mul_assoc, ← zpow_add₀ two_ne_zero, sub_add_cancel]
  have hsig : significandAt num den e = s * 2 ^ (x - e).toNat :=
    Nat.le_antisymm (significandAt_le hd hshifted.le) (le_significandAt hd hshifted.ge)
  rw [hsig, hshifted]

end

/-! ## Overflow -/

/-- The least number that is nearest to infinity: half a unit of the last place above the
greatest double. -/
def overflowBound : Nat := 2 ^ 1024 - 2 ^ 970

theorem cast_two_pow_sub {m n : Nat} (h : n ≤ m) :
    ((2 ^ m - 2 ^ n : Nat) : ℚ) = 2 ^ (m : Int) - 2 ^ (n : Int) := by
  rw [Nat.cast_sub (Nat.pow_le_pow_right (by decide) h), Nat.cast_pow, Nat.cast_pow,
    Nat.cast_ofNat, zpow_natCast, zpow_natCast]

theorem cast_overflowBound :
    (overflowBound : ℚ) = 2 ^ (53 : Int) * 2 ^ (971 : Int) - 2 ^ (971 : Int) / 2 := by
  rw [← zpow_add₀ two_ne_zero, div_eq_mul_inv, ← zpow_sub_one₀ two_ne_zero]
  exact cast_two_pow_sub (by decide)

section

variable {num den : Nat}

/-- What is below the bound has a finite pattern. -/
theorem nearestBits_lt_of_lt_overflowBound (hd : 0 < den) (h : (num : ℚ) / den < overflowBound) :
    nearestBits num den < infinityBits := by
  rw [cast_overflowBound] at h
  rcases Nat.eq_zero_or_pos num with rfl | hn
  · rw [nearestBits_zero]
    decide
  · have hq : (0 : ℚ) < num / den := by positivity
    have hsig := significandAt_roundingExponent_le hn hd
    have hround := (abs_le.mp (abs_significandAt_sub_le hd num
      (roundingExponent ((num : ℚ) / den)))).2
    have hexponent : roundingExponent ((num : ℚ) / den) ≤ 971 := by
      have hlt : (num : ℚ) / den < 2 ^ (1024 : Int) := by
        rw [← zpow_add₀ two_ne_zero] at h
        exact h.trans (sub_lt_self _ (by positivity))
      have hlog := (log_lt_iff hq 1024).mpr hlt
      unfold roundingExponent minExponent
      omega
    rw [nearestBits_eq_min hn hd, nearestMagnitude, Magnitude.bits_carried hsig
      (minExponent_le_roundingExponent _)]
    refine lt_of_le_of_lt (Nat.min_le_left _ _) ?_
    generalize roundingExponent ((num : ℚ) / den) = t at *
    generalize significandAt num den t = significand at *
    unfold minExponent hiddenBit infinityBits
    rcases eq_or_ne t 971 with ht | ht
    · -- at the greatest exponent the significand is not rounded up to `2 ^ 53`
      have hlt : (significand : ℚ) * 2 ^ (971 : Int) < 2 ^ (53 : Int) * 2 ^ (971 : Int) := by
        rw [ht] at hround
        linarith only [h, hround]
      have hlt' : significand < 2 ^ 53 := by
        exact_mod_cast lt_of_mul_lt_mul_right hlt (by positivity)
      omega
    · omega

/-- The bound itself is a tie, and infinity has the even pattern. -/
theorem nearestBits_eq_infinityBits_iff (hd : 0 < den) :
    nearestBits num den = infinityBits ↔ (overflowBound : ℚ) ≤ num / den := by
  constructor
  · intro hinf
    by_contra h
    exact (nearestBits_lt_of_lt_overflowBound hd (not_le.mp h)).ne hinf
  · intro h
    have hbound : nearestBits overflowBound 1 = infinityBits := by decide +kernel
    refine le_antisymm (nearestBits_le_infinityBits _ _) ?_
    rw [← hbound]
    refine nearestBits_mono Nat.one_pos hd ?_
    rw [le_div_iff₀ (by exact_mod_cast hd)] at h
    rw [Nat.mul_one]
    exact_mod_cast h

/-- A quotient below `2 ^ 1023` has a finite pattern. -/
theorem nearestBits_lt_infinityBits (hd : 0 < den) (h : (num : ℚ) / den < 2 ^ (1023 : Int)) :
    nearestBits num den < infinityBits := by
  have hbound : (2 : ℚ) ^ (1023 : Int) ≤ overflowBound := by
    have htop : (2 : ℚ) ^ (1023 : Int) = 2 ^ (52 : Int) * 2 ^ (971 : Int) := by
      rw [← zpow_add₀ two_ne_zero]
      rfl
    have hpos : (0 : ℚ) < 2 ^ (971 : Int) := by positivity
    rw [cast_overflowBound, htop]
    generalize (2 : ℚ) ^ (971 : Int) = unit at *
    norm_num
    linarith only [hpos]
  exact nearestBits_lt_of_lt_overflowBound hd (h.trans_le hbound)

end

/-! ## Bounds by powers of two -/

section

variable {num den : Nat}

theorem pow_toNat_mul {e k : Int} (h : e ≤ k) :
    ((2 ^ (k - e).toNat : Nat) : ℚ) * 2 ^ e = 2 ^ k := by
  rw [Nat.cast_pow, Nat.cast_ofNat, ← zpow_natCast, Int.toNat_of_nonneg (by omega),
    ← zpow_add₀ two_ne_zero, sub_add_cancel]

/-- Rounding keeps powers of two as lower bounds. -/
theorem pow_le_value_nearestMagnitude (hn : 0 < num) (hd : 0 < den) {k : Int}
    (hk : minExponent ≤ k) (h : (2 : ℚ) ^ k ≤ num / den) :
    (2 : ℚ) ^ k ≤ (nearestMagnitude num den).value := by
  have hfull := le_significandAt_roundingExponent hn hd
  rw [value_nearestMagnitude hn hd]
  generalize roundingExponent ((num : ℚ) / den) = e at *
  rcases le_or_gt e k with hle | hlt
  · rw [← pow_toNat_mul hle] at h ⊢
    exact mul_le_mul_of_nonneg_right (by exact_mod_cast le_significandAt hd h) (by positivity)
  · have hone : (1 : ℚ) ≤ significandAt num den e := by
      have := hfull (by omega)
      exact_mod_cast (by omega : 1 ≤ significandAt num den e)
    calc (2 : ℚ) ^ k ≤ 2 ^ e := zpow_le_zpow_right₀ one_le_two hlt.le
      _ ≤ significandAt num den e * 2 ^ e := le_mul_of_one_le_left (by positivity) hone

/-- Rounding keeps powers of two as upper bounds. -/
theorem value_nearestMagnitude_le_pow (hn : 0 < num) (hd : 0 < den) {k : Int}
    (hk : minExponent ≤ k) (h : (num : ℚ) / den ≤ 2 ^ k) :
    (nearestMagnitude num den).value ≤ 2 ^ k := by
  have hq : (0 : ℚ) < num / den := by positivity
  have hle : roundingExponent ((num : ℚ) / den) ≤ k := by
    by_contra hgt
    have hlow := (le_of_roundingExponent hq (by omega)).trans h
    have := (zpow_le_zpow_iff_right₀ (one_lt_two (α := ℚ))).mp hlow
    omega
  rw [value_nearestMagnitude hn hd]
  generalize roundingExponent ((num : ℚ) / den) = e at *
  rw [← pow_toNat_mul hle] at h ⊢
  exact mul_le_mul_of_nonneg_right (by exact_mod_cast significandAt_le hd h) (by positivity)

end

end FlatLisp.Binary64
