/-
FlatLisp.Proofs.DecimalValue — decimals as rational numbers, and that the
digits chosen for a double read back to it.

`Decimal.value` is the number that a decimal stands for, its sign apart. The
double that a decimal is read as depends on that number only
(`magnitudeBits_congr`): the two shortcuts for exponents far out of range give
what the division would (`magnitudeBits_eq`). The decimal that is chosen to
print a pattern reads back to the pattern (`magnitudeBits_shortest`), whether
a grid answered or the exact value had to be written out.
-/
import FlatLisp.Decimal.Shortest
import FlatLisp.Proofs.NearestDouble

namespace FlatLisp.Decimal

open Binary64

/-- The number `coefficient · 10 ^ exponent`. -/
def value (d : Decimal) : ℚ :=
  d.coefficient * 10 ^ d.exponent

theorem tenPow_pos (n : Nat) : 0 < tenPow n :=
  Nat.pow_pos (by decide)

theorem cast_tenPow (n : Nat) : (tenPow n : ℚ) = 10 ^ n := by
  rw [tenPow]
  exact Nat.cast_pow 10 n

/-- The value as the quotient that is rounded. -/
theorem quotient_eq_value (d : Decimal) :
    ((d.coefficient * tenPow d.exponent.toNat : Nat) : ℚ) / (tenPow (-d.exponent).toNat : Nat)
      = d.value := by
  have hden : (0 : ℚ) < (tenPow (-d.exponent).toNat : Nat) := by
    exact_mod_cast tenPow_pos _
  rw [div_eq_iff hden.ne', value, mul_assoc, Nat.cast_mul, cast_tenPow, cast_tenPow,
    zpow_mul_pow_neg (by norm_num)]

/-! ## Far out of range -/

theorem two_zpow_le_ten_zpow : (2 : ℚ) ^ (1200 : Int) ≤ 10 ^ (400 : Int) := by
  have h : (2 : ℚ) ^ (1200 : Int) = (2 ^ (3 : Int)) ^ (400 : Int) := by
    rw [← zpow_mul]
    norm_num
  rw [h]
  exact zpow_le_zpow_left₀ (by norm_num) (by norm_num) (by norm_num)

theorem value_of_large {d : Decimal} (hc : d.coefficient ≠ 0) (h : exponentBound < d.exponent) :
    (2 : ℚ) ^ (1024 : Int) ≤ d.value := by
  have hone : (1 : ℚ) ≤ d.coefficient := by exact_mod_cast Nat.one_le_iff_ne_zero.mpr hc
  have hexp : (10 : ℚ) ^ (400 : Int) ≤ 10 ^ d.exponent := by
    refine zpow_le_zpow_right₀ (by norm_num) ?_
    unfold exponentBound at h
    omega
  calc (2 : ℚ) ^ (1024 : Int) ≤ 2 ^ (1200 : Int) :=
        zpow_le_zpow_right₀ one_le_two (by norm_num)
    _ ≤ 10 ^ (400 : Int) := two_zpow_le_ten_zpow
    _ ≤ 1 * 10 ^ d.exponent := by rwa [one_mul]
    _ ≤ d.value := mul_le_mul_of_nonneg_right hone (zpow_pos (by norm_num) _).le

/-- A coefficient of `k` binary digits has at most `k` decimal ones. -/
theorem value_of_small {d : Decimal}
    (h : d.exponent + d.coefficient.log2 + 1 < -exponentBound) :
    d.value < (2 : ℚ) ^ (-1075 : Int) := by
  have hcoef : (d.coefficient : ℚ) < 10 ^ ((d.coefficient.log2 : Int) + 1) := by
    have h2 : d.coefficient < 2 ^ (d.coefficient.log2 + 1) := Nat.lt_log2_self
    have h10 : 2 ^ (d.coefficient.log2 + 1) ≤ 10 ^ (d.coefficient.log2 + 1) :=
      Nat.pow_le_pow_left (by decide) _
    exact_mod_cast lt_of_lt_of_le h2 h10
  have hexp : (d.coefficient.log2 : Int) + 1 + d.exponent ≤ -400 := by
    unfold exponentBound at h
    omega
  calc d.value < 10 ^ ((d.coefficient.log2 : Int) + 1) * 10 ^ d.exponent :=
        mul_lt_mul_of_pos_right hcoef (zpow_pos (by norm_num) _)
    _ = 10 ^ ((d.coefficient.log2 : Int) + 1 + d.exponent) := (zpow_add₀ (by norm_num) _ _).symm
    _ ≤ 10 ^ (-400 : Int) := zpow_le_zpow_right₀ (by norm_num) hexp
    _ = (10 ^ (400 : Int))⁻¹ := zpow_neg _ _
    _ ≤ (2 ^ (1200 : Int))⁻¹ := inv_anti₀ (by positivity) two_zpow_le_ten_zpow
    _ = 2 ^ (-1200 : Int) := (zpow_neg _ _).symm
    _ ≤ 2 ^ (-1075 : Int) := zpow_le_zpow_right₀ one_le_two (by norm_num)

/-! ## Reading a decimal as a double -/

/-- The shortcuts give what dividing gives. -/
theorem magnitudeBits_eq (d : Decimal) :
    d.magnitudeBits
      = nearestBits (d.coefficient * tenPow d.exponent.toNat) (tenPow (-d.exponent).toNat) := by
  have hden : 0 < tenPow (-d.exponent).toNat := tenPow_pos _
  unfold magnitudeBits
  split
  · rename_i hc
    rw [hc, Nat.zero_mul, nearestBits_zero]
  · rename_i hc
    split
    · rename_i h
      refine (nearestBits_of_large hden ?_).symm
      rw [quotient_eq_value]
      exact value_of_large hc h
    · split
      · rename_i h
        refine (nearestBits_of_small hden ?_).symm
        rw [quotient_eq_value]
        exact value_of_small h
      · rfl

/-- Decimals of one value are read as one double, their signs apart. -/
theorem magnitudeBits_congr {d d' : Decimal} (h : d.value = d'.value) :
    d.magnitudeBits = d'.magnitudeBits := by
  have hden : (0 : ℚ) < (tenPow (-d.exponent).toNat : Nat) := by
    exact_mod_cast tenPow_pos _
  have hden' : (0 : ℚ) < (tenPow (-d'.exponent).toNat : Nat) := by
    exact_mod_cast tenPow_pos _
  rw [magnitudeBits_eq, magnitudeBits_eq]
  refine nearestBits_congr (tenPow_pos _) (tenPow_pos _) ?_
  rw [← quotient_eq_value, ← quotient_eq_value, div_eq_div_iff hden.ne' hden'.ne'] at h
  exact_mod_cast h

/-! ## The digits of a double -/

theorem magnitudeBits_of_gridNeighbour {bits num den : Nat} {e : Int} {d : Decimal}
    (h : gridNeighbour? bits num den e = some d) : d.magnitudeBits = bits := by
  unfold gridNeighbour? at h
  dsimp only at h
  split at h
  · rename_i hlower
    split at h
    · rename_i hupper
      cases h
      exact hupper.1
    · cases h
      exact hlower
  · split at h
    · rename_i hupper
      cases h
      exact hupper
    · cases h

theorem magnitudeBits_of_firstGrid {bits num den : Nat} {top : Int} {d : Decimal} (tries : Nat) :
    ∀ n, firstGrid? bits num den top n tries = some d → d.magnitudeBits = bits := by
  induction tries with
  | zero =>
    intro n h
    cases h
  | succ tries ih =>
    intro n h
    unfold firstGrid? at h
    split at h
    · rename_i d' hd
      cases h
      exact magnitudeBits_of_gridNeighbour hd
    · exact ih (n + 1) h

/-- The exact value of a pattern, written out, reads back. -/
theorem magnitudeBits_exactBinary {bits : Nat} (h : bits < infinityBits) :
    (exactBinary (Magnitude.ofBits bits).numerator
      (-(Magnitude.ofBits bits).exponent).toNat).magnitudeBits = bits := by
  rw [magnitudeBits_eq]
  conv_rhs => rw [← nearestBits_ofBits h]
  generalize Magnitude.ofBits bits = m
  have hneg : (-((-m.exponent).toNat : Int)).toNat = 0 := by omega
  have hpos : (- -((-m.exponent).toNat : Int)).toNat = (-m.exponent).toNat := by omega
  have hden : 0 < m.denominator := by
    rw [Magnitude.denominator, Nat.shiftLeft_eq]
    positivity
  refine nearestBits_congr (tenPow_pos _) hden ?_
  show m.numerator * Nat.pow 5 (-m.exponent).toNat * tenPow (-((-m.exponent).toNat : Int)).toNat
    * m.denominator = m.numerator * tenPow (- -((-m.exponent).toNat : Int)).toNat
  rw [hneg, hpos, Magnitude.denominator, Nat.shiftLeft_eq]
  generalize (-m.exponent).toNat = k
  show m.numerator * 5 ^ k * 10 ^ 0 * (1 * 2 ^ k) = m.numerator * 10 ^ k
  rw [pow_zero, mul_one, one_mul, mul_assoc, ← Nat.mul_pow]

/-- **The digits chosen for a double read back to it.** -/
theorem magnitudeBits_shortest {bits : Nat} (h : bits < infinityBits) :
    (shortest bits).magnitudeBits = bits := by
  unfold shortest
  dsimp only
  split
  · rename_i d hd
    exact magnitudeBits_of_firstGrid maxDigits 0 hd
  · exact magnitudeBits_exactBinary h

theorem coefficient_shortest_ne_zero {bits : Nat} (h0 : bits ≠ 0) (h : bits < infinityBits) :
    (shortest bits).coefficient ≠ 0 := by
  intro hc
  have hbits := magnitudeBits_shortest h
  rw [magnitudeBits, if_pos hc] at hbits
  exact h0 hbits.symm

end FlatLisp.Decimal
