/-
FlatLisp.Proofs.NearestDouble — what rounding a quotient to a double depends
on, and what it leaves alone.

`nearestBits num den` is computed from numerator and denominator, and the
theorems here say that only their quotient matters
(`nearestBits_congr`), that quotients from `2 ^ 1024` on become infinity and
those below `2 ^ (-1075)` become zero, and that a quotient which is the value
of a finite pattern is rounded to that very pattern (`nearestBits_ofBits`).
The exponent that is rounded at is read off `Int.log 2`, which is where the
computed `quotientLog2` is shown to agree.
-/
import FlatLisp.Binary64.Basic
import Mathlib.Algebra.Order.Field.Power
import Mathlib.Data.Int.Log
import Mathlib.Data.Rat.Floor
import Mathlib.Tactic.FieldSimp
import Mathlib.Tactic.Linarith
import Mathlib.Tactic.NormNum
import Mathlib.Tactic.Positivity
import Mathlib.Tactic.Ring

namespace FlatLisp.Binary64

/-! ## Rounding half to even -/

theorem roundHalfEven_mul_left {k : Nat} (hk : 0 < k) (num den : Nat) :
    roundHalfEven (k * num) (k * den) = roundHalfEven num den := by
  have hdiv : k * num / (k * den) = num / den := Nat.mul_div_mul_left num den hk
  have hmod : k * num % (k * den) = k * (num % den) := Nat.mul_mod_mul_left k num den
  have hlt : 2 * (k * (num % den)) < k * den ↔ 2 * (num % den) < den := by
    rw [Nat.mul_left_comm]
    exact Nat.mul_lt_mul_left hk
  have hgt : k * den < 2 * (k * (num % den)) ↔ den < 2 * (num % den) := by
    rw [Nat.mul_left_comm 2]
    exact Nat.mul_lt_mul_left hk
  unfold roundHalfEven
  simp only [hdiv, hmod, hlt, hgt]

/-- Equal quotients are rounded alike. -/
theorem roundHalfEven_congr {num den num' den' : Nat} (hd : 0 < den) (hd' : 0 < den')
    (h : num * den' = num' * den) : roundHalfEven num den = roundHalfEven num' den' := by
  rw [← roundHalfEven_mul_left hd' num den, ← roundHalfEven_mul_left hd num' den',
    Nat.mul_comm den' num, h, Nat.mul_comm num' den, Nat.mul_comm den' den]

theorem roundHalfEven_of_quotient {num den num' den' : Nat} (hd : 0 < den) (hd' : 0 < den')
    (h : (num : ℚ) / den = num' / den') : roundHalfEven num den = roundHalfEven num' den' := by
  rw [div_eq_div_iff (by positivity) (by positivity)] at h
  exact roundHalfEven_congr hd hd' (by exact_mod_cast h)

theorem roundHalfEven_mul_self {den : Nat} (hd : 0 < den) (n : Nat) :
    roundHalfEven (n * den) den = n := by
  unfold roundHalfEven
  simp [Nat.mul_div_cancel n hd, hd]

theorem div_le_roundHalfEven (num den : Nat) : num / den ≤ roundHalfEven num den := by
  unfold roundHalfEven
  dsimp only
  split
  · exact Nat.le_refl _
  · split
    · omega
    · split <;> omega

theorem roundHalfEven_of_lt {num den : Nat} (h : 2 * num < den) : roundHalfEven num den = 0 := by
  have hdiv : num / den = 0 := Nat.div_eq_of_lt (by omega)
  have hmod : num % den = num := Nat.mod_eq_of_lt (by omega)
  unfold roundHalfEven
  simp only [hdiv, hmod, if_pos h]

/-- A natural number is nearest to a quotient, and even if another one is as near. -/
structure IsNearestEven (num den n : Nat) : Prop where
  le : 2 * (n * den) ≤ 2 * num + den
  ge : 2 * num ≤ 2 * (n * den) + den
  even : 2 * (n * den) = 2 * num + den ∨ 2 * num = 2 * (n * den) + den → n % 2 = 0

theorem isNearestEven_roundHalfEven {den : Nat} (hd : 0 < den) (num : Nat) :
    IsNearestEven num den (roundHalfEven num den) := by
  have hsplit : num / den * den + num % den = num := Nat.div_add_mod' num den
  have hlt : num % den < den := Nat.mod_lt num hd
  have hsucc : (num / den + 1) * den = num / den * den + den := Nat.succ_mul _ _
  unfold roundHalfEven
  dsimp only
  split
  · exact ⟨by omega, by omega, by omega⟩
  · split
    · exact ⟨by rw [hsucc]; omega, by rw [hsucc]; omega, by rw [hsucc]; omega⟩
    · split
      · exact ⟨by omega, by omega, fun _ => by assumption⟩
      · exact ⟨by rw [hsucc]; omega, by rw [hsucc]; omega, by omega⟩

theorem IsNearestEven.mono {num den n num' den' n' : Nat} (hn : IsNearestEven num den n)
    (hn' : IsNearestEven num' den' n') (hd : 0 < den) (hd' : 0 < den')
    (h : num * den' ≤ num' * den) : n ≤ n' := by
  by_contra hlt
  have hD : 0 < den * den' := Nat.mul_pos hd hd'
  have hgap : n' * (den * den') + den * den' ≤ n * (den * den') := by
    rw [← Nat.succ_mul]
    exact Nat.mul_le_mul_right _ (Nat.lt_of_not_le hlt)
  have hle : 2 * (n * (den * den')) ≤ 2 * (num * den') + den * den' := by
    calc 2 * (n * (den * den')) = 2 * (n * den) * den' := by ring
      _ ≤ (2 * num + den) * den' := Nat.mul_le_mul_right _ hn.le
      _ = 2 * (num * den') + den * den' := by ring
  have hge : 2 * (num' * den) ≤ 2 * (n' * (den * den')) + den * den' := by
    calc 2 * (num' * den) = 2 * num' * den := by ring
      _ ≤ (2 * (n' * den') + den') * den := Nat.mul_le_mul_right _ hn'.ge
      _ = 2 * (n' * (den * den')) + den * den' := by ring
  -- both quotients are the half between `n'` and `n`, so both numbers are even
  have hsucc : n = n' + 1 := by
    refine Nat.eq_of_mul_eq_mul_right hD ?_
    rw [Nat.succ_mul]
    omega
  have heven : n % 2 = 0 := by
    refine hn.even (.inl (Nat.eq_of_mul_eq_mul_right hd' ?_))
    calc 2 * (n * den) * den' = 2 * (n * (den * den')) := by ring
      _ = 2 * (num * den') + den * den' := by omega
      _ = (2 * num + den) * den' := by ring
  have heven' : n' % 2 = 0 := by
    refine hn'.even (.inr (Nat.eq_of_mul_eq_mul_right hd ?_))
    calc 2 * num' * den = 2 * (num' * den) := by ring
      _ = 2 * (n' * (den * den')) + den * den' := by omega
      _ = (2 * (n' * den') + den') * den := by ring
  omega

/-- There is only one. -/
theorem IsNearestEven.eq {num den n num' den' n' : Nat} (hn : IsNearestEven num den n)
    (hn' : IsNearestEven num' den' n') (hd : 0 < den) (hd' : 0 < den')
    (h : num * den' = num' * den) : n = n' :=
  Nat.le_antisymm (hn.mono hn' hd hd' h.le) (hn'.mono hn hd' hd h.ge)

theorem roundHalfEven_mono {num den num' den' : Nat} (hd : 0 < den) (hd' : 0 < den')
    (h : num * den' ≤ num' * den) : roundHalfEven num den ≤ roundHalfEven num' den' :=
  (isNearestEven_roundHalfEven hd num).mono (isNearestEven_roundHalfEven hd' num') hd hd' h

theorem roundHalfEven_le {num den n : Nat} (hd : 0 < den) (h : (num : ℚ) / den ≤ n) :
    roundHalfEven num den ≤ n := by
  have hdq : (0 : ℚ) < den := by exact_mod_cast hd
  rw [div_le_iff₀ hdq] at h
  have hle : num * 1 ≤ n * den := by
    rw [Nat.mul_one]
    exact_mod_cast h
  calc roundHalfEven num den ≤ roundHalfEven n 1 := roundHalfEven_mono hd Nat.one_pos hle
    _ = n := by simpa using roundHalfEven_mul_self Nat.one_pos n

theorem le_roundHalfEven {num den n : Nat} (hd : 0 < den) (h : (n : ℚ) ≤ num / den) :
    n ≤ roundHalfEven num den := by
  have hdq : (0 : ℚ) < den := by exact_mod_cast hd
  rw [le_div_iff₀ hdq] at h
  have hle : n * den ≤ num * 1 := by
    rw [Nat.mul_one]
    exact_mod_cast h
  calc n = roundHalfEven n 1 := by simpa using (roundHalfEven_mul_self Nat.one_pos n).symm
    _ ≤ roundHalfEven num den := roundHalfEven_mono Nat.one_pos hd hle

theorem abs_roundHalfEven_sub_le {den : Nat} (hd : 0 < den) (num : Nat) :
    |(roundHalfEven num den : ℚ) - num / den| ≤ 1 / 2 := by
  have hdq : (0 : ℚ) < den := by exact_mod_cast hd
  have hspec := isNearestEven_roundHalfEven hd num
  have hle : 2 * ((roundHalfEven num den : ℚ) * den) ≤ 2 * num + den := by exact_mod_cast hspec.le
  have hge : 2 * (num : ℚ) ≤ 2 * (roundHalfEven num den * den) + den := by exact_mod_cast hspec.ge
  rw [abs_le]
  constructor
  · rw [neg_le_sub_iff_le_add, div_le_iff₀ hdq]
    linarith
  · rw [sub_le_iff_le_add, ← sub_le_iff_le_add', le_div_iff₀ hdq]
    linarith

/-- What is less than a half away is nearest. -/
theorem isNearestEven_of_abs_lt {num den n : Nat} (hd : 0 < den)
    (h : |(n : ℚ) - num / den| < 1 / 2) : IsNearestEven num den n := by
  have hdq : (0 : ℚ) < den := by exact_mod_cast hd
  obtain ⟨hge, hle⟩ := abs_lt.mp h
  have hle' : 2 * (n * den) < 2 * num + den := by
    have hq : (n : ℚ) < (num + den / 2) / den := by
      rw [add_div, div_right_comm, div_self hdq.ne']
      linarith
    rw [lt_div_iff₀ hdq] at hq
    have hq' : 2 * ((n : ℚ) * den) < 2 * num + den := by linarith
    exact_mod_cast hq'
  have hge' : 2 * num < 2 * (n * den) + den := by
    have hq : (num : ℚ) / den < n + 1 / 2 := by linarith
    rw [div_lt_iff₀ hdq] at hq
    have hq' : 2 * (num : ℚ) < 2 * (n * den) + den := by linarith
    exact_mod_cast hq'
  exact ⟨hle'.le, hge'.le, by omega⟩

/-! ## The exponent of a quotient -/

/-- A power with a negative exponent, cleared of it. -/
theorem zpow_mul_pow_neg {b : ℚ} (hb : b ≠ 0) (e : Int) :
    b ^ e * b ^ (-e).toNat = b ^ e.toNat := by
  rw [← zpow_natCast b (-e).toNat, ← zpow_natCast b e.toNat, ← zpow_add₀ hb]
  congr 1
  omega

theorem shiftLeft_le_iff (num : Nat) {den : Nat} (hd : 0 < den) (k : Int) :
    den <<< k.toNat ≤ num <<< (-k).toNat ↔ (2 : ℚ) ^ k ≤ (num : ℚ) / den := by
  have hdq : (0 : ℚ) < den := by exact_mod_cast hd
  have hp : (0 : ℚ) < 2 ^ (-k).toNat := by positivity
  rw [le_div_iff₀ hdq, ← mul_le_mul_iff_of_pos_right hp, mul_right_comm,
    zpow_mul_pow_neg two_ne_zero, Nat.shiftLeft_eq, Nat.shiftLeft_eq, mul_comm den]
  exact_mod_cast Iff.rfl

theorem le_log_iff {q : ℚ} (hq : 0 < q) (k : Int) : k ≤ Int.log 2 q ↔ (2 : ℚ) ^ k ≤ q := by
  have h := Int.zpow_le_iff_le_log (b := 2) one_lt_two (x := k) hq
  rw [Nat.cast_ofNat] at h
  exact h.symm

theorem log_lt_iff {q : ℚ} (hq : 0 < q) (k : Int) : Int.log 2 q < k ↔ q < (2 : ℚ) ^ k := by
  rw [← not_le, le_log_iff hq, not_le]

theorem log_eq {q : ℚ} (hq : 0 < q) {k : Int} (hle : (2 : ℚ) ^ k ≤ q)
    (hlt : q < (2 : ℚ) ^ (k + 1)) : Int.log 2 q = k := by
  have h1 := (le_log_iff hq k).mpr hle
  have h2 := (log_lt_iff hq (k + 1)).mpr hlt
  omega

/-- The quotient's exponent is known up to one from those of its parts. -/
theorem quotient_bounds {num den : Nat} (hn : 0 < num) (hd : 0 < den) :
    (2 : ℚ) ^ ((num.log2 : Int) - den.log2 - 1) ≤ (num : ℚ) / den
      ∧ (num : ℚ) / den < (2 : ℚ) ^ ((num.log2 : Int) - den.log2 + 1) := by
  have hdq : (0 : ℚ) < den := by exact_mod_cast hd
  have hn1 : (2 : ℚ) ^ num.log2 ≤ num := by exact_mod_cast Nat.log2_self_le (by omega)
  have hn2 : (num : ℚ) < 2 ^ (num.log2 + 1) := by exact_mod_cast Nat.lt_log2_self
  have hd1 : (2 : ℚ) ^ den.log2 ≤ den := by exact_mod_cast Nat.log2_self_le (by omega)
  have hd2 : (den : ℚ) < 2 ^ (den.log2 + 1) := by exact_mod_cast Nat.lt_log2_self
  constructor
  · have hsplit : (2 : ℚ) ^ ((num.log2 : Int) - den.log2 - 1)
        = 2 ^ num.log2 / 2 ^ (den.log2 + 1) := by
      rw [sub_sub, zpow_sub₀ two_ne_zero]
      norm_cast
    rw [hsplit, div_le_div_iff₀ (by positivity) hdq]
    exact mul_le_mul hn1 hd2.le hdq.le (by positivity)
  · have hsplit : (2 : ℚ) ^ ((num.log2 : Int) - den.log2 + 1)
        = 2 ^ (num.log2 + 1) / 2 ^ den.log2 := by
      rw [sub_add_eq_add_sub, zpow_sub₀ two_ne_zero]
      norm_cast
    rw [hsplit, div_lt_div_iff₀ hdq (by positivity)]
    exact mul_lt_mul hn2 hd1 (by positivity) (by positivity)

/-- The computed exponent is the logarithm of the quotient. -/
theorem quotientLog2_eq {num den : Nat} (hn : 0 < num) (hd : 0 < den) :
    quotientLog2 num den = Int.log 2 ((num : ℚ) / den) := by
  have hnq : (0 : ℚ) < num := by exact_mod_cast hn
  have hdq : (0 : ℚ) < den := by exact_mod_cast hd
  have hq : (0 : ℚ) < (num : ℚ) / den := div_pos hnq hdq
  obtain ⟨hlow, hhigh⟩ := quotient_bounds hn hd
  unfold quotientLog2
  dsimp only
  split
  · rename_i h
    rw [shiftLeft_le_iff num hd] at h
    exact (log_eq hq h hhigh).symm
  · rename_i h
    rw [shiftLeft_le_iff num hd, not_le] at h
    refine (log_eq hq hlow ?_).symm
    rwa [sub_add_cancel]

/-! ## Rounding to a pattern -/

/-- The exponent at which a quotient is rounded. -/
def roundingExponent (q : ℚ) : Int :=
  max (Int.log 2 q - 52) minExponent

/-- The pattern of a quotient that is rounded at the exponent `e`. -/
def roundedAt (num den : Nat) (e : Int) : Nat :=
  min (roundHalfEven (num <<< (-e).toNat) (den <<< e.toNat)
    + (e - minExponent).toNat * hiddenBit) infinityBits

theorem nearestBits_zero (den : Nat) : nearestBits 0 den = 0 := by
  unfold nearestBits
  rw [if_pos rfl]

theorem nearestBits_eq {num den : Nat} (hn : 0 < num) (hd : 0 < den) :
    nearestBits num den = roundedAt num den (roundingExponent ((num : ℚ) / den)) := by
  have hne : num ≠ 0 := hn.ne'
  unfold nearestBits roundedAt roundingExponent
  simp only [if_neg hne, quotientLog2_eq hn hd]

theorem roundedAt_congr {num den num' den' : Nat} (hd : 0 < den) (hd' : 0 < den')
    (h : num * den' = num' * den) (e : Int) : roundedAt num den e = roundedAt num' den' e := by
  have hround : roundHalfEven (num <<< (-e).toNat) (den <<< e.toNat)
      = roundHalfEven (num' <<< (-e).toNat) (den' <<< e.toNat) := by
    simp only [Nat.shiftLeft_eq]
    refine roundHalfEven_congr (by positivity) (by positivity) ?_
    calc num * 2 ^ (-e).toNat * (den' * 2 ^ e.toNat)
        = num * den' * (2 ^ (-e).toNat * 2 ^ e.toNat) := by ring
      _ = num' * den * (2 ^ (-e).toNat * 2 ^ e.toNat) := by rw [h]
      _ = num' * 2 ^ (-e).toNat * (den * 2 ^ e.toNat) := by ring
  rw [roundedAt, roundedAt, hround]

/-- Equal quotients have the same nearest double. -/
theorem nearestBits_congr {num den num' den' : Nat} (hd : 0 < den) (hd' : 0 < den')
    (h : num * den' = num' * den) : nearestBits num den = nearestBits num' den' := by
  have hdq : (den : ℚ) ≠ 0 := by exact_mod_cast hd.ne'
  have hdq' : (den' : ℚ) ≠ 0 := by exact_mod_cast hd'.ne'
  rcases Nat.eq_zero_or_pos num with rfl | hn
  · have hn' : num' = 0 := by
      rw [Nat.zero_mul] at h
      exact (Nat.mul_eq_zero.mp h.symm).resolve_right hd.ne'
    rw [hn', nearestBits_zero, nearestBits_zero]
  · have hn' : 0 < num' := by
      have : 0 < num' * den := h ▸ Nat.mul_pos hn hd'
      exact Nat.pos_of_mul_pos_right this
    have hquot : (num : ℚ) / den = (num' : ℚ) / den' := by
      rw [div_eq_div_iff hdq hdq']
      exact_mod_cast h
    rw [nearestBits_eq hn hd, nearestBits_eq hn' hd', hquot, roundedAt_congr hd hd' h]

/-! ## The significand -/

/-- The significand of a quotient at the exponent `e`. -/
def significandAt (num den : Nat) (e : Int) : Nat :=
  roundHalfEven (num <<< (-e).toNat) (den <<< e.toNat)

theorem shifted_quotient (num : Nat) {den : Nat} (hd : 0 < den) (e : Int) :
    ((num <<< (-e).toNat : Nat) : ℚ) / (den <<< e.toNat : Nat) = num / den / 2 ^ e := by
  have hdq : (den : ℚ) ≠ 0 := by exact_mod_cast hd.ne'
  rw [Nat.shiftLeft_eq, Nat.shiftLeft_eq, div_div]
  push_cast
  rw [← zpow_mul_pow_neg two_ne_zero e, div_eq_div_iff (by positivity) (by positivity)]
  ring

theorem significandAt_le {num den n : Nat} (hd : 0 < den) {e : Int}
    (h : (num : ℚ) / den ≤ n * 2 ^ e) : significandAt num den e ≤ n := by
  refine roundHalfEven_le (Nat.shiftLeft_pos_iff.mpr hd) ?_
  rwa [shifted_quotient num hd, div_le_iff₀ (by positivity)]

theorem le_significandAt {num den n : Nat} (hd : 0 < den) {e : Int}
    (h : (n : ℚ) * 2 ^ e ≤ num / den) : n ≤ significandAt num den e := by
  refine le_roundHalfEven (Nat.shiftLeft_pos_iff.mpr hd) ?_
  rwa [shifted_quotient num hd, le_div_iff₀ (by positivity)]

theorem significandAt_mono {num den num' den' : Nat} (hd : 0 < den) (hd' : 0 < den')
    (h : num * den' ≤ num' * den) (e : Int) :
    significandAt num den e ≤ significandAt num' den' e := by
  refine roundHalfEven_mono (Nat.shiftLeft_pos_iff.mpr hd) (Nat.shiftLeft_pos_iff.mpr hd') ?_
  simp only [Nat.shiftLeft_eq]
  calc num * 2 ^ (-e).toNat * (den' * 2 ^ e.toNat)
      = num * den' * (2 ^ (-e).toNat * 2 ^ e.toNat) := by ring
    _ ≤ num' * den * (2 ^ (-e).toNat * 2 ^ e.toNat) := Nat.mul_le_mul_right _ h
    _ = num' * 2 ^ (-e).toNat * (den * 2 ^ e.toNat) := by ring

/-- The significand is at most half a unit away from the quotient. -/
theorem abs_significandAt_sub_le {den : Nat} (hd : 0 < den) (num : Nat) (e : Int) :
    |(significandAt num den e : ℚ) * 2 ^ e - num / den| ≤ 2 ^ e / 2 := by
  have hpow : (0 : ℚ) < 2 ^ e := by positivity
  have hden : 0 < den <<< e.toNat := Nat.shiftLeft_pos_iff.mpr hd
  have hround := abs_roundHalfEven_sub_le hden (num <<< (-e).toNat)
  rw [shifted_quotient num hd] at hround
  have hscale : (significandAt num den e : ℚ) * 2 ^ e - num / den
      = ((significandAt num den e : ℚ) - num / den / 2 ^ e) * 2 ^ e := by
    field_simp
  rw [hscale, abs_mul, abs_of_pos hpow]
  calc |(significandAt num den e : ℚ) - num / den / 2 ^ e| * 2 ^ e ≤ 1 / 2 * 2 ^ e :=
        mul_le_mul_of_nonneg_right hround hpow.le
    _ = 2 ^ e / 2 := by ring

theorem minExponent_le_roundingExponent (q : ℚ) : minExponent ≤ roundingExponent q :=
  le_max_right _ _

theorem lt_of_roundingExponent {q : ℚ} (hq : 0 < q) : q < 2 ^ (roundingExponent q + 53) := by
  rw [← log_lt_iff hq]
  unfold roundingExponent
  omega

theorem le_of_roundingExponent {q : ℚ} (hq : 0 < q) (h : roundingExponent q ≠ minExponent) :
    (2 : ℚ) ^ (roundingExponent q + 52) ≤ q := by
  rw [← le_log_iff hq]
  unfold roundingExponent at h ⊢
  omega

theorem roundingExponent_mono {q q' : ℚ} (hq : 0 < q) (h : q ≤ q') :
    roundingExponent q ≤ roundingExponent q' :=
  max_le_max_right _ (Int.sub_le_sub_right (Int.log_mono_right hq h) _)

/-- The significand has at most 53 places, or is the next power of two. -/
theorem significandAt_roundingExponent_le {num den : Nat} (hn : 0 < num) (hd : 0 < den) :
    significandAt num den (roundingExponent ((num : ℚ) / den)) ≤ 2 ^ 53 := by
  have hq : (0 : ℚ) < num / den := by positivity
  refine significandAt_le hd ?_
  have hlt := lt_of_roundingExponent hq
  rw [zpow_add₀ two_ne_zero, mul_comm] at hlt
  exact_mod_cast hlt.le

theorem le_significandAt_roundingExponent {num den : Nat} (hn : 0 < num) (hd : 0 < den)
    (h : roundingExponent ((num : ℚ) / den) ≠ minExponent) :
    2 ^ 52 ≤ significandAt num den (roundingExponent ((num : ℚ) / den)) := by
  have hq : (0 : ℚ) < num / den := by positivity
  refine le_significandAt hd ?_
  have hle := le_of_roundingExponent hq h
  rw [zpow_add₀ two_ne_zero, mul_comm] at hle
  exact_mod_cast hle

/-- A larger quotient has no smaller nearest double. -/
theorem nearestBits_mono {num den num' den' : Nat} (hd : 0 < den) (hd' : 0 < den')
    (h : num * den' ≤ num' * den) : nearestBits num den ≤ nearestBits num' den' := by
  rcases Nat.eq_zero_or_pos num with rfl | hn
  · rw [nearestBits_zero]
    exact Nat.zero_le _
  · have hn' : 0 < num' := by
      have : 0 < num' * den := Nat.lt_of_lt_of_le (Nat.mul_pos hn hd') h
      exact Nat.pos_of_mul_pos_right this
    have hle : (num : ℚ) / den ≤ num' / den' := by
      rw [div_le_div_iff₀ (by positivity) (by positivity)]
      exact_mod_cast h
    have hq : (0 : ℚ) < num / den := by positivity
    rw [nearestBits_eq hn hd, nearestBits_eq hn' hd']
    refine min_le_min_right _ ?_
    show significandAt num den _ + _ ≤ significandAt num' den' _ + _
    have hmin := minExponent_le_roundingExponent ((num : ℚ) / den)
    have hsig := significandAt_roundingExponent_le hn hd
    have hmono := significandAt_mono hd hd' h (roundingExponent ((num : ℚ) / den))
    rcases (roundingExponent_mono hq hle).lt_or_eq with hlt | heq
    · -- a full significand at a higher exponent
      have hsig' := le_significandAt_roundingExponent hn' hd' (by omega)
      unfold hiddenBit
      omega
    · rw [← heq]
      omega

theorem nearestBits_natural_mono {m n : Nat} (h : m ≤ n) : nearestBits m 1 ≤ nearestBits n 1 :=
  nearestBits_mono Nat.one_pos Nat.one_pos (Nat.mul_le_mul_right 1 h)

/-! ## Out of range -/

theorem nearestBits_le_infinityBits (num den : Nat) : nearestBits num den ≤ infinityBits := by
  unfold nearestBits
  split
  · exact Nat.zero_le _
  · exact Nat.min_le_right _ _

/-- What is at least `2 ^ 1024` becomes infinity. -/
theorem nearestBits_of_large {num den : Nat} (hd : 0 < den)
    (h : (2 : ℚ) ^ (1024 : Int) ≤ (num : ℚ) / den) : nearestBits num den = infinityBits := by
  have hdq : (0 : ℚ) < den := by exact_mod_cast hd
  have hq : (0 : ℚ) < (num : ℚ) / den := lt_of_lt_of_le (by positivity) h
  have hn : 0 < num := by
    rcases Nat.eq_zero_or_pos num with rfl | hn
    · simp at hq
    · exact hn
  rw [nearestBits_eq hn hd]
  obtain ⟨e, he, hlog⟩ : ∃ e : Nat, roundingExponent ((num : ℚ) / den) = (e : Int) + 972
      ∧ Int.log 2 ((num : ℚ) / den) = (e : Int) + 1024 := by
    have hlog := (le_log_iff hq 1024).mpr h
    refine ⟨(Int.log 2 ((num : ℚ) / den) - 1024).toNat, ?_, ?_⟩
    · unfold roundingExponent minExponent
      omega
    · omega
  -- the significand fills all its places, so the exponent field alone reaches infinity
  have hsig : 2 ^ 52 ≤ roundHalfEven (num <<< (-((e : Int) + 972)).toNat)
      (den <<< ((e : Int) + 972).toNat) := by
    refine le_trans ?_ (div_le_roundHalfEven _ _)
    have h1 : (-((e : Int) + 972)).toNat = 0 := by omega
    have h2 : ((e : Int) + 972).toNat = e + 972 := by omega
    have hle := (le_log_iff hq _).mp hlog.ge
    rw [le_div_iff₀ hdq] at hle
    have hpow : ∀ k, 2 ^ 52 * (den * 2 ^ k) = 2 ^ (52 + k) * den := by
      intro k
      rw [pow_add]
      ring
    have h3 : 52 + (e + 972) = e + 1024 := by omega
    rw [h1, h2, Nat.shiftLeft_eq, Nat.shiftLeft_eq, Nat.le_div_iff_mul_le (by positivity), hpow, h3,
      pow_zero, mul_one]
    exact_mod_cast hle
  rw [he, roundedAt]
  unfold minExponent hiddenBit infinityBits
  omega

theorem roundHalfEven_shiftLeft_of_lt {num den : Nat} (hd : 0 < den) (k : Nat)
    (h : (num : ℚ) / den < (2 : ℚ) ^ (-((k : Int) + 1))) : roundHalfEven (num <<< k) den = 0 := by
  have hdq : (0 : ℚ) < den := by exact_mod_cast hd
  rw [div_lt_iff₀ hdq, zpow_neg, inv_mul_eq_div, lt_div_iff₀ (by positivity)] at h
  have hnat : num * 2 ^ (k + 1) < den := by exact_mod_cast h
  refine roundHalfEven_of_lt ?_
  rw [Nat.shiftLeft_eq]
  calc 2 * (num * 2 ^ k) = num * 2 ^ (k + 1) := by ring
    _ < den := hnat

/-- What is below `2 ^ (-1075)`, half of the least positive double, becomes
zero. -/
theorem nearestBits_of_small {num den : Nat} (hd : 0 < den)
    (h : (num : ℚ) / den < (2 : ℚ) ^ (-1075 : Int)) : nearestBits num den = 0 := by
  have hdq : (0 : ℚ) < den := by exact_mod_cast hd
  rcases Nat.eq_zero_or_pos num with rfl | hn
  · exact nearestBits_zero den
  · have hq : (0 : ℚ) < (num : ℚ) / den := div_pos (by exact_mod_cast hn) hdq
    have hlog := (log_lt_iff hq (-1075)).mpr h
    have he : roundingExponent ((num : ℚ) / den) = minExponent := by
      unfold roundingExponent minExponent
      omega
    have hneg : (-minExponent).toNat = 1074 := rfl
    have hpos : minExponent.toNat = 0 := rfl
    have hzero : roundHalfEven (num <<< (-minExponent).toNat) (den <<< minExponent.toNat) = 0 := by
      rw [hneg, hpos, Nat.shiftLeft_zero]
      exact roundHalfEven_shiftLeft_of_lt hd 1074 h
    rw [nearestBits_eq hn hd, he, roundedAt, sub_self]
    rw [hzero]
    simp

/-! ## Exact values -/

namespace Magnitude

/-- The exponent is the least there is or the significand fills all its
places. -/
structure IsCanonical (m : Magnitude) : Prop where
  significand_lt : m.significand < 2 ^ 53
  minExponent_le : minExponent ≤ m.exponent
  full : m.exponent = minExponent ∨ 2 ^ 52 ≤ m.significand

/-- The pattern of a canonical magnitude. -/
def bits (m : Magnitude) : Nat :=
  m.significand + (m.exponent - minExponent).toNat * hiddenBit

/-- The magnitude as a rational number. -/
def value (m : Magnitude) : ℚ :=
  m.significand * 2 ^ m.exponent

theorem isCanonical_ofBits (bits : Nat) : (ofBits bits).IsCanonical := by
  unfold ofBits
  dsimp only
  split
  · refine ⟨?_, Int.le_refl _, .inl rfl⟩
    unfold hiddenBit
    dsimp only
    omega
  · refine ⟨?_, ?_, .inr ?_⟩
    · unfold hiddenBit
      dsimp only
      omega
    · dsimp only
      omega
    · unfold hiddenBit
      dsimp only
      omega

theorem bits_ofBits {bits : Nat} (h : bits < signBit) : (ofBits bits).bits = bits := by
  have hfield : bits / hiddenBit % fieldCount = bits / hiddenBit := by
    refine Nat.mod_eq_of_lt ?_
    unfold signBit at h
    unfold hiddenBit fieldCount
    omega
  unfold Magnitude.bits ofBits
  simp only [hfield]
  split
  · rename_i hzero
    have hself : (minExponent - minExponent).toNat = 0 := by simp
    show bits % hiddenBit + (minExponent - minExponent).toNat * hiddenBit = bits
    rw [hself]
    unfold hiddenBit at hzero ⊢
    omega
  · rename_i hpos
    have hfull : (minExponent + ((bits / hiddenBit - 1 : Nat) : Int) - minExponent).toNat
        = bits / hiddenBit - 1 := by omega
    show bits % hiddenBit + hiddenBit
      + (minExponent + ((bits / hiddenBit - 1 : Nat) : Int) - minExponent).toNat * hiddenBit = bits
    rw [hfull]
    unfold hiddenBit at hpos ⊢
    omega

theorem IsCanonical.bits_pos_iff {m : Magnitude} (h : m.IsCanonical) :
    0 < m.bits ↔ 0 < m.significand := by
  unfold bits
  rcases h.full with hmin | hfull
  · simp [hmin]
  · omega

theorem denominator_pos (m : Magnitude) : 0 < m.denominator :=
  Nat.shiftLeft_pos_iff.mpr Nat.one_pos

theorem numerator_pos {m : Magnitude} (h : 0 < m.significand) : 0 < m.numerator :=
  Nat.shiftLeft_pos_iff.mpr h

theorem numerator_of_zero {m : Magnitude} (h : m.significand = 0) : m.numerator = 0 := by
  rw [numerator, h, Nat.zero_shiftLeft]

theorem numerator_div_denominator (m : Magnitude) :
    (m.numerator : ℚ) / m.denominator = m.value := by
  have hden : (m.denominator : ℚ) ≠ 0 := by exact_mod_cast m.denominator_pos.ne'
  rw [div_eq_iff hden, value, numerator, denominator, Nat.shiftLeft_eq, Nat.shiftLeft_eq, mul_assoc]
  push_cast
  rw [one_mul, zpow_mul_pow_neg two_ne_zero]

end Magnitude

/-- A canonical magnitude is rounded at its own exponent. -/
theorem roundingExponent_value {m : Magnitude} (hs : 0 < m.significand) (hm : m.IsCanonical) :
    roundingExponent m.value = m.exponent := by
  have hsq : (0 : ℚ) < m.significand := by exact_mod_cast hs
  have hq : 0 < m.value := mul_pos hsq (by positivity)
  have hup : Int.log 2 m.value < 53 + m.exponent := by
    have hlt : (m.significand : ℚ) < 2 ^ (53 : Int) := by exact_mod_cast hm.significand_lt
    rw [log_lt_iff hq, zpow_add₀ two_ne_zero]
    exact mul_lt_mul_of_pos_right hlt (by positivity)
  have hmin := hm.minExponent_le
  unfold roundingExponent
  rcases hm.full with hx | hfull
  · omega
  · have hlow : 52 + m.exponent ≤ Int.log 2 m.value := by
      have hle : (2 : ℚ) ^ (52 : Int) ≤ m.significand := by exact_mod_cast hfull
      rw [le_log_iff hq, zpow_add₀ two_ne_zero]
      exact mul_le_mul_of_nonneg_right hle (by positivity)
    omega

/-- The pattern that rounding the value of a canonical magnitude gives is its
own. -/
theorem nearestBits_magnitude {m : Magnitude} (hs : 0 < m.significand) (hm : m.IsCanonical) :
    nearestBits m.numerator m.denominator = min m.bits infinityBits := by
  have hround : roundHalfEven (m.numerator <<< (-m.exponent).toNat)
      (m.denominator <<< m.exponent.toNat) = m.significand := by
    simp only [Magnitude.numerator, Magnitude.denominator, Nat.shiftLeft_eq]
    have hmul : m.significand * 2 ^ m.exponent.toNat * 2 ^ (-m.exponent).toNat
        = m.significand * (1 * 2 ^ (-m.exponent).toNat * 2 ^ m.exponent.toNat) := by
      ring
    rw [hmul, roundHalfEven_mul_self (by positivity)]
  rw [nearestBits_eq (Magnitude.numerator_pos hs) m.denominator_pos,
    m.numerator_div_denominator, roundingExponent_value hs hm, roundedAt, hround,
    Magnitude.bits]

/-- The value of a finite pattern is rounded to that pattern. -/
theorem nearestBits_ofBits {bits : Nat} (h : bits < infinityBits) :
    nearestBits (Magnitude.ofBits bits).numerator (Magnitude.ofBits bits).denominator = bits := by
  have hlt : bits < signBit := h.trans (by decide)
  have hbits := Magnitude.bits_ofBits hlt
  rcases Nat.eq_zero_or_pos (Magnitude.ofBits bits).significand with h0 | hpos
  · have hcanonical := Magnitude.isCanonical_ofBits bits
    have hexponent := hcanonical.full.resolve_right (by omega)
    have hzero : bits = 0 := by
      rw [← hbits, Magnitude.bits, h0, hexponent]
      simp
    rw [Magnitude.numerator_of_zero h0, nearestBits_zero, hzero]
  · rw [nearestBits_magnitude hpos (Magnitude.isCanonical_ofBits bits), hbits]
    omega

end FlatLisp.Binary64
