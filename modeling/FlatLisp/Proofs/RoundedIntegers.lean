/-
FlatLisp.Proofs.RoundedIntegers — integers rounded to 53 binary digits.

Finite doubles are the multiples of `2 ^ -1074` by integers of at most 53 binary
digits, zeros at the end apart (`IsShort`), and their sums are integers in the same
unit. So a rounded sum is a rounded integer: the digits below the leading 53 are
taken away or rounded up, and half a unit of the last place goes to the even
neighbour (`SplitsAt` names the parts, `rounded` the result). What rounding takes away
from a sum of two short integers is short again (`isShort_error`), and it is computed
without rounding from the larger summand (`isShort_rounded_sub`).
-/
import FlatLisp.Proofs.NearestDouble
import Mathlib

namespace FlatLisp.Binary64

/-! ## Natural numbers -/

/-- A natural number rounded to 53 binary digits, half to even. -/
def roundedNat (n : Nat) : Nat :=
  roundHalfEven n (2 ^ (n.log2 - 52)) * 2 ^ (n.log2 - 52)

/-- The number `top` stands in the leading 53 places of `n`, and `rest` in the `places`
below them; a number with fewer digits has no places below. -/
structure SplitsAt (n places top rest : Nat) : Prop where
  eq : n = top * 2 ^ places + rest
  rest_lt : rest < 2 ^ places
  top_lt : top < 2 ^ 53
  full : places ≠ 0 → 2 ^ 52 ≤ top

theorem exists_splitsAt (n : Nat) : ∃ places top rest, SplitsAt n places top rest := by
  refine ⟨n.log2 - 52, n / 2 ^ (n.log2 - 52), n % 2 ^ (n.log2 - 52), ?_, ?_, ?_, ?_⟩
  · exact (Nat.div_add_mod' n _).symm
  · exact Nat.mod_lt n (Nat.two_pow_pos _)
  · rw [Nat.div_lt_iff_lt_mul (Nat.two_pow_pos _), ← Nat.pow_add]
    exact Nat.lt_log2_self.trans_le (Nat.pow_le_pow_right (by decide) (by omega))
  · intro hplaces
    have hn : n ≠ 0 := by
      rintro rfl
      exact hplaces (by decide)
    rw [Nat.le_div_iff_mul_le (Nat.two_pow_pos _), ← Nat.pow_add]
    exact (Nat.pow_le_pow_right (by decide) (by omega)).trans (Nat.log2_self_le hn)

namespace SplitsAt

variable {n places top rest : Nat}

/-- The leading places are all taken where there are places below. -/
theorem two_pow_le (h : SplitsAt n places top rest) (hplaces : places ≠ 0) :
    2 ^ (52 + places) ≤ top * 2 ^ places := by
  rw [Nat.pow_add]
  exact Nat.mul_le_mul_right _ (h.full hplaces)

/-- A number below `2 ^ (53 + k)` has no more than `k` places below the leading ones. -/
theorem places_le (h : SplitsAt n places top rest) {k : Nat} (hlt : n < 2 ^ (53 + k)) :
    places ≤ k := by
  rcases Nat.eq_zero_or_pos places with rfl | hpos
  · exact Nat.zero_le k
  · have hlow : 2 ^ (52 + places) ≤ n := by
      rw [h.eq]
      exact Nat.le_add_right_of_le (h.two_pow_le hpos.ne')
    have := (Nat.pow_lt_pow_iff_right (by decide : 1 < 2)).mp (hlow.trans_lt hlt)
    omega

/-- Nothing stands below the leading places of a multiple of their unit. -/
theorem rest_eq_zero (h : SplitsAt n places top rest) (hdvd : 2 ^ places ∣ n) : rest = 0 := by
  rw [h.eq] at hdvd
  exact Nat.eq_zero_of_dvd_of_lt ((Nat.dvd_add_right (Nat.dvd_mul_left _ _)).mp hdvd) h.rest_lt

theorem log2_sub (h : SplitsAt n places top rest) : n.log2 - 52 = places := by
  have hn := h.eq
  have hrest := h.rest_lt
  have htop := h.top_lt
  rcases Nat.eq_zero_or_pos places with rfl | hpos
  · rcases Nat.eq_zero_or_pos n with rfl | hn0
    · decide
    · have hlog : n.log2 < 53 := by
        rw [Nat.log2_lt hn0.ne']
        omega
      omega
  · have hlow : 2 ^ (52 + places) ≤ n := by
      rw [hn]
      exact Nat.le_add_right_of_le (h.two_pow_le hpos.ne')
    have hhigh : n < 2 ^ (52 + places + 1) := by
      calc n < (top + 1) * 2 ^ places := by rw [Nat.succ_mul]; omega
        _ ≤ 2 ^ 53 * 2 ^ places := Nat.mul_le_mul_right _ htop
        _ = 2 ^ (52 + places + 1) := by rw [← Nat.pow_add]; congr 1; omega
    have hn0 : n ≠ 0 := (Nat.lt_of_lt_of_le (Nat.two_pow_pos _) hlow).ne'
    have hlog : n.log2 = 52 + places := (Nat.log2_eq_iff hn0).mpr ⟨hlow, hhigh⟩
    omega

theorem roundedNat_eq (h : SplitsAt n places top rest) {m : Nat}
    (hm : IsNearestEven n (2 ^ places) m) : roundedNat n = m * 2 ^ places := by
  have hpos : 0 < 2 ^ places := Nat.two_pow_pos _
  rw [roundedNat, h.log2_sub,
    (isNearestEven_roundHalfEven hpos n).eq hm hpos hpos rfl]

/-- Less than half a unit is dropped, and so is a half behind an even number. -/
theorem roundedNat_of_lt (h : SplitsAt n places top rest)
    (hrest : 2 * rest < 2 ^ places ∨ 2 * rest = 2 ^ places ∧ top % 2 = 0) :
    roundedNat n = top * 2 ^ places := by
  have hn := h.eq
  exact h.roundedNat_eq ⟨by omega, by omega, by omega⟩

/-- More than half a unit is rounded up, and so is a half behind an odd number. -/
theorem roundedNat_of_gt (h : SplitsAt n places top rest)
    (hrest : 2 ^ places < 2 * rest ∨ 2 * rest = 2 ^ places ∧ top % 2 = 1) :
    roundedNat n = (top + 1) * 2 ^ places := by
  have hn := h.eq
  have hlt := h.rest_lt
  have hsucc : (top + 1) * 2 ^ places = top * 2 ^ places + 2 ^ places := Nat.succ_mul _ _
  exact h.roundedNat_eq ⟨by rw [hsucc]; omega, by rw [hsucc]; omega, by rw [hsucc]; omega⟩

theorem roundedNat_cases (h : SplitsAt n places top rest) :
    roundedNat n = top * 2 ^ places ∧ 2 * rest ≤ 2 ^ places ∨
      roundedNat n = top * 2 ^ places + 2 ^ places ∧ 2 ^ places ≤ 2 * rest := by
  rw [← Nat.succ_mul]
  rcases lt_trichotomy (2 * rest) (2 ^ places) with hlt | heq | hgt
  · exact .inl ⟨h.roundedNat_of_lt (.inl hlt), hlt.le⟩
  · rcases Nat.mod_two_eq_zero_or_one top with heven | hodd
    · exact .inl ⟨h.roundedNat_of_lt (.inr ⟨heq, heven⟩), heq.le⟩
    · exact .inr ⟨h.roundedNat_of_gt (.inr ⟨heq, hodd⟩), heq.ge⟩
  · exact .inr ⟨h.roundedNat_of_gt (.inl hgt), hgt.le⟩

/-- The parts are those of no other split. -/
theorem unique (h : SplitsAt n places top rest) {places' top' rest' : Nat}
    (h' : SplitsAt n places' top' rest') : places' = places ∧ top' = top ∧ rest' = rest := by
  obtain rfl : places' = places := h'.log2_sub.symm.trans h.log2_sub
  have parts : ∀ {t r : Nat}, SplitsAt n places' t r →
      t = n / 2 ^ places' ∧ r = n % 2 ^ places' := by
    intro t r hs
    obtain ⟨hq, hr⟩ := (Nat.div_mod_unique (Nat.two_pow_pos places')).mpr
      ⟨(by rw [hs.eq, Nat.mul_comm, Nat.add_comm] : r + 2 ^ places' * t = n), hs.rest_lt⟩
    exact ⟨hq.symm, hr.symm⟩
  obtain ⟨ht, hr⟩ := parts h
  obtain ⟨ht', hr'⟩ := parts h'
  exact ⟨rfl, ht'.trans ht.symm, hr'.trans hr.symm⟩

end SplitsAt

/-! ## Integers -/

theorem pow_dvd_natAbs {n : Int} {k : Nat} (h : (2 : Int) ^ k ∣ n) : 2 ^ k ∣ n.natAbs := by
  have := Int.natAbs_dvd_natAbs.mpr h
  rwa [Int.natAbs_pow] at this

theorem pow_dvd_of_natAbs_eq {n : Int} {m k : Nat} (h : n.natAbs = m * 2 ^ k) :
    (2 : Int) ^ k ∣ n := by
  refine Int.natAbs_dvd_natAbs.mp ?_
  rw [Int.natAbs_pow, h]
  exact Nat.dvd_mul_left _ _

/-- An integer rounded to 53 binary digits, half to even. -/
def rounded (n : Int) : Int :=
  n.sign * roundedNat n.natAbs

/-- An integer of at most 53 binary digits, zeros at the end apart. -/
def IsShort (n : Int) : Prop :=
  ∃ top places : Nat, top < 2 ^ 53 ∧ n.natAbs = top * 2 ^ places

theorem rounded_natCast (n : Nat) : rounded n = roundedNat n := by
  rcases Nat.eq_zero_or_pos n with rfl | hn
  · rfl
  · rw [rounded, Int.sign_natCast_of_ne_zero hn.ne', Int.natAbs_natCast, one_mul]

theorem rounded_neg (n : Int) : rounded (-n) = -rounded n := by
  rw [rounded, rounded, Int.sign_neg, Int.natAbs_neg, neg_mul]

theorem rounded_nonneg {n : Int} (h : 0 ≤ n) : 0 ≤ rounded n := by
  obtain ⟨m, rfl⟩ := Int.eq_ofNat_of_zero_le h
  rw [rounded_natCast]
  exact Int.natCast_nonneg _

theorem natAbs_rounded (n : Int) : (rounded n).natAbs = roundedNat n.natAbs := by
  rcases Int.natAbs_eq n with hn | hn
  · rw [hn, rounded_natCast, Int.natAbs_natCast, Int.natAbs_natCast]
  · rw [hn, rounded_neg, rounded_natCast, Int.natAbs_neg, Int.natAbs_neg, Int.natAbs_natCast,
      Int.natAbs_natCast]

theorem isShort_neg {n : Int} : IsShort (-n) ↔ IsShort n := by
  rw [IsShort, IsShort, Int.natAbs_neg]

theorem isShort_zero : IsShort 0 :=
  ⟨0, 0, by decide, rfl⟩

/-- Up to 53 digits fit above any place. -/
theorem isShort_of_dvd {n : Int} {places : Nat} (hdvd : (2 : Int) ^ places ∣ n)
    (hle : n.natAbs ≤ 2 ^ (53 + places)) : IsShort n := by
  obtain ⟨top, htop⟩ := pow_dvd_natAbs hdvd
  rw [Nat.mul_comm] at htop
  rw [htop, Nat.pow_add] at hle
  rcases Nat.lt_or_eq_of_le (Nat.le_of_mul_le_mul_right hle (Nat.two_pow_pos _)) with hlt | heq
  · exact ⟨top, places, hlt, htop⟩
  · exact ⟨1, 53 + places, by decide, by rw [htop, heq, Nat.pow_add, Nat.one_mul]⟩

/-- A short integer with 53 places above `places` has nothing below. -/
theorem IsShort.dvd {n : Int} (h : IsShort n) {places : Nat}
    (hle : 2 ^ (52 + places) ≤ n.natAbs) : (2 : Int) ^ places ∣ n := by
  obtain ⟨top, k, htop, hn⟩ := h
  have hk : places ≤ k := by
    by_contra hlt
    have : n.natAbs < 2 ^ (52 + places) := by
      calc n.natAbs = top * 2 ^ k := hn
        _ < 2 ^ 53 * 2 ^ k := Nat.mul_lt_mul_of_pos_right htop (Nat.two_pow_pos _)
        _ = 2 ^ (53 + k) := (Nat.pow_add 2 53 k).symm
        _ ≤ 2 ^ (52 + places) := Nat.pow_le_pow_right (by decide) (by omega)
    omega
  have hdvd : 2 ^ places ∣ n.natAbs := hn ▸ Nat.dvd_mul_left_of_dvd (Nat.pow_dvd_pow 2 hk) top
  exact Int.natAbs_dvd_natAbs.mp (by rwa [Int.natAbs_pow])

section

variable {n places top rest : Nat}

/-- No short integer is strictly between two neighbours. -/
theorem SplitsAt.isShort_gap (h : SplitsAt n places top rest) {a : Int} (ha : IsShort a) :
    a ≤ top * 2 ^ places ∨ (top : Int) * 2 ^ places + 2 ^ places ≤ a := by
  by_contra hgap
  obtain ⟨hlow, hhigh⟩ := not_or.mp hgap
  rw [not_le] at hlow hhigh
  have hpow : (0 : Int) < 2 ^ places := by positivity
  have hdvd : (2 : Int) ^ places ∣ a := by
    rcases Nat.eq_zero_or_pos places with rfl | hpos
    · exact one_dvd a
    · refine ha.dvd ?_
      have hle := h.two_pow_le hpos.ne'
      have hlow' : ((top * 2 ^ places : Nat) : Int) < a := by
        push_cast
        exact hlow
      omega
  obtain ⟨c, rfl⟩ := hdvd
  rw [mul_comm _ c] at hlow hhigh
  have hc : (top : Int) < c := lt_of_mul_lt_mul_right hlow hpow.le
  have hc' : c < top + 1 := by
    refine lt_of_mul_lt_mul_right (a := (2 : Int) ^ places) ?_ hpow.le
    rwa [add_mul, one_mul]
  omega

theorem SplitsAt.isShort_iff (h : SplitsAt n places top rest) : IsShort n ↔ rest = 0 := by
  have hn := h.eq
  have hrest := h.rest_lt
  constructor
  · intro hshort
    have hgap := h.isShort_gap hshort
    have hcast : ((top * 2 ^ places : Nat) : Int) = top * 2 ^ places := by push_cast; rfl
    have hcast' : ((2 ^ places : Nat) : Int) = 2 ^ places := by push_cast; rfl
    omega
  · rintro rfl
    exact ⟨top, places, h.top_lt, hn⟩

theorem SplitsAt.natAbs_isShort_iff {n : Int} (h : SplitsAt n.natAbs places top rest) :
    IsShort n ↔ rest = 0 := by
  rw [← h.isShort_iff, IsShort, IsShort, Int.natAbs_natCast]

end

/-- Nothing of a short integer is rounded. -/
theorem rounded_of_isShort {n : Int} (h : IsShort n) : rounded n = n := by
  have natural : ∀ m : Nat, IsShort m → rounded m = m := by
    intro m hm
    obtain ⟨places, top, rest, hs⟩ := exists_splitsAt m
    obtain rfl := hs.isShort_iff.mp hm
    have hpow : 0 < 2 ^ places := Nat.two_pow_pos _
    rw [rounded_natCast, hs.roundedNat_of_lt (.inl (by omega)), hs.eq, Nat.add_zero]
  rcases Int.natAbs_eq n with hn | hn
  · rw [hn] at h ⊢
    exact natural _ h
  · rw [hn] at h ⊢
    rw [rounded_neg, natural _ (isShort_neg.mp h)]

/-- Rounding keeps the zeros at the end. -/
theorem dvd_rounded {n : Int} {k : Nat} (h : (2 : Int) ^ k ∣ n) : (2 : Int) ^ k ∣ rounded n := by
  obtain ⟨places, top, rest, hs⟩ := exists_splitsAt n.natAbs
  rcases Nat.lt_or_ge places k with hlt | hle
  · -- nothing stands below the leading places
    have hdvd : 2 ^ places ∣ n.natAbs := (Nat.pow_dvd_pow 2 hlt.le).trans (pow_dvd_natAbs h)
    rwa [rounded_of_isShort (hs.natAbs_isShort_iff.mpr (hs.rest_eq_zero hdvd))]
  · have hdvd : 2 ^ k ∣ roundedNat n.natAbs := by
      have hplaces := Nat.pow_dvd_pow 2 hle
      rcases hs.roundedNat_cases with ⟨hdown, -⟩ | ⟨hup, -⟩
      · rw [hdown]
        exact Nat.dvd_mul_left_of_dvd hplaces top
      · rw [hup]
        exact Nat.dvd_add (Nat.dvd_mul_left_of_dvd hplaces top) hplaces
    rw [rounded]
    exact Dvd.dvd.mul_left (by exact_mod_cast hdvd) _

/-- The error of rounding does not depend on the sign. -/
theorem natAbs_sub_rounded (n : Int) :
    (n - rounded n).natAbs = ((n.natAbs : Int) - roundedNat n.natAbs).natAbs := by
  rcases Int.natAbs_eq n with hn | hn
  · rw [hn, rounded_natCast, Int.natAbs_natCast]
  · rw [hn, rounded_neg, rounded_natCast, Int.natAbs_neg, Int.natAbs_natCast]
    omega

/-- No short integer is nearer than the rounded one. -/
theorem natAbs_sub_rounded_le (n : Int) {a : Int} (ha : IsShort a) :
    (n - rounded n).natAbs ≤ (n - a).natAbs := by
  have natural : ∀ {a : Int}, IsShort a →
      ((n.natAbs : Int) - roundedNat n.natAbs).natAbs ≤ ((n.natAbs : Int) - a).natAbs := by
    intro a ha
    obtain ⟨places, top, rest, hs⟩ := exists_splitsAt n.natAbs
    have hgap := hs.isShort_gap ha
    have heq : (n.natAbs : Int) = top * 2 ^ places + rest := by exact_mod_cast hs.eq
    rcases hs.roundedNat_cases with ⟨hdown, hrest⟩ | ⟨hup, hrest⟩
    · rw [hdown, heq]
      push_cast
      have hrest' : 2 * (rest : Int) ≤ 2 ^ places := by exact_mod_cast hrest
      omega
    · rw [hup, heq]
      push_cast
      have hrest' : (2 : Int) ^ places ≤ 2 * rest := by exact_mod_cast hrest
      have hlt : (rest : Int) < 2 ^ places := by exact_mod_cast hs.rest_lt
      omega
  rw [natAbs_sub_rounded]
  rcases Int.natAbs_eq n with hn | hn
  · exact (natural ha).trans (by omega)
  · exact (natural (isShort_neg.mpr ha)).trans (by omega)

section

variable {n : Int} {places top rest : Nat}

/-- A rounded integer has nothing below the leading places. -/
theorem SplitsAt.dvd_rounded (h : SplitsAt n.natAbs places top rest) :
    (2 : Int) ^ places ∣ rounded n := by
  have hdvd : 2 ^ places ∣ roundedNat n.natAbs := by
    rcases h.roundedNat_cases with ⟨hdown, -⟩ | ⟨hup, -⟩
    · exact ⟨top, by rw [hdown, Nat.mul_comm]⟩
    · exact ⟨top + 1, by rw [hup, Nat.mul_succ, Nat.mul_comm]⟩
  rw [rounded]
  exact Dvd.dvd.mul_left (by exact_mod_cast hdvd) _

/-- Rounding takes away half a unit of the last place at most, and half a unit only from
what it makes even. -/
theorem SplitsAt.error_le (h : SplitsAt n.natAbs places top rest) :
    2 * (n - rounded n).natAbs < 2 ^ places ∨
      2 * (n - rounded n).natAbs = 2 ^ places ∧ (2 : Int) ^ (places + 1) ∣ rounded n := by
  have heq := h.eq
  have hlt := h.rest_lt
  rw [natAbs_sub_rounded]
  rcases lt_trichotomy (2 * rest) (2 ^ places) with hrest | hrest | hrest
  · rw [h.roundedNat_of_lt (.inl hrest)]
    omega
  · right
    constructor
    · rcases h.roundedNat_cases with ⟨hdown, -⟩ | ⟨hup, -⟩
      · omega
      · omega
    · have hdvd : 2 ^ (places + 1) ∣ roundedNat n.natAbs := by
        rw [Nat.pow_succ']
        rcases Nat.mod_two_eq_zero_or_one top with heven | hodd
        · rw [h.roundedNat_of_lt (.inr ⟨hrest, heven⟩)]
          exact Nat.mul_dvd_mul_right (Nat.dvd_of_mod_eq_zero heven) _
        · rw [h.roundedNat_of_gt (.inr ⟨hrest, hodd⟩)]
          exact Nat.mul_dvd_mul_right (Nat.dvd_of_mod_eq_zero (by omega)) _
      rw [rounded]
      exact Dvd.dvd.mul_left (by exact_mod_cast hdvd) _
  · have hup := h.roundedNat_of_gt (.inl hrest)
    rw [Nat.succ_mul] at hup
    rw [hup]
    omega

end

/-- A number below `2 ^ (53 + k)` is rounded by half a unit of place `k` at most. -/
theorem two_mul_error_le {n : Int} {k : Nat} (h : n.natAbs < 2 ^ (53 + k)) :
    2 * (n - rounded n).natAbs ≤ 2 ^ k := by
  obtain ⟨places, top, rest, hs⟩ := exists_splitsAt n.natAbs
  calc 2 * (n - rounded n).natAbs ≤ 2 ^ places := hs.error_le.elim le_of_lt fun h => h.1.le
    _ ≤ 2 ^ k := Nat.pow_le_pow_right (by decide) (hs.places_le h)

theorem isShort_rounded (n : Int) : IsShort (rounded n) := by
  obtain ⟨places, top, rest, hs⟩ := exists_splitsAt n.natAbs
  refine isShort_of_dvd hs.dvd_rounded ?_
  have htop : (top + 1) * 2 ^ places ≤ 2 ^ (53 + places) := by
    rw [Nat.pow_add]
    exact Nat.mul_le_mul_right _ hs.top_lt
  rw [Nat.succ_mul] at htop
  rw [natAbs_rounded]
  rcases hs.roundedNat_cases with ⟨hdown, -⟩ | ⟨hup, -⟩
  · exact hdown ▸ (Nat.le_add_right _ _).trans htop
  · exact hup ▸ htop

theorem rounded_eq_zero_iff {n : Int} : rounded n = 0 ↔ n = 0 := by
  constructor
  · intro h
    obtain ⟨places, top, rest, hs⟩ := exists_splitsAt n.natAbs
    have hdown : top * 2 ^ places ≤ roundedNat n.natAbs := by
      rcases hs.roundedNat_cases with ⟨hcase, -⟩ | ⟨hcase, -⟩
      · exact hcase.ge
      · exact hcase ▸ Nat.le_add_right _ _
    rw [← natAbs_rounded, h, Int.natAbs_zero, Nat.le_zero, Nat.mul_eq_zero] at hdown
    have htop : top = 0 := hdown.resolve_right (Nat.two_pow_pos places).ne'
    have hplaces : places = 0 := by
      by_contra hne
      have := hs.full hne
      omega
    have hn := hs.eq
    have hrest := hs.rest_lt
    rw [htop, hplaces] at hn
    rw [hplaces] at hrest
    omega
  · rintro rfl
    exact rounded_of_isShort isShort_zero

/-- Half a unit of the last place of the greatest doubles is this power of two, in units of
the least one. -/
def topPlace : Nat := 2044

/-- The integer is less than half a unit above the greatest double. -/
def InRange (n : Int) : Prop :=
  n.natAbs + 2 ^ topPlace < 2 ^ (54 + topPlace)

/-- What is in range stays there when it is rounded, and nothing else comes there. -/
theorem inRange_iff_natAbs_rounded_lt {n : Int} :
    InRange n ↔ (rounded n).natAbs < 2 ^ (54 + topPlace) := by
  unfold InRange
  generalize topPlace = k
  have hpow : 0 < 2 ^ k := Nat.two_pow_pos k
  have hpow' : 2 ^ (54 + k) = 2 ^ 54 * 2 ^ k := Nat.pow_add 2 54 k
  have hunit : 2 ^ (k + 1) = 2 * 2 ^ k := Nat.pow_succ'
  have hnearest : ∀ {a : Int}, IsShort a →
      ((n.natAbs : Int) - (rounded n).natAbs).natAbs ≤ ((n.natAbs : Int) - a).natAbs := by
    intro a ha
    have := natAbs_sub_rounded_le (n.natAbs : Int) ha
    rwa [rounded_natCast, ← natAbs_rounded] at this
  constructor
  · intro hlt
    by_contra hge
    have hshort : IsShort (((2 ^ 53 - 1) * 2 ^ (k + 1) : Nat) : Int) :=
      ⟨2 ^ 53 - 1, k + 1, by decide, Int.natAbs_natCast _⟩
    have := hnearest hshort
    omega
  · intro hlt
    by_contra hge
    rcases Nat.lt_or_ge n.natAbs (2 ^ (54 + k)) with hn | hn
    · have hs : SplitsAt n.natAbs (k + 1) (2 ^ 53 - 1) (n.natAbs - (2 ^ 53 - 1) * 2 ^ (k + 1)) :=
        ⟨by omega, by omega, by decide, fun _ => by decide⟩
      have hup : roundedNat n.natAbs = 2 ^ 53 * 2 ^ (k + 1) := hs.roundedNat_of_gt (by omega)
      rw [natAbs_rounded] at hlt
      omega
    · have hshort : IsShort ((2 ^ (54 + k) : Nat) : Int) :=
        ⟨1, 54 + k, by decide, by rw [Int.natAbs_natCast, Nat.one_mul]⟩
      have := hnearest hshort
      omega

theorem InRange.mono {m n : Int} (h : InRange n) (hle : m.natAbs ≤ n.natAbs) : InRange m :=
  (Nat.add_le_add_right hle _).trans_lt h

/-- The error of rounding is below the digits of what is rounded to, with one place
between them. -/
theorem exists_dvd_rounded (n : Int) :
    ∃ k, 2 * (n - rounded n).natAbs < 2 ^ k ∧ (2 : Int) ^ k ∣ rounded n := by
  obtain ⟨places, top, rest, hs⟩ := exists_splitsAt n.natAbs
  rcases hs.error_le with hlt | ⟨heq, hdvd⟩
  · exact ⟨places, hlt, hs.dvd_rounded⟩
  · have hpow : 2 ^ places < 2 ^ (places + 1) := Nat.pow_lt_pow_right (by decide) (by omega)
    exact ⟨places + 1, by omega, hdvd⟩

/-! ## Sums of two short integers -/

section

variable {a b : Int}

theorem natAbs_error_le_left (hb : IsShort b) : (a + b - rounded (a + b)).natAbs ≤ a.natAbs := by
  have := natAbs_sub_rounded_le (a + b) hb
  rwa [add_sub_cancel_right] at this

theorem natAbs_error_le_right (ha : IsShort a) : (a + b - rounded (a + b)).natAbs ≤ b.natAbs := by
  have := natAbs_sub_rounded_le (a + b) ha
  rwa [add_sub_cancel_left] at this

theorem IsShort.exists_dvd {n : Int} (h : IsShort n) :
    ∃ k, (2 : Int) ^ k ∣ n ∧ n.natAbs < 2 ^ (53 + k) := by
  obtain ⟨top, k, htop, hn⟩ := h
  refine ⟨k, pow_dvd_of_natAbs_eq hn, ?_⟩
  rw [hn, Nat.pow_add]
  exact Nat.mul_lt_mul_of_pos_right htop (Nat.two_pow_pos k)

/-- What rounding a sum takes away is short. -/
theorem isShort_error (ha : IsShort a) (hb : IsShort b) :
    IsShort (a + b - rounded (a + b)) := by
  obtain ⟨i, hi, hai⟩ := ha.exists_dvd
  obtain ⟨j, hj, hbj⟩ := hb.exists_dvd
  -- the digits of the error are among those of the summand that goes further down
  have hdvd : (2 : Int) ^ min i j ∣ a + b :=
    dvd_add ((pow_dvd_pow 2 (min_le_left i j)).trans hi)
      ((pow_dvd_pow 2 (min_le_right i j)).trans hj)
  refine isShort_of_dvd (dvd_sub hdvd (dvd_rounded hdvd)) ?_
  rcases le_total i j with hle | hle
  · rw [min_eq_left hle]
    exact (natAbs_error_le_left hb).trans hai.le
  · rw [min_eq_right hle]
    exact (natAbs_error_le_right ha).trans hbj.le

/-- A summand that is not the smaller one is a multiple of the unit in which the other one
is short. -/
theorem SplitsAt.dvd_of_natAbs_le {places top : Nat} (hs : SplitsAt b.natAbs places top 0)
    (ha : IsShort a) (hle : b.natAbs ≤ a.natAbs) : (2 : Int) ^ places ∣ a := by
  rcases Nat.eq_zero_or_pos places with rfl | hpos
  · exact one_dvd a
  · refine ha.dvd (le_trans ?_ hle)
    rw [hs.eq]
    exact hs.two_pow_le hpos.ne'

theorem SplitsAt.natAbs_add_le {places top : Nat} (hs : SplitsAt b.natAbs places top 0) :
    b.natAbs + 2 ^ places ≤ 2 ^ (53 + places) := by
  rw [hs.eq, Nat.add_zero, Nat.pow_add, ← Nat.succ_mul]
  exact Nat.mul_le_mul_right _ hs.top_lt

/-- A rounded sum and the summand that is not the smaller one differ by a short integer. -/
theorem isShort_rounded_sub (ha : IsShort a) (hb : IsShort b) (hle : b.natAbs ≤ a.natAbs) :
    IsShort (rounded (a + b) - a) := by
  obtain ⟨j, top, rest, hs⟩ := exists_splitsAt b.natAbs
  obtain ⟨p, top', rest', hs'⟩ := exists_splitsAt (a + b).natAbs
  obtain rfl : rest = 0 := hs.natAbs_isShort_iff.mp hb
  have hroom := hs.natAbs_add_le
  have hpow : 0 < 2 ^ j := Nat.two_pow_pos j
  have hdvda : (2 : Int) ^ j ∣ a := hs.dvd_of_natAbs_le ha hle
  have hdvd : (2 : Int) ^ j ∣ a + b := dvd_add hdvda (pow_dvd_of_natAbs_eq hs.eq)
  have htriangle : (rounded (a + b) - a).natAbs ≤
      b.natAbs + (a + b - rounded (a + b)).natAbs := by omega
  rcases Nat.lt_or_ge j p with hlt | hge
  · have hplace : 2 ^ (53 + (j + 1)) = 2 * 2 ^ (53 + j) := Nat.pow_succ'
    by_cases hmore : (2 : Int) ^ (j + 1) ∣ a
    · -- the sum has no digit in place `j` once it is rounded
      have hdvd' : (2 : Int) ^ (j + 1) ∣ rounded (a + b) :=
        (pow_dvd_pow 2 hlt).trans hs'.dvd_rounded
      have herror := natAbs_error_le_right (b := b) ha
      exact isShort_of_dvd (dvd_sub hdvd' hmore) (by omega)
    · -- both summands stand in the places from `j` on, and the error is in place `j`
      have hplaces : 53 + j = 52 + (j + 1) := by omega
      have halt : a.natAbs < 2 ^ (53 + j) := by
        rw [hplaces]
        by_contra hge
        exact hmore (ha.dvd (not_lt.mp hge))
      have herror : 2 * (a + b - rounded (a + b)).natAbs ≤ 2 ^ (j + 1) :=
        two_mul_error_le (by omega)
      rw [Nat.pow_succ'] at herror
      exact isShort_of_dvd (dvd_sub (dvd_rounded hdvd) hdvda) (by omega)
  · have hzero := hs'.rest_eq_zero (pow_dvd_natAbs ((pow_dvd_pow 2 hge).trans hdvd))
    rwa [rounded_of_isShort (hs'.natAbs_isShort_iff.mpr hzero), add_sub_cancel_left]

/-- The rounded sum and the larger summand are on the same side of zero, so their difference
is not larger than both. -/
theorem natAbs_rounded_sub_le (hle : b.natAbs ≤ a.natAbs) :
    (rounded (a + b) - a).natAbs ≤ max (rounded (a + b)).natAbs a.natAbs := by
  rcases le_total 0 a with ha | ha
  · have hsum : 0 ≤ rounded (a + b) := rounded_nonneg (by omega)
    omega
  · have hsum : 0 ≤ rounded (-(a + b)) := rounded_nonneg (by omega)
    rw [rounded_neg] at hsum
    omega

end

end FlatLisp.Binary64
