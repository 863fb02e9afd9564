/-
FlatLisp.Proofs.Expansions — exact sums carried as several rounded ones.

A list of short integers, lowest first, stands for its sum. Each of them ends below the
digits of the next ones, with a place between them (`Below`), and adding one number to
the list keeps it so and loses nothing (`IsExpansion.carried`): the rounded sum goes on
to the next integer, and what rounding took away stays behind.

Rounded addition from the top down gives the sum rounded once, except where it settles
too early. It is exact up to the first sum that is not short. That one is rounded, and
what is below is too small to move the result (`rounded_rounded_add`). It is the
rounded sum of all integers unless the sum stood halfway between two short integers and
was rounded to the even one, while the rest lies on the other side (`PassesMiddle`,
`summedDown_eq_rounded_iff`).
-/
import FlatLisp.Proofs.RoundedIntegers
import Mathlib

namespace FlatLisp.Binary64

/-! ## Multiples -/

/-- Multiples that are not equal are at least one unit apart. -/
theorem add_le_of_dvd {d m n : Nat} (hm : d ∣ m) (hn : d ∣ n) (h : m < n) : m + d ≤ n :=
  Nat.add_le_of_le_sub' h.le (Nat.le_of_dvd (Nat.sub_pos_of_lt h) (Nat.dvd_sub hn hm))

theorem pow_succ_dvd_two_mul {k n : Nat} (h : 2 ^ k ∣ n) : 2 ^ (k + 1) ∣ 2 * n := by
  rw [Nat.pow_succ']
  exact Nat.mul_dvd_mul_left 2 h

/-! ## Integers below others -/

/-- The integer `a` ends below the digits of `b`, with a place between them. -/
def Below (a b : Int) : Prop :=
  ∃ k : Nat, 2 * a.natAbs < 2 ^ k ∧ (2 : Int) ^ k ∣ b

namespace Below

variable {a a' b c n : Int}

theorem mono (h : Below a b) (hle : a'.natAbs ≤ a.natAbs) : Below a' b := by
  obtain ⟨k, hlt, hdvd⟩ := h
  exact ⟨k, by omega, hdvd⟩

theorem zero_right (a : Int) : Below a 0 :=
  ⟨2 * a.natAbs, Nat.lt_two_pow_self, dvd_zero _⟩

theorem neg_right (h : Below a b) : Below a (-b) := by
  obtain ⟨k, hlt, hdvd⟩ := h
  exact ⟨k, hlt, (dvd_neg).mpr hdvd⟩

theorem add_right (hb : Below a b) (hc : Below a c) : Below a (b + c) := by
  obtain ⟨i, hi, hib⟩ := hb
  obtain ⟨j, hj, hjc⟩ := hc
  rcases le_total i j with hle | hle
  · exact ⟨i, hi, dvd_add hib ((pow_dvd_pow 2 hle).trans hjc)⟩
  · exact ⟨j, hj, dvd_add ((pow_dvd_pow 2 hle).trans hib) hjc⟩

theorem sub_right (hb : Below a b) (hc : Below a c) : Below a (b - c) := by
  rw [sub_eq_add_neg]
  exact hb.add_right hc.neg_right

theorem rounded_right (h : Below a b) : Below a (rounded b) := by
  obtain ⟨k, hlt, hdvd⟩ := h
  exact ⟨k, hlt, dvd_rounded hdvd⟩

theorem error_right (h : Below a b) : Below a (b - rounded b) :=
  h.sub_right h.rounded_right

theorem sum_right {bs : List Int} (h : ∀ b ∈ bs, Below a b) : Below a bs.sum := by
  induction bs with
  | nil => exact zero_right a
  | cons b bs ih =>
    rw [List.sum_cons]
    exact (h b List.mem_cons_self).add_right (ih fun c hc => h c (List.mem_cons_of_mem b hc))

/-- The place that stays free takes the carry of what is further below. -/
theorem add_left (hab : Below a b) (ha : Below a n) (hb : Below b n) : Below (a + b) n := by
  obtain ⟨i, hi, hib⟩ := hab
  obtain ⟨j, hj, hjn⟩ := hb
  rcases eq_or_ne b 0 with rfl | hb0
  · rwa [add_zero]
  · have hbdvd : 2 ^ i ∣ b.natAbs := pow_dvd_natAbs hib
    have hble : 2 ^ i ≤ b.natAbs := Nat.le_of_dvd (Int.natAbs_pos.mpr hb0) hbdvd
    have hij : i + 1 < j := by
      refine (Nat.pow_lt_pow_iff_right (by decide : 1 < 2)).mp ?_
      rw [Nat.pow_succ']
      omega
    -- twice `b` is a multiple of `2 ^ (i + 1)`, so it stays that far below `2 ^ j`
    have hgap := add_le_of_dvd (pow_succ_dvd_two_mul hbdvd) (Nat.pow_dvd_pow 2 hij.le) hj
    rw [Nat.pow_succ'] at hgap
    exact ⟨j, by omega, hjn⟩

theorem sum_left {ps : List Int} (hps : ps.Pairwise Below) (h : ∀ p ∈ ps, Below p n) :
    Below ps.sum n := by
  induction hps with
  | nil =>
    exact ⟨0, by decide, one_dvd n⟩
  | cons hp _ ih =>
    rw [List.sum_cons]
    exact (sum_right hp).add_left (h _ List.mem_cons_self)
      (ih fun q hq => h q (List.mem_cons_of_mem _ hq))

end Below

/-! ## Adding a number to an expansion -/

/-- Short integers that stand apart, lowest first. -/
structure IsExpansion (ps : List Int) : Prop where
  short : ∀ p ∈ ps, IsShort p
  apart : ps.Pairwise Below

/-- The integer `c` is added to one integer after the other: the rounded sum goes on, and
what rounding took away stays behind, zeros apart. -/
def carried (c : Int) : List Int → List Int
  | [] => [c]
  | p :: ps =>
    if c + p - rounded (c + p) = 0 then carried (rounded (c + p)) ps
    else (c + p - rounded (c + p)) :: carried (rounded (c + p)) ps

section

variable {a c : Int} {ps : List Int}

/-- Nothing of the sum is lost. -/
theorem sum_carried (c : Int) (ps : List Int) : (carried c ps).sum = c + ps.sum := by
  induction ps generalizing c with
  | nil => rw [carried, List.sum_singleton, List.sum_nil, add_zero]
  | cons p ps ih =>
    rw [carried, List.sum_cons]
    split
    case isTrue hzero =>
      rw [ih, ← sub_eq_zero.mp hzero, add_assoc]
    case isFalse =>
      rw [List.sum_cons, ih]
      ring

theorem below_carried (hc : Below a c) (hps : ∀ p ∈ ps, Below a p) :
    ∀ q ∈ carried c ps, Below a q := by
  induction ps generalizing c with
  | nil =>
    intro q hq
    obtain rfl := List.mem_singleton.mp hq
    exact hc
  | cons p ps ih =>
    have hsum : Below a (c + p) := hc.add_right (hps p List.mem_cons_self)
    have hrest := ih hsum.rounded_right fun q hq => hps q (List.mem_cons_of_mem p hq)
    rw [carried]
    split
    case isTrue => exact hrest
    case isFalse => exact List.forall_mem_cons.mpr ⟨hsum.error_right, hrest⟩

/-- The integers stay short and apart. -/
theorem IsExpansion.carried (h : IsExpansion ps) (hc : IsShort c) :
    IsExpansion (Binary64.carried c ps) := by
  induction ps generalizing c with
  | nil => exact ⟨by simpa [Binary64.carried] using hc, List.pairwise_singleton _ _⟩
  | cons p ps ih =>
    obtain ⟨hp, hps⟩ := List.forall_mem_cons.mp h.short
    obtain ⟨hbelow, hapart⟩ := List.pairwise_cons.mp h.apart
    have hrest := ih ⟨hps, hapart⟩ (isShort_rounded (c + p))
    rw [Binary64.carried]
    split
    case isTrue => exact hrest
    case isFalse =>
      -- the error is not above `p`, and below the rounded sum that goes on
      have herror : ∀ q ∈ ps, Below (c + p - rounded (c + p)) q := fun q hq =>
        (hbelow q hq).mono (natAbs_error_le_right hc)
      exact ⟨List.forall_mem_cons.mpr ⟨isShort_error hc hp, hrest.short⟩,
        List.pairwise_cons.mpr ⟨below_carried (exists_dvd_rounded (c + p)) herror, hrest.apart⟩⟩

theorem IsExpansion.of_suffix {qs : List Int} (h : IsExpansion ps) (hq : qs <:+ ps) :
    IsExpansion qs :=
  ⟨fun q hmem => h.short q (hq.subset hmem), h.apart.sublist hq.sublist⟩

/-- Integers in range that stand apart have a sum in range. -/
theorem inRange_sum (h : ps.Pairwise Below) (hps : ∀ p ∈ ps, InRange p) : InRange ps.sum := by
  unfold InRange at *
  generalize topPlace = k at *
  have hpow : 2 ^ (54 + k) = 2 ^ 54 * 2 ^ k := Nat.pow_add 2 54 k
  have hk : 0 < 2 ^ k := Nat.two_pow_pos k
  induction h with
  | nil =>
    rw [List.sum_nil, Int.natAbs_zero]
    omega
  | @cons p ps hp _ ih =>
    obtain ⟨hfirst, hrest⟩ := List.forall_mem_cons.mp hps
    have hsum := ih hrest
    rw [List.sum_cons]
    obtain ⟨j, hj, hdvd⟩ := Below.sum_right hp
    rcases eq_or_ne ps.sum 0 with hzero | hne
    · rwa [hzero, add_zero]
    · have hdvdn : 2 ^ j ∣ ps.sum.natAbs := pow_dvd_natAbs hdvd
      have hle : 2 ^ j ≤ ps.sum.natAbs := Nat.le_of_dvd (Int.natAbs_pos.mpr hne) hdvdn
      have hj54 : j < 54 + k :=
        (Nat.pow_lt_pow_iff_right (by decide : 1 < 2)).mp (by omega)
      rcases Nat.lt_or_ge k j with hkj | hkj
      · -- the sum stays a whole `2 ^ j` below, and `p` takes less than half of it
        have hbound := add_le_of_dvd hdvdn (Nat.pow_dvd_pow 2 hj54.le) (by omega)
        have hkj' : 2 * 2 ^ k ≤ 2 ^ j := by
          rw [← Nat.pow_succ']
          exact Nat.pow_le_pow_right (by decide) hkj
        omega
      · have hdvdBound := Nat.dvd_sub (Nat.pow_dvd_pow 2 hj54.le) (Nat.pow_dvd_pow 2 hkj)
        have hbound := add_le_of_dvd hdvdn hdvdBound (by omega)
        omega

end

/-! ## Passes in range -/

/-- Every sum on the way of `c` through the integers is in range. -/
def StaysInRange (c : Int) : List Int → Prop
  | [] => True
  | p :: ps => InRange (c + p) ∧ StaysInRange (rounded (c + p)) ps

theorem Below.two_mul_natAbs_lt {a b : Int} (h : Below a b) (hb : b ≠ 0) :
    2 * a.natAbs < b.natAbs := by
  obtain ⟨k, hlt, hdvd⟩ := h
  exact hlt.trans_le (Nat.le_of_dvd (Int.natAbs_pos.mpr hb) (pow_dvd_natAbs hdvd))

/-- What is further down in an expansion is below the sum of what is further up. -/
theorem IsExpansion.below_sum {low high : List Int} (h : IsExpansion (low ++ high)) :
    Below low.sum high.sum := by
  obtain ⟨hlow, -, hbetween⟩ := List.pairwise_append.mp h.apart
  exact Below.sum_left hlow fun p hp => Below.sum_right fun q hq => hbetween p hp q hq

/-- The lower integers have no larger sum than all of them. -/
theorem IsExpansion.natAbs_sum_le {ps low : List Int} (h : IsExpansion ps) (hlow : low <+: ps) :
    low.sum.natAbs ≤ ps.sum.natAbs := by
  obtain ⟨high, rfl⟩ := hlow
  rw [List.sum_append]
  rcases eq_or_ne high.sum 0 with hzero | hne
  · rw [hzero, add_zero]
  · have := h.below_sum.two_mul_natAbs_lt hne
    omega

/-- The errors that stayed behind are below the number that is carried, so it has at most
twice the size of all that was added. -/
theorem staysInRange_of_errors {bound : Nat} (hbound : InRange (4 * bound)) {errors c : Int}
    {ps : List Int} (happart : ps.Pairwise Below) (hc : Below errors c)
    (hps : ∀ p ∈ ps, Below errors p) (hshort : IsShort c)
    (hsums : ∀ low, low <+: ps → (errors + c + low.sum).natAbs ≤ bound)
    (hsizes : ∀ p ∈ ps, p.natAbs ≤ 2 * bound) : StaysInRange c ps := by
  induction ps generalizing errors c with
  | nil => trivial
  | cons p ps ih =>
    obtain ⟨hbelow, happart⟩ := List.pairwise_cons.mp happart
    obtain ⟨hp, hps⟩ := List.forall_mem_cons.mp hps
    obtain ⟨hsize, hsizes⟩ := List.forall_mem_cons.mp hsizes
    have hcsize : c.natAbs ≤ 2 * bound := by
      have hstart := hsums [] List.nil_prefix
      rw [List.sum_nil, add_zero] at hstart
      rcases eq_or_ne c 0 with rfl | hne
      · exact Nat.zero_le _
      · have := hc.two_mul_natAbs_lt hne
        omega
    have hsum : Below errors (c + p) := hc.add_right hp
    have herror : ∀ q ∈ ps, Below (c + p - rounded (c + p)) q := fun q hq =>
      (hbelow q hq).mono (natAbs_error_le_right hshort)
    -- the next error is above those before it and below what is carried on
    have hnext : Below (errors + (c + p - rounded (c + p))) (rounded (c + p)) :=
      hsum.error_right.add_left hsum.rounded_right (exists_dvd_rounded _)
    refine ⟨hbound.mono (by omega), ih happart hnext ?_ (isShort_rounded _) ?_ hsizes⟩
    · exact fun q hq => hsum.error_right.add_left (hps q hq) (herror q hq)
    · intro low hlow
      have hnext := hsums (p :: low) ((List.prefix_cons_inj p).mpr hlow)
      rw [List.sum_cons] at hnext
      have hsame : errors + (c + p - rounded (c + p)) + rounded (c + p) + low.sum
          = errors + c + (p + low.sum) := by ring
      rwa [hsame]

/-- A pass stays in range if the number and the sum of the expansion are small. -/
theorem IsExpansion.staysInRange {bound : Nat} (hbound : InRange (4 * bound)) {c : Int}
    {ps : List Int} (h : IsExpansion ps) (hc : IsShort c)
    (hsum : c.natAbs + ps.sum.natAbs ≤ bound) : StaysInRange c ps := by
  have hzero : ∀ n, Below 0 n := fun n => ⟨0, by decide, one_dvd n⟩
  refine staysInRange_of_errors hbound h.apart (hzero c) (fun p _ => hzero p) hc ?_ ?_
  · intro low hlow
    have := h.natAbs_sum_le hlow
    omega
  · -- each integer is a difference of two lower sums
    intro p hp
    obtain ⟨low, high, rfl⟩ := List.append_of_mem hp
    have hlow := h.natAbs_sum_le (List.prefix_append low (p :: high))
    have hprefix : low ++ [p] <+: low ++ p :: high := ⟨high, by simp⟩
    have hnext := h.natAbs_sum_le hprefix
    rw [List.sum_append, List.sum_singleton] at hnext
    omega

/-! ## What is too small to change a rounded integer -/

section

variable {n m k places top rest : Nat}

/-- The digits that an integer has below its leading places are among all its digits. -/
theorem SplitsAt.dvd_rest (h : SplitsAt n places top rest) (hrest : rest ≠ 0)
    (hdvd : 2 ^ k ∣ n) : k < places ∧ 2 ^ k ∣ rest := by
  have hn := h.eq
  have hkplaces : k < places := by
    by_contra hle
    have hall : 2 ^ places ∣ n := (Nat.pow_dvd_pow 2 (not_lt.mp hle)).trans hdvd
    exact hrest (h.rest_eq_zero hall)
  rw [hn] at hdvd
  have htop : 2 ^ k ∣ top * 2 ^ places :=
    (Nat.pow_dvd_pow 2 hkplaces.le).trans (Nat.dvd_mul_left _ _)
  exact ⟨hkplaces, (Nat.dvd_add_right htop).mp hdvd⟩

/-- What is below its digits leaves its leading places as they are. -/
theorem SplitsAt.nudge (h : SplitsAt n places top rest) (hrest : rest ≠ 0) (hdvd : 2 ^ k ∣ n)
    (hnear : 2 * ((m : Int) - n).natAbs < 2 ^ k) :
    ∃ rest', SplitsAt m places top rest' ∧ (rest' : Int) - rest = m - n := by
  obtain ⟨hplaces, hrestdvd⟩ := h.dvd_rest hrest hdvd
  have hn := h.eq
  have hlt := h.rest_lt
  have hlow : 2 ^ k ≤ rest := Nat.le_of_dvd (Nat.pos_of_ne_zero hrest) hrestdvd
  have hhigh : rest + 2 ^ k ≤ 2 ^ places :=
    add_le_of_dvd hrestdvd (Nat.pow_dvd_pow 2 hplaces.le) hlt
  exact ⟨m - top * 2 ^ places, ⟨by omega, by omega, h.top_lt, h.full⟩, by omega⟩

/-- It changes the rounded number only from the middle between two neighbours: there the
even one is taken, and from the side of the other one the other. -/
theorem SplitsAt.roundedNat_eq_iff (h : SplitsAt n places top rest) (hrest : rest ≠ 0)
    (hdvd : 2 ^ k ∣ n) (hnear : 2 * ((m : Int) - n).natAbs < 2 ^ k) :
    roundedNat m = roundedNat n ↔
      ¬ (2 * rest = 2 ^ places ∧ if top % 2 = 0 then n < m else m < n) := by
  obtain ⟨hplaces, hrestdvd⟩ := h.dvd_rest hrest hdvd
  obtain ⟨rest', h', hdiff⟩ := h.nudge hrest hdvd hnear
  -- twice the rest and the unit of the last place are multiples of `2 ^ (k + 1)`
  have hunit : 2 ^ (k + 1) ∣ 2 ^ places := Nat.pow_dvd_pow 2 hplaces
  have hdouble : 2 ^ (k + 1) ∣ 2 * rest := pow_succ_dvd_two_mul hrestdvd
  have hpow : 2 ^ (k + 1) = 2 * 2 ^ k := Nat.pow_succ'
  have hne : top * 2 ^ places ≠ (top + 1) * 2 ^ places := by
    rw [Nat.succ_mul]
    have := Nat.two_pow_pos places
    omega
  rcases lt_trichotomy (2 * rest) (2 ^ places) with hlt | heq | hgt
  · have hgap : 2 * rest + 2 ^ (k + 1) ≤ 2 ^ places := add_le_of_dvd hdouble hunit hlt
    rw [h.roundedNat_of_lt (.inl hlt), h'.roundedNat_of_lt (.inl (by omega))]
    exact iff_of_true rfl fun hmiddle => hlt.ne hmiddle.1
  · rcases Nat.mod_two_eq_zero_or_one top with heven | hodd
    · rw [h.roundedNat_of_lt (.inr ⟨heq, heven⟩), if_pos heven]
      rcases Nat.lt_or_ge n m with hnm | hnm
      · rw [h'.roundedNat_of_gt (.inl (by omega))]
        exact iff_of_false hne.symm (not_not.mpr ⟨heq, hnm⟩)
      · rw [h'.roundedNat_of_lt (by omega)]
        exact iff_of_true rfl fun hmiddle => hnm.not_gt hmiddle.2
    · rw [h.roundedNat_of_gt (.inr ⟨heq, hodd⟩), if_neg (by omega)]
      rcases Nat.lt_or_ge m n with hnm | hnm
      · rw [h'.roundedNat_of_lt (.inl (by omega))]
        exact iff_of_false hne (not_not.mpr ⟨heq, hnm⟩)
      · rw [h'.roundedNat_of_gt (by omega)]
        exact iff_of_true rfl fun hmiddle => hnm.not_gt hmiddle.2
  · have hgap : 2 ^ places + 2 ^ (k + 1) ≤ 2 * rest := add_le_of_dvd hunit hdouble hgt
    rw [h.roundedNat_of_gt (.inl hgt), h'.roundedNat_of_gt (.inl (by omega))]
    exact iff_of_true rfl fun hmiddle => hgt.ne' hmiddle.1

end

/-- The integer `middle` stands halfway between two neighbouring short integers, and
`exact` on the side of the one that is not even. -/
def PassesMiddle (middle exact : Int) : Prop :=
  ∃ top places : Nat, 2 ^ 52 ≤ top ∧ top < 2 ^ 53 ∧
    middle.natAbs = (2 * top + 1) * 2 ^ places ∧
    if top % 2 = 0 then middle.natAbs < exact.natAbs else exact.natAbs < middle.natAbs

section

variable {t r s : Int}

/-- The middle between neighbours, with its digits taken apart. -/
theorem splitsAt_of_middle {n top places : Nat} (hlow : 2 ^ 52 ≤ top) (htop : top < 2 ^ 53)
    (hn : n = (2 * top + 1) * 2 ^ places) : SplitsAt n (places + 1) top (2 ^ places) := by
  have hpow : 0 < 2 ^ places := Nat.two_pow_pos places
  refine ⟨?_, ?_, htop, fun _ => hlow⟩
  · rw [hn]
    ring
  · rw [Nat.pow_succ]
    omega

theorem PassesMiddle.not_isShort (h : PassesMiddle t s) : ¬ IsShort t := by
  obtain ⟨top, places, hlow, htop, ht, -⟩ := h
  rw [(splitsAt_of_middle hlow htop ht).natAbs_isShort_iff]
  exact (Nat.two_pow_pos places).ne'

theorem passesMiddle_iff {places top rest : Nat} (h : SplitsAt t.natAbs places top rest)
    (hrest : rest ≠ 0) : PassesMiddle t s ↔ 2 * rest = 2 ^ places ∧
      if top % 2 = 0 then t.natAbs < s.natAbs else s.natAbs < t.natAbs := by
  constructor
  · rintro ⟨top', places', hlow, htop, ht, hside⟩
    obtain ⟨rfl, rfl, rfl⟩ := h.unique (splitsAt_of_middle hlow htop ht)
    exact ⟨(Nat.pow_succ').symm, hside⟩
  · rintro ⟨hhalf, hside⟩
    obtain ⟨places, rfl⟩ : ∃ p, places = p + 1 := by
      refine Nat.exists_eq_succ_of_ne_zero ?_
      rintro rfl
      omega
    rw [Nat.pow_succ'] at hhalf
    refine ⟨top, places, h.full (Nat.succ_ne_zero places), h.top_lt, ?_, hside⟩
    rw [h.eq, Nat.eq_of_mul_eq_mul_left two_pos hhalf]
    ring

/-- Nothing below an integer changes its sign. -/
theorem Below.sign_add (hr : Below r t) (ht : t ≠ 0) :
    (t + r).sign = t.sign ∧ ((t + r).natAbs - t.natAbs : Int).natAbs = r.natAbs := by
  obtain ⟨k, hk, hdvd⟩ := hr
  have hle : 2 ^ k ≤ t.natAbs := Nat.le_of_dvd (Int.natAbs_pos.mpr ht) (pow_dvd_natAbs hdvd)
  rcases lt_or_gt_of_ne ht with hneg | hpos
  · rw [Int.sign_eq_neg_one_of_neg hneg, Int.sign_eq_neg_one_of_neg (by omega)]
    exact ⟨rfl, by omega⟩
  · rw [Int.sign_eq_one_of_pos hpos, Int.sign_eq_one_of_pos (by omega)]
    exact ⟨rfl, by omega⟩

/-- An integer that is not short, and its sum with what is below it, are rounded alike,
except in the middle between two neighbours. -/
theorem rounded_add_eq_iff (ht : ¬ IsShort t) (hr : Below r t) :
    rounded (t + r) = rounded t ↔ ¬ PassesMiddle t (t + r) := by
  obtain ⟨places, top, rest, hs⟩ := exists_splitsAt t.natAbs
  have hrest : rest ≠ 0 := fun hzero => ht (hs.natAbs_isShort_iff.mpr hzero)
  have ht0 : t ≠ 0 := by
    rintro rfl
    exact ht isShort_zero
  obtain ⟨hsign, habs⟩ := hr.sign_add ht0
  obtain ⟨k, hk, hdvd⟩ := hr
  rw [passesMiddle_iff hs hrest,
    ← hs.roundedNat_eq_iff hrest (pow_dvd_natAbs hdvd) (by omega : 2 * _ < 2 ^ k), rounded,
    rounded, hsign, mul_right_inj' (mt Int.sign_eq_zero_iff_zero.mp ht0), Nat.cast_inj]

/-- A middle between two neighbours is not near another integer that is not short. -/
theorem PassesMiddle.eq_zero (ht : ¬ IsShort t) (hr : Below r t) (h : PassesMiddle (t + r) s) :
    r = 0 := by
  obtain ⟨places, top, rest, hs⟩ := exists_splitsAt t.natAbs
  have hrest : rest ≠ 0 := fun hzero => ht (hs.natAbs_isShort_iff.mpr hzero)
  have ht0 : t ≠ 0 := by
    rintro rfl
    exact ht isShort_zero
  obtain ⟨-, habs⟩ := hr.sign_add ht0
  obtain ⟨k, hk, hdvd⟩ := hr
  obtain ⟨hplaces, hrestdvd⟩ := hs.dvd_rest hrest (pow_dvd_natAbs hdvd)
  have hnear : 2 * ((t + r).natAbs - t.natAbs : Int).natAbs < 2 ^ k := by omega
  obtain ⟨rest', hs', hdiff⟩ := hs.nudge hrest (pow_dvd_natAbs hdvd) hnear
  obtain ⟨top', places', hlow, htop, hmiddle, -⟩ := h
  obtain ⟨rfl, rfl, rfl⟩ := hs'.unique (splitsAt_of_middle hlow htop hmiddle)
  -- both rests are multiples of `2 ^ k`, and they are nearer to each other
  have hdvd' : (2 : Int) ^ k ∣ ((2 ^ places' : Nat) : Int) - rest :=
    dvd_sub (by exact_mod_cast Nat.pow_dvd_pow 2 (Nat.le_of_lt_succ hplaces))
      (by exact_mod_cast hrestdvd)
  rw [hdiff] at hdvd'
  have hzero := Nat.eq_zero_of_dvd_of_lt (pow_dvd_natAbs hdvd') (by omega)
  omega

/-- What is below an integer that is not short changes nothing once it has been rounded. -/
theorem rounded_rounded_add (ht : ¬ IsShort t) (hr : Below r t) :
    rounded (rounded t + r) = rounded t := by
  obtain ⟨places, top, rest, hs⟩ := exists_splitsAt t.natAbs
  have hrest : rest ≠ 0 := fun hzero => ht (hs.natAbs_isShort_iff.mpr hzero)
  obtain ⟨k, hk, hdvd⟩ := hr
  obtain ⟨hplaces, -⟩ := hs.dvd_rest hrest (pow_dvd_natAbs hdvd)
  obtain ⟨places, rfl⟩ : ∃ p, places = p + 1 := Nat.exists_eq_succ_of_ne_zero (by omega)
  have hpow : 2 ^ k ≤ 2 ^ places := Nat.pow_le_pow_right (by decide) (Nat.le_of_lt_succ hplaces)
  have hlow : 2 ^ 53 * 2 ^ places ≤ (rounded t).natAbs := by
    calc 2 ^ 53 * 2 ^ places = 2 ^ 52 * 2 ^ (places + 1) := by ring
      _ ≤ top * 2 ^ (places + 1) := Nat.mul_le_mul_right _ (hs.full (Nat.succ_ne_zero places))
      _ ≤ roundedNat t.natAbs := by
          rcases hs.roundedNat_cases with ⟨hcase, -⟩ | ⟨hcase, -⟩
          · exact hcase.ge
          · exact hcase ▸ Nat.le_add_right _ _
      _ = (rounded t).natAbs := (natAbs_rounded t).symm
  -- the new rounded integer is less than `2 ^ places` away, and both are multiples of it
  have hnear := natAbs_sub_rounded_le (rounded t + r) (isShort_rounded t)
  rw [add_sub_cancel_left] at hnear
  have hdvdnew : (2 : Int) ^ places ∣ rounded (rounded t + r) := by
    refine (isShort_rounded _).dvd ?_
    rw [Nat.pow_add]
    omega
  have hdvdold : (2 : Int) ^ places ∣ rounded t :=
    (pow_dvd_pow 2 (Nat.le_succ places)).trans hs.dvd_rounded
  have hzero := Nat.eq_zero_of_dvd_of_lt (pow_dvd_natAbs (dvd_sub hdvdnew hdvdold)) (by omega)
  omega

end

/-! ## Adding up from the top -/

/-- The integers added from the last to the first, with every sum rounded. -/
def summedDown : List Int → Int
  | [] => 0
  | p :: ps => rounded (summedDown ps + p)

/-- From the top down, some sum stands halfway between two neighbouring short integers, and
is rounded to the even one, while the whole sum is on the side of the other one. -/
def SettlesOnEven (ps : List Int) : Prop :=
  ∃ high, high <:+ ps ∧ PassesMiddle high.sum ps.sum

section

variable {ps : List Int}

/-- Either all sums from the top down are exact, or the first that is not stays as it was
rounded. -/
theorem summedDown_cases (h : IsExpansion ps) :
    (summedDown ps = ps.sum ∧ ∀ high, high <:+ ps → IsShort high.sum) ∨
      ∃ low high, ps = low ++ high ∧ summedDown ps = rounded high.sum ∧ ¬ IsShort high.sum ∧
        ∀ higher, higher <:+ high → higher ≠ high → IsShort higher.sum := by
  induction ps with
  | nil =>
    refine .inl ⟨rfl, fun high hhigh => ?_⟩
    rw [List.suffix_nil.mp hhigh]
    exact isShort_zero
  | cons p ps ih =>
    rw [summedDown]
    rcases ih (h.of_suffix (List.suffix_cons p ps)) with
      ⟨hsum, hshort⟩ | ⟨low, high, rfl, hsum, hhigh, hfirst⟩
    · rw [hsum, add_comm, ← List.sum_cons]
      by_cases hall : IsShort (p :: ps).sum
      · refine .inl ⟨rounded_of_isShort hall, fun high hhigh => ?_⟩
        rcases List.suffix_cons_iff.mp hhigh with rfl | hhigh
        · exact hall
        · exact hshort high hhigh
      · refine .inr ⟨[], p :: ps, rfl, rfl, hall, fun higher hhigher hne => ?_⟩
        exact hshort higher ((List.suffix_cons_iff.mp hhigher).resolve_left hne)
    · have hbelow : Below p high.sum := Below.sum_right fun q hq =>
        (List.pairwise_cons.mp h.apart).1 q (List.mem_append_right low hq)
      rw [hsum, rounded_rounded_add hhigh hbelow]
      exact .inr ⟨p :: low, high, rfl, rfl, hhigh, hfirst⟩

/-- Rounding from the top down is rounding once, except where it settles on the wrong one of
two neighbours. -/
theorem summedDown_eq_rounded_iff (h : IsExpansion ps) :
    summedDown ps = rounded ps.sum ↔ ¬ SettlesOnEven ps := by
  rcases summedDown_cases h with ⟨hsum, hshort⟩ | ⟨low, high, rfl, hsum, hhigh, hfirst⟩
  · rw [hsum, rounded_of_isShort (hshort ps (List.suffix_refl ps))]
    refine iff_of_true rfl ?_
    rintro ⟨high, hsuffix, hmiddle⟩
    exact hmiddle.not_isShort (hshort high hsuffix)
  · have hbelow := h.below_sum
    have hsettles : SettlesOnEven (low ++ high) ↔ PassesMiddle high.sum (low ++ high).sum := by
      refine ⟨?_, fun hmiddle => ⟨high, List.suffix_append low high, hmiddle⟩⟩
      rintro ⟨other, hsuffix, hmiddle⟩
      rcases List.suffix_or_suffix_of_suffix hsuffix (List.suffix_append low high) with hle | hle
      · rcases eq_or_ne other high with rfl | hne
        · exact hmiddle
        · exact absurd (hfirst other hle hne) hmiddle.not_isShort
      · obtain ⟨between, rfl⟩ := hle
        have hbetween : Below between.sum high.sum :=
          (h.of_suffix hsuffix).below_sum
        rw [List.sum_append, add_comm] at hmiddle
        rwa [hmiddle.eq_zero hhigh hbetween, add_zero] at hmiddle
    rw [hsum, hsettles, List.sum_append, add_comm, eq_comm, rounded_add_eq_iff hhigh hbelow]

/-- No sum on the way down leaves the range that all the integers are in. -/
theorem natAbs_summedDown_lt (h : IsExpansion ps) (hps : ∀ p ∈ ps, InRange p) :
    (summedDown ps).natAbs < 2 ^ (54 + topPlace) := by
  have hbound : ∀ high, high <:+ ps → (rounded high.sum).natAbs < 2 ^ (54 + topPlace) := by
    intro high hhigh
    rw [← inRange_iff_natAbs_rounded_lt]
    exact inRange_sum (h.of_suffix hhigh).apart fun p hp => hps p (hhigh.subset hp)
  rcases summedDown_cases h with ⟨hsum, hshort⟩ | ⟨low, high, rfl, hsum, -, -⟩
  · rw [hsum, ← rounded_of_isShort (hshort ps (List.suffix_refl ps))]
    exact hbound ps (List.suffix_refl ps)
  · rw [hsum]
    exact hbound high (List.suffix_append low high)

end

end FlatLisp.Binary64
