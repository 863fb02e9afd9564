/-
FlatLisp.Proofs.ExactSums — where a sum of doubles is rounded exactly.

Partial sums lose nothing while they are finite: in units they are short integers that
stand apart, and their sum is that of the numbers that were added (`Carries`). Added up
from the top they give the double nearest to the exact sum, except where they settle on
the even one of two neighbours too early (`fsum_nearest_iff`).

The exact sum may be small and a sum on the way to it out of range. Then one infinity
goes on and the other one stays behind as its error. From there on not-a-number or both
infinities are among the partial sums whatever is added (`Spoiled`), so adding them up is
not a number, and the answer is a domain error.
-/
import FlatLisp.Proofs.CheckedReals
import FlatLisp.Proofs.FloatSums
import FlatLisp.Proofs.MachineSteps

namespace FlatLisp.Operation
open Binary64 Machine

variable {H : Type}

/-! ## One addition with its error -/

section

variable {x y : Float} {negative : Bool}

theorem sumWithError_eq (x y : Float) : sumWithError x y =
    if x.abs < y.abs then (y + x, x - (y + x - y)) else (x + y, y - (x + y - x)) := by
  unfold sumWithError
  by_cases h : x.abs < y.abs
  · rw [if_pos h, if_pos h]
  · rw [if_neg h, if_neg h]

/-- The summand that is not smaller comes first. -/
theorem sumWithError_cases (hx : x.isFinite = true) (hy : y.isFinite = true) :
    ∃ large small, sumWithError x y = (large + small, small - (large + small - large)) ∧
      large.isFinite = true ∧ small.isFinite = true ∧
      units large + units small = units x + units y ∧
      (units small).natAbs ≤ (units large).natAbs := by
  rw [sumWithError_eq]
  split
  case isTrue hlt =>
    exact ⟨y, x, rfl, hy, hx, add_comm _ _, ((abs_lt_abs_iff hx hy).mp hlt).le⟩
  case isFalse hlt =>
    exact ⟨x, y, rfl, hx, hy, rfl, not_lt.mp (mt (abs_lt_abs_iff hx hy).mpr hlt)⟩

/-- The rounded sum and its error, as integers. -/
theorem sumWithError_of_inRange (hx : x.isFinite = true) (hy : y.isFinite = true)
    (hrange : InRange (units x + units y)) : ∃ sum error, sumWithError x y = (sum, error) ∧
      sum.isFinite = true ∧ error.isFinite = true ∧
      units sum = rounded (units x + units y) ∧
      units error = units x + units y - rounded (units x + units y) := by
  obtain ⟨large, small, hsplit, hlarge, hsmall, hunits, hle⟩ := sumWithError_cases hx hy
  rw [← hunits] at hrange ⊢
  obtain ⟨herror, herrorUnits⟩ := units_error hlarge hsmall hle hrange
  exact ⟨_, _, hsplit, (isFinite_add_iff hlarge hsmall).mpr hrange, herror,
    units_add hlarge hsmall hrange, herrorUnits⟩

/-- Out of range one infinity is the sum and the other one its error. -/
theorem sumWithError_of_not_inRange (hx : x.isFinite = true) (hy : y.isFinite = true)
    (hrange : ¬ InRange (units x + units y)) : ∃ sum error negative,
      sumWithError x y = (sum, error) ∧ IsLost negative sum ∧ IsLost (!negative) error := by
  obtain ⟨large, small, hsplit, hlarge, hsmall, hunits, -⟩ := sumWithError_cases hx hy
  rw [← hunits] at hrange
  obtain ⟨negative, hsum, herror⟩ := exists_isLost_of_not_inRange hlarge hsmall hrange
  exact ⟨_, _, negative, hsplit, hsum, herror⟩

/-- What is lost stays lost in the sum. -/
theorem isLost_sumWithError (h : IsLost negative x ∨ IsLost negative y) :
    IsLost negative (sumWithError x y).1 := by
  rw [sumWithError_eq]
  split
  case isTrue => exact h.elim (·.add_left y) (·.add_right x)
  case isFalse => exact h.elim (·.add_right y) (·.add_left x)

end

/-! ## Partial sums in range -/

/-- The partial sums lost nothing of `n` units. -/
structure Carries (n : Int) (partials : List Float) : Prop where
  isFinite : ∀ p ∈ partials, p.isFinite = true
  isExpansion : IsExpansion (partials.map units)
  sum : (partials.map units).sum = n

/-- For either sign, some partial sum is infinite with it or not a number. -/
def Spoiled (partials : List Float) : Prop :=
  ∀ negative, ∃ p ∈ partials, IsLost negative p

theorem isLost_carry {x : Float} {partials : List Float} {negative : Bool}
    (h : ∃ p ∈ x :: partials, IsLost negative p) : ∃ p ∈ carry x partials, IsLost negative p := by
  induction partials generalizing x with
  | nil => exact h
  | cons p ps ih =>
    have htail : ∃ q ∈ carry (sumWithError x p).1 ps, IsLost negative q := by
      refine ih ?_
      obtain ⟨q, hq, hlost⟩ := h
      rcases List.mem_cons.mp hq with rfl | hq
      · exact ⟨_, List.mem_cons_self, isLost_sumWithError (.inl hlost)⟩
      · rcases List.mem_cons.mp hq with rfl | hq
        · exact ⟨_, List.mem_cons_self, isLost_sumWithError (.inr hlost)⟩
        · exact ⟨q, List.mem_cons_of_mem _ hq, hlost⟩
    rw [carry]
    split
    case isTrue =>
      obtain ⟨q, hq, hlost⟩ := htail
      exact ⟨q, List.mem_cons_of_mem _ hq, hlost⟩
    case isFalse => exact htail

theorem Spoiled.carry {partials : List Float} (h : Spoiled partials) (x : Float) :
    Spoiled (carry x partials) := fun negative => by
  obtain ⟨p, hp, hlost⟩ := h negative
  exact isLost_carry ⟨p, List.mem_cons_of_mem x hp, hlost⟩

section

variable {x : Float} {partials : List Float}

/-- A pass in range is one through integers. -/
theorem map_units_carry (hx : x.isFinite = true) (hpartials : ∀ p ∈ partials, p.isFinite = true)
    (hstays : StaysInRange (units x) (partials.map units)) :
    (∀ p ∈ carry x partials, p.isFinite = true) ∧
      (carry x partials).map units = carried (units x) (partials.map units) := by
  induction partials generalizing x with
  | nil => exact ⟨List.forall_mem_singleton.mpr hx, rfl⟩
  | cons p ps ih =>
    obtain ⟨hp, hps⟩ := List.forall_mem_cons.mp hpartials
    obtain ⟨hrange, hstays⟩ := hstays
    obtain ⟨sum, error, hsplit, hsum, herror, hsumUnits, herrorUnits⟩ :=
      sumWithError_of_inRange hx hp hrange
    rw [← hsumUnits] at hstays
    obtain ⟨hfinite, hmap⟩ := ih hsum hps hstays
    rw [List.map_cons, carry, carried, hsplit, ← herrorUnits, ← hsumUnits]
    by_cases hzero : units error = 0
    · have hbne : ¬ (error != 0.0) = true := by
        rwa [bne_zero_iff herror, not_not]
      rw [if_neg hbne, if_pos hzero]
      exact ⟨hfinite, hmap⟩
    · rw [if_pos ((bne_zero_iff herror).mpr hzero), if_neg hzero, List.map_cons, hmap]
      exact ⟨List.forall_mem_cons.mpr ⟨herror, hfinite⟩, rfl⟩

/-- A pass that leaves the range spoils the partial sums. -/
theorem spoiled_carry (hx : x.isFinite = true) (hpartials : ∀ p ∈ partials, p.isFinite = true)
    (hleaves : ¬ StaysInRange (units x) (partials.map units)) : Spoiled (carry x partials) := by
  induction partials generalizing x with
  | nil => exact absurd trivial hleaves
  | cons p ps ih =>
    obtain ⟨hp, hps⟩ := List.forall_mem_cons.mp hpartials
    by_cases hrange : InRange (units x + units p)
    · obtain ⟨sum, error, hsplit, hsum, -, hsumUnits, -⟩ := sumWithError_of_inRange hx hp hrange
      have htail : Spoiled (carry sum ps) := ih hsum hps fun hstays =>
        hleaves ⟨hrange, hsumUnits ▸ hstays⟩
      rw [carry, hsplit]
      split
      case isTrue =>
        intro negative
        obtain ⟨q, hq, hlost⟩ := htail negative
        exact ⟨q, List.mem_cons_of_mem _ hq, hlost⟩
      case isFalse => exact htail
    · obtain ⟨sum, error, negative, hsplit, hsum, herror⟩ :=
        sumWithError_of_not_inRange hx hp hrange
      rw [carry, hsplit, if_pos (bne_zero_of_isLost herror)]
      intro sign
      rcases Bool.eq_or_eq_not sign negative with rfl | rfl
      · have hrest : ∃ q ∈ carry sum ps, IsLost sign q :=
          isLost_carry ⟨sum, List.mem_cons_self, hsum⟩
        obtain ⟨q, hq, hlost⟩ := hrest
        exact ⟨q, List.mem_cons_of_mem _ hq, hlost⟩
      · exact ⟨error, List.mem_cons_self, herror⟩

theorem Carries.carry_of_staysInRange {n : Int} (h : Carries n partials) (hx : x.isFinite = true)
    (hstays : StaysInRange (units x) (partials.map units)) :
    Carries (n + units x) (carry x partials) := by
  obtain ⟨hfinite, hmap⟩ := map_units_carry hx h.isFinite hstays
  refine ⟨hfinite, ?_, ?_⟩
  · rw [hmap]
    exact h.isExpansion.carried (isShort_units x)
  · rw [hmap, sum_carried, h.sum, add_comm]

/-- One more number keeps the partial sums exact, or spoils them. -/
theorem Carries.carry {n : Int} (h : Carries n partials) (hx : x.isFinite = true) :
    Carries (n + units x) (carry x partials) ∨ Spoiled (Operation.carry x partials) := by
  by_cases hstays : StaysInRange (units x) (partials.map units)
  · exact .inl (h.carry_of_staysInRange hx hstays)
  · exact .inr (spoiled_carry hx h.isFinite hstays)

theorem carries_nil : Carries 0 [] :=
  ⟨List.forall_mem_nil _, ⟨List.forall_mem_nil _, List.Pairwise.nil⟩, rfl⟩

end

section

variable {xs : List Float}

theorem carryAll_concat (xs : List Float) (x : Float) :
    carryAll (xs ++ [x]) = carry x (carryAll xs) := by
  rw [carryAll, List.foldl_append]
  rfl

theorem sum_map_concat {M : Type} [AddMonoid M] (f : Float → M) (xs : List Float) (x : Float) :
    ((xs ++ [x]).map f).sum = (xs.map f).sum + f x := by
  rw [List.map_append, List.sum_append, List.map_singleton, List.sum_singleton]

/-- Partial sums lose nothing, or they are spoiled. -/
theorem carries_or_spoiled (hxs : ∀ x ∈ xs, x.isFinite = true) :
    Carries (xs.map units).sum (carryAll xs) ∨ Spoiled (carryAll xs) := by
  induction xs using List.reverseRecOn with
  | nil => exact .inl carries_nil
  | append_singleton xs x ih =>
    obtain ⟨hfront, hx⟩ := List.forall_mem_append.mp hxs
    rw [carryAll_concat, sum_map_concat]
    rcases ih hfront with h | h
    · exact h.carry (hx x List.mem_cons_self)
    · exact .inr (h.carry x)

/-- No partial sum leaves the range while the sizes of all numbers together are small: their
sum is not larger. -/
theorem carries_of_small {bound : Nat} (hbound : InRange (4 * bound))
    (hxs : ∀ x ∈ xs, x.isFinite = true)
    (hsmall : (xs.map fun x => (units x).natAbs).sum ≤ bound) :
    Carries (xs.map units).sum (carryAll xs) ∧
      (xs.map units).sum.natAbs ≤ (xs.map fun x => (units x).natAbs).sum := by
  induction xs using List.reverseRecOn with
  | nil => exact ⟨carries_nil, Nat.le_refl 0⟩
  | append_singleton xs x ih =>
    obtain ⟨hfront, hx⟩ := List.forall_mem_append.mp hxs
    rw [sum_map_concat] at hsmall
    obtain ⟨hcarries, hle⟩ := ih hfront (by omega)
    have hstays : StaysInRange (units x) ((carryAll xs).map units) := by
      refine hcarries.isExpansion.staysInRange hbound (isShort_units x) ?_
      rw [hcarries.sum]
      omega
    rw [carryAll_concat, sum_map_concat, sum_map_concat]
    exact ⟨hcarries.carry_of_staysInRange (hx x List.mem_cons_self) hstays, by omega⟩

end

/-! ## Adding up the partial sums -/

/-- The partial sums added up from the top. -/
def sumDown (partials : List Float) : Float :=
  partials.foldr (fun p sum => sum + p) 0.0

/-- Adding up partial sums that lost nothing is adding up integers. -/
theorem isPlain_sumDown {n : Int} {partials : List Float} (h : Carries n partials) :
    IsPlain (summedDown (partials.map units)) (sumDown partials) := by
  obtain ⟨hfinite, hexpansion, -⟩ := h
  induction partials with
  | nil => exact ⟨rfl, by decide, fun _ => by decide⟩
  | cons p ps ih =>
    obtain ⟨hp, hps⟩ := List.forall_mem_cons.mp hfinite
    have hexpansion' : IsExpansion (ps.map units) := hexpansion.of_suffix (List.suffix_cons _ _)
    rw [List.map_cons, summedDown, sumDown, List.foldr_cons]
    refine (ih hps hexpansion').add hp ?_
    rw [inRange_iff_natAbs_rounded_lt]
    refine natAbs_summedDown_lt hexpansion fun q hq => ?_
    obtain ⟨x, hx, rfl⟩ := List.mem_map.mp hq
    exact inRange_units (hfinite x hx)

theorem isLost_sumDown {partials : List Float} {negative : Bool}
    (h : ∃ p ∈ partials, IsLost negative p) : IsLost negative (sumDown partials) := by
  induction partials with
  | nil =>
    obtain ⟨_, hmem, -⟩ := h
    cases hmem
  | cons p ps ih =>
    obtain ⟨q, hq, hlost⟩ := h
    rw [sumDown, List.foldr_cons]
    rcases List.mem_cons.mp hq with rfl | hq
    · exact hlost.add_left _
    · exact (ih ⟨q, hq, hlost⟩).add_right p

/-! ## Sums rounded exactly -/

/-- The exact sum of finite doubles. -/
def total (xs : List Float) : ℚ :=
  (xs.map exactValue).sum

theorem total_eq (xs : List Float) : total xs = ((xs.map units).sum : Int) * unit := by
  unfold total
  induction xs with
  | nil => simp
  | cons x xs ih =>
    rw [List.map_cons, List.sum_cons, List.map_cons, List.sum_cons, ih, exactValue_eq_units]
    push_cast
    ring

section

variable {xs ys : List Number}

/-- The answer is what the check says of the partial sums, added up. -/
theorem fsum_eval (hfinite : ∀ x ∈ xs, x.toFloat.isFinite = true) :
    (fsum.eval [.list (xs.map .number)] : Except Error (Value H)) =
      checkedReal "fsum" (xs.map Number.toFloat) (sumDown (carryAll (xs.map Number.toFloat))) := by
  have hlist : floatListArg "fsum" (.list (xs.map .number) : Value H)
      = .ok (xs.map Number.toFloat) := mapM_floatArg_number "fsum" xs
  have hall : (xs.map Number.toFloat).all Float.isFinite = true := by
    rw [List.all_map, List.all_eq_true]
    exact hfinite
  have hsum : exactSum (xs.map Number.toFloat)
      = .ok (sumDown (carryAll (xs.map Number.toFloat))) := by
    rw [exactSum, if_pos hall, partialSums_eq, ok_bind, List.foldl_reverse]
    rfl
  show (do
    let ys ← floatListArg "fsum" (.list (xs.map .number) : Value H)
    checkedReal "fsum" ys (← exactSum ys)) = _
  rw [hlist, ok_bind, hsum, ok_bind]

theorem fsum_eval_of_carries (hfinite : ∀ x ∈ xs, x.toFloat.isFinite = true) {n : Int}
    (h : Carries n (carryAll (xs.map Number.toFloat))) :
    (fsum.eval [.list (xs.map .number)] : Except Error (Value H))
      = .ok (.float (sumDown (carryAll (xs.map Number.toFloat)))) := by
  obtain ⟨hnan, hinf⟩ := isFinite_iff_isNaN_isInf.mp (isPlain_sumDown h).isFinite
  rw [fsum_eval hfinite, checkedReal_eq_ok_iff]
  refine ⟨rfl, fun hnan' => ?_, fun hinf' => ?_⟩
  · exact absurd (hnan.symm.trans hnan') Bool.false_ne_true
  · exact absurd (hinf.symm.trans hinf') Bool.false_ne_true

theorem fsum_eval_of_spoiled (hfinite : ∀ x ∈ xs, x.toFloat.isFinite = true)
    (h : Spoiled (carryAll (xs.map Number.toFloat))) :
    (fsum.eval [.list (xs.map .number)] : Except Error (Value H))
      = .error (.fault (.domain "fsum")) := by
  have hnan := isNaN_of_isLost (isLost_sumDown (h true)) (isLost_sumDown (h false))
  have hinputs : (xs.map Number.toFloat).any Float.isNaN = false := by
    rw [List.any_map, List.any_eq_false]
    intro x hx
    rw [Function.comp_apply, isNaN_of_isFinite (hfinite x hx)]
    exact Bool.false_ne_true
  rw [fsum_eval hfinite, checkedReal, hnan, hinputs]
  rfl

/-- Partial sums that lost nothing are finite, and spoiled ones are not. -/
theorem carries_iff (hxs : ∀ x ∈ xs, x.toFloat.isFinite = true) :
    Carries ((xs.map Number.toFloat).map units).sum (carryAll (xs.map Number.toFloat)) ↔
      ∀ p ∈ carryAll (xs.map Number.toFloat), p.isFinite = true := by
  refine ⟨Carries.isFinite, fun hall => (carries_or_spoiled ?_).resolve_right fun hspoiled => ?_⟩
  · exact List.forall_mem_map.mpr hxs
  · obtain ⟨p, hp, hlost⟩ := hspoiled true
    exact not_isFinite_of_isLost hlost (hall p hp)

end

/-- Partial sums that lost nothing are added up to the nearest double, except where they
settle on the even one of two neighbours. -/
theorem sumDown_eq_nearestTo_iff {n : Int} {partials : List Float} (h : Carries n partials) :
    sumDown partials = nearestTo (n * unit) ↔ ¬ SettlesOnEven (partials.map units) := by
  have hrange : InRange n := by
    rw [← h.sum]
    refine inRange_sum h.isExpansion.apart fun p hp => ?_
    obtain ⟨x, hx, rfl⟩ := List.mem_map.mp hp
    exact inRange_units (h.isFinite x hx)
  have hsum := isPlain_sumDown h
  have hnearest := isPlain_nearestTo hrange
  rw [← summedDown_eq_rounded_iff h.isExpansion, h.sum]
  constructor
  · intro heq
    rw [← hsum.units_eq, heq, hnearest.units_eq]
  · intro heq
    rw [heq] at hsum
    exact hsum.unique hnearest

/-- A total of at most `2 ^ 1021` in units. -/
theorem sum_natAbs_units_le {xs : List Float}
    (h : (xs.map fun x => |exactValue x|).sum ≤ 2 ^ 1021) :
    (xs.map fun x => (units x).natAbs).sum ≤ 2 ^ (51 + topPlace) := by
  have hsum : ∀ xs : List Float, (xs.map fun x => |exactValue x|).sum
      = ((xs.map fun x => (units x).natAbs).sum : Nat) * unit := by
    intro xs
    induction xs with
    | nil => simp
    | cons x xs ih =>
      rw [List.map_cons, List.sum_cons, List.map_cons, List.sum_cons, ih, exactValue_eq_units,
        abs_mul_unit]
      push_cast
      ring
  have hpow : (2 : ℚ) ^ 1021 = ((2 ^ (51 + topPlace) : Nat) : ℚ) * unit := by
    rw [Nat.cast_pow, Nat.cast_ofNat, unit, ← zpow_natCast, ← zpow_natCast,
      ← zpow_add₀ two_ne_zero]
    rfl
  rw [hsum, hpow, mul_le_mul_iff_of_pos_right unit_pos] at h
  exact_mod_cast h

/-- **Where sums are rounded exactly.** Finite numbers, in whatever order, are added to the
double nearest to their exact sum if and only if no partial sum leaves the range, and the
partial sums do not settle on an even neighbour too early: adding them up from the top,
no sum is halfway between two doubles while the exact sum is on the side of the odd one.

Partial sums in range lose nothing, and there is an answer. Out of range the answer is a
domain error. Numbers whose sizes together are at most `2 ^ 1021` stay in range. -/
theorem fsum_nearest_iff {xs ys : List Number} (hperm : ys.Perm xs)
    (hfinite : ∀ x ∈ xs, x.toFloat.isFinite = true) :
    ∃ partials, partialSums (ys.map Number.toFloat) = .ok partials ∧
      ((fsum.eval [.list (ys.map .number)] : Except Error (Value H))
          = .ok (.float (nearestTo (total (xs.map Number.toFloat)))) ↔
        (∀ p ∈ partials, p.isFinite = true) ∧ ¬ SettlesOnEven (partials.map units)) ∧
      ((∀ p ∈ partials, p.isFinite = true) →
        total partials = total (xs.map Number.toFloat) ∧
        ∃ r : Float, r.isFinite = true ∧
          (fsum.eval [.list (ys.map .number)] : Except Error (Value H)) = .ok (.float r)) ∧
      ((∃ p ∈ partials, p.isFinite = false) →
        (fsum.eval [.list (ys.map .number)] : Except Error (Value H))
          = .error (.fault (.domain "fsum"))) ∧
      ((xs.map fun x => |exactValue x.toFloat|).sum ≤ 2 ^ 1021 →
        ∀ p ∈ partials, p.isFinite = true) := by
  have hfinite' : ∀ y ∈ ys, y.toFloat.isFinite = true := fun y hy => hfinite y (hperm.subset hy)
  have htotal : total (xs.map Number.toFloat)
      = (((ys.map Number.toFloat).map units).sum : Int) * unit := by
    rw [← total_eq]
    exact ((hperm.map _).map _).sum_eq.symm
  have hcarries := carries_iff hfinite'
  have hdoubles : ∀ y ∈ ys.map Number.toFloat, y.isFinite = true := List.forall_mem_map.mpr hfinite'
  refine ⟨carryAll (ys.map Number.toFloat), partialSums_eq _, ?_, ?_, ?_, ?_⟩
  · rw [htotal, ← hcarries]
    constructor
    · intro heval
      rcases carries_or_spoiled hdoubles with h | hspoiled
      · refine ⟨h, (sumDown_eq_nearestTo_iff h).mp ?_⟩
        rw [fsum_eval_of_carries hfinite' h] at heval
        injection heval with hvalue
        injection hvalue with hnumber
        injection hnumber
      · rw [fsum_eval_of_spoiled hfinite' hspoiled] at heval
        cases heval
    · rintro ⟨h, hsettles⟩
      rw [fsum_eval_of_carries hfinite' h, (sumDown_eq_nearestTo_iff h).mpr hsettles]
  · intro hall
    have h := hcarries.mpr hall
    refine ⟨?_, _, (isPlain_sumDown h).isFinite, fsum_eval_of_carries hfinite' h⟩
    rw [htotal, total_eq, h.sum]
  · rintro ⟨p, hp, hinfinite⟩
    refine fsum_eval_of_spoiled hfinite' ((carries_or_spoiled hdoubles).resolve_left fun h => ?_)
    exact Bool.false_ne_true (hinfinite.symm.trans (h.isFinite p hp))
  · intro hsmall
    have hsmall' : ((ys.map Number.toFloat).map fun x => |exactValue x|).sum ≤ 2 ^ 1021 := by
      rw [List.map_map]
      exact (hperm.map _).sum_eq.trans_le hsmall
    have hbound : InRange (4 * ((2 ^ (51 + topPlace) : Nat) : Int)) := by
      have hpos : 0 < 2 ^ topPlace := Nat.two_pow_pos topPlace
      rw [InRange, Nat.pow_add, Nat.pow_add]
      omega
    exact (carries_of_small hbound hdoubles (sum_natAbs_units_le hsmall')).1.isFinite

/-- The numbers `1e308`, `1e308` and `-1e308` have the sum `1e308`, but in this order their
partial sums leave the range. -/
theorem fsum_nearest_in_another_order :
    [.float 1e308, .float 1e308, .float (-1e308)].Perm
        [.float 1e308, .float (-1e308), (.float 1e308 : Number)] ∧
    (∀ x ∈ [.float 1e308, .float (-1e308), (.float 1e308 : Number)], x.toFloat.isFinite = true) ∧
    (fsum.eval [.list [.float 1e308, .float 1e308, .float (-1e308)]] :
      Except Error (Value Empty)) = .error (.fault (.domain "fsum")) := by
  have hperm : [.float 1e308, .float 1e308, .float (-1e308)].Perm
      [.float 1e308, .float (-1e308), (.float 1e308 : Number)] := (List.Perm.swap _ _ []).cons _
  have hfinite : ∀ x ∈ [.float 1e308, .float (-1e308), (.float 1e308 : Number)],
      x.toFloat.isFinite = true := by decide +kernel
  obtain ⟨partials, hpartials, -, -, hdomain, -⟩ :=
    fsum_nearest_iff (H := Empty) hperm hfinite
  rw [partialSums_eq] at hpartials
  injection hpartials with hpartials
  refine ⟨hperm, hfinite, hdomain ?_⟩
  rw [← hpartials]
  decide +kernel

/-- The sum of `1`, `2 ^ -53` and `2 ^ -106` is nearest to the double after `1`. Without the
last number it is halfway between the two, and it settles on `1`. -/
theorem fsum_rounds_twice :
    (∀ x ∈ [1.0, 1.1102230246251565e-16, 1.232595164407831e-32], Float.isFinite x = true) ∧
    nearestTo (total [1.0, 1.1102230246251565e-16, 1.232595164407831e-32])
      = 1.0000000000000002 ∧
    (fsum.eval [.list [.float 1.0, .float 1.1102230246251565e-16,
      .float 1.232595164407831e-32]] : Except Error (Value Empty)) = .ok (.float 1.0) ∧
    (1.0 : Float) ≠ 1.0000000000000002 := by
  have hfinite : ∀ x ∈ [1.0, 1.1102230246251565e-16, 1.232595164407831e-32],
      Float.isFinite x = true := by decide +kernel
  have hrange : InRange
      ([1.0, 1.1102230246251565e-16, 1.232595164407831e-32].map units).sum := by
    unfold InRange
    decide +kernel
  have hnext : IsPlain
      (rounded ([1.0, 1.1102230246251565e-16, 1.232595164407831e-32].map units).sum)
      1.0000000000000002 := ⟨by decide +kernel, by decide +kernel, by decide +kernel⟩
  have hanswer : sumDown (carryAll [1.0, 1.1102230246251565e-16, 1.232595164407831e-32]) = 1.0 := by
    decide +kernel
  refine ⟨hfinite, ?_, ?_, by decide +kernel⟩
  · rw [total_eq]
    exact (isPlain_nearestTo hrange).unique hnext
  · have hnumbers : ∀ x ∈ [.float 1.0, .float 1.1102230246251565e-16,
        (.float 1.232595164407831e-32 : Number)], x.toFloat.isFinite = true := by decide +kernel
    refine (fsum_eval hnumbers).trans ?_
    show checkedReal "fsum" _ (sumDown
      (carryAll [1.0, 1.1102230246251565e-16, 1.232595164407831e-32])) = _
    rw [hanswer]
    rfl

end FlatLisp.Operation
