/-
FlatLisp.Proofs.FloatOrder — the order of doubles is the order of integers.

Patterns of magnitudes are in the order of the magnitudes, so a pattern with its
sign, counted from zero in both directions, says where a double stands among all
the others (`place`). The library compares doubles by their parts, and on what is a
number that is a comparison of places (`compare_form`); so `≤`, `<` and `==` are
those of integers. The double nearest to an integer is never not-a-number, and
the larger of two integers has no lower place (`place_ofInt_mono`), though two of
them may share one.
-/
import FlatLisp.Proofs.FloatBits
import Mathlib

namespace FlatLisp.Binary64
open Float.Model (Format UnpackedFloat)
open Float.Model.UnpackedFloat

/-! ## Magnitudes in order -/

/-- Canonical magnitudes are in the order of their patterns. -/
theorem Magnitude.IsCanonical.compare_bits {m m' : Magnitude} (h : m.IsCanonical)
    (h' : m'.IsCanonical) :
    (compare m.exponent m'.exponent).then (compare m.significand m'.significand)
      = compare m.bits m'.bits := by
  have hlt := h.significand_lt
  have hlt' := h'.significand_lt
  have hmin := h.minExponent_le
  have hmin' := h'.minExponent_le
  unfold Magnitude.bits hiddenBit
  rcases lt_trichotomy m.exponent m'.exponent with hexp | hexp | hexp
  · have hfull := h'.full.resolve_left (by omega)
    rw [compare_lt_iff_lt.mpr hexp, Ordering.lt_then, eq_comm, compare_lt_iff_lt]
    omega
  · rw [compare_eq_iff_eq.mpr hexp, hexp]
    rcases lt_trichotomy m.significand m'.significand with hsig | hsig | hsig
    · rw [Ordering.then, compare_lt_iff_lt.mpr hsig, eq_comm, compare_lt_iff_lt]
      omega
    · rw [Ordering.then, hsig, compare_eq_iff_eq.mpr rfl, compare_eq_iff_eq.mpr rfl]
    · rw [Ordering.then, compare_gt_iff_gt.mpr hsig, eq_comm, compare_gt_iff_gt]
      omega
  · have hfull := h.full.resolve_left (by omega)
    rw [compare_gt_iff_gt.mpr hexp, Ordering.gt_then, eq_comm, compare_gt_iff_gt]
    omega

/-! ## Places -/

/-- The pattern of a magnitude counted from zero, downwards for a negative
one. -/
def signed (negative : Bool) (bits : Nat) : Int :=
  if negative then -bits else bits

/-- Where a double stands among all doubles in order. -/
def place (x : Float) : Int :=
  signed (isNegative x) (magnitudeBits x)

@[simp]
theorem signed_false (bits : Nat) : signed false bits = bits :=
  rfl

@[simp]
theorem signed_true (bits : Nat) : signed true bits = -bits :=
  rfl

@[simp]
theorem signed_zero (negative : Bool) : signed negative 0 = 0 := by
  cases negative <;> rfl

theorem compare_signed (negative : Bool) (bits bits' : Nat) :
    compare (signed negative bits) (signed negative bits')
      = if negative then (compare bits bits').swap else compare bits bits' := by
  rcases lt_trichotomy bits bits' with h | rfl | h
  · rw [compare_lt_iff_lt.mpr h]
    cases negative
    · exact compare_lt_iff_lt.mpr (by rw [signed_false, signed_false]; omega)
    · exact compare_gt_iff_gt.mpr (by rw [signed_true, signed_true]; omega)
  · rw [compare_eq_iff_eq.mpr rfl, compare_eq_iff_eq.mpr rfl]
    cases negative <;> rfl
  · rw [compare_gt_iff_gt.mpr h]
    cases negative
    · exact compare_gt_iff_gt.mpr (by rw [signed_false, signed_false]; omega)
    · exact compare_lt_iff_lt.mpr (by rw [signed_true, signed_true]; omega)

/-- Of two magnitudes the sign of the greater one decides. -/
theorem compare_signed_of_lt {bits bits' : Nat} (h : bits < bits') (negative negative' : Bool) :
    compare (signed negative bits) (signed negative' bits') = if negative' then .gt else .lt := by
  cases negative' with
  | false => exact compare_lt_iff_lt.mpr (by cases negative <;> simp <;> omega)
  | true => exact compare_gt_iff_gt.mpr (by cases negative <;> simp <;> omega)

theorem compare_signed_of_gt {bits bits' : Nat} (h : bits' < bits) (negative negative' : Bool) :
    compare (signed negative bits) (signed negative' bits') = if negative then .lt else .gt := by
  rw [Std.OrientedOrd.eq_swap, compare_signed_of_lt h]
  cases negative <;> rfl

/-- What is negative is below what is not. -/
theorem compare_signed_not (negative : Bool) {bits : Nat} (h : 0 < bits) (bits' : Nat) :
    compare (signed negative bits) (signed (!negative) bits')
      = if negative then .lt else .gt := by
  cases negative with
  | false => exact compare_gt_iff_gt.mpr (by simp; omega)
  | true => exact compare_lt_iff_lt.mpr (by simp; omega)

/-- Magnitudes of different classes compare as their places do, in either order: the
sign of the greater one decides. They are in different classes if the smaller one is
zero or the greater one is infinite. -/
theorem compare_form_of_lt (negative negative' : Bool) {bits bits' : Nat} (hlt : bits < bits')
    (h' : bits' ≤ infinityBits) (hclass : bits = 0 ∨ bits' = infinityBits) :
    (form negative bits).compare (form negative' bits')
        = some (compare (signed negative bits) (signed negative' bits')) ∧
      (form negative' bits').compare (form negative bits)
        = some (compare (signed negative' bits') (signed negative bits)) := by
  rw [compare_signed_of_lt hlt, compare_signed_of_gt hlt]
  rcases form_cases negative (hlt.le.trans h') with
    ⟨-, hform⟩ | ⟨m, hpos, -, -, hrange, hform⟩ | ⟨hinf, -⟩
  · rcases form_cases negative' h' with
      ⟨hzero, -⟩ | ⟨m', hpos', -, -, -, hform'⟩ | ⟨-, hform'⟩
    · omega
    · rw [hform, hform']
      cases negative' <;> exact ⟨rfl, rfl⟩
    · rw [hform, hform']
      cases negative' <;> exact ⟨rfl, rfl⟩
  · rw [hform, hclass.resolve_left (by omega), form_infinity]
    cases negative' <;> exact ⟨rfl, rfl⟩
  · omega

/-- Finite magnitudes of one sign compare as their patterns do, and of two signs the
negative one is below the other. -/
theorem compare_form_finite (negative negative' : Bool) {bits bits' : Nat}
    (h : 0 < bits ∧ bits < infinityBits) (h' : 0 < bits' ∧ bits' < infinityBits) :
    (form negative bits).compare (form negative' bits')
      = some (compare (signed negative bits) (signed negative' bits')) := by
  obtain ⟨m, hpos, hm, rfl, -, hform⟩ :=
    ((form_cases negative h.2.le).resolve_left (by omega)).resolve_right (by omega)
  obtain ⟨m', hpos', hm', rfl, -, hform'⟩ :=
    ((form_cases negative' h'.2.le).resolve_left (by omega)).resolve_right (by omega)
  rw [hform, hform']
  by_cases hsign : negative' = negative
  · rw [hsign, compare_signed, ← hm.compare_bits hm']
    cases negative <;> rfl
  · rw [Bool.eq_not_of_ne hsign, compare_signed_not negative h.1]
    cases negative <;> rfl

/-- Doubles that are numbers compare as their places do. -/
theorem compare_form (negative negative' : Bool) {bits bits' : Nat} (h : bits ≤ infinityBits)
    (h' : bits' ≤ infinityBits) :
    (form negative bits).compare (form negative' bits')
      = some (compare (signed negative bits) (signed negative' bits')) := by
  have hinfinity : 0 < infinityBits := by decide
  rcases lt_trichotomy bits bits' with hlt | rfl | hlt
  · by_cases hclass : bits = 0 ∨ bits' = infinityBits
    · exact (compare_form_of_lt negative negative' hlt h' hclass).1
    · exact compare_form_finite negative negative' (by omega) (by omega)
  · rcases form_cases negative h with ⟨rfl, hform⟩ | ⟨m, -, -, -, hrange, -⟩ | ⟨rfl, hform⟩
    · rw [hform, form_zero negative' hinfinity rfl, signed_zero, signed_zero]
      rfl
    · exact compare_form_finite negative negative' hrange hrange
    · rw [hform, form_infinity]
      cases negative <;> cases negative' <;> rfl
  · by_cases hclass : bits' = 0 ∨ bits = infinityBits
    · exact (compare_form_of_lt negative' negative hlt h hclass).2
    · exact compare_form_finite negative negative' (by omega) (by omega)

/-! ## Doubles in order -/

theorem compare_unpack {x y : Float} (hx : x.isNaN = false) (hy : y.isNaN = false) :
    x.toModel.unpack.compare y.toModel.unpack = some (compare (place x) (place y)) := by
  rw [unpack_eq_form, unpack_eq_form,
    compare_form _ _ (magnitudeBits_le_of_isNaN hx) (magnitudeBits_le_of_isNaN hy), place, place]

theorem le_iff_place {x y : Float} (hx : x.isNaN = false) (hy : y.isNaN = false) :
    x ≤ y ↔ place x ≤ place y := by
  have hle : x ≤ y ↔ (x.toModel.unpack.compare y.toModel.unpack).any (·.isLE) = true :=
    decide_eq_true_iff
  rw [hle, compare_unpack hx hy]
  exact Int.isLE_compare

theorem lt_iff_place {x y : Float} (hx : x.isNaN = false) (hy : y.isNaN = false) :
    x < y ↔ place x < place y := by
  have hlt : x < y ↔ (x.toModel.unpack.compare y.toModel.unpack == some .lt) = true :=
    decide_eq_true_iff
  rw [hlt, compare_unpack hx hy, beq_iff_eq, Option.some_inj, compare_lt_iff_lt]

theorem beq_iff_place {x y : Float} (hx : x.isNaN = false) (hy : y.isNaN = false) :
    (x == y) = true ↔ place x = place y := by
  show (x.toModel.unpack.compare y.toModel.unpack == some .eq) = true ↔ _
  rw [compare_unpack hx hy, beq_iff_eq, Option.some_inj, compare_eq_iff_eq]

/-- What compares at all is a number. -/
theorem not_isNaN_of_compare {x y : Float} {o : Ordering}
    (h : x.toModel.unpack.compare y.toModel.unpack = some o) :
    x.isNaN = false ∧ y.isNaN = false := by
  rw [← Bool.not_eq_true, ← Bool.not_eq_true, isNaN_iff, isNaN_iff]
  constructor
  · intro hx
    rw [unpack_eq_form x, form_nan _ hx] at h
    cases h
  · intro hy
    rw [unpack_eq_form y, form_nan _ hy] at h
    cases hform : x.toModel.unpack <;> rw [hform] at h <;> cases h

/-- Not-a-number is below nothing, and nothing is below it. -/
theorem not_isNaN_of_lt {x y : Float} (h : x < y) : x.isNaN = false ∧ y.isNaN = false := by
  have hcompare : (x.toModel.unpack.compare y.toModel.unpack == some .lt) = true :=
    of_decide_eq_true h
  exact not_isNaN_of_compare (beq_iff_eq.mp hcompare)

/-- Not-a-number equals nothing. -/
theorem not_isNaN_of_beq {x y : Float} (h : (x == y) = true) :
    x.isNaN = false ∧ y.isNaN = false := by
  have hcompare : (x.toModel.unpack.compare y.toModel.unpack == some .eq) = true := h
  exact not_isNaN_of_compare (beq_iff_eq.mp hcompare)

/-- Infinity is the only positive double that is not finite. -/
theorem eq_infinity_of_pos {x : Float} (hpos : 0.0 < x) (hfinite : x.isFinite = false) :
    x = infinity := by
  obtain ⟨-, hnan⟩ := not_isNaN_of_lt hpos
  have hle : magnitudeBits x ≤ infinityBits := magnitudeBits_le_of_isNaN hnan
  have hplace : 0 < place x := (lt_iff_place rfl hnan).mp hpos
  rw [← Bool.not_eq_true, isFinite_iff] at hfinite
  have hbits : magnitudeBits x = infinityBits := by omega
  have hsign : isNegative x = false := by
    cases hnegative : isNegative x with
    | false => rfl
    | true =>
      rw [place, hnegative, signed_true] at hplace
      omega
  rw [← ofSignAndBits_magnitudeBits x, hsign, hbits, infinity]

/-! ## Integers among the doubles -/

theorem isNaN_ofInt (n : Int) : (ofInt n).isNaN = false :=
  isNaN_nearest _ _ _

theorem place_ofInt (n : Int) : place (ofInt n) = signed (n < 0) (nearestBits n.natAbs 1) := by
  rw [place, ofInt, isNegative_nearest, magnitudeBits_nearest]

/-- Taking integers as doubles keeps their order, if not their differences. -/
theorem place_ofInt_mono {m n : Int} (h : m ≤ n) : place (ofInt m) ≤ place (ofInt n) := by
  rw [place_ofInt, place_ofInt]
  rcases lt_or_ge m 0 with hm | hm
  · rcases lt_or_ge n 0 with hn | hn
    · have hsizes : nearestBits n.natAbs 1 ≤ nearestBits m.natAbs 1 :=
        nearestBits_natural_mono (by omega)
      simp only [hm, hn, decide_true, signed_true]
      omega
    · simp only [hm, not_lt.mpr hn, decide_true, decide_false, signed_true, signed_false]
      omega
  · have hn : ¬ n < 0 := by omega
    have hsizes : nearestBits m.natAbs 1 ≤ nearestBits n.natAbs 1 :=
      nearestBits_natural_mono (by omega)
    simp only [not_lt.mpr hm, hn, decide_false, signed_false]
    omega

end FlatLisp.Binary64
