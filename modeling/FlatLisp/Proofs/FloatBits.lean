/-
FlatLisp.Proofs.FloatBits — a double and its bit pattern are the same thing.

A double is a 64-bit pattern in which not-a-number has only one form, so it
comes back from its pattern (`Float.ofBits_toBits`) and two doubles with one
pattern are one (`Float.toBits_inj`). Said of magnitudes, a double comes back
from its sign bit and the pattern of its magnitude
(`ofSignAndBits_magnitudeBits`), and all patterns above that of infinity are
the one double that is not a number (`eq_nan`).
-/
import FlatLisp.Proofs.NearestDouble
import Mathlib

namespace FlatLisp.Binary64

open Float.Model (Format UnpackedFloat)
open Float.Model.UnpackedFloat

/-! ## The fields of a pattern -/

theorem toNat_unpackMantissa (b : BitVec Format.binary64.numBits) :
    (unpackMantissa b).toNat = b.toNat % hiddenBit := by
  simp [unpackMantissa, BitVec.extractLsb_toNat, hiddenBit]

theorem toNat_unpackExponent (b : BitVec Format.binary64.numBits) :
    (unpackExponent b).toNat = b.toNat / hiddenBit % fieldCount := by
  simp [unpackExponent, BitVec.extractLsb_toNat, Nat.shiftRight_eq_div_pow, hiddenBit, fieldCount]

theorem toNat_unpackSign (b : BitVec Format.binary64.numBits) :
    (unpackSign b).toNat = b.toNat / signBit := by
  have hlt : b.toNat < 2 ^ 64 := b.isLt
  have hbit : b.toNat / 0x8000000000000000 < 2 := by omega
  simp [unpackSign, BitVec.extractLsb_toNat, Nat.shiftRight_eq_div_pow, signBit]
  omega

theorem unpackExponent_eq_zero_iff (b : BitVec Format.binary64.numBits) :
    unpackExponent b = BitVec.ofNat Format.binary64.exponentBits 0
      ↔ b.toNat / hiddenBit % fieldCount = 0 := by
  rw [← BitVec.toNat_inj, toNat_unpackExponent]
  rfl

theorem unpackExponent_eq_ones_iff (b : BitVec Format.binary64.numBits) :
    unpackExponent b = -BitVec.ofNat Format.binary64.exponentBits 1
      ↔ b.toNat / hiddenBit % fieldCount = 2047 := by
  rw [← BitVec.toNat_inj, toNat_unpackExponent]
  rfl

theorem unpackMantissa_eq_zero_iff (b : BitVec Format.binary64.numBits) :
    unpackMantissa b = BitVec.ofNat Format.binary64.mantissaBitsWithoutImplicit 0
      ↔ b.toNat % hiddenBit = 0 := by
  rw [← BitVec.toNat_inj, toNat_unpackMantissa]
  rfl

/-! ### The fields of a magnitude -/

theorem mod_signBit_div (n : Nat) :
    n % signBit / hiddenBit % fieldCount = n / hiddenBit % fieldCount := by
  unfold signBit hiddenBit fieldCount
  omega

theorem mod_signBit_mod (n : Nat) : n % signBit % hiddenBit = n % hiddenBit := by
  unfold signBit hiddenBit
  omega

/-- A magnitude is finite if its exponent field is not that of infinity. -/
theorem mod_signBit_lt_infinityBits_iff (n : Nat) :
    n % signBit < infinityBits ↔ n / hiddenBit % fieldCount ≠ 2047 := by
  unfold signBit hiddenBit fieldCount infinityBits
  omega

/-- A magnitude is above that of infinity if it has the exponent field of infinity and
a fraction. -/
theorem infinityBits_lt_mod_signBit_iff (n : Nat) :
    infinityBits < n % signBit ↔ n / hiddenBit % fieldCount = 2047 ∧ n % hiddenBit ≠ 0 := by
  unfold signBit hiddenBit fieldCount infinityBits
  omega

theorem mod_signBit_eq_infinityBits_iff (n : Nat) :
    n % signBit = infinityBits ↔ n / hiddenBit % fieldCount = 2047 ∧ n % hiddenBit = 0 := by
  unfold signBit hiddenBit fieldCount infinityBits
  omega

/-! ## Doubles -/

/-- A double is its sign bit and its magnitude. -/
theorem ofSignAndBits_magnitudeBits (x : Float) :
    ofSignAndBits (isNegative x) (magnitudeBits x) = x := by
  have hlt : x.toBits.toNat < 2 ^ 64 := x.toBits.toNat_lt
  have hbits : (if isNegative x then magnitudeBits x + signBit else magnitudeBits x)
      = x.toBits.toNat := by
    unfold isNegative magnitudeBits signBit
    split
    · rename_i h
      simp only [decide_eq_true_eq] at h
      omega
    · rename_i h
      simp only [decide_eq_true_eq] at h
      omega
  rw [ofSignAndBits, hbits, UInt64.ofNat_toNat, Float.ofBits_toBits]

theorem nan_toBits : nan.toBits = 0x7FF8000000000000 := by
  decide

/-- Not-a-number has only one form. -/
theorem eq_nan {x : Float} (h : infinityBits < magnitudeBits x) : x = nan := by
  obtain ⟨⟨bits, valid⟩⟩ := x
  obtain ⟨hones, hfraction⟩ := (infinityBits_lt_mod_signBit_iff bits.toBitVec.toNat).mp h
  have hpacked : bits.toBitVec = packedNaN Format.binary64 := by
    refine valid.eq_packedNaN ((unpackExponent_eq_ones_iff _).mpr hones) ?_
    exact fun hzero => hfraction ((unpackMantissa_eq_zero_iff _).mp hzero)
  rw [← Float.toBits_inj, nan_toBits]
  exact UInt64.toBitVec_inj.mp hpacked

theorem isNaNBits_eq_false {b : BitVec Format.binary64.numBits}
    (h : b.toNat % signBit ≤ infinityBits) : isNaNBits b = false := by
  unfold isNaNBits
  rw [decide_eq_false_iff_not]
  rintro ⟨hones, hfraction⟩
  refine Nat.not_lt.mpr h ((infinityBits_lt_mod_signBit_iff _).mpr ⟨?_, ?_⟩)
  · exact (unpackExponent_eq_ones_iff _).mp hones
  · exact fun hzero => hfraction ((unpackMantissa_eq_zero_iff _).mpr hzero)

/-- The part of a pattern that its sign is. -/
def signPart (negative : Bool) : Nat :=
  if negative then signBit else 0

theorem toNat_toBits_ofSignAndBits (negative : Bool) {bits : Nat} (h : bits ≤ infinityBits) :
    (ofSignAndBits negative bits).toBits.toNat = signPart negative + bits := by
  have hword : (UInt64.ofNat (if negative then bits + signBit else bits)).toNat
      = signPart negative + bits := by
    rw [UInt64.toNat_ofNat']
    unfold infinityBits at h
    unfold signPart signBit
    split
    · omega
    · omega
  have hmagnitude : (UInt64.ofNat (if negative then bits + signBit else bits)).toNat % signBit
      ≤ infinityBits := by
    rw [hword]
    unfold infinityBits at *
    unfold signPart signBit
    split
    · omega
    · omega
  have hpack := @pack_unpack Format.binary64
    (UInt64.ofNat (if negative then bits + signBit else bits)).toBitVec (by decide)
  rw [isNaNBits_eq_false hmagnitude, if_neg Bool.false_ne_true] at hpack
  rw [← hword]
  exact congrArg BitVec.toNat hpack

/-- A double is known by its pattern. -/
theorem eq_ofSignAndBits {x : Float} {negative : Bool} {bits : Nat} (h : bits ≤ infinityBits)
    (hx : x.toBits.toNat = signPart negative + bits) : x = ofSignAndBits negative bits := by
  rw [← Float.toBits_inj, ← UInt64.toNat_inj, toNat_toBits_ofSignAndBits negative h, hx]

theorem isNegative_ofSignAndBits (negative : Bool) {bits : Nat} (h : bits ≤ infinityBits) :
    isNegative (ofSignAndBits negative bits) = negative := by
  unfold isNegative
  rw [toNat_toBits_ofSignAndBits negative h]
  unfold infinityBits at h
  unfold signPart signBit
  cases negative
  · simp
    omega
  · simp

theorem magnitudeBits_ofSignAndBits (negative : Bool) {bits : Nat} (h : bits ≤ infinityBits) :
    magnitudeBits (ofSignAndBits negative bits) = bits := by
  unfold magnitudeBits
  rw [toNat_toBits_ofSignAndBits negative h]
  unfold infinityBits at h
  unfold signPart signBit
  split
  · omega
  · omega

/-! ## What a double is taken apart into -/

/-- The sign that the library gives a sign bit. -/
def signOf (negative : Bool) : Sign :=
  if negative then .negative else .positive

/-- What the library takes a double with the given sign bit and magnitude apart
into. -/
def form (negative : Bool) (bits : Nat) : UnpackedFloat :=
  if infinityBits < bits then .notANumber
  else if bits = infinityBits then .infinity (signOf negative)
  else if h : 0 < (Magnitude.ofBits bits).significand then
    .finite (signOf negative) (Magnitude.ofBits bits).significand
      (Magnitude.ofBits bits).exponent h
  else .zero (signOf negative)

theorem form_infinity (negative : Bool) :
    form negative infinityBits = .infinity (signOf negative) := by
  unfold form
  rw [if_neg (Nat.lt_irrefl _), if_pos rfl]

theorem form_nan (negative : Bool) {bits : Nat} (h : infinityBits < bits) :
    form negative bits = .notANumber := by
  unfold form
  rw [if_pos h]

theorem form_finite (negative : Bool) {bits : Nat} (hlt : bits < infinityBits) {m : Magnitude}
    (hm : Magnitude.ofBits bits = m) (hpos : 0 < m.significand) :
    form negative bits = .finite (signOf negative) m.significand m.exponent hpos := by
  subst hm
  unfold form
  rw [if_neg (by omega), if_neg (by omega), dif_pos hpos]

theorem form_zero (negative : Bool) {bits : Nat} (hlt : bits < infinityBits)
    (hzero : (Magnitude.ofBits bits).significand = 0) :
    form negative bits = .zero (signOf negative) := by
  unfold form
  rw [if_neg (by omega), if_neg (by omega), dif_neg (by omega)]

theorem ofBitVec_unpackSign (b : BitVec Format.binary64.numBits) :
    Sign.ofBitVec (unpackSign b) = signOf (signBit ≤ b.toNat) := by
  have hlt : b.toNat < 2 ^ 64 := b.isLt
  have hsign : unpackSign b = 0#1 ↔ b.toNat < signBit := by
    rw [← BitVec.toNat_inj, toNat_unpackSign]
    simp [signBit]
  unfold Sign.ofBitVec signOf
  simp only [hsign, decide_eq_true_eq]
  split <;> split <;> first | rfl | omega

theorem toNat_one_append (v : BitVec 52) : (1#1 ++ v).toNat = v.toNat + hiddenBit := by
  rw [BitVec.toNat_append, ← Nat.shiftLeft_add_eq_or_of_lt v.isLt, Nat.shiftLeft_eq]
  simp [hiddenBit, Nat.add_comm]

/-- The magnitude of a pattern in terms of its fields. -/
theorem ofBits_mod_signBit (b : BitVec Format.binary64.numBits) :
    Magnitude.ofBits (b.toNat % signBit)
      = if b.toNat / hiddenBit % fieldCount = 0 then ⟨(unpackMantissa b).toNat, minExponent⟩
        else ⟨(1#1 ++ unpackMantissa b).toNat,
          ((unpackExponent b).toNat : Int) - ((1023 : Nat) + (52 : Nat))⟩ := by
  have happend : (1#1 ++ unpackMantissa b).toNat = b.toNat % hiddenBit + hiddenBit := by
    rw [← toNat_unpackMantissa]
    exact toNat_one_append _
  unfold Magnitude.ofBits
  simp only [mod_signBit_div, mod_signBit_mod]
  split
  · rw [toNat_unpackMantissa]
  · rw [happend, toNat_unpackExponent]
    congr 1
    unfold minExponent
    omega

/-- Taking a pattern apart gives the form of its magnitude, with its sign. -/
theorem unpack_bits (b : BitVec Format.binary64.numBits) :
    UnpackedFloat.unpack Format.binary64 b = form (signBit ≤ b.toNat) (b.toNat % signBit) := by
  have hmagnitude := ofBits_mod_signBit b
  unfold UnpackedFloat.unpack
  simp only [ofBitVec_unpackSign, unpackExponent_eq_ones_iff b, unpackExponent_eq_zero_iff b,
    unpackMantissa_eq_zero_iff b]
  split
  · rename_i hones
    split
    · rename_i hempty
      rw [(mod_signBit_eq_infinityBits_iff _).mpr ⟨hones, hempty⟩, form_infinity]
    · rename_i hfraction
      rw [form_nan _ ((infinityBits_lt_mod_signBit_iff _).mpr ⟨hones, hfraction⟩)]
  · rename_i hfinite
    have hbelow := (mod_signBit_lt_infinityBits_iff b.toNat).mpr hfinite
    split
    · rename_i hsub
      rw [if_pos hsub] at hmagnitude
      split
      · rename_i hempty
        rw [form_zero _ hbelow]
        rw [hmagnitude]
        exact (toNat_unpackMantissa b).trans hempty
      · rename_i hfraction
        have hpos : 0 < (unpackMantissa b).toNat := by
          rw [toNat_unpackMantissa]
          omega
        rw [form_finite _ hbelow hmagnitude hpos]
        congr 1
        rw [toNat_unpackExponent, hsub]
        rfl
    · rename_i hnormal
      rw [if_neg hnormal] at hmagnitude
      have hpos : 0 < (1#1 ++ unpackMantissa b).toNat := by
        rw [toNat_one_append, hiddenBit]
        omega
      rw [form_finite _ hbelow hmagnitude hpos]
      rfl

theorem unpack_eq_form (x : Float) : x.toModel.unpack = form (isNegative x) (magnitudeBits x) :=
  unpack_bits _

/-- A double that is a number is a zero, a canonical magnitude or an infinity. -/
theorem form_cases (negative : Bool) {bits : Nat} (h : bits ≤ infinityBits) :
    (bits = 0 ∧ form negative bits = .zero (signOf negative))
      ∨ (∃ m : Magnitude, ∃ hpos : 0 < m.significand, m.IsCanonical ∧ m.bits = bits
        ∧ (0 < bits ∧ bits < infinityBits)
        ∧ form negative bits = .finite (signOf negative) m.significand m.exponent hpos)
      ∨ (bits = infinityBits ∧ form negative bits = .infinity (signOf negative)) := by
  rcases Nat.lt_or_eq_of_le h with hlt | rfl
  · have hcanonical := Magnitude.isCanonical_ofBits bits
    have hbits : (Magnitude.ofBits bits).bits = bits :=
      Magnitude.bits_ofBits (hlt.trans (by decide))
    rcases Nat.eq_zero_or_pos bits with rfl | hpos
    · exact .inl ⟨rfl, form_zero negative hlt rfl⟩
    · have hsig := hcanonical.bits_pos_iff.mp (hbits.symm ▸ hpos)
      exact .inr (.inl ⟨.ofBits bits, hsig, hcanonical, hbits, ⟨hpos, hlt⟩,
        form_finite negative hlt rfl hsig⟩)
  · exact .inr (.inr ⟨rfl, form_infinity negative⟩)

/-- A form is packed into its pattern. -/
theorem toNat_pack_form (negative : Bool) {bits : Nat} (h : bits ≤ infinityBits) :
    (pack Format.binary64 (form negative bits)).toNat = signPart negative + bits := by
  have hunpack := unpack_eq_form (ofSignAndBits negative bits)
  rw [isNegative_ofSignAndBits negative h, magnitudeBits_ofSignAndBits negative h] at hunpack
  have hpack : pack Format.binary64 (ofSignAndBits negative bits).toModel.unpack
      = (ofSignAndBits negative bits).toBits.toBitVec :=
    pack_unpack_of_valid (ofSignAndBits negative bits).toModel.valid
  rw [← hunpack, hpack]
  exact toNat_toBits_ofSignAndBits negative h

/-! ## Kinds of doubles -/

theorem isNaN_form (negative : Bool) (bits : Nat) :
    (form negative bits).isNaN = true ↔ infinityBits < bits := by
  fun_cases form negative bits with
  | case1 h => simpa [UnpackedFloat.isNaN] using h
  | case2 h h' => simpa [UnpackedFloat.isNaN] using h'.le
  | case3 h h' => simpa [UnpackedFloat.isNaN] using Nat.le_of_not_lt h
  | case4 h h' => simpa [UnpackedFloat.isNaN] using Nat.le_of_not_lt h

theorem isFinite_form (negative : Bool) (bits : Nat) :
    (form negative bits).isFinite = true ↔ bits < infinityBits := by
  fun_cases form negative bits with
  | case1 h => simpa [UnpackedFloat.isFinite] using h.le
  | case2 h h' => simpa [UnpackedFloat.isFinite] using h'.ge
  | case3 h h' =>
    simp only [UnpackedFloat.isFinite, true_iff]
    omega
  | case4 h h' =>
    simp only [UnpackedFloat.isFinite, true_iff]
    omega

theorem isInf_form (negative : Bool) (bits : Nat) :
    (form negative bits).isInf = true ↔ bits = infinityBits := by
  fun_cases form negative bits with
  | case1 h => simpa [UnpackedFloat.isInf] using h.ne'
  | case2 h h' => simpa [UnpackedFloat.isInf] using h'
  | case3 h h' => simpa [UnpackedFloat.isInf] using h'
  | case4 h h' => simpa [UnpackedFloat.isInf] using h'

theorem isNaN_iff {x : Float} : x.isNaN = true ↔ infinityBits < magnitudeBits x := by
  show x.toModel.unpack.isNaN = true ↔ _
  rw [unpack_eq_form, isNaN_form]

theorem magnitudeBits_le_of_isNaN {x : Float} (h : x.isNaN = false) :
    magnitudeBits x ≤ infinityBits := by
  rw [← Bool.not_eq_true, isNaN_iff] at h
  exact Nat.le_of_not_lt h

theorem isFinite_iff {x : Float} : x.isFinite = true ↔ magnitudeBits x < infinityBits := by
  show x.toModel.unpack.isFinite = true ↔ _
  rw [unpack_eq_form, isFinite_form]

theorem isNaN_of_isFinite {x : Float} (h : x.isFinite = true) : x.isNaN = false := by
  rw [isFinite_iff] at h
  rw [← Bool.not_eq_true, isNaN_iff]
  exact h.le.not_gt

theorem isInf_iff {x : Float} : x.isInf = true ↔ magnitudeBits x = infinityBits := by
  show x.toModel.unpack.isInf = true ↔ _
  rw [unpack_eq_form, isInf_form]

theorem isNaN_iff_eq_nan {x : Float} : x.isNaN = true ↔ x = nan := by
  constructor
  · intro h
    exact eq_nan (isNaN_iff.mp h)
  · rintro rfl
    rfl

/-- A double is finite, infinite or not a number. -/
theorem isFinite_iff_isNaN_isInf {x : Float} :
    x.isFinite = true ↔ x.isNaN = false ∧ x.isInf = false := by
  rw [← Bool.not_eq_true, ← Bool.not_eq_true, isFinite_iff, isNaN_iff, isInf_iff]
  omega

/-! ## Nearest doubles -/

section

variable (negative : Bool) (num den : Nat)

theorem isNegative_nearest : isNegative (nearest negative num den) = negative :=
  isNegative_ofSignAndBits negative (nearestBits_le_infinityBits num den)

theorem magnitudeBits_nearest : magnitudeBits (nearest negative num den) = nearestBits num den :=
  magnitudeBits_ofSignAndBits negative (nearestBits_le_infinityBits num den)

theorem isNaN_nearest : (nearest negative num den).isNaN = false := by
  rw [← Bool.not_eq_true, isNaN_iff, magnitudeBits_nearest]
  exact (nearestBits_le_infinityBits num den).not_gt

end

end FlatLisp.Binary64
