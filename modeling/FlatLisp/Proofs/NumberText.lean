/-
FlatLisp.Proofs.NumberText — the text of a number reads back to the number.

The text of an integer is an integer literal for it, and the text of a double
is a float literal for it that is never an integer literal, so that neither
changes its kind when it is read back (`ofWord_text`). Both can be words: the
text of a number holds no delimiter (`isWord_text`).

## How the proof goes

`FloatSpelling` is a decimal literal of the grammar in its parts, so it is read
as the grammar says (`isDecimalLiteral_text`). The text of a decimal is such a
literal, with the point before, among or after its digits or with an exponent,
and in each of these layouts the literal has the value of the decimal
(`layout_spelling`).
That value is all that the nearest double depends on, and the decimal that
was chosen for a double reads back to it. The sign is written and read apart
from the magnitude, and infinities and not-a-number are spelled out.
-/
import FlatLisp.Expr
import FlatLisp.Decimal.Layout
import FlatLisp.Proofs.DecimalValue
import FlatLisp.Proofs.FloatBits
import FlatLisp.Proofs.Lexing
import FlatLisp.Proofs.Literals

namespace FlatLisp

/-! ## Strings of digits -/

theorem not_delimiter_of_isDigit {c : Char} (h : c.isDigit = true) : isDelimiter c = false := by
  obtain ⟨k, rfl⟩ := exists_digitChar h
  revert k
  decide

theorem isDigit_of_mem_zeros {k : Nat} : ∀ c ∈ List.replicate k '0', c.isDigit = true := by
  intro c hc
  rw [List.eq_of_mem_replicate hc]
  decide

/-- The zeros that were cut off. -/
theorem trimZeros_append (cs : List Char) :
    ∃ k, cs = Decimal.trimZeros cs ++ List.replicate k '0' := by
  refine ⟨(cs.reverse.takeWhile (· == '0')).length, ?_⟩
  have hzeros : cs.reverse.takeWhile (· == '0')
      = List.replicate (cs.reverse.takeWhile (· == '0')).length '0' := by
    rw [List.eq_replicate_iff]
    refine ⟨rfl, ?_⟩
    intro c hc
    have hall := List.all_eq_true.mp List.all_takeWhile c hc
    simpa using hall
  have hsplit := List.takeWhile_append_dropWhile (p := (· == '0')) (l := cs.reverse)
  rw [hzeros] at hsplit
  have hrev := congrArg List.reverse hsplit
  rw [List.reverse_append, List.reverse_replicate, List.reverse_reverse] at hrev
  exact hrev.symm

/-! ## Integers -/

theorem not_delimiter_integerText (z : Int) :
    ∀ c ∈ Decimal.integerText z, isDelimiter c = false := by
  have hdigits : ∀ c ∈ Nat.toDigits 10 z.natAbs, isDelimiter c = false := by
    intro c hc
    exact not_delimiter_of_isDigit (Nat.isDigit_of_mem_toDigits (by decide) (by decide) hc)
  intro c hc
  unfold Decimal.integerText at hc
  split at hc
  · rw [List.mem_cons] at hc
    rcases hc with rfl | hc
    · decide
    · exact hdigits c hc
  · exact hdigits c hc

/-! ## Float literals -/

/-- An unsigned float literal that is no integer literal: digits, then a
point with digits after it, or an exponent, or both. -/
structure FloatSpelling where
  whole : List Char
  fraction : List Char
  exponent : Option Int
  whole_ne_nil : whole ≠ []
  whole_digits : ∀ c ∈ whole, c.isDigit = true
  fraction_digits : ∀ c ∈ fraction, c.isDigit = true
  not_integer : fraction ≠ [] ∨ exponent ≠ none

/-- The sign is only written where it says something. -/
theorem isSign_minus (negative : Bool) : IsSign (if negative then ['-'] else []) negative := by
  cases negative with
  | true => exact .minus
  | false => exact .absent

namespace FloatSpelling

/-- The point with what follows it, if anything does. -/
def pointText (w : FloatSpelling) : List Char :=
  if w.fraction.isEmpty then [] else '.' :: w.fraction

/-- The exponent with its mark. -/
def exponentText (w : FloatSpelling) : List Char :=
  match w.exponent with
  | none => []
  | some e => 'e' :: Decimal.integerText e

def text (w : FloatSpelling) : List Char :=
  w.whole ++ w.pointText ++ w.exponentText

/-- The decimal that the literal stands for after the sign. -/
def decimal (w : FloatSpelling) (negative : Bool) : Decimal :=
  ⟨negative, Nat.ofDigitChars 10 (w.whole ++ w.fraction) 0, w.exponent.getD 0 - w.fraction.length⟩

theorem isExponent_exponentText (w : FloatSpelling) :
    IsExponent w.exponentText (w.exponent.getD 0) := by
  unfold exponentText
  cases w.exponent with
  | none => exact .absent
  | some e => exact .present (.inl rfl) (isIntegerLiteral_integerText e)

theorem isFraction_pointText (w : FloatSpelling) : IsFraction w.pointText w.fraction := by
  unfold pointText
  split
  · rename_i h
    rw [List.isEmpty_iff.mp h]
    exact .absent
  · exact .present w.fraction_digits

/-- The literal is one of the grammar, for its decimal. -/
theorem isDecimalLiteral_text (w : FloatSpelling) (negative : Bool) :
    IsDecimalLiteral w.text (w.decimal negative).coefficient (w.decimal negative).exponent := by
  have hne : w.whole ++ w.fraction ≠ [] := by
    simp [w.whole_ne_nil]
  show IsDecimalLiteral w.text (Nat.ofDigitChars 10 (w.whole ++ w.fraction) 0) _
  rw [text, List.append_assoc, ofDigitChars_eq_placeValue]
  exact .intro w.whole_digits w.isFraction_pointText hne w.isExponent_exponentText

theorem not_isDigits (w : FloatSpelling) : Numeral.isDigits w.text = false := by
  have hbad : ∃ c ∈ w.text, c.isDigit = false := by
    rcases w.not_integer with hf | he
    · refine ⟨'.', ?_, by decide⟩
      have hpoint : w.pointText = '.' :: w.fraction := by
        rw [pointText, if_neg (by simpa using hf)]
      simp [text, hpoint]
    · refine ⟨'e', ?_, by decide⟩
      obtain ⟨e, he⟩ := Option.ne_none_iff_exists'.mp he
      simp [text, exponentText, he]
  obtain ⟨c, hmem, hc⟩ := hbad
  have hall : w.text.all Char.isDigit = false := by
    rw [List.all_eq_false]
    exact ⟨c, hmem, by simp [hc]⟩
  rw [Numeral.isDigits, hall, Bool.and_false]

/-- The literal with a sign is a float literal. -/
theorem float?_text (w : FloatSpelling) (negative : Bool) :
    Numeral.float? ((if negative then ['-'] else []) ++ w.text)
      = some (w.decimal negative).toFloat := by
  rw [Numeral.float?_eq_some_iff, Decimal.toFloat_eq_nearestSigned]
  exact .decimal (isSign_minus negative) (w.isDecimalLiteral_text negative)

theorem integer?_text (w : FloatSpelling) (negative : Bool) :
    Numeral.integer? ((if negative then ['-'] else []) ++ w.text) = none := by
  unfold Numeral.integer?
  rw [Numeral.splitSign_append (isSign_minus negative) (w.isDecimalLiteral_text negative).unsigned]
  simp only [not_isDigits, Bool.false_eq_true, if_false]

theorem not_delimiter_text (w : FloatSpelling) : ∀ c ∈ w.text, isDelimiter c = false := by
  intro c hc
  rw [text, List.mem_append, List.mem_append] at hc
  rcases hc with (hc | hc) | hc
  · exact not_delimiter_of_isDigit (w.whole_digits c hc)
  · unfold pointText at hc
    split at hc
    · cases hc
    · rw [List.mem_cons] at hc
      rcases hc with rfl | hc
      · decide
      · exact not_delimiter_of_isDigit (w.fraction_digits c hc)
  · unfold exponentText at hc
    split at hc
    · cases hc
    · rw [List.mem_cons] at hc
      rcases hc with rfl | hc
      · decide
      · exact not_delimiter_integerText _ c hc

end FloatSpelling

/-! ## The text of a decimal -/

namespace Decimal

theorem coefficient_eq_of_trim {d : Decimal} {k : Nat}
    (h : Nat.toDigits 10 d.coefficient
      = trimZeros (Nat.toDigits 10 d.coefficient) ++ List.replicate k '0') :
    d.coefficient
      = 10 ^ k * Nat.ofDigitChars 10 (trimZeros (Nat.toDigits 10 d.coefficient)) 0 := by
  have hvalue := congrArg (fun cs => Nat.ofDigitChars 10 cs 0) h
  rwa [Nat.ofDigitChars_ten_toDigits, Nat.ofDigitChars_append,
    Nat.ofDigitChars_replicate_zero] at hvalue

/-- The value in terms of the digits that are written and the place of the
point. -/
theorem value_eq_of_trim (d : Decimal) :
    d.value = Nat.ofDigitChars 10 (trimZeros (Nat.toDigits 10 d.coefficient)) 0
      * 10 ^ ((Nat.toDigits 10 d.coefficient).length + d.exponent
        - (trimZeros (Nat.toDigits 10 d.coefficient)).length : Int) := by
  obtain ⟨k, hk⟩ := trimZeros_append (Nat.toDigits 10 d.coefficient)
  have hlength : (Nat.toDigits 10 d.coefficient).length
      = (trimZeros (Nat.toDigits 10 d.coefficient)).length + k := by
    have := congrArg List.length hk
    rwa [List.length_append, List.length_replicate] at this
  have hexp : ((Nat.toDigits 10 d.coefficient).length + d.exponent
      - (trimZeros (Nat.toDigits 10 d.coefficient)).length : Int) = k + d.exponent := by
    omega
  have hcast : (d.coefficient : ℚ)
      = 10 ^ k * Nat.ofDigitChars 10 (trimZeros (Nat.toDigits 10 d.coefficient)) 0 := by
    exact_mod_cast coefficient_eq_of_trim hk
  rw [hexp, value, hcast, zpow_add₀ (by norm_num), zpow_natCast, mul_assoc, mul_left_comm]

/-- Digits on both sides of a point, and no exponent. -/
theorem pointed_spelling {whole fraction : List Char} (hw : ∀ c ∈ whole, c.isDigit = true)
    (hf : ∀ c ∈ fraction, c.isDigit = true) (hwne : whole ≠ []) (hfne : fraction ≠ []) :
    ∃ w : FloatSpelling, w.text = whole ++ '.' :: fraction
      ∧ ∀ negative, (w.decimal negative).value
        = Nat.ofDigitChars 10 (whole ++ fraction) 0 * 10 ^ (-fraction.length : Int) := by
  refine ⟨⟨whole, fraction, none, hwne, hw, hf, .inl hfne⟩, ?_, ?_⟩
  · simp [FloatSpelling.text, FloatSpelling.pointText, FloatSpelling.exponentText, hfne]
  · intro negative
    show (Nat.ofDigitChars 10 (whole ++ fraction) 0 : ℚ) * 10 ^ (0 - fraction.length : Int) = _
    rw [zero_sub]

/-- The point in front of the digits. -/
theorem positional_spelling_before {ds : List Char} (hds : ∀ c ∈ ds, c.isDigit = true)
    (hne : ds ≠ []) {point : Int} (hpoint : point ≤ 0) :
    ∃ w : FloatSpelling, w.text = positional ds point
      ∧ ∀ negative, (w.decimal negative).value
        = Nat.ofDigitChars 10 ds 0 * 10 ^ (point - ds.length) := by
  have hfraction : List.replicate (-point).toNat '0' ++ ds ≠ [] := by
    simp [hne]
  obtain ⟨w, htext, hvalue⟩ := pointed_spelling (isDigit_of_mem_zeros (k := 1))
    (List.forall_mem_append.mpr ⟨isDigit_of_mem_zeros, hds⟩) (by simp) hfraction
  refine ⟨w, ?_, ?_⟩
  · rw [htext, positional, if_pos hpoint]
    rfl
  · intro negative
    have hcoef : Nat.ofDigitChars 10
        (List.replicate 1 '0' ++ (List.replicate (-point).toNat '0' ++ ds)) 0
        = Nat.ofDigitChars 10 ds 0 := by
      rw [← List.append_assoc, List.replicate_append_replicate, Nat.ofDigitChars_append,
        Nat.ofDigitChars_replicate_zero, Nat.mul_zero]
    have hexp : (-(List.replicate (-point).toNat '0' ++ ds).length : Int)
        = point - ds.length := by
      rw [List.length_append, List.length_replicate]
      omega
    rw [hvalue, hcoef, hexp]

/-- The point after some of the digits, but not all. -/
theorem positional_spelling_among {ds : List Char} (hds : ∀ c ∈ ds, c.isDigit = true)
    {point : Nat} (hpos : 0 < point) (hlt : point < ds.length) :
    ∃ w : FloatSpelling, w.text = positional ds point
      ∧ ∀ negative, (w.decimal negative).value
        = Nat.ofDigitChars 10 ds 0 * 10 ^ ((point : Int) - ds.length) := by
  have hwhole : ds.take point ≠ [] := by
    refine List.ne_nil_of_length_pos ?_
    rw [List.length_take]
    omega
  have hfraction : ds.drop point ≠ [] := by
    simpa using hlt
  obtain ⟨w, htext, hvalue⟩ := pointed_spelling
    (fun c hc => hds c (List.mem_of_mem_take hc)) (fun c hc => hds c (List.mem_of_mem_drop hc))
    hwhole hfraction
  refine ⟨w, ?_, ?_⟩
  · have hzeros : point - ds.length = 0 := by omega
    have hpoint : ¬ (point : Int) ≤ 0 := by omega
    rw [htext, positional, if_neg hpoint]
    simp [hfraction, hzeros]
  · intro negative
    have hexp : (-(ds.drop point).length : Int) = point - ds.length := by
      rw [List.length_drop]
      omega
    rw [hvalue, List.take_append_drop, hexp]

/-- The point after all of the digits, with zeros between. -/
theorem positional_spelling_after {ds : List Char} (hds : ∀ c ∈ ds, c.isDigit = true)
    (hne : ds ≠ []) {point : Nat} (hle : ds.length ≤ point) :
    ∃ w : FloatSpelling, w.text = positional ds point
      ∧ ∀ negative, (w.decimal negative).value
        = Nat.ofDigitChars 10 ds 0 * 10 ^ ((point : Int) - ds.length) := by
  have hpos : 0 < ds.length := List.length_pos_iff.mpr hne
  have hwhole : ds ++ List.replicate (point - ds.length) '0' ≠ [] := by
    simp [hne]
  obtain ⟨w, htext, hvalue⟩ := pointed_spelling
    (List.forall_mem_append.mpr ⟨hds, isDigit_of_mem_zeros⟩) (isDigit_of_mem_zeros (k := 1))
    hwhole (by simp)
  refine ⟨w, ?_, ?_⟩
  · have hpoint : ¬ (point : Int) ≤ 0 := by omega
    rw [htext, positional, if_neg hpoint]
    simp [List.take_of_length_le hle, List.drop_of_length_le hle]
  · intro negative
    have hcoef : Nat.ofDigitChars 10
        (ds ++ List.replicate (point - ds.length) '0' ++ List.replicate 1 '0') 0
        = 10 ^ (point - ds.length + 1) * Nat.ofDigitChars 10 ds 0 := by
      rw [List.append_assoc, List.replicate_append_replicate, Nat.ofDigitChars_append,
        Nat.ofDigitChars_replicate_zero]
    have hexp : ((point - ds.length + 1 : Nat) : Int) + (-(List.replicate 1 '0').length : Int)
        = point - ds.length := by
      rw [List.length_replicate]
      omega
    rw [hvalue, hcoef, Nat.cast_mul, Nat.cast_pow, Nat.cast_ofNat, ← zpow_natCast, mul_comm (_ ^ _),
      mul_assoc, ← zpow_add₀ (by norm_num), hexp]

/-- Digits with the point before, among or after them. -/
theorem positional_spelling {ds : List Char} (hds : ∀ c ∈ ds, c.isDigit = true) (hne : ds ≠ [])
    (point : Int) : ∃ w : FloatSpelling, w.text = positional ds point
      ∧ ∀ negative, (w.decimal negative).value
        = Nat.ofDigitChars 10 ds 0 * 10 ^ (point - ds.length) := by
  rcases le_or_gt point 0 with hle | hlt
  · exact positional_spelling_before hds hne hle
  · obtain ⟨n, rfl⟩ := Int.eq_ofNat_of_zero_le hlt.le
    rcases Nat.lt_or_ge n ds.length with hn | hn
    · exact positional_spelling_among hds (by omega) hn
    · exact positional_spelling_after hds hne hn

theorem scientific_spelling {ds : List Char} (hds : ∀ c ∈ ds, c.isDigit = true) (hne : ds ≠ [])
    (point : Int) : ∃ w : FloatSpelling, w.text = scientific ds (point - 1)
      ∧ ∀ negative, (w.decimal negative).value
        = Nat.ofDigitChars 10 ds 0 * 10 ^ (point - ds.length) := by
  have hsplit : ds.take 1 ++ ds.drop 1 = ds := List.take_append_drop 1 ds
  refine ⟨⟨ds.take 1, ds.drop 1, some (point - 1), ?_, ?_, ?_, .inr (by simp)⟩, ?_, ?_⟩
  · simpa using hne
  · intro c hc
    exact hds c (List.mem_of_mem_take hc)
  · intro c hc
    exact hds c (List.mem_of_mem_drop hc)
  · rfl
  · intro negative
    have hpos : 0 < ds.length := List.length_pos_iff.mpr hne
    have hexp : (point - 1 - (ds.drop 1).length : Int) = point - ds.length := by
      rw [List.length_drop]
      omega
    show (Nat.ofDigitChars 10 (ds.take 1 ++ ds.drop 1) 0 : ℚ)
      * 10 ^ (point - 1 - (ds.drop 1).length : Int) = _
    rw [hsplit, hexp]

/-- **The text of a decimal is a float literal for its value**, in either
layout. -/
theorem layout_spelling (layout : Layout) {d : Decimal} (h : d.coefficient ≠ 0) :
    ∃ w : FloatSpelling, w.text = layout.text d
      ∧ ∀ negative, (w.decimal negative).value = d.value := by
  obtain ⟨k, hk⟩ := trimZeros_append (Nat.toDigits 10 d.coefficient)
  have hds : ∀ c ∈ trimZeros (Nat.toDigits 10 d.coefficient), c.isDigit = true := by
    intro c hc
    have hmem : c ∈ Nat.toDigits 10 d.coefficient := by
      rw [hk]
      exact List.mem_append_left _ hc
    exact Nat.isDigit_of_mem_toDigits (by decide) (by decide) hmem
  have hne : trimZeros (Nat.toDigits 10 d.coefficient) ≠ [] := by
    intro hnil
    have hzero := coefficient_eq_of_trim hk
    rw [hnil, Nat.ofDigitChars_nil, Nat.mul_zero] at hzero
    exact h hzero
  rw [value_eq_of_trim]
  unfold Layout.text
  dsimp only
  split
  · exact positional_spelling hds hne _
  · exact scientific_spelling hds hne _

end Decimal

/-! ## The text of a double -/

/-- The text of a finite magnitude is a float literal that is read as that
magnitude. -/
theorem magnitudeText_spelling {bits : Nat} (h : bits < Binary64.infinityBits) :
    ∃ w : FloatSpelling, w.text = magnitudeText bits
      ∧ ∀ negative, (w.decimal negative).magnitudeBits = bits := by
  unfold magnitudeText
  rw [if_neg (Nat.ne_of_lt h)]
  split
  · rename_i hz
    refine ⟨⟨['0'], ['0'], none, by simp, isDigit_of_mem_zeros (k := 1),
      isDigit_of_mem_zeros (k := 1), .inl (by simp)⟩, rfl, ?_⟩
    intro negative
    rw [hz]
    rfl
  · rename_i hz
    obtain ⟨w, htext, hvalue⟩ := Decimal.layout_spelling Decimal.Layout.standard
      (Decimal.coefficient_shortest_ne_zero hz h)
    refine ⟨w, htext, ?_⟩
    intro negative
    rw [Decimal.magnitudeBits_congr (hvalue negative), Decimal.magnitudeBits_shortest h]

/-- A text is a float literal for `x` and can be a word. -/
structure SpellsFloat (s : String) (x : Float) : Prop where
  isWord : IsWord s
  not_integer : Numeral.integer? s.toList = none
  float : Numeral.float? s.toList = some x

theorem not_delimiter_of_all {cs : List Char} (h : cs.all (fun c => !isDelimiter c) = true) :
    ∀ c ∈ cs, isDelimiter c = false := by
  intro c hc
  have hc := List.all_eq_true.mp h c hc
  simpa using hc

theorem spellsFloat_nan : SpellsFloat "nan" Binary64.nan := by
  have hword : IsWord (String.ofList ['n', 'a', 'n']) :=
    isWord_ofList (by decide) (not_delimiter_of_all (by decide))
  exact ⟨hword, by decide, rfl⟩

theorem spellsFloat_infinity (negative : Bool) :
    SpellsFloat (String.ofList ((if negative then ['-'] else []) ++ ['i', 'n', 'f']))
      (Binary64.ofSignAndBits negative Binary64.infinityBits) := by
  cases negative with
  | true => exact ⟨isWord_ofList (by decide) (not_delimiter_of_all (by decide)), by decide, rfl⟩
  | false => exact ⟨isWord_ofList (by decide) (not_delimiter_of_all (by decide)), by decide, rfl⟩

theorem FloatSpelling.spellsFloat (w : FloatSpelling) (negative : Bool) :
    SpellsFloat (String.ofList ((if negative then ['-'] else []) ++ w.text))
      (w.decimal negative).toFloat := by
  obtain ⟨c, cs, htext, -⟩ := (w.isDecimalLiteral_text negative).head
  refine ⟨isWord_ofList ?_ ?_, ?_, ?_⟩
  · rw [htext]
    simp
  · intro d hd
    rcases List.mem_append.mp hd with hd | hd
    · cases negative with
      | true =>
        rw [List.mem_singleton.mp hd]
        decide
      | false => cases hd
    · exact w.not_delimiter_text d hd
  · rw [String.toList_ofList]
    exact w.integer?_text negative
  · rw [String.toList_ofList]
    exact w.float?_text negative

/-- **The text of a double reads back to the same double**, and is never an
integer literal. -/
theorem floatText_spells (x : Float) : SpellsFloat (floatText "nan" x) x := by
  unfold floatText
  dsimp only
  split
  · rename_i h
    rw [Binary64.eq_nan h]
    exact spellsFloat_nan
  · rename_i h
    have hx := Binary64.ofSignAndBits_magnitudeBits x
    rcases Nat.lt_or_eq_of_le (Nat.le_of_not_lt h) with hlt | heq
    · obtain ⟨w, htext, hbits⟩ := magnitudeText_spelling hlt
      have hspells := w.spellsFloat (Binary64.isNegative x)
      rwa [htext, Decimal.toFloat, hbits, FloatSpelling.decimal, hx] at hspells
    · have hspells := spellsFloat_infinity (Binary64.isNegative x)
      rw [← heq, hx] at hspells
      rw [magnitudeText, if_pos heq]
      exact hspells

/-! ## The text of a number -/

theorem isWord_integerText (z : Int) : IsWord (String.ofList (Decimal.integerText z)) := by
  refine isWord_ofList ?_ (not_delimiter_integerText z)
  unfold Decimal.integerText
  split
  · simp
  · exact Nat.toDigits_ne_nil

theorem isWord_text (n : Number) : IsWord n.text := by
  cases n with
  | int n => exact isWord_integerText n.toInt
  | float x => exact (floatText_spells x).isWord

/-- **The word that a number is written as stands for that number**, of the
same kind. -/
theorem ofWord_text (n : Number) : Atom.ofWord n.text = .number n := by
  cases n with
  | int n => exact Atom.ofWord_integerText n
  | float x =>
    have hspells := floatText_spells x
    show Atom.ofWord (floatText "nan" x) = _
    rw [Atom.ofWord, hspells.not_integer, Option.bind_none, hspells.float]

end FlatLisp
