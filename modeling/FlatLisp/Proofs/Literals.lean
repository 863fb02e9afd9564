/-
FlatLisp.Proofs.Literals — which words are numbers, and which numbers.

The literals are a grammar here, and each rule says which number is written:
digits by their places (`placeValue`), an integer literal by its sign, and a float
literal as the double nearest to a decimal fraction. Reading follows the grammar
in both directions (`integer?_eq_some_iff`, `float?_eq_some_iff`), so no text is a
literal for two numbers.

The grammars overlap, as an integer literal is a float literal too. What a word
stands for is settled in order: the integer, if it is a literal for one in the
64-bit range, then the double, and a symbol only if it is no literal at all
(`Atom.ofWord_follows_grammar`).

## How the proof goes

A text is cut in the same places by the grammar and by reading. After the sign
nothing can be taken for another sign, which is `Unsigned`; the digits before the
point end where something other than a digit stands, and what follows them, a
point or the mark of an exponent, is never a digit (`IsFraction.tail_not_digit`);
and no literal made of digits begins like a name, as it begins with a digit or the
point (`IsDecimalLiteral.head`).
-/
import FlatLisp.Expr
import FlatLisp.Proofs.DecimalValue
import Mathlib.Data.Nat.Digits.Defs

namespace FlatLisp

/-! ## Strings of digits -/

/-- There are ten digits. -/
theorem exists_digitChar {c : Char} (h : c.isDigit = true) :
    ∃ k : Fin 10, c = Nat.digitChar k := by
  simp only [Char.isDigit, ge_iff_le, Bool.and_eq_true, decide_eq_true_eq] at h
  have hlow : 48 ≤ c.toNat := h.1
  have hhigh : c.toNat ≤ 57 := h.2
  refine ⟨⟨c.toNat - 48, by omega⟩, Char.toNat_inj.mp ?_⟩
  rw [Nat.toNat_digitChar_of_lt_ten (by omega)]
  exact (Nat.add_sub_of_le hlow).symm

theorem toLower_of_isDigit {c : Char} (h : c.isDigit = true) : c.toLower = c := by
  obtain ⟨k, rfl⟩ := exists_digitChar h
  revert k
  decide

/-- A scan for digits takes them all and stops at the first other character. -/
theorem span_digits {ds rest : List Char} (hds : ∀ c ∈ ds, c.isDigit = true)
    (hrest : ∀ c ∈ rest.head?, c.isDigit = false) :
    (ds ++ rest).span Char.isDigit = (ds, rest) := by
  rw [List.span_eq_takeWhile_dropWhile, List.takeWhile_append_of_pos hds,
    List.dropWhile_append_of_pos hds]
  cases rest with
  | nil => simp
  | cons c cs =>
    have hc : c.isDigit = false := hrest c rfl
    simp [hc]

/-- What a scan for digits takes and what it leaves. -/
theorem span_digits_spec {cs ds rest : List Char} (h : cs.span Char.isDigit = (ds, rest)) :
    cs = ds ++ rest ∧ ∀ c ∈ ds, c.isDigit = true := by
  rw [List.span_eq_takeWhile_dropWhile, Prod.mk.injEq] at h
  obtain ⟨rfl, rfl⟩ := h
  exact ⟨List.takeWhile_append_dropWhile.symm, List.all_eq_true.mp List.all_takeWhile⟩

/-- The number that an ASCII digit stands for. -/
def digitValue (c : Char) : Nat := c.toNat - 48

/-- The number that digits write by their places. -/
def placeValue (cs : List Char) : Nat :=
  Nat.ofDigits 10 (cs.reverse.map digitValue)

theorem ofDigitChars_eq_placeValue (cs : List Char) : Nat.ofDigitChars 10 cs 0 = placeValue cs := by
  induction cs using List.reverseRecOn with
  | nil => rfl
  | append_singleton cs c ih =>
    rw [Nat.ofDigitChars_append, Nat.ofDigitChars_cons, Nat.ofDigitChars_nil, ih, placeValue,
      placeValue, List.reverse_append, List.reverse_singleton, List.singleton_append,
      List.map_cons, Nat.ofDigits_cons, add_comm]
    rfl

/-! ## Signs -/

/-- What can be written for a sign, and whether it makes a number negative. -/
inductive IsSign : List Char → Bool → Prop where
  | absent : IsSign [] false
  | plus : IsSign ['+'] false
  | minus : IsSign ['-'] true

/-- A text that does not begin with a sign. -/
def Unsigned (cs : List Char) : Prop :=
  ∀ c ∈ cs.head?, c ≠ '+' ∧ c ≠ '-'

theorem unsigned_of_isDigit {ds : List Char} (hds : ∀ c ∈ ds, c.isDigit = true) : Unsigned ds := by
  intro c hc
  have hdigit := hds c (List.mem_of_mem_head? hc)
  constructor
  · rintro rfl
    exact absurd hdigit (by decide)
  · rintro rfl
    exact absurd hdigit (by decide)

namespace Numeral

theorem splitSign_of_unsigned {body : List Char} (h : Unsigned body) :
    splitSign body = (false, body) := by
  unfold splitSign
  split
  · exact absurd rfl (h _ rfl).2
  · exact absurd rfl (h _ rfl).1
  · rfl

theorem splitSign_append {sign body : List Char} {negative : Bool} (hsign : IsSign sign negative)
    (hbody : Unsigned body) : splitSign (sign ++ body) = (negative, body) := by
  cases hsign with
  | absent => exact splitSign_of_unsigned hbody
  | plus => rfl
  | minus => rfl

/-- The sign that is split off is one. -/
theorem exists_sign {cs body : List Char} {negative : Bool} (h : splitSign cs = (negative, body)) :
    ∃ sign, IsSign sign negative ∧ cs = sign ++ body := by
  unfold splitSign at h
  split at h
  · cases h
    exact ⟨['-'], .minus, rfl⟩
  · cases h
    exact ⟨['+'], .plus, rfl⟩
  · cases h
    exact ⟨[], .absent, rfl⟩

end Numeral

/-! ## Integer literals -/

/-- An optional sign and one or more digits, with the integer that they write. -/
inductive IsIntegerLiteral : List Char → Int → Prop where
  | intro {sign ds : List Char} {negative : Bool} (hsign : IsSign sign negative) (hne : ds ≠ [])
      (hds : ∀ c ∈ ds, c.isDigit = true) :
      IsIntegerLiteral (sign ++ ds) (if negative then -(placeValue ds : Int) else placeValue ds)

namespace Numeral

theorem isDigits_iff {cs : List Char} :
    isDigits cs = true ↔ cs ≠ [] ∧ ∀ c ∈ cs, c.isDigit = true := by
  simp [isDigits]

theorem signed_ofDigitChars (negative : Bool) (ds : List Char) :
    signed negative (Nat.ofDigitChars 10 ds 0)
      = if negative then -(placeValue ds : Int) else placeValue ds := by
  rw [signed, ofDigitChars_eq_placeValue]

/-- **Reading an integer follows the grammar.** -/
theorem integer?_eq_some_iff {cs : List Char} {n : Int} :
    integer? cs = some n ↔ IsIntegerLiteral cs n := by
  constructor
  · intro h
    unfold integer? at h
    cases hsplit : splitSign cs with
    | mk negative body =>
      rw [hsplit] at h
      dsimp only at h
      split at h
      · rename_i hdigits
        cases h
        obtain ⟨sign, hsign, rfl⟩ := exists_sign hsplit
        obtain ⟨hne, hds⟩ := isDigits_iff.mp hdigits
        rw [signed_ofDigitChars]
        exact .intro hsign hne hds
      · cases h
  · rintro ⟨hsign, hne, hds⟩
    unfold integer?
    rw [splitSign_append hsign (unsigned_of_isDigit hds)]
    dsimp only
    rw [if_pos (isDigits_iff.mpr ⟨hne, hds⟩), signed_ofDigitChars]

end Numeral

/-- A text is a literal for one integer only. -/
theorem IsIntegerLiteral.unique {cs : List Char} {m n : Int} (hm : IsIntegerLiteral cs m)
    (hn : IsIntegerLiteral cs n) : m = n := by
  rw [← Numeral.integer?_eq_some_iff] at hm hn
  exact Option.some.inj (hm.symm.trans hn)

/-- The text of an integer is an integer literal for it. -/
theorem isIntegerLiteral_integerText (z : Int) : IsIntegerLiteral (Decimal.integerText z) z := by
  have hdigits : ∀ c ∈ Nat.toDigits 10 z.natAbs, c.isDigit = true :=
    fun _ => Nat.isDigit_of_mem_toDigits (by decide) (by decide)
  have hvalue : placeValue (Nat.toDigits 10 z.natAbs) = z.natAbs := by
    rw [← ofDigitChars_eq_placeValue, Nat.ofDigitChars_ten_toDigits]
  unfold Decimal.integerText
  split
  · rename_i h
    have hliteral := IsIntegerLiteral.intro .minus Nat.toDigits_ne_nil hdigits
    have hz : (if true then -((placeValue (Nat.toDigits 10 z.natAbs) : Nat) : Int)
        else placeValue (Nat.toDigits 10 z.natAbs)) = z := by
      rw [if_pos rfl, hvalue]
      omega
    rwa [hz] at hliteral
  · rename_i h
    have hliteral := IsIntegerLiteral.intro .absent Nat.toDigits_ne_nil hdigits
    have hz : (if false then -((placeValue (Nat.toDigits 10 z.natAbs) : Nat) : Int)
        else placeValue (Nat.toDigits 10 z.natAbs)) = z := by
      rw [if_neg (by decide), hvalue]
      omega
    rwa [hz] at hliteral

/-! ## Decimal literals -/

/-- Nothing, or a point and the digits after it; the digits are given apart. -/
inductive IsFraction : List Char → List Char → Prop where
  | absent : IsFraction [] []
  | present {ds : List Char} (hds : ∀ c ∈ ds, c.isDigit = true) : IsFraction ('.' :: ds) ds

/-- Nothing, or a mark and an integer literal, with the exponent that it writes. -/
inductive IsExponent : List Char → Int → Prop where
  | absent : IsExponent [] 0
  | present {mark : Char} {cs : List Char} {e : Int} (hmark : mark = 'e' ∨ mark = 'E')
      (he : IsIntegerLiteral cs e) : IsExponent (mark :: cs) e

/-- Digits with at most one point before, among or after them, and at most one
exponent at the end. The literal writes `coefficient · 10 ^ exponent`, where the
places after the point lower the exponent. -/
inductive IsDecimalLiteral : List Char → Nat → Int → Prop where
  | intro {whole point fraction tail : List Char} {e : Int}
      (hwhole : ∀ c ∈ whole, c.isDigit = true) (hpoint : IsFraction point fraction)
      (hne : whole ++ fraction ≠ []) (htail : IsExponent tail e) :
      IsDecimalLiteral (whole ++ (point ++ tail)) (placeValue (whole ++ fraction))
        (e - fraction.length)

theorem IsExponent.head {tail : List Char} {e : Int} (h : IsExponent tail e) :
    ∀ c ∈ tail.head?, c.isDigit = false ∧ c ≠ '.' := by
  intro c hc
  cases h with
  | absent => cases hc
  | present hmark he =>
    cases hc
    rcases hmark with rfl | rfl
    · decide
    · decide

theorem IsFraction.tail_not_digit {point fraction tail : List Char} {e : Int}
    (h : IsFraction point fraction) (htail : IsExponent tail e) :
    ∀ c ∈ (point ++ tail).head?, c.isDigit = false := by
  intro c hc
  cases h with
  | absent => exact (htail.head c hc).1
  | present hds =>
    cases hc
    decide

/-- A decimal literal begins with a digit or the point. -/
theorem IsDecimalLiteral.head {body : List Char} {n : Nat} {e : Int}
    (h : IsDecimalLiteral body n e) : ∃ c cs, body = c :: cs ∧ (c.isDigit = true ∨ c = '.') := by
  cases h with
  | @intro whole point fraction tail e hwhole hpoint hne htail =>
    cases whole with
    | cons c cs => exact ⟨c, cs ++ (point ++ tail), rfl, .inl (hwhole c List.mem_cons_self)⟩
    | nil =>
      cases hpoint with
      | absent => exact absurd rfl hne
      | present hds => exact ⟨'.', fraction ++ tail, rfl, .inr rfl⟩

theorem IsDecimalLiteral.unsigned {body : List Char} {n : Nat} {e : Int}
    (h : IsDecimalLiteral body n e) : Unsigned body := by
  obtain ⟨c, cs, rfl, hc⟩ := h.head
  intro d hd
  cases hd
  rcases hc with hc | rfl
  · have hdigit : ∀ d ∈ [c], d.isDigit = true := by simpa using hc
    exact unsigned_of_isDigit hdigit c rfl
  · decide

/-- No decimal literal begins like a name. -/
theorem IsDecimalLiteral.map_toLower_ne {body : List Char} {n : Nat} {e : Int}
    (h : IsDecimalLiteral body n e) {d : Char} (hdigit : d.isDigit = false) (hpoint : d ≠ '.')
    (ds : List Char) : body.map Char.toLower ≠ d :: ds := by
  obtain ⟨c, cs, rfl, hc⟩ := h.head
  rw [List.map_cons]
  rintro ⟨⟩
  rcases hc with hc | rfl
  · rw [toLower_of_isDigit hc, hc] at hdigit
    cases hdigit
  · exact hpoint rfl

namespace Numeral

theorem exponent?_eq_some_iff {cs : List Char} {e : Int} :
    exponent? cs = some e ↔ IsExponent cs e := by
  constructor
  · intro h
    unfold exponent? at h
    split at h
    · cases h
      exact .absent
    · split at h
      · rename_i hmark
        exact .present hmark (integer?_eq_some_iff.mp h)
      · cases h
  · rintro (_ | ⟨hmark, he⟩)
    · rfl
    · rw [exponent?, if_pos hmark, integer?_eq_some_iff]
      exact he

theorem splitFraction_append {point fraction tail : List Char} {e : Int}
    (hpoint : IsFraction point fraction) (htail : IsExponent tail e) :
    splitFraction (point ++ tail) = (fraction, tail) := by
  cases hpoint with
  | absent =>
    rw [List.nil_append]
    unfold splitFraction
    split
    · exact absurd rfl (htail.head _ rfl).2
    · rfl
  | present hds => exact span_digits hds fun c hc => (htail.head c hc).1

theorem exists_fraction {cs fraction tail : List Char} (h : splitFraction cs = (fraction, tail)) :
    ∃ point, IsFraction point fraction ∧ cs = point ++ tail := by
  unfold splitFraction at h
  split at h
  · obtain ⟨rfl, hds⟩ := span_digits_spec h
    exact ⟨'.' :: fraction, .present hds, rfl⟩
  · cases h
    exact ⟨[], .absent, rfl⟩

/-- **Reading a decimal follows the grammar.** -/
theorem decimal?_eq_some_iff {negative : Bool} {body : List Char} {d : Decimal} :
    decimal? negative body = some d
      ↔ d.negative = negative ∧ IsDecimalLiteral body d.coefficient d.exponent := by
  constructor
  · intro h
    unfold decimal? at h
    cases hwhole : body.span Char.isDigit with
    | mk whole afterWhole =>
      cases hfraction : splitFraction afterWhole with
      | mk fraction afterFraction =>
        simp only [hwhole, hfraction] at h
        split at h
        · cases h
        · rename_i hne
          split at h
          · cases h
          · rename_i e he
            cases h
            obtain ⟨rfl, hdigits⟩ := span_digits_spec hwhole
            obtain ⟨point, hpoint, rfl⟩ := exists_fraction hfraction
            refine ⟨rfl, ?_⟩
            rw [ofDigitChars_eq_placeValue]
            exact .intro hdigits hpoint (by simpa using hne) (exponent?_eq_some_iff.mp he)
  · rintro ⟨rfl, hbody⟩
    obtain ⟨sign, coefficient, exponent⟩ := d
    dsimp only at hbody ⊢
    cases hbody with
    | intro hwhole hpoint hne htail =>
      unfold decimal?
      rw [span_digits hwhole (hpoint.tail_not_digit htail)]
      dsimp only
      rw [splitFraction_append hpoint htail]
      dsimp only
      rw [if_neg (by simpa using hne), exponent?_eq_some_iff.mpr htail]
      dsimp only
      rw [ofDigitChars_eq_placeValue]

end Numeral

/-! ## Float literals -/

/-- The double nearest to a rational number that is not negative, with the given sign;
ties go to the even significand. -/
def Binary64.nearestSigned (negative : Bool) (q : ℚ) : Float :=
  nearest negative q.num.natAbs q.den

/-- An optional sign, and then a name in any case or a decimal literal, with the
double that they write. -/
inductive IsFloatLiteral : List Char → Float → Prop where
  | nan {sign name : List Char} {negative : Bool} (hsign : IsSign sign negative)
      (hname : name.map Char.toLower = ['n', 'a', 'n']) :
      IsFloatLiteral (sign ++ name) Binary64.nan
  | infinity {sign name : List Char} {negative : Bool} (hsign : IsSign sign negative)
      (hname : name.map Char.toLower = ['i', 'n', 'f']
        ∨ name.map Char.toLower = ['i', 'n', 'f', 'i', 'n', 'i', 't', 'y']) :
      IsFloatLiteral (sign ++ name) (Binary64.ofSignAndBits negative Binary64.infinityBits)
  | decimal {sign body : List Char} {negative : Bool} {n : Nat} {e : Int}
      (hsign : IsSign sign negative) (hbody : IsDecimalLiteral body n e) :
      IsFloatLiteral (sign ++ body) (Binary64.nearestSigned negative (n * 10 ^ e))

theorem unsigned_of_map_toLower {name : List Char} {c : Char} {cs : List Char}
    (h : name.map Char.toLower = c :: cs) (hplus : c ≠ '+') (hminus : c ≠ '-') :
    Unsigned name := by
  intro d hd
  have hlower : d.toLower = c := by
    have hhead := congrArg List.head? h
    rw [List.head?_map, hd] at hhead
    exact Option.some.inj hhead
  constructor
  · rintro rfl
    exact hplus hlower.symm
  · rintro rfl
    exact hminus hlower.symm

/-- A decimal is read as the double nearest to its value. -/
theorem Decimal.toFloat_eq_nearestSigned (d : Decimal) :
    d.toFloat = Binary64.nearestSigned d.negative d.value := by
  have hden : (tenPow (-d.exponent).toNat : ℚ) ≠ 0 := by
    exact_mod_cast (tenPow_pos _).ne'
  have hnum : ((d.value.num.natAbs : Nat) : ℚ) = d.value.num := by
    rw [Nat.cast_natAbs, abs_of_nonneg]
    rw [Rat.num_nonneg, value]
    positivity
  have hquotient : ((d.coefficient * tenPow d.exponent.toNat : Nat) : ℚ) * d.value.den
      = d.value.num.natAbs * (tenPow (-d.exponent).toNat : Nat) := by
    rw [hnum, ← div_eq_div_iff hden (by exact_mod_cast d.value.den_ne_zero), Rat.num_div_den,
      quotient_eq_value]
  rw [toFloat, magnitudeBits_eq, Binary64.nearestSigned, Binary64.nearest]
  refine congrArg _ (Binary64.nearestBits_congr (tenPow_pos _) d.value.den_pos ?_)
  exact_mod_cast hquotient

namespace Numeral

/-- **Reading a double follows the grammar.** -/
theorem float?_eq_some_iff {cs : List Char} {x : Float} :
    float? cs = some x ↔ IsFloatLiteral cs x := by
  constructor
  · intro h
    unfold float? at h
    cases hsplit : splitSign cs with
    | mk negative body =>
      obtain ⟨sign, hsign, rfl⟩ := exists_sign hsplit
      simp only [hsplit] at h
      split at h
      · rename_i hname
        cases h
        exact .nan hsign hname
      · split at h
        · rename_i hname
          cases h
          exact .infinity hsign hname
        · obtain ⟨d, hd, rfl⟩ := Option.map_eq_some_iff.mp h
          obtain ⟨rfl, hbody⟩ := decimal?_eq_some_iff.mp hd
          rw [Decimal.toFloat_eq_nearestSigned]
          exact .decimal hsign hbody
  · intro h
    unfold float?
    cases h with
    | nan hsign hname =>
      rw [splitSign_append hsign (unsigned_of_map_toLower hname (by decide) (by decide))]
      dsimp only
      rw [if_pos hname]
    | @infinity sign name negative hsign hname =>
      have hunsigned : Unsigned name := by
        rcases hname with hname | hname
        · exact unsigned_of_map_toLower hname (by decide) (by decide)
        · exact unsigned_of_map_toLower hname (by decide) (by decide)
      have hnan : name.map Char.toLower ≠ ['n', 'a', 'n'] := by
        rcases hname with hname | hname
        · simp [hname]
        · simp [hname]
      rw [splitSign_append hsign hunsigned]
      dsimp only
      rw [if_neg hnan, if_pos hname]
    | @decimal sign body negative n e hsign hbody =>
      rw [splitSign_append hsign hbody.unsigned]
      dsimp only
      have hread : decimal? negative body = some ⟨negative, n, e⟩ :=
        decimal?_eq_some_iff.mpr ⟨rfl, hbody⟩
      have hn := hbody.map_toLower_ne (d := 'n') (by decide) (by decide)
      have hi := hbody.map_toLower_ne (d := 'i') (by decide) (by decide)
      rw [if_neg (hn _), if_neg (not_or.mpr ⟨hi _, hi _⟩), hread, Option.map_some,
        Decimal.toFloat_eq_nearestSigned]
      rfl

end Numeral

/-- An integer literal is a float literal for the nearest double. Zero is left out, as it
keeps its sign there. -/
theorem IsIntegerLiteral.isFloatLiteral {cs : List Char} {n : Int} (h : IsIntegerLiteral cs n)
    (hn : n ≠ 0) : IsFloatLiteral cs (Binary64.ofInt n) := by
  cases h with
  | @intro sign ds negative hsign hne hds =>
    have hbody : IsDecimalLiteral ds (placeValue ds) 0 := by
      have h := IsDecimalLiteral.intro hds .absent (by simpa using hne) .absent
      simpa using h
    have hvalue : Binary64.nearestSigned negative (placeValue ds * 10 ^ (0 : Int))
        = Binary64.ofInt (if negative then -(placeValue ds : Int) else placeValue ds) := by
      rw [zpow_zero, mul_one, Binary64.nearestSigned, Rat.num_natCast, Rat.den_natCast,
        Binary64.ofInt]
      cases negative with
      | true =>
        have hneg : -(placeValue ds : Int) < 0 := by
          simp only [if_true] at hn
          omega
        simp only [if_true, hneg, decide_true, Int.natAbs_neg]
      | false =>
        have hpos : ¬ (placeValue ds : Int) < 0 := by omega
        simp only [Bool.false_eq_true, if_false, hpos, decide_false]
    rw [← hvalue]
    exact .decimal hsign hbody

/-! ## Words -/

/-- An integer literal in the 64-bit range. -/
def IsInt64Literal (cs : List Char) : Prop :=
  ∃ n, IsIntegerLiteral cs n ∧ Number.minInt ≤ n ∧ n ≤ Number.maxInt

theorem isInt64Literal_iff {cs : List Char} :
    IsInt64Literal cs ↔ ∃ m : Int64, IsIntegerLiteral cs m.toInt := by
  constructor
  · rintro ⟨n, hn, hmin, hmax⟩
    refine ⟨Int64.ofInt n, ?_⟩
    rwa [Int64.toInt_ofInt_of_le hmin (Int.lt_add_one_of_le hmax)]
  · rintro ⟨m, hm⟩
    exact ⟨m.toInt, hm, m.le_toInt, m.toInt_le⟩

namespace Atom

theorem ofWord_of_int {word : String} {m : Int64} (h : IsIntegerLiteral word.toList m.toInt) :
    ofWord word = .number (.int m) := by
  have hread : (Numeral.integer? word.toList).bind Number.ofInt? = some (.int m) := by
    rw [Numeral.integer?_eq_some_iff.mpr h, Option.bind_some,
      Number.ofInt?_eq_some ⟨m.le_toInt, m.toInt_le⟩, Int64.ofInt_toInt]
  rw [ofWord, hread]

/-- What is no integer literal in the range is not read as an integer. -/
theorem bind_ofInt?_eq_none {cs : List Char} (h : ¬ IsInt64Literal cs) :
    (Numeral.integer? cs).bind Number.ofInt? = none := by
  rw [Option.bind_eq_none_iff]
  intro n hn
  rw [Number.ofInt?_eq_none_iff]
  by_contra hrange
  exact h ⟨n, Numeral.integer?_eq_some_iff.mp hn, by omega, by omega⟩

theorem ofWord_of_float {word : String} {x : Float} (h : ¬ IsInt64Literal word.toList)
    (hx : IsFloatLiteral word.toList x) : ofWord word = .number (.float x) := by
  rw [ofWord, bind_ofInt?_eq_none h, Numeral.float?_eq_some_iff.mpr hx]

theorem ofWord_of_symbol {word : String} (h : ¬ IsInt64Literal word.toList)
    (hx : ∀ x, ¬ IsFloatLiteral word.toList x) : ofWord word = .symbol word := by
  have hread : Numeral.float? word.toList = none := by
    rw [Option.eq_none_iff_forall_ne_some]
    intro x h
    exact hx x (Numeral.float?_eq_some_iff.mp h)
  rw [ofWord, bind_ofInt?_eq_none h, hread]

/-- A word is read in one of three ways. -/
theorem ofWord_cases (word : String) :
    (∃ m : Int64, IsIntegerLiteral word.toList m.toInt ∧ ofWord word = .number (.int m))
    ∨ (∃ x, ¬ IsInt64Literal word.toList ∧ IsFloatLiteral word.toList x
        ∧ ofWord word = .number (.float x))
    ∨ (¬ IsInt64Literal word.toList ∧ (∀ x, ¬ IsFloatLiteral word.toList x)
        ∧ ofWord word = .symbol word) := by
  by_cases hint : IsInt64Literal word.toList
  · obtain ⟨m, hm⟩ := isInt64Literal_iff.mp hint
    exact .inl ⟨m, hm, ofWord_of_int hm⟩
  · by_cases hfloat : ∃ x, IsFloatLiteral word.toList x
    · obtain ⟨x, hx⟩ := hfloat
      exact .inr (.inl ⟨x, hint, hx, ofWord_of_float hint hx⟩)
    · have hnone := not_exists.mp hfloat
      exact .inr (.inr ⟨hint, hnone, ofWord_of_symbol hint hnone⟩)

theorem ofWord_eq_int_iff {word : String} {m : Int64} :
    ofWord word = .number (.int m) ↔ IsIntegerLiteral word.toList m.toInt := by
  refine ⟨fun h => ?_, ofWord_of_int⟩
  rcases ofWord_cases word with ⟨k, hk, hread⟩ | ⟨x, -, -, hread⟩ | ⟨-, -, hread⟩
  · rw [hread] at h
    cases h
    exact hk
  · rw [hread] at h
    cases h
  · rw [hread] at h
    cases h

theorem ofWord_eq_float_iff {word : String} {x : Float} :
    ofWord word = .number (.float x)
      ↔ ¬ IsInt64Literal word.toList ∧ IsFloatLiteral word.toList x := by
  refine ⟨fun h => ?_, fun ⟨hint, hx⟩ => ofWord_of_float hint hx⟩
  rcases ofWord_cases word with ⟨k, -, hread⟩ | ⟨y, hint, hy, hread⟩ | ⟨-, -, hread⟩
  · rw [hread] at h
    cases h
  · rw [hread] at h
    cases h
    exact ⟨hint, hy⟩
  · rw [hread] at h
    cases h

theorem ofWord_eq_symbol_iff {word name : String} :
    ofWord word = .symbol name
      ↔ name = word ∧ ¬ IsInt64Literal word.toList ∧ ¬ ∃ x, IsFloatLiteral word.toList x := by
  constructor
  · intro h
    rcases ofWord_cases word with ⟨k, -, hread⟩ | ⟨x, -, -, hread⟩ | ⟨hint, hnone, hread⟩
    · rw [hread] at h
      cases h
    · rw [hread] at h
      cases h
    · rw [hread] at h
      cases h
      exact ⟨rfl, hint, not_exists.mpr hnone⟩
  · rintro ⟨rfl, hint, hnone⟩
    exact ofWord_of_symbol hint (not_exists.mp hnone)

/-- An integer literal out of the range is the double nearest to it. -/
theorem ofWord_of_out_of_range {word : String} {n : Int} (h : IsIntegerLiteral word.toList n)
    (hrange : n < Number.minInt ∨ Number.maxInt < n) :
    ofWord word = .number (.float (Binary64.ofInt n)) := by
  have hint : ¬ IsInt64Literal word.toList := by
    rintro ⟨k, hk, hmin, hmax⟩
    rw [hk.unique h] at hmin hmax
    omega
  have hne : n ≠ 0 := by
    rintro rfl
    exact absurd hrange (by decide)
  exact ofWord_of_float hint (h.isFloatLiteral hne)

/-- The text of an integer reads back to it. -/
theorem ofWord_integerText (m : Int64) : ofWord (Number.int m).text = .number (.int m) := by
  refine ofWord_of_int ?_
  show IsIntegerLiteral (String.ofList (Decimal.integerText m.toInt)).toList m.toInt
  rw [String.toList_ofList]
  exact isIntegerLiteral_integerText m.toInt

/-- **Words are sorted by the grammar, integers first.** A word is an integer if and
only if it is an integer literal in the 64-bit range, a double if and only if it is a
float literal but not that, and otherwise the symbol of just its text. So an integer
literal out of range is the nearest double and no symbol, and the text of an integer is
read as that integer. -/
theorem ofWord_follows_grammar (word : String) :
    (∀ m : Int64, ofWord word = .number (.int m) ↔ IsIntegerLiteral word.toList m.toInt)
    ∧ ((∃ m : Int64, ofWord word = .number (.int m)) ↔ IsInt64Literal word.toList)
    ∧ (∀ x, ofWord word = .number (.float x)
        ↔ ¬ IsInt64Literal word.toList ∧ IsFloatLiteral word.toList x)
    ∧ (∀ n, IsIntegerLiteral word.toList n → n < Number.minInt ∨ Number.maxInt < n →
        ofWord word = .number (.float (Binary64.ofInt n)))
    ∧ (∀ name, ofWord word = .symbol name
        ↔ name = word ∧ ¬ IsInt64Literal word.toList ∧ ¬ ∃ x, IsFloatLiteral word.toList x)
    ∧ (∀ m : Int64, ofWord (Number.int m).text = .number (.int m)) := by
  refine ⟨fun m => ofWord_eq_int_iff, ?_, fun x => ofWord_eq_float_iff, fun n h hrange =>
    ofWord_of_out_of_range h hrange, fun name => ofWord_eq_symbol_iff, ofWord_integerText⟩
  rw [isInt64Literal_iff]
  exact exists_congr fun m => ofWord_eq_int_iff

/-- The least integer is one and the literal below it is not, with any number of zeros in
front. -/
theorem ofWord_follows_grammar_below_least :
    ofWord "-009223372036854775808" = .number (.int Int64.minValue)
    ∧ ofWord "-009223372036854775809" = .number (.float (Binary64.ofInt (-9223372036854775809))) := by
  have hleast : IsIntegerLiteral "-009223372036854775808".toList Int64.minValue.toInt :=
    Numeral.integer?_eq_some_iff.mp (by decide +kernel)
  have hbelow : IsIntegerLiteral "-009223372036854775809".toList (-9223372036854775809) :=
    Numeral.integer?_eq_some_iff.mp (by decide +kernel)
  exact ⟨((ofWord_follows_grammar _).1 _).mpr hleast,
    (ofWord_follows_grammar _).2.2.2.1 _ hbelow (.inl (by decide))⟩

end Atom

end FlatLisp
