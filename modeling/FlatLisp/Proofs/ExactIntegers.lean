/-
FlatLisp.Proofs.ExactIntegers — how far integer results are the exact ones.

An integer result is meant to be exact or an overflow (`exactAnswer`). Powers and
common multiples are computed in steps with limits of their own, and a limit can
be passed although the result would fit. The theorems here say where that
happens. A power has no exponent above `maxExponent`, which is too early for the
bases of size zero and one and for no other (`expt_exact_iff`). A common multiple
is given up as soon as it is out of the range of `maxMultiple`, which is too early
if a zero is still to come (`lcm_exact_iff`); that is also where the order of the
arguments counts.
-/
import FlatLisp.Proofs.MachineSteps
import Mathlib

namespace FlatLisp.Operation

variable {H : Type}

/-- The answer of an operation whose result is the integer `n`: overflow if it is
not in the 64-bit range. -/
def exactAnswer (operation : String) (n : Int) : Except Error (Value H) :=
  if Number.minInt ≤ n ∧ n ≤ Number.maxInt then .ok (.int (Int64.ofInt n))
  else .error (.fault (.overflow operation))

theorem exactAnswer_of_mem {operation : String} {n : Int}
    (h : Number.minInt ≤ n ∧ n ≤ Number.maxInt) :
    exactAnswer operation n = (.ok (.int (Int64.ofInt n)) : Except Error (Value H)) :=
  if_pos h

theorem exactAnswer_of_not_mem {operation : String} {n : Int}
    (h : ¬ (Number.minInt ≤ n ∧ n ≤ Number.maxInt)) :
    exactAnswer operation n = (.error (.fault (.overflow operation)) : Except Error (Value H)) :=
  if_neg h

/-- An exact number as a value is the exact answer. -/
theorem exact_bind_number (operation : String) (n : Int) :
    (do return Value.number (← Number.exact operation n) : Except Error (Value H))
      = exactAnswer operation n := by
  by_cases h : Number.minInt ≤ n ∧ n ≤ Number.maxInt
  · rw [Number.exact_eq_ok h, exactAnswer_of_mem h]
    rfl
  · rw [Number.exact_eq_error_iff.mpr (by omega), exactAnswer_of_not_mem h]
    rfl

theorem exactAnswer_of_maxInt_lt {operation : String} {n : Int} (h : Number.maxInt < n) :
    exactAnswer operation n = (.error (.fault (.overflow operation)) : Except Error (Value H)) :=
  exactAnswer_of_not_mem fun hmem => Int.not_lt.mpr hmem.2 h

theorem exactAnswer_eq_error_iff {operation : String} {n : Int} :
    exactAnswer operation n = (.error (.fault (.overflow operation)) : Except Error (Value H)) ↔
      n < Number.minInt ∨ Number.maxInt < n := by
  by_cases h : Number.minInt ≤ n ∧ n ≤ Number.maxInt
  · rw [exactAnswer_of_mem h]
    simp only [reduceCtorEq, false_iff]
    omega
  · rw [exactAnswer_of_not_mem h]
    simp only [true_iff]
    omega

/-- A count as a value is the exact answer. -/
theorem countValue_eq (name : String) (n : Nat) :
    countValue name n = (exactAnswer name n : Except Error (Value H)) :=
  exact_bind_number name n

/-! ## Powers -/

/-- From exponent 64 on, powers of a base of size two or more are out of range. -/
theorem pow_not_mem {base : Int} (hbase : 2 ≤ base.natAbs) {exponent : Nat}
    (hexponent : 64 ≤ exponent) :
    ¬ (Number.minInt ≤ base ^ exponent ∧ base ^ exponent ≤ Number.maxInt) := by
  have hsize : 2 ^ 64 ≤ (base ^ exponent).natAbs := by
    rw [Int.natAbs_pow]
    calc 2 ^ 64 ≤ base.natAbs ^ 64 := Nat.pow_le_pow_left hbase 64
      _ ≤ base.natAbs ^ exponent := Nat.pow_le_pow_right (by omega) hexponent
  unfold Number.minInt Number.maxInt
  omega

/-- Powers of the other bases depend on the parity of the exponent alone. -/
theorem pow_of_natAbs_lt_two {base : Int} (hbase : base.natAbs < 2) {exponent : Nat}
    (hexponent : 64 < exponent) : base ^ (64 + exponent % 2) = base ^ exponent := by
  have hcases : base = 0 ∨ base = 1 ∨ base = -1 := by omega
  rcases hcases with rfl | rfl | rfl
  · rw [zero_pow (by omega), zero_pow (by omega)]
  · rw [one_pow, one_pow]
  · rw [pow_add, ← neg_one_pow_eq_pow_mod_two, Even.neg_one_pow (by decide), one_mul]

theorem pow_mem_of_natAbs_lt_two {base : Int} (hbase : base.natAbs < 2) (exponent : Nat) :
    Number.minInt ≤ base ^ exponent ∧ base ^ exponent ≤ Number.maxInt := by
  have hsize : (base ^ exponent).natAbs ≤ 1 := by
    rw [Int.natAbs_pow]
    exact pow_le_one₀ (Nat.zero_le _) (by omega)
  unfold Number.minInt Number.maxInt
  omega

/-- The power that is computed gives the same answer as the power itself. -/
theorem exactAnswer_integerPower (base : Int) (exponent : Nat) :
    exactAnswer "exponentiation" (integerPower base exponent)
      = (exactAnswer "exponentiation" (base ^ exponent) : Except Error (Value H)) := by
  have hpower : integerPower base exponent
      = base ^ (if exponent ≤ 64 then exponent else 64 + exponent % 2) := rfl
  rw [hpower]
  split
  case isTrue => rfl
  case isFalse hlarge =>
    by_cases hbase : base.natAbs < 2
    · rw [pow_of_natAbs_lt_two hbase (by omega)]
    · rw [exactAnswer_of_not_mem (pow_not_mem (by omega) (by omega)),
        exactAnswer_of_not_mem (pow_not_mem (by omega) (by omega))]

/-- The power of integers with an exponent that is not negative. -/
theorem evalExptBy_int (power : Float → Float → Float) (base : Int64) {exponent : Int64}
    (h : 0 ≤ exponent.toInt) :
    evalExptBy power [.int base, .int exponent] =
      if maxExponent < exponent.toInt then .error (.fault (.overflow "exponentiation"))
      else (exactAnswer "exponentiation" (base.toInt ^ exponent.toInt.toNat) :
        Except Error (Value H)) := by
  have hless : (Number.int exponent).less (.int 0) = false := by
    simp only [Number.less, decide_eq_false_iff_not, Int64.lt_iff_toInt_lt]
    exact Int.not_lt.mpr h
  have heval : evalExptBy power [.int base, .int exponent]
      = (integerExpt base exponent : Except Error (Value H)) := by
    show (if (Number.int base).isZero && (Number.int exponent).less (.int 0) then _ else _) = _
    rw [hless, Bool.and_false, if_neg (by decide)]
    exact if_pos h
  rw [heval, integerExpt]
  split
  case isTrue => rfl
  case isFalse => rw [exact_bind_number, exactAnswer_integerPower]

/-- **Where integer powers are exact.** The power of two integers, the second of
them not negative, is the exact one if that is in the 64-bit range and an overflow
if it is not, unless the exponent is above `maxExponent` and the base is zero, one
or minus one. Every exponent above `maxExponent` is an overflow, so these bases
overflow there although their powers are never out of range. -/
theorem expt_exact_iff (base exponent : Int64) (h : 0 ≤ exponent.toInt) :
    (expt.eval [.int base, .int exponent]
        = (exactAnswer "exponentiation" (base.toInt ^ exponent.toInt.toNat) :
          Except Error (Value H)) ↔
      ¬ (maxExponent < exponent.toInt ∧ base.toInt.natAbs < 2)) ∧
    (maxExponent < exponent.toInt →
      expt.eval [.int base, .int exponent]
        = (.error (.fault (.overflow "exponentiation")) : Except Error (Value H))) := by
  have heval : expt.eval [.int base, .int exponent]
      = (evalExptBy Float.pow [.int base, .int exponent] : Except Error (Value H)) := rfl
  rw [heval, evalExptBy_int Float.pow base h]
  by_cases hexponent : maxExponent < exponent.toInt
  · rw [if_pos hexponent]
    refine ⟨?_, fun _ => rfl⟩
    by_cases hbase : base.toInt.natAbs < 2
    · rw [exactAnswer_of_mem (pow_mem_of_natAbs_lt_two hbase _)]
      simp [hexponent, hbase]
    · have hlarge : 64 ≤ exponent.toInt.toNat := by
        unfold maxExponent at hexponent
        omega
      rw [exactAnswer_of_not_mem (pow_not_mem (by omega) hlarge)]
      simp [hbase]
  · rw [if_neg hexponent]
    simp [hexponent]

/-- The power that is the least integer of the range is accepted. -/
theorem expt_reaches_minInt :
    0 ≤ (63 : Int64).toInt ∧
      expt.eval [.int (-2), .int 63] = (.ok (.int Int64.minValue) : Except Error (Value Empty)) :=
  ⟨by decide, ((expt_exact_iff (-2) 63 (by decide)).1.mpr (by decide)).trans rfl⟩

/-- A power of one that overflows, although it is one. -/
theorem expt_one_overflows :
    expt.eval [.int 1, .int 4294967296]
        = (.error (.fault (.overflow "exponentiation")) : Except Error (Value Empty)) ∧
      exactAnswer "exponentiation" ((1 : Int64).toInt ^ (4294967296 : Int64).toInt.toNat)
        = (.ok (.int 1) : Except Error (Value Empty)) := by
  refine ⟨rfl, ?_⟩
  have hone : (1 : Int64).toInt = 1 := by decide
  rw [hone, one_pow]
  rfl

/-! ## Common multiples -/

/-- The least common multiple of the sizes of integers: one of no integers, zero if
one of them is zero. -/
def leastMultiple (ns : List Int64) : Nat :=
  Multiset.lcm (ns.map fun n => n.toInt.natAbs)

@[simp] theorem leastMultiple_nil : leastMultiple [] = 1 := rfl

@[simp] theorem leastMultiple_cons (n : Int64) (ns : List Int64) :
    leastMultiple (n :: ns) = Nat.lcm n.toInt.natAbs (leastMultiple ns) := by
  rw [leastMultiple, List.map_cons, ← Multiset.cons_coe, Multiset.lcm_cons]
  rfl

theorem natAbs_toInt_eq_zero_iff {n : Int64} : n.toInt.natAbs = 0 ↔ n = 0 := by
  rw [Int.natAbs_eq_zero, ← Int64.toInt_zero, Int64.toInt_inj]

theorem natAbs_toInt_le (n : Int64) : n.toInt.natAbs ≤ 2 ^ 63 := by
  have hlt := n.toInt_lt
  have hle := n.le_toInt
  omega

theorem leastMultiple_eq_zero_iff {ns : List Int64} : leastMultiple ns = 0 ↔ 0 ∈ ns := by
  simp only [leastMultiple, Multiset.lcm_eq_zero_iff, Multiset.mem_coe, List.mem_map,
    natAbs_toInt_eq_zero_iff, exists_eq_right]

theorem leastMultiple_perm {ms ns : List Int64} (h : ms.Perm ns) :
    leastMultiple ms = leastMultiple ns := by
  have hmaps : (ms.map fun n => n.toInt.natAbs).Perm (ns.map fun n => n.toInt.natAbs) := h.map _
  rw [leastMultiple, leastMultiple, Multiset.coe_eq_coe.mpr hmaps]

theorem leastMultiple_dvd_of_subset {ms ns : List Int64} (h : ms ⊆ ns) :
    leastMultiple ms ∣ leastMultiple ns := by
  refine Multiset.lcm_dvd.mpr fun size hsize => Multiset.dvd_lcm ?_
  rw [Multiset.mem_coe] at hsize ⊢
  exact List.map_subset _ h hsize

/-- The integers in front of the first zero. -/
def beforeZero (ns : List Int64) : List Int64 :=
  ns.takeWhile (· ≠ 0)

theorem zero_not_mem_beforeZero (ns : List Int64) : 0 ∉ beforeZero ns := by
  intro h
  simpa using List.mem_takeWhile_imp h

theorem beforeZero_of_not_mem {ns : List Int64} (h : 0 ∉ ns) : beforeZero ns = ns := by
  refine List.takeWhile_eq_self_iff.mpr fun n hn => ?_
  simp only [ne_eq, decide_not, Bool.not_eq_true', decide_eq_false_iff_not]
  rintro rfl
  exact h hn

theorem commonMultiple_int (multiple : Nat) (n : Int64) :
    commonMultiple multiple (.int n : Value H) = multipleOf multiple n.toInt.natAbs := rfl

/-- A zero stays a zero. -/
theorem foldlM_commonMultiple_zero (ns : List Int64) :
    (ns.map (Value.int (H := H))).foldlM commonMultiple 0 = .ok 0 := by
  induction ns with
  | nil => rfl
  | cons n ns ih =>
    have hstep : multipleOf 0 n.toInt.natAbs = .ok 0 := if_pos (.inl rfl)
    rw [List.map_cons, List.foldlM_cons, commonMultiple_int, hstep, ok_bind, ih]

/-- What is carried along is the least common multiple of what it started from and
the integers so far. Up to the first zero it only grows, so if it gets too large
there it is too large at the end of that part. -/
theorem foldlM_commonMultiple (ns : List Int64) {multiple : Nat} (hpos : 0 < multiple)
    (hmax : multiple ≤ maxMultiple) :
    (ns.map (Value.int (H := H))).foldlM commonMultiple multiple =
      if maxMultiple < Nat.lcm multiple (leastMultiple (beforeZero ns)) then
        .error (.fault (.overflow "lcm"))
      else .ok (Nat.lcm multiple (leastMultiple ns)) := by
  induction ns generalizing multiple with
  | nil =>
    have hlcm : Nat.lcm multiple (leastMultiple []) = multiple := Nat.lcm_one_right multiple
    have hbefore : beforeZero [] = [] := rfl
    rw [hbefore, hlcm, if_neg (Nat.not_lt.mpr hmax)]
    rfl
  | cons n ns ih =>
    rw [List.map_cons, List.foldlM_cons, commonMultiple_int, multipleOf_eq]
    by_cases hn : n = 0
    · -- the first zero: what is carried so far is in range, and from here on it is zero
      subst hn
      have hbefore : beforeZero (0 :: ns) = [] := rfl
      have hsize : (0 : Int64).toInt.natAbs = 0 := rfl
      rw [hbefore, leastMultiple_nil, leastMultiple_cons, hsize, Nat.lcm_zero_right,
        Nat.lcm_zero_left, Nat.lcm_zero_right, Nat.lcm_one_right, if_neg (Nat.not_lt_zero _),
        if_neg (Nat.not_lt.mpr hmax), ok_bind, foldlM_commonMultiple_zero]
    · have hsize : 0 < n.toInt.natAbs :=
        Nat.pos_of_ne_zero fun h => hn (natAbs_toInt_eq_zero_iff.mp h)
      have hbefore : beforeZero (n :: ns) = n :: beforeZero ns :=
        List.takeWhile_cons_of_pos (by simpa using hn)
      have hrest : 0 < leastMultiple (beforeZero ns) :=
        Nat.pos_of_ne_zero fun h => zero_not_mem_beforeZero ns (leastMultiple_eq_zero_iff.mp h)
      rw [hbefore, leastMultiple_cons, leastMultiple_cons, ← Nat.lcm_assoc, ← Nat.lcm_assoc]
      split
      case isTrue hlarge =>
        have hgrows : Nat.lcm multiple n.toInt.natAbs
            ≤ Nat.lcm (Nat.lcm multiple n.toInt.natAbs) (leastMultiple (beforeZero ns)) :=
          Nat.le_of_dvd (Nat.lcm_pos (Nat.lcm_pos hpos hsize) hrest) (Nat.dvd_lcm_left _ _)
        rw [if_pos (Nat.lt_of_lt_of_le hlarge hgrows)]
        rfl
      case isFalse hsmall =>
        rw [ok_bind, ih (Nat.lcm_pos hpos hsize) (Nat.not_lt.mp hsmall)]

theorem evalLcm_int (ns : List Int64) :
    evalLcm (ns.map .int) =
      if maxMultiple < leastMultiple (beforeZero ns) then .error (.fault (.overflow "lcm"))
      else (exactAnswer "lcm" (leastMultiple ns) : Except Error (Value H)) := by
  rw [evalLcm, foldlM_commonMultiple ns Nat.one_pos (by decide), Nat.lcm_one_left,
    Nat.lcm_one_left]
  split
  case isTrue => rfl
  case isFalse => exact exact_bind_number "lcm" _

theorem exactAnswer_zero (operation : String) :
    exactAnswer operation 0 = (.ok (.int 0) : Except Error (Value H)) := rfl

theorem exactAnswer_of_maxMultiple_lt {n : Nat} (h : maxMultiple < n) :
    exactAnswer "lcm" n = (.error (.fault (.overflow "lcm")) : Except Error (Value H)) := by
  refine exactAnswer_of_maxInt_lt ?_
  unfold maxMultiple at h
  unfold Number.maxInt
  omega

theorem evalLcm_exact_iff (ns : List Int64) :
    evalLcm (ns.map .int) = (exactAnswer "lcm" (leastMultiple ns) : Except Error (Value H)) ↔
      ¬ (0 ∈ ns ∧ maxMultiple < leastMultiple (beforeZero ns)) := by
  rw [evalLcm_int]
  by_cases hzero : 0 ∈ ns
  · have hlcm : leastMultiple ns = 0 := leastMultiple_eq_zero_iff.mpr hzero
    rw [hlcm, Nat.cast_zero, exactAnswer_zero]
    by_cases hlarge : maxMultiple < leastMultiple (beforeZero ns) <;> simp [hzero, hlarge]
  · rw [beforeZero_of_not_mem hzero]
    by_cases hlarge : maxMultiple < leastMultiple ns
    · simp [hzero, hlarge, exactAnswer_of_maxMultiple_lt hlarge]
    · simp [hzero, hlarge]

/-- The integers that are not zero. -/
def nonzeros (ns : List Int64) : List Int64 :=
  ns.filter (· ≠ 0)

theorem zero_not_mem_nonzeros (ns : List Int64) : 0 ∉ nonzeros ns := by
  simp [nonzeros]

theorem beforeZero_subset_nonzeros (ns : List Int64) : beforeZero ns ⊆ nonzeros ns := by
  intro n hn
  have hne : n ≠ 0 := fun h => zero_not_mem_beforeZero ns (h ▸ hn)
  exact List.mem_filter.mpr ⟨(List.takeWhile_sublist _).subset hn, by simpa using hne⟩

theorem nonzeros_perm {ms ns : List Int64} (h : ms.Perm ns) : (nonzeros ms).Perm (nonzeros ns) :=
  h.filter _

/-- Integers can be put in an order in which the zeros come last. -/
theorem exists_perm_nonzeros_subset (ns : List Int64) :
    ∃ ms : List Int64, ms.Perm ns ∧ nonzeros ns ⊆ beforeZero ms := by
  refine ⟨_, List.filter_append_perm (fun n => decide (n ≠ 0)) ns, ?_⟩
  have hall : ∀ n ∈ ns.filter (fun n => decide (n ≠ 0)), decide (n ≠ 0) = true :=
    fun n hn => (List.mem_filter.mp hn).2
  rw [beforeZero, List.takeWhile_append_of_pos hall]
  exact List.subset_append_left _ _

theorem evalLcm_zero_cons (ns : List Int64) :
    evalLcm ((0 :: ns).map .int) = (.ok (.int 0) : Except Error (Value H)) := by
  have hbefore : beforeZero (0 :: ns) = [] := rfl
  have hlcm : leastMultiple (0 :: ns) = 0 := leastMultiple_eq_zero_iff.mpr List.mem_cons_self
  rw [evalLcm_int, hbefore, hlcm, leastMultiple_nil, if_neg (by decide), Nat.cast_zero,
    exactAnswer_zero]

/-- If no part of the arguments without a zero has a multiple that is too large, the
answer is exact in every order. -/
theorem evalLcm_of_perm {ms ns : List Int64} (hperm : ms.Perm ns)
    (h : ¬ (0 ∈ ns ∧ maxMultiple < leastMultiple (nonzeros ns))) :
    evalLcm (ms.map .int) = (exactAnswer "lcm" (leastMultiple ns) : Except Error (Value H)) := by
  rw [← leastMultiple_perm hperm, evalLcm_exact_iff]
  rintro ⟨hzero, hlarge⟩
  have hnonzeros : leastMultiple (nonzeros ms) ≠ 0 :=
    fun h => zero_not_mem_nonzeros ms (leastMultiple_eq_zero_iff.mp h)
  have hle : leastMultiple (beforeZero ms) ≤ leastMultiple (nonzeros ms) :=
    Nat.le_of_dvd (Nat.pos_of_ne_zero hnonzeros)
      (leastMultiple_dvd_of_subset (beforeZero_subset_nonzeros ms))
  rw [leastMultiple_perm (nonzeros_perm hperm)] at hle
  exact h ⟨hperm.mem_iff.mp hzero, Nat.lt_of_lt_of_le hlarge hle⟩

/-- The order of the arguments counts where a zero can come too late. -/
theorem evalLcm_perm_iff (ns : List Int64) :
    (∀ ms : List Int64, ms.Perm ns →
        evalLcm (ms.map .int) = (evalLcm (ns.map .int) : Except Error (Value H))) ↔
      ¬ (0 ∈ ns ∧ maxMultiple < leastMultiple (nonzeros ns)) := by
  constructor
  · -- one order with a zero first, one with all the others in front
    rintro h ⟨hzero, hlarge⟩
    have hfirst := h _ (List.perm_cons_erase hzero).symm
    obtain ⟨ms, hperm, hsubset⟩ := exists_perm_nonzeros_subset ns
    have hbefore : leastMultiple (beforeZero ms) ≠ 0 :=
      fun h => zero_not_mem_beforeZero ms (leastMultiple_eq_zero_iff.mp h)
    have hle : leastMultiple (nonzeros ns) ≤ leastMultiple (beforeZero ms) :=
      Nat.le_of_dvd (Nat.pos_of_ne_zero hbefore) (leastMultiple_dvd_of_subset hsubset)
    have hlast := h ms hperm
    rw [evalLcm_int ms, if_pos (Nat.lt_of_lt_of_le hlarge hle), ← hfirst, evalLcm_zero_cons]
      at hlast
    cases hlast
  · intro h ms hperm
    rw [evalLcm_of_perm hperm h, evalLcm_of_perm (List.Perm.refl ns) h]

/-- **Where common multiples are exact.** The least common multiple of integers is
the exact one if that is in the 64-bit range and an overflow if it is not, unless
there is a zero among them and the integers in front of the first zero already have
one above `maxMultiple`, which is an overflow although the answer is zero. So an
order of the arguments can be found in which the answer is another one just if there
is a zero among them and all the others together have a multiple above
`maxMultiple`. -/
theorem lcm_exact_iff (ns : List Int64) :
    (lcm.eval (ns.map .int)
        = (exactAnswer "lcm" (leastMultiple ns) : Except Error (Value H)) ↔
      ¬ (0 ∈ ns ∧ maxMultiple < leastMultiple (beforeZero ns))) ∧
    (0 ∈ ns ∧ maxMultiple < leastMultiple (beforeZero ns) →
      lcm.eval (ns.map .int) = (.error (.fault (.overflow "lcm")) : Except Error (Value H)) ∧
      leastMultiple ns = 0) ∧
    ((∀ ms : List Int64, ms.Perm ns →
        lcm.eval (ms.map .int) = (lcm.eval (ns.map .int) : Except Error (Value H))) ↔
      ¬ (0 ∈ ns ∧ maxMultiple < leastMultiple (nonzeros ns))) := by
  refine ⟨evalLcm_exact_iff ns, ?_, evalLcm_perm_iff ns⟩
  rintro ⟨hzero, hlarge⟩
  exact ⟨(evalLcm_int ns).trans (if_pos hlarge), leastMultiple_eq_zero_iff.mpr hzero⟩

/-- A zero that comes too late, and the same integers with the zero first. -/
theorem lcm_late_zero_overflows :
    lcm.eval [.int 9223372036854775807, .int 9223372036854775806, .int 0]
        = (.error (.fault (.overflow "lcm")) : Except Error (Value Empty)) ∧
      lcm.eval [.int 0, .int 9223372036854775807, .int 9223372036854775806]
        = (.ok (.int 0) : Except Error (Value Empty)) ∧
      leastMultiple [9223372036854775807, 9223372036854775806, 0] = 0 := by
  refine ⟨?_, evalLcm_zero_cons [_, _], leastMultiple_eq_zero_iff.mpr (by decide)⟩
  exact (evalLcm_int [9223372036854775807, 9223372036854775806, 0]).trans (if_pos (by decide))

end FlatLisp.Operation
