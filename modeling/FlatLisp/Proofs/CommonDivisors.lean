/-
FlatLisp.Proofs.CommonDivisors — the greatest common divisor of any integers.

The divisor that is carried along is the greatest common one of the sizes so far. It is
at most the size of the least integer (`greatestDivisor_le`), which is no integer of
the 64-bit range and is carried like any other. Only the last divisor has to fit, and
it does unless it is that size, that is, unless all arguments are zero or the least
integer (`greatestDivisor_eq_iff`). Since divisibility does not ask for order, sign or
number, neither does the answer.
-/
import FlatLisp.Proofs.ExactIntegers

namespace FlatLisp.Operation

variable {H : Type}

/-! ## Common divisors -/

/-- The integer `g` is the greatest common divisor of some integers: it divides all of
them and is a multiple of everything that does. -/
structure IsGreatestDivisor (ns : List Int64) (g : Int) : Prop where
  nonneg : 0 ≤ g
  dvd : ∀ n ∈ ns, g ∣ n.toInt
  greatest : ∀ d : Int, (∀ n ∈ ns, d ∣ n.toInt) → d ∣ g

/-- The sizes of integers. -/
def sizes (ns : List Int64) : List Nat :=
  ns.map fun n => n.toInt.natAbs

/-- The greatest common divisor of the sizes of integers: zero of no integers or of
nothing but zeros. -/
def greatestDivisor (ns : List Int64) : Nat :=
  Multiset.gcd (sizes ns)

@[simp] theorem greatestDivisor_nil : greatestDivisor [] = 0 := rfl

@[simp] theorem greatestDivisor_cons (n : Int64) (ns : List Int64) :
    greatestDivisor (n :: ns) = Nat.gcd n.toInt.natAbs (greatestDivisor ns) := by
  rw [greatestDivisor, sizes, List.map_cons, ← Multiset.cons_coe, Multiset.gcd_cons]
  rfl

theorem dvd_greatestDivisor_iff {d : Nat} {ns : List Int64} :
    d ∣ greatestDivisor ns ↔ ∀ size ∈ sizes ns, d ∣ size := by
  simp only [greatestDivisor, Multiset.dvd_gcd, Multiset.mem_coe]

theorem greatestDivisor_dvd_size {n : Int64} {ns : List Int64} (h : n ∈ ns) :
    greatestDivisor ns ∣ n.toInt.natAbs :=
  dvd_greatestDivisor_iff.mp (Nat.dvd_refl _) _ (List.mem_map_of_mem h)

theorem isGreatestDivisor_greatestDivisor (ns : List Int64) :
    IsGreatestDivisor ns (greatestDivisor ns) where
  nonneg := Int.natCast_nonneg _
  dvd n hn := by
    rw [← Int.dvd_natAbs, Int.natCast_dvd_natCast]
    exact greatestDivisor_dvd_size hn
  greatest d hd := by
    rw [← Int.natAbs_dvd, Int.natCast_dvd_natCast, dvd_greatestDivisor_iff]
    intro size hsize
    obtain ⟨n, hn, rfl⟩ := List.mem_map.mp hsize
    exact Int.natAbs_dvd_natAbs.mpr (hd n hn)

/-- There is one greatest common divisor and no other. -/
theorem isGreatestDivisor_iff {ns : List Int64} {g : Int} :
    IsGreatestDivisor ns g ↔ g = greatestDivisor ns := by
  have hexists := isGreatestDivisor_greatestDivisor ns
  constructor
  · intro h
    exact Int.dvd_antisymm h.nonneg hexists.nonneg (hexists.greatest g h.dvd)
      (h.greatest _ hexists.dvd)
  · rintro rfl
    exact hexists

/-- Integers of the same sizes have the same divisor, in whatever order, with whatever
signs and however often they come. -/
theorem greatestDivisor_congr {ms ns : List Int64} (h : ∀ size, size ∈ sizes ms ↔ size ∈ sizes ns) :
    greatestDivisor ms = greatestDivisor ns := by
  refine Nat.dvd_antisymm ?_ ?_
  · rw [dvd_greatestDivisor_iff]
    exact fun size hsize => dvd_greatestDivisor_iff.mp (Nat.dvd_refl _) size ((h size).mpr hsize)
  · rw [dvd_greatestDivisor_iff]
    exact fun size hsize => dvd_greatestDivisor_iff.mp (Nat.dvd_refl _) size ((h size).mp hsize)

theorem greatestDivisor_eq_zero_iff {ns : List Int64} :
    greatestDivisor ns = 0 ↔ ∀ n ∈ ns, n = 0 := by
  simp only [greatestDivisor, Multiset.gcd_eq_zero_iff, Multiset.mem_coe, sizes,
    List.forall_mem_map, natAbs_toInt_eq_zero_iff]

/-! ## The size of the least integer -/

theorem natAbs_toInt_eq_iff {n : Int64} : n.toInt.natAbs = 2 ^ 63 ↔ n = Int64.minValue := by
  have hlt := n.toInt_lt
  rw [← Int64.toInt_inj, Int64.toInt_minValue]
  omega

theorem greatestDivisor_le (ns : List Int64) : greatestDivisor ns ≤ 2 ^ 63 := by
  by_cases hzeros : ∀ n ∈ ns, n = 0
  · rw [greatestDivisor_eq_zero_iff.mpr hzeros]
    exact Nat.zero_le _
  · push Not at hzeros
    obtain ⟨n, hn, hne⟩ := hzeros
    have hpos : 0 < n.toInt.natAbs :=
      Nat.pos_of_ne_zero fun hzero => hne (natAbs_toInt_eq_zero_iff.mp hzero)
    calc greatestDivisor ns ≤ n.toInt.natAbs := Nat.le_of_dvd hpos (greatestDivisor_dvd_size hn)
      _ ≤ 2 ^ 63 := natAbs_toInt_le n

/-- The divisor that is no integer of the 64-bit range. -/
theorem greatestDivisor_eq_iff {ns : List Int64} :
    greatestDivisor ns = 2 ^ 63 ↔
      (∀ n ∈ ns, n = 0 ∨ n = Int64.minValue) ∧ Int64.minValue ∈ ns := by
  constructor
  · intro h
    have hall : ∀ n ∈ ns, n = 0 ∨ n = Int64.minValue := by
      intro n hn
      -- a multiple of the divisor that is not larger is zero or the divisor itself
      have hdvd : 2 ^ 63 ∣ n.toInt.natAbs := h ▸ greatestDivisor_dvd_size hn
      have hle := natAbs_toInt_le n
      rw [← natAbs_toInt_eq_zero_iff, ← natAbs_toInt_eq_iff]
      omega
    refine ⟨hall, ?_⟩
    by_contra hleast
    have hzeros : ∀ n ∈ ns, n = 0 :=
      fun n hn => (hall n hn).resolve_right fun hmin => hleast (hmin ▸ hn)
    rw [greatestDivisor_eq_zero_iff.mpr hzeros] at h
    exact absurd h (by decide)
  · rintro ⟨hall, hleast⟩
    refine Nat.dvd_antisymm (greatestDivisor_dvd_size hleast) ?_
    rw [dvd_greatestDivisor_iff]
    intro size hsize
    obtain ⟨n, hn, rfl⟩ := List.mem_map.mp hsize
    rcases hall n hn with rfl | rfl
    · exact Nat.dvd_zero _
    · exact Nat.dvd_refl _

/-! ## The operation -/

/-- What is carried along is the greatest common divisor of what it started from and
the integers so far. -/
theorem foldlM_commonDivisor (ns : List Int64) (divisor : Nat) :
    (ns.map (Value.int (H := H))).foldlM commonDivisor divisor
      = .ok (Nat.gcd divisor (greatestDivisor ns)) := by
  induction ns generalizing divisor with
  | nil =>
    rw [greatestDivisor_nil, Nat.gcd_zero_right]
    rfl
  | cons n ns ih =>
    have hstep : commonDivisor divisor (.int n : Value H)
        = .ok (Nat.gcd divisor n.toInt.natAbs) := euclid_eq divisor n.toInt.natAbs
    rw [List.map_cons, List.foldlM_cons, hstep, ok_bind, ih, greatestDivisor_cons, Nat.gcd_assoc]

theorem evalGcd_int (ns : List Int64) :
    evalGcd (ns.map .int)
      = (exactAnswer "gcd" (greatestDivisor ns) : Except Error (Value H)) := by
  rw [evalGcd, foldlM_commonDivisor, Nat.gcd_zero_left, ok_bind, countValue_eq]

theorem evalGcd_eq_overflow_iff (ns : List Int64) :
    evalGcd (ns.map .int) = (.error (.fault (.overflow "gcd")) : Except Error (Value H)) ↔
      greatestDivisor ns = 2 ^ 63 := by
  have hle := greatestDivisor_le ns
  rw [evalGcd_int, exactAnswer_eq_error_iff, Number.minInt, Number.maxInt]
  omega

/-- **The greatest common divisor is exact.** There is one integer that divides all
arguments and is a multiple of everything that does, and it is the answer; it is zero
if there is no argument but zeros. The one exception is the size of the least integer,
which is an overflow and is the divisor just if all arguments are zero or the least
integer, and that is one of them. The answer depends on which sizes occur among the
arguments, so not on their order, their signs or how often they occur. -/
theorem gcd_is_exact (ns : List Int64) :
    (∀ g : Int, IsGreatestDivisor ns g ↔ g = greatestDivisor ns) ∧
    gcd.eval (ns.map .int)
      = (exactAnswer "gcd" (greatestDivisor ns) : Except Error (Value H)) ∧
    (greatestDivisor ns = 0 ↔ ∀ n ∈ ns, n = 0) ∧
    (gcd.eval (ns.map .int)
        = (.error (.fault (.overflow "gcd")) : Except Error (Value H)) ↔
      greatestDivisor ns = 2 ^ 63) ∧
    (greatestDivisor ns = 2 ^ 63 ↔
      (∀ n ∈ ns, n = 0 ∨ n = Int64.minValue) ∧ Int64.minValue ∈ ns) ∧
    ∀ ms : List Int64, (∀ size, size ∈ sizes ms ↔ size ∈ sizes ns) →
      gcd.eval (ms.map .int) = (gcd.eval (ns.map .int) : Except Error (Value H)) := by
  refine ⟨fun g => isGreatestDivisor_iff, evalGcd_int ns, greatestDivisor_eq_zero_iff,
    evalGcd_eq_overflow_iff ns, greatestDivisor_eq_iff, fun ms hsizes => ?_⟩
  show evalGcd (ms.map .int) = evalGcd (ns.map .int)
  rw [evalGcd_int, evalGcd_int, greatestDivisor_congr hsizes]

/-- The least integer is rejected as an answer and not on the way to one, and an
argument may come again with the other sign. -/
theorem gcd_of_minInt :
    gcd.eval [.int 0, .int Int64.minValue]
        = (.error (.fault (.overflow "gcd")) : Except Error (Value Empty)) ∧
      gcd.eval [.int Int64.minValue, .int 6]
        = (.ok (.int 2) : Except Error (Value Empty)) ∧
      (∀ size, size ∈ sizes [-6, Int64.minValue, 6] ↔ size ∈ sizes [Int64.minValue, 6]) ∧
      gcd.eval [.int (-6), .int Int64.minValue, .int 6]
        = (.ok (.int 2) : Except Error (Value Empty)) := by
  obtain ⟨-, -, -, hoverflow, hdivisor, -⟩ := gcd_is_exact (H := Empty) [0, Int64.minValue]
  obtain ⟨-, hexact, -, -, -, hsizes⟩ := gcd_is_exact (H := Empty) [Int64.minValue, 6]
  have htwo : gcd.eval [.int Int64.minValue, .int 6]
      = (.ok (.int 2) : Except Error (Value Empty)) := by
    have hdivisor : greatestDivisor [Int64.minValue, 6] = 2 := by
      rw [greatestDivisor_cons, greatestDivisor_cons, greatestDivisor_nil]
      decide
    rw [hdivisor] at hexact
    exact hexact
  have hsame : ∀ size, size ∈ sizes [-6, Int64.minValue, 6] ↔ size ∈ sizes [Int64.minValue, 6] := by
    intro size
    have hsix : (-6 : Int64).toInt.natAbs = (6 : Int64).toInt.natAbs := by decide
    rw [sizes, sizes, List.map_cons, hsix]
    simp only [List.map_cons, List.mem_cons, List.map_nil, List.not_mem_nil, or_false]
    rw [or_left_comm, or_self]
  refine ⟨hoverflow.mpr (hdivisor.mpr ⟨by simp, by simp⟩), htwo, hsame, ?_⟩
  exact (hsizes [-6, Int64.minValue, 6] hsame).trans htwo

end FlatLisp.Operation
