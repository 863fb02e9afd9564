/-
FlatLisp.Proofs.Comparisons — how far comparing neighbours compares all arguments.

A comparison of several numbers looks at neighbours only. Two integers are compared
exactly, but next to a double an integer is taken as the double nearest to it, and
from `2 ^ 53` on different integers share one (`Number.conflated`). By their places
among the doubles, numbers are compared transitively (`Comparison.relation_place_iff`,
`Comparison.relation_trans`), and what the places say differs from the comparison
only for integers that are conflated. So `=`, `<=` and `>=` are transitive on numbers
except across a double between conflated integers, and a list of arguments is in order
if and only if all pairs are, with that exception (`nonstrict_comparison_iff_pairs`).
Where `<` holds, places do not fall, and they rise if one of the two is a double; so a
double in the middle keeps its neighbours apart, and `<` is transitive without exception
(`strict_comparison_iff_pairs`).
-/
import FlatLisp.Proofs.FloatOrder
import FlatLisp.Proofs.FloatSizes
import FlatLisp.Proofs.MachineSteps
import Mathlib

namespace FlatLisp

namespace Number

/-- Whether the number is a double. -/
def isFloat : Number → Bool
  | int _ => false
  | float _ => true

/-- Whether the number is the double that is not a number. -/
def isNaN (n : Number) : Bool :=
  n.toFloat.isNaN

/-- Where the double nearest to a number stands among all doubles. -/
def place (n : Number) : Int :=
  Binary64.place n.toFloat

/-- Whether two numbers are different integers with one nearest double. -/
def conflated : Number → Number → Bool
  | int m, int n => m != n && Binary64.ofInt m.toInt == Binary64.ofInt n.toInt
  | _, _ => false

theorem conflated_int_iff {m n : Int64} :
    conflated (int m) (int n) = true ↔ m ≠ n ∧ (int m).place = (int n).place := by
  rw [conflated, Bool.and_eq_true, bne_iff_ne,
    Binary64.beq_iff_place (Binary64.isNaN_ofInt _) (Binary64.isNaN_ofInt _)]
  rfl

/-- Conflated numbers are integers. -/
theorem isFloat_of_conflated {x y : Number} (h : x.conflated y = true) :
    x.isFloat = false ∧ y.isFloat = false := by
  cases x <;> cases y <;> simp_all [conflated, isFloat]

/-- Integers are conflated from `2 ^ 53` on only. -/
theorem le_natAbs_of_conflated {m n : Int64} (h : conflated (int m) (int n) = true) :
    2 ^ 53 ≤ m.toInt.natAbs ∧ 2 ^ 53 ≤ n.toInt.natAbs := by
  obtain ⟨hne, hplace⟩ := conflated_int_iff.mp h
  have hne' : m.toInt ≠ n.toInt := fun heq => hne (Int64.toInt_inj.mp heq)
  have hlt : ∀ {a b : Nat}, a < 2 ^ 53 → a < b →
      Binary64.nearestBits a 1 < Binary64.nearestBits b 1 := Binary64.nearestBits_natural_lt
  have hmn := @hlt m.toInt.natAbs n.toInt.natAbs
  have hnm := @hlt n.toInt.natAbs m.toInt.natAbs
  have hm := @hlt 0 m.toInt.natAbs (by decide)
  have hn := @hlt 0 n.toInt.natAbs (by decide)
  change Binary64.place (Binary64.ofInt _) = Binary64.place (Binary64.ofInt _) at hplace
  rw [Binary64.place_ofInt, Binary64.place_ofInt, Binary64.signed, Binary64.signed] at hplace
  simp only [decide_eq_true_eq] at hplace
  split at hplace <;> split at hplace <;> omega

end Number

namespace Comparison

/-- The relation between integers that a comparison has the name of. -/
def relation : Comparison → Int → Int → Prop
  | greater, a, b => b < a
  | less, a, b => a < b
  | greaterEqual, a, b => b ≤ a
  | lessEqual, a, b => a ≤ b
  | equal, a, b => a = b

/-- Whether a comparison holds between equal numbers. -/
def allowsEqual : Comparison → Bool
  | greater | less => false
  | greaterEqual | lessEqual | equal => true

theorem relation_trans (c : Comparison) {a b d : Int} (hab : c.relation a b)
    (hbd : c.relation b d) : c.relation a d := by
  cases c <;> simp only [relation] at * <;> omega

/-- Integers are compared exactly. -/
theorem holds_int_iff (c : Comparison) (m n : Int64) :
    c.holds (.int m) (.int n) = true ↔ c.relation m.toInt n.toInt := by
  cases c <;> simp [holds, relation, Number.less, Number.lessEqual, Number.equal,
    Int64.lt_iff_toInt_lt, Int64.le_iff_toInt_le, Int64.toInt_inj]

/-- Other numbers are compared by their places. -/
theorem holds_iff_place (c : Comparison) {x y : Number} (hx : x.isNaN = false)
    (hy : y.isNaN = false) (hfloat : x.isFloat = true ∨ y.isFloat = true) :
    c.holds x y = true ↔ c.relation x.place y.place := by
  have hparts : x.equal y = (x.toFloat == y.toFloat)
      ∧ x.less y = decide (x.toFloat < y.toFloat) ∧ y.less x = decide (y.toFloat < x.toFloat)
      ∧ x.lessEqual y = decide (x.toFloat ≤ y.toFloat)
      ∧ y.lessEqual x = decide (y.toFloat ≤ x.toFloat) := by
    cases x with
    | float x => exact ⟨rfl, rfl, by cases y <;> rfl, rfl, by cases y <;> rfl⟩
    | int m =>
      cases y with
      | float y => exact ⟨rfl, rfl, rfl, rfl, rfl⟩
      | int n => simp [Number.isFloat] at hfloat
  obtain ⟨hequal, hless, hgreater, hlessEqual, hgreaterEqual⟩ := hparts
  cases c with
  | equal => rw [holds, hequal, Binary64.beq_iff_place hx hy]; rfl
  | less => rw [holds, hless, decide_eq_true_iff, Binary64.lt_iff_place hx hy]; rfl
  | greater => rw [holds, hgreater, decide_eq_true_iff, Binary64.lt_iff_place hy hx]; rfl
  | lessEqual => rw [holds, hlessEqual, decide_eq_true_iff, Binary64.le_iff_place hx hy]; rfl
  | greaterEqual => rw [holds, hgreaterEqual, decide_eq_true_iff, Binary64.le_iff_place hy hx]; rfl

variable {c : Comparison}

/-- By their places, numbers are in the relation as soon as the comparison holds, and
otherwise only if they are different integers with one place. -/
theorem relation_place_iff (hc : c.allowsEqual = true) {x y : Number} (hx : x.isNaN = false)
    (hy : y.isNaN = false) :
    c.relation x.place y.place ↔ c.holds x y = true ∨ x.conflated y = true := by
  by_cases hfloat : x.isFloat = true ∨ y.isFloat = true
  · have hconflated : x.conflated y = false := by
      cases x <;> cases y <;> simp_all [Number.isFloat, Number.conflated]
    simp [hconflated, holds_iff_place c hx hy hfloat]
  · obtain ⟨m, rfl⟩ : ∃ m, x = .int m := by
      cases x <;> simp_all [Number.isFloat]
    obtain ⟨n, rfl⟩ : ∃ n, y = .int n := by
      cases y <;> simp_all [Number.isFloat]
    -- both are compared exactly, and their places are in the same order or shared
    have hmn : m.toInt ≤ n.toInt → (Number.int m).place ≤ (Number.int n).place :=
      Binary64.place_ofInt_mono
    have hnm : n.toInt ≤ m.toInt → (Number.int n).place ≤ (Number.int m).place :=
      Binary64.place_ofInt_mono
    rw [holds_int_iff, Number.conflated_int_iff, ne_eq, ← Int64.toInt_inj]
    cases c <;> simp only [relation, allowsEqual, Bool.false_eq_true] at hc ⊢ <;> omega

/-- Integers are compared transitively. -/
theorem holds_trans_int {x y z : Number} (hx : x.isFloat = false) (hy : y.isFloat = false)
    (hz : z.isFloat = false) (hxy : c.holds x y = true) (hyz : c.holds y z = true) :
    c.holds x z = true := by
  cases x with
  | float x => simp [Number.isFloat] at hx
  | int m =>
    cases y with
    | float y => simp [Number.isFloat] at hy
    | int n =>
      cases z with
      | float z => simp [Number.isFloat] at hz
      | int k =>
        rw [holds_int_iff] at *
        exact relation_trans c hxy hyz

theorem holds_trans (hc : c.allowsEqual = true) {x y z : Number} (hx : x.isNaN = false)
    (hy : y.isNaN = false) (hz : z.isNaN = false) (hxy : c.holds x y = true)
    (hyz : c.holds y z = true) :
    c.holds x z = true ∨ (x.conflated z = true ∧ y.isFloat = true) := by
  have hplaces := c.relation_trans ((relation_place_iff hc hx hy).mpr (.inl hxy))
    ((relation_place_iff hc hy hz).mpr (.inl hyz))
  rcases (relation_place_iff hc hx hz).mp hplaces with hxz | hconflated
  · exact .inl hxz
  · cases hfloat : y.isFloat with
    | true => exact .inr ⟨hconflated, rfl⟩
    | false =>
      obtain ⟨hx', hz'⟩ := Number.isFloat_of_conflated hconflated
      exact .inl (holds_trans_int hx' hfloat hz' hxy hyz)

end Comparison

/-- Every number equals itself. -/
theorem Number.equal_self_iff {x : Number} : x.equal x = true ↔ x.isNaN = false := by
  constructor
  · intro h
    cases x with
    | int n => exact Binary64.isNaN_ofInt _
    | float x => exact (Binary64.not_isNaN_of_beq h).1
  · intro hx
    cases x with
    | int n => exact (Comparison.equal.holds_int_iff n n).mpr rfl
    | float x => exact (Comparison.equal.holds_iff_place hx hx (.inl rfl)).mpr rfl

/-! ## Strict comparison -/

namespace Number

variable {x y z : Number}

theorem not_isNaN_of_less (h : x.less y = true) : x.isNaN = false ∧ y.isNaN = false := by
  cases x with
  | float x =>
    cases y <;> exact Binary64.not_isNaN_of_lt (of_decide_eq_true h)
  | int m =>
    cases y with
    | float y => exact Binary64.not_isNaN_of_lt (of_decide_eq_true h)
    | int n => exact ⟨Binary64.isNaN_ofInt _, Binary64.isNaN_ofInt _⟩

theorem place_lt_of_less (h : x.less y = true) (hfloat : x.isFloat = true ∨ y.isFloat = true) :
    x.place < y.place := by
  obtain ⟨hx, hy⟩ := not_isNaN_of_less h
  exact (Comparison.less.holds_iff_place hx hy hfloat).mp h

theorem place_le_of_less (h : x.less y = true) : x.place ≤ y.place := by
  by_cases hfloat : x.isFloat = true ∨ y.isFloat = true
  · exact (place_lt_of_less h hfloat).le
  · cases x with
    | float x => exact absurd (.inl rfl) hfloat
    | int m =>
      cases y with
      | float y => exact absurd (.inr rfl) hfloat
      | int n =>
        have hmn : m.toInt < n.toInt := (Comparison.less.holds_int_iff m n).mp h
        exact Binary64.place_ofInt_mono hmn.le

/-- If one of the outer two is a double, or both are integers around a double, places decide;
three integers are compared exactly. -/
theorem less_trans (hxy : x.less y = true) (hyz : y.less z = true) : x.less z = true := by
  have hx := (not_isNaN_of_less hxy).1
  have hz := (not_isNaN_of_less hyz).2
  have hle := place_le_of_less hxy
  have hle' := place_le_of_less hyz
  by_cases hfloat : x.isFloat = true ∨ z.isFloat = true
  · refine (Comparison.less.holds_iff_place hx hz hfloat).mpr ?_
    show x.place < z.place
    rcases hfloat with hfloat | hfloat
    · exact (place_lt_of_less hxy (.inl hfloat)).trans_le hle'
    · exact hle.trans_lt (place_lt_of_less hyz (.inr hfloat))
  · rw [not_or, Bool.not_eq_true, Bool.not_eq_true] at hfloat
    cases hy : y.isFloat with
    | false => exact Comparison.less.holds_trans_int hfloat.1 hy hfloat.2 hxy hyz
    | true =>
      have hplaces := (place_lt_of_less hxy (.inr hy)).trans (place_lt_of_less hyz (.inl hy))
      cases x with
      | float x => cases hfloat.1
      | int m =>
        cases z with
        | float z => cases hfloat.2
        | int n =>
          -- an integer that is not smaller has no lower place
          refine (Comparison.less.holds_int_iff m n).mpr (Int.not_le.mp fun hnm => ?_)
          exact hplaces.not_ge (Binary64.place_ofInt_mono hnm)

theorem not_equal_of_less (h : x.less y = true) : x.equal y = false ∧ y.equal x = false := by
  obtain ⟨hx, hy⟩ := not_isNaN_of_less h
  rw [← Bool.not_eq_true, ← Bool.not_eq_true]
  by_cases hfloat : x.isFloat = true ∨ y.isFloat = true
  · have hplaces := place_lt_of_less h hfloat
    exact ⟨fun heq => hplaces.ne ((Comparison.equal.holds_iff_place hx hy hfloat).mp heq),
      fun heq => hplaces.ne' ((Comparison.equal.holds_iff_place hy hx hfloat.symm).mp heq)⟩
  · cases x with
    | float x => exact absurd (.inl rfl) hfloat
    | int m =>
      cases y with
      | float y => exact absurd (.inr rfl) hfloat
      | int n =>
        have hmn : m.toInt < n.toInt := (Comparison.less.holds_int_iff m n).mp h
        exact ⟨fun heq => hmn.ne ((Comparison.equal.holds_int_iff m n).mp heq),
          fun heq => hmn.ne' ((Comparison.equal.holds_int_iff n m).mp heq)⟩

/-- Numbers that rise from neighbour to neighbour rise from each to every later one. -/
theorem isChain_less_iff (ns : List Number) :
    (ns.IsChain fun x y => x.less y = true) ↔ ns.Pairwise fun x y => x.less y = true := by
  have htrans : Trans (fun x y : Number => x.less y = true) (fun x y => x.less y = true)
      (fun x y => x.less y = true) := ⟨less_trans⟩
  exact List.isChain_iff_pairwise

/-- Each of two or more rising numbers is compared with another one. -/
theorem not_isNaN_of_pairwise_less {ns : List Number} (hlen : 2 ≤ ns.length)
    (h : ns.Pairwise fun x y => x.less y = true) : ∀ n ∈ ns, n.isNaN = false := by
  match ns, hlen with
  | first :: second :: rest, _ =>
    have hfirst := (List.pairwise_cons.mp h).1
    intro n hn
    rcases List.mem_cons.mp hn with rfl | hn
    · exact (not_isNaN_of_less (hfirst second List.mem_cons_self)).1
    · exact (not_isNaN_of_less (hfirst n hn)).2

end Number

namespace Comparison

/-! ## Whole lists -/

variable {c : Comparison} {ns : List Number}

/-- Integers next to each other in a chain are compared transitively. -/
theorem holds_of_integers_between (hchain : ns.IsChain fun x y => c.holds x y = true) {i j : Nat}
    (hij : i < j) (hj : j < ns.length)
    (hints : ∀ k, i ≤ k → ∀ _ : k ≤ j, ns[k].isFloat = false) :
    c.holds ns[i] ns[j] = true := by
  rw [List.isChain_iff_getElem] at hchain
  induction j, hij using Nat.le_induction with
  | base => exact hchain i hj
  | succ j hij ih =>
    have hstep := hchain j hj
    have hprefix := ih (by omega) fun k hik hkj => hints k hik (by omega)
    exact holds_trans_int (hints i (Nat.le_refl _) (by omega)) (hints j (by omega) (by omega))
      (hints (j + 1) (by omega) (Nat.le_refl _)) hprefix hstep

/-- In a chain of places, all pairs are in the relation. -/
theorem relation_place_of_chain (hc : c.allowsEqual = true) (hnan : ∀ n ∈ ns, n.isNaN = false)
    (hchain : ns.IsChain fun x y => c.holds x y = true) {i j : Nat} (hij : i < j)
    (hj : j < ns.length) : c.relation ns[i].place ns[j].place := by
  rw [List.isChain_iff_getElem] at hchain
  have hstep : ∀ k (hk : k + 1 < ns.length), c.relation ns[k].place ns[k + 1].place :=
    fun k hk => (relation_place_iff hc (hnan _ (List.getElem_mem _))
      (hnan _ (List.getElem_mem _))).mpr (.inl (hchain k hk))
  induction j, hij using Nat.le_induction with
  | base => exact hstep i hj
  | succ j hij ih => exact c.relation_trans (ih (by omega) hstep) (hstep j hj)

/-- The comparison holds between any two numbers of a list, the earlier one first, except that
two conflated ones may have a double between them. -/
def HoldsForPairs (c : Comparison) (ns : List Number) : Prop :=
  ∀ i j, ∀ _ : i < j, ∀ _ : j < ns.length, c.holds ns[i] ns[j] = true ∨
    (ns[i].conflated ns[j] = true ∧ ∃ k, ∃ _ : i < k, ∃ _ : k < j, ns[k].isFloat = true)

/-- A comparison that holds between neighbours holds for all pairs. -/
theorem chain_iff_holdsForPairs (hc : c.allowsEqual = true) (hnan : ∀ n ∈ ns, n.isNaN = false) :
    (ns.IsChain fun x y => c.holds x y = true) ↔ c.HoldsForPairs ns := by
  constructor
  · intro hchain i j hij hj
    have hplaces := relation_place_of_chain hc hnan hchain hij hj
    rcases (relation_place_iff hc (hnan _ (List.getElem_mem _))
      (hnan _ (List.getElem_mem _))).mp hplaces with hholds | hconflated
    · exact .inl hholds
    · by_cases hbetween : ∃ k, ∃ _ : i < k, ∃ _ : k < j, ns[k].isFloat = true
      · exact .inr ⟨hconflated, hbetween⟩
      · -- no double on the way, so every step is between integers
        refine .inl (holds_of_integers_between hchain hij hj fun k hik hkj => ?_)
        obtain ⟨hi, hj'⟩ := Number.isFloat_of_conflated hconflated
        rcases Nat.lt_or_eq_of_le hik with hik | rfl
        · rcases Nat.lt_or_eq_of_le hkj with hkj | rfl
          · exact Bool.eq_false_iff.mpr fun h => hbetween ⟨k, hik, hkj, h⟩
          · exact hj'
        · exact hi
  · intro hpairs
    rw [List.isChain_iff_getElem]
    intro i hi
    rcases hpairs i (i + 1) (Nat.lt_succ_self i) hi with hholds | ⟨_, k, hik, hkj, _⟩
    · exact hholds
    · omega

end Comparison

namespace Operation

variable {H : Type}

theorem eval_compare_number (c : Comparison) (ns : List Number) :
    (compare c).eval (ns.map .number)
      = (.ok (.bool (decide (ns.IsChain fun x y => c.holds x y = true))) :
        Except Error (Value H)) := by
  show evalComparison c (ns.map .number) = _
  rw [evalComparison, numberArgs_map_number, ok_bind, allM_windows]
  rfl

/-- **Strict comparison orders the whole list.** For two or more numbers, `<` answers a boolean,
which is true if and only if every number is less than every later one; then none of them is
not-a-number and no two are equal. Reversed, the same numbers have that answer from `>`. -/
theorem strict_comparison_iff_pairs (ns : List Number) (hlen : 2 ≤ ns.length) :
    (∃ answer : Bool,
      (compare .less).eval (ns.map .number) = (.ok (.bool answer) : Except Error (Value H)) ∧
      (answer = true ↔ ns.Pairwise fun x y => x.less y = true) ∧
      (answer = true → (∀ n ∈ ns, n.isNaN = false) ∧
        ns.Pairwise fun x y => x.equal y = false ∧ y.equal x = false)) ∧
    (compare .greater).eval (ns.map .number)
      = ((compare .less).eval (ns.reverse.map .number) : Except Error (Value H)) := by
  have hpairs : decide (ns.IsChain fun x y => Comparison.less.holds x y = true) = true ↔
      ns.Pairwise fun x y => x.less y = true :=
    decide_eq_true_iff.trans (Number.isChain_less_iff ns)
  refine ⟨⟨_, eval_compare_number .less ns, hpairs, fun hanswer => ?_⟩, ?_⟩
  · have hless := hpairs.mp hanswer
    exact ⟨Number.not_isNaN_of_pairwise_less hlen hless, hless.imp Number.not_equal_of_less⟩
  · rw [eval_compare_number, eval_compare_number, decide_eq_decide.mpr]
    exact List.isChain_reverse.symm

/-- An integer and its successor that share their nearest double, with doubles around them. -/
theorem strict_comparison_of_conflated_integers :
    2 ≤ [Number.float 1.5, .int 9007199254740992, .int 9007199254740993, .float 1e18].length ∧
      (compare .less).eval
          [.float 1.5, .int 9007199254740992, .int 9007199254740993, .float 1e18]
        = (.ok (.bool true) : Except Error (Value Empty)) ∧
      ∀ n ∈ [Number.float 1.5, .int 9007199254740992, .int 9007199254740993, .float 1e18],
        n.isNaN = false := by
  obtain ⟨⟨answer, heval, hpairs, hordered⟩, _⟩ := strict_comparison_iff_pairs (H := Empty)
    [.float 1.5, .int 9007199254740992, .int 9007199254740993, .float 1e18] (by decide)
  have hanswer : answer = true := hpairs.mpr (by decide +kernel)
  exact ⟨by decide, hanswer ▸ heval, (hordered hanswer).1⟩

/-- **How far comparing neighbours compares all arguments.** Of numbers that are none of them
not-a-number, `=`, `<=` and `>=` are transitive, unless the outer two are different integers with
one nearest double and the one between them is a double. The answer for a list of them is true if
and only if the comparison holds for all pairs, the earlier argument first, with the exception of
such integers that have a double somewhere between them. Only integers from `2 ^ 53` on in size
are concerned. -/
theorem nonstrict_comparison_iff_pairs (c : Comparison) (hc : c.allowsEqual = true) :
    (∀ x y z : Number, x.isNaN = false → y.isNaN = false → z.isNaN = false →
      c.holds x y = true → c.holds y z = true →
        c.holds x z = true ∨ (x.conflated z = true ∧ y.isFloat = true)) ∧
    (∀ ns : List Number, (∀ n ∈ ns, n.isNaN = false) →
      ∃ answer : Bool,
        (compare c).eval (ns.map .number) = (.ok (.bool answer) : Except Error (Value H)) ∧
        (answer = true ↔ c.HoldsForPairs ns)) ∧
    (∀ m n : Int64, (Number.int m).conflated (.int n) = true →
      2 ^ 53 ≤ m.toInt.natAbs ∧ 2 ^ 53 ≤ n.toInt.natAbs) := by
  refine ⟨fun x y z => Comparison.holds_trans hc, fun ns hnan => ?_,
    fun m n => Number.le_natAbs_of_conflated⟩
  refine ⟨_, eval_compare_number c ns, ?_⟩
  rw [decide_eq_true_iff]
  exact Comparison.chain_iff_holdsForPairs hc hnan

/-- Integers with a double between them, in order. -/
theorem nonstrict_comparison_across_double :
    Comparison.lessEqual.allowsEqual = true ∧
      (∀ n ∈ [Number.int 1, .float 2.5, .int 3], n.isNaN = false) ∧
      ∃ answer : Bool, (compare .lessEqual).eval [.int 1, .float 2.5, .int 3]
          = (.ok (.bool answer) : Except Error (Value Empty)) ∧
        (answer = true ↔ Comparison.lessEqual.HoldsForPairs [.int 1, .float 2.5, .int 3]) :=
  ⟨rfl, by decide +kernel,
    (nonstrict_comparison_iff_pairs .lessEqual rfl).2.1 [.int 1, .float 2.5, .int 3]
      (by decide +kernel)⟩

/-- An integer and its predecessor that are equal to the double between them in the list, but not
to each other. -/
theorem equality_passes_conflated_integers :
    (∀ n ∈ [Number.int 9007199254740993, .float 9007199254740992.0, .int 9007199254740992],
        n.isNaN = false) ∧
      Comparison.equal.holds (.int 9007199254740993) (.float 9007199254740992.0) = true ∧
      Comparison.equal.holds (.float 9007199254740992.0) (.int 9007199254740992) = true ∧
      Comparison.equal.holds (.int 9007199254740993) (.int 9007199254740992) = false ∧
      (compare .equal).eval
          [.int 9007199254740993, .float 9007199254740992.0, .int 9007199254740992]
        = (.ok (.bool true) : Except Error (Value Empty)) :=
  ⟨by decide +kernel, rfl, rfl, rfl, rfl⟩

end Operation

end FlatLisp
