/-
FlatLisp.Proofs.Extremes — what a search for an extreme finds.

The search goes through the candidates once and keeps the best so far. That is
sound although numbers compare exactly or by their nearest doubles, depending on
their kinds, because "greater than" and "less than" are transitive all the same:
what has been passed over never comes out ahead of a later best (`Settles`).

Which of several equal candidates is found is another matter. Being no better is not
transitive where different integers have one nearest double, and a double may stand
in front of an integer that equals it and is found. Up to `2 ^ 53` integers are
their nearest doubles, numbers compare by their places, and the first of equal
candidates is found (`IsFirst`).
-/
import FlatLisp.Proofs.Applying
import FlatLisp.Proofs.Comparisons

namespace FlatLisp

namespace Number

variable {x y : Number}

theorem not_less_self (x : Number) : x.less x = false := by
  rw [← Bool.not_eq_true]
  intro h
  cases x with
  | int n => exact lt_irrefl n.toInt ((Comparison.less.holds_int_iff n n).mp h)
  | float x => exact lt_irrefl _ (place_lt_of_less h (.inl rfl))

/-- Integers up to `2 ^ 53` in size have nearest doubles of their own. -/
theorem not_conflated_of_small {m n : Int64} (hm : m.toInt.natAbs ≤ 2 ^ 53)
    (hn : n.toInt.natAbs ≤ 2 ^ 53) : conflated (int m) (int n) = false := by
  rw [← Bool.not_eq_true]
  intro h
  obtain ⟨hlem, hlen⟩ := le_natAbs_of_conflated h
  obtain ⟨hne, hplace⟩ := conflated_int_iff.mp h
  have hne' : m.toInt ≠ n.toInt := fun heq => hne (Int64.toInt_inj.mp heq)
  -- only `2 ^ 53` and its negative are left, on different sides of zero
  have hpos : Binary64.nearestBits 0 1 < Binary64.nearestBits (2 ^ 53) 1 :=
    Binary64.nearestBits_natural_lt (by decide) (by decide)
  have hm' : m.toInt.natAbs = 2 ^ 53 := le_antisymm hm hlem
  have hn' : n.toInt.natAbs = 2 ^ 53 := le_antisymm hn hlen
  change Binary64.place (Binary64.ofInt _) = Binary64.place (Binary64.ofInt _) at hplace
  rw [Binary64.place_ofInt, Binary64.place_ofInt, hm', hn', Binary64.signed, Binary64.signed]
    at hplace
  simp only [decide_eq_true_eq] at hplace
  split at hplace <;> split at hplace <;> omega

/-- Numbers that are not conflated compare as their places do. -/
theorem less_iff_place (hx : x.isNaN = false) (hy : y.isNaN = false)
    (hxy : x.conflated y = false) : x.less y = true ↔ x.place < y.place := by
  by_cases hfloat : x.isFloat = true ∨ y.isFloat = true
  · exact Comparison.less.holds_iff_place hx hy hfloat
  · obtain ⟨m, rfl⟩ : ∃ m, x = .int m := by
      cases x <;> simp_all [isFloat]
    obtain ⟨n, rfl⟩ : ∃ n, y = .int n := by
      cases y <;> simp_all [isFloat]
    constructor
    · intro h
      refine lt_of_le_of_ne (place_le_of_less h) fun hplace => ?_
      have hne : m ≠ n := by
        rintro rfl
        rw [not_less_self] at h
        cases h
      rw [conflated_int_iff.mpr ⟨hne, hplace⟩] at hxy
      cases hxy
    · intro h
      refine (Comparison.less.holds_int_iff m n).mpr (Int.not_le.mp fun hnm => ?_)
      exact h.not_ge (Binary64.place_ofInt_mono hnm)

end Number

namespace Extreme

variable {e : Extreme} {best found n : Number} {ns rest : List Number}

/-! ## One candidate after another -/

theorem improves_trans {x y z : Number} (hxy : e.improves x y = true)
    (hyz : e.improves y z = true) : e.improves x z = true := by
  cases e with
  | max => exact Number.less_trans hyz hxy
  | min => exact Number.less_trans hxy hyz

theorem not_improves_self (x : Number) : e.improves x x = false := by
  cases e <;> exact Number.not_less_self x

theorem not_equal_of_improves {x y : Number} (h : e.improves x y = true) :
    y.equal x = false := by
  cases e with
  | max => exact (Number.not_equal_of_less h).1
  | min => exact (Number.not_equal_of_less h).2

/-- What a search that starts from `best` may find among the numbers after it. -/
structure Settles (e : Extreme) (best : Number) (rest : List Number) (found : Number) :
    Prop where
  mem : found ∈ best :: rest
  advances : found = best ∨ e.improves found best = true
  unbeaten : ∀ n ∈ best :: rest, e.improves n found = false

theorem Settles.improves (h : e.Settles n rest found) (hn : e.improves n best = true) :
    e.improves found best = true := by
  rcases h.advances with rfl | hfound
  · exact hn
  · exact improves_trans hfound hn

/-- A candidate that improves on the best takes its place. -/
theorem Settles.replace (hn : e.improves n best = true) (h : e.Settles n rest found) :
    e.Settles best (n :: rest) found := by
  have hfound := h.improves hn
  refine ⟨List.mem_cons_of_mem best h.mem, .inr hfound, ?_⟩
  refine List.forall_mem_cons.mpr ⟨?_, h.unbeaten⟩
  rw [← Bool.not_eq_true]
  intro hbest
  have hself := improves_trans hbest hfound
  rw [not_improves_self] at hself
  cases hself

/-- A candidate that does not is passed over. -/
theorem Settles.keep (hn : e.improves n best = false) (h : e.Settles best rest found) :
    e.Settles best (n :: rest) found := by
  obtain ⟨hbest, hrest⟩ := List.forall_mem_cons.mp h.unbeaten
  refine ⟨?_, h.advances, List.forall_mem_cons.mpr ⟨hbest, List.forall_mem_cons.mpr ⟨?_, hrest⟩⟩⟩
  · rcases List.mem_cons.mp h.mem with rfl | hmem
    · exact List.mem_cons_self
    · exact List.mem_cons_of_mem _ (List.mem_cons_of_mem _ hmem)
  · rcases h.advances with rfl | hfound
    · exact hn
    · rw [← Bool.not_eq_true]
      intro hnfound
      rw [improves_trans hnfound hfound] at hn
      cases hn

theorem search_cons (e : Extreme) (best n : Number) (rest : List Number) :
    e.search best (n :: rest) = e.search (if e.improves n best then n else best) rest := rfl

theorem settles_search (e : Extreme) (rest : List Number) :
    ∀ best : Number, e.Settles best rest (e.search best rest) := by
  induction rest with
  | nil =>
    intro best
    exact ⟨List.mem_cons_self, .inl rfl, by simp [search, not_improves_self]⟩
  | cons n rest ih =>
    intro best
    rw [search_cons]
    cases hn : e.improves n best with
    | true => exact .replace hn (ih n)
    | false => exact .keep hn (ih best)

/-! ## The first of equal candidates -/

/-- The number stands in the list and improves on all that are in front of it. -/
def IsFirst (e : Extreme) (ns : List Number) (found : Number) : Prop :=
  ∃ before after, ns = before ++ found :: after ∧ ∀ n ∈ before, e.improves found n = true

/-- Of three numbers in the list, an improvement on the third by the first is one step or
the other by way of the second. -/
def Ranks (e : Extreme) (ns : List Number) : Prop :=
  ∀ x ∈ ns, ∀ y ∈ ns, ∀ z ∈ ns,
    e.improves x z = true → e.improves x y = true ∨ e.improves y z = true

theorem Ranks.mono {ns' : List Number} (h : e.Ranks ns') (hsub : ns ⊆ ns') : e.Ranks ns :=
  fun x hx y hy z hz => h x (hsub hx) y (hsub hy) z (hsub hz)

theorem IsFirst.replace (hn : e.improves n best = true) (hsettles : e.Settles n rest found)
    (h : e.IsFirst (n :: rest) found) : e.IsFirst (best :: n :: rest) found := by
  obtain ⟨before, after, hns, hbefore⟩ := h
  refine ⟨best :: before, after, by rw [hns, List.cons_append], ?_⟩
  exact List.forall_mem_cons.mpr ⟨hsettles.improves hn, hbefore⟩

theorem IsFirst.keep (hranks : e.Ranks (best :: n :: rest)) (hn : e.improves n best = false)
    (h : e.IsFirst (best :: rest) found) : e.IsFirst (best :: n :: rest) found := by
  obtain ⟨before, after, hns, hbefore⟩ := h
  cases before with
  | nil =>
    obtain ⟨rfl, rfl⟩ := List.cons.inj hns
    exact ⟨[], n :: rest, rfl, by simp⟩
  | cons b before =>
    obtain ⟨rfl, rfl⟩ := List.cons.inj hns
    obtain ⟨hbest, hrest⟩ := List.forall_mem_cons.mp hbefore
    have hfound : e.improves found n = true := by
      refine (hranks found ?_ n ?_ best ?_ hbest).resolve_right ?_
      · simp
      · simp
      · simp
      · simp [hn]
    refine ⟨best :: n :: before, after, rfl, ?_⟩
    exact List.forall_mem_cons.mpr ⟨hbest, List.forall_mem_cons.mpr ⟨hfound, hrest⟩⟩

theorem isFirst_search (rest : List Number) : ∀ best : Number, e.Ranks (best :: rest) →
    e.IsFirst (best :: rest) (e.search best rest) := by
  induction rest with
  | nil =>
    intro best _
    exact ⟨[], [], rfl, by simp⟩
  | cons n rest ih =>
    intro best hranks
    rw [search_cons]
    cases hn : e.improves n best with
    | true => exact .replace hn (settles_search e rest n) (ih n (hranks.mono (by simp)))
    | false => exact .keep hranks hn (ih best (hranks.mono (by simp)))

/-- Numbers whose integers are their nearest doubles are ranked by their places. -/
theorem ranks_of_small (hnan : ∀ n ∈ ns, n.isNaN = false)
    (hsmall : ∀ n : Int64, .int n ∈ ns → n.toInt.natAbs ≤ 2 ^ 53) : e.Ranks ns := by
  have hless : ∀ x ∈ ns, ∀ y ∈ ns, (x.less y = true ↔ x.place < y.place) := by
    intro x hx y hy
    refine Number.less_iff_place (hnan x hx) (hnan y hy) ?_
    cases x with
    | float x => rfl
    | int m =>
      cases y with
      | float y => rfl
      | int n => exact Number.not_conflated_of_small (hsmall m hx) (hsmall n hy)
  intro x hx y hy z hz h
  cases e with
  | max =>
    change z.less x = true at h
    change y.less x = true ∨ z.less y = true
    rw [hless z hz x hx] at h
    rw [hless y hy x hx, hless z hz y hy]
    omega
  | min =>
    change x.less z = true at h
    change x.less y = true ∨ y.less z = true
    rw [hless x hx z hz] at h
    rw [hless x hx y hy, hless y hy z hz]
    omega

end Extreme

/-! ## Calls -/

namespace Operation

variable {H : Type}

theorem evalExtreme_of_candidates (e : Extreme) {args : List (Value H)} {best : Number}
    {rest : List Number} (hargs : candidates args = (best :: rest).map .number) :
    evalExtreme e args = .ok (.number (e.search best rest)) := by
  rw [evalExtreme, hargs, numberArgs_map_number, ok_bind]
  rfl

/-- Two arguments or more are the candidates, and so is a number by itself. -/
theorem candidates_eq_self {args : List (Value H)}
    (hargs : 2 ≤ args.length ∨ ∃ n, args = [.number n]) : candidates args = args := by
  unfold candidates
  split
  case h_1 items =>
    rcases hargs with hlen | ⟨n, hn⟩
    · simp at hlen
    · cases hn
  case h_2 => rfl

variable [Host H]

theorem call_extreme (e : Extreme) (serial : Nat) (name : String) {args : List (Value H)}
    (hargs : args ≠ []) :
    (Value.builtin serial name (.operation (.extreme e))).call args
      = .ofExcept (evalExtreme e args) := by
  have hcount : (Builtin.operation (.extreme e)).arity.accepts args.length = true :=
    decide_eq_true (List.length_pos_iff.mpr hargs)
  rw [Value.call_builtin, if_pos hcount, Builtin.body_operation]
  rfl

/-- **An extreme is a candidate that no other one beats.** Of one or more numbers, given as
arguments or as the items of a list, a search for an extreme finds one of them, as it
stands there, and none of them is greater (for the greatest; less, for the least). If none
is not-a-number and the integers among them are at most `2 ^ 53` in size, the one that is
found is the first that equals it. A list of two items or more, or of one number, may be
given as it is or by `apply`, whatever the items are. -/
theorem extreme_is_unbeaten (e : Extreme) (serial : Nat) (name : String) (ns : List Number)
    (hns : ns ≠ []) :
    (∃ found : Number,
      (Value.builtin serial name (.operation (.extreme e))).call (ns.map .number)
        = (.ok (.number found) : Reply (Value H)) ∧
      (Value.builtin serial name (.operation (.extreme e))).call [.list (ns.map .number)]
        = (.ok (.number found) : Reply (Value H)) ∧
      found ∈ ns ∧
      (e = .max → ∀ n ∈ ns, found.less n = false) ∧
      (e = .min → ∀ n ∈ ns, n.less found = false) ∧
      ((∀ n ∈ ns, n.isNaN = false) → (∀ n : Int64, .int n ∈ ns → n.toInt.natAbs ≤ 2 ^ 53) →
        ns.find? (·.equal found) = some found)) ∧
    (∀ (serial' : Nat) (name' : String) (xs : List (Value H)),
      (2 ≤ xs.length ∨ ∃ n, xs = [.number n]) →
      (Value.builtin serial name (.operation (.extreme e))).call [.list xs]
        = (Value.builtin serial' name' .apply).call
            [.builtin serial name (.operation (.extreme e)), .list xs]) := by
  constructor
  · obtain ⟨best, rest, rfl⟩ := List.exists_cons_of_ne_nil hns
    have hsettles := Extreme.settles_search e rest best
    have hargs : candidates ((best :: rest).map (Value.number (H := H)))
        = (best :: rest).map .number := by
      refine candidates_eq_self ?_
      cases rest with
      | nil => exact .inr ⟨best, rfl⟩
      | cons n rest => exact .inl (by simp)
    refine ⟨e.search best rest, ?_, ?_, hsettles.mem, ?_, ?_, ?_⟩
    · rw [call_extreme e serial name (by simp), evalExtreme_of_candidates e hargs]
      rfl
    · rw [call_extreme e serial name (by simp), evalExtreme_of_candidates e rfl]
      rfl
    · rintro rfl
      exact hsettles.unbeaten
    · rintro rfl
      exact hsettles.unbeaten
    · intro hnan hsmall
      obtain ⟨before, after, heq, hbefore⟩ :=
        Extreme.isFirst_search rest best (Extreme.ranks_of_small hnan hsmall)
      rw [List.find?_eq_some_iff_append]
      refine ⟨Number.equal_self_iff.mpr (hnan _ hsettles.mem), before, after, heq, fun n hn => ?_⟩
      rw [Extreme.not_equal_of_improves (hbefore n hn)]
      rfl
  · intro serial' name' xs hxs
    have hne : xs ≠ [] := by
      rintro rfl
      simp at hxs
    rw [call_apply, call_extreme e serial name (by simp), call_extreme e serial name hne,
      evalExtreme, evalExtreme, candidates_eq_self hxs]
    rfl

/-- An integer and a double that are equal, behind a smaller number: the one in front is
found. -/
theorem extreme_is_unbeaten_among_equals :
    let ns : List Number := [.int 1, .float 2.0, .int 2]
    ns ≠ [] ∧ (∀ n ∈ ns, n.isNaN = false) ∧
      (∀ n : Int64, .int n ∈ ns → n.toInt.natAbs ≤ 2 ^ 53) ∧
      (Value.builtin 0 "max" (.operation (.extreme .max))).call (ns.map .number)
        = (.ok (.float 2.0) : Reply (Value Empty)) := by
  intro ns
  have hnan : ∀ n ∈ ns, n.isNaN = false := by decide +kernel
  have hsmall : ∀ n : Int64, .int n ∈ ns → n.toInt.natAbs ≤ 2 ^ 53 := by
    intro n hn
    obtain rfl | rfl : n = 1 ∨ n = 2 := by simpa [ns] using hn
    · decide
    · decide
  obtain ⟨⟨found, hcall, -, hmem, hunbeaten, -, hfirst⟩, -⟩ :=
    extreme_is_unbeaten (H := Empty) .max 0 "max" ns (by simp [ns])
  obtain rfl | rfl | rfl : found = .int 1 ∨ found = .float 2.0 ∨ found = .int 2 := by
    simpa [ns] using hmem
  · exact absurd (hunbeaten rfl (.int 2) (by simp [ns])) (by decide)
  · exact ⟨by simp [ns], hnan, hsmall, hcall⟩
  · exact absurd (hfirst hnan hsmall) (by decide +kernel)

end Operation

end FlatLisp
