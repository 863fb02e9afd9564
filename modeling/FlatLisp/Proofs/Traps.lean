/-
FlatLisp.Proofs.Traps — which calls take a machine step without a result.

There is just one: the number of arrangements of none of `Number.maxInt` things,
whose least factor would be one more than that. No other body of an operation
traps, whatever its arguments are (`Operation.eval_eq_trap_iff`). `apply` and
`map` do not trap by themselves. A call that traps therefore leads, through
calls of these two, to that call or to a procedure of the host that traps
(`Calls.traps`).
-/
import FlatLisp.Proofs.Failures
import FlatLisp.Proofs.SquareRoots

namespace FlatLisp

variable {H : Type}

open Machine (trap)

/-! ## Operations -/

/-- The body of an operation traps for one argument list of one operation. -/
theorem Operation.eval_eq_trap_iff {op : Operation} {args : List (Value H)} {t : Trap} :
    op.eval args = trap t ↔ op = .perm ∧ args = unarranged ∧ t = .overflow := by
  constructor
  · intro h
    by_cases hargs : op = .perm ∧ args = unarranged
    · obtain ⟨rfl, rfl⟩ := hargs
      have ht : trap t = (trap .overflow : Except Error (Value H)) := h.symm.trans eval_unarranged
      simp only [trap, Except.error.injEq, Error.fault.injEq, Fault.trap.injEq] at ht
      exact ⟨rfl, rfl, ht⟩
    · rcases fails_eval_or_rejects hargs _ h with hordinary | ⟨-, harity⟩
      · exact absurd rfl (hordinary.not_trap t)
      · cases harity
  · rintro ⟨rfl, rfl, rfl⟩
    exact eval_unarranged

/-! ## Calls -/

section

variable [Host H]

/-- Calling a value with arguments leads to calling a value with other
arguments, through calls of `apply` and `map`. -/
inductive Value.LeadsTo : Value H → List (Value H) → Value H → List (Value H) → Prop
  | refl (f : Value H) (args : List (Value H)) : LeadsTo f args f args
  | next (serial : Nat) (name : String) {b : Builtin} {f g : Value H}
      {args items rest : List (Value H)} (h : b.Passes args f items)
      (h' : LeadsTo f items g rest) : LeadsTo (.builtin serial name b) args g rest

/-- A call that comes to a trap: that of the one operation, or one of the
host. -/
inductive Value.Traps (t : Trap) : Value H → List (Value H) → Prop
  | operation (serial : Nat) (name : String) (h : t = .overflow) :
      Traps t (.builtin serial name (.operation .perm)) [.int Int64.maxValue, .int 0]
  | host (serial : Nat) (name : String) {h : H} {args : List (Value H)}
      (hcall : Host.call h args = trap t) : Traps t (.procedure ⟨serial, name, .host h⟩) args

/-- A body that traps is that of the one operation, or it has called a
procedure that traps. -/
theorem Builtin.body_eq_trap {b : Builtin} {args : List (Value H)} {t : Trap}
    (h : (b.body args).outcome = trap t) :
    (b = .operation .perm ∧ args = Operation.unarranged ∧ t = .overflow) ∨
      ∃ f items, b.Passes args f items ∧ (f.call items).outcome = trap t := by
  cases hcount : b.arity.accepts args.length with
  | true =>
    rcases fails_body hcount _ h with hordinary | ⟨op, rfl, hop⟩ | hpasses
    · exact absurd rfl (hordinary.not_trap t)
    · obtain ⟨rfl, hargs, ht⟩ := Operation.eval_eq_trap_iff.mp hop
      exact .inl ⟨rfl, hargs, ht⟩
    · exact .inr hpasses
  | false =>
    cases b with
    | operation op =>
      rw [body_operation] at h
      obtain ⟨rfl, hargs, ht⟩ := Operation.eval_eq_trap_iff.mp h
      exact .inl ⟨rfl, hargs, ht⟩
    | print => cases hcount
    | apply =>
      rw [body_of_rejected hcount (by decide)] at h
      cases h
    | map =>
      rw [body_of_rejected hcount (by decide)] at h
      cases h

/-- A call that traps leads to the one that does. -/
theorem Calls.traps {t : Trap} {f : Value H} {args : List (Value H)} {reply : Reply (Value H)}
    (h : Calls f args reply) :
    reply.outcome = trap t → ∃ g rest, f.LeadsTo args g rest ∧ g.Traps t rest := by
  induction h with
  | notProcedure => exact fun h => nomatch h
  | host serial name h args => exact fun hcall => ⟨_, _, .refl _ _, .host serial name hcall⟩
  | count => exact fun h => nomatch h
  | operation serial name =>
    intro h
    obtain ⟨rfl, rfl, ht⟩ := Operation.eval_eq_trap_iff.mp h
    exact ⟨_, _, .refl _ _, .operation serial name ht⟩
  | print => exact fun h => nomatch h
  | apply serial name _ ih =>
    intro h
    obtain ⟨g, rest, hleads, htraps⟩ := ih h
    exact ⟨g, rest, .next serial name (.apply _ _) hleads, htraps⟩
  | applyMismatch => exact fun h => nomatch h
  | @map serial name f v vs lists hlists _ ih =>
    intro h
    obtain ⟨r, hr, hpasses, hcause⟩ := Builtin.exists_passes_map f hlists h
    obtain ⟨g, rest, hleads, htraps⟩ := ih r hr hcause
    exact ⟨g, rest, .next serial name hpasses hleads, htraps⟩
  | mapMismatch serial name f hlists =>
    intro h
    cases h
    exact absurd rfl ((fails_mapM (Operation.fails_listArg "map") _ _ hlists).not_trap t)

end

/-! ## Steps on the way -/

namespace Operation

/-- While binomial coefficients are computed no product exceeds `2 ^ 127`. -/
theorem binomialProduct_le {n i acc : Nat} (hn : (n : Int) ≤ Number.maxInt) (hi : i < n)
    (hacc : binomialFrom n 1 0 i = .ok acc) :
    binomialProduct n acc i = .ok (acc * (n - i)) ∧
      acc * (n - i) ≤ 0x80000000000000000000000000000000 := by
  have hone : ((1 : Nat) : Int) ≤ Number.maxInt := by decide
  have hbound : (acc : Int) ≤ Number.maxInt := by
    have hsteps : 0 + i ≤ n := by omega
    rcases binomialFrom_outcome hn i hone hsteps with ⟨m, hm, hbound⟩ | hoverflow
    · rw [hm] at hacc
      cases hacc
      exact hbound
    · rw [hoverflow] at hacc
      cases hacc
  have hleft : ((n - i : Nat) : Int) ≤ Number.maxInt := by omega
  refine ⟨binomialProduct_eq_ok hn hbound (Nat.le_of_lt hi), ?_⟩
  exact mul_le_of_le_maxInt hbound hleft

/-- The integer root of a number that is not negative is an integer. -/
theorem evalIsqrtBy_eq_ok {n : Int64} (hn : 0 ≤ n.toInt) :
    ∃ root : Int64, evalIsqrtBy estimateRoot [.int n] = .ok (.int root : Value H) :=
  ⟨_, evalIsqrtBy_of_nonneg hn (estimateRoot_le _)⟩

/-- The place of an error that is kept is one of a sum that was passed. -/
theorem kept_lt_length {partials : List Float} {x : Float} {j : Nat} {s : Carrying}
    (hj : j < partials.length)
    (hs : (List.range j).foldlM Carrying.step ⟨partials, 0, x⟩ = .ok s) :
    s.kept ≤ j ∧ j < s.partials.length := by
  obtain ⟨t, ht, hpassed⟩ := Carrying.Passed.steps (Nat.le_of_lt hj) x
  rw [ht] at hs
  cases hs
  exact ⟨hpassed.kept, by rw [hpassed.length]; exact hj⟩

end Operation

/-! ## The one trap -/

/-- **One call traps and no other.** An operation takes a machine step without a
result just where it counts the arrangements of none of `Number.maxInt` things.
The body of a builtin traps there, or because a procedure traps that it calls,
and every call that traps leads to that one or to a procedure of the host.

Where steps are taken that might trap: the places that `map` and comparisons
look at are in the lists; Euclid's algorithm always ends with a divisor; the
squares on the way to a root fit, and so does the root; the products on the way
to a binomial coefficient are at most `2 ^ 127` and are divided by no zero; of
partial sums no more are kept than were passed, so every exact sum has a
result; and the least factor of arrangements fits in all cases but the one. -/
theorem only_one_call_traps [Host H] :
    (∀ (op : Operation) (args : List (Value H)) (t : Trap),
      op.eval args = trap t ↔
        op = .perm ∧ args = [.int Int64.maxValue, .int 0] ∧ t = .overflow) ∧
    (∀ (b : Builtin) (args : List (Value H)) (t : Trap), (b.body args).outcome = trap t →
      (b = .operation .perm ∧ args = [.int Int64.maxValue, .int 0] ∧ t = .overflow) ∨
      ∃ f items, b.Passes args f items ∧ (f.call items).outcome = trap t) ∧
    (∀ (f : Value H) (args : List (Value H)) (t : Trap), (f.call args).outcome = trap t →
      ∃ g rest, f.LeadsTo args g rest ∧ g.Traps t rest) ∧
    -- places in lists
    (∀ (lists : List (List (Value H))) (i : Nat), i < shortestLength lists →
      (∀ items ∈ lists, i < items.length) ∧ takeRow lists i = .ok (row lists i)) ∧
    (∀ (ns pair : List Number), pair ∈ Operation.windows 2 ns → pair.length = 2) ∧
    (∀ (partials : List Float) (x : Float) (j : Nat) (s : Operation.Carrying),
      j < partials.length →
      (List.range j).foldlM Operation.Carrying.step ⟨partials, 0, x⟩ = .ok s →
      s.kept ≤ j ∧ j < s.partials.length) ∧
    (∀ xs, ∃ sum, Operation.exactSum xs = .ok sum) ∧
    -- divisors, roots and arrangements
    (∀ a b, Operation.euclid a b = .ok (Nat.gcd a b)) ∧
    (∀ n : Int64, 0 ≤ n.toInt →
      ∃ root : Int64, Operation.isqrt.eval [.int n] = .ok (.int root : Value H)) ∧
    (∀ n i acc : Nat, (n : Int) ≤ Number.maxInt → i < n →
      Operation.binomialFrom n 1 0 i = .ok acc →
      Operation.binomialProduct n acc i = .ok (acc * (n - i)) ∧
      acc * (n - i) ≤ 0x80000000000000000000000000000000 ∧
      Machine.quotient (acc * (n - i)) (i + 1) = .ok (acc * (n - i) / (i + 1))) ∧
    (∀ n k : Nat, (n : Int) ≤ Number.maxInt → k ≤ n → ¬ ((n : Int) = Number.maxInt ∧ k = 0) →
      Operation.leastFactor n k = .ok (n - k + 1)) := by
  refine ⟨?_, ?_, ?_, ?_, ?_, ?_, ?_, ?_, ?_, ?_, ?_⟩
  · exact fun _ _ _ => Operation.eval_eq_trap_iff
  · exact fun _ _ _ => Builtin.body_eq_trap
  · exact fun f args _ => (calls f args).traps
  · intro lists i hi
    have hlt : ∀ items ∈ lists, i < items.length :=
      fun items hitems => lt_length_of_lt_shortestLength hi hitems
    exact ⟨hlt, takeRow_eq_ok hlt⟩
  · exact fun _ _ => Operation.length_of_mem_windows
  · exact fun _ _ _ _ => Operation.kept_lt_length
  · exact Operation.exactSum_eq_ok
  · exact Operation.euclid_eq
  · exact fun _ => Operation.evalIsqrtBy_eq_ok
  · intro n i acc hn hi hacc
    obtain ⟨hproduct, hle⟩ := Operation.binomialProduct_le hn hi hacc
    exact ⟨hproduct, hle, Machine.quotient_eq_ok (Nat.succ_ne_zero i) _⟩
  · exact fun _ _ => Operation.leastFactor_eq_ok

end FlatLisp
