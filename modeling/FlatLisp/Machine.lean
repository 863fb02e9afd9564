/-
FlatLisp.Machine — steps that a machine can take only under a condition.

An integer has to fit its width, a divisor must not be zero, and a position
has to be in the list. Where a procedure takes such a step without asking
first, a condition that fails is a trap, which is not one of the answers that
the procedure gives by itself. Each step comes with the equation that holds
where its condition does.

Lengths and positions are those of lists that are there, so they have no
width of their own.
-/
import FlatLisp.Number

namespace FlatLisp.Machine

variable {α : Type}

/-- A step without a result. -/
def trap (cause : Trap) : Except Error α :=
  .error (.fault (.trap cause))

/-! ## Integers of a fixed width -/

/-- A width of machine integers, by the least and the greatest of them. -/
structure Width where
  least : Int
  greatest : Int

namespace Width

/-- Signed integers of 32 bits. -/
def int32 : Width where
  least := -0x80000000
  greatest := 0x7FFFFFFF

/-- Signed integers of 64 bits, those of programs. -/
def int64 : Width where
  least := Number.minInt
  greatest := Number.maxInt

/-- Signed integers of 128 bits. -/
def int128 : Width where
  least := -0x80000000000000000000000000000000
  greatest := 0x7FFFFFFFFFFFFFFFFFFFFFFFFFFFFFFF

/-- Unsigned integers of 128 bits. -/
def word128 : Width where
  least := 0
  greatest := 0xFFFFFFFFFFFFFFFFFFFFFFFFFFFFFFFF

/-- An exact integer at a width. -/
def fit (w : Width) (n : Int) : Except Error Int :=
  if w.least ≤ n ∧ n ≤ w.greatest then .ok n else trap .overflow

/-- An exact natural number at a width. -/
def fitNat (w : Width) (n : Nat) : Except Error Nat :=
  if n ≤ w.greatest.toNat then .ok n else trap .overflow

theorem fit_eq_ok {w : Width} {n : Int} (h : w.least ≤ n ∧ n ≤ w.greatest) :
    w.fit n = .ok n :=
  if_pos h

theorem fitNat_eq_ok {w : Width} {n : Nat} (h : (n : Int) ≤ w.greatest) :
    w.fitNat n = .ok n :=
  if_pos (by omega)

theorem eq_of_fitNat_eq_ok {w : Width} {n m : Nat} (h : w.fitNat n = .ok m) : m = n := by
  unfold fitNat at h
  split at h
  · cases h
    rfl
  · cases h

end Width

/-! ## Division -/

/-- The quotient of natural numbers. -/
def quotient (a b : Nat) : Except Error Nat :=
  if b = 0 then trap .divisor else .ok (a / b)

/-- The remainder of natural numbers. -/
def remainder (a b : Nat) : Except Error Nat :=
  if b = 0 then trap .divisor else .ok (a % b)

theorem quotient_eq_ok {b : Nat} (h : b ≠ 0) (a : Nat) : quotient a b = .ok (a / b) :=
  if_neg h

theorem remainder_eq_ok {b : Nat} (h : b ≠ 0) (a : Nat) : remainder a b = .ok (a % b) :=
  if_neg h

theorem lt_of_remainder_eq_ok {a b r : Nat} (h : remainder a b = .ok r) : r < b := by
  unfold remainder at h
  split at h
  case isTrue => cases h
  case isFalse hb =>
    cases h
    exact Nat.mod_lt a (Nat.pos_of_ne_zero hb)

/-! ## Access by position -/

/-- The item in place `i`. -/
def item (xs : List α) (i : Nat) : Except Error α :=
  match xs[i]? with
  | some x => .ok x
  | none => trap .index

/-- The list with another item in place `i`. -/
def store (xs : List α) (i : Nat) (x : α) : Except Error (List α) :=
  if i < xs.length then .ok (xs.set i x) else trap .index

theorem item_eq_ok_iff {xs : List α} {i : Nat} {x : α} :
    item xs i = .ok x ↔ xs[i]? = some x := by
  unfold item trap
  split <;> simp_all

theorem exists_item_of_lt {xs : List α} {i : Nat} (h : i < xs.length) :
    ∃ x, item xs i = .ok x :=
  ⟨xs[i], item_eq_ok_iff.mpr (List.getElem?_eq_getElem h)⟩

theorem store_eq_ok {xs : List α} {i : Nat} (h : i < xs.length) (x : α) :
    store xs i x = .ok (xs.set i x) :=
  if_pos h

end FlatLisp.Machine
