/-
FlatLisp.Proofs.Equality — the two equalities of values.

Structural equality goes down both values at once. What it finds can be said of the values
as they stand: at every position, that is a path through nested lists, either both have a
part and the two parts match, or neither has one (`equal_iff_alike`). Parts match by what
they show at the outside, lists by their lengths; the unspecified value matches nothing.
That is one induction, and the rest is read off position by position: equality is
symmetric because matching is, and a value equals itself if and only if all that occurs in
it matches itself (`alike_self_iff`). Identity looks at the outside only, and what is
identical is equal.
-/
import FlatLisp.Proofs.Contents
import FlatLisp.Proofs.NumericEquality

namespace FlatLisp.Value

variable {H : Type} {R : Number → Number → Prop} {a b v w : Value H}

/-! ## Positions -/

/-- The part of a value at a position, which lists the places of the items on the way. -/
def part? : Value H → List Nat → Option (Value H)
  | v, [] => some v
  | list items, i :: position => items[i]?.bind (·.part? position)
  | _, _ :: _ => none

@[simp] theorem part?_nil (v : Value H) : v.part? [] = some v := by
  cases v <;> rfl

@[simp] theorem part?_list_cons (items : List (Value H)) (i : Nat) (position : List Nat) :
    (list items).part? (i :: position) = items[i]?.bind (·.part? position) := rfl

theorem part?_cons_of_not_list (hv : ∀ items, v ≠ list items) (i : Nat) (position : List Nat) :
    v.part? (i :: position) = none := by
  cases v with
  | list items => exact absurd rfl (hv items)
  | _ => rfl

/-- What occurs in a value is its part at some position. -/
theorem occurs_iff_part? : w.Occurs v ↔ ∃ position, v.part? position = some w := by
  constructor
  · intro h
    induction h with
    | here => exact ⟨[], part?_nil w⟩
    | item hv _ ih =>
      obtain ⟨position, hposition⟩ := ih
      obtain ⟨i, hi⟩ := List.getElem?_of_mem hv
      exact ⟨i :: position, by rw [part?_list_cons, hi, Option.bind_some, hposition]⟩
  · rintro ⟨position, h⟩
    induction position generalizing v with
    | nil =>
      cases (part?_nil v).symm.trans h
      exact .here
    | cons i position ih =>
      cases v with
      | list items =>
        obtain ⟨item, hitem, hpart⟩ := Option.bind_eq_some_iff.mp h
        exact .item (List.mem_of_getElem? hitem) (ih hpart)
      | _ => cases h

/-! ## Values that match at every position -/

/-- Two values match at the outside, with `R` as the condition on numbers. -/
def Matches (R : Number → Number → Prop) : Value H → Value H → Prop
  | number x, number y => R x y
  | bool a, bool b => a = b
  | symbol a, symbol b => a = b
  | list as, list bs => as.length = bs.length
  | procedure p, procedure q => p.serial = q.serial
  | _, _ => False

/-- At every position the parts of the two values match, or neither value has a part. -/
def Alike (R : Number → Number → Prop) (a b : Value H) : Prop :=
  ∀ position, Option.Rel (Matches R) (a.part? position) (b.part? position)

theorem Matches.symm (hR : ∀ {x y}, R x y → R y x) (h : v.Matches R w) : w.Matches R v := by
  cases v <;> cases w <;> simp_all [Matches]

theorem Alike.symm (hR : ∀ {x y}, R x y → R y x) (h : a.Alike R b) : b.Alike R a := by
  intro position
  have hparts := h position
  generalize a.part? position = part at hparts ⊢
  generalize b.part? position = part' at hparts ⊢
  cases hparts with
  | some h => exact .some (h.symm hR)
  | none => exact .none

theorem Alike.outside (h : a.Alike R b) : a.Matches R b := by
  have hparts := h []
  rw [part?_nil, part?_nil] at hparts
  cases hparts with
  | some h => exact h

/-- A value is like itself if all that occurs in it matches itself. -/
theorem alike_self_iff : a.Alike R a ↔ ∀ v : Value H, v.Occurs a → v.Matches R v := by
  constructor
  · intro h v hv
    obtain ⟨position, hposition⟩ := occurs_iff_part?.mp hv
    have hparts := h position
    rw [hposition] at hparts
    cases hparts with
    | some h => exact h
  · intro h position
    cases hposition : a.part? position with
    | none => exact .none
    | some v => exact .some (h v (occurs_iff_part?.mpr ⟨position, hposition⟩))

/-- Outside lists there is one position. -/
theorem alike_iff_matches (ha : ∀ items, a ≠ list items) : a.Alike R b ↔ a.Matches R b := by
  constructor
  · exact Alike.outside
  · intro h position
    -- only a list matches a list
    have hb : ∀ items, b ≠ list items := by
      rintro items rfl
      cases a <;> simp_all [Matches]
    cases position with
    | nil =>
      rw [part?_nil, part?_nil]
      exact .some h
    | cons i position =>
      rw [part?_cons_of_not_list ha, part?_cons_of_not_list hb]
      exact .none

/-- The positions in a list are the positions in its items, each behind the place of the item. -/
theorem alike_list_iff {as bs : List (Value H)} : (list as).Alike R (list bs) ↔
    as.length = bs.length ∧
      ∀ i, ∀ ha : i < as.length, ∀ hb : i < bs.length, as[i].Alike R bs[i] := by
  constructor
  · intro h
    refine ⟨h.outside, fun i ha hb position => ?_⟩
    simpa [ha, hb] using h (i :: position)
  · rintro ⟨hlen, hitems⟩ position
    cases position with
    | nil => exact .some hlen
    | cons i position =>
      rcases Nat.lt_or_ge i as.length with ha | ha
      · have hb : i < bs.length := hlen ▸ ha
        simpa [ha, hb] using hitems i ha hb position
      · have hb : bs.length ≤ i := hlen ▸ ha
        simp [ha, hb]

/-! ## Structural equality -/

theorem equalItems_iff {as bs : List (Value H)} : equalItems as bs = true ↔
    as.length = bs.length ∧
      ∀ i, ∀ ha : i < as.length, ∀ hb : i < bs.length, as[i].equal bs[i] = true := by
  have hforall : equalItems as bs = true ↔ List.Forall₂ (fun a b => a.equal b = true) as bs := by
    induction as generalizing bs with
    | nil => cases bs <;> simp [equalItems]
    | cons a as ih => cases bs <;> simp [equalItems, ih]
  simpa using hforall.trans List.forall₂_iff_get

theorem equal_iff_alike_of_not_list (ha : ∀ items, a ≠ list items) :
    a.equal b = true ↔ a.Alike Number.SameUpToRounding b := by
  rw [alike_iff_matches ha]
  cases a <;> cases b <;> simp_all [equal, Matches, Number.equal_iff]

/-- **What equality finds.** Two values are equal if and only if at every position they have
parts that match, or neither has a part. -/
theorem equal_iff_alike (a b : Value H) :
    a.equal b = true ↔ a.Alike Number.SameUpToRounding b := by
  cases a with
  | list as =>
    cases b with
    | list bs =>
      have hitems : ∀ i, ∀ ha : i < as.length, ∀ hb : i < bs.length,
          (as[i].equal bs[i] = true ↔ as[i].Alike Number.SameUpToRounding bs[i]) := by
        intro i ha hb
        have hsize : sizeOf as[i] < sizeOf as := List.sizeOf_lt_of_mem (List.getElem_mem ha)
        exact equal_iff_alike as[i] bs[i]
      rw [equal, equalItems_iff, alike_list_iff]
      simp only [hitems]
    | _ => exact iff_of_false (by simp [equal]) Alike.outside
  | _ => exact equal_iff_alike_of_not_list (by simp)
termination_by sizeOf a

theorem equal_comm (a b : Value H) : a.equal b = b.equal a := by
  rw [Bool.eq_iff_iff, equal_iff_alike, equal_iff_alike]
  exact ⟨.symm .symm, .symm .symm⟩

theorem matches_self_iff : v.Matches Number.SameUpToRounding v ↔
    v ≠ unspecified ∧ ∀ x, v = float x → x.isNaN = false := by
  cases v with
  | number n =>
    show Number.SameUpToRounding n n ↔ _
    rw [← Number.equal_iff, Number.equal_self_iff]
    cases n with
    | int n => exact iff_of_true (Binary64.isNaN_ofInt _) ⟨nofun, nofun⟩
    | float x => simp [Number.isNaN, Number.toFloat]
  | _ => simp [Matches]

/-- A value equals itself unless the unspecified value or not-a-number occurs in it. -/
theorem equal_self_iff : a.equal a = true ↔
    ¬ unspecified.Occurs a ∧ ∀ x, (float x).Occurs a → x.isNaN = false := by
  rw [equal_iff_alike, alike_self_iff]
  simp only [matches_self_iff]
  constructor
  · intro h
    exact ⟨fun ha => (h _ ha).1 rfl, fun x ha => (h _ ha).2 x rfl⟩
  · rintro ⟨hunspecified, hnan⟩ v hv
    refine ⟨?_, ?_⟩
    · rintro rfl
      exact hunspecified hv
    · rintro x rfl
      exact hnan x hv

/-! ## Identity -/

theorem identical_number (x y : Number) : (number x : Value H).identical (number y)
    = (x.isFloat == y.isFloat && x.equal y) := by
  cases x <;> cases y <;> rfl

theorem identical_comm (a b : Value H) : a.identical b = b.identical a := by
  cases a with
  | number x =>
    cases b with
    | number y => rw [identical_number, identical_number, Number.equal_comm, Bool.beq_comm]
    | _ => simp [identical]
  | _ => cases b <;> simp [identical, Bool.beq_comm, Bool.and_comm]

/-- What is identical is equal. -/
theorem equal_of_identical (h : a.identical b = true) : a.equal b = true := by
  cases a with
  | number x =>
    cases b with
    | number y =>
      rw [identical_number, Bool.and_eq_true] at h
      exact h.2
    | _ => simp [identical] at h
  | list as =>
    cases b with
    | list bs =>
      simp only [identical, Bool.and_eq_true, List.isEmpty_iff] at h
      rw [h.1, h.2]
      rfl
    | _ => simp [identical] at h
  | _ => cases b <;> simp_all [identical, equal]

/-! ## Both equalities -/

/-- **The two equalities are coherent.** Both are symmetric, what is identical is equal, and a
value equals itself if and only if neither not-a-number nor the unspecified value occurs in it.
Values are equal if and only if they have lists of the same lengths at the same positions, and
at all other positions the same symbols, booleans or procedures, or numbers of one value; only
an integer above `2 ^ 53` in size may stand where the other value has its nearest double. -/
theorem equalities_are_coherent (a b : Value H) :
    a.equal b = b.equal a ∧ a.identical b = b.identical a ∧
      (a.identical b = true → a.equal b = true) ∧
      (a.equal a = true ↔
        ¬ unspecified.Occurs a ∧ ∀ x, (float x).Occurs a → x.isNaN = false) ∧
      (a.equal b = true ↔ a.Alike Number.SameUpToRounding b) :=
  ⟨equal_comm a b, identical_comm a b, equal_of_identical, equal_self_iff, equal_iff_alike a b⟩

/-- An integer that equals its nearest double, which is smaller by one. -/
theorem equality_rounds_integers :
    (int 9007199254740993 : Value Empty).equal (float 9007199254740992.0) = true ∧
      ¬ (int 9007199254740993 : Value Empty).Alike Number.SameValue
        (float 9007199254740992.0) := by
  refine ⟨rfl, fun h => ?_⟩
  have hsame : Number.SameValue (.int 9007199254740993) (.float 9007199254740992.0) := h.outside
  cases hsame with
  | finite _ _ hvalue =>
    have hdouble : (9007199254740992.0 : Float) = Binary64.ofInt 9007199254740992 := rfl
    change (((9007199254740993 : Int64).toInt : Int) : ℚ) = Binary64.exactValue _ at hvalue
    rw [hdouble, Binary64.exactValue_ofInt (by decide)] at hvalue
    exact absurd (Int.cast_injective hvalue) (by decide)

end FlatLisp.Value
