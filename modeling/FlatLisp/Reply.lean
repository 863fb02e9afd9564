/-
FlatLisp.Reply — what calling a procedure comes to.

A call ends with a value or an error, and the lines that it printed on the
way are kept in either case.
-/
import FlatLisp.Error

namespace FlatLisp

/-- The outcome of a call, and the lines that were printed, first one
first. -/
structure Reply (α : Type) where
  outcome : Except Error α
  printed : List String

namespace Reply

variable {α β : Type}

/-- The reply of something that prints nothing. -/
def ofExcept (outcome : Except Error α) : Reply α := ⟨outcome, []⟩

/-- A value without printing. -/
def ok (a : α) : Reply α := ofExcept (.ok a)

/-- An error without printing. -/
def error (e : Error) : Reply α := ofExcept (.error e)

/-- Goes on with the value of a reply; an error is final. -/
def andThen (r : Reply α) (next : α → Reply β) : Reply β :=
  match r.outcome with
  | .error e => ⟨.error e, r.printed⟩
  | .ok a => ⟨(next a).outcome, r.printed ++ (next a).printed⟩

/-- The replies for all elements in turn, up to the first error. The function
is told that its argument is an element. -/
def forEach : (xs : List α) → ((x : α) → x ∈ xs → Reply β) → Reply (List β)
  | [], _ => ok []
  | x :: xs, f =>
    (f x List.mem_cons_self).andThen fun y =>
      (forEach xs fun x' h => f x' (List.mem_cons_of_mem x h)).andThen fun ys => ok (y :: ys)

/-- The replies for all elements in turn, up to the first error. -/
def traverse (f : α → Reply β) (xs : List α) : Reply (List β) :=
  forEach xs fun x _ => f x

@[simp] theorem outcome_ofExcept (o : Except Error α) : (ofExcept o).outcome = o := rfl

@[simp] theorem printed_ofExcept (o : Except Error α) : (ofExcept o).printed = [] := rfl

@[simp] theorem ok_andThen (a : α) (next : α → Reply β) : (ok a).andThen next = next a := by
  simp [ok, ofExcept, andThen]

@[simp] theorem error_andThen (e : Error) (next : α → Reply β) :
    (error e).andThen next = error e := rfl

theorem andThen_assoc {γ : Type} (r : Reply α) (f : α → Reply β) (g : β → Reply γ) :
    (r.andThen f).andThen g = r.andThen fun a => (f a).andThen g := by
  obtain ⟨outcome, printed⟩ := r
  cases outcome with
  | error e => rfl
  | ok a =>
    cases h : (f a).outcome <;> simp [andThen, h, List.append_assoc]

@[simp] theorem traverse_nil (f : α → Reply β) : traverse f [] = ok [] := rfl

theorem traverse_cons (f : α → Reply β) (x : α) (xs : List α) :
    traverse f (x :: xs)
      = (f x).andThen fun y => (traverse f xs).andThen fun ys => ok (y :: ys) := rfl

theorem traverse_map {γ : Type} (g : γ → α) (f : α → Reply β) (xs : List γ) :
    traverse f (xs.map g) = traverse (fun x => f (g x)) xs := by
  induction xs with
  | nil => rfl
  | cons x xs ih => rw [List.map_cons, traverse_cons, traverse_cons, ih]

theorem traverse_congr {f g : α → Reply β} {xs : List α} (h : ∀ x ∈ xs, f x = g x) :
    traverse f xs = traverse g xs := by
  induction xs with
  | nil => rfl
  | cons x xs ih =>
    rw [traverse_cons, traverse_cons, h x List.mem_cons_self,
      ih fun y hy => h y (List.mem_cons_of_mem x hy)]

end Reply

end FlatLisp
