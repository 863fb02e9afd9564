/-
FlatLisp.Environment — one flat table of bindings.

There are no scopes: a definition anywhere replaces the one binding of its
name. Names are kept in the order of their characters, and two environments
with the same bindings are the same environment.
-/
import FlatLisp.Value
import Std.Data.ExtTreeMap

namespace FlatLisp

/-- A finite table from names to values. -/
structure Environment (H : Type) where
  bindings : Std.ExtTreeMap String (Value H)

namespace Environment

variable {H : Type}

/-! ## Bindings -/

/-- No bindings at all. -/
def empty : Environment H := ⟨∅⟩

/-- Binds a name, in place of the binding it may have had. -/
def define (env : Environment H) (name : String) (value : Value H) : Environment H :=
  ⟨env.bindings.insert name value⟩

/-- The value that a name is bound to. -/
def get? (env : Environment H) (name : String) : Option (Value H) :=
  env.bindings[name]?

/-- Whether a name is bound. -/
def contains (env : Environment H) (name : String) : Bool :=
  env.bindings.contains name

/-- The number of bindings. -/
def size (env : Environment H) : Nat :=
  env.bindings.size

/-- The bound names in order. -/
def names (env : Environment H) : List String :=
  env.bindings.keys

@[simp] theorem get?_empty (name : String) : (empty : Environment H).get? name = none := by
  simp [empty, get?]

theorem get?_define (env : Environment H) (name other : String) (value : Value H) :
    (env.define name value).get? other = if name = other then some value else env.get? other := by
  simp [define, get?, Std.ExtTreeMap.getElem?_insert]

@[simp] theorem get?_define_self (env : Environment H) (name : String) (value : Value H) :
    (env.define name value).get? name = some value := by
  simp [get?_define]

theorem contains_eq_isSome (env : Environment H) (name : String) :
    env.contains name = (env.get? name).isSome :=
  Std.ExtTreeMap.contains_eq_isSome_getElem?

theorem mem_names {env : Environment H} {name : String} :
    name ∈ env.names ↔ env.contains name = true := by
  simp [names, contains]

theorem size_define (env : Environment H) (name : String) (value : Value H) :
    (env.define name value).size = if env.contains name then env.size else env.size + 1 := by
  simp [define, size, contains, Std.ExtTreeMap.size_insert]

/-- Environments with the same bindings are equal. -/
theorem ext {a b : Environment H} (h : ∀ name, a.get? name = b.get? name) : a = b := by
  cases a; cases b
  simp only [mk.injEq]
  exact Std.ExtTreeMap.ext_getElem? h

/-! ## Standard environments -/

/-- The named constants. -/
def constants : List (String × Float) := [
  ("pi", 3.141592653589793),
  ("e", 2.718281828459045),
  ("tau", 6.283185307179586),
  ("inf", Binary64.infinity),
  ("nan", Binary64.nan)]

/-- Binds the builtins of a list, with serial numbers from `serial` on. -/
def defineBuiltins (env : Environment H) (serial : Nat) : List Builtin → Environment H
  | [] => env
  | b :: bs =>
    (env.define b.name (.procedure (.ofBuiltin serial b))).defineBuiltins (serial + 1) bs

/-- The environment that programs start from: every builtin, numbered in the
order of the registry, and the constants. -/
def standard : Environment H :=
  constants.foldl (fun env c => env.define c.1 (.float c.2))
    (defineBuiltins empty 0 Builtin.registry)

/-- Binds a host procedure under its name. -/
def register (env : Environment H) (serial : Nat) (name : String) (h : H) : Environment H :=
  env.define name (.procedure ⟨serial, name, .host h⟩)

end Environment

end FlatLisp
