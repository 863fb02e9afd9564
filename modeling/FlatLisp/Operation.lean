/-
FlatLisp.Operation — the builtin procedures by name.

An operation is a builtin whose answer depends on its arguments alone. Three
builtins are not operations: `print` shows its arguments, and `apply` and
`map` call other procedures. `Builtin.registry` lists all of them in the order
in which a standard environment defines them.
-/
import FlatLisp.Arity

namespace FlatLisp

/-! ## Families of operations -/

/-- Chained numeric comparisons. -/
inductive Comparison where
  | greater | less | greaterEqual | lessEqual | equal
deriving DecidableEq, Repr

/-- The name of a comparison. -/
def Comparison.name : Comparison → String
  | greater => ">" | less => "<" | greaterEqual => ">=" | lessEqual => "<=" | equal => "="

/-- Searches for an extreme member of a sequence. -/
inductive Extreme where
  | max | min
deriving DecidableEq, Repr

/-- The name of a search. -/
def Extreme.name : Extreme → String
  | max => "max" | min => "min"

/-- Questions about the kind of a value. -/
inductive Kind where
  | list | null | number | procedure | symbol
deriving DecidableEq, Repr

/-- The name of a question. -/
def Kind.name : Kind → String
  | list => "list?" | null => "null?" | number => "number?" | procedure => "procedure?"
  | symbol => "symbol?"

/-- Questions about a double. -/
inductive FloatClass where
  | notANumber | infinite | finite
deriving DecidableEq, Repr

/-- The name of a question about a double. -/
def FloatClass.name : FloatClass → String
  | notANumber => "isnan" | infinite => "isinf" | finite => "isfinite"

/-- Ways of dropping the fraction of a number. -/
inductive Truncation where
  | floor | ceiling | towardZero
deriving DecidableEq, Repr

/-- The name of a truncation. -/
def Truncation.name : Truncation → String
  | floor => "floor" | ceiling => "ceil" | towardZero => "trunc"

/-- Real functions of one argument. -/
inductive RealFunction where
  | sqrt | exp | expm1 | log2 | log10 | log1p
  | sin | cos | tan | asin | acos | atan
  | sinh | cosh | tanh | asinh | acosh | atanh
  | fabs | degrees | radians | cbrt | exp2
  | erf | erfc | gamma | lgamma
deriving DecidableEq, Repr

/-- The name of a real function. -/
def RealFunction.name : RealFunction → String
  | sqrt => "sqrt" | exp => "exp" | expm1 => "expm1"
  | log2 => "log2" | log10 => "log10" | log1p => "log1p"
  | sin => "sin" | cos => "cos" | tan => "tan"
  | asin => "asin" | acos => "acos" | atan => "atan"
  | sinh => "sinh" | cosh => "cosh" | tanh => "tanh"
  | asinh => "asinh" | acosh => "acosh" | atanh => "atanh"
  | fabs => "fabs" | degrees => "degrees" | radians => "radians"
  | cbrt => "cbrt" | exp2 => "exp2"
  | erf => "erf" | erfc => "erfc" | gamma => "gamma" | lgamma => "lgamma"

/-- Real functions of two arguments. -/
inductive RealFunction₂ where
  | atan2 | copysign | fmod | remainder
deriving DecidableEq, Repr

/-- The name of a real function of two arguments. -/
def RealFunction₂.name : RealFunction₂ → String
  | atan2 => "atan2" | copysign => "copysign" | fmod => "fmod" | remainder => "remainder"

/-! ## Operations -/

/-- A builtin procedure whose answer depends on its arguments alone. -/
inductive Operation where
  | sum | difference | product | quotient
  | compare (c : Comparison)
  | abs | expt
  | extreme (e : Extreme)
  | round
  | append | car | cdr | cons | length | list
  | begin
  | identical | equal | not
  | ask (kind : Kind)
  | real (f : RealFunction)
  | real₂ (f : RealFunction₂)
  | log | pow | hypot
  | truncate (t : Truncation)
  | classify (c : FloatClass)
  | factorial | gcd | lcm | isqrt | comb | perm
  | ldexp | frexp | modf
  | fsum | prod | dist | isclose
deriving DecidableEq, Repr

/-- The name of an operation. -/
def Operation.name : Operation → String
  | sum => "+" | difference => "-" | product => "*" | quotient => "/"
  | compare c => c.name
  | abs => "abs" | expt => "expt"
  | extreme e => e.name
  | round => "round"
  | append => "append" | car => "car" | cdr => "cdr" | cons => "cons"
  | length => "length" | list => "list"
  | begin => "begin"
  | identical => "eq?" | equal => "equal?" | not => "not"
  | ask kind => kind.name
  | real f => f.name
  | real₂ f => f.name
  | log => "log" | pow => "pow" | hypot => "hypot"
  | truncate t => t.name
  | classify c => c.name
  | factorial => "factorial" | gcd => "gcd" | lcm => "lcm" | isqrt => "isqrt"
  | comb => "comb" | perm => "perm"
  | ldexp => "ldexp" | frexp => "frexp" | modf => "modf"
  | fsum => "fsum" | prod => "prod" | dist => "dist" | isclose => "isclose"

/-- The numbers of arguments that an operation accepts. -/
def Operation.arity : Operation → Arity
  | sum | append | list | hypot | gcd | lcm => .any
  | difference | product | quotient | extreme _ | begin => .atLeast 1
  | compare _ => .atLeast 2
  | abs | car | cdr | length | not | ask _ | real _ | truncate _ | classify _ => .exact 1
  | factorial | isqrt | frexp | modf | fsum | prod => .exact 1
  | expt | cons | identical | equal | real₂ _ | pow | comb | ldexp | dist => .exact 2
  | round | log | perm => .range 1 2
  | isclose => .range 2 4

/-! ## Builtin procedures -/

/-- A procedure that standard environments define. -/
inductive Builtin where
  | operation (op : Operation)
  | print
  | apply
  | map
deriving DecidableEq, Repr

namespace Builtin

/-- The name of a builtin. -/
def name : Builtin → String
  | operation op => op.name
  | print => "print"
  | apply => "apply"
  | map => "map"

/-- The numbers of arguments that a builtin accepts. -/
def arity : Builtin → Arity
  | operation op => op.arity
  | print => .any
  | apply => .exact 2
  | map => .atLeast 2

/-- All builtin procedures, in the order of their definition. -/
def registry : List Builtin := [
  operation .sum, operation .difference, operation .product, operation .quotient,
  operation (.compare .greater), operation (.compare .less), operation (.compare .greaterEqual),
  operation (.compare .lessEqual), operation (.compare .equal),
  operation .abs, operation .expt, operation (.extreme .max), operation (.extreme .min),
  operation .round,
  operation .append, operation .car, operation .cdr, operation .cons, operation .length,
  operation .list, map,
  apply, operation .begin, print,
  operation .identical, operation .equal, operation .not,
  operation (.ask .list), operation (.ask .null), operation (.ask .number),
  operation (.ask .procedure), operation (.ask .symbol),
  operation (.real .sqrt), operation (.real .exp), operation (.real .expm1), operation .log,
  operation (.real .log2), operation (.real .log10), operation (.real .log1p),
  operation (.real .sin), operation (.real .cos), operation (.real .tan),
  operation (.real .asin), operation (.real .acos), operation (.real .atan),
  operation (.real₂ .atan2),
  operation (.real .sinh), operation (.real .cosh), operation (.real .tanh),
  operation (.real .asinh), operation (.real .acosh), operation (.real .atanh),
  operation (.truncate .floor), operation (.truncate .ceiling), operation (.truncate .towardZero),
  operation (.real .fabs), operation .pow, operation .hypot,
  operation (.real .degrees), operation (.real .radians),
  operation (.real₂ .copysign), operation (.real₂ .fmod),
  operation .factorial, operation .gcd,
  operation (.classify .notANumber), operation (.classify .infinite),
  operation (.classify .finite),
  operation (.real .cbrt), operation (.real .exp2), operation (.real₂ .remainder),
  operation .ldexp, operation .frexp, operation .modf,
  operation (.real .erf), operation (.real .erfc), operation (.real .gamma),
  operation (.real .lgamma),
  operation .lcm, operation .isqrt, operation .comb, operation .perm,
  operation .fsum, operation .prod, operation .dist, operation .isclose]

/-- The registry has every builtin. -/
theorem mem_registry (b : Builtin) : b ∈ registry := by
  cases b with
  | operation op =>
    cases op with
    | compare c => cases c <;> decide +kernel
    | extreme e => cases e <;> decide +kernel
    | ask kind => cases kind <;> decide +kernel
    | real f => cases f <;> decide +kernel
    | real₂ f => cases f <;> decide +kernel
    | truncate t => cases t <;> decide +kernel
    | classify c => cases c <;> decide +kernel
    | _ => decide +kernel
  | _ => decide +kernel

/-- No two builtins of the registry have the same name. -/
theorem nodup_names_registry : (registry.map name).Nodup := by
  decide +kernel

/-- The builtin of the given name. -/
def ofName? (name : String) : Option Builtin :=
  registry.find? (·.name == name)

end Builtin

end FlatLisp
