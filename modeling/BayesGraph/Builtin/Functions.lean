import BayesGraph.Builtin.Rounding

/-!
# Built-in functions

The functions that every model may call, for both sets of rules. Functions of integers that have
integral values compute with words; all others work on reals.
-/

set_option autoImplicit false

namespace BayesGraph.Builtin

variable {α : Type} [Scalar α]

/-- The result of a function of one value. -/
def unary (f : Value α → Except EvalError (Value α)) : Operation α
  | _, [x] => f x
  | _, _ => .error .wrongKind

/-- The result of a function of two values. -/
def binary (f : Value α → Value α → Except EvalError (Value α)) : Operation α
  | _, [x, y] => f x y
  | _, _ => .error .wrongKind

/-- A function of one value that works entry by entry. While constants are folded, it accepts a
place for the result as a second argument. -/
def entrywise (rules : Rules) (f : Value α → Except EvalError (Value α)) : Operation α
  | _, [x] => f x
  | _, [x, place] =>
    match rules with
    | .folding => do store rules place (← f x)
    | .density => .error .wrongKind
  | _, _ => .error .wrongKind

/-- A function of a real, applied to every entry. -/
def elementwise (rules : Rules) (f : α → α) : Operation α := entrywise rules (Value.lift rules f)

/-- A function of a real that a density applies to integers of any size, converted to reals. -/
def converting (rules : Rules) (f : α → α) : Operation α :=
  entrywise rules fun x =>
    match rules, x with
    | .density, .number n => do
      return .array .density (.scalar (Rules.unary .density f (← Value.ofNumber n)))
    | _, x => x.lift rules f

/-- A function of a real that has no value for an integer when a density is evaluated. An integer
that is too large for a word is refused as such where `sized` is set. -/
def realsOnly (rules : Rules) (sized : Bool) (f : α → α) : Operation α :=
  entrywise rules fun x =>
    match rules, x with
    | .density, .number (.int n) =>
      .error (if sized && !Word.fitsSigned n then .overflow else .wrongKind)
    | .density, .word _ _ => .error .wrongKind
    | _, x => x.lift rules f

/-- A function that keeps integers integral: `onInt` and `onReal` are its two sides. It drops digits
or the sign of a real, for which nothing has to be flushed. -/
def integral (rules : Rules) (onInt : Int → Int) (onReal : α → α) (x : Value α) :
    Except EvalError (Value α) := do
  match ← computed rules x with
  | .number (.int n) => return .int (onInt n)
  | .word r w => return .word r (w.like (onInt w.toInt))
  | v => return .array rules ((← v.argument rules).map onReal)

/-- The logarithm of the gamma function. While constants are folded, its value at the infinity below
all numbers is that infinity. -/
def logGamma (rules : Rules) (x : α) : α :=
  if rules = .folding && Scalar.eq x Scalar.bottom then x else Scalar.logGamma x

/-- The logit, which is more accurate while constants are folded. -/
def logit (rules : Rules) (x : α) : α :=
  match rules with
  | .folding => Scalar.accurateLogit x
  | .density => Scalar.logit x

/-- A number as a scalar. -/
def one : α := Scalar.ofInt 1

/-- All built-in functions by name. -/
def operations (rules : Rules) : List (String × Operation α) :=
  [("abs", entrywise rules (integral rules (fun n => (n.natAbs : Int)) Scalar.abs)),
    ("cloglog", unary fun x => do
      (← x.negate).lift rules fun t => Scalar.log (-Scalar.logOnePlus t)),
    ("cos", elementwise rules Scalar.cos),
    ("equals", binary (Value.equals rules)),
    ("exp", elementwise rules Scalar.exp),
    ("icloglog", unary (Value.lift rules fun x => -Scalar.expMinusOne (-Scalar.exp x))),
    ("ilogit", converting rules Scalar.logistic),
    ("inprod", innerProduct rules),
    ("log", elementwise rules Scalar.log),
    ("logfact", unary fun x => do
      (← x.add (.real one)).lift rules (logGamma rules)),
    ("loggam", converting rules (logGamma rules)),
    ("logit", elementwise rules (logit rules)),
    ("logistic", converting rules Scalar.logistic),
    ("max", extreme rules max Scalar.max maximum),
    ("mean", mean rules),
    ("min", extreme rules min Scalar.min minimum),
    ("phi", realsOnly rules true Scalar.normalCdf),
    ("pow", binary (Value.power rules)),
    ("probit", realsOnly rules false Scalar.normalQuantile),
    ("prod", reduction rules Scalar.product),
    ("round", rounding rules),
    ("sd", deviation rules),
    ("sin", elementwise rules Scalar.sin),
    ("sqrt", elementwise rules Scalar.sqrt),
    ("step", unary fun x => x.atLeast rules (.int 0)),
    ("sum", reduction rules Scalar.sum),
    ("trunc", entrywise rules (integral rules id Scalar.trunc))]

/-- The built-in functions as callable objects. Their signatures are not told. -/
def callables (rules : Rules) : List (String × Callable α) :=
  (operations rules).map fun e => (e.1, { meaning := e.2 })

end BayesGraph.Builtin
