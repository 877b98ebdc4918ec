import BayesGraph.Registry

/-!
# Further functions and families

Objects that can be registered beside the built-in ones: functions that show each kind of
signature, functions that leave their domain, and families that are not built in. Some objects are
not fit for registration, and are refused.
-/

set_option autoImplicit false

namespace BayesGraph.Extras

open Scalar

variable {α : Type} [Scalar α]

/-- A function with a signature. -/
def function (signature : Signature) (meaning : Operation α) : Callable α :=
  ⟨.function, some signature, meaning⟩

/-- An object that can not be called. -/
def inert (form : CallableForm) : Callable α := ⟨form, none, fun _ _ => .error .wrongKind⟩

/-- A function of one value, whatever the mode of the call. -/
def ofOne (f : Value α → Except EvalError (Value α)) : Operation α
  | _, [x] => f x
  | _, _ => .error .wrongKind

/-- The answer of a comparison of two values that a function branches on. Branching on several
answers is an error, and so is branching on a computed value while a density is traced. -/
def decisive (mode : CallMode) (x y : Value α) (t : Tensor Bool) : Except EvalError Bool :=
  match t.entries with
  | [b] =>
    if mode = .traced ∧ !(x.isKnown && y.isKnown) then .error .tracedBranch else .ok b
  | _ => .error .badValue

/-- The logarithm, which refuses numbers that are not positive. -/
def checkedLog : Operation α
  | mode, [x] => do
    let zero : Value α := .int 0
    let t ← Value.relate Value.numbersLe le x zero
    if ← decisive mode x zero t then throw (.domain "log of non-positive value")
    else x.lift .density log
  | _, _ => .error .wrongKind

/-- One over a number that is read off as a known one. -/
def reciprocal : Operation α
  | mode, [x] => do
    let t ← x.toScalar
    if mode = .traced ∧ !x.isKnown then throw .tracedNumber
    if eq t (ofInt 0) then throw .zeroDivision
    else return .real (ofDouble (toDouble (ofInt 1 / t)))
  | _, _ => .error .wrongKind

/-- The first argument that no other one exceeds; the parts of an array along its first dimension
count as arguments. -/
def largest : Operation α
  | mode, [.array r t] =>
    match t.rows? with
    | some rows => pick mode (rows.map (Value.array r))
    | none => .error .wrongKind
  | _, [] | _, [_] => .error .wrongKind
  | mode, xs => pick mode xs
where
  /-- Goes through the arguments and keeps the largest so far. -/
  pick (mode : CallMode) : List (Value α) → Except EvalError (Value α)
    | [] => .error .badValue
    | x :: rest => rest.foldlM (fun best y => do
        let t ← Value.relate Value.numbersLt lt best y
        return if ← decisive mode best y t then y else best) x

/-- The functions and other objects by key. -/
def callables : List (String × Callable α) :=
  [("softplus", function [.required "x"] (ofOne fun x =>
      x.lift .density fun t => logOnePlus (exp t))),
    ("checked_log", function [.required "x"] checkedLog),
    ("reciprocal", function [.required "x"] reciprocal),
    ("add2", function [.required "x", .required "y"] (Builtin.binary Value.add)),
    ("opt", function [.required "x", .optional "y" "1.0"] fun _ xs =>
      match xs with
      | [x] => x.mul (.real (ofInt 1))
      | [x, y] => x.mul y
      | _ => .error .wrongKind),
    ("varargs", function [.variadic "xs"] fun _ xs => xs.foldlM Value.add (.real (ofInt 0))),
    ("kwonly", function [.required "x", .keyword "k"] fun _ _ => .error .wrongKind),
    ("gen", inert .suspending),
    ("coro", inert .suspending),
    ("agen", function [.required "x"] fun _ _ => .error .wrongKind),
    ("klass", inert .typeObject),
    ("number", inert .notCallable),
    ("none", inert .notCallable),
    ("builtin_max", ⟨.function, none, largest⟩),
    ("scaler", function [.required "x"] (ofOne fun x => (Value.real (ofInt 3)).mul x)),
    ("partial_add2", function [.required "y"] (ofOne fun y => (Value.real (ofInt 1)).add y)),
    ("lambda1", function [.required "a"] (ofOne fun a => a.mul a)),
    ("raise_domain", function [.required "x"] (ofOne fun _ => .error (.domain "always"))),
    ("raise_value", function [.required "x"] (ofOne fun _ => .error .badValue))]

/-- The half-Cauchy distribution with a scale. -/
def halfCauchy : Family α :=
  Builtin.family "dhalfcauchy" ["s"]
    (Builtin.of1 fun x s =>
      Builtin.restrict (le (ofInt 0) x)
        (log (ofInt 2 / (pi * s)) - logOnePlus (x / s * (x / s))))
    (Builtin.fixedSupport (some 0) none) .positive none

/-- The exponential distribution reversed: it lies below zero. -/
def upperExponential : Family α :=
  Builtin.family "duexp" ["rate"]
    (Builtin.of1 fun x rate => Builtin.restrict (le x (ofInt 0)) (log rate + rate * x))
    (Builtin.fixedSupport none (some 0)) .lower
    (some (Builtin.of1 fun x rate => if le x (ofInt 0) then rate * x else ofInt 0))

/-- The geometric distribution. -/
def geometric : Family α :=
  Builtin.discreteFamily "dgeom" ["p"]
    (Builtin.of1 fun x p =>
      Builtin.restrict (Builtin.isWhole x && le (ofInt 0) x) (log p + x * logOnePlus (-p)))
    (Builtin.fixedSupport (some 0) none)

/-- A family of the given name whose functions are as they should be. -/
def plain (name : String) (params : List String) : Family α :=
  Builtin.family name params (fun _ _ => ofInt 0) (Builtin.fixedSupport none none) .real none

/-- A family with a density of another signature. -/
def withDensity (f : Family α) (form : CallableForm) (signature : Option Signature) : Family α :=
  { f with logPdf := ⟨form, signature, f.logPdf.meaning⟩ }

/-- A family with a support of another signature. -/
def withSupport (f : Family α) (signature : Signature) : Family α :=
  { f with support := ⟨.function, some signature, f.support.meaning⟩ }

/-- A family with a distribution function of the given signature. -/
def withCdf (f : Family α) (signature : Signature) : Family α :=
  { f with logCdf := some ⟨.function, some signature, fun _ _ => ofInt 0⟩ }

/-- The families and other objects by key. -/
def families : List (String × FamilyOffer α) :=
  [("dhalfcauchy", .family halfCauchy),
    ("duexp", .family upperExponential),
    ("dgeom", .family geometric),
    ("dbadpdf", .family (withDensity (plain "dbadpdf" ["a", "b"]) .function
      (some [.required "x", .required "s"]))),
    ("dbadsupport", .family (withSupport (plain "dbadsupport" ["s"])
      [.required "x", .required "y"])),
    ("dbadcdf", .family (withCdf (plain "dbadcdf" ["s"]) [.required "x"])),
    ("dclass", .family (withDensity (plain "dclass" ["s"]) .typeObject none)),
    ("dnocall", .family (withDensity (plain "dnocall" ["s"]) .notCallable none)),
    ("badname", .family (plain "d bad" ["s"])),
    ("fnclash", .family (plain "exp" ["s"])),
    ("dnorm", .family (plain "dnorm" ["mu", "tau"])),
    ("notfamily", .other "function"),
    ("nonefamily", .other "NoneType")]

end BayesGraph.Extras
