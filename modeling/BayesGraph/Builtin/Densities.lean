import BayesGraph.Family

/-!
# Built-in families

Densities and distribution functions with the parameterizations that models use: scales are given
as precisions or rates. Outside its support a density is zero, so its logarithm is `-inf`.
-/

set_option autoImplicit false

namespace BayesGraph.Builtin

open Scalar

variable {α : Type} [Scalar α]

/-- An integer as a scalar. -/
def num (n : Int) : α := ofInt n

/-- The logarithm of a density that is zero where the condition fails. -/
def restrict (condition : Bool) (logP : α) : α := if condition then logP else bottom

/-- The standard deviation of a precision. -/
def scaleOf (tau : α) : α := num 1 / sqrt tau

/-- Is the scalar integral? -/
def isWhole (x : α) : Bool := eq x (floor x)

/-- The normal density with location `m` and scale `s`. -/
def normalLogPdf (x m s : α) : α :=
  let v := s * s
  (log (num 2 * pi * v) + (x - m) * (x - m) / v) / num (-2)

/-- Student's density with `k` degrees of freedom. -/
def studentLogPdf (x k m s : α) : α :=
  let z := (x - m) / s
  let h := k / num 2
  let h1 := h + num 1 / num 2
  logGamma h1 - logGamma h - log (s * s * pi * k) / num 2 - h1 * logOnePlus (z * z / k)

/-- The gamma density with shape `a` and a scale. -/
def gammaLogPdf (x a scale : α) : α :=
  let y := x / scale
  restrict (le (num 0) x) (timesLog (a - num 1) y - y - (logGamma a + log scale))

/-- The beta density; there is none unless both parameters are positive. -/
def betaLogPdf (x a b : α) : α :=
  if le a (num 0) || le b (num 0) then nan
  else if lt x (num 0) || lt (num 1) x then bottom
  else
    timesLog (a - num 1) x + timesLogOnePlus (b - num 1) (-x)
      - (logGamma a + logGamma b - logGamma (a + b))

/-- The chi-square density. -/
def chiSquareLogPdf (x k : α) : α :=
  let h := k / num 2
  if lt x (num 0) then bottom
  else -(logGamma h + k * log (num 2) / num 2) + ((h - num 1) * log x - x / num 2)

/-- The smaller of the larger: `x` moved into the interval from `a` to `b`. -/
def clip (x a b : α) : α := Scalar.min (Scalar.max x a) b

/-- A point function of one parameter. -/
def of1 (f : α → α → α) : PointFunction α
  | x, [a] => f x a
  | _, _ => nan

/-- A point function of two parameters. -/
def of2 (f : α → α → α → α) : PointFunction α
  | x, [a, b] => f x a b
  | _, _ => nan

/-- A point function of three parameters. -/
def of3 (f : α → α → α → α → α) : PointFunction α
  | x, [a, b, c] => f x a b c
  | _, _ => nan

/-- A routine whose first parameter is the point. -/
def pointRoutine (params : List String) (f : PointFunction α) : Routine (PointFunction α) :=
  ⟨.function, some (.required "x" :: params.map .required), f⟩

/-- A support that does not depend on the parameters. -/
def fixedSupport (lower upper : Option Int) : Routine (List (Value α) → Support α) :=
  ⟨.function, some [.variadic "params"],
    fun _ => ⟨lower.map fun n => .real (num n), upper.map fun n => .real (num n)⟩⟩

/-- A support that is computed from the parameters. -/
def dependentSupport (params : List String) (f : List (Value α) → Support α) :
    Routine (List (Value α) → Support α) :=
  ⟨.function, some (params.map .required), f⟩

/-- A family of a density and possibly a distribution function. -/
def family (name : String) (params : List String) (logPdf : PointFunction α)
    (support : Routine (List (Value α) → Support α)) (kind : SupportKind)
    (logCdf : Option (PointFunction α)) : Family α :=
  ⟨name, params, pointRoutine params logPdf, support, kind, false,
    logCdf.map (pointRoutine params)⟩

/-- A family of a mass function. -/
def discreteFamily (name : String) (params : List String) (logPdf : PointFunction α)
    (support : Routine (List (Value α) → Support α)) : Family α :=
  ⟨name, params, pointRoutine params logPdf, support, .integer, true, none⟩

/-- The families of continuous distributions. -/
def continuousFamilies : List (Family α) :=
  [family "dnorm" ["mu", "tau"] (of2 fun x mu tau => normalLogPdf x mu (scaleOf tau))
      (fixedSupport none none) .real
      (some (of2 fun x mu tau => logNormalCdf ((x - mu) / scaleOf tau))),
    family "dlnorm" ["mu", "tau"]
      (of2 fun x mu tau =>
        restrict (lt (num 0) x) (normalLogPdf (log x) mu (scaleOf tau) - log x))
      (fixedSupport (some 0) none) .positive
      (some (of2 fun x mu tau => logNormalCdf ((log x - mu) / scaleOf tau))),
    family "dt" ["mu", "tau", "k"] (of3 fun x mu tau k => studentLogPdf x k mu (scaleOf tau))
      (fixedSupport none none) .real none,
    family "dlogis" ["mu", "tau"]
      (of2 fun x mu tau =>
        let z := tau * (x - mu)
        log tau + logLogistic z + logLogistic (-z))
      (fixedSupport none none) .real
      (some (of2 fun x mu tau => logLogistic (tau * (x - mu)))),
    family "ddexp" ["mu", "tau"]
      (of2 fun x mu tau => log (tau / num 2) - tau * Scalar.abs (x - mu))
      (fixedSupport none none) .real none,
    family "dgamma" ["r", "mu"] (of2 fun x r mu => gammaLogPdf x r (num 1 / mu))
      (fixedSupport (some 0) none) .positive none,
    family "dexp" ["lambda"]
      (of1 fun x rate => restrict (le (num 0) x) (log rate - rate * x))
      (fixedSupport (some 0) none) .positive
      (some (of1 fun x rate => log (-expMinusOne (-rate * x)))),
    family "dchisqr" ["k"] (of1 chiSquareLogPdf) (fixedSupport (some 0) none) .positive none,
    family "dweib" ["v", "lambda"]
      (of2 fun x v rate =>
        restrict (le (num 0) x)
          (log v + log rate + timesLog (v - num 1) x - rate * pow x v))
      (fixedSupport (some 0) none) .positive
      (some (of2 fun x v rate => log (-expMinusOne (-rate * pow x v)))),
    family "dbeta" ["a", "b"] (of2 betaLogPdf) (fixedSupport (some 0) (some 1)) .unit none,
    family "dunif" ["a", "b"]
      (of2 fun x a b => restrict (le a x && le x b) (-log (b - a)))
      (dependentSupport ["a", "b"] fun ps => ⟨ps[0]?, ps[1]?⟩) .interval
      (some (of2 fun x a b => log ((clip x a b - a) / (b - a)))),
    family "dpar" ["alpha", "c"]
      (of2 fun x alpha c =>
        restrict (le c x) (log alpha + alpha * log c - (alpha + num 1) * log x))
      (dependentSupport ["alpha", "c"] fun ps => ⟨ps[1]?, none⟩) .lower
      (some (of2 fun x alpha c => log (-expMinusOne (alpha * (log c - log x)))))]

/-- The logarithm of a binomial coefficient, by gamma functions. -/
def logChoose (n k : α) : α :=
  logGamma (n + num 1) - logGamma (k + num 1) - logGamma (n - k + num 1)

/-- The families of discrete distributions. -/
def discreteFamilies : List (Family α) :=
  [discreteFamily "dbern" ["p"]
      (of1 fun x p =>
        restrict (eq x (num 0) || eq x (num 1))
          (timesLog x p + timesLogOnePlus (num 1 - x) (-p)))
      (fixedSupport (some 0) (some 1)),
    discreteFamily "dbin" ["p", "n"]
      (of2 fun x p n =>
        restrict (isWhole x && le (num 0) x && le x n)
          (logChoose n x + timesLog x p + timesLogOnePlus (n - x) (-p)))
      (dependentSupport ["p", "n"] fun ps => ⟨some (.real (num 0)), ps[1]?⟩),
    discreteFamily "dpois" ["lambda"]
      (of1 fun x rate =>
        restrict (isWhole x && le (num 0) x)
          (timesLog x rate - rate - logGamma (x + num 1)))
      (fixedSupport (some 0) none),
    discreteFamily "dnegbin" ["p", "r"]
      (of2 fun x p r =>
        restrict (isWhole x && le (num 0) x)
          (logGamma (x + r) - logGamma (x + num 1) - logGamma r + timesLog r p
            + timesLogOnePlus x (-p)))
      (fixedSupport (some 0) none)]

/-- All built-in families. -/
def families : List (Family α) := continuousFamilies ++ discreteFamilies

end BayesGraph.Builtin
