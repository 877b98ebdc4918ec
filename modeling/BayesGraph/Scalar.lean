import BayesGraph.Double

/-!
# Scalars

Everything that is computed from a model is computed over a type of scalars: machine numbers,
machine numbers with derivatives, or exact reals. `Scalar` lists what such a type has to offer.
Comparisons answer with a truth value; on machine numbers all of them fail for a NaN.
-/

set_option autoImplicit false

namespace BayesGraph

/-- A type of scalars with elementary and special functions. -/
class Scalar (α : Type) extends Add α, Sub α, Mul α, Div α, Neg α where
  /-- The scalar that a double stands for. -/
  ofDouble : Double → α
  /-- The quotient of two integers, the second of which is not zero. -/
  ofQuotient : Int → Int → α
  /-- The circle constant; machine numbers have the nearest double. -/
  pi : α := ofDouble ⟨0x400921fb54442d18⟩
  /-- The double nearest to a scalar. -/
  toDouble : α → Double
  /-- The integer that a scalar equals, if there is one. -/
  toInt? : α → Option Int
  /-- Less than or equal. -/
  le : α → α → Bool
  /-- Less than. -/
  lt : α → α → Bool
  /-- Equal. -/
  eq : α → α → Bool
  exp : α → α
  log : α → α
  /-- `log (1 + x)`. -/
  logOnePlus : α → α
  /-- `exp x - 1`. -/
  expMinusOne : α → α
  sqrt : α → α
  sin : α → α
  cos : α → α
  abs : α → α
  /-- The greatest integer that is not greater. -/
  floor : α → α
  /-- The nearest integer, the even one of two. -/
  round : α → α
  /-- The nearest integer towards zero. -/
  trunc : α → α
  pow : α → α → α
  /-- `1 / (1 + exp (-x))`. -/
  logistic : α → α
  /-- `log |Γ(x)|`. -/
  logGamma : α → α
  /-- The distribution function of the standard normal distribution. -/
  normalCdf : α → α
  /-- The logarithm of that distribution function. -/
  logNormalCdf : α → α
  /-- The inverse of that distribution function. -/
  normalQuantile : α → α
  /-- The common value of scalars that are equal; their derivatives are averaged. -/
  common : α → List α → α
  /-- The scalar itself, but a zero of the same sign in place of a machine number that is too small
  to have all its digits. -/
  flush : α → α

namespace Scalar

variable {α : Type} [Scalar α]

/-- The scalar of an integer. -/
def ofInt (n : Int) : α := ofQuotient n 1

/-- The infinity below all numbers. -/
def bottom : α := ofDouble (Double.ofParts true (Nat.pow 2 52) 972)

/-- The infinity above all numbers. -/
def top : α := ofDouble Double.infinity

/-- A scalar that is not a number. -/
def nan : α := ofDouble Double.nan

/-- Is the scalar not a number? -/
def isNaN (x : α) : Bool := !eq x x

/-- `log (x / (1 - x))`. -/
def logit (x : α) : α := log (x / (ofInt 1 - x))

/-- The logit without loss of digits near one half, where the quotient is near one. -/
def accurateLogit (x : α) : α :=
  if lt x (ofDouble ⟨0x3fd3333333333333⟩) || lt (ofDouble ⟨0x3fe4cccccccccccd⟩) x then logit x
  else
    let s := ofInt 2 * (x - ofInt 1 / ofInt 2)
    logOnePlus s - logOnePlus (-s)

/-- The logarithm of `logistic x`, without cancellation. -/
def logLogistic (x : α) : α :=
  if lt x (ofInt 0) then x - logOnePlus (exp x) else -logOnePlus (exp (-x))

/-- Is it a positive number and not infinite? -/
def isPositive (x : α) : Bool := lt (ofInt 0) x && lt x top

/-- `x * log y`, and zero where `x` is zero and the logarithm is no number. -/
def timesLog (x y : α) : α :=
  if eq x (ofInt 0) && !isPositive y then ofInt 0 else x * log y

/-- `x * log (1 + y)`, and zero where `x` is zero and the logarithm is no number. -/
def timesLogOnePlus (x y : α) : α :=
  if eq x (ofInt 0) && !isPositive (ofInt 1 + y) then ofInt 0 else x * logOnePlus y

/-- The larger of two scalars; a NaN wins, and equal scalars share the derivative. -/
def max (x y : α) : α :=
  if isNaN x then x else if isNaN y then y
  else if lt x y then y else if lt y x then x else common x [y]

/-- The smaller of two scalars; a NaN wins, and equal scalars share the derivative. -/
def min (x y : α) : α :=
  if isNaN x then x else if isNaN y then y
  else if lt y x then y else if lt x y then x else common x [y]

/-- The extreme one of a list of scalars, where `better x y` says that `x` is to be preferred. A
NaN wins, and all scalars that equal the extreme one share the derivative. -/
def extreme (better : α → α → Bool) (x : α) (rest : List α) : α :=
  match (x :: rest).find? isNaN with
  | some y => y
  | none =>
    let best := rest.foldl (fun a y => if better y a then y else a) x
    match (x :: rest).filter (eq best) with
    | y :: more => common y more
    | [] => best

/-- The sum of a list of scalars. -/
def sum (xs : List α) : α :=
  match xs with
  | [] => ofInt 0
  | x :: rest => rest.foldl (· + ·) x

/-- The product of a list of scalars. -/
def product (xs : List α) : α :=
  match xs with
  | [] => ofInt 1
  | x :: rest => rest.foldl (· * ·) x

/-- The product of two scalars, small machine numbers being flushed. -/
def flushedProduct (x y : α) : α := flush (flush x * flush y)

/-- `acc * x ^ n` by repeated squaring; an absent `acc` stands for one. -/
def naturalPower (acc : Option α) (x : α) (n : Nat) : α :=
  let next :=
    if n % 2 = 0 then acc
    else match acc with
      | none => some x
      | some a => some (flushedProduct a x)
  if n < 2 then next.getD (ofInt 1)
  else naturalPower next (flushedProduct x x) (n / 2)
termination_by n
decreasing_by omega

/-- An integral power; with a negative exponent it is one over a power. -/
def integralPower (x : α) (n : Int) : α :=
  let p := naturalPower none x n.natAbs
  if n < 0 then flush (ofInt 1 / flush p) else p

/-- The arithmetic mean. -/
def mean (xs : List α) : α := sum xs / ofInt xs.length

/-- The standard deviation with the number of scalars less one as the divisor. -/
def deviation (xs : List α) : α :=
  let m := mean xs
  sqrt (sum (xs.map fun x => (x - m) * (x - m)) / ofInt ((xs.length : Int) - 1))

/-- One for true and zero for false. -/
def indicator (b : Bool) : α := if b then ofInt 1 else ofInt 0

end Scalar

end BayesGraph
