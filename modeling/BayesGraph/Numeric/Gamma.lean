import BayesGraph.Numeric.Elementary

/-!
# The logarithm of the gamma function

`logGamma` is `log |Γ(x)|`: arguments are shifted into `[2, 3)`, where a quotient of polynomials
is accurate, and from 13 up an asymptotic series takes over. `digamma` is its derivative.
-/

set_option autoImplicit false

namespace BayesGraph.Numeric

/-- The circle constant. -/
def pi : Float := 3.14159265358979323846

/-- The positive infinity. -/
def infinity : Float := 1 / 0

/-- `log Γ(2 + t)` for `0 ≤ t < 1`. -/
def logGammaCore (t : Float) : Float :=
  t * polynomial [-1.37825152569120859100e3, -3.88016315134637840924e4, -3.31612992738871184744e5,
      -1.16237097492762307383e6, -1.72173700820839662146e6, -8.53555664245765465627e5] t
    / monic [-3.51815701436523470549e2, -1.70642106651881159223e4, -2.20528590553854454839e5,
      -1.13933444367982507207e6, -2.53252307177582951285e6, -2.01889141433532773231e6] t

/-- Moves `x` into `[2, 3)` and collects the quotient of gamma values in `factor`. The number of
steps is bounded by `fuel`. -/
def shiftIntoCore (fuel : Nat) (x factor : Float) : Float × Float :=
  match fuel with
  | 0 => (x, factor)
  | k + 1 =>
    if x ≥ 3 then shiftIntoCore k (x - 1) (factor * (x - 1))
    else if x < 2 then shiftIntoCore k (x + 1) (factor / x)
    else (x, factor)

/-- The asymptotic series for arguments from 13 up. -/
def logGammaLarge (x : Float) : Float :=
  let q := (x - 0.5) * x.log - x + 0.91893853320467274178
  if x > 1.0e8 then q
  else
    let p := 1 / (x * x)
    if x ≥ 1000 then
      q + ((7.9365079365079365079365e-4 * p - 2.7777777777777777777778e-3) * p
        + 0.0833333333333333333333) / x
    else
      q + polynomial [8.11614167470508450300e-4, -5.95061904284301438324e-4,
        7.93650340457716943945e-4, -2.77777777730099687205e-3, 8.33333333333331927722e-2] p / x

/-- `log |Γ(x)|` for arguments from -34 up. -/
def logGammaRight (x : Float) : Float :=
  if x ≥ 13 then logGammaLarge x
  else
    let (y, factor) := shiftIntoCore 60 x 1
    factor.abs.log + logGammaCore (y - 2)

/-- `log |Γ(x)|`; it is infinite at zero and at the negative integers. -/
def logGamma (x : Float) : Float :=
  if x.isNaN then x
  else if x.isInf then infinity
  else if x ≤ 0 && x.floor == x then infinity
  else if x < -34 then
    let q := -x
    let nearest := (q + 0.5).floor
    let z := (q - nearest).abs
    (pi / (q * (pi * z).sin)).log - logGammaRight q
  else logGammaRight x

/-- The asymptotic series of the digamma function. -/
def digammaLarge (x : Float) : Float :=
  let p := 1 / (x * x)
  x.log - 0.5 / x
    - p * polynomial [8.33333333333333333333e-2, -2.10927960927960927961e-2,
        7.57575757575757575758e-3, -4.16666666666666666667e-3, 3.96825396825396825397e-3,
        -8.33333333333333333333e-3, 8.33333333333333333333e-2] p

/-- Moves `x` up to 10 and collects the differences of digamma values. -/
def digammaRight (fuel : Nat) (x acc : Float) : Float :=
  match fuel with
  | 0 => acc + digammaLarge x
  | k + 1 => if x < 10 then digammaRight k (x + 1) (acc - 1 / x) else acc + digammaLarge x

/-- The derivative of `log |Γ(x)|`. -/
def digamma (x : Float) : Float :=
  if x ≤ 0 then
    if x.floor == x then 0.0 / 0.0
    else digammaRight 11 (1 - x) 0 - pi / (pi * x).tan
  else digammaRight 11 x 0

end BayesGraph.Numeric
