/-!
# Elementary functions near zero

`logOnePlus` and `expMinusOne` keep their accuracy where adding or subtracting one would lose
digits, by correcting for the rounding of `1 + x` and of `exp x`. The module also rounds to
integers, a half to the even one, and evaluates polynomials.
-/

set_option autoImplicit false

namespace BayesGraph.Numeric

/-- `log (1 + x)`. -/
def logOnePlus (x : Float) : Float :=
  let u := 1 + x
  if u == 1 then x
  else if u.isInf then u.log
  else u.log * x / (u - 1)

/-- `exp x - 1`. -/
def expMinusOne (x : Float) : Float :=
  let u := x.exp
  if u == 1 then x
  else if u.isInf || u - 1 == -1 then u - 1
  else (u - 1) * x / u.log

/-- The integer towards zero. -/
def truncate (x : Float) : Float := if x < 0 then x.ceil else x.floor

/-- The nearest integer, the even one of two. -/
def roundHalfEven (x : Float) : Float :=
  let low := x.floor
  let gap := x - low
  if gap < 0.5 then low
  else if gap > 0.5 then low + 1
  else if gap == 0.5 then (if (low / 2).floor * 2 == low then low else low + 1)
  else x

/-- The polynomial with the given coefficients, the highest power first. -/
def polynomial (coefficients : List Float) (x : Float) : Float :=
  coefficients.foldl (fun acc c => acc * x + c) 0

/-- The polynomial with leading coefficient one and the given further coefficients. -/
def monic (coefficients : List Float) (x : Float) : Float :=
  coefficients.foldl (fun acc c => acc * x + c) 1

end BayesGraph.Numeric
