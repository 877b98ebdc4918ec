import BayesGraph.Numeric.Normal
import BayesGraph.Scalar

/-!
# Machine numbers with derivatives

A `Dual` is a machine number together with its derivatives in the coordinates of a vector. A
number without derivatives is a constant. Each operation applies its chain rule, so that a
computation over duals yields the gradient along with the value.
-/

set_option autoImplicit false

namespace BayesGraph

/-- A number and its derivatives; the derivatives of a constant are left out. -/
structure Dual where
  value : Float
  gradient : List Float := []

namespace Dual

/-- The number of coordinate `k` of a vector of length `n`. -/
def coordinate (n k : Nat) (x : Float) : Dual :=
  ⟨x, (List.range n).map fun j => if j = k then 1 else 0⟩

/-- `a * g + b * h` for gradients; an absent gradient counts as zero. -/
def combine (a : Float) (g : List Float) (b : Float) (h : List Float) : List Float :=
  match g, h with
  | [], [] => []
  | g, [] => g.map (a * ·)
  | [], h => h.map (b * ·)
  | g, h => List.zipWith (fun x y => a * x + b * y) g h

/-- Applies a function with the given derivative. -/
def chain (f derivative : Float → Float) (x : Dual) : Dual :=
  match x.gradient with
  | [] => ⟨f x.value, []⟩
  | g => let d := derivative x.value; ⟨f x.value, g.map (d * ·)⟩

/-- A function that is constant between its jumps. -/
def step (f : Float → Float) (x : Dual) : Dual := ⟨f x.value, x.gradient.map fun _ => 0⟩

/-- The derivative of the absolute value, from the right. -/
def sign (x : Float) : Float := if x ≥ 0 then 1 else if x < 0 then -1 else 0

/-- Powers. A constant exponent zero has derivative zero, and so has a zero base in the
exponent. -/
def pow (x y : Dual) : Dual :=
  let v := x.value.pow y.value
  let base : List Float :=
    match x.gradient with
    | [] => []
    | g =>
      let d := if y.value == 0 then 0 else y.value * x.value.pow (y.value - 1)
      g.map (d * ·)
  let exponent : List Float :=
    match y.gradient with
    | [] => []
    | g =>
      let d := if x.value == 0 then 0 else x.value.log * v
      g.map (d * ·)
  ⟨v, combine 1 base 1 exponent⟩

/-- The logistic function; it is zero where the exponential overflows. -/
def logistic (x : Float) : Float := 1 / (1 + (-x).exp)

/-- The derivative of the logistic function. -/
def logisticSlope (x : Float) : Float := logistic x * (1 - logistic x)

/-- The least machine number with all its digits. -/
def leastNormal : Float := Float.ofBits 0x0010000000000000

/-- Smaller numbers become zeros of the same sign. -/
def flush (x : Float) : Float := if x.abs < leastNormal then x * 0 else x

/-- The derivative of the logarithm of the normal distribution function. -/
def logNormalCdfSlope (x : Float) : Float :=
  (-0.5 * x * x - 0.5 * (2 * Numeric.pi).log - Numeric.logNormalCdf x).exp

/-- The mean of gradients; an absent one counts as zero. -/
def average (gs : List (List Float)) : List Float :=
  let total := gs.foldl (fun acc g => combine 1 acc 1 g) []
  total.map (· / gs.length.toFloat)

/-- Derivatives are carried along by all operations on scalars. -/
instance : Scalar Dual where
  add x y := ⟨x.value + y.value, combine 1 x.gradient 1 y.gradient⟩
  sub x y := ⟨x.value - y.value, combine 1 x.gradient (-1) y.gradient⟩
  mul x y := ⟨x.value * y.value, combine y.value x.gradient x.value y.gradient⟩
  div x y :=
    let v := x.value / y.value
    ⟨v, combine (1 / y.value) x.gradient (-(v / y.value)) y.gradient⟩
  neg x := ⟨-x.value, x.gradient.map (- ·)⟩
  ofDouble x := ⟨x.toFloat, []⟩
  ofQuotient m n := ⟨(Double.ofQuotient m n).toFloat, []⟩
  toDouble x := Double.ofFloat x.value
  toInt? x := (Double.ofFloat x.value).toInt?
  le x y := x.value ≤ y.value
  lt x y := x.value < y.value
  eq x y := x.value == y.value
  exp := chain Float.exp Float.exp
  log := chain Float.log fun x => 1 / x
  logOnePlus := chain Numeric.logOnePlus fun x => 1 / (1 + x)
  expMinusOne := chain Numeric.expMinusOne Float.exp
  sqrt := chain Float.sqrt fun x => 0.5 / x.sqrt
  sin := chain Float.sin Float.cos
  cos := chain Float.cos fun x => -x.sin
  abs := chain Float.abs sign
  floor := step Float.floor
  round := step Numeric.roundHalfEven
  trunc := step Numeric.truncate
  pow := pow
  logistic := chain logistic logisticSlope
  logGamma := chain Numeric.logGamma Numeric.digamma
  normalCdf := chain Numeric.normalCdf Numeric.normalPdf
  logNormalCdf := chain Numeric.logNormalCdf logNormalCdfSlope
  normalQuantile :=
    chain Numeric.normalQuantile fun p => 1 / Numeric.normalPdf (Numeric.normalQuantile p)
  common x rest := ⟨x.value, average (x.gradient :: rest.map (·.gradient))⟩
  flush x := ⟨flush x.value, x.gradient⟩

end Dual

end BayesGraph
