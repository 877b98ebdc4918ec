import Mathlib
import BayesGraph.Proofs.ExactSums

/-!
# Exact reals as scalars

The real numbers are scalars on which nothing is rounded: the functions of an evaluation are the
functions of analysis, and integers and their quotients are themselves. A double stands for the
number that its bits denote. There are no infinities among the reals, and nothing that is not a
number; a double that denotes neither is read as zero.

An evaluation over these scalars is what an evaluation over machine numbers approximates. Statements
about derivatives are made over them.
-/

set_option autoImplicit false

namespace BayesGraph

open MeasureTheory ProbabilityTheory

/-- The real that a double denotes. -/
noncomputable def Double.toReal (x : Double) : ℝ :=
  if x.isFinite then (if x.isNegative then -1 else 1) * (x.numerator / x.denominator : ℝ) else 0

namespace ExactReals

/-- The nearest integer, the even one of two. -/
noncomputable def roundHalfEven (x : ℝ) : ℤ :=
  if Int.fract x < 1 - Int.fract x then ⌊x⌋
  else if 1 - Int.fract x < Int.fract x then ⌊x⌋ + 1
  else if Even ⌊x⌋ then ⌊x⌋ else ⌊x⌋ + 1

/-- A double that is nearest to a real. -/
def IsNearest (x : ℝ) (d : Double) : Prop :=
  d.isFinite = true ∧ ∀ e : Double, e.isFinite = true → |x - d.toReal| ≤ |x - e.toReal|

/-- The distribution function of the standard normal distribution. -/
noncomputable def normalCdf (x : ℝ) : ℝ := (gaussianReal 0 1).real (Set.Iic x)

end ExactReals

open ExactReals in
/-- The real numbers are scalars. -/
noncomputable instance : Scalar ℝ where
  ofDouble := Double.toReal
  ofQuotient m n := (m : ℝ) / n
  pi := Real.pi
  toDouble x := Classical.epsilon (IsNearest x)
  toInt? x := if x = ⌊x⌋ then some ⌊x⌋ else none
  le x y := decide (x ≤ y)
  lt x y := decide (x < y)
  eq x y := decide (x = y)
  exp := Real.exp
  log := Real.log
  logOnePlus x := Real.log (1 + x)
  expMinusOne x := Real.exp x - 1
  sqrt := Real.sqrt
  sin := Real.sin
  cos := Real.cos
  abs x := |x|
  floor x := ⌊x⌋
  round x := roundHalfEven x
  trunc x := if 0 ≤ x then ⌊x⌋ else ⌈x⌉
  pow x y := x ^ y
  logistic := Real.sigmoid
  logGamma x := Real.log |Real.Gamma x|
  normalCdf := normalCdf
  logNormalCdf x := Real.log (normalCdf x)
  normalQuantile p := sInf {x | p ≤ normalCdf x}
  common x _ := x
  flush x := x

/-- Reals are not flushed. -/
instance : ExactScalar ℝ where
  add_comm := add_comm
  add_assoc := add_assoc
  flush_eq _ := rfl

namespace ExactReals

/-- An integer is this real. -/
@[simp] theorem ofInt_eq (n : ℤ) : (Scalar.ofInt n : ℝ) = n := by
  change (n : ℝ) / ((1 : ℤ) : ℝ) = n
  simp

/-- No real is flushed. -/
@[simp] theorem flush_eq (x : ℝ) : Scalar.flush x = x := rfl

/-- The logarithm of the logistic function is computed without cancellation on both sides of
zero. -/
theorem logLogistic_eq (x : ℝ) : Scalar.logLogistic x = Real.log x.sigmoid := by
  have hlog : Real.log x.sigmoid = -Real.log (1 + Real.exp (-x)) := by
    rw [Real.sigmoid_def, Real.log_inv]
  have hside : Real.log (1 + Real.exp x) = x + Real.log (1 + Real.exp (-x)) := by
    have hfactor : 1 + Real.exp x = Real.exp x * (1 + Real.exp (-x)) := by
      rw [mul_add, ← Real.exp_add]
      simp [add_comm]
    have hpos : 1 + Real.exp (-x) ≠ 0 := by positivity
    rw [hfactor, Real.log_mul (Real.exp_ne_zero x) hpos, Real.log_exp]
  change (if decide (x < Scalar.ofInt 0) = true then x - Real.log (1 + Real.exp x)
    else -Real.log (1 + Real.exp (-x))) = _
  rw [hlog, hside]
  split
  · ring
  · rfl

end ExactReals

end BayesGraph
