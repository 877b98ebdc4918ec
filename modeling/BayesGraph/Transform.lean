import BayesGraph.Builtin.Functions
import BayesGraph.Family

/-!
# Bijections between supports and the real line

The forward direction takes a value in a support to the real line, the backward direction takes it
back. `logJacobian` is the logarithm of the absolute derivative of the backward direction. All
transforms are composed of the logarithm, the logit and affine maps.
-/

set_option autoImplicit false

namespace BayesGraph

/-- An invertible map of the reals. -/
inductive Bijection (α : Type) where
  | identity
  /-- The logarithm; backward the exponential. -/
  | log
  /-- The logit; backward the logistic function. -/
  | logit
  /-- `x ↦ offset + x * slope`. -/
  | affine (offset slope : Value α)
  /-- First `inner`, then `outer`. -/
  | compose (outer inner : Bijection α)
  /-- Forward and backward exchanged. -/
  | inverse (b : Bijection α)

namespace Bijection

variable {α : Type} [Scalar α]

/-- A function of a real applied to a value. -/
def apply (f : α → α) (v : Value α) : Except EvalError (Value α) := v.lift .density f

mutual

/-- The map from the support to the real line. -/
def forward : Bijection α → Value α → Except EvalError (Value α)
  | .identity, x => .ok x
  | .log, x => apply Scalar.log x
  | .logit, x => apply Scalar.logit x
  | .affine offset slope, x => do
    offset.add (← x.mul slope)
  | .compose outer inner, x => do
    outer.forward (← inner.forward x)
  | .inverse b, x => b.backward x

/-- The map from the real line to the support. -/
def backward : Bijection α → Value α → Except EvalError (Value α)
  | .identity, y => .ok y
  | .log, y => apply Scalar.exp y
  | .logit, y => apply Scalar.logistic y
  | .affine offset slope, y => do
    (← y.sub offset).quotient slope
  | .compose outer inner, y => do
    inner.backward (← outer.backward y)
  | .inverse b, y => b.forward y

end

/-- The logarithm of the absolute derivative of the backward direction. -/
def logJacobian : Bijection α → Value α → Except EvalError (Value α)
  | .identity, y => do
    return .array .density ((← y.toTensor).map fun _ => Scalar.ofInt 0)
  | .log, y => .ok y
  | .logit, y => do
    let a ← apply Scalar.logLogistic y
    let b ← apply Scalar.logLogistic y.neg
    a.add b
  | .affine _ slope, y => do
    let size ← Builtin.integral .density (fun n => (n.natAbs : Int)) Scalar.abs slope
    let stretch := (← apply Scalar.log size).neg
    stretch.mul (.array .density ((← y.toTensor).map fun _ => Scalar.ofInt 1))
  | .compose outer inner, y => do
    let a ← outer.logJacobian y
    let b ← inner.logJacobian (← outer.backward y)
    a.add b
  | .inverse b, y => do
    return (← b.logJacobian (← b.forward y)).neg

end Bijection

/-- The kinds of transforms. -/
inductive TransformKind where
  | general
  | identity
  | log
  | logit
  | affine
  | shiftedLog
  | negLog
  | shiftedNegLog
  | generalLogit
deriving DecidableEq

/-- A bijection and how it was made. -/
structure Transform (α : Type) where
  kind : TransformKind
  map : Bijection α

namespace Transform

variable {α : Type} [Scalar α]

/-- The transform of the whole real line. -/
def identity : Transform α := ⟨.identity, .identity⟩

/-- The transform of the positive numbers. -/
def log : Transform α := ⟨.log, .log⟩

/-- The transform of the unit interval. -/
def logit : Transform α := ⟨.logit, .logit⟩

/-- `x ↦ offset + x * slope`. -/
def affine (offset slope : Value α) : Transform α := ⟨.affine, .affine offset slope⟩

/-- The transform of the numbers above a lower bound. -/
def shiftedLog (lower : Value α) : Transform α :=
  ⟨.shiftedLog, .compose .log (.affine lower.neg (.real (Scalar.ofInt 1)))⟩

/-- The reversal of the sign. -/
def reflection : Bijection α := .affine (.real (Scalar.ofInt 0)) (.real (Scalar.ofInt (-1)))

/-- The transform of the negative numbers. -/
def negLog : Transform α := ⟨.negLog, .compose (.compose reflection .log) reflection⟩

/-- The transform of the numbers below an upper bound. -/
def shiftedNegLog (upper : Value α) : Transform α :=
  ⟨.shiftedNegLog,
    .compose (.compose reflection .log) (.affine upper (.real (Scalar.ofInt (-1))))⟩

/-- The transform of the interval between two bounds. If both are known, equal ones are an
error. -/
def generalLogit (lower upper : Value α) : Except EvalError (Transform α) := do
  let width ← upper.sub lower
  let offset ← lower.neg.quotient width
  let slope ← (Value.real (Scalar.ofInt 1)).quotient width
  return ⟨.generalLogit, .compose .logit (.affine offset slope)⟩

/-- First `inner`, then `outer`. -/
def compose (outer inner : Transform α) : Transform α :=
  ⟨.general, .compose outer.map inner.map⟩

/-- Forward and backward exchanged. -/
def inverse (t : Transform α) : Transform α := ⟨.general, .inverse t.map⟩

/-- Is the bound known in advance to be the given integer? -/
def isKnown (bound : Value α) (n : Int) : Bool :=
  match bound with
  | .number x => Value.numbersEq x (.int n)
  | _ => false

/-- The transform of a support. Bounds that are known to be zero or one give simpler maps. -/
def ofSupport : Support α → Except EvalError (Transform α)
  | ⟨none, none⟩ => .ok identity
  | ⟨some lower, none⟩ => .ok (if isKnown lower 0 then log else shiftedLog lower)
  | ⟨none, some upper⟩ => .ok (if isKnown upper 0 then negLog else shiftedNegLog upper)
  | ⟨some lower, some upper⟩ =>
    if isKnown lower 0 && isKnown upper 1 then .ok logit else generalLogit lower upper

end Transform

end BayesGraph
