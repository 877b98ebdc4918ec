import BayesGraph.Builtin.Densities
import BayesGraph.Transform

/-!
# Distributions with parameters

A `BoundDist` is a family with values for its parameters and, optionally, bounds at which it is
truncated. Truncation restricts the support and divides the density by the probability mass that
remains between the bounds.
-/

set_option autoImplicit false

namespace BayesGraph

/-- The tighter of two optional bounds: the smaller one of upper bounds, the larger one of lower
bounds. Known numbers are compared exactly and stay known. -/
def tighterBound {α : Type} [Scalar α] (isUpper : Bool) :
    Option (Value α) → Option (Value α) → Except EvalError (Option (Value α))
  | none, b => .ok b
  | a, none => .ok a
  | some (.number a), some (.number b) =>
    if isUpper then .ok (some (.number (if Value.numbersLt b a then b else a)))
    else .ok (some (.number (if Value.numbersLt a b then b else a)))
  | some a, some b => do
    if isUpper then return some (← Builtin.pairwise .density min Scalar.min a b)
    else return some (← Builtin.pairwise .density max Scalar.max a b)

/-- A family with the values of its parameters and truncation bounds. -/
structure BoundDist (α : Type) where
  family : Family α
  params : List (Value α)
  lower : Option (Value α) := none
  upper : Option (Value α) := none

namespace BoundDist

variable {α : Type} [Scalar α]

/-- Is there a truncation bound? -/
def truncated (d : BoundDist α) : Bool := d.lower.isSome || d.upper.isSome

/-- The support of the family within the truncation bounds. -/
def support (d : BoundDist α) : Except EvalError (Support α) := do
  match d.family.support.check d.family.name (some d.params.length) with
  | .error _ => throw .wrongKind
  | .ok () =>
    let s := d.family.support.meaning d.params
    let lower ← tighterBound false s.lower d.lower
    let upper ← tighterBound true s.upper d.upper
    return ⟨lower, upper⟩

/-- The parameters as arrays of reals. -/
def realParams (d : BoundDist α) : Except EvalError (List (Tensor α)) := d.params.mapM Value.toTensor

/-- Applies a point function entry by entry, to flushed scalars. -/
def applyPoint (f : Routine (PointFunction α)) (x : Tensor α) (params : List (Tensor α)) :
    Except EvalError (Tensor α) := do
  match f.check "" (some (params.length + 1)) with
  | .error _ => throw .wrongKind
  | .ok () =>
    let start : Tensor (α × List α) := x.map fun t => (Scalar.flush t, [])
    let extend (e : α × List α) (q : α) : α × List α := (e.1, e.2 ++ [Scalar.flush q])
    let points ← params.foldlM (Value.zip .density extend) start
    return points.map fun e => Scalar.flush (f.meaning e.1 e.2)

/-- The logarithm of the distribution function of the family at a bound. -/
def logCdfAt (d : BoundDist α) (bound : Value α) (params : List (Tensor α)) :
    Except EvalError (Tensor α) := do
  match d.family.logCdf with
  | none => throw .wrongKind
  | some f => applyPoint f (← bound.toTensor) params

/-- `log (1 - exp t)`, entry by entry. -/
def logComplement (t : Tensor α) : Tensor α := t.map fun p => Scalar.logOnePlus (-Scalar.exp p)

/-- The logarithm of the probability mass between the truncation bounds. -/
def logNormalizer (d : BoundDist α) : Except EvalError (Value α) := do
  let params ← d.realParams
  match d.lower, d.upper with
  | none, none => return .real (Scalar.ofInt 0)
  | some lower, none => return .array .density (logComplement (← d.logCdfAt lower params))
  | none, some upper => return .array .density (← d.logCdfAt upper params)
  | some lower, some upper =>
    let above ← d.logCdfAt upper params
    let below ← d.logCdfAt lower params
    let ratio ← Value.zip .density (fun p q => p - q) below above
    return .array .density (← Value.zip .density (· + ·) above (logComplement ratio))

/-- One where a point lies on the right side of a bound. -/
def insideBound (x : Tensor α) (bound : Option (Value α)) (inside : α → α → Bool) :
    Except EvalError (Option (Tensor Bool)) := do
  match bound with
  | none => return none
  | some b =>
    let insideSettled (t u : α) : Bool := inside (Scalar.flush t) (Scalar.flush u)
    return some (← Value.zip .density insideSettled x (← b.operand .density))

/-- The points that both conditions admit; an absent condition admits all. -/
def insideBoth : Option (Tensor Bool) → Option (Tensor Bool) →
    Except EvalError (Option (Tensor Bool))
  | none, b => .ok b
  | a, none => .ok a
  | some a, some b => do
    return some (← Value.zip .density (· && ·) a b)

/-- The logarithm of the density or mass at a point. -/
def logPdf (d : BoundDist α) (x : Value α) : Except EvalError (Value α) := do
  let x ← x.toTensor
  let logP ← applyPoint d.family.logPdf x (← d.realParams)
  if d.truncated then
    let low ← insideBound x d.lower fun t b => Scalar.le b t
    let high ← insideBound x d.upper fun t b => Scalar.le t b
    let normalizer ← d.logNormalizer
    let scaled ← Value.sub (.array .density logP) normalizer
    match ← insideBoth low high with
    | none => return scaled
    | some inside =>
      let t ← scaled.toTensor
      return .array .density (← Value.zip .density (fun b p => Builtin.restrict b p) inside t)
  else return .array .density logP

/-- The transform of the support. -/
def transform (d : BoundDist α) : Except EvalError (Transform α) := do
  Transform.ofSupport (← d.support)

/-- Takes a value in the support to the real line. -/
def toUnconstrained (d : BoundDist α) (x : Value α) : Except EvalError (Value α) := do
  (← d.transform).map.forward x

/-- Takes a real into the support, with the logarithm of the derivative there. -/
def toConstrained (d : BoundDist α) (y : Value α) : Except EvalError (Value α × Value α) := do
  let t ← d.transform
  let x ← t.map.backward y
  return (x, ← t.map.logJacobian y)

end BoundDist

end BayesGraph
