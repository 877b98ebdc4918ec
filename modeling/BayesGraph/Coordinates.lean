import BayesGraph.Evaluation
import BayesGraph.Log

/-!
# Vectors of coordinates

The parameters of a graph are given either by name, as values in their supports, or as a vector of
coordinates. `Graph.flatten` makes a vector from an assignment of values, and `Graph.unflatten`
names the values that belong to a vector. A parameter without a value gets the coordinate zero on
the unconstrained scale.

`Graph.logDensity` is the density as a function of the vector. Where the arithmetic leaves its
domain, or the result is not a number, the density is zero.
-/

set_option autoImplicit false

namespace BayesGraph

/-- The text of an arithmetic error in a message. -/
def EvalError.reason : EvalError → String
  | .domain reason => reason
  | .overflow => "number out of range"
  | .zeroDivision => "division by zero"
  | e => e.message?.getD ""

/-- Values of some parameters. -/
abbrev Assignment (α : Type) : Type := Table Identity (Value α)

namespace Graph

variable {α : Type} [Scalar α]

/-- Scalars with a bottom element in place of those that are not numbers. -/
def replaceNaN (t : Tensor α) : Tensor α :=
  t.map fun x => if Scalar.isNaN x then Scalar.bottom else x

/-- The logarithm of the density at a vector of coordinates. -/
def logDensity (g : Graph) (r : Registry α) (transformed : Bool) (calls : CallMode)
    (theta : List α) : Logged (Tensor α) := do
  let total : Except EvalError (Value α) := do
    (← g.evaluate r { transformed, calls } theta).logDensity
  match total with
  | .ok v => return replaceNaN (← (v.toTensor : Except EvalError _))
  | .error e =>
    if e.isArithmetic then
      Logged.emit .debug ("domain error during evaluation: " ++ e.reason)
      return .scalar Scalar.bottom
    else throw (.eval e)

/-- What is known while an assignment is turned into coordinates. -/
structure Flattening (α : Type) where
  slots : Slots α
  /-- The coordinates of the parameters so far. -/
  coordinates : List α
  /-- The parameters without a value. -/
  missing : List Identity

namespace Flattening

/-- Nothing is known yet. -/
def start : Flattening α := ⟨Slots.empty, [], []⟩

end Flattening

/-- The value of a parameter with a distribution and the coordinate that it has: the assigned value,
or else the point with the unconstrained coordinate zero. -/
def place (d : BoundDist α) (transformed : Bool) (assigned : Option (Value α)) :
    Except EvalError (Value α × Value α) := do
  match assigned with
  | some x => return (x, ← if transformed then d.toUnconstrained x else pure x)
  | none =>
    let y : Value α := .real (Scalar.ofInt 0)
    let (x, _) ← d.toConstrained y
    return (x, if transformed then y else x)

/-- The value of a logical node. A domain error makes it no number, and is reported. -/
def logicalOrNaN (env : Environment α) (id : Identity) (e : Expr) : Logged (Value α) := do
  match e.eval env with
  | .ok v => return v
  | .error err =>
    if err.isArithmetic then
      Logged.emit .debug
        ("domain error while evaluating '" ++ id.text ++ "': " ++ err.reason)
      return .real Scalar.nan
    else throw (.eval err)

/-- Goes on to one node. -/
def flattenNode (g : Graph) (r : Registry α) (assignment : Assignment α) (transformed : Bool)
    (f : Flattening α) (i : Nat) : Logged (Flattening α) := do
  let env := g.environment r .direct f.slots
  match g.nodes[i]? with
  | none => return f
  | some n =>
    match n.role with
    | .logical e => return { f with slots := f.slots.put i (← logicalOrNaN env n.id e) }
    | .observed value _ =>
      return { f with slots := f.slots.put i (.number (value.map Scalar.ofDouble)) }
    | .parameter law =>
      let assigned := assignment.get? n.id
      let d ← (bindDist r env law : Except EvalError _)
      let (x, y) ← (place d transformed assigned : Except EvalError _)
      let coordinate ← (y.toScalar : Except EvalError _)
      return {
        slots := f.slots.put i x
        coordinates := f.coordinates ++ [coordinate]
        missing := if assigned.isSome then f.missing else f.missing ++ [n.id] }

/-- Identities in a message. -/
def listing (ids : List Identity) : String := ", ".intercalate (ids.map Identity.text)

/-- The vector of coordinates of an assignment, which need not have values for all parameters. -/
def flatten (g : Graph) (r : Registry α) (assignment : Assignment α) (transformed : Bool) :
    Logged (List α) := do
  let f ← g.order.foldlM (g.flattenNode r assignment transformed) Flattening.start
  if !f.missing.isEmpty then
    Logged.emit .info ("no initial values for " ++ listing f.missing
      ++ ": using 0 on the unconstrained scale")
  return f.coordinates

/-- The logical nodes and their values, in the order of the nodes. -/
def logicalValues (g : Graph) (slots : Slots α) : List (Identity × Value α) :=
  ((List.range g.size).zip g.nodes).filterMap fun (i, n) =>
    if n.role.isLogical then (slots i).map fun v => (n.id, v) else none

/-- The values that belong to a vector of coordinates: those of the parameters, and those of the
logical nodes if they are included. No density is computed. -/
def unflatten (g : Graph) (r : Registry α) (transformed includeLogical : Bool) (theta : List α) :
    Except EvalError (List (Identity × α)) := do
  let ev ← g.evaluate r { transformed, score := false } theta
  let named := if includeLogical then ev.parameters ++ g.logicalValues ev.slots else ev.parameters
  named.mapM fun (id, v) => do
    return (id, ← v.toScalar)

/-- The unconstrained coordinates of the values that belong to a vector of such coordinates. -/
def roundTrip (g : Graph) (r : Registry α) (theta : List α) : Logged (List α) := do
  let values ← (g.unflatten r true false theta : Except EvalError _)
  g.flatten r (Table.ofList (values.map fun (id, x) => (id, .real x))) true

end Graph

end BayesGraph
