import BayesGraph.BoundDist
import BayesGraph.Graph
import BayesGraph.Registry

/-!
# Evaluation of a graph

`Graph.evaluate` goes through the nodes of a graph, parents first, and computes the value of every
node from a vector of coordinates, one for each parameter. On the way it adds up the log-prior (the
terms of the parameters), the log-likelihood (the terms of the observed nodes) and, if the
coordinates are unconstrained, the logarithm of the derivative of the map to the supports.

Each node is visited once, and a value is looked up only in the slots of nodes that were visited
before. The evaluation is generic in the scalars.
-/

set_option autoImplicit false

namespace BayesGraph

/-- The values computed so far, by the numbers of their nodes. -/
abbrev Slots (α : Type) : Type := Nat → Option (Value α)

namespace Slots

variable {α : Type}

/-- No values. -/
def empty : Slots α := fun _ => none

/-- Puts the value of a node into its slot. -/
def put (s : Slots α) (i : Nat) (v : Value α) : Slots α := fun j => if j = i then some v else s j

end Slots

/-- How a vector of coordinates is evaluated. -/
structure EvaluationMode where
  /-- Are the coordinates unconstrained, or else values in the supports? -/
  transformed : Bool := true
  /-- Are the terms of the density computed, or only the values? -/
  score : Bool := true
  calls : CallMode := .direct

/-- The values of nodes and the sums of the terms of the density. -/
structure Evaluation (α : Type) where
  slots : Slots α
  /-- The parameters and their values, in the order of the coordinates. -/
  parameters : List (Identity × Value α)
  logPrior : Value α
  logLikelihood : Value α
  logJacobian : Value α

namespace Evaluation

variable {α : Type} [Scalar α]

/-- Nothing is evaluated yet, and all sums are zero. -/
def start : Evaluation α :=
  let zero : Value α := .real (Scalar.ofInt 0)
  ⟨Slots.empty, [], zero, zero, zero⟩

/-- The logarithm of the density: the sum of its three parts. -/
def logDensity (ev : Evaluation α) : Except EvalError (Value α) := do
  let posterior ← ev.logPrior.add ev.logLikelihood
  posterior.add ev.logJacobian

end Evaluation

namespace Graph

variable {α : Type}

/-- The environment of a node: values come from the slots of the nodes visited before. -/
def environment (g : Graph) (r : Registry α) (calls : CallMode) (slots : Slots α) :
    Environment α where
  rules := .density
  mode := calls
  functions := r.functions
  lookup id :=
    match (g.index? id).bind slots with
    | some v => .ok v
    | none => .error (.missing id)

/-- The coordinate that belongs to a node. -/
def coordinate? (g : Graph) (theta : List α) (i : Nat) : Option α :=
  (g.parameters.idxOf? i).bind fun k => theta[k]?

variable [Scalar α]

/-- A distribution with the values of its parameters and of its bounds. -/
def bindDist (r : Registry α) (env : Environment α) (law : Dist) :
    Except EvalError (BoundDist α) := do
  let params ← Expr.evalAll env law.params
  let lower ← law.lower.mapM (Expr.eval env)
  let upper ← law.upper.mapM (Expr.eval env)
  match law.name.text?.bind r.families.get? with
  | some family => return ⟨family, params, lower, upper⟩
  | none => throw (.unknownFunction law.name)

/-- The terms of a density at a value: its logarithm, or none if terms are not computed. -/
def densityTerms (mode : EvaluationMode) (d : BoundDist α) (x : Value α) :
    Except EvalError (List (Value α)) := do
  if mode.score then return [← d.logPdf x] else return []

/-- The value of a parameter at its coordinate, and the logarithm of the derivative there if the
coordinate is unconstrained. -/
def locate (mode : EvaluationMode) (d : BoundDist α) (y : α) :
    Except EvalError (Value α × List (Value α)) := do
  if mode.transformed then
    let (x, slope) ← d.toConstrained (.scalar y)
    return (x, [slope])
  else return (.scalar y, [])

/-- Adds terms to a sum, from left to right. -/
def addTerms (sum : Value α) (terms : List (Value α)) : Except EvalError (Value α) :=
  terms.foldlM Value.add sum

/-- The terms of an observed node with a distribution. -/
def observedTerms (r : Registry α) (env : Environment α) (mode : EvaluationMode) (x : Value α)
    (dist : Option Dist) : Except EvalError (List (Value α)) := do
  match dist with
  | none => return []
  | some law => if mode.score then densityTerms mode (← bindDist r env law) x else return []

/-- The value of an observed node, and its term in the density. -/
def visitObserved (r : Registry α) (env : Environment α) (mode : EvaluationMode)
    (ev : Evaluation α) (i : Nat) (value : Number Double) (dist : Option Dist) :
    Except EvalError (Evaluation α) := do
  let x : Value α := .number (value.map Scalar.ofDouble)
  let terms ← observedTerms r env mode x dist
  let likelihood ← addTerms ev.logLikelihood terms
  return { ev with slots := ev.slots.put i x, logLikelihood := likelihood }

/-- The value of a parameter at its coordinate, and its terms in the density. -/
def visitParameter (r : Registry α) (env : Environment α) (mode : EvaluationMode)
    (ev : Evaluation α) (i : Nat) (id : Identity) (y : α) (law : Dist) :
    Except EvalError (Evaluation α) := do
  let d ← bindDist r env law
  let (x, slopes) ← locate mode d y
  let jacobian ← addTerms ev.logJacobian slopes
  let terms ← densityTerms mode d x
  let prior ← addTerms ev.logPrior terms
  return { ev with
    slots := ev.slots.put i x
    parameters := ev.parameters ++ [(id, x)]
    logPrior := prior
    logJacobian := jacobian }

/-- Evaluates one node. -/
def visit (g : Graph) (r : Registry α) (mode : EvaluationMode) (theta : List α)
    (ev : Evaluation α) (i : Nat) : Except EvalError (Evaluation α) := do
  let env := g.environment r mode.calls ev.slots
  match g.nodes[i]? with
  | none => return ev
  | some n =>
    match n.role with
    | .logical e => return { ev with slots := ev.slots.put i (← e.eval env) }
    | .observed value dist => visitObserved r env mode ev i value dist
    | .parameter law =>
      match g.coordinate? theta i with
      | some y => visitParameter r env mode ev i n.id y law
      | none => throw (.missing n.id)

/-- Evaluates all nodes at a vector with one coordinate for each parameter. -/
def evaluate (g : Graph) (r : Registry α) (mode : EvaluationMode) (theta : List α) :
    Except EvalError (Evaluation α) :=
  g.order.foldlM (g.visit r mode theta) Evaluation.start

/-- The values of the nodes, in the order of the nodes. -/
def nodeValues (g : Graph) (slots : Slots α) : List (Identity × Value α) :=
  ((List.range g.size).zip g.nodes).filterMap fun (i, n) => (slots i).map fun v => (n.id, v)

/-- A vector of the right length for the graph, or an error about its length. A vector that is no
list of numbers has the number of its entries as its length. -/
def checkDimension (g : Graph) (theta : Tensor α) : Except Failure (List α) :=
  if theta.shape = [g.dimension] then .ok theta.entries
  else .error (.dimension g.dimension (Tensor.volume theta.shape))

end Graph

end BayesGraph
