import BayesGraph.Coordinates
import BayesGraph.Dual
import BayesGraph.Graph.Build

/-!
# Compiled models

A compiled model is a graph with initial values. It offers its density as a function of a vector of
coordinates, with the gradient, and the named values that belong to one vector or to many.

The functions of the density can be traced. A traced function reports its messages only when it is
called for the first time, which is what a `Session` keeps track of.
-/

set_option autoImplicit false

namespace BayesGraph

/-- A model with data and initial values. -/
structure CompiledModel (α : Type) where
  model : Model
  registry : Registry α
  graph : Graph
  /-- Are the coordinates unconstrained? -/
  transformed : Bool
  /-- How the functions of the density are called. -/
  calls : CallMode
  /-- The coordinates of the initial values. -/
  initial : List α

namespace CompiledModel

/-- Values by name: scalars for one vector of coordinates, lists for many. -/
abbrev Samples (α : Type) : Type := List (Identity × Tensor α)

section Generic

variable {α : Type} [Scalar α]

/-- The coordinates of initial values. Values of other variables than parameters are ignored, and
reported. -/
def initialCoordinates (g : Graph) (r : Registry α) (inits : Table String Datum)
    (transformed : Bool) : Logged (List α) := do
  let values := (← (Bindings.flatten inits : Except Failure _)).values
  let parameters := g.parameterNames
  let unused := values.keys.filter (!parameters.contains ·)
  if !unused.isEmpty then
    Logged.emit .warning ("initial values for " ++ Graph.listing unused
      ++ " are ignored: these are not parameters")
  let used := values.entries.filter fun e => parameters.contains e.1
  let assignment : Assignment α :=
    ⟨used.map fun e => (e.1, .number (e.2.map Scalar.ofDouble))⟩
  g.flatten r assignment transformed

/-- Compiles a model with data and initial values. -/
def make (m : Model) (data inits : Table String Datum) (r : Registry α) (transformed : Bool)
    (calls : CallMode) : Logged (CompiledModel α) := do
  let g ← Graph.build m data r
  let initial ← initialCoordinates g r inits transformed
  return ⟨m, r, g, transformed, calls, initial⟩

/-- Number of coordinates. -/
def dimension (m : CompiledModel α) : Nat := m.graph.dimension

/-- The parameters in the order of their coordinates. -/
def parameterNames (m : CompiledModel α) : List Identity := m.graph.parameterNames

/-- All values and the terms of the density at a vector of coordinates. -/
def evaluate (m : CompiledModel α) (theta : Tensor α) : Except Failure (Evaluation α) := do
  let coordinates ← m.graph.checkDimension theta
  m.graph.evaluate m.registry { transformed := m.transformed } coordinates

/-- The named values that belong to a vector of coordinates. -/
def unflatten (m : CompiledModel α) (includeLogical : Bool) (theta : Tensor α) :
    Except Failure (List (Identity × α)) := do
  let coordinates ← m.graph.checkDimension theta
  m.graph.unflatten m.registry m.transformed includeLogical coordinates

/-- Lists the values of each identity of the first row over all rows. -/
def collectRows (rows : List (List (Identity × α))) : Samples α :=
  (rows.headD []).map fun (id, _) =>
    let column := rows.filterMap fun row => (row.find? fun e => decide (e.1 = id)).map (·.2)
    (id, .ofList column)

/-- The named values that belong to a vector of coordinates, or to each row of a matrix. -/
def samples (m : CompiledModel α) (includeLogical : Bool) (theta : Tensor α) :
    Except Failure (Samples α) := do
  if theta.rank = 1 then
    return (← m.unflatten includeLogical theta).map fun (id, x) => (id, .scalar x)
  match theta.rows? with
  | none => throw (.eval .wrongKind)
  | some rows =>
    let values ← rows.mapM (m.unflatten includeLogical)
    if values.isEmpty then return m.parameterNames.map fun id => (id, .ofList [])
    else return collectRows values

/-- The logarithm of the density. -/
def logDensity (m : CompiledModel α) (theta : List α) : Logged (Tensor α) :=
  m.graph.logDensity m.registry m.transformed m.calls theta

/-- The one entry of a density. -/
def single (t : Tensor α) : Except Failure α :=
  match t.scalar? with
  | some x => .ok x
  | none => .error (.eval .wrongKind)

end Generic

/-- The logarithm of the density with its derivatives in all coordinates; outside the support these
are zero. -/
def gradient (m : CompiledModel Dual) (theta : List Dual) : Logged (Float × List Float) := do
  let n := theta.length
  let point := ((List.range n).zip theta).map fun (k, x) => Dual.coordinate n k x.value
  let density ← (single (← m.logDensity point) : Except Failure Dual)
  let zeros := List.replicate n 0
  let slopes := if density.gradient.isEmpty then zeros else density.gradient
  return (density.value, if density.value.isFinite then slopes else zeros)

end CompiledModel

/-- A compiled model in use, with the functions that have been traced. -/
structure Session where
  compiled : CompiledModel Dual
  densityTraced : Bool := false
  gradientTraced : Bool := false

namespace Session

/-- The outcome of a function of the density: a result or a failure, and its messages. -/
abbrev Outcome (ν : Type) : Type := Except Failure ν × List LogEntry

/-- The outcome of a function that may have been traced before, and whether it has been now. -/
def observe {ν : Type} (s : Session) (known : Bool) (step : Logged ν) : Bool × Outcome ν :=
  let (result, log) := step.collect
  let traced := decide (s.compiled.calls = .traced)
  (traced && (known || result.isOk), (result, if traced && known then [] else log))

/-- The logarithm of the density at a vector of coordinates. -/
def logDensity (s : Session) (theta : Tensor Dual) : Session × Outcome Float :=
  let (traced, outcome) := s.observe s.densityTraced do
    let coordinates ← (s.compiled.graph.checkDimension theta : Except Failure _)
    let density ← s.compiled.logDensity coordinates
    return (← (CompiledModel.single density : Except Failure Dual)).value
  ({ s with densityTraced := traced }, outcome)

/-- The logarithm of the density and its gradient at a vector of coordinates. -/
def gradient (s : Session) (theta : Tensor Dual) : Session × Outcome (Float × List Float) :=
  let (traced, outcome) := s.observe s.gradientTraced do
    let coordinates ← (s.compiled.graph.checkDimension theta : Except Failure _)
    s.compiled.gradient coordinates
  ({ s with gradientTraced := traced }, outcome)

end Session

end BayesGraph
