import BayesGraph.Folding
import BayesGraph.Variables

/-!
# Unrolled models

Unrolling expands all loops and resolves all indices. A first walk through the model registers the
left-hand sides, which determines the shapes of arrays; then the right-hand sides are resolved and
their references are checked against the shapes.
-/

set_option autoImplicit false

namespace BayesGraph

/-- What defines an identity, resolved. -/
inductive Meaning where
  | dist (d : Dist)
  | expr (e : Expr)

namespace Meaning

/-- Is it a distribution? -/
def isStochastic : Meaning → Bool
  | .dist _ => true
  | .expr _ => false

/-- The resolved expressions in it: parameters and bounds, or the one expression. -/
def parts : Meaning → List Expr
  | .dist d => d.parts
  | .expr e => [e]

/-- The identities that it refers to. -/
def refs (m : Meaning) : Except Malformed (List Identity) := Expr.refsOfAll m.parts

/-- The functions that it calls. -/
def calls (m : Meaning) : List Datum := Expr.callsOfAll m.parts

end Meaning

/-- A statement about one identity. -/
structure Definition where
  target : Identity
  meaning : Meaning
  /-- The identities that the meaning refers to. -/
  refs : List Identity
  /-- The text of the statement instance. -/
  source : String

/-- A model without loops and indices. -/
structure Unrolled (α : Type) where
  definitions : List Definition
  shapes : ShapeTable
  data : Bindings
  constants : Folding.Constants α

namespace Unrolled

variable {α : Type} [Scalar α]

/-- The context of unrolling at a state of the shape table. -/
def context (functions : FunctionTable α) (constants : Folding.Constants α) (defined : List Datum)
    (shapes : ShapeTable) : Context α where
  constants := constants
  functions := functions
  shapeOf name :=
    match shapes.shape? name with
    | some shape => .ok shape
    | none => .error (.compile ⟨.unknownShape name, none, none⟩)
  defined := defined

/-- The left-hand sides seen so far, the last one first, and the shapes that they imply. -/
structure Progress where
  shapes : ShapeTable
  targets : List (Site × Identity)

/-- Registers the left-hand side of an instance. -/
def visitTarget (context : ShapeTable → Context α) (p : Progress) (site : Site) :
    Except Failure Progress := do
  let ctx := context p.shapes
  let lhs ←
    match site.statement with
    | .sample _ lhs _ | .assign _ lhs _ => .ok lhs
    | .loop _ _ _ _ | .raw _ => .error (.malformed .missingPart)
  let id ← ctx.explain site .index (ctx.resolveTarget site lhs)
  let source ← site.source
  let shapes ← p.shapes.observe id (some source)
  return ⟨shapes, (site, id) :: p.targets⟩

/-- Resolves the right-hand side of an instance. -/
def resolveMeaning (ctx : Context α) (site : Site) : Except Failure Meaning := do
  match site.statement with
  | .sample _ _ (.dist d) => return .dist (← ctx.resolveDist site d)
  | .sample _ _ (.raw _) => throw (.malformed .missingPart)
  | .assign _ _ rhs => return .expr (← ctx.resolve site rhs)
  | .loop _ _ _ _ | .raw _ =>
    throw (.compile ⟨.invalidStatement site.statement.describe, none, none⟩)

/-- The definition that an instance makes; all its references have to lie within the shapes. -/
def define (context : ShapeTable → Context α) (shapes : ShapeTable) (site : Site) (id : Identity) :
    Except Failure Definition := do
  let ctx := context shapes
  let meaning ← ctx.explain site .index (resolveMeaning ctx site)
  let refs ← meaning.refs
  let source ← site.source
  refs.forM fun ref => do
    shapes.checkBounds ref (some source)
  return ⟨id, meaning, refs, source⟩

/-- Unrolls a model with data. -/
def make (m : Model) (bindings : Table String Datum) (functions : FunctionTable α) :
    Except Failure (Unrolled α) := do
  let data ← Bindings.flatten bindings
  let constants ← Folding.constants functions m.statements data
  let context := context functions constants (Stmt.definedNames m.statements)
  let progress ←
    Stmt.walkAll ⟨true, fun (p : Progress) => context p.shapes, visitTarget context⟩ []
      ⟨ShapeTable.ofData data.shapes, []⟩ m.statements
  let definitions ← progress.targets.reverse.mapM fun (site, id) =>
    define context progress.shapes site id
  return ⟨definitions, progress.shapes, data, constants⟩

end Unrolled

end BayesGraph
