import BayesGraph.Eval
import BayesGraph.Log
import BayesGraph.Source

/-!
# Resolution of names and indices

`Context.resolve` turns an expression of a statement instance into an expression about identities:
loop variables become integers, and indexed variables become references to one identity or to a
block of them. Indices are evaluated at once, so they may depend on known constants only.
-/

set_option autoImplicit false

namespace BayesGraph

/-- What resolution depends on: known constants, functions for their folding, shapes of arrays,
and the names that the model defines. -/
structure Context (α : Type) where
  constants : Table Identity (Number α)
  functions : FunctionTable α
  shapeOf : String → Except Failure (List Nat)
  defined : List Datum := []

/-- An instance of a statement: the statement and the values of the loop variables. -/
structure Site where
  statement : Stmt
  env : LoopValues

namespace Site

/-- The text of the instance. -/
def source (s : Site) : Except Malformed String := s.statement.source s.env

/-- An error about this instance. -/
def refuse {ν : Type} (s : Site) (cause : Cause) (id : Option Identity := none) :
    Except Failure ν := do
  let text ← s.source
  throw (.compile ⟨cause, id, some text⟩)

end Site

/-- All integers from `lo` to `hi`. -/
def integersBetween (lo hi : Int) : List Int :=
  (List.range (hi + 1 - lo).toNat).map fun (k : Nat) => lo + (k : Int)

/-- The positions of a slice from `lo` to `hi`, which can not be more than a word can count. -/
def slicePositions (lo hi : Int) : Except Failure (List Int) :=
  if Word.signedEnd ≤ hi + 1 - lo then .error (.eval .overflow) else .ok (integersBetween lo hi)

/-- All ways to choose one position per dimension, in row-major order. -/
def selections : List (List Int) → List (List Int)
  | [] => [[]]
  | ps :: rest => ps.flatMap fun p => (selections rest).map (p :: ·)

namespace Context

variable {α : Type}

/-- The value of a constant. -/
def lookup (ctx : Context α) (id : Identity) : Except EvalError (Value α) :=
  match ctx.constants.get? id with
  | some n => .ok (.number n)
  | none => .error (.notConstant id)

/-- The environment in which constants are folded. -/
def folding (ctx : Context α) : Environment α :=
  { rules := .folding, functions := ctx.functions, lookup := ctx.lookup }

variable [Scalar α]

/-- The integer that an index is, where `written` is its written form and `resolved` its resolved
one. -/
def evalResolvedIndex (ctx : Context α) (site : Site) (written resolved : Expr) :
    Except Failure Int := do
  match resolved.eval ctx.folding with
  | .error (.unknownFunction name) => site.refuse (.unknownFunction name.describe)
  | .error e => throw (.eval e)
  | .ok v =>
    let x ← v.toScalar
    match Scalar.toInt? x with
    | some n => return n
    | none =>
      let text ← written.print
      site.refuse (.nonIntegerIndex text (Scalar.toDouble x).shortest)

/-- The positions that an empty index slot selects in dimension `d` of `rank`. -/
def wholeDimension (ctx : Context α) (site : Site) (name : String) (d rank : Nat) :
    Except Failure (List Int) := do
  let shape ← ctx.shapeOf name
  if shape.length ≠ rank then site.refuse (.wrongRank name shape.length rank)
  else return integersBetween 1 (shape.getD d 0)

/-- The reference that positions per dimension stand for: one identity, or a block with one
dimension for each slice. -/
def reference (name : String) (indices : List Expr) (positions : List (List Int)) : Expr :=
  if indices.any Expr.isSlice then
    let lengths := (indices.zip positions).filterMap fun (e, ps) =>
      if e.isSlice then some ps.length else none
    .refArray ((selections positions).map fun is => ⟨name, is⟩) lengths
  else .ref ⟨name, positions.filterMap List.head?⟩

mutual

/-- Resolves an expression. -/
def resolve (ctx : Context α) (site : Site) : Expr → Except Failure Expr
  | .literal val => return .literal val
  | .var name =>
    match site.env.value? name with
    | some i => return .literal (.int i)
    | none => return .ref ⟨name.shown, []⟩
  | .index name indices => do
    if (site.env.value? name).isSome then site.refuse (.indexedLoopVariable name.shown)
    else
      let positions ← positionsOf ctx site name.shown indices.length 0 indices
      return reference name.shown indices positions
  | .negate val => do
    return .negate (← resolve ctx site val)
  | .add a b => do
    let left ← resolve ctx site a
    let right ← resolve ctx site b
    return .add left right
  | .sub a b => do
    let left ← resolve ctx site a
    let right ← resolve ctx site b
    return .sub left right
  | .mul a b => do
    let left ← resolve ctx site a
    let right ← resolve ctx site b
    return .mul left right
  | .div a b => do
    let left ← resolve ctx site a
    let right ← resolve ctx site b
    return .div left right
  | .pow a b => do
    let left ← resolve ctx site a
    let right ← resolve ctx site b
    return .pow left right
  | .call func arguments => do
    return .call func (← resolveAll ctx site arguments)
  | .colon => site.refuse (.unresolvable (Expr.describe .colon))
  | .range a b => site.refuse (.unresolvable (Expr.describe (.range a b)))
  | .ref id => site.refuse (.unresolvable (Expr.describe (.ref id)))
  | .refArray ids shape => site.refuse (.unresolvable (Expr.describe (.refArray ids shape)))
  | .raw object => site.refuse (.unresolvable object.describe)
  | .rawList items => site.refuse (.unresolvable (Expr.describe (.rawList items)))

/-- Resolves the expressions of a list. -/
def resolveAll (ctx : Context α) (site : Site) : List Expr → Except Failure (List Expr)
  | [] => return []
  | e :: rest => do
    let first ← resolve ctx site e
    let others ← resolveAll ctx site rest
    return first :: others

/-- The positions that indices select, from dimension `d` of `rank` on. -/
def positionsOf (ctx : Context α) (site : Site) (name : String) (rank d : Nat) :
    List Expr → Except Failure (List (List Int))
  | [] => return []
  | .colon :: rest => do
    let ps ← wholeDimension ctx site name d rank
    return ps :: (← positionsOf ctx site name rank (d + 1) rest)
  | .range a b :: rest => do
    let lo ← evalResolvedIndex ctx site a (← resolve ctx site a)
    let hi ← evalResolvedIndex ctx site b (← resolve ctx site b)
    let ps ← slicePositions lo hi
    return ps :: (← positionsOf ctx site name rank (d + 1) rest)
  | e :: rest => do
    let i ← evalResolvedIndex ctx site e (← resolve ctx site e)
    return [i] :: (← positionsOf ctx site name rank (d + 1) rest)

end

/-- The integer value of an index or of a loop bound. -/
def evalIndex (ctx : Context α) (site : Site) (e : Expr) : Except Failure Int := do
  evalResolvedIndex ctx site e (← ctx.resolve site e)

/-- The identity that a left-hand side defines. -/
def resolveTarget (ctx : Context α) (site : Site) : Expr → Except Failure Identity
  | .var name =>
    if (site.env.value? name).isSome then site.refuse (.assignedLoopVariable name.shown)
    else return ⟨name.shown, []⟩
  | .index name indices => do
    return ⟨name.shown, ← indices.mapM (ctx.evalIndex site)⟩
  | _ => site.refuse .invalidTarget

/-- The distribution of an instance: bounds first, then parameters. -/
def resolveDist (ctx : Context α) (site : Site) (d : Dist) : Except Failure Dist := do
  let lower ← d.lower.mapM (ctx.resolve site)
  let upper ← d.upper.mapM (ctx.resolve site)
  let params ← ctx.resolveAll site d.params
  return ⟨d.name, params, lower, upper⟩

/-- An index or bound that depends on an unknown constant is an error; other failures stay as they
are. -/
def explain {ν : Type} (ctx : Context α) (site : Site) (use : IndexUse) (x : Except Failure ν) :
    Except Failure ν :=
  match x with
  | .error (.eval (.notConstant id)) =>
    if ctx.defined.contains (.text id.name) then site.refuse (.notData use id)
    else site.refuse (.undefinedIndex use id) (some id)
  | x => x

end Context

end BayesGraph
