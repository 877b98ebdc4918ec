import BayesGraph.Bindings
import BayesGraph.Walk

/-!
# Folding of constants

Logical statements that depend on data only have values that are known before anything is
evaluated, and these may be used in indices and loop bounds. `Folding.constants` finds them: it
walks through the model again and again, and adds the value of every logical statement whose
references are all known, until a round adds nothing.

A value that is known stays as it is. So a loop whose bounds are known keeps them, and each round
that adds a value either opens a loop or leaves fewer statements without a value. The rounds end
because these numbers descend, the loops being counted by depth and the outermost first.
-/

set_option autoImplicit false

namespace BayesGraph

/-- A number for each of `n` levels, the first level being the most important. -/
def Counts : Nat → Type
  | 0 => Unit
  | n + 1 => Nat × Counts n

namespace Counts

/-- The order by the first level that differs is well-founded. -/
instance wellFounded : (n : Nat) → WellFoundedRelation (Counts n)
  | 0 => ⟨emptyRelation, emptyWf.wf⟩
  | n + 1 => @Prod.instWellFoundedRelation Nat (Counts n) inferInstance (wellFounded n)

/-- Is the first family of numbers smaller at the first level that differs? -/
def less : (n : Nat) → Counts n → Counts n → Bool
  | 0, _, _ => false
  | n + 1, a, b => decide (a.1 < b.1) || (decide (a.1 = b.1) && less n a.2 b.2)

/-- What compares as less is less in the order. -/
theorem rel_of_less : (n : Nat) → (a b : Counts n) → less n a b = true →
    (wellFounded n).rel a b
  | 0, _, _, h => by simp [less] at h
  | n + 1, (a, s), (b, t), h => by
    simp only [less, Bool.or_eq_true, decide_eq_true_eq, Bool.and_eq_true] at h
    rcases h with h | ⟨h, k⟩
    · exact Prod.Lex.left s t h
    · subst h
      exact Prod.Lex.right _ (rel_of_less n s t k)

/-- Counts the members of a list that lie at level `d`, `d + 1` and so on. -/
def ofList : (n d : Nat) → List Nat → Counts n
  | 0, _, _ => ()
  | n + 1, d, xs => (xs.count d, ofList n (d + 1) xs)

end Counts

namespace Stmt

mutual

/-- The depth to which loops are nested. -/
def loopDepth : Stmt → Nat
  | .loop _ _ _ body => loopDepthOfAll body + 1
  | .sample _ _ _ | .assign _ _ _ | .raw _ => 0

/-- The greatest depth in a list of statements. -/
def loopDepthOfAll : List Stmt → Nat
  | [] => 0
  | s :: rest => max (loopDepth s) (loopDepthOfAll rest)

end

variable {α : Type} [Scalar α]

mutual

/-- What is still unknown in a statement inside `depth` loops: the depth of each loop whose bounds
have no value, and the number `limit` for each logical statement without a value. -/
def unknowns (ctx : Context α) (limit depth : Nat) (env : LoopValues) : Stmt → List Nat
  | .loop comment var (.range start stop) body =>
    let site : Site := ⟨.loop comment var (.range start stop) body, env⟩
    match ctx.evalIndex site start, ctx.evalIndex site stop with
    | .ok lo, .ok hi =>
      (integersBetween lo hi).flatMap fun i =>
        unknownsOfAll ctx limit (depth + 1) (env.bind var.shown i) body
    | _, _ => [depth]
  | .assign comment lhs rhs =>
    match ctx.resolveTarget ⟨.assign comment lhs rhs, env⟩ lhs with
    | .ok id => if ctx.constants.contains id then [] else [limit]
    | .error _ => [limit]
  | .loop _ _ _ _ | .sample _ _ _ | .raw _ => []

/-- What is still unknown in the statements of a list inside `depth` loops. -/
def unknownsOfAll (ctx : Context α) (limit depth : Nat) (env : LoopValues) : List Stmt → List Nat
  | [] => []
  | s :: rest => unknowns ctx limit depth env s ++ unknownsOfAll ctx limit depth env rest

end

end Stmt

namespace Value

variable {α : Type} [Scalar α]

/-- A value without dimensions as a number, an integer if it is integral. -/
def toNumber (v : Value α) : Except EvalError (Number α) := do
  let x ← v.toScalar
  match Scalar.toInt? x with
  | some n => return .int n
  | none => return .real x

end Value

/-- A failure that only says that a value is not known. -/
def Failure.isUnavailable : Failure → Bool
  | .eval e => e.isUnavailable
  | _ => false

namespace Folding

variable {α : Type}

/-- The known constants. -/
abbrev Constants (α : Type) : Type := Table Identity (Number α)

/-- The context of folding: whole dimensions are known for arrays of data only. -/
def context (functions : FunctionTable α) (shapes : Table String (List Nat))
    (constants : Constants α) : Context α where
  constants := constants
  functions := functions
  shapeOf name :=
    match shapes.get? name with
    | some shape => .ok shape
    | none => .error (.eval (.notConstant ⟨name, []⟩))

variable [Scalar α]

/-- The identity and the value that a logical statement adds, if its value is a new scalar. -/
def addition (ctx : Context α) (site : Site) (lhs rhs : Expr) :
    Except Failure (Option (Identity × Number α)) := do
  let id ← ctx.resolveTarget site lhs
  if ctx.constants.contains id then return none
  else
    let resolved ← ctx.resolve site rhs
    let v ← resolved.eval ctx.folding
    if v.shape.isEmpty then return some (id, ← v.toNumber) else return none

/-- Visits one statement. -/
def visit (functions : FunctionTable α) (shapes : Table String (List Nat))
    (constants : Constants α) (site : Site) : Except Failure (Constants α) :=
  match site.statement with
  | .assign _ lhs rhs =>
    match addition (context functions shapes constants) site lhs rhs with
    | .ok (some (id, n)) => .ok (constants.insert id n)
    | .ok none => .ok constants
    | .error e => if e.isUnavailable then .ok constants else .error e
  | _ => .ok constants

/-- One round through the model, in which every value can be used as soon as it is known. -/
def round (functions : FunctionTable α) (shapes : Table String (List Nat))
    (statements : List Stmt) (constants : Constants α) : Except Failure (Constants α) :=
  Stmt.walkAll ⟨false, context functions shapes, visit functions shapes⟩ [] constants statements

/-- What is still unknown, by level. -/
def measure (functions : FunctionTable α) (shapes : Table String (List Nat))
    (statements : List Stmt) (constants : Constants α) :
    Counts (Stmt.loopDepthOfAll statements + 1) :=
  let limit := Stmt.loopDepthOfAll statements
  Counts.ofList (limit + 1) 0
    (Stmt.unknownsOfAll (context functions shapes constants) limit 0 [] statements)

/-- Rounds until one adds nothing. -/
def saturate (functions : FunctionTable α) (shapes : Table String (List Nat))
    (statements : List Stmt) (constants : Constants α) : Except Failure (Constants α) :=
  match round functions shapes statements constants with
  | .error e => .error e
  | .ok next =>
    if next.size = constants.size then .ok next
    else if _h : Counts.less _ (measure functions shapes statements next)
        (measure functions shapes statements constants) = true then
      saturate functions shapes statements next
    else .ok next
termination_by measure functions shapes statements constants
decreasing_by exact Counts.rel_of_less _ _ _ _h

/-- The values of the data, and of all logical statements that depend on data only. -/
def constants (functions : FunctionTable α) (statements : List Stmt) (data : Bindings) :
    Except Failure (Constants α) :=
  saturate functions data.shapes statements
    (data.values.map fun n => n.map Scalar.ofDouble)

end Folding

end BayesGraph
