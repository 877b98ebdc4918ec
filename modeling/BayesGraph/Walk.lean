import BayesGraph.Resolution

/-!
# Walking through a model

`Stmt.walk` visits the instances of all statements, loops expanded. The visits can change a state,
and the context in which the bounds of later loops are evaluated depends on that state. Loops whose
bounds are not known are an error in a strict walk, and are passed over otherwise.
-/

set_option autoImplicit false

namespace BayesGraph

/-- How a walk goes on: the context at a state, the visit of an instance, and whether unknown loop
bounds are an error. -/
structure Walker (α σ : Type) where
  strict : Bool
  context : σ → Context α
  visit : σ → Site → Except Failure σ

namespace Walker

variable {α σ : Type} [Scalar α]

/-- The bounds of a loop; no bounds if they are unknown and the walk is not strict. -/
def bounds (w : Walker α σ) (state : σ) (site : Site) (start stop : Expr) :
    Except Failure (Option (Int × Int)) :=
  let ctx := w.context state
  let both : Except Failure (Int × Int) := do
    let lo ← ctx.evalIndex site start
    let hi ← ctx.evalIndex site stop
    return (lo, hi)
  if w.strict then (ctx.explain site .loopBound both).map some
  else
    match both with
    | .error (.eval (.notConstant _)) => .ok none
    | .error e => .error e
    | .ok b => .ok (some b)

end Walker

/-- The values of the loop variables inside one more loop. -/
def LoopValues.bind (env : LoopValues) (name : String) (value : Int) : LoopValues :=
  if env.any (fun e => e.1 == name) then
    env.map fun e => if e.1 == name then (name, value) else e
  else env ++ [(name, value)]

namespace Stmt

variable {α σ : Type} [Scalar α]

mutual

/-- Visits the instances of a statement. -/
def walk (w : Walker α σ) (env : LoopValues) (state : σ) : Stmt → Except Failure σ
  | .loop comment var (.range start stop) body => do
    let site : Site := ⟨.loop comment var (.range start stop) body, env⟩
    match ← w.bounds state site start stop with
    | none => return state
    | some (lo, hi) =>
      (integersBetween lo hi).foldlM
        (fun s i => walkAll w (env.bind var.shown i) s body) state
  | .loop comment var sequence body => w.visit state ⟨.loop comment var sequence body, env⟩
  | .sample comment lhs law => w.visit state ⟨.sample comment lhs law, env⟩
  | .assign comment lhs rhs => w.visit state ⟨.assign comment lhs rhs, env⟩
  | .raw object => w.visit state ⟨.raw object, env⟩

/-- Visits the instances of the statements of a list. -/
def walkAll (w : Walker α σ) (env : LoopValues) (state : σ) : List Stmt → Except Failure σ
  | [] => return state
  | s :: rest => do
    let next ← walk w env state s
    walkAll w env next rest

end

/-- All instances of a list of statements under one context. -/
def instances (ctx : Context α) (strict : Bool) (statements : List Stmt) :
    Except Failure (List Site) := do
  let sites ← walkAll ⟨strict, fun _ => ctx, fun sites site => .ok (site :: sites)⟩ [] [] statements
  return sites.reverse

end Stmt

end BayesGraph
