import BayesGraph.Callable
import BayesGraph.Table
import BayesGraph.Value.Arithmetic

/-!
# Evaluation of resolved expressions

`Expr.eval` computes the value of a resolved expression from the values of the identities and the
functions that it refers to. Operands and arguments are evaluated from left to right, and the first
error ends the evaluation.
-/

set_option autoImplicit false

namespace BayesGraph

/-- Functions by name. -/
abbrev FunctionTable (α : Type) : Type := Table String (Callable α)

/-- What an evaluation depends on. -/
structure Environment (α : Type) where
  rules : Rules
  mode : CallMode := .direct
  functions : FunctionTable α
  lookup : Identity → Except EvalError (Value α)

namespace Environment

variable {α : Type}

/-- Calls a function by name. An object that can not be looked up is no name at all. -/
def call (env : Environment α) (name : Datum) (arguments : List (Value α)) :
    Except EvalError (Value α) :=
  match name.text?.bind env.functions.get? with
  | some f => f.meaning env.mode arguments
  | none => .error (if name.isAtom then .unknownFunction name else .wrongKind)

end Environment

/-- The value of a literal; a truth value counts as an integer. -/
def Datum.value {α : Type} [Scalar α] : Datum → Value α
  | .int n => .int n
  | .real x => .real (Scalar.ofDouble x)
  | .truth b => .int (if b then 1 else 0)
  | d => .object d

namespace Expr

variable {α : Type} [Scalar α]

mutual

/-- The value of a resolved expression. -/
def eval (env : Environment α) : Expr → Except EvalError (Value α)
  | .literal val => .ok val.value
  | .ref id => env.lookup id
  | .refArray ids shape => do
    let vs ← ids.mapM fun id => do
      let v ← env.lookup id
      return .array env.rules (← v.toTensor)
    Value.block env.rules vs shape
  | .negate val => do
    (← eval env val).negate
  | .add left right => do
    let x ← eval env left
    let y ← eval env right
    x.add y
  | .sub left right => do
    let x ← eval env left
    let y ← eval env right
    x.sub y
  | .mul left right => do
    let x ← eval env left
    let y ← eval env right
    x.mul y
  | .div num den => do
    let x ← eval env num
    let y ← eval env den
    x.divide env.rules y
  | .pow base exponent => do
    let x ← eval env base
    let y ← eval env exponent
    x.power env.rules y
  | .call func arguments => do
    let xs ← evalAll env arguments
    env.call func xs
  | .var _ | .colon | .range _ _ | .index _ _ | .raw _ | .rawList _ => .error .unevaluable

/-- The values of the expressions of a list. -/
def evalAll (env : Environment α) : List Expr → Except EvalError (List (Value α))
  | [] => .ok []
  | e :: rest => do
    let v ← eval env e
    let vs ← evalAll env rest
    return v :: vs

end

end Expr

end BayesGraph
