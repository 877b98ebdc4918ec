import BayesGraph.Error

/-!
# Building syntax from plain objects

Numbers and texts may stand for expressions: a number for a literal, a text for the variable of
that name. `Expr.coerce` makes the step, and the other functions build a node from parts that may
still need it.
-/

set_option autoImplicit false

namespace BayesGraph

/-- An error about the construction of a tree, before there is a statement to name. -/
def Cause.alone {ν : Type} (c : Cause) : Except CompileError ν :=
  .error ⟨c, none, none⟩

namespace Expr

/-- The expression that an object stands for. -/
def coerce : Expr → Except CompileError Expr
  | .raw (.truth b) => (Cause.truthExpression b).alone
  | .raw (.int n) => .ok (.literal (.int n))
  | .raw (.real x) => .ok (.literal (.real x))
  | .raw (.text s) => .ok (.var (.text s))
  | .raw object => (Cause.notExpression object.describe object.kind).alone
  | .rawList items => (Cause.notExpression (describe (.rawList items)) "list").alone
  | e => .ok e

/-- A range whose ends are coerced. -/
def mkRange (start stop : Expr) : Except CompileError Expr := do
  let start ← start.coerce
  let stop ← stop.coerce
  return .range start stop

/-- An element or slice; at least one index is required. -/
def mkIndex (name : Datum) (indices : List Expr) : Except CompileError Expr := do
  if indices.isEmpty then (Cause.noIndex name.shown).alone
  else return .index name (← indices.mapM coerce)

/-- An operation on two operands. One of them has to be an expression, and the other one is
coerced. -/
def combine (make : Expr → Expr → Expr) (left right : Expr) : Except Failure Expr :=
  if left.isRaw then
    if right.isRaw then .error (.malformed .wrongKind)
    else (left.coerce.map fun a => make a right).mapError .compile
  else (right.coerce.map fun b => make left b).mapError .compile

/-- A power. The base has to be an expression, and the exponent is coerced. -/
def combinePower (base exponent : Expr) : Except Failure Expr :=
  if base.isRaw then .error (.malformed .wrongKind) else combine .pow base exponent

/-- The sign of an expression reversed. -/
def opposite (e : Expr) : Except Failure Expr :=
  if e.isRaw then .error (.malformed .wrongKind) else .ok (.negate e)

/-- A call whose arguments are coerced. -/
def mkCall (func : Datum) (arguments : List Expr) : Except CompileError Expr := do
  return .call func (← arguments.mapM coerce)

end Expr

/-- A distribution whose parameters and bounds are coerced, in this order. -/
def Dist.make (name : Datum) (params : List Expr) (lower upper : Option Expr) :
    Except CompileError Dist := do
  let params ← params.mapM Expr.coerce
  let lower ← lower.mapM Expr.coerce
  let upper ← upper.mapM Expr.coerce
  return ⟨name, params, lower, upper⟩

namespace Stmt

/-- A stochastic statement whose left-hand side is coerced. -/
def mkSample (comment : List String) (lhs : Expr) (law : Law) : Except CompileError Stmt := do
  return .sample comment (← lhs.coerce) law

/-- A logical statement whose sides are coerced. -/
def mkAssign (comment : List String) (lhs rhs : Expr) : Except CompileError Stmt := do
  let lhs ← lhs.coerce
  let rhs ← rhs.coerce
  return .assign comment lhs rhs

/-- A loop from one coerced bound to another. -/
def mkLoop (comment : List String) (var : Datum) (start stop : Expr) (body : List Stmt) :
    Except CompileError Stmt := do
  return .loop comment var (← Expr.mkRange start stop) body

end Stmt

end BayesGraph
